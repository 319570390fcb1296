import SkipPlatform.StoreSourceMap

set_option autoImplicit false
set_option linter.unusedSectionVars false

/-! When a source map answers like the plain sorted vector of its rows. -/
namespace SkipPlatform.StoreSourceMap
open List SortedSearch
variable {D K : Type} [LinearOrder D] [Key K]

/-- Equality of writes, with keys compared as the store compares them. -/
inductive MInfo.Same : MInfo D K → MInfo D K → Prop
  | refl (m : MInfo D K) : Same m m
  | single (k k' : K) (h : Key.compare k k' = .eq) : Same (.single k) (.single k')

namespace FixedSourceMap

structure Agrees (m plain : FixedSourceMap D K) : Prop where
  maybeGet : ∀ source,
    Option.Rel (Option.Rel MInfo.Same) (m.maybeGet source) (plain.maybeGet source)
  items : Option.Rel (List.Forall₂ fun a b => a.1 = b.1 ∧ a.2.Same b.2) m.items plain.items
  size : m.size = plain.size

def Faithful (m : FixedSourceMap D K) (data : List (Row D K)) (allowDuplicates : Bool) : Prop :=
  ∃ plain, FSMImpl.create data allowDuplicates = some plain ∧ m.Agrees plain

theorem optionRel_refl {α : Type} {R : α → α → Prop} (h : ∀ a, R a a) (o : Option α) :
    Option.Rel R o o := by
  cases o with
  | none => exact .none
  | some a => exact .some (h a)

theorem Agrees.refl (m : FixedSourceMap D K) : m.Agrees m :=
  ⟨fun _ => optionRel_refl (optionRel_refl MInfo.Same.refl) _,
    optionRel_refl (fun _ => forall₂_same.mpr fun _ _ => ⟨rfl, .refl _⟩) _, rfl⟩

theorem compare_dir_ne {p q : Source D K} (h : p.dirName ≠ q.dirName) :
    p.compare q ≠ .eq := by
  intro he
  unfold Source.compare at he
  have hd : compare p.dirName q.dirName = .eq := by
    cases hc : compare p.dirName q.dirName with
    | eq => rfl
    | lt => rw [hc] at he; exact he
    | gt => rw [hc] at he; exact he
  exact h (compare_eq_iff_eq.mp hd)

theorem compare_same_dir {p q : Source D K} (h : p.dirName = q.dirName) :
    p.compare q = Key.compare p.baseName q.baseName := by
  unfold Source.compare
  rw [compare_eq_iff_eq.mpr h]
  rfl

def IdentityRow (dir : D) (row : Row D K) : Prop :=
  row.1.dirName = dir ∧ ∃ key, row.2 = .single key ∧ Key.compare key row.1.baseName = .eq

theorem identityRows_iff {dir : D} {data : List (Row D K)} :
    identityRows dir data = true ↔ ∀ row ∈ data, IdentityRow dir row := by
  unfold identityRows
  rw [all_eq_true]
  refine forall₂_congr fun row _ => ?_
  obtain ⟨source, minfo⟩ := row
  unfold IdentityRow
  cases minfo with
  | single key => simp
  | empty => simp
  | full keys newDirs reads => simp

theorem findFirst_map {α β : Type} (xs : List α) (g : α → β) (f : β → Ordering)
    (f' : α → Ordering) (h : ∀ x ∈ xs, f' x = f (g x)) :
    findFirst (xs.map g) f = findFirst xs f' := by
  unfold findFirst
  rw [length_map]
  refine findFirstBy_congr _ _ _ _ ?_
  intro i hi
  simp only [probe, List.getElem?_map, List.getElem?_eq_getElem hi, Option.map_some,
    Option.getD_some]
  exact (h _ (getElem_mem hi)).symm

theorem identity_agrees (dir : D) (rows : List (Row D K))
    (h : ∀ row ∈ rows, IdentityRow dir row) :
    (identity dir (rows.map fun row => row.1.baseName)).Agrees (fsm rows) := by
  refine ⟨?_, ?_, by simp [size]⟩
  · intro source
    by_cases hd : source.dirName = dir
    · have hindex : findFirst (rows.map fun row => row.1.baseName)
          (fun key => Key.compare source.baseName key) =
            findFirst rows fun row => source.compare row.1 := by
        refine findFirst_map rows _ _ _ ?_
        intro row hrow
        exact compare_same_dir (hd.trans (h row hrow).1.symm)
      unfold maybeGet
      simp only [hd, ne_eq, not_true_eq_false, if_false, hindex, List.getElem?_map]
      refine .some ?_
      cases hrow : rows[findFirst rows fun row => source.compare row.1]? with
      | none => exact .none
      | some row =>
        obtain ⟨hdir, key, hkey, hcmp⟩ := h row (mem_of_getElem? hrow)
        have hsame : row.1.compare source = Key.compare row.1.baseName source.baseName :=
          compare_same_dir (hdir.trans hd.symm)
        simp only [Option.map_some, Option.bind_some, hsame]
        by_cases hc : Key.compare row.1.baseName source.baseName = .eq
        · simp only [hc, if_true, hkey]
          exact .some (.single _ _ (Key.compare_symm _ _ hcmp))
        · simp only [hc, if_false]
          exact .none
    · unfold maybeGet
      simp only [ne_eq, hd, not_false_eq_true, if_true]
      refine .some ?_
      cases hrow : rows[findFirst rows fun row => source.compare row.1]? with
      | none => exact .none
      | some row =>
        have hne : row.1.compare source ≠ .eq := by
          apply compare_dir_ne
          rw [(h row (mem_of_getElem? hrow)).1]
          exact fun he => hd he.symm
        simp only [Option.bind_some, hne, if_false]
        exact .none
  · unfold items
    refine .some ?_
    rw [map_map, forall₂_map_left_iff]
    refine forall₂_same.mpr ?_
    intro row hrow
    obtain ⟨hdir, key, hkey, hcmp⟩ := h row hrow
    refine ⟨?_, ?_⟩
    · simp only [Function.comp, ← hdir]
    · rw [hkey]
      exact .single _ _ (Key.compare_symm _ _ hcmp)

variable (data : List (Row D K))

theorem faithful_of_no_metadata (allowDuplicates : Bool)
    {m : FixedSourceMap D K} (hm : create data allowDuplicates = some m)
    (h : getMetadata data = none) : m.Faithful data allowDuplicates := by
  unfold create at hm
  rw [h] at hm
  have hplain : ∀ {m : FixedSourceMap D K}, FSMImpl.create data allowDuplicates = some m →
      m.Faithful data allowDuplicates := fun {m} hm => ⟨m, hm, .refl m⟩
  cases data with
  | nil => exact hplain hm
  | cons first rest =>
    simp only [IdentityFSMImpl.create] at hm
    by_cases hid : identityRows first.1.dirName (first :: rest) = true
    · rw [if_pos hid] at hm
      by_cases hu : (allowDuplicates || assertUnique (fun a b => a.1.compare b.1 == .eq)
          (sortBy (first :: rest))) = true
      · rw [if_pos hu] at hm
        cases hm
        refine ⟨.fsm (sortBy (first :: rest)), by unfold FSMImpl.create; rw [if_pos hu], ?_⟩
        refine identity_agrees _ _ ?_
        intro row hrow
        exact identityRows_iff.mp hid row (mem_mergeSort.mp hrow)
      · rw [if_neg hu] at hm
        cases hm
    · rw [if_neg hid] at hm
      exact hplain hm

theorem seeRow_dir {seen seen' : Seen D K} {row : Row D K} (h : seeRow seen row = some seen') :
    seen'.dir = some row.1.dirName ∧ ∀ d, seen.dir = some d → d = row.1.dirName := by
  unfold seeRow at h
  by_cases hd : seen.dir.all (fun dir => decide (dir = row.1.dirName)) = true
  · rw [if_pos hd] at h
    refine ⟨?_, ?_⟩
    · split at h
      · split_ifs at h
        · obtain ⟨t, _, rfl⟩ := Option.map_eq_some_iff.mp h
          rfl
      · cases h
    · intro d he
      rw [he] at hd
      simpa using hd
  · rw [if_neg hd] at h
    cases h

theorem foldlM_seeRow_dir (seen seen' : Seen D K)
    (h : data.foldlM seeRow seen = some seen') (dir : D) (hdir : seen'.dir = some dir) :
    (∀ d, seen.dir = some d → d = dir) ∧ (∀ row ∈ data, row.1.dirName = dir) ∧
      (seen.dir = none → data ≠ []) := by
  induction data generalizing seen with
  | nil =>
    cases h
    refine ⟨?_, by simp, ?_⟩
    · intro d hd
      rw [hd] at hdir
      exact Option.some.inj hdir
    · intro hn
      rw [hn] at hdir
      cases hdir
  | cons row data ih =>
    rw [foldlM_cons, Option.bind_eq_bind, Option.bind_eq_some_iff] at h
    obtain ⟨seen₁, h₁, h₂⟩ := h
    obtain ⟨hfirst, hall, _⟩ := ih seen₁ h₂
    obtain ⟨hset, hold⟩ := seeRow_dir h₁
    have hrow : row.1.dirName = dir := hfirst _ hset
    refine ⟨fun d hd => (hold d hd).trans hrow, ?_, fun _ => by simp⟩
    intro r hr
    rcases mem_cons.mp hr with rfl | hr
    · exact hrow
    · exact hall r hr

theorem getMetadata_dir {data : List (Row D K)} {metadata : FSMMetadata D K}
    (h : getMetadata data = some metadata) :
    data ≠ [] ∧ ∀ row ∈ data, row.1.dirName = metadata.dir := by
  unfold getMetadata at h
  split at h
  · rename_i dir rowKinds minfoType hfold
    cases h
    obtain ⟨_, hall, hne⟩ := foldlM_seeRow_dir data _ _ hfold dir rfl
    exact ⟨hne rfl, hall⟩
  · cases h

theorem fsm_maybeGet_other_dir {rows : List (Row D K)} (dir : D) {source : Source D K}
    (h : ∀ row ∈ rows, row.1.dirName = dir) (hs : source.dirName ≠ dir) :
    (fsm rows).maybeGet source = some none := by
  unfold maybeGet
  simp only
  cases hrow : rows[findFirst rows fun row => source.compare row.1]? with
  | none => rfl
  | some row =>
    have hne : row.1.compare source ≠ .eq := by
      apply compare_dir_ne
      rw [h row (mem_of_getElem? hrow)]
      exact fun he => hs he.symm
    simp [hne]

theorem findFirstByM_le (delta : ℕ → Option Ordering) (l n r : ℕ) (h : l ≤ n)
    (hr : findFirstByM delta l n = some r) : r ≤ n := by
  fun_induction findFirstByM delta l n with
  | case1 l n hlt ih1 ih2 =>
    obtain ⟨o, ho, hr⟩ := Option.bind_eq_some_iff.mp hr
    by_cases hgt : o = .gt
    · rw [if_pos hgt] at hr
      exact ih1 (by omega) hr
    · rw [if_neg hgt] at hr
      have := ih2 (by omega) hr
      omega
  | case2 l n hlt =>
    cases hr
    omega

theorem findFirstByM_lt (delta : ℕ → Option Ordering) (n r : ℕ) (hn : 0 < n)
    (hmid : delta ((n - 1) / 2) = some .eq) (hr : findFirstByM delta 0 n = some r) : r < n := by
  rw [findFirstByM.eq_def, if_pos hn] at hr
  simp only [Nat.zero_add, Nat.sub_zero] at hr
  rw [hmid, Option.bind_some, if_neg (by simp)] at hr
  have := findFirstByM_le _ _ _ _ (Nat.zero_le _) hr
  omega

theorem compareValue_self {V : Type} [LinearOrder V] (v : Option V) : compareValue v v = .eq := by
  cases v with
  | none => rfl
  | some v => exact compare_eq_iff_eq.mpr rfl

/-- Some source of any other directory is answered with another source's writes, or
with a failure, by a map of extension rows. -/
theorem extendKey_answers (data : List (RowValues (Key.Val K))) (hne : data ≠ []) (col : ℕ)
    (kinds : Key.Kinds K) :
    ∃ row, extendKey (D := D) data col kinds row ≠ some none := by
  have hpos : 0 < data.length := length_pos_iff.mpr hne
  have hmid : (data.length - 1) / 2 < data.length := by omega
  cases hv : (data[(data.length - 1) / 2]).values[col]? with
  | none =>
    refine ⟨⟨[none], 0⟩, ?_⟩
    unfold extendKey
    simp only [List.getElem?_cons_zero, Option.bind_some]
    rw [findFirstByM.eq_def, if_pos hpos]
    simp [hv, hmid]
  | some value =>
    refine ⟨⟨[value], 0⟩, ?_⟩
    unfold extendKey
    simp only [List.getElem?_cons_zero, Option.bind_some]
    intro hnone
    obtain ⟨r, hr, hget⟩ := Option.map_eq_some_iff.mp hnone
    have hlt : r < data.length := by
      refine findFirstByM_lt _ _ _ hpos ?_ hr
      simp [hv, hmid, compareValue_self]
    simp [hlt] at hget

theorem mem_sortRows {V : Type} [LinearOrder V] {rows : List (RowValues V)} {r : RowValues V} :
    r ∈ sortRows rows ↔ r ∈ rows := mem_mergeSort

theorem sortRows_sorted {V : Type} [LinearOrder V] (rows : List (RowValues V)) :
    (sortRows rows).Pairwise (· ≤ ·) := by
  have h : (sortRows rows).Pairwise fun a b => decide (a ≤ b) = true := by
    refine pairwise_mergeSort ?_ ?_ rows
    · intro a b c hab hbc
      rw [decide_eq_true_iff] at hab hbc ⊢
      exact hab.trans hbc
    · intro a b
      simpa using le_total a b
  exact h.imp fun hab => of_decide_eq_true hab

theorem find_row {V : Type} [LinearOrder V] (rows : List (RowValues V)) (row : RowValues V)
    (h : row ∈ rows) :
    (sortRows rows)[findFirst (sortRows rows) fun r => compare row r]? = some row := by
  have hs := getElem?_findFirst_compare (sortRows rows) id row (sortRows_sorted rows)
  have hfind : ((sortRows rows).find? fun r => decide (id r = row)) = some row := by
    cases hf : (sortRows rows).find? fun r => decide (id r = row) with
    | none =>
      have := List.find?_eq_none.mp hf row (mem_sortRows.mpr h)
      simp at this
    | some r =>
      have := List.find?_some hf
      simp only [id, decide_eq_true_eq] at this
      rw [this]
  rw [hfind] at hs
  exact (Option.filter_eq_some_iff.mp hs).1

/-- A compact map ignores the directory of a source: it answers, for some source of a
directory it does not cover, as if the source were its own. -/
theorem compact_answers (allowDuplicates : Bool)
    (metadata : FSMMetadata D K) (hne : data ≠ []) {m : FixedSourceMap D K}
    (hm : CompactFSMImpl.createWithMetadata data metadata allowDuplicates = some m) (dir : D) :
    ∃ source : Source D K, source.dirName = dir ∧ m.maybeGet source ≠ some none := by
  unfold CompactFSMImpl.createWithMetadata at hm
  obtain ⟨stripped, hstrip, hm⟩ := Option.bind_eq_some_iff.mp hm
  split_ifs at hm with hu
  cases hm
  have hlen : stripped ≠ [] := by
    intro he
    rw [he] at hstrip
    cases data with
    | nil => exact hne rfl
    | cons row rest =>
      simp [mapM_cons, Option.bind_eq_some_iff] at hstrip
  have hsorted : sortRows stripped ≠ [] := by
    obtain ⟨r, hr⟩ := exists_mem_of_ne_nil _ hlen
    exact ne_nil_of_mem (mem_sortRows.mpr hr)
  obtain ⟨row, hrow⟩ := exists_mem_of_ne_nil _ hlen
  have hlookup := find_row stripped row hrow
  obtain ⟨dir₀, rowKinds, minfoType⟩ := metadata
  cases minfoType with
  | extension col kinds =>
    obtain ⟨r, hr⟩ := extendKey_answers (D := D) (sortRows stripped) hsorted col kinds
    refine ⟨⟨dir, Key.rowKey r rowKinds⟩, rfl, ?_⟩
    simpa [maybeGet, Key.view_rowKey] using hr
  | _ =>
    refine ⟨⟨dir, Key.rowKey row rowKinds⟩, rfl, ?_⟩
    simp [maybeGet, Key.view_rowKey, hlookup, reconstructMInfo]

/-- The map built from a vector answers like the plain map exactly when no compact form
was selected. -/
theorem create_faithful_iff [Nontrivial D] (data : List (Row D K)) (allowDuplicates : Bool)
    (m : FixedSourceMap D K) (hm : create data allowDuplicates = some m) :
    m.Faithful data allowDuplicates ↔ getMetadata data = none := by
  constructor
  · intro hf
    cases hmeta : getMetadata data with
    | none => rfl
    | some metadata =>
      exfalso
      obtain ⟨hne, hdir⟩ := getMetadata_dir hmeta
      obtain ⟨dir, hother⟩ := exists_ne metadata.dir
      unfold create at hm
      rw [hmeta] at hm
      obtain ⟨source, hsource, hanswer⟩ :=
        compact_answers data allowDuplicates metadata hne hm dir
      obtain ⟨plain, hplain, hagrees⟩ := hf
      unfold FSMImpl.create at hplain
      split_ifs at hplain
      cases hplain
      have hnone : (fsm (sortBy data)).maybeGet source = some none := by
        refine fsm_maybeGet_other_dir metadata.dir ?_ (hsource ▸ hother)
        intro row hrow
        exact hdir row (mem_mergeSort.mp hrow)
      have hrel := hagrees.maybeGet source
      rw [hnone] at hrel
      cases ho : m.maybeGet source with
      | none =>
        rw [ho] at hrel
        cases hrel
      | some answer =>
        rw [ho] at hrel
        cases hrel with
        | some hrel =>
          cases hrel
          exact hanswer ho
  · exact faithful_of_no_metadata data allowDuplicates hm

end FixedSourceMap

inductive IKind where
  | inone
  | iasc
  | idesc
  deriving DecidableEq

inductive SqlType where
  | float
  | integer
  | text
  | json
  | schema
  deriving DecidableEq

def IKind.rank : IKind → ℕ
  | inone => 0
  | iasc => 1
  | idesc => 2

def SqlType.rank : SqlType → ℕ
  | float => 0
  | integer => 1
  | text => 2
  | json => 3
  | schema => 4

abbrev Kinds := List (ℕ × IKind × SqlType)

/-- The keys of SQL directories, beside one ordinary class of keys. -/
inductive SqlKey where
  | rowKey (row : RowValues ℤ) (kinds : Kinds)
  | indexProjKey (row : RowValues ℤ) (columnIndices : List ℕ)
  | projKey (value : Option ℤ) (colNbr leftShard rightShard : ℕ)
  | iid (value : ℤ)

namespace SqlKey

def kindsRank (kinds : Kinds) : List (ℕ ×ₗ ℕ ×ₗ ℕ) :=
  kinds.map fun k => toLex (k.1, toLex (k.2.1.rank, k.2.2.rank))

def compareList {α : Type} [LinearOrder α] : List α → List α → Ordering
  | [], [] => .eq
  | [], _ :: _ => .lt
  | _ :: _, [] => .gt
  | a :: as, b :: bs => (Ord.compare a b).then (compareList as bs)

def unlessEq : Ordering → Option Ordering
  | .eq => none
  | order => some order

/-- One column of a comparison of rows; `none` goes on with the next column. -/
def compareColumn (direction : IKind) (x y : Option (Option ℤ)) : Option Ordering :=
  match x, y with
  | none, none => some .eq
  | none, some _ => some .lt
  | some _, none => some .gt
  | some v1, some v2 =>
    unlessEq (if direction = .idesc then compareValue v2 v1 else compareValue v1 v2)

def compareColumns (x y : RowValues ℤ) : List (ℕ × IKind) → Ordering
  | [] => .eq
  | (idx, direction) :: rest =>
    (compareColumn direction x.values[idx]? y.values[idx]?).getD (compareColumns x y rest)

def classRank : SqlKey → ℕ
  | indexProjKey .. => 0
  | projKey .. => 1
  | rowKey .. => 2
  | iid .. => 3

def compare : SqlKey → SqlKey → Ordering
  | rowKey row kinds, rowKey row2 kinds2 =>
    (compareList (kindsRank kinds) (kindsRank kinds2)).then
      (compareColumns row row2 (kinds.map fun k => (k.1, k.2.1)))
  | indexProjKey row cols, indexProjKey row2 cols2 =>
    (compareList cols cols2).then (compareColumns row row2 (cols.map fun c => (c, .inone)))
  | projKey value _ left right, projKey value2 _ left2 right2 =>
    (Ord.compare left left2).then ((Ord.compare right right2).then (compareValue value value2))
  | projKey .., _ => .lt
  | iid value, iid value2 => Ord.compare value value2
  | a, b => Ord.compare a.classRank b.classRank

theorem compareValue_eq {v w : Option ℤ} : compareValue v w = .eq ↔ v = w := by
  cases v <;> cases w <;> simp [compareValue]

theorem compareColumn_none {direction : IKind} {x y : Option (Option ℤ)} :
    compareColumn direction x y = none ↔ x = y ∧ x.isSome = true := by
  have hunless : ∀ o : Ordering, unlessEq o = none ↔ o = .eq := by
    intro o
    cases o <;> simp [unlessEq]
  cases x with
  | none => cases y <;> simp [compareColumn]
  | some v =>
    cases y with
    | none => simp [compareColumn]
    | some w =>
      unfold compareColumn
      simp only [Option.some.injEq, Option.isSome_some, and_true]
      rw [hunless]
      by_cases hd : direction = .idesc
      · rw [if_pos hd, compareValue_eq]
        exact eq_comm
      · rw [if_neg hd, compareValue_eq]

theorem compareColumn_eq {direction : IKind} {x y : Option (Option ℤ)} :
    compareColumn direction x y = some .eq ↔ x = none ∧ y = none := by
  cases x with
  | none => cases y <;> simp [compareColumn]
  | some v =>
    cases y with
    | none => simp [compareColumn]
    | some w =>
      have hunless : ∀ o : Ordering, unlessEq o ≠ some .eq := by
        intro o
        cases o <;> simp [unlessEq]
      simp [compareColumn, hunless]

theorem compareColumns_symm (x y : RowValues ℤ) (columns : List (ℕ × IKind))
    (h : compareColumns x y columns = .eq) : compareColumns y x columns = .eq := by
  induction columns with
  | nil => rfl
  | cons column rest ih =>
    obtain ⟨idx, direction⟩ := column
    unfold compareColumns at h ⊢
    cases hc : compareColumn direction x.values[idx]? y.values[idx]? with
    | none =>
      rw [hc] at h
      obtain ⟨he, hs⟩ := compareColumn_none.mp hc
      have hc' : compareColumn direction y.values[idx]? x.values[idx]? = none :=
        compareColumn_none.mpr ⟨he.symm, he ▸ hs⟩
      rw [hc']
      exact ih h
    | some order =>
      rw [hc] at h
      rw [Option.getD_some] at h
      subst h
      obtain ⟨hx, hy⟩ := compareColumn_eq.mp hc
      rw [hx, hy]
      rfl

theorem kindsRank_injective : Function.Injective kindsRank := by
  refine map_injective_iff.mpr ?_
  rintro ⟨i, k, t⟩ ⟨i', k', t'⟩ h
  have h' : (i, toLex (k.rank, t.rank)) = (i', toLex (k'.rank, t'.rank)) := toLex.injective h
  simp only [Prod.mk.injEq, toLex_inj] at h'
  obtain ⟨rfl, hk, ht⟩ := h'
  have hk' : k = k' := by cases k <;> cases k' <;> simp_all [IKind.rank]
  have ht' : t = t' := by cases t <;> cases t' <;> simp_all [SqlType.rank]
  rw [hk', ht']

theorem then_eq {a b : Ordering} : a.then b = .eq ↔ a = .eq ∧ b = .eq := by
  cases a <;> simp [Ordering.then]

theorem compareList_eq {α : Type} [LinearOrder α] {as bs : List α} :
    compareList as bs = .eq ↔ as = bs := by
  induction as generalizing bs with
  | nil => cases bs <;> simp [compareList]
  | cons a as ih =>
    cases bs with
    | nil => simp [compareList]
    | cons b bs => simp [compareList, ih]

theorem compare_symm (a b : SqlKey) (h : compare a b = .eq) : compare b a = .eq := by
  cases a <;> cases b <;>
    simp only [compare, then_eq, compare_eq_iff_eq, compareList_eq, classRank, reduceCtorEq] at h ⊢
  case rowKey.rowKey row kinds row2 kinds2 =>
    obtain ⟨hk, hr⟩ := h
    obtain rfl := kindsRank_injective hk
    exact ⟨rfl, compareColumns_symm _ _ _ hr⟩
  case indexProjKey.indexProjKey row cols row2 cols2 =>
    obtain ⟨rfl, hr⟩ := h
    exact ⟨rfl, compareColumns_symm _ _ _ hr⟩
  case projKey.projKey value c l r value2 c2 l2 r2 =>
    obtain ⟨rfl, rfl, hv⟩ := h
    exact ⟨rfl, rfl, compareValue_eq.mpr (compareValue_eq.mp hv).symm⟩
  case iid.iid => exact h.symm
  all_goals omega

def view : SqlKey → KeyView ℤ Kinds
  | rowKey row kinds => .rowKey row kinds
  | indexProjKey row columnIndices => .indexProjKey row columnIndices
  | projKey value colNbr leftShard rightShard => .projKey value colNbr leftShard rightShard
  | iid _ => .other

instance : Key SqlKey where
  Val := ℤ
  Kinds := Kinds
  valOrder := inferInstance
  kindsEq := inferInstance
  compare := compare
  compare_symm := compare_symm
  view := view
  rowKey := rowKey
  indexProjKey := indexProjKey
  projKey := projKey
  view_rowKey _ _ := rfl

end SqlKey

namespace FixedSourceMap

def sampleKinds : Kinds := [(0, .inone, .integer)]

/-- Row `v` of a one-column table. -/
def sampleSource (v : ℤ) : Source ℕ SqlKey := ⟨0, .rowKey ⟨[some v], 1⟩ sampleKinds⟩

def sampleRow (v w : ℤ) : RowValues ℤ := ⟨[some v, some w], 1⟩

def sampleWrite (v w : ℤ) : MInfo ℕ SqlKey := .single (.rowKey (sampleRow v w) sampleKinds)

/-- Each source writes one wider row whose second column is the source's value. -/
def sampleRows : List (Row ℕ SqlKey) :=
  [(sampleSource 1, sampleWrite 5 1), (sampleSource 2, sampleWrite 3 2)]

theorem getMetadata_sampleRows :
    getMetadata sampleRows = some ⟨0, sampleKinds, .extension 1 sampleKinds⟩ := rfl

theorem sampleRow_lt : sampleRow 3 2 < sampleRow 5 1 := by
  change (sampleRow 3 2).toLexPair < (sampleRow 5 1).toLexPair
  rw [RowValues.toLexPair, RowValues.toLexPair, Prod.Lex.toLex_lt_toLex]
  left
  decide

theorem sortRows_sampleRow :
    sortRows [sampleRow 5 1, sampleRow 3 2] = [sampleRow 3 2, sampleRow 5 1] := by
  have hp : (sortRows [sampleRow 5 1, sampleRow 3 2]).Perm [sampleRow 3 2, sampleRow 5 1] :=
    (mergeSort_perm _ _).trans (List.Perm.swap _ _ _)
  exact hp.eq_of_pairwise (fun a b _ _ => le_antisymm) (sortRows_sorted _)
    (pairwise_pair.mpr sampleRow_lt.le)

theorem sortBy_sampleRows : sortBy sampleRows = sampleRows := by
  refine mergeSort_of_pairwise (pairwise_pair.mpr ?_)
  decide

def sampleMap : FixedSourceMap ℕ SqlKey :=
  compact ⟨0, sampleKinds, .extension 1 sampleKinds⟩ [sampleRow 3 2, sampleRow 5 1]

theorem create_sampleRows : create sampleRows false = some sampleMap := by
  have hu : (false || assertUnique (fun a b => decide (a = b)) [sampleRow 3 2, sampleRow 5 1]) =
      true := by
    simp [assertUnique, sampleRow_lt.ne]
  unfold create
  rw [getMetadata_sampleRows]
  change (if (false || assertUnique (fun a b => decide (a = b))
    (sortRows [sampleRow 5 1, sampleRow 3 2])) = true then
      some (compact (K := SqlKey) _ (sortRows [sampleRow 5 1, sampleRow 3 2])) else none) = _
  rw [sortRows_sampleRow, if_pos hu]
  rfl

theorem maybeGet_sampleMap :
    sampleMap.maybeGet (sampleSource 1) = some (some (sampleWrite 3 2)) := by
  have hfind : findFirstByM (fun i => ([sampleRow 3 2, sampleRow 5 1][i]?.bind fun r =>
      r.values[1]?).map (compareValue (some 1))) 0 2 = some 0 := by
    rw [findFirstByM.eq_def, if_pos (by decide)]
    change (some Ordering.lt).bind _ = _
    rw [Option.bind_some, if_neg (by decide), findFirstByM.eq_def, if_neg (by decide)]
  change (Option.map _ (findFirstByM (fun i => ([sampleRow 3 2, sampleRow 5 1][i]?.bind fun r =>
      r.values[1]?).map (compareValue (some 1))) 0 2)) = _
  rw [hfind]
  rfl

theorem maybeGet_fsm_sample :
    (fsm sampleRows).maybeGet (sampleSource 1) = some (some (sampleWrite 5 1)) := by
  have hfind : findFirst sampleRows (fun row => (sampleSource 1).compare row.1) = 0 := by
    unfold findFirst
    rw [findFirstBy.eq_def, if_pos (by decide), if_neg (by decide), findFirstBy.eq_def,
      if_neg (by decide)]
  unfold maybeGet
  simp only [hfind]
  rfl

/-- Looking up the first source finds the writes of the second. -/
theorem extension_unfaithful :
    ∃ m : FixedSourceMap ℕ SqlKey, create sampleRows false = some m ∧
      m.maybeGet (sampleSource 1) = some (some (sampleWrite 3 2)) ∧
      FSMImpl.create sampleRows false = some (fsm sampleRows) ∧
      (fsm sampleRows).maybeGet (sampleSource 1) = some (some (sampleWrite 5 1)) ∧
      ¬m.Faithful sampleRows false := by
  have hplain : FSMImpl.create sampleRows false = some (fsm sampleRows) := by
    unfold FSMImpl.create
    rw [sortBy_sampleRows, if_pos (by decide)]
  refine ⟨_, create_sampleRows, maybeGet_sampleMap, hplain, maybeGet_fsm_sample, ?_⟩
  rintro ⟨plain, hp, hagrees⟩
  rw [hplain] at hp
  cases hp
  have hrel := hagrees.maybeGet (sampleSource 1)
  rw [maybeGet_sampleMap, maybeGet_fsm_sample] at hrel
  cases hrel with
  | some hrel =>
    cases hrel with
    | some hsame =>
      cases hsame with
      | single _ _ h => exact absurd h (by decide)

def identitySample : List (Row ℕ SqlKey) :=
  [(⟨0, .iid 4⟩, .single (.iid 4)), (⟨0, .iid 7⟩, .single (.iid 7))]

theorem create_identitySample :
    create identitySample false = some (identity 0 [.iid 4, .iid 7]) := by
  have hs : sortBy identitySample = identitySample := by
    refine mergeSort_of_pairwise (pairwise_pair.mpr ?_)
    decide
  have hid : identityRows 0 identitySample = true := by decide
  change IdentityFSMImpl.create identitySample false = _
  unfold IdentityFSMImpl.create identitySample
  simp only
  change (if identityRows 0 identitySample = true then
    if (false || assertUnique _ (sortBy identitySample)) = true then
      some (identity 0 ((sortBy identitySample).map _)) else none else _) = _
  rw [if_pos hid, hs, if_pos (by decide)]
  rfl

theorem create_faithful_identity :
    (identity 0 [.iid 4, .iid 7] : FixedSourceMap ℕ SqlKey).Faithful identitySample false :=
  (create_faithful_iff identitySample false _ create_identitySample).mpr rfl

end FixedSourceMap
end SkipPlatform.StoreSourceMap
