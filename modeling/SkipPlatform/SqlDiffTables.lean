import SkipPlatform.SqlDiff

set_option autoImplicit false
set_option linter.unusedSectionVars false

/-! What the steps of a diff do to the rows of a table. -/
namespace SkipPlatform
open List

namespace TableDir

variable {V : Type} [DecidableEq V] {t : TableDir V}

variable {e : RowEntry V}

theorem mem_live : e ∈ t.live ↔ e ∈ t.entries ∧ 0 < e.repeatCount := by
  simp [live, RowEntry.live]

theorem eq_of_path_eq {e e' : RowEntry V} (he : e ∈ t.entries) (he' : e' ∈ t.entries)
    (h : e.path = e'.path) : e = e' :=
  inj_on_of_nodup_map t.nodup he he' h

theorem find?_path (he : e ∈ t.entries) :
    t.entries.find? (·.path = (e.values, e.source)) = some e := by
  cases hfind : t.entries.find? (·.path = (e.values, e.source)) with
  | none =>
    have hno := List.find?_eq_none.mp hfind e he
    simp [RowEntry.path] at hno
  | some e' =>
    have hpath : e'.path = (e.values, e.source) := by simpa using List.find?_some hfind
    rw [eq_of_path_eq (List.mem_of_find?_eq_some hfind) he hpath]

theorem repeatAt_of_mem (he : e ∈ t.entries) :
    t.repeatAt e.values e.source = e.repeatCount := by
  rw [repeatAt, find?_path he]
  rfl

variable {values : Row V}

theorem repeatAt_of_not_mem {source : ℕ}
    (h : ∀ e ∈ t.live, e.path ≠ (values, source)) : t.repeatAt values source = 0 := by
  unfold repeatAt
  cases hfind : t.entries.find? (·.path = (values, source)) with
  | none => rfl
  | some e =>
    have hpath : e.path = (values, source) := by simpa using List.find?_some hfind
    have hmem := List.mem_of_find?_eq_some hfind
    show e.repeatCount = 0
    by_contra hne
    exact h e (mem_live.mpr ⟨hmem, Nat.pos_of_ne_zero hne⟩) hpath

theorem repeatAt_pos {source : ℕ} :
    0 < t.repeatAt values source ↔ ∃ e ∈ t.live, e.path = (values, source) := by
  constructor
  · intro h
    by_contra hno
    have hzero := repeatAt_of_not_mem fun e he hpath => hno ⟨e, he, hpath⟩
    omega
  · intro h
    obtain ⟨e, he, hpath⟩ := h
    have hmem := mem_live.mp he
    have hrep := repeatAt_of_mem hmem.1
    rw [show e.values = values from congrArg Prod.fst hpath,
      show e.source = source from congrArg Prod.snd hpath] at hrep
    omega

theorem repeatAt_congr {t' : TableDir V} {source : ℕ}
    (h : ∀ e : RowEntry V, e.path = (values, source) → (e ∈ t.live ↔ e ∈ t'.live)) :
    t.repeatAt values source = t'.repeatAt values source := by
  by_cases hpos : 0 < t.repeatAt values source
  · obtain ⟨e, he, hpath⟩ := repeatAt_pos.mp hpos
    have he' := (h e hpath).mp he
    have hrep := repeatAt_of_mem (mem_live.mp he).1
    have hrep' := repeatAt_of_mem (mem_live.mp he').1
    rw [show e.values = values from congrArg Prod.fst hpath,
      show e.source = source from congrArg Prod.snd hpath] at hrep hrep'
    rw [hrep, hrep']
  · have hzero : t'.repeatAt values source = 0 := by
      refine repeatAt_of_not_mem fun e he hpath => hpos ?_
      exact repeatAt_pos.mpr ⟨e, (h e hpath).mpr he, hpath⟩
    omega

theorem entries_writeEntry {tick source writer repeatCount : ℕ}
    (h : t.repeatAt values source ≠ repeatCount) :
    (t.writeEntry tick source writer values repeatCount).entries =
      t.entries.filter (·.path ≠ (values, source)) ++
        [⟨values, source, writer, tick, repeatCount⟩] := by
  unfold writeEntry
  rw [if_neg h]

theorem mem_entries_writeEntry {tick source writer repeatCount : ℕ} {values : Row V}
    (h : t.repeatAt values source ≠ repeatCount) {e : RowEntry V} :
    e ∈ (t.writeEntry tick source writer values repeatCount).entries ↔
      e ∈ t.entries ∧ e.path ≠ (values, source) ∨
        e = ⟨values, source, writer, tick, repeatCount⟩ := by
  rw [entries_writeEntry h]
  simp [mem_filter]

theorem repeatAt_writeEntry (tick source writer repeatCount : ℕ) (values v : Row V) (s : ℕ) :
    (t.writeEntry tick source writer values repeatCount).repeatAt v s =
      if (v, s) = (values, source) then repeatCount else t.repeatAt v s := by
  by_cases h : t.repeatAt values source = repeatCount
  · unfold writeEntry
    rw [if_pos h]
    split_ifs with hpath
    · cases hpath
      exact h
    · rfl
  · unfold repeatAt
    rw [entries_writeEntry h, List.find?_append, List.find?_filter]
    split_ifs with hpath
    · rw [← hpath]
      have hnone : t.entries.find? (fun e => decide (decide (e.path ≠ (v, s)) = true ∧
          decide (e.path = (v, s)) = true)) = none := by
        rw [List.find?_eq_none]
        intro e _
        simp
      rw [hnone]
      cases hpath
      simp [RowEntry.path]
    · have hsame : (fun e : RowEntry V => decide (decide (e.path ≠ (values, source)) = true ∧
          decide (e.path = (v, s)) = true)) = fun e => decide (e.path = (v, s)) := by
        funext e
        by_cases he : e.path = (v, s)
        · simp [he, hpath]
        · simp [he]
      have hlast : List.find? (fun e : RowEntry V => decide (e.path = (v, s)))
          [⟨values, source, writer, tick, repeatCount⟩] = none := by
        rw [List.find?_eq_none]
        intro e he
        rw [mem_singleton.mp he]
        simpa [RowEntry.path] using fun h1 h2 => hpath (by rw [h1, h2])
      rw [hsame, hlast, Option.or_none]

theorem mem_live_remove {tick source writer : ℕ} :
    e ∈ (t.writeEntry tick source writer values 0).live ↔
      e ∈ t.live ∧ e.path ≠ (values, source) := by
  by_cases h : t.repeatAt values source = 0
  · have hsame : t.writeEntry tick source writer values 0 = t := by
      unfold writeEntry
      rw [if_pos h]
    rw [hsame]
    refine ⟨fun he => ⟨he, fun hpath => ?_⟩, fun he => he.1⟩
    have hpos := repeatAt_pos.mpr ⟨e, he, hpath⟩
    omega
  · rw [mem_live, mem_entries_writeEntry h, mem_live]
    constructor
    · intro he
      rcases he.1 with hold | hnew
      · exact ⟨⟨hold.1, he.2⟩, hold.2⟩
      · have hpos := he.2
        rw [hnew] at hpos
        exact absurd hpos (Nat.lt_irrefl 0)
    · intro he
      exact ⟨.inl ⟨he.1.1, he.2⟩, he.1.2⟩

theorem mem_live_write {tick source writer repeatCount : ℕ}
    (hpos : 0 < repeatCount) : e ∈ (t.writeEntry tick source writer values repeatCount).live ↔
      e ∈ t.live ∧ e.path ≠ (values, source) ∨
        e.path = (values, source) ∧ e.repeatCount = repeatCount ∧
          (e ∈ t.live ∨ t.repeatAt values source ≠ repeatCount ∧
            e = ⟨values, source, writer, tick, repeatCount⟩) := by
  by_cases h : t.repeatAt values source = repeatCount
  · have hsame : t.writeEntry tick source writer values repeatCount = t := by
      unfold writeEntry
      rw [if_pos h]
    rw [hsame]
    constructor
    · intro he
      by_cases hpath : e.path = (values, source)
      · have hrep := repeatAt_of_mem (mem_live.mp he).1
        rw [show e.values = values from congrArg Prod.fst hpath,
          show e.source = source from congrArg Prod.snd hpath] at hrep
        exact .inr ⟨hpath, hrep.symm.trans h, .inl he⟩
      · exact .inl ⟨he, hpath⟩
    · intro he
      rcases he with he | he
      · exact he.1
      · rcases he.2.2 with hold | hnew
        · exact hold
        · exact absurd h hnew.1
  · rw [mem_live, mem_entries_writeEntry h, mem_live]
    constructor
    · intro he
      rcases he.1 with hold | hnew
      · exact .inl ⟨⟨hold.1, he.2⟩, hold.2⟩
      · exact .inr ⟨by rw [hnew]; rfl, by rw [hnew], .inr ⟨h, hnew⟩⟩
    · intro he
      rcases he with he | he
      · exact ⟨.inl ⟨he.1.1, he.2⟩, he.1.2⟩
      · rcases he.2.2 with hold | hnew
        · have hrep := repeatAt_of_mem (mem_live.mp (mem_live.mpr hold)).1
          rw [show e.values = values from congrArg Prod.fst he.1,
            show e.source = source from congrArg Prod.snd he.1] at hrep
          exact absurd (hrep.trans he.2.1) h
        · refine ⟨.inr hnew.2, ?_⟩
          rw [hnew.2]
          exact hpos

theorem mem_live_removeAll (tick writer : ℕ) (paths : List (Row V × ℕ)) (t : TableDir V) :
    e ∈ (paths.foldl (fun t path => t.writeEntry tick path.2 writer path.1 0) t).live ↔
      e ∈ t.live ∧ e.path ∉ paths := by
  induction paths generalizing t with
  | nil => simp
  | cons path paths ih =>
    rw [foldl_cons, ih, mem_live_remove, mem_cons]
    tauto

end TableDir

section Steps

variable {V : Type} [LinearOrder V] {t : TableDir V} {snapshot writer tick : ℕ}

theorem mem_live_removeOld {values : Row V} {e : RowEntry V} :
    e ∈ (removeOld snapshot writer tick t values).live ↔
      e ∈ t.live ∧ ¬(e.values = values ∧ isOld snapshot writer e = true) := by
  have hfold : removeOld snapshot writer tick t values =
      (((t.live.filter fun e => decide (e.values = values) && isOld snapshot writer e).map
        fun e => (values, e.source))).foldl
          (fun t path => t.writeEntry tick path.2 writer path.1 0) t := by
    unfold removeOld
    rw [foldl_map, foldl_map]
  rw [hfold, TableDir.mem_live_removeAll]
  refine and_congr_right fun he => not_congr ?_
  simp only [mem_map, mem_filter, Bool.and_eq_true, decide_eq_true_eq]
  constructor
  · intro h
    obtain ⟨e', he', hpath⟩ := h
    have hsame : e' = e := by
      refine TableDir.eq_of_path_eq (TableDir.mem_live.mp he'.1).1 (TableDir.mem_live.mp he).1 ?_
      rw [← hpath, ← he'.2.1]
      rfl
    rw [← hsame]
    exact he'.2
  · intro h
    exact ⟨e, ⟨he, h⟩, by rw [← h.1]; rfl⟩

variable (kinds : List ℕ)

theorem compareKinds_self : compareKinds kinds kinds = .eq := by
  induction kinds with
  | nil => rfl
  | cons a kinds ih => simp [compareKinds, ih, Ordering.then]

theorem compareKinds_gt {fields : List ℕ} {i m : ℕ} (hperm : fields.Perm (List.range' i m))
    (hne : fields ≠ List.range' i m) : compareKinds fields (List.range' i m) = .gt := by
  induction m generalizing fields i with
  | zero =>
    simp only [range'_zero, perm_nil] at hperm
    exact absurd hperm hne
  | succ m ih =>
    cases fields with
    | nil => simp at hperm
    | cons a fields =>
      have ha : a ∈ List.range' i (m + 1) := hperm.subset mem_cons_self
      rw [range'_succ] at hperm hne ⊢
      have hle : i ≤ a := (mem_range'_1.mp ha).1
      by_cases hai : a = i
      · subst hai
        have htail : fields ≠ List.range' (a + 1) m := fun h => hne (by rw [h])
        simp only [compareKinds]
        rw [ih hperm.cons_inv htail]
        simp [Ordering.then]
      · have hgt : compare a i = .gt := Nat.compare_eq_gt.mpr (by omega)
        simp only [compareKinds]
        rw [hgt]
        rfl

def firstValue (x : Row V) : WithBot V := x.getD 0 none

theorem firstValue_le {kinds : List ℕ} {x y : Row V} (hx : x ≠ []) (hy : y ≠ [])
    (h : compareRows (0 :: kinds) x y ≠ .gt) : firstValue x ≤ firstValue y := by
  have hxl := length_pos_of_ne_nil hx
  have hyl := length_pos_of_ne_nil hy
  unfold firstValue
  unfold compareRows at h
  rw [if_neg (by omega), if_neg (by omega), if_neg (by omega)] at h
  revert h
  cases x.getD 0 none with
  | none => exact fun _ => (bot_le : (⊥ : WithBot V) ≤ y.getD 0 none)
  | some v1 =>
    cases y.getD 0 none with
    | none => exact fun h => absurd rfl h
    | some v2 =>
      intro h
      show (v1 : WithBot V) ≤ (v2 : WithBot V)
      refine WithBot.coe_le_coe.mpr ?_
      by_contra hlt
      have hgt : compare v1 v2 = .gt := compare_gt_iff_gt.mpr (not_le.mp hlt)
      change (compare v1 v2).then (compareRows kinds x y) ≠ .gt at h
      rw [hgt] at h
      exact h rfl

theorem compareRows_single {kinds : List ℕ} (hkinds : ∀ idx ∈ kinds, 0 < idx) {v : Option V}
    {y : Row V} (hy : y ≠ []) (h : y.getD 0 none = v) :
    compareRows (0 :: kinds) [v] y ≠ .gt := by
  have hyl := length_pos_of_ne_nil hy
  have hrest : compareRows kinds [v] y ≠ .gt := by
    cases kinds with
    | nil => simp [compareRows]
    | cons idx kinds =>
      have hidx := hkinds idx mem_cons_self
      unfold compareRows
      have hlen : idx ≥ [v].length := hidx
      split_ifs
      · simp
      · simp
  unfold compareRows
  rw [if_neg (by simp), if_neg (by simp), if_neg (by omega), h]
  cases v with
  | none => exact hrest
  | some v =>
    simp only [getD_cons_zero]
    rw [compare_eq_iff_eq.mpr rfl]
    exact hrest

theorem compareRows_self (x : Row V) : compareRows kinds x x = .eq := by
  induction kinds with
  | nil => rfl
  | cons idx kinds ih =>
    unfold compareRows
    by_cases hidx : idx ≥ x.length
    · rw [if_pos ⟨hidx, hidx⟩]
    · rw [if_neg fun h => hidx h.1, if_neg hidx, if_neg hidx]
      cases x.getD idx none with
      | none => exact ih
      | some v =>
        show (compare v v).then (compareRows kinds x x) = .eq
        rw [compare_eq_iff_eq.mpr rfl]
        exact ih

theorem RowKey.compare_mk (x y : Row V) :
    RowKey.compare ⟨x, kinds⟩ ⟨y, kinds⟩ = compareRows kinds x y := by
  unfold RowKey.compare
  rw [compareKinds_self]
  rfl

end Steps

def TableDir.Sized {V : Type} (t : TableDir V) (columns : ℕ) : Prop :=
  ∀ e ∈ t.live, e.values.length = columns

/-- Every index has all columns, and a primary key has a unique index of its own. -/
structure TableSchema.WellFormed (schema : TableSchema) : Prop where
  fields : ∀ index ∈ schema.indexes, index.fields.Perm schema.kinds
  primary : ∀ primaryIdx, schema.primary = some primaryIdx → primaryIdx < schema.columns ∧
    ∃ index ∈ schema.indexes, index.unique = true ∧
      index.fields.take index.size = [primaryIdx]

section Found

variable {V : Type} [LinearOrder V] {schema : TableSchema} {index : IndexDescr} {t : TableDir V}
  {primaryIdx : ℕ} {row : RowValues V}

theorem mem_lwwFound (hcolumns : 0 < schema.columns) (hsized : t.Sized schema.columns)
    (hfields : index.fields = schema.kinds) {e : RowEntry V} :
    e ∈ lwwFound schema primaryIdx index t row ↔
      e ∈ t.live ∧ e.values.getD 0 none = row.values.getD primaryIdx none := by
  obtain ⟨m, hm⟩ : ∃ m, schema.columns = m + 1 := ⟨schema.columns - 1, by omega⟩
  have hkinds : schema.kinds = 0 :: List.range' 1 m := by
    rw [TableSchema.kinds, hm, range_eq_range', range'_succ]
  have hpositive : ∀ idx ∈ List.range' 1 m, 0 < idx := fun idx hidx =>
    (mem_range'_1.mp hidx).1
  have hkey : ∀ values : Row V, schema.indexKey index values = ⟨values, schema.kinds⟩ := by
    intro values
    unfold TableSchema.indexKey
    rw [if_pos hfields]
  have hne : ∀ e ∈ t.live, e.values ≠ [] := by
    intro e he hnil
    have hlen := hsized e he
    rw [hnil, hm] at hlen
    cases hlen
  have hvisited : ∀ e ∈ t.live, isVisited schema index t ⟨[row.values.getD primaryIdx none],
      index.fields⟩ (row.values.getD primaryIdx none) e = true ↔
        e.values.getD 0 none = row.values.getD primaryIdx none := by
    intro e he
    unfold isVisited
    simp only [hkey, hfields, RowKey.compare_mk, Bool.and_eq_true, all_eq_true,
      Bool.or_eq_true, decide_eq_true_eq]
    constructor
    · intro h
      rcases h.2 e he with (hgt | hgt) | heq
      · exact absurd hgt h.1
      · rw [compareRows_self] at hgt
        cases hgt
      · exact heq
    · intro h
      refine ⟨?_, fun e' he' => ?_⟩
      · rw [hkinds]
        exact compareRows_single hpositive (hne e he) h
      · by_cases hstart : compareRows schema.kinds [row.values.getD primaryIdx none] e'.values = .gt
        · exact .inl (.inl hstart)
        · by_cases hend : compareRows schema.kinds e'.values e.values = .gt
          · exact .inl (.inr hend)
          · right
            rw [hkinds] at hstart hend
            have hlow := firstValue_le (by simp) (hne e' he') hstart
            have hhigh := firstValue_le (hne e' he') (hne e he) hend
            have heq : firstValue e.values = firstValue [row.values.getD primaryIdx none] := h
            show firstValue e'.values = firstValue [row.values.getD primaryIdx none]
            exact le_antisymm (hhigh.trans heq.le) hlow
  unfold lwwFound
  simp only [mem_filter, any_eq_true, mem_map, decide_eq_true_eq]
  refine and_congr_right fun he => ?_
  constructor
  · intro h
    obtain ⟨key, ⟨e', he', rfl⟩, heq⟩ := h
    rw [hkey] at heq
    have hvalue := (hvisited e' he'.1).mp he'.2
    rw [show e'.values = e.values from heq] at hvalue
    exact hvalue
  · intro h
    exact ⟨_, ⟨e, ⟨he, (hvisited e he).mpr h⟩, rfl⟩, by rw [hkey]⟩

theorem lwwFound_eq_nil (hperm : index.fields.Perm schema.kinds)
    (hfields : index.fields ≠ schema.kinds) : lwwFound schema primaryIdx index t row = [] := by
  have hgt : compareKinds index.fields schema.kinds = .gt := by
    rw [TableSchema.kinds, range_eq_range'] at hperm hfields ⊢
    exact compareKinds_gt hperm hfields
  have hvisited : ∀ e, isVisited schema index t ⟨[row.values.getD primaryIdx none],
      index.fields⟩ (row.values.getD primaryIdx none) e = false := by
    intro e
    unfold isVisited
    have hcompare : RowKey.compare ⟨[row.values.getD primaryIdx none], index.fields⟩
        (schema.indexKey index e.values) = .gt := by
      unfold RowKey.compare TableSchema.indexKey
      rw [if_neg hfields]
      simp only [hgt]
      rfl
    rw [hcompare]
    rfl
  have hfilter : t.live.filter (isVisited schema index t ⟨[row.values.getD primaryIdx none],
      index.fields⟩ (row.values.getD primaryIdx none)) = [] := by
    rw [filter_eq_nil_iff]
    intro e _
    rw [hvisited e]
    simp
  unfold lwwFound
  simp only [hfilter, map_nil, any_nil, filter_false]

def searched (schema : TableSchema) (index : IndexDescr) (key : Option V) (values : Row V) : Prop :=
  index.fields = schema.kinds ∧ values.getD 0 none = key

theorem searched_unique {key key' : Option V} {values : Row V}
    (h : searched schema index key values) (h' : searched schema index key' values) :
    key = key' := h.2.symm.trans h'.2

theorem mem_lwwFound_iff (hcolumns : 0 < schema.columns) (hsized : t.Sized schema.columns)
    (hperm : index.fields.Perm schema.kinds) {e : RowEntry V} :
    e ∈ lwwFound schema primaryIdx index t row ↔
      e ∈ t.live ∧ searched schema index (row.values.getD primaryIdx none) e.values := by
  by_cases hfields : index.fields = schema.kinds
  · rw [mem_lwwFound hcolumns hsized hfields]
    exact and_congr_right fun _ => (and_iff_right hfields).symm
  · rw [lwwFound_eq_nil hperm hfields]
    exact ⟨fun h => absurd h not_mem_nil, fun h => absurd h.2.1 hfields⟩

end Found

section LwwRow

variable {V : Type} [LinearOrder V]

structure Lww where
  schema : TableSchema
  primaryIdx : ℕ
  index : IndexDescr
  snapshot : ℕ
  writer : ℕ
  columns_pos : 0 < schema.columns
  index_perm : index.fields.Perm schema.kinds

namespace Lww

variable (w : Lww) {t : TableDir V} {tick : ℕ} {row : RowValues V}

def applyRow (tick : ℕ) (t : TableDir V) (row : RowValues V) : TableDir V :=
  lwwRow w.schema w.primaryIdx w.index w.snapshot w.writer tick t row

def key (values : Row V) : Option V := values.getD w.primaryIdx none

def searched (key : Option V) (values : Row V) : Prop :=
  SkipPlatform.searched w.schema w.index key values

def Blocked (t : TableDir V) (row : RowValues V) : Prop :=
  ∃ e ∈ t.live, w.searched (w.key row.values) e.values ∧
    isLoser w.schema.kinds w.snapshot w.writer row e = false

variable {e : RowEntry V}

theorem isOld_of_source (h : e.source = w.writer) :
    isOld w.snapshot w.writer e = true := by
  unfold isOld
  simp [h]

theorem source_ne_of_not_loser
    (h : isLoser w.schema.kinds w.snapshot w.writer row e = false) :
    e.source ≠ w.writer ∧ isOld w.snapshot w.writer e = false := by
  unfold isLoser at h
  rw [Bool.or_eq_false_iff] at h
  refine ⟨fun hsource => ?_, h.1⟩
  rw [w.isOld_of_source hsource] at h
  cases h.1

theorem applyRow_of_delete (hrepeat : row.repeatCount < 1) :
    w.applyRow tick t row = removeOld w.snapshot w.writer tick t row.values := by
  unfold Lww.applyRow lwwRow
  rw [if_pos hrepeat]

variable {w}

theorem mem_found (hsized : t.Sized w.schema.columns) :
    e ∈ lwwFound w.schema w.primaryIdx w.index t row ↔
      e ∈ t.live ∧ w.searched (w.key row.values) e.values :=
  mem_lwwFound_iff w.columns_pos hsized w.index_perm

theorem applyRow_of_blocked (hsized : t.Sized w.schema.columns) (hrepeat : 1 ≤ row.repeatCount)
    (hblocked : w.Blocked t row) : w.applyRow tick t row = t := by
  unfold Lww.applyRow lwwRow
  rw [if_neg (by omega)]
  simp only
  rw [if_neg]
  intro hall
  obtain ⟨e, he, hsearched, hloser⟩ := hblocked
  have hwin := all_eq_true.mp hall e ((mem_found hsized).mpr ⟨he, hsearched⟩)
  rw [hloser] at hwin
  cases hwin

/-- The rows that are found are removed, and the new one is written. -/
def cleared (w : Lww) (tick : ℕ) (t : TableDir V) (row : RowValues V) : TableDir V :=
  ((lwwFound w.schema w.primaryIdx w.index t row).map RowEntry.path).foldl
    (fun t path => t.writeEntry tick path.2 w.writer path.1 0) t

theorem applyRow_of_not_blocked (hsized : t.Sized w.schema.columns) (hrepeat : 1 ≤ row.repeatCount)
    (hblocked : ¬w.Blocked t row) : w.applyRow tick t row =
      (w.cleared tick t row).writeEntry tick w.writer w.writer row.values row.repeatCount := by
  unfold Lww.applyRow lwwRow cleared
  rw [if_neg (by omega)]
  simp only
  rw [if_pos, foldl_map]
  · rfl
  · rw [all_eq_true]
    intro e he
    by_contra hloser
    exact hblocked ⟨e, ((mem_found hsized).mp he).1, ((mem_found hsized).mp he).2,
      by simpa using hloser⟩

theorem mem_live_cleared (hsized : t.Sized w.schema.columns) :
    e ∈ (w.cleared tick t row).live ↔
      e ∈ t.live ∧ ¬w.searched (w.key row.values) e.values := by
  unfold cleared
  rw [TableDir.mem_live_removeAll]
  refine and_congr_right fun he => not_congr ?_
  rw [mem_map]
  constructor
  · intro h
    obtain ⟨e', he', hpath⟩ := h
    have hfound := (mem_found hsized).mp he'
    have hsame := TableDir.eq_of_path_eq (TableDir.mem_live.mp hfound.1).1
      (TableDir.mem_live.mp he).1 hpath
    rw [← hsame]
    exact hfound.2
  · intro h
    exact ⟨e, (mem_found hsized).mpr ⟨he, h⟩, rfl⟩

theorem mem_live_insert (hsized : t.Sized w.schema.columns) (hrepeat : 1 ≤ row.repeatCount)
    (hblocked : ¬w.Blocked t row) (hsource : e.source ≠ w.writer) :
    e ∈ (w.applyRow tick t row).live ↔
      e ∈ t.live ∧ ¬w.searched (w.key row.values) e.values := by
  have hpath : e.path ≠ (row.values, w.writer) := fun h => hsource (congrArg Prod.snd h)
  rw [applyRow_of_not_blocked hsized hrepeat hblocked, TableDir.mem_live_write hrepeat,
    ← mem_live_cleared hsized]
  constructor
  · intro h
    rcases h with h | h
    · exact h.1
    · exact absurd h.1 hpath
  · intro h
    exact .inl ⟨h, hpath⟩

theorem repeatAt_insert (hsized : t.Sized w.schema.columns) (hrepeat : 1 ≤ row.repeatCount)
    (hblocked : ¬w.Blocked t row) :
    (w.applyRow tick t row).repeatAt row.values w.writer = row.repeatCount := by
  rw [applyRow_of_not_blocked hsized hrepeat hblocked, TableDir.repeatAt_writeEntry, if_pos rfl]

theorem sized_applyRow (hsized : t.Sized w.schema.columns)
    (hrow : row.values.length = w.schema.columns) :
    (w.applyRow tick t row).Sized w.schema.columns := by
  intro e he
  by_cases hrepeat : row.repeatCount < 1
  · rw [w.applyRow_of_delete hrepeat] at he
    exact hsized e (mem_live_removeOld.mp he).1
  · by_cases hblocked : w.Blocked t row
    · rw [applyRow_of_blocked hsized (by omega) hblocked] at he
      exact hsized e he
    · rw [applyRow_of_not_blocked hsized (by omega) hblocked,
        TableDir.mem_live_write (by omega)] at he
      rcases he with he | he
      · exact hsized e ((mem_live_cleared hsized).mp he.1).1
      · rw [show e.values = row.values from congrArg Prod.fst he.1]
        exact hrow

end Lww
end LwwRow

section RemoveOld

variable {V : Type} [LinearOrder V] {t : TableDir V} {snapshot writer tick : ℕ} {values v : Row V}

theorem repeatAt_removeOld_self :
    (removeOld snapshot writer tick t values).repeatAt values writer = 0 := by
  refine TableDir.repeatAt_of_not_mem fun e he hpath => ?_
  refine (mem_live_removeOld.mp he).2 ⟨congrArg Prod.fst hpath, ?_⟩
  have hsource : e.source = writer := congrArg Prod.snd hpath
  unfold isOld
  simp [hsource]

theorem repeatAt_removeOld_of_ne (hne : v ≠ values) (source : ℕ) :
    (removeOld snapshot writer tick t values).repeatAt v source = t.repeatAt v source := by
  refine TableDir.repeatAt_congr fun e hpath => ?_
  rw [mem_live_removeOld]
  refine and_iff_left fun h => hne ?_
  rw [← h.1]
  exact (congrArg Prod.fst hpath).symm

end RemoveOld
end SkipPlatform
