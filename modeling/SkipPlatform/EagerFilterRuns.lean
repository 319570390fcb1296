import SkipPlatform.EagerFilter

set_option autoImplicit false
set_option linter.unusedSectionVars false

/-! What the child of a filter holds after any run of writes and updates. -/
namespace SkipPlatform
open List StoreSourceMap CappedRows

namespace SortedMap
variable {K V : Type} [LinearOrder K]

theorem containsKey_set (m : SortedMap K V) (k k' : K) (v : V) :
    (m.set k v).containsKey k' = true ↔ k' = k ∨ m.containsKey k' = true := by
  rw [containsKey_eq, containsKey_eq, maybeGet_set]
  by_cases same : k' = k
  · simp [same]
  · simp [same]

variable {m : SortedMap K V}

theorem minimum_le {x : K × V} (h : m.minimum = some x) {k : K}
    (hk : m.containsKey k = true) : x.1 ≤ k := by
  rw [minimum_eq_head] at h
  rw [containsKey_iff] at hk
  obtain ⟨y, hy, rfl⟩ := mem_map.mp hk
  have sorted := m.items_sorted
  cases items : m.items with
  | nil => rw [items] at hy; cases hy
  | cons z zs =>
    rw [items] at h hy sorted
    cases h
    rcases mem_cons.mp hy with rfl | later
    · exact le_refl _
    · exact ((pairwise_cons.mp sorted).1 y later).le

theorem le_maximum {x : K × V} (h : m.maximum = some x) {k : K}
    (hk : m.containsKey k = true) : k ≤ x.1 := by
  rw [maximum_eq_getLast] at h
  rw [containsKey_iff] at hk
  obtain ⟨y, hy, rfl⟩ := mem_map.mp hk
  obtain ⟨before, items⟩ := List.getLast?_eq_some_iff.mp h
  have sorted := m.items_sorted
  rw [items] at hy sorted
  rcases mem_append.mp hy with earlier | last
  · exact ((pairwise_append.mp sorted).2.2 y earlier x mem_cons_self).le
  · rw [mem_singleton.mp last]

theorem containsKey_maximum {x : K × V} (h : m.maximum = some x) :
    m.containsKey x.1 = true := by
  rw [maximum_eq_getLast] at h
  rw [containsKey_iff]
  exact mem_map_of_mem (mem_of_getLast? h)

theorem exists_maximum {k : K} (hk : m.containsKey k = true) :
    ∃ x, m.maximum = some x := by
  rw [containsKey_iff] at hk
  have nonempty : m.items ≠ [] := by
    intro nil
    rw [keys, nil] at hk
    cases hk
  exact ⟨_, (maximum_eq_getLast m).trans (List.getLast?_eq_some_getLast nonempty)⟩

theorem minimum_eq_none (h : m.minimum = none) (k : K) :
    m.containsKey k = false := by
  rw [minimum_eq_head, List.head?_eq_none_iff] at h
  rw [Bool.eq_false_iff, ne_eq, containsKey_iff, keys, h]
  exact not_mem_nil

end SortedMap

namespace EagerDir
variable {D K F : Type} [LinearOrder D] [StoreKey K] [DecidableEq F]

theorem Reached.filesAt {d : EagerDir D K F} (h : Reached d) (key : K) :
    filesAt d.unsafeGetFileIter key = d.getArrayRaw key := by
  obtain ⟨raw, named⟩ := fileIter_getArrayRaw h.reducerSorted
  by_cases nil : d.getArrayRaw key = []
  · rw [nil]
    exact filesAt_eq_nil fun x hx same => by rw [raw x hx, same, nil]
  · exact filesAt_of_mem (fileIter_sorted h.reducerSorted) (named key nil)

structure Single (src : K → Source D K) (d : EagerDir D K F) : Prop where
  reached : Reached d
  plain : d.reducer = none
  single : ∀ source key, source ≠ src key → d.getArraySourceKey source key = []

namespace Single
variable {src : K → Source D K} {d : EagerDir D K F}

theorem getArrayRaw_eq (h : Single src d) (key : K) :
    d.getArrayRaw key = d.getArraySourceKey (src key) key := by
  have raw : d.getArrayRaw key = d.filesOf key := by
    unfold getArrayRaw
    rw [h.plain]
  rw [raw, filesOf_sources h.reached.sound key (pairwise_singleton (· < ·) (src key))]
  · simp
  · intro source nonempty
    rw [mem_singleton]
    by_contra other
    exact nonempty (h.single source key other)

theorem write (h : Single src d) (tick : ℕ) (key : K) (values : List F) :
    Single src (d.writeEntry ⟨tick, none⟩ (src key) (src key) key values) := by
  refine ⟨Reached.write h.reached _ _ _ _ _, reducer_writeEntry h.plain _ _ _ _ _, ?_⟩
  intro source key' other
  rw [getArraySourceKey_writeEntry h.reached.sound rfl]
  by_cases same : key' = key
  · subst same
    rw [if_neg fun both => other both.2, h.single source key' other]
  · rw [if_neg fun both => same both.1, h.single source key' other]

theorem getArrayRaw_write (h : Single src d) (tick : ℕ) (key : K) (values : List F) (key' : K) :
    (d.writeEntry ⟨tick, none⟩ (src key) (src key) key values).getArrayRaw key' =
      if key' = key then values else d.getArrayRaw key' := by
  rw [(h.write tick key values).getArrayRaw_eq, getArraySourceKey_writeEntry h.reached.sound rfl,
    h.getArrayRaw_eq]
  by_cases same : key' = key
  · simp [same]
  · simp [same]

theorem write_same (h : Single src d) (ctx : WriteContext D K) (key : K) :
    d.writeEntry ctx (src key) (src key) key (d.getArrayRaw key) = d := by
  rw [h.getArrayRaw_eq, writeEntry, if_pos rfl]

end Single
end EagerDir

namespace EagerFilter
variable {D N K F : Type} [LinearOrder D] [StoreKey N] [StoreKey K] [DecidableEq F]

def Position (rangesOpt left : Option (List (KeyRange K))) (key : K) : Prop :=
  (rangesOpt = none ∧ left = none) ∨
    ∃ passed rest, rangesOpt = some (passed ++ rest) ∧ left = some rest ∧
      ∀ range ∈ passed, range.stop < key

def SortedRanges (rangesOpt : Option (List (KeyRange K))) : Prop :=
  ∀ ranges, rangesOpt = some ranges → ranges.Pairwise fun a b => a.start ≤ b.start

theorem Position.mono {rangesOpt left : Option (List (KeyRange K))} {key later : K}
    (h : Position rangesOpt left key) (hle : key ≤ later) : Position rangesOpt left later := by
  rcases h with none | ⟨passed, rest, hranges, hleft, before⟩
  · exact Or.inl none
  · exact Or.inr ⟨passed, rest, hranges, hleft, fun range hr => (before range hr).trans_le hle⟩

theorem position_all (rangesOpt : Option (List (KeyRange K))) (key : K) :
    Position rangesOpt rangesOpt key := by
  cases rangesOpt with
  | none => exact Or.inl ⟨rfl, rfl⟩
  | some ranges => exact Or.inr ⟨[], ranges, rfl, rfl, nofun⟩

variable {key : K}

theorem checkRanges_spec {rangesOpt left : Option (List (KeyRange K))}
    (sorted : SortedRanges rangesOpt) (h : Position rangesOpt left key) :
    Position rangesOpt (checkRanges left key).2 key ∧
      ((checkRanges left key).1 = .add ↔ inRanges rangesOpt key = true) := by
  rcases h with ⟨rfl, rfl⟩ | ⟨passed, rest, rfl, rfl, before⟩
  · exact ⟨Or.inl ⟨rfl, rfl⟩, iff_of_true rfl rfl⟩
  · have split := takeWhile_append_dropWhile (p := fun range => decide (key > range.stop))
      (l := rest)
    set skipped := rest.takeWhile fun range => decide (key > range.stop) with hskipped
    set rest' := rest.dropWhile fun range => decide (key > range.stop) with hrest
    have passed' : ∀ range ∈ passed ++ skipped, range.stop < key := by
      intro range hr
      rcases mem_append.mp hr with earlier | now
      · exact before range earlier
      · have ended := mem_takeWhile_imp (p := fun range : KeyRange K => decide (key > range.stop)) now
        exact of_decide_eq_true ended
    have whole : some (passed ++ rest) = some ((passed ++ skipped) ++ rest') := by
      rw [append_assoc, split]
    have inside : inRanges (some (passed ++ rest)) key = true ↔
        ∃ range ∈ rest', range.start ≤ key ∧ key ≤ range.stop := by
      rw [whole, inRanges, Option.all_some, any_append, Bool.or_eq_true, any_eq_true,
        any_eq_true]
      simp only [Bool.and_eq_true, decide_eq_true_eq]
      constructor
      · rintro (⟨range, hr, _, stop⟩ | found)
        · exact absurd (passed' range hr) (not_lt.mpr stop)
        · exact found
      · exact Or.inr
    unfold checkRanges
    simp only
    rw [← hrest]
    cases shape : rest' with
    | nil =>
      refine ⟨Or.inr ⟨passed ++ skipped, [], by rw [whole, shape], rfl, passed'⟩, ?_⟩
      rw [inside, shape]
      exact iff_of_false nofun nofun
    | cons range more =>
      refine ⟨Or.inr ⟨passed ++ skipped, range :: more, by rw [whole, shape], rfl, passed'⟩, ?_⟩
      have reached : key ≤ range.stop := by
        have head := List.head?_dropWhile_not (fun range => decide (key > range.stop)) rest
        rw [← hrest, shape] at head
        exact not_lt.mp (of_decide_eq_false head)
      have starts : ∀ other ∈ more, range.start ≤ other.start := by
        have ordered := sorted _ whole
        rw [shape] at ordered
        exact (pairwise_cons.mp (pairwise_append.mp ordered).2.1).1
      rw [inside, shape]
      dsimp only
      by_cases out : key < range.start
      · rw [if_pos out]
        refine iff_of_false nofun ?_
        rintro ⟨other, hother, start, _⟩
        rcases mem_cons.mp hother with rfl | later
        · exact absurd out (not_lt.mpr start)
        · exact absurd ((starts other later).trans start) (not_le.mpr out)
      · rw [if_neg out]
        exact iff_of_true rfl ⟨range, mem_cons_self, not_lt.mp out, reached⟩

variable {e : EagerFilter D N K F} {rangesOpt : Option (List (KeyRange K))}

theorem wanted_of_out (out : ¬ inRanges rangesOpt key = true) (files : List F) :
    e.wanted rangesOpt key files = [] := by
  rw [wanted, filter_eq_nil_iff]
  intro file _ both
  exact out (Bool.and_eq_true_iff.mp both).2

theorem wanted_cons_neg {file : F} (rejected : e.filter key file = false)
    (files : List F) : e.wanted rangesOpt key (file :: files) = e.wanted rangesOpt key files := by
  rw [wanted, filter_cons_of_neg (by simp [rejected])]
  rfl

theorem wanted_cons_pos {file : F} (accepted : e.filter key file = true)
    (inside : inRanges rangesOpt key = true) (files : List F) :
    e.wanted rangesOpt key (file :: files) = file :: e.wanted rangesOpt key files := by
  rw [wanted, filter_cons_of_pos (by simp [accepted, inside])]
  rfl

structure Gathered (e : EagerFilter D N K F) (rangesOpt : Option (List (KeyRange K))) (key : K)
    (n : ℕ) (wanted : List F) (s s' : Filling K) : Prop where
  toAdd : s'.toAdd = ((n - total e.fileSize wanted : ℕ) : ℤ)
  left : Position rangesOpt s'.left key
  keys : ∀ k, s'.keys.containsKey k = true ↔
    s.keys.containsKey k = true ∨ k = key ∧ takeFiles e.fileSize e.removeFromFile n wanted ≠ []

variable {n : ℕ}

theorem addFile_toAdd (key : K) (s : Filling K) (hs : s.toAdd = n) (file : F) :
    (e.addFile key s file).1.toAdd = ((n - e.fileSize file : ℕ) : ℤ) := by
  unfold addFile
  dsimp only
  split
  · change s.toAdd - s.toAdd = _
    omega
  · change s.toAdd - _ = _
    omega

theorem addFile_file {s : Filling K} (hs : s.toAdd = n) (file : F) :
    (e.addFile key s file).2 =
      if n < e.fileSize file then e.removeFromFile file (e.fileSize file - n) else file := by
  unfold addFile
  dsimp only
  rw [hs]
  by_cases large : n < e.fileSize file
  · rw [if_pos (by omega), if_pos large]
  · rw [if_neg (by omega), if_neg large]

theorem addFile_rest (key : K) (s : Filling K) (file : F) :
    (e.addFile key s file).1.keys = s.keys.set key () ∧ (e.addFile key s file).1.left = s.left := by
  unfold addFile
  dsimp only
  split <;> exact ⟨rfl, rfl⟩

theorem takeFiles_cons (hn : 0 < n) (key : K) {s : Filling K} (hs : s.toAdd = n)
    (file : F) (files : List F) :
    takeFiles e.fileSize e.removeFromFile n (file :: files) =
      (e.addFile key s file).2 ::
        takeFiles e.fileSize e.removeFromFile (n - e.fileSize file) files := by
  rw [addFile_file hs, takeFiles, if_neg hn.ne']
  by_cases large : n < e.fileSize file
  · rw [if_pos large, if_pos large, Nat.sub_eq_zero_of_le large.le, takeFiles_zero]
  · rw [if_neg large, if_neg large]

theorem gatherFiles_spec (sorted : SortedRanges rangesOpt) (files : List F)
    (hn : 0 < n) (s : Filling K) (hs : s.toAdd = n) (hleft : Position rangesOpt s.left key)
    (vec : List F) :
    ∃ s', e.gatherFiles key s vec files = some (s', vec ++
        takeFiles e.fileSize e.removeFromFile n (e.wanted rangesOpt key files)) ∧
      Gathered e rangesOpt key n (e.wanted rangesOpt key files) s s' := by
  induction files generalizing n s vec with
  | nil =>
    refine ⟨s, by simp [gatherFiles, wanted, takeFiles], ⟨hs, hleft, fun k => ?_⟩⟩
    simp [wanted, takeFiles]
  | cons file files ih =>
    rw [gatherFiles]
    cases accepted : e.filter key file with
    | false =>
      rw [wanted_cons_neg accepted]
      exact ih hn s hs hleft vec
    | true =>
      obtain ⟨position, added⟩ := checkRanges_spec sorted hleft
      rw [if_neg (by simp)]
      cases verdict : checkRanges s.left key with
      | mk v left =>
        rw [verdict] at position added
        cases v with
        | done =>
          have out : ¬ inRanges rangesOpt key = true := fun inside => by cases added.mpr inside
          refine ⟨{ s with left := left }, by simp [wanted_of_out out, takeFiles],
            ⟨by simpa [wanted_of_out out, total] using hs, position, fun k => ?_⟩⟩
          simp [wanted_of_out out, takeFiles]
        | next =>
          have out : ¬ inRanges rangesOpt key = true := fun inside => by cases added.mpr inside
          have rest := ih hn { s with left := left } hs position vec
          rw [wanted_of_out out] at rest ⊢
          obtain ⟨s', run, gathered⟩ := rest
          exact ⟨s', run, ⟨gathered.toAdd, gathered.left, gathered.keys⟩⟩
        | add =>
          have inside := added.mp rfl
          have toAdd := addFile_toAdd (e := e) key { s with left := left } hs file
          obtain ⟨keys, left'⟩ := e.addFile_rest key { s with left := left } file
          have hs' : ({ s with left := left } : Filling K).toAdd = n := hs
          rw [wanted_cons_pos accepted inside, takeFiles_cons hn key hs']
          have fits := takeFiles_nonempty e.fileSize e.removeFromFile hn
            (cons_ne_nil file (e.wanted rangesOpt key files))
          dsimp only at keys left' ⊢
          generalize e.addFile key { s with left := left } file = added at toAdd keys left' ⊢
          have hkeys : ∀ k, added.1.keys.containsKey k = true ↔
              k = key ∨ s.keys.containsKey k = true := by
            intro k
            rw [keys, SortedMap.containsKey_set]
          rw [if_neg (by omega)]
          by_cases full : added.1.toAdd = 0
          · have zero : n - e.fileSize file = 0 := by omega
            rw [if_pos full, zero, takeFiles_zero]
            refine ⟨added.1, rfl, ⟨?_, left' ▸ position, fun k => ?_⟩⟩
            · rw [full]
              change 0 = ((n - (e.fileSize file + _) : ℕ) : ℤ)
              omega
            · rw [hkeys, and_iff_left fits, or_comm]
          · rw [if_neg full]
            obtain ⟨s', run, gathered⟩ := ih (n := n - e.fileSize file) (by omega) added.1
              toAdd (left' ▸ position) (vec ++ [added.2])
            refine ⟨s', by rw [run, append_assoc]; rfl, ⟨?_, gathered.left, fun k => ?_⟩⟩
            · rw [gathered.toAdd, Nat.sub_sub]
              rfl
            · rw [gathered.keys, hkeys, and_iff_left fits]
              tauto

variable {rows : List (K × List F)}

theorem sorted_restricted (h : Sorted rows) :
    Sorted (e.restricted rangesOpt rows) := pairwise_map.mpr h

theorem filesAt_restricted (rows : List (K × List F)) (key : K) :
    filesAt (e.restricted rangesOpt rows) key = e.wanted rangesOpt key (filesAt rows key) := by
  induction rows with
  | nil => rfl
  | cons x rows ih =>
    change (if x.1 = key then e.wanted rangesOpt x.1 x.2 else []) ++
        filesAt (e.restricted rangesOpt rows) key =
      e.wanted rangesOpt key ((if x.1 = key then x.2 else []) ++ filesAt rows key)
    rw [ih]
    by_cases same : x.1 = key
    · subst same
      rw [if_pos rfl, if_pos rfl, wanted, wanted, wanted, filter_append]
    · rw [if_neg same, if_neg same]
      rfl

theorem restricted_filter (p : K → Bool) (rows : List (K × List F)) :
    e.restricted rangesOpt (rows.filter fun x => p x.1) =
      (e.restricted rangesOpt rows).filter fun x => p x.1 := by
  rw [restricted, restricted, filter_map]
  rfl

abbrev fitting (e : EagerFilter D N K F) (rangesOpt : Option (List (KeyRange K))) (n : ℕ)
    (rows : List (K × List F)) (key : K) : List F :=
  filesAt (takeRows e.fileSize e.removeFromFile n (e.restricted rangesOpt rows)) key

theorem fitting_cons (n : ℕ) (x : K × List F) (rows : List (K × List F)) (key : K) :
    e.fitting rangesOpt n (x :: rows) key =
      (if x.1 = key then takeFiles e.fileSize e.removeFromFile n (e.wanted rangesOpt x.1 x.2)
        else []) ++
        e.fitting rangesOpt (n - total e.fileSize (e.wanted rangesOpt x.1 x.2)) rows key := rfl

theorem fitting_absent
    (absent : ∀ x ∈ rows, x.1 ≠ key) : e.fitting rangesOpt n rows key = [] := by
  refine filesAt_eq_nil fun x hx same => ?_
  have keys : x.1 ∈ (takeRows e.fileSize e.removeFromFile n
      (e.restricted rangesOpt rows)).map Prod.fst := mem_map_of_mem hx
  rw [fst_takeRows, restricted, map_map] at keys
  obtain ⟨y, hy, hkey⟩ := mem_map.mp keys
  exact absurd (hkey.trans same) (absent y hy)

structure Filled (e : EagerFilter D N K F) (rangesOpt : Option (List (KeyRange K))) (n : ℕ)
    (rows : List (K × List F)) (s s' : Filling K) (child child' : EagerDir D K F) : Prop where
  toAdd : s'.toAdd = ((n - rowsTotal e.fileSize (e.restricted rangesOpt rows) : ℕ) : ℤ)
  single : child'.Single e.source
  keys : ∀ k, s'.keys.containsKey k = true ↔
    s.keys.containsKey k = true ∨ e.fitting rangesOpt n rows k ≠ []
  fits : ∀ k, e.fitting rangesOpt n rows k ≠ [] →
    child'.getArrayRaw k = e.fitting rangesOpt n rows k
  absent : ∀ k, (∀ x ∈ rows, x.1 ≠ k) → child'.getArrayRaw k = child.getArrayRaw k

variable {child : EagerDir D K F}

theorem fillRows_spec (sorted : SortedRanges rangesOpt) (tick : ℕ)
    (hrows : Sorted rows) (hn : 0 < n) (s : Filling K) (hs : s.toAdd = n)
    (hleft : ∀ x ∈ rows, Position rangesOpt s.left x.1)
    (hchild : child.Single e.source) :
    ∃ s' child', e.fillRows ⟨tick, none⟩ s child rows = some (s', child') ∧
      Filled e rangesOpt n rows s s' child child' := by
  induction rows generalizing n s child with
  | nil =>
    refine ⟨s, child, rfl, ⟨hs, hchild, fun k => ?_, fun k nonempty => absurd rfl nonempty,
      fun _ _ => rfl⟩⟩
    exact (or_iff_left fun nonempty => nonempty rfl).symm
  | cons x rows ih =>
    obtain ⟨key, files⟩ := x
    obtain ⟨first, later⟩ := pairwise_cons.mp hrows
    have hkey : Position rangesOpt s.left key := hleft (key, files) mem_cons_self
    obtain ⟨s₁, gathered, h₁⟩ := gatherFiles_spec (e := e) sorted files hn s hs hkey []
    rw [nil_append] at gathered
    set vec := takeFiles e.fileSize e.removeFromFile n (e.wanted rangesOpt key files) with hvec
    have written := hchild.getArrayRaw_write tick key vec
    have hchild₁ := hchild.write tick key vec
    set child₁ := child.writeEntry ⟨tick, none⟩ (e.source key) (e.source key) key vec
    have apart : ∀ {m : ℕ}, e.fitting rangesOpt m rows key = [] := fun {m} =>
      fitting_absent fun y hy => (first y hy).ne'
    have atKey : e.fitting rangesOpt n ((key, files) :: rows) key = vec := by
      rw [fitting_cons, if_pos rfl, apart, append_nil]
    rw [fillRows, gathered]
    dsimp only
    by_cases full : s₁.toAdd = 0
    · have zero : n - total e.fileSize (e.wanted rangesOpt key files) = 0 := by
        have := h₁.toAdd
        omega
      have others : ∀ k, k ≠ key → e.fitting rangesOpt n ((key, files) :: rows) k = [] := by
        intro k other
        rw [fitting_cons, if_neg (Ne.symm other), zero]
        exact filesAt_takeRows_zero _ _ _ k
      rw [if_pos full]
      refine ⟨s₁, child₁, rfl, ⟨?_, hchild₁, fun k => ?_, fun k nonempty => ?_, fun k absent => ?_⟩⟩
      · rw [full]
        change 0 = ((n - (total e.fileSize (e.wanted rangesOpt key files) + _) : ℕ) : ℤ)
        omega
      · rw [h₁.keys]
        by_cases same : k = key
        · subst same
          rw [atKey, and_iff_right rfl]
        · rw [others k same]
          simp [same]
      · by_cases same : k = key
        · subst same
          rw [atKey, written, if_pos rfl]
        · exact absurd (others k same) nonempty
      · rw [written, if_neg (absent (key, files) mem_cons_self).symm]
    · rw [if_neg full]
      have pos : 0 < n - total e.fileSize (e.wanted rangesOpt key files) := by
        have := h₁.toAdd
        omega
      obtain ⟨s', child', run, h'⟩ := ih later pos s₁ h₁.toAdd
        (fun y hy => h₁.left.mono (first y hy).le) hchild₁
      have others : ∀ k, k ≠ key → e.fitting rangesOpt n ((key, files) :: rows) k =
          e.fitting rangesOpt (n - total e.fileSize (e.wanted rangesOpt key files)) rows k := by
        intro k other
        rw [fitting_cons, if_neg (Ne.symm other), nil_append]
      refine ⟨s', child', run, ⟨?_, h'.single, fun k => ?_, fun k nonempty => ?_,
        fun k absent => ?_⟩⟩
      · rw [h'.toAdd, Nat.sub_sub]
        rfl
      · rw [h'.keys, h₁.keys]
        by_cases same : k = key
        · subst same
          rw [atKey, apart, and_iff_right rfl, or_iff_left fun nonempty => nonempty rfl]
        · rw [others k same]
          simp [same]
      · by_cases same : k = key
        · subst same
          rw [atKey, h'.absent k fun y hy => (first y hy).ne', written, if_pos rfl]
        · rw [others k same] at nonempty ⊢
          exact h'.fits k nonempty
      · rw [h'.absent k fun y hy => absent y (mem_cons_of_mem _ hy), written,
          if_neg (absent (key, files) mem_cons_self).symm]

theorem clearRow_spec (tick : ℕ) (keys : SortedSet K)
    (hchild : child.Single e.source) (key : K) :
    (e.clearRow ⟨tick, none⟩ keys child key).Single e.source ∧
      ∀ k, (e.clearRow ⟨tick, none⟩ keys child key).getArrayRaw k =
        if k = key ∧ keys.containsKey k = false then [] else child.getArrayRaw k := by
  unfold clearRow
  by_cases kept : keys.containsKey key = true
  · rw [if_pos kept]
    refine ⟨hchild, fun k => ?_⟩
    rw [if_neg]
    rintro ⟨rfl, gone⟩
    rw [kept] at gone
    cases gone
  · rw [if_neg kept]
    refine ⟨hchild.write tick key [], fun k => ?_⟩
    rw [hchild.getArrayRaw_write]
    by_cases same : k = key
    · subst same
      rw [if_pos rfl, if_pos ⟨rfl, Bool.eq_false_iff.mpr kept⟩]
    · rw [if_neg same, if_neg fun both => same both.1]

theorem clearRows_spec (tick : ℕ) (keys : SortedSet K) (rows : List (K × List F))
    (hchild : child.Single e.source) :
    (e.clearRows ⟨tick, none⟩ keys child rows).Single e.source ∧
      ∀ k, (e.clearRows ⟨tick, none⟩ keys child rows).getArrayRaw k =
        if (∃ x ∈ rows, x.1 = k) ∧ keys.containsKey k = false then []
        else child.getArrayRaw k := by
  induction rows generalizing child with
  | nil => exact ⟨hchild, fun k => by simp [clearRows]⟩
  | cons x rows ih =>
    obtain ⟨single, raw⟩ := clearRow_spec (e := e) tick keys hchild x.1
    obtain ⟨single', raw'⟩ := ih single
    refine ⟨single', fun k => (raw' k).trans ?_⟩
    rw [raw k]
    by_cases same : k = x.1
    · subst same
      by_cases gone : keys.containsKey x.1 = false
      · simp [gone]
      · simp [gone]
    · have listed : (∃ y ∈ x :: rows, y.1 = k) ↔ ∃ y ∈ rows, y.1 = k := by
        rw [exists_mem_cons_iff, or_iff_right (Ne.symm same)]
      simp only [listed, same, false_and, if_false]

/-- Rows that the child has already are not written, whatever the context says. -/
theorem fillRows_quiet (sorted : SortedRanges rangesOpt) (tick : ℕ) (ctx : WriteContext D K)
    (hrows : Sorted rows) (hn : 0 < n) (s : Filling K) (hs : s.toAdd = n)
    (hleft : ∀ x ∈ rows, Position rangesOpt s.left x.1) (hchild : child.Single e.source)
    (fits : ∀ x ∈ rows, child.getArrayRaw x.1 = e.fitting rangesOpt n rows x.1)
    {s' : Filling K} {child' : EagerDir D K F}
    (run : e.fillRows ⟨tick, none⟩ s child rows = some (s', child')) :
    e.fillRows ctx s child rows = some (s', child) := by
  induction rows generalizing n s with
  | nil =>
    cases run
    rfl
  | cons x rows ih =>
    obtain ⟨key, files⟩ := x
    obtain ⟨first, later⟩ := pairwise_cons.mp hrows
    obtain ⟨s₁, gathered, h₁⟩ := gatherFiles_spec (e := e) sorted files hn s hs
      (hleft (key, files) mem_cons_self) []
    have here := fits (key, files) mem_cons_self
    rw [fitting_cons, if_pos rfl, fitting_absent fun y hy => (first y hy).ne', append_nil] at here
    have noop : ∀ ctx : WriteContext D K, child.writeEntry ctx (e.source key) (e.source key) key
        (takeFiles e.fileSize e.removeFromFile n (e.wanted rangesOpt key files)) = child :=
      fun ctx => here ▸ hchild.write_same ctx key
    rw [fillRows, gathered, nil_append] at run ⊢
    dsimp only at run ⊢
    rw [noop] at run ⊢
    by_cases full : s₁.toAdd = 0
    · rw [if_pos full] at run ⊢
      cases run
      rfl
    · rw [if_neg full] at run ⊢
      have pos := h₁.toAdd
      refine ih later (by omega) s₁ h₁.toAdd (fun y hy => h₁.left.mono (first y hy).le)
        (fun y hy => ?_) run
      rw [fits y (mem_cons_of_mem _ hy), fitting_cons, if_neg (first y hy).ne, nil_append]

theorem clearRows_quiet (ctx : WriteContext D K) (keys : SortedSet K)
    (hchild : child.Single e.source)
    (gone : ∀ x ∈ rows, keys.containsKey x.1 = false → child.getArrayRaw x.1 = []) :
    e.clearRows ctx keys child rows = child := by
  induction rows with
  | nil => rfl
  | cons x rows ih =>
    have here : e.clearRow ctx keys child x.1 = child := by
      unfold clearRow
      cases kept : keys.containsKey x.1 with
      | true => rfl
      | false =>
        have noop := hchild.write_same ctx x.1
        rwa [gone x mem_cons_self kept] at noop
    rw [clearRows, foldl_cons, here]
    exact ih fun y hy => gone y (mem_cons_of_mem _ hy)

variable (e rangesOpt) in
theorem wantedSize_filter (p : K → Bool) (rows : List (K × List F)) :
    e.wantedSize rangesOpt (rows.filter fun x => p x.1) +
      e.wantedSize rangesOpt (rows.filter fun x => !p x.1) = e.wantedSize rangesOpt rows := by
  induction rows with
  | nil => rfl
  | cons x rows ih =>
    change _ = total e.fileSize (e.wanted rangesOpt x.1 x.2) + e.wantedSize rangesOpt rows
    cases hp : p x.1 with
    | true =>
      rw [filter_cons_of_pos (by simp [hp]), filter_cons_of_neg (by simp [hp]), ← ih]
      exact Nat.add_assoc _ _ _
    | false =>
      rw [filter_cons_of_neg (by simp [hp]), filter_cons_of_pos (by simp [hp]), ← ih]
      exact Nat.add_left_comm _ _ _

variable (e rangesOpt) in
theorem wantedSize_beyond (p q : K → Bool) (h : ∀ key, q key = true → p key = true)
    (rows : List (K × List F)) :
    e.wantedSize rangesOpt (rows.filter fun x => p x.1) =
      e.wantedSize rangesOpt (rows.filter fun x => q x.1) +
        e.wantedSize rangesOpt ((rows.filter fun x => !q x.1).filter fun x => p x.1) := by
  have inner : ((rows.filter fun x => p x.1).filter fun x => q x.1) =
      rows.filter fun x => q x.1 := by
    rw [filter_filter]
    refine filter_congr fun x _ => ?_
    cases hq : q x.1 with
    | true => rw [h x.1 hq, Bool.and_self]
    | false => exact Bool.false_and _
  have outer : ((rows.filter fun x => p x.1).filter fun x => !q x.1) =
      (rows.filter fun x => !q x.1).filter fun x => p x.1 := by
    rw [filter_filter, filter_filter]
    exact filter_congr fun x _ => Bool.and_comm _ _
  rw [← wantedSize_filter e rangesOpt q, inner, outer]

theorem fitting_zero (rows : List (K × List F)) (key : K) : e.fitting rangesOpt 0 rows key = [] :=
  filesAt_takeRows_zero _ _ _ key

theorem fitting_split {p : K → Bool} (down : ∀ a b : K, a < b → p b = true → p a = true)
    (h : Sorted rows) (n : ℕ) (key : K) :
    e.fitting rangesOpt n rows key =
      e.fitting rangesOpt n (rows.filter fun x => p x.1) key ++
        e.fitting rangesOpt (n - e.wantedSize rangesOpt (rows.filter fun x => p x.1))
          (rows.filter fun x => !p x.1) key := by
  rw [fitting, fitting, fitting, ← filesAt_append, wantedSize, ← takeRows_append, restricted,
    restricted, restricted, ← map_append, filter_append_filter h down]

theorem fitting_filter_of_not {p : K → Bool} (n : ℕ) (rows : List (K × List F))
    (out : p key = false) : e.fitting rangesOpt n (rows.filter fun x => p x.1) key = [] := by
  refine fitting_absent fun x hx same => ?_
  have accepted := (mem_filter.mp hx).2
  rw [same, out] at accepted
  cases accepted

structure Agree (p : K → Bool) (old new : List (K × List F)) : Prop where
  oldSorted : Sorted old
  newSorted : Sorted new
  files : ∀ key, p key = true → filesAt old key = filesAt new key

theorem Agree.filesAt {p : K → Bool} {old new : List (K × List F)} (h : Agree p old new) (key : K) :
    filesAt (e.restricted rangesOpt (old.filter fun x => p x.1)) key =
      filesAt (e.restricted rangesOpt (new.filter fun x => p x.1)) key := by
  rw [filesAt_restricted, filesAt_restricted, filesAt_filter, filesAt_filter]
  by_cases hp : p key = true
  · rw [h.files key hp]
  · rw [if_neg hp, if_neg hp]

theorem Agree.fitting {p : K → Bool} {old new : List (K × List F)} (h : Agree p old new) (n : ℕ)
    (key : K) : e.fitting rangesOpt n (old.filter fun x => p x.1) key =
      e.fitting rangesOpt n (new.filter fun x => p x.1) key :=
  filesAt_takeRows_congr _ _ (sorted_restricted (h.oldSorted.filter _))
    (sorted_restricted (h.newSorted.filter _)) h.filesAt n key

variable (e rangesOpt) in
theorem Agree.wantedSize {p : K → Bool} {old new : List (K × List F)} (h : Agree p old new) :
    e.wantedSize rangesOpt (old.filter fun x => p x.1) =
      e.wantedSize rangesOpt (new.filter fun x => p x.1) :=
  rowsTotal_congr _ (sorted_restricted (h.oldSorted.filter _)) (sorted_restricted (h.newSorted.filter _))
    h.filesAt

theorem Agree.mono {p q : K → Bool} {old new : List (K × List F)} (h : Agree p old new)
    (hq : ∀ key, q key = true → p key = true) : Agree q old new :=
  ⟨h.oldSorted, h.newSorted, fun key hkey => h.files key (hq key hkey)⟩

/-- The file is determined by the rows. -/
theorem FullAt.unique (positive : e.capacity ≠ 0) {files files' : List (MaxKeyFile K)}
    (h : FullAt e rangesOpt rows files) (h' : FullAt e rangesOpt rows files') : files = files' := by
  have upTo : ∀ m : K, e.wantedSize rangesOpt (rows.filter fun x => decide (x.1 ≤ m)) ≤
      e.wantedSize rangesOpt rows := fun m => by
    have split := wantedSize_filter e rangesOpt (fun key => decide (key ≤ m)) rows
    omega
  have least : ∀ m m' : K, m < m' →
      e.wantedSize rangesOpt (rows.filter fun x => decide (x.1 ≤ m)) ≤
        e.wantedSize rangesOpt (rows.filter fun x => decide (x.1 < m')) := fun m m' hlt => by
    have split := wantedSize_beyond e rangesOpt (fun key => decide (key < m'))
      (fun key => decide (key ≤ m))
      (fun key hkey => decide_eq_true ((of_decide_eq_true hkey).trans_lt hlt)) rows
    omega
  rcases h with zero | ⟨rfl, room⟩ | ⟨m, rfl, below, reached⟩
  · exact absurd zero positive
  · rcases h' with zero | ⟨rfl, -⟩ | ⟨m', rfl, -, reached'⟩
    · exact absurd zero positive
    · rfl
    · have := upTo m'
      omega
  · rcases h' with zero | ⟨rfl, room⟩ | ⟨m', rfl, below', reached'⟩
    · exact absurd zero positive
    · have := upTo m
      omega
    · rcases lt_trichotomy m m' with hlt | rfl | hlt
      · have := least m m' hlt
        omega
      · rfl
      · have := least m' m hlt
        omega

def unitSource (e : EagerFilter D N K F) (_ : N) : Source D N := ⟨e.childName, e.unitKey⟩

/-- The directories of a filter are those for the given rows of the parent. -/
structure Tracks (e : EagerFilter D N K F) (rangesOpt : Option (List (KeyRange K)))
    (rows : List (K × List F)) (s : FilterDirs D N K F) : Prop where
  child : s.child.Single e.source
  full : s.full.Single e.unitSource
  holds : ∀ key, s.child.getArrayRaw key = e.fitting rangesOpt e.capacity rows key
  atFull : FullAt e rangesOpt rows (s.full.getArrayRaw e.childKey)

def before (start : Option K) (key : K) : Bool := !reaches start key

theorem before_down (start : Option K) (a b : K) (hab : a < b) (hb : before start b = true) :
    before start a = true := by
  cases start with
  | none => cases hb
  | some s =>
    simp only [before, reaches, Option.all_some, Bool.not_eq_true',
      decide_eq_false_iff_not, not_le] at hb ⊢
    exact hab.trans hb

variable {s : FilterDirs D N K F}

theorem Tracks.congr {old new : List (K × List F)}
    (h : Tracks e rangesOpt old s) (hold : Sorted old) (hnew : Sorted new)
    (same : ∀ key, e.wanted rangesOpt key (filesAt old key) =
      e.wanted rangesOpt key (filesAt new key)) : Tracks e rangesOpt new s := by
  have filtered : ∀ (p : K → Bool) key,
      filesAt (e.restricted rangesOpt (old.filter fun x => p x.1)) key =
        filesAt (e.restricted rangesOpt (new.filter fun x => p x.1)) key := by
    intro p key
    rw [restricted_filter, restricted_filter, filesAt_filter, filesAt_filter, filesAt_restricted,
      filesAt_restricted, same]
  have sizes : ∀ p : K → Bool, e.wantedSize rangesOpt (old.filter fun x => p x.1) =
      e.wantedSize rangesOpt (new.filter fun x => p x.1) := fun p =>
    rowsTotal_congr _ (sorted_restricted (hold.filter _)) (sorted_restricted (hnew.filter _))
      (filtered p)
  have whole : e.wantedSize rangesOpt old = e.wantedSize rangesOpt new := by
    have := sizes fun _ => true
    rwa [filter_true, filter_true] at this
  refine ⟨h.child, h.full, fun key => (h.holds key).trans ?_, ?_⟩
  · refine filesAt_takeRows_congr _ _ (sorted_restricted hold) (sorted_restricted hnew) ?_ _ key
    intro key
    rw [filesAt_restricted, filesAt_restricted, same]
  · have full := h.atFull
    unfold FullAt at full ⊢
    simp only [whole, fun m : K => sizes fun key => decide (key < m),
      fun m : K => sizes fun key => decide (key ≤ m)] at full
    exact full

theorem Tracks.past {old new : List (K × List F)} {s : FilterDirs D N K F}
    (h : Tracks e rangesOpt old s) {start : Option K} (agree : Agree (before start) old new)
    (past : e.fullBefore s start = true) : Tracks e rangesOpt new s := by
  unfold fullBefore at past
  cases start with
  | none => cases past
  | some startKey =>
    rw [Option.any_some] at past
    rcases h.atFull with zero | ⟨nil, -⟩ | ⟨m, files, below, reached⟩
    · refine ⟨h.child, h.full, fun key => ?_, Or.inl zero⟩
      rw [h.holds, zero, fitting_zero, fitting_zero]
    · rw [nil] at past
      cases past
    · rw [files] at past
      have hm : m < startKey := of_decide_eq_true past
      have upTo : Agree (fun key => decide (key ≤ m)) old new := agree.mono fun key hkey => by
        have hlt := (of_decide_eq_true hkey).trans_lt hm
        simpa [before, reaches] using hlt
      have less : Agree (fun key => decide (key < m)) old new := upTo.mono fun key hkey =>
        decide_eq_true (of_decide_eq_true hkey).le
      have down : ∀ a b : K, a < b → decide (b ≤ m) = true → decide (a ≤ m) = true :=
        fun a b hab hb => decide_eq_true (hab.le.trans (of_decide_eq_true hb))
      have reached' : e.capacity ≤
          e.wantedSize rangesOpt (new.filter fun x => decide (x.1 ≤ m)) := by
        rw [← upTo.wantedSize e rangesOpt]
        exact reached
      refine ⟨h.child, h.full, fun key => ?_, Or.inr (Or.inr ⟨m, files, ?_, reached'⟩)⟩
      · rw [h.holds, fitting_split down agree.oldSorted, fitting_split down agree.newSorted,
          Nat.sub_eq_zero_of_le reached, Nat.sub_eq_zero_of_le reached',
          fitting_zero, fitting_zero, upTo.fitting]
      · rw [← less.wantedSize e rangesOpt]
        exact below

theorem takeWhile_before (h : Sorted rows) (startKey : K) :
    (rows.takeWhile fun x => !decide (startKey ≤ x.1)) =
      rows.filter fun x => before (some startKey) x.1 := by
  induction rows with
  | nil => rfl
  | cons x rows ih =>
    obtain ⟨first, rest⟩ := pairwise_cons.mp h
    by_cases reached : startKey ≤ x.1
    · rw [takeWhile_cons_of_neg (by simp [reached]), eq_comm, filter_eq_nil_iff]
      intro y hy
      have later : startKey ≤ y.1 := by
        rcases mem_cons.mp hy with rfl | tail
        · exact reached
        · exact reached.trans (first y tail).le
      simp [before, reaches, later]
    · rw [takeWhile_cons_of_pos (by simp [reached]),
        filter_cons_of_pos (by simp [before, reaches, reached]), ih rest]

theorem Tracks.sizeBefore {old : List (K × List F)} (hold : Sorted old)
    {s : FilterDirs D N K F} (h : Tracks e rangesOpt old s) (positive : e.capacity ≠ 0)
    {start : Option K} (notPast : e.fullBefore s start = false) :
    e.wantedSize rangesOpt (old.filter fun x => before start x.1) < e.capacity ∧
      e.sizeBefore s.child start =
        e.wantedSize rangesOpt (old.filter fun x => before start x.1) := by
  cases start with
  | none =>
    have none : (old.filter fun x => before none x.1) = [] :=
      filter_eq_nil_iff.mpr fun x _ hx => by cases hx
    rw [none]
    exact ⟨Nat.pos_of_ne_zero positive, rfl⟩
  | some startKey =>
    have below : e.wantedSize rangesOpt (old.filter fun x => before (some startKey) x.1) <
        e.capacity := by
      rcases h.atFull with zero | ⟨-, room⟩ | ⟨m, files, below, -⟩
      · exact absurd zero positive
      · have split := wantedSize_filter e rangesOpt
          (before (some startKey)) old
        omega
      · unfold fullBefore at notPast
        rw [Option.any_some, files] at notPast
        have hm : startKey ≤ m := not_lt.mp (of_decide_eq_false notPast)
        refine lt_of_le_of_lt (rowsTotal_sublist _ ?_) below
        refine List.Sublist.map _ (monotone_filter_right old fun x hx => ?_)
        have hlt : x.1 < startKey := by simpa [before, reaches] using hx
        exact decide_eq_true (hlt.trans_le hm)
    refine ⟨below, ?_⟩
    have sorted := EagerDir.fileIter_sorted h.child.reached.reducerSorted
    have counted : e.sizeBefore s.child (some startKey) = rowsTotal e.fileSize
        (s.child.unsafeGetFileIter.filter fun x => before (some startKey) x.1) := by
      rw [← takeWhile_before sorted]
      rfl
    have fits := takeRows_of_lt e.fileSize e.removeFromFile below
    rw [counted, wantedSize, ← fits]
    refine rowsTotal_congr _ (sorted.filter _)
      (sorted_takeRows _ _ (sorted_restricted (hold.filter _))) fun key => ?_
    change _ = e.fitting rangesOpt e.capacity (old.filter _) key
    rw [filesAt_filter, h.child.reached.filesAt, h.holds,
      fitting_split (before_down (some startKey)) hold]
    cases inside : before (some startKey) key with
    | true =>
      rw [if_pos rfl, fitting_filter_of_not (p := fun key => !before (some startKey) key) _ old
        (by simp [inside]), append_nil]
    | false => rw [if_neg (by simp), fitting_filter_of_not _ old inside]

theorem Tracks.sizeBefore_zero {old : List (K × List F)} (h : Tracks e rangesOpt old s)
    (zero : e.capacity = 0) (start : Option K) : e.sizeBefore s.child start = 0 := by
  cases start with
  | none => rfl
  | some startKey =>
    refine sum_eq_zero fun n hn => ?_
    obtain ⟨x, hx, rfl⟩ := mem_map.mp hn
    have listed := (takeWhile_sublist _).subset hx
    rw [(EagerDir.fileIter_getArrayRaw h.child.reached.reducerSorted).1 x listed, h.holds, zero,
      fitting_zero]
    rfl

variable (e rangesOpt) in
theorem exists_fitting (n : ℕ) (hn : 0 < n) (rows : List (K × List F))
    (some : 0 < e.wantedSize rangesOpt rows) : ∃ key, e.fitting rangesOpt n rows key ≠ [] := by
  induction rows with
  | nil => cases some
  | cons x rows ih =>
    by_cases nil : e.wanted rangesOpt x.1 x.2 = []
    · have rest : 0 < e.wantedSize rangesOpt rows := by
        change 0 < total e.fileSize (e.wanted rangesOpt x.1 x.2) + e.wantedSize rangesOpt rows
          at some
        rw [nil] at some
        exact some.trans_eq (Nat.zero_add _)
      obtain ⟨key, nonempty⟩ := ih rest
      refine ⟨key, ?_⟩
      rw [fitting_cons, nil]
      exact append_ne_nil_of_right_ne_nil _ nonempty
    · refine ⟨x.1, ?_⟩
      rw [fitting_cons, if_pos rfl]
      exact append_ne_nil_of_left_ne_nil (takeFiles_nonempty _ _ hn nil) _

theorem last_fitting (hrows : Sorted rows)
    (full : n ≤ e.wantedSize rangesOpt rows) {m : K} (hm : e.fitting rangesOpt n rows m ≠ [])
    (last : ∀ key, e.fitting rangesOpt n rows key ≠ [] → key ≤ m) :
    e.wantedSize rangesOpt (rows.filter fun x => decide (x.1 < m)) < n ∧
      n ≤ e.wantedSize rangesOpt (rows.filter fun x => decide (x.1 ≤ m)) := by
  constructor
  · by_contra reached
    have down : ∀ a b : K, a < b → decide (b < m) = true → decide (a < m) = true :=
      fun a b hab hb => decide_eq_true (hab.trans (of_decide_eq_true hb))
    refine hm ?_
    rw [fitting_split (p := fun key => decide (key < m)) down hrows,
      fitting_filter_of_not (p := fun key => decide (key < m)) _ rows (by simp),
      Nat.sub_eq_zero_of_le (not_lt.mp reached), fitting_zero]
    rfl
  · by_contra room
    have down : ∀ a b : K, a < b → decide (b ≤ m) = true → decide (a ≤ m) = true :=
      fun a b hab hb => decide_eq_true (hab.le.trans (of_decide_eq_true hb))
    have split := wantedSize_filter e rangesOpt
      (fun key => decide (key ≤ m)) rows
    obtain ⟨key, nonempty⟩ := exists_fitting e rangesOpt
      (n - e.wantedSize rangesOpt (rows.filter fun x => decide (x.1 ≤ m))) (by omega)
      (rows.filter fun x => !decide (x.1 ≤ m)) (by omega)
    have after : ¬ key ≤ m := by
      intro hle
      exact nonempty (fitting_filter_of_not (p := fun key => !decide (key ≤ m)) _ rows
        (by simp [hle]))
    refine after (last key ?_)
    rw [fitting_split (p := fun key => decide (key ≤ m)) down hrows]
    exact append_ne_nil_of_right_ne_nil _ nonempty

theorem refilled {old : List (K × List F)}
    (h : Tracks e rangesOpt old s) (hparent : EagerDir.Reached s.parent) {start : Option K}
    (agree : Agree (before start) old s.parent.unsafeGetFileIter)
    (sorted : SortedRanges rangesOpt) (tick : ℕ)
    (room : e.wantedSize rangesOpt (old.filter fun x => before start x.1) < e.capacity) :
    ∃ s' child, e.fillRows ⟨tick, none⟩ ⟨(e.capacity : ℤ) -
          e.wantedSize rangesOpt (old.filter fun x => before start x.1), .empty, rangesOpt⟩
        s.child (s.parent.unsafeGetFileIterFrom start) = some (s', child) ∧
      (e.clearRows ⟨tick, none⟩ s'.keys child (child.unsafeGetFileIterFrom start)).Single
        e.source ∧
      (∀ key, (e.clearRows ⟨tick, none⟩ s'.keys child
          (child.unsafeGetFileIterFrom start)).getArrayRaw key =
        e.fitting rangesOpt e.capacity s.parent.unsafeGetFileIter key) ∧
      (∀ key, before start key = false → s'.keys.containsKey key = false →
        e.fitting rangesOpt e.capacity s.parent.unsafeGetFileIter key = []) ∧
      ∃ files, fullFiles s' = some files ∧
        FullAt e rangesOpt s.parent.unsafeGetFileIter files := by
  set new := s.parent.unsafeGetFileIter with hnew
  have hA := agree.wantedSize e rangesOpt
  set n := e.capacity - e.wantedSize rangesOpt (old.filter fun x => before start x.1) with hn
  have toAdd : (e.capacity : ℤ) -
      e.wantedSize rangesOpt (old.filter fun x => before start x.1) = (n : ℕ) := by omega
  have reachRows : s.parent.unsafeGetFileIterFrom start =
      new.filter fun x => !before start x.1 := by
    rw [EagerDir.unsafeGetFileIterFrom_eq hparent.reducerSorted]
    simp only [before, Bool.not_not]
    rfl
  have sortedB : Sorted (new.filter fun x => !before start x.1) := agree.newSorted.filter _
  obtain ⟨s', child, run, filled⟩ := fillRows_spec (e := e) sorted tick sortedB (n := n) (by omega)
    ⟨(n : ℕ), .empty, rangesOpt⟩ rfl (fun x _ => position_all rangesOpt x.1) h.child
  set B := new.filter fun x => !before start x.1 with hB
  have keys : ∀ k, s'.keys.containsKey k = true ↔ e.fitting rangesOpt n B k ≠ [] := by
    intro k
    rw [filled.keys k, or_iff_right]
    exact Bool.false_ne_true
  have expected : ∀ key, e.fitting rangesOpt e.capacity new key =
      e.fitting rangesOpt e.capacity (new.filter fun x => before start x.1) key ++
        e.fitting rangesOpt n B key := by
    intro key
    rw [fitting_split (before_down start) agree.newSorted, ← hA]
  have absentB : ∀ key, before start key = true → e.fitting rangesOpt n B key = [] := fun key hkey =>
    fitting_filter_of_not (p := fun key => !before start key) n new (by simp [hkey])
  obtain ⟨single, cleared⟩ := clearRows_spec (e := e) tick s'.keys
    (child.unsafeGetFileIterFrom start) filled.single
  refine ⟨s', child, by rw [toAdd, reachRows]; exact run, single, fun key => ?_,
    fun key inside gone => ?_, ?_⟩
  · have listed := EagerDir.fileIter_getArrayRaw filled.single.reached.reducerSorted
    rw [cleared key, expected key, EagerDir.unsafeGetFileIterFrom_eq
      filled.single.reached.reducerSorted]
    cases inside : before start key with
    | true =>
      have kept : child.getArrayRaw key = s.child.getArrayRaw key := by
        refine filled.absent key fun x hx same => ?_
        have outside := (mem_filter.mp hx).2
        rw [same, inside] at outside
        cases outside
      have notListed : ¬ ∃ x ∈ child.unsafeGetFileIter.filter fun x => reaches start x.1,
          x.1 = key := by
        rintro ⟨x, hx, rfl⟩
        have reached := (mem_filter.mp hx).2
        rw [before, reached] at inside
        cases inside
      rw [if_neg fun both => notListed both.1, kept, h.holds, absentB key inside, append_nil,
        ← agree.fitting, fitting_split (before_down start) agree.oldSorted,
        fitting_filter_of_not (p := fun key => !before start key) _ old (by simp [inside]),
        append_nil]
    | false =>
      rw [fitting_filter_of_not _ new inside, nil_append]
      by_cases fits : e.fitting rangesOpt n B key = []
      · have absent : s'.keys.containsKey key = false :=
          Bool.eq_false_iff.mpr fun found => (keys key).mp found fits
        rw [fits]
        by_cases raw : child.getArrayRaw key = []
        · rw [raw, ite_self]
        · have reached : reaches start key = true := by
            rwa [before, Bool.not_eq_false'] at inside
          exact if_pos ⟨⟨_, mem_filter.mpr ⟨listed.2 key raw, reached⟩, rfl⟩, absent⟩
      · rw [if_neg fun both => Bool.false_ne_true (both.2.symm.trans ((keys key).mpr fits)),
          filled.fits key fits]
  · rw [expected key, fitting_filter_of_not _ new inside, nil_append]
    by_contra fits
    rw [(keys key).mpr fits] at gone
    cases gone
  · have split := wantedSize_filter e rangesOpt (before start) new
    rw [← hB] at split
    have left := filled.toAdd
    change s'.toAdd = ((n - e.wantedSize rangesOpt B : ℕ) : ℤ) at left
    unfold fullFiles
    by_cases full : s'.toAdd = 0
    · have reached : n ≤ e.wantedSize rangesOpt B := by omega
      obtain ⟨key, nonempty⟩ := exists_fitting e rangesOpt n (by omega) B (by omega)
      obtain ⟨x, hx⟩ := SortedMap.exists_maximum ((keys key).mpr nonempty)
      have hm := (keys x.1).mp (SortedMap.containsKey_maximum hx)
      have last : ∀ key, e.fitting rangesOpt n B key ≠ [] → key ≤ x.1 := fun key hkey =>
        SortedMap.le_maximum hx ((keys key).mpr hkey)
      obtain ⟨below, upTo⟩ := last_fitting sortedB reached hm last
      have after : before start x.1 = false := by
        by_contra inside
        exact hm (absentB x.1 (Bool.eq_true_of_not_eq_false inside))
      have earlier : ∀ key, before start key = true → key < x.1 := by
        intro key hkey
        by_contra later
        rcases (not_lt.mp later).eq_or_lt with same | hlt
        · rw [same, hkey] at after
          cases after
        · rw [before_down start x.1 key hlt hkey] at after
          cases after
      have belowSize := wantedSize_beyond e rangesOpt
        (fun key => decide (key < x.1)) (before start) (fun key hkey => decide_eq_true (earlier key hkey)) new
      have upToSize := wantedSize_beyond e rangesOpt
        (fun key => decide (key ≤ x.1)) (before start)
        (fun key hkey => decide_eq_true (earlier key hkey).le) new
      rw [← hB] at belowSize upToSize
      rw [if_pos full, hx]
      exact ⟨_, rfl, Or.inr (Or.inr ⟨x.1, rfl, by omega, by omega⟩)⟩
    · rw [if_neg full]
      exact ⟨[], rfl, Or.inr (Or.inl ⟨rfl, by omega⟩)⟩

theorem sortedRanges (ranges : Option (FilterRange K)) :
    SortedRanges (ranges.map FilterRange.ranges) := by
  intro rs hrs
  obtain ⟨r, -, rfl⟩ := Option.map_eq_some_iff.mp hrs
  exact r.sorted

theorem not_inRanges_of_out {r : FilterRange K} {changedKeys : SortedSet K}
    (out : outOfRanges (some r) (some changedKeys) = true)
    (changed : changedKeys.containsKey key = true) : ¬ inRanges (some r.ranges) key = true := by
  intro inside
  obtain ⟨range, hrange, bounds⟩ := any_eq_true.mp inside
  rw [Bool.and_eq_true, decide_eq_true_eq, decide_eq_true_eq] at bounds
  rcases Bool.or_eq_true_iff.mp out with above | below
  · obtain ⟨x, hx, hgt⟩ := Option.any_eq_true _ _ |>.mp above
    have least := SortedMap.minimum_le hx changed
    have := (of_decide_eq_true hgt).trans_le (least.trans (bounds.2.trans (r.bounded range hrange)))
    exact lt_irrefl _ this
  · obtain ⟨x, hx, hlt⟩ := Option.any_eq_true _ _ |>.mp below
    have greatest := SortedMap.le_maximum hx changed
    have first : r.firstStart ≤ range.start := by
      have sorted := r.sorted
      have split := cons_head_tail r.nonempty
      rw [← split] at sorted hrange
      rcases mem_cons.mp hrange with rfl | later
      · exact le_refl _
      · exact (pairwise_cons.mp sorted).1 range later
    have := ((first.trans bounds.1).trans greatest).trans_lt (of_decide_eq_true hlt)
    exact lt_irrefl _ this

variable {ranges : Option (FilterRange K)}

theorem syncData_tracks {old : List (K × List F)} (hold : Sorted old) (h : Tracks e
    (ranges.map FilterRange.ranges) old s)
    (hparent : EagerDir.Reached s.parent) (tick : ℕ) (changedKeysOpt : Option (SortedSet K))
    (agree : ∀ changedKeys, changedKeysOpt = some changedKeys → ∀ key,
      changedKeys.containsKey key = false → filesAt old key = s.parent.getArrayRaw key) :
    ∃ s', e.syncData ⟨tick, none⟩ ranges changedKeysOpt s = some s' ∧ s'.parent = s.parent ∧
      Tracks e (ranges.map FilterRange.ranges) s.parent.unsafeGetFileIter s' := by
  have hnew : Sorted s.parent.unsafeGetFileIter := EagerDir.fileIter_sorted hparent.reducerSorted
  unfold syncData
  by_cases out : outOfRanges ranges changedKeysOpt = true
  · rw [if_pos out]
    refine ⟨s, rfl, rfl, h.congr hold hnew fun key => ?_⟩
    cases ranges with
    | none => cases out
    | some r =>
      cases changedKeysOpt with
      | none => cases out
      | some changedKeys =>
        cases changed : changedKeys.containsKey key with
        | false => rw [agree changedKeys rfl key changed, hparent.filesAt]
        | true =>
          have outside := not_inRanges_of_out out changed
          exact (wanted_of_out outside _).trans (wanted_of_out outside _).symm
  · rw [if_neg out]
    dsimp only
    set start := changedKeysOpt.bind fun changedKeys => changedKeys.minimum.map Prod.fst with hstart
    have agree' : Agree (before start) old s.parent.unsafeGetFileIter := by
      refine ⟨hold, hnew, fun key hkey => ?_⟩
      cases changedKeysOpt with
      | none => cases hkey
      | some changedKeys =>
        rw [hparent.filesAt]
        refine agree changedKeys rfl key ?_
        cases hmin : changedKeys.minimum with
        | none => exact SortedMap.minimum_eq_none hmin key
        | some x =>
          rw [hstart, Option.bind_some, hmin] at hkey
          by_contra changed
          have least := SortedMap.minimum_le hmin (Bool.eq_true_of_not_eq_false changed)
          simp [before, reaches, least] at hkey
    cases past : e.fullBefore s start with
    | true => exact ⟨s, if_pos rfl, rfl, h.past agree' past⟩
    | false =>
      rw [if_neg Bool.false_ne_true]
      by_cases zero : e.capacity = 0
      · have empty : ∀ key, s.child.getArrayRaw key = [] := fun key => by
          rw [h.holds, zero, fitting_zero]
        rw [h.sizeBefore_zero zero, if_pos (by rw [zero]; rfl)]
        refine ⟨s, rfl, rfl, ⟨h.child, h.full, fun key => ?_, Or.inl zero⟩⟩
        rw [empty, zero, fitting_zero]
      · obtain ⟨room, size⟩ := h.sizeBefore hold zero past
        obtain ⟨s', child, run, single, holds, -, files, hfiles, atFull⟩ :=
          refilled h hparent agree' (sortedRanges ranges) tick room
        have synced : (⟨tick, none⟩ : SyncContext D N K).child = ⟨tick, none⟩ := rfl
        rw [if_neg (by omega), size, synced, run]
        dsimp only
        rw [hfiles]
        refine ⟨_, rfl, rfl, ⟨single, h.full.write tick e.childKey files, holds, ?_⟩⟩
        have raw := h.full.getArrayRaw_write tick e.childKey files e.childKey
        rw [if_pos rfl] at raw
        exact raw.symm ▸ atFull

/-- An update of directories that are right already writes nothing. -/
theorem syncData_quiet (h : Tracks e (ranges.map FilterRange.ranges) s.parent.unsafeGetFileIter s)
    (hparent : EagerDir.Reached s.parent) (ctx : SyncContext D N K)
    (changedKeysOpt : Option (SortedSet K)) :
    e.syncData ctx ranges changedKeysOpt s = some s := by
  have sorted : Sorted s.parent.unsafeGetFileIter := EagerDir.fileIter_sorted hparent.reducerSorted
  unfold syncData
  by_cases out : outOfRanges ranges changedKeysOpt = true
  · rw [if_pos out]
  rw [if_neg out]
  dsimp only
  set start := changedKeysOpt.bind fun changedKeys => changedKeys.minimum.map Prod.fst
  cases past : e.fullBefore s start with
  | true => rfl
  | false =>
    rw [if_neg Bool.false_ne_true]
    by_cases zero : e.capacity = 0
    · rw [h.sizeBefore_zero zero, if_pos (by rw [zero]; rfl)]
    · obtain ⟨room, size⟩ := h.sizeBefore sorted zero past
      have agree : Agree (before start) s.parent.unsafeGetFileIter s.parent.unsafeGetFileIter :=
        ⟨sorted, sorted, fun _ _ => rfl⟩
      obtain ⟨s', child, run, -, -, gone, files, hfiles, atFull⟩ :=
        refilled h hparent agree (sortedRanges ranges) 0 room
      have rows := EagerDir.unsafeGetFileIterFrom_eq hparent.reducerSorted start
      have quiet := fillRows_quiet (e := e) (sortedRanges ranges) 0 ctx.child
        (rows ▸ sorted.filter _) (by omega) _ (Int.ofNat_sub room.le).symm
        (fun x _ => position_all (ranges.map FilterRange.ranges) x.1) h.child (fun x hx => ?_) run
      · have cleared : e.clearRows ctx.child s'.keys s.child
            (s.child.unsafeGetFileIterFrom start) = s.child := by
          refine clearRows_quiet _ _ h.child fun x hx out => ?_
          rw [EagerDir.unsafeGetFileIterFrom_eq h.child.reached.reducerSorted] at hx
          rw [h.holds]
          exact gone x.1 (by rw [before, (mem_filter.mp hx).2]; rfl) out
        rw [if_neg (by omega), size, quiet]
        dsimp only
        rw [hfiles, cleared, FullAt.unique zero atFull h.atFull]
        have noop := h.full.write_same ctx.full e.childKey
        exact congrArg (fun full => some { s with full := full }) noop
      · rw [rows] at hx ⊢
        have inside : before start x.1 = false := by rw [before, (mem_filter.mp hx).2]; rfl
        rw [h.holds, fitting_split (before_down start) sorted, fitting_filter_of_not _ _ inside]
        simp only [before, Bool.not_not]
        rfl

theorem made_single {K' : Type} (F' : Type) [StoreKey K'] [DecidableEq F'] (tick : ℕ) (dirName : D)
    (src : K' → Source D K') :
    ∃ made, (emptyDir tick dirName : EagerDir.Creation D K' F').make = some made ∧
      made.dir.Single src ∧ ∀ key, made.dir.getArrayRaw key = [] := by
  obtain ⟨made, hmake, -⟩ := EagerDir.make_inv
    (c := (emptyDir tick dirName : EagerDir.Creation D K' F')) ⟨nodup_nil, nodup_nil, rfl⟩
  have fields := EagerDir.make_made hmake
  have none : ∀ source key, made.dir.getArraySourceKey source key = [] := by
    intro source key
    rw [EagerDir.getArraySourceKey, fields.data, DataMap.maybeGet_empty]
    have rows : made.dir.fixedData.data.getArraySourceKey source key = [] := by
      rw [FixedDataMap.getArraySourceKey_eq_nil]
      intro row hrow
      rw [fields.fixedData] at hrow
      exact absurd (FixedDir.mem_rows_create.mp hrow) not_mem_nil
    rw [rows]
    rfl
  have single : made.dir.Single src :=
    ⟨EagerDir.Reached.made hmake, fields.reducer rfl, fun source key _ => none source key⟩
  exact ⟨made, hmake, single, fun key => by rw [single.getArrayRaw_eq, none]⟩

/-- The state of a filter: the child is the one for some rows that differ from the parent's at
dirty keys only. -/
structure Kept (e : EagerFilter D N K F) (ranges : Option (FilterRange K))
    (s : FilterState D N K F) : Prop where
  parent : EagerDir.Reached s.dirs.parent
  tracks : ∃ old, Sorted old ∧ Tracks e (ranges.map FilterRange.ranges) old s.dirs ∧
    ∀ key, s.dirty.containsKey key = false → filesAt old key = s.dirs.parent.getArrayRaw key

theorem kept_of_tracks {dirs : FilterDirs D N K F}
    (hparent : EagerDir.Reached dirs.parent)
    (h : Tracks e (ranges.map FilterRange.ranges) dirs.parent.unsafeGetFileIter dirs) :
    Kept e ranges ⟨dirs, .empty⟩ :=
  ⟨hparent, _, EagerDir.fileIter_sorted hparent.reducerSorted, h, fun key _ =>
    hparent.filesAt key⟩

theorem restricted_create {rangesOpt : Option (List (KeyRange K))}
    (h : FilterRange.create rangesOpt = some ranges) :
    e.restricted (ranges.map FilterRange.ranges) = e.restricted rangesOpt := by
  have inside : inRanges (ranges.map FilterRange.ranges) = inRanges rangesOpt := by
    funext key
    cases rangesOpt with
    | none =>
      cases h
      rfl
    | some rs =>
      cases rs with
      | nil => cases h
      | cons first rest =>
        cases h
        exact (mergeSort_perm (first :: rest) KeyRange.lessEq).any_eq
  funext rows
  unfold restricted wanted
  rw [inside]

theorem Kept.settled {rangesOpt : Option (List (KeyRange K))}
    (hranges : FilterRange.create rangesOpt = some ranges) {s : FilterState D N K F}
    (h : Kept e ranges s) (settled : e.Settled rangesOpt s.dirs) :
    Tracks e (ranges.map FilterRange.ranges) s.dirs.parent.unsafeGetFileIter s.dirs := by
  obtain ⟨-, old, -, tracks, -⟩ := h
  have restricted := restricted_create (e := e) hranges
  refine ⟨tracks.child, tracks.full, fun key => ?_, ?_⟩
  · rw [← tracks.child.reached.filesAt, ← filesAt_filled, settled.child, EagerFilter.expected,
      filesAt_filled, fitting, restricted]
  · have full := settled.full
    unfold FullAt wantedSize at full ⊢
    rwa [restricted]

theorem start_kept (tick : ℕ) (fullName : D) (ranges : Option (FilterRange K))
    {parent : EagerDir D K F} (hparent : EagerDir.Reached parent) :
    ∃ s, FilterState.start e ⟨tick, none⟩ fullName ranges parent = some s ∧ s.dirty = .empty ∧
      Kept e ranges s := by
  obtain ⟨child, hchild, single, childNil⟩ := made_single F tick e.childName e.source
  obtain ⟨full, hfull, fullSingle, fullNil⟩ :=
    made_single (MaxKeyFile K) tick fullName e.unitSource
  have start : Tracks e (ranges.map FilterRange.ranges) [] ⟨parent, child.dir, full.dir⟩ := by
    refine ⟨single, fullSingle, childNil, ?_⟩
    rw [fullNil]
    rcases Nat.eq_zero_or_pos e.capacity with zero | positive
    · exact Or.inl zero
    · exact Or.inr (Or.inl ⟨rfl, positive⟩)
  obtain ⟨s', run, same, tracks⟩ := syncData_tracks List.Pairwise.nil start hparent tick none nofun
  refine ⟨⟨s', .empty⟩, ?_, rfl, kept_of_tracks (same ▸ hparent) (same ▸ tracks)⟩
  unfold FilterState.start create
  rw [hchild, hfull]
  dsimp only
  rw [run]
  rfl

theorem foldl_set_containsKey (keys : List K) (dirty : SortedSet K) (key : K) :
    dirty.containsKey key = true →
      (keys.foldl (fun dirty key => dirty.set key ()) dirty).containsKey key = true := by
  induction keys generalizing dirty with
  | nil => exact id
  | cons k keys ih =>
    intro found
    exact ih (dirty.set k ()) ((SortedMap.containsKey_set dirty k key ()).mpr (Or.inr found))

theorem step_kept {rangesOpt : Option (List (KeyRange K))}
    (hranges : FilterRange.create rangesOpt = some ranges) {s : FilterState D N K F}
    (h : Kept e ranges s) (step : FilterStep D N K F)
    (plain : FilterState.Plain e rangesOpt s step) :
    ∃ s', s.step e ranges step = some s' ∧ Kept e ranges s' ∧
      ∀ ctx readers, step = .update ctx readers → s'.dirty = .empty := by
  have settled := h.settled hranges
  obtain ⟨hparent, old, hold, tracks, agree⟩ := h
  cases step with
  | write ctx origSource writer key values =>
    rw [FilterState.step]
    by_cases same : values = s.dirs.parent.getArraySourceKey origSource key
    · rw [if_pos same]
      exact ⟨s, rfl, ⟨hparent, old, hold, tracks, agree⟩, nofun⟩
    · rw [if_neg same]
      refine ⟨_, rfl, ⟨EagerDir.Reached.write hparent ctx origSource writer key values, old, hold,
        ⟨tracks.child, tracks.full, tracks.holds, tracks.atFull⟩, fun k hk => ?_⟩, nofun⟩
      have other : ¬ (k = key ∨ s.dirty.containsKey k = true) := by
        rw [← SortedMap.containsKey_set s.dirty key k ()]
        exact Bool.eq_false_iff.mp hk
      rw [EagerDir.getArrayRaw_writeEntry_ne s.dirs.parent ctx origSource writer values fun same =>
        other (Or.inl same)]
      exact agree k (Bool.eq_false_iff.mpr fun found => other (Or.inr found))
  | update ctx readers =>
    rcases plain with none | quiet
    · obtain ⟨tick, override⟩ := ctx
      obtain rfl : override = .none := none
      obtain ⟨dirs, run, same, tracks'⟩ := syncData_tracks hold tracks hparent tick
        (some (readers.foldl (fun dirty key => dirty.set key ()) s.dirty))
        fun changedKeys hchanged key hkey => by
          cases hchanged
          refine agree key (Bool.eq_false_iff.mpr fun found => ?_)
          rw [foldl_set_containsKey readers s.dirty key found] at hkey
          cases hkey
      rw [FilterState.step, run]
      exact ⟨_, rfl, kept_of_tracks (same ▸ hparent) (same ▸ tracks'), fun _ _ _ => rfl⟩
    · have tracks' := settled quiet
      rw [FilterState.step, syncData_quiet tracks' hparent]
      exact ⟨_, rfl, kept_of_tracks hparent tracks', fun _ _ _ => rfl⟩

theorem run_kept {rangesOpt : Option (List (KeyRange K))}
    (hranges : FilterRange.create rangesOpt = some ranges) {s : FilterState D N K F}
    (h : Kept e ranges s) (steps : List (FilterStep D N K F)) (now : SyncContext D N K)
    (readers : List K)
    (along : FilterState.Along e rangesOpt ranges s (steps ++ [.update now readers])) :
    ∃ s', s.run e ranges (steps ++ [.update now readers]) = some s' ∧ Kept e ranges s' ∧
      s'.dirty = .empty := by
  induction steps generalizing s with
  | nil =>
    obtain ⟨s', hstep, kept, clean⟩ := step_kept hranges h (.update now readers) along.1
    refine ⟨s', ?_, kept, clean now readers rfl⟩
    rw [nil_append, FilterState.run, foldlM_cons, hstep]
    rfl
  | cons step steps ih =>
    obtain ⟨s₁, hstep, kept, -⟩ := step_kept hranges h step along.1
    obtain ⟨s', hrun, kept', clean⟩ := ih kept (along.2 s₁ hstep)
    refine ⟨s', ?_, kept', clean⟩
    unfold FilterState.run at hrun ⊢
    rw [cons_append, foldlM_cons, hstep]
    exact hrun

theorem Kept.expected {rangesOpt : Option (List (KeyRange K))} {ranges : Option (FilterRange K)}
    (hranges : FilterRange.create rangesOpt = some ranges) {s : FilterState D N K F}
    (h : Kept e ranges s) (clean : s.dirty = .empty) :
    filled s.dirs.child.unsafeGetFileIter = e.expected rangesOpt s.dirs.parent := by
  obtain ⟨hparent, old, hold, tracks, agree⟩ := h
  have sorted := EagerDir.fileIter_sorted tracks.child.reached.reducerSorted
  have hnew : Sorted s.dirs.parent.unsafeGetFileIter :=
    EagerDir.fileIter_sorted hparent.reducerSorted
  have restricted := restricted_create (e := e) hranges
  refine filled_eq sorted (sorted_takeRows _ _ (sorted_restricted hnew)) fun key => ?_
  rw [tracks.child.reached.filesAt, tracks.holds, fitting, restricted]
  refine filesAt_takeRows_congr _ _ (sorted_restricted hold) (sorted_restricted hnew) ?_ _ key
  intro k
  rw [filesAt_restricted, filesAt_restricted, agree k (by rw [clean]; rfl), hparent.filesAt]

end EagerFilter

namespace FilterState
variable {D N K F : Type} [LinearOrder D] [StoreKey N] [StoreKey K] [DecidableEq F]

/-- A filter can always be made and updated without a source override, and after every update its
child has the first elements of the restricted parent, up to the capacity. -/
theorem run_expected (e : EagerFilter D N K F) (tick : ℕ) (fullName : D)
    (rangesOpt : Option (List (KeyRange K))) (ranges : Option (FilterRange K))
    (hranges : FilterRange.create rangesOpt = some ranges) (parent : EagerDir D K F)
    (hparent : EagerDir.Reached parent) :
    ∃ s, start e ⟨tick, none⟩ fullName ranges parent = some s ∧
      filled s.dirs.child.unsafeGetFileIter = e.expected rangesOpt s.dirs.parent ∧
      ∀ (steps : List (FilterStep D N K F)) (now : EagerFilter.SyncContext D N K)
        (readers : List K), Along e rangesOpt ranges s (steps ++ [.update now readers]) →
        ∃ s', s.run e ranges (steps ++ [.update now readers]) = some s' ∧
          filled s'.dirs.child.unsafeGetFileIter = e.expected rangesOpt s'.dirs.parent := by
  obtain ⟨s, hstart, clean, kept⟩ := EagerFilter.start_kept (e := e) tick fullName ranges hparent
  refine ⟨s, hstart, kept.expected hranges clean, fun steps now readers along => ?_⟩
  obtain ⟨s', hrun, kept', clean'⟩ := EagerFilter.run_kept hranges kept steps now readers along
  exact ⟨s', hrun, kept'.expected hranges clean'⟩

def sampleFilter : EagerFilter ℕ PlainKey PlainKey ℕ where
  parentName := 0
  childName := 1
  childKey := .iid 1
  unitKey := .iid 0
  capacity := 2
  fileSize := id
  removeFromFile := fun file n => file - n.toNat
  filter := fun _ file => decide (0 < file)

def sampleSteps : List (FilterStep ℕ PlainKey PlainKey ℕ) :=
  [.write ⟨1, none⟩ ⟨0, .iid 2⟩ ⟨0, .iid 2⟩ (.iid 2) [1, 5], .update ⟨1, none⟩ [.iid 3]]

theorem sampleSteps_along (ranges : Option (FilterRange PlainKey))
    (rangesOpt : Option (List (KeyRange PlainKey)))
    (s : FilterState ℕ PlainKey PlainKey ℕ) :
    Along sampleFilter rangesOpt ranges s (sampleSteps ++ [.update ⟨2, none⟩ []]) :=
  ⟨trivial, fun _ _ => ⟨.inl rfl, fun _ _ => ⟨.inl rfl, fun _ _ => trivial⟩⟩⟩

theorem run_expected_sample : ∃ (parent : EagerDir ℕ PlainKey ℕ) (ranges : _),
    FilterRange.create (some [⟨PlainKey.iid 1, .iid 3, by decide⟩]) = some ranges ∧
      ∃ s, start sampleFilter ⟨1, none⟩ 2 ranges parent = some s ∧
        filled s.dirs.child.unsafeGetFileIter =
          sampleFilter.expected (some [⟨PlainKey.iid 1, .iid 3, by decide⟩]) s.dirs.parent ∧
        ∃ s', s.run sampleFilter ranges (sampleSteps ++ [.update ⟨2, none⟩ []]) = some s' ∧
          filled s'.dirs.child.unsafeGetFileIter =
            sampleFilter.expected (some [⟨PlainKey.iid 1, .iid 3, by decide⟩]) s'.dirs.parent := by
  obtain ⟨made, -, single, -⟩ := EagerFilter.made_single (D := ℕ) ℕ 0 0
    fun key : PlainKey => (⟨0, key⟩ : Source ℕ PlainKey)
  have hranges : FilterRange.create (some [⟨PlainKey.iid 1, .iid 3, by decide⟩]) = some _ := rfl
  obtain ⟨s, started, first, later⟩ :=
    run_expected sampleFilter 1 2 _ _ hranges made.dir single.reached
  exact ⟨made.dir, _, hranges, s, started, first, later _ _ _ (sampleSteps_along _ _ s)⟩

/-- The row that an update with a source override has put into the child stays there when it is
removed from the parent. -/
theorem overridden_row_stays :
    ((EagerFilter.emptyDir 0 0 : EagerDir.Creation ℕ PlainKey ℕ).make.bind fun parent =>
      (start sampleFilter ⟨1, none⟩ 2 none parent.dir).bind fun s =>
        (s.run sampleFilter none
          [.write ⟨1, some ⟨9, .iid 0⟩⟩ ⟨0, .iid 1⟩ ⟨0, .iid 1⟩ (.iid 1) [1],
            .update ⟨1, some (⟨9, .iid 0⟩, ⟨9, .iid 0⟩)⟩ [],
            .write ⟨2, none⟩ ⟨9, .iid 0⟩ ⟨9, .iid 0⟩ (.iid 1) [],
            .update ⟨2, none⟩ []]).map fun s' =>
          (filled s'.dirs.child.unsafeGetFileIter, sampleFilter.expected none s'.dirs.parent)) =
      some ([(.iid 1, [1])], []) := by
  decide +kernel

end FilterState
end SkipPlatform
