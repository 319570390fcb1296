import SkipPlatform.EagerDirSize
import SkipPlatform.EagerDirContents
import SkipPlatform.EagerDirMasked

set_option autoImplicit false
set_option linter.unusedSectionVars false

/-! The keys of a directory. They are collected from the fixed rows and from the writes
since the last purge. -/
namespace SkipPlatform.EagerDir
open List SortedMerge StoreSourceMap
variable {D K F : Type} [LinearOrder D] [StoreKey K]

theorem mem_keysLoop (fixed : List (FixedRow K (Source D K) (List F)))
    (items : List (K × DataMapValue (Source D K) F)) (k : K) :
    k ∈ keysLoop fixed items ↔ (∃ row ∈ fixed, row.key = k ∧ row.value ≠ []) ∨
      ∃ v, (k, v) ∈ items ∧ v.isEmpty = false := by
  have hrows : ∀ rows : List (FixedRow K (Source D K) (List F)),
      k ∈ (rows.filter fun row => !row.value.isEmpty).map FixedRow.key ↔
        ∃ row ∈ rows, row.key = k ∧ row.value ≠ [] := by
    intro rows
    simp [and_comm, and_assoc]
  induction items generalizing fixed with
  | nil =>
    rw [keysLoop, hrows]
    simp
  | cons item rest ih =>
    obtain ⟨newKey, newValues⟩ := item
    have hnew : k ∈ (if newValues.isEmpty then [] else [newKey]) ↔
        k = newKey ∧ newValues.isEmpty = false := by
      cases newValues.isEmpty <;> simp
    have hsplit : (∃ row ∈ fixed, row.key = k ∧ row.value ≠ []) ↔
        (∃ row ∈ fixed.takeWhile fun row => decide (row.key < newKey), row.key = k ∧ row.value ≠ []) ∨
          ∃ row ∈ fixed.dropWhile fun row => decide (row.key < newKey),
            row.key = k ∧ row.value ≠ [] := by
      rw [← exists_or]
      apply exists_congr
      intro row
      rw [← or_and_right, ← mem_append, takeWhile_append_dropWhile]
    have hitems : (∃ v, (k, v) ∈ (newKey, newValues) :: rest ∧ v.isEmpty = false) ↔
        (k = newKey ∧ newValues.isEmpty = false) ∨ ∃ v, (k, v) ∈ rest ∧ v.isEmpty = false := by
      simp only [mem_cons, Prod.mk.injEq, or_and_right, exists_or, and_assoc, exists_and_left,
        exists_eq_left]
    have hrest : _ ↔ _ := ih (fixed.dropWhile fun row => decide (row.key < newKey))
    rw [keysLoop, mem_append, mem_append, hrows, hnew, hrest, hsplit, hitems, or_assoc,
      or_assoc]
    apply or_congr_right
    exact or_left_comm

theorem mem_keys {d : EagerDir D K F} {key : K} :
    key ∈ d.keys.keys ↔ (∃ row ∈ d.fixedData.data.rows, row.key = key ∧ row.value ≠ []) ∨
      ∃ v, d.data.maybeGet key = some v ∧ v.isEmpty = false := by
  unfold keys
  rw [DMap.mem_foldl_set, mem_keysLoop]
  have hnone : key ∉ (SortedMap.empty : SortedSet K).keys := not_mem_nil
  simp only [DataMap.mem_items, hnone, or_false]

section Write
variable [DecidableEq F]

def Recording (d : EagerDir D K F) : Prop :=
  ∀ key v, d.data.maybeGet key = some v → v.isEmpty = false

variable {d : EagerDir D K F}

theorem recording_writeEntry (h : d.Recording) (ctx : WriteContext D K)
    (origSource writer : Source D K) (k : K) (rvalues : List F) :
    (d.writeEntry ctx origSource writer k rvalues).Recording := by
  by_cases hne : rvalues = d.getArraySourceKey origSource k
  · rw [writeEntry_same hne]
    exact h
  · intro key v hv
    rw [writeEntry_data hne, writtenData, DataMap.maybeGet_set] at hv
    split_ifs at hv with hk hempty
    · rw [← Option.some.inj hv]
      exact Bool.eq_false_iff.mpr hempty
    · exact h key v hv

theorem Reached.recording (h : Reached d) : d.Recording := by
  apply h.induct (P := Recording)
  · intro d hd key v hv
    rw [hd, DataMap.maybeGet_empty] at hv
    cases hv
  · exact fun d ctx origSource writer key values hd =>
      recording_writeEntry hd ctx origSource writer key values
  · exact fun d source minfo hd => hd

theorem Reached.mem_keys {d : EagerDir D K F} (h : Reached d) {key : K} :
    key ∈ d.keys.keys ↔ d.data.maybeGet key ≠ none ∨
      ∃ row ∈ d.fixedData.data.rows, row.key = key ∧ row.value ≠ [] := by
  rw [EagerDir.mem_keys, or_comm, Option.ne_none_iff_exists']
  apply or_congr_left
  apply exists_congr
  intro v
  exact and_iff_left_of_imp fun hv => h.recording key v hv

theorem filesOf_of_none {key : K} (h : d.data.maybeGet key = none) :
    d.filesOf key ≠ [] ↔ ∃ row ∈ d.fixedData.data.rows, row.key = key ∧ row.value ≠ [] := by
  have hkey : key ∉ d.data.data.keys := by
    intro hk
    obtain ⟨x, hx, hxk⟩ := mem_map.mp hk
    exact DMap.maybeGet_eq_none.mp (DataMap.maybeGet_eq_none.mp h).1 x hx hxk
  rw [filesOf_fixed hkey, valuesOf, Ne, flatMap_eq_nil_iff]
  simp only [mem_filter, decide_eq_true_eq]
  push Not
  simp only [and_assoc]

/-- The keys of a directory without reducer are those with files exactly if every key
written since the last purge still has the values of some source. -/
theorem keys_exact_iff {d : EagerDir D K F} (h : Reached d) (hred : d.reducer = none) :
    (∀ key, key ∈ d.keys.keys ↔ d.getArrayRaw key ≠ []) ↔
      ∀ key, d.data.maybeGet key ≠ none → ∃ source, d.getArraySourceKey source key ≠ [] := by
  have hraw : ∀ key, d.getArrayRaw key = d.filesOf key := by
    intro key
    unfold getArrayRaw
    rw [hred]
  have hlive : ∀ key, d.filesOf key ≠ [] ↔ ∃ source, d.getArraySourceKey source key ≠ [] := by
    intro key
    rw [Ne, h.sound.filesOf_eq_nil]
    push Not
    rfl
  constructor
  · intro hexact key hrecorded
    have hmem : key ∈ d.keys.keys := h.mem_keys.mpr (Or.inl hrecorded)
    have hfiles := (hexact key).mp hmem
    rw [hraw] at hfiles
    exact (hlive key).mp hfiles
  · intro hvalues key
    rw [hraw, h.mem_keys]
    by_cases hrecorded : d.data.maybeGet key = none
    · rw [filesOf_of_none hrecorded]
      simp [hrecorded]
    · have hfiles := (hlive key).mpr (hvalues key hrecorded)
      exact iff_of_true (Or.inl hrecorded) hfiles

def singleRow : Creation ℕ PlainKey ℕ where
  dirName := 1
  input := true
  tick := 0
  creator := none
  writes := [(.iid 1, [10], sampleSource 1)]
  oldVec := []
  reducer := none

theorem make_singleRow : ∃ s, singleRow.make = some s ∧ s.dir.reducer = none := by
  obtain ⟨s, hs, _⟩ := make_inv (c := singleRow) ⟨by decide, by decide, rfl⟩
  exact ⟨s, hs, (make_made hs).reducer rfl⟩

/-- Two fixed rows; the first one is deleted, and another source writes its key; a third key is
written and deleted again. -/
theorem keys_exact_iff_rewritten :
    ∃ s, ({ singleRow with
        writes := [(.iid 1, [10], sampleSource 1), (.iid 2, [20], sampleSource 1)] } :
        Creation ℕ PlainKey ℕ).make = some s ∧
      let d := writeBindings ⟨1, none⟩ s.dir [(.iid 1, sampleSource 1, sampleSource 1, []),
        (.iid 1, sampleSource 2, sampleSource 2, [11]),
        (.iid 3, sampleSource 1, sampleSource 1, [30]), (.iid 3, sampleSource 1, sampleSource 1, [])]
      (∀ key, key ∈ d.keys.keys ↔ d.getArrayRaw key ≠ []) ↔
        ∀ key, d.data.maybeGet key ≠ none → ∃ source, d.getArraySourceKey source key ≠ [] := by
  obtain ⟨s, hs, _⟩ := make_inv (c := { singleRow with
    writes := [(.iid 1, [10], sampleSource 1), (.iid 2, [20], sampleSource 1)] })
    ⟨by decide, by decide, rfl⟩
  refine ⟨s, hs, keys_exact_iff (writeBindings_induction (P := Reached)
    (fun d ctx origSource writer key values h => h.write ctx origSource writer key values) _ _
    (.made hs)) ?_⟩
  exact writeBindings_induction (P := fun d => d.reducer = none)
    (fun d ctx origSource writer key values h => reducer_writeEntry h ctx _ _ _ _) _ _
    ((make_made hs).reducer rfl)

/-- The row of a new directory is deleted: its key stays among the keys. -/
theorem keys_keep_deleted : ∃ d : EagerDir ℕ PlainKey ℕ, Reached d ∧ d.reducer = none ∧
    PlainKey.iid 1 ∈ d.keys.keys ∧ d.getArrayRaw (.iid 1) = [] := by
  obtain ⟨s, hs, hred⟩ := make_singleRow
  have hreached : Reached s.dir := .made hs
  set ctx : WriteContext ℕ PlainKey := ⟨1, none⟩ with hctx
  set d := s.dir.writeEntry ctx (sampleSource 1) (sampleSource 1) (.iid 1) [] with hd
  have hdeleted : Reached d := hreached.write ctx (sampleSource 1) (sampleSource 1) (.iid 1) []
  have hplain : d.reducer = none := reducer_writeEntry hred ctx _ _ _ _
  have hnil : ∀ source, d.getArraySourceKey source (.iid 1) = [] := by
    intro source
    rw [hd, getArraySourceKey_writeEntry hreached.sound rfl]
    by_cases hsource : source = sampleSource 1
    · rw [if_pos ⟨rfl, hsource⟩]
    · rw [if_neg fun hboth => hsource hboth.2]
      by_contra hne
      obtain ⟨w, hw, hp, _⟩ := (mem_valued_make hs (.iid 1, source)).mp hne
      rw [mem_singleton.mp hw] at hp
      exact hsource (Prod.mk.inj hp).2.symm
  refine ⟨d, hdeleted, hplain, ?_, ?_⟩
  · rw [hdeleted.mem_keys]
    right
    have hfixed : d.fixedData = s.dir.fixedData :=
      (writeEntry_frame s.dir ctx (sampleSource 1) (sampleSource 1) (.iid 1) []).1
    rw [hfixed, (make_made hs).fixedData]
    exact ⟨_, FixedDir.mem_rows_create.mpr (mem_singleton.mpr rfl), rfl, by simp⟩
  · unfold getArrayRaw
    rw [hplain]
    exact hdeleted.sound.filesOf_eq_nil.mpr hnil

end Write
end SkipPlatform.EagerDir
