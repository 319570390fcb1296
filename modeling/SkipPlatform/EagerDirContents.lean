import Mathlib.Data.Finset.Sort
import SkipPlatform.EagerDirImport

set_option autoImplicit false

/-! What a directory holds, source by source, also when several rows of its creation
share a key and source. -/
namespace SkipPlatform.EagerDir
open List SortedMerge StoreSourceMap
variable {D K F : Type} [LinearOrder D] [StoreKey K]

/-- The entries of a key that carry values: fixed rows, overridden by the last writes. -/
def liveEntries (d : EagerDir D K F) (key : K) : List (Entry (Source D K) F) :=
  overrideMerge Entry.source (d.fixedData.getIter key)
    ((d.data.value key).map.itemsWithTick.map DataMapValue.mapEntry)

variable (d : EagerDir D K F)

theorem mapEntries_sorted (key : K) :
    ((d.data.value key).map.itemsWithTick.map DataMapValue.mapEntry).Pairwise
      fun a b => a.source < b.source := by
  rw [pairwise_map]
  exact (d.data.value key).map.items_sorted

theorem liveEntries_sorted (key : K) :
    (d.liveEntries key).Pairwise fun a b => a.source ≤ b.source :=
  overrideMerge_pairwise (· ≤ ·) le_of_lt (d.fixedData.getIter_sorted key)
    (d.fixedData.getIter_sorted key) (d.mapEntries_sorted key)

theorem withoutTombs_liveEntries (key : K) :
    d.unsafeGetDataIterWithoutTombs key =
      (d.liveEntries key).filter fun e => !e.files.isEmpty := by
  unfold unsafeGetDataIterWithoutTombs liveEntries DataMap.value
  cases d.data.maybeGet key with
  | none => rfl
  | some modified => rfl

theorem filesOf_liveEntries (key : K) :
    d.filesOf key = (d.liveEntries key).flatMap Entry.files := by
  unfold filesOf
  rw [withoutTombs_liveEntries, flatMap_filter_files]

theorem flatMap_getIter_source (m : FixedDataMap K (Source D K) F) (source : Source D K) (key : K) :
    ((m.getIter key).flatMap fun e => if e.source = source then e.files else []) =
      (m.data.getArraySourceKey source key).flatten := by
  unfold FixedDataMap.getIter FixedDataMap.mergeKey
  rw [flatMap_mergeBy]
  · unfold FixedDir.getIter FixedDir.getArraySourceKey
    rw [FixedDir.getAll_eq, FixedDir.getAllSourceKey_eq, flatMap_map]
    induction m.data.rows with
    | nil => rfl
    | cons row rows ih =>
      rw [filter_cons, filter_cons]
      by_cases hk : row.key = key
      · by_cases hs : row.source = source
        · simp [hk, hs, ih]
        · simp [hk, hs, ih]
      · simp [hk, ih]
  · intro y
    exact ite_self _
  · intro x y
    rfl

theorem exists_of_source {es : List (Entry (Source D K) F)} {source : Source D K}
    (hne : (es.flatMap fun e => if e.source = source then e.files else []) ≠ []) :
    ∃ e ∈ es, e.source = source ∧ e.files ≠ [] := by
  rw [Ne, flatMap_eq_nil_iff] at hne
  push Not at hne
  obtain ⟨e, he, hf⟩ := hne
  have hs : e.source = source := by
    by_contra hs
    rw [if_neg hs] at hf
    exact hf rfl
  rw [if_pos hs] at hf
  exact ⟨e, he, hs, hf⟩

theorem flatMap_liveEntries {d : EagerDir D K F} (h : d.Sound) (source : Source D K) (key : K) :
    ((d.liveEntries key).flatMap fun e => if e.source = source then e.files else []) =
      d.getArraySourceKey source key := by
  have hmerge : ((d.liveEntries key).flatMap fun e => if e.source = source then e.files else []) =
      _ := flatMap_overrideMerge Entry.files (d.fixedData.getIter_sorted key)
        (d.mapEntries_sorted key) source
  rw [hmerge, flatMap_getIter_source, getArraySourceKey_cases]
  set modified := (d.data.value key).map.itemsWithTick.map DataMapValue.mapEntry with hmodified
  unfold DataMapValue.maybeGet
  cases hm : (d.data.value key).map.maybeGet source with
  | some x =>
    obtain ⟨tick, hx⟩ := DMap.maybeGet_eq_some.mp hm
    have he : DataMapValue.mapEntry (source, x, tick) ∈ modified := mem_map_of_mem hx
    have hin : source ∈ modified.map Entry.source := mem_map.mpr ⟨_, he, rfl⟩
    rw [if_pos hin]
    exact flatMap_at_mem Entry.files (d.mapEntries_sorted key) he
  | none =>
    have hno : source ∉ modified.map Entry.source := by
      intro hs
      obtain ⟨e, he, hes⟩ := mem_map.mp hs
      obtain ⟨y, hy, rfl⟩ := mem_map.mp he
      exact DMap.maybeGet_eq_none.mp hm y hy hes
    rw [if_neg hno]
    by_cases htomb : (d.data.value key).tombs.containsKey source = true
    · rw [if_pos htomb]
      have hnil : d.fixedData.data.getArraySourceKey source key = [] := by
        rw [FixedDataMap.getArraySourceKey_eq_nil]
        intro r hr hk hs
        rw [DMap.containsKey, Option.isSome_iff_exists] at htomb
        obtain ⟨writer, hw⟩ := htomb
        obtain ⟨tick, ht⟩ := DMap.maybeGet_eq_some.mp hw
        have hitem : DataMapValue.tombEntry (source, writer, tick) ∈ (d.data.value key).items :=
          (DataMapValue.mem_items (h.coherent key) _).mpr (Or.inr (mem_map_of_mem ht))
        have hlive := h.masked key r hr hk _ hitem hs.symm
        exact hno (mem_map.mpr ⟨_, hlive, rfl⟩)
      rw [hnil]
      rfl
    · rw [if_neg htomb]

theorem filesOf_sources {d : EagerDir D K F} (h : d.Sound) (key : K) {sources : List (Source D K)}
    (hs : sources.Pairwise (· < ·))
    (hmem : ∀ source, d.getArraySourceKey source key ≠ [] → source ∈ sources) :
    d.filesOf key = sources.flatMap fun source => d.getArraySourceKey source key := by
  rw [filesOf_liveEntries, flatMap_by_key Entry.files (d.liveEntries_sorted key) hs]
  · apply flatMap_congr
    intro source _
    exact flatMap_liveEntries h source key
  · intro e he hf
    apply hmem
    rw [← flatMap_liveEntries h]
    intro hnil
    rw [flatMap_eq_nil_iff] at hnil
    have := hnil e he
    rw [if_pos rfl] at this
    exact hf this

theorem exists_sources {d : EagerDir D K F} (h : d.Sound) (key : K) :
    ∃ sources : Finset (Source D K),
      ∀ source, d.getArraySourceKey source key ≠ [] → source ∈ sources := by
  refine ⟨((d.liveEntries key).map Entry.source).toFinset, ?_⟩
  intro source hne
  rw [← flatMap_liveEntries h, Ne, flatMap_eq_nil_iff] at hne
  push Not at hne
  obtain ⟨e, he, hf⟩ := hne
  rw [mem_toFinset, mem_map]
  refine ⟨e, he, ?_⟩
  by_contra hs
  rw [if_neg hs] at hf
  exact hf rfl

theorem Sound.filesOf_congr {d d' : EagerDir D K F} (h : d.Sound) (h' : d'.Sound) {key : K}
    (heq : ∀ source, d.getArraySourceKey source key = d'.getArraySourceKey source key) :
    d.filesOf key = d'.filesOf key := by
  obtain ⟨sources, hmem⟩ := exists_sources h key
  have hsorted : (sources.sort (· ≤ ·)).Pairwise (· < ·) := sources.sortedLT_sort.pairwise
  have hin : ∀ source, d.getArraySourceKey source key ≠ [] → source ∈ sources.sort (· ≤ ·) :=
    fun source hne => (Finset.mem_sort _).mpr (hmem source hne)
  rw [filesOf_sources h key hsorted hin, filesOf_sources h' key hsorted fun source hne =>
    hin source ((heq source).symm ▸ hne)]
  apply flatMap_congr
  intro source _
  exact heq source

theorem Sound.filesOf_eq_nil {d : EagerDir D K F} (h : d.Sound) {key : K} :
    d.filesOf key = [] ↔ ∀ source, d.getArraySourceKey source key = [] := by
  obtain ⟨sources, hmem⟩ := exists_sources h key
  have hsorted : (sources.sort (· ≤ ·)).Pairwise (· < ·) := sources.sortedLT_sort.pairwise
  have hin : ∀ source, d.getArraySourceKey source key ≠ [] → source ∈ sources.sort (· ≤ ·) :=
    fun source hne => (Finset.mem_sort _).mpr (hmem source hne)
  rw [filesOf_sources h key hsorted hin, flatMap_eq_nil_iff]
  constructor
  · intro hnil source
    by_contra hne
    exact hne (hnil source (hin source hne))
  · exact fun hnil source _ => hnil source

end SkipPlatform.EagerDir
