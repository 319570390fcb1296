import SkipPlatform.EagerDirReducers
import SkipPlatform.EagerDirMasked

set_option autoImplicit false

/-! The ways to read a directory: by key and source, over the entries of a key, over the
files of a key, and over the keys from any start. -/
namespace SkipPlatform
open List SortedMerge StoreSourceMap

namespace SortedSearch
variable {α β : Type} [LinearOrder β]

theorem drop_findFirst (xs : List α) (g : α → β) (key : β)
    (h : xs.Pairwise fun x y => g x ≤ g y) :
    xs.drop (findFirst xs fun x => compare key (g x)) = xs.filter fun x => decide (key ≤ g x) := by
  obtain ⟨hbelow, habove⟩ := findFirst_cut xs _ (pairwise_compare_gt key h)
  generalize findFirst xs (fun x => compare key (g x)) = r at hbelow habove
  have htake : (xs.take r).filter (fun x => decide (key ≤ g x)) = [] := by
    rw [filter_eq_nil_iff]
    intro x hx hle
    have hlt := compare_gt_iff_gt.mp (hbelow x hx)
    exact hlt.not_ge (of_decide_eq_true hle)
  have hdrop : (xs.drop r).filter (fun x => decide (key ≤ g x)) = xs.drop r := by
    rw [filter_eq_self]
    intro x hx
    have hne := habove x hx
    rw [ne_eq, compare_gt_iff_gt, not_lt] at hne
    exact decide_eq_true hne
  calc xs.drop r = (xs.take r).filter (fun x => decide (key ≤ g x)) ++
        (xs.drop r).filter (fun x => decide (key ≤ g x)) := by rw [htake, hdrop, nil_append]
    _ = xs.filter fun x => decide (key ≤ g x) := by
      rw [← filter_append, take_append_drop]

end SortedSearch

namespace SortedMerge
variable {α κ : Type} [LinearOrder κ]

theorem overrideMerge_filter {key : α → κ} (p : κ → Bool) {fixed modified : List α}
    (hf : fixed.Pairwise fun a b => key a < key b)
    (hm : modified.Pairwise fun a b => key a < key b) :
    overrideMerge key (fixed.filter fun a => p (key a)) (modified.filter fun a => p (key a)) =
      (overrideMerge key fixed modified).filter fun a => p (key a) := by
  have hfp : (fixed.filter fun a => p (key a)).Pairwise fun a b => key a < key b := hf.filter _
  have hmp : (modified.filter fun a => p (key a)).Pairwise fun a b => key a < key b := hm.filter _
  apply eq_of_mem_iff key
  · exact overrideMerge_pairwise (· < ·) id (hfp.imp le_of_lt) hfp hmp
  · exact (overrideMerge_pairwise (· < ·) id (hf.imp le_of_lt) hf hm).filter _
  · intro a
    rw [mem_overrideMerge (hfp.imp le_of_lt) hmp]
    simp only [mem_filter, mem_overrideMerge (hf.imp le_of_lt) hm]
    constructor
    · rintro (⟨ha, hp⟩ | ⟨⟨ha, hp⟩, hno⟩)
      · exact ⟨Or.inl ha, hp⟩
      · refine ⟨Or.inr ⟨ha, ?_⟩, hp⟩
        intro m hmem he
        exact hno m ⟨hmem, he ▸ hp⟩ he
    · rintro ⟨ha | ⟨ha, hno⟩, hp⟩
      · exact Or.inl ⟨ha, hp⟩
      · exact Or.inr ⟨⟨ha, hp⟩, fun m hmem => hno m hmem.1⟩

end SortedMerge

/-- A key that a walk from `start` comes to. -/
def reaches {K : Type} [LinearOrder K] (start : Option K) (key : K) : Bool :=
  start.all fun s => decide (s ≤ key)

namespace Reducer
variable {K S F : Type} [LinearOrder K] [LinearOrder S]

def unsafeIterFrom (r : Reducer K F) (start : Option K) : List (K × List F) :=
  let current :=
    match start with
    | none => 0
    | some key => SortedSearch.findFirst r.fixed fun elt => compare key elt.1
  overrideMerge Prod.fst (r.fixed.drop current) (r.modified.items.filter fun x => reaches start x.1)

theorem unsafeIterFrom_eq {r : Reducer K F} (hs : r.fixed.Pairwise fun a b => a.1 < b.1)
    (start : Option K) :
    r.unsafeIterFrom start = r.unsafeIter.filter fun x => reaches start x.1 := by
  unfold unsafeIter
  rw [← overrideMerge_filter (reaches start) hs r.modified.items_sorted]
  cases start with
  | none =>
    have hall : (r.fixed.filter fun x => reaches none x.1) = r.fixed :=
      filter_eq_self.mpr fun _ _ => rfl
    rw [hall]
    rfl
  | some key =>
    have hdrop := SortedSearch.drop_findFirst r.fixed Prod.fst key (hs.imp le_of_lt)
    exact congrArg (overrideMerge Prod.fst · _) hdrop

end Reducer

namespace EagerDir
variable {D K F : Type} [LinearOrder D] [StoreKey K]

def unsafeGetFileIterFrom (d : EagerDir D K F) (start : Option K) : List (K × List F) :=
  match d.reducer with
  | none => d.unsafeGetFileIterNoReducer start
  | some reducer => reducer.unsafeIterFrom start

theorem groupRows_filter {rows : List (FixedRow K (Source D K) (List F))}
    (h : rows.Pairwise fun a b => a.key ≤ b.key) (p : K → Bool) :
    Reducer.groupRows (rows.filter fun row => p row.key) =
      (Reducer.groupRows rows).filter fun x => p x.1 := by
  obtain ⟨hsorted, hgroups⟩ := groupRows_spec h
  obtain ⟨hsorted', hgroups'⟩ := groupRows_spec (h.filter fun row => p row.key)
  have hvalues : ∀ key, p key = true →
      valuesOf (rows.filter fun row => p row.key) key = valuesOf rows key := by
    intro key hkey
    unfold valuesOf
    rw [filter_filter]
    congr 1
    apply filter_congr
    intro row _
    by_cases hrow : row.key = key
    · simp [hrow, hkey]
    · simp [hrow]
  apply eq_of_mem_iff Prod.fst hsorted' (hsorted.filter _)
  intro x
  rw [hgroups', mem_filter, hgroups]
  constructor
  · rintro ⟨⟨row, hrow, hkey⟩, hfiles⟩
    obtain ⟨hrow, hreach⟩ := mem_filter.mp hrow
    rw [hkey] at hreach
    exact ⟨⟨⟨row, hrow, hkey⟩, hfiles.trans (hvalues x.1 hreach)⟩, hreach⟩
  · rintro ⟨⟨⟨row, hrow, hkey⟩, hfiles⟩, hreach⟩
    refine ⟨⟨row, mem_filter.mpr ⟨hrow, hkey ▸ hreach⟩, hkey⟩, ?_⟩
    exact hfiles.trans (hvalues x.1 hreach).symm

theorem unsafeGetFileIterNoReducer_eq (d : EagerDir D K F) (start : Option K) :
    d.unsafeGetFileIterNoReducer start =
      (d.unsafeGetFileIterNoReducer none).filter fun x => reaches start x.1 := by
  have hmodified : ((d.data.data.keys.map fun key => (key, d.getArrayRaw key)).filter
      fun x => reaches start x.1) =
        (d.data.data.keys.filter (reaches start)).map fun key => (key, d.getArrayRaw key) := by
    rw [filter_map]
    rfl
  rw [unsafeGetFileIterNoReducer_none,
    ← overrideMerge_filter (reaches start) (groupRows_spec d.fixedData.data.keys_sorted).1
      d.modifiedFiles_sorted,
    ← groupRows_filter d.fixedData.data.keys_sorted, hmodified]
  cases start with
  | none =>
    have hall : (d.fixedData.data.rows.filter fun row => reaches none row.key) =
        d.fixedData.data.rows := filter_eq_self.mpr fun _ _ => rfl
    rw [hall]
    rfl
  | some key =>
    have hdrop := SortedSearch.drop_findFirst d.fixedData.data.rows FixedRow.key key
      d.fixedData.data.keys_sorted
    exact congrArg (fun rows => overrideMerge Prod.fst (Reducer.groupRows rows) _) hdrop

variable {d : EagerDir D K F}

theorem flatMap_entries (h : d.Sound) (source : Source D K) (key : K) :
    ((d.unsafeGetAllDataIter key).flatMap fun e => if e.source = source then e.files else []) =
      d.getArraySourceKey source key := by
  have hcoherent := h.coherent key
  have hsorted := (d.data.value key).items_sorted
  have hmerge := flatMap_overrideMerge Entry.files (d.fixedData.getIter_sorted key) hsorted source
  change ((d.entries key).flatMap _) = _
  rw [entries_eq, hmerge, flatMap_getIter_source, getArraySourceKey_cases]
  cases hget : (d.data.value key).maybeGet source with
  | some files =>
    obtain ⟨e, he, hsource, hfiles⟩ := (DataMapValue.maybeGet_eq_some hcoherent).mp hget
    have hin : source ∈ (d.data.value key).items.map Entry.source :=
      mem_map.mpr ⟨e, he, hsource⟩
    rw [if_pos hin, ← hsource, flatMap_at_mem Entry.files hsorted he]
    exact hfiles
  | none =>
    have hno : source ∉ (d.data.value key).items.map Entry.source := by
      intro hin
      obtain ⟨e, he, hsource⟩ := mem_map.mp hin
      have hsome := (DataMapValue.maybeGet_eq_some hcoherent).mpr ⟨e, he, hsource, rfl⟩
      rw [hget] at hsome
      cases hsome
    rw [if_neg hno]

theorem allData_sorted (d : EagerDir D K F) (key : K) :
    (d.unsafeGetAllDataIter key).Pairwise fun a b => a.source ≤ b.source := by
  change (d.entries key).Pairwise _
  rw [entries_eq]
  exact overrideMerge_pairwise (· ≤ ·) le_of_lt (d.fixedData.getIter_sorted key)
    (d.fixedData.getIter_sorted key) (d.data.value key).items_sorted

def sources (d : EagerDir D K F) (key : K) : List (Source D K) :=
  ((d.unsafeGetAllDataIter key).map Entry.source).dedup

theorem sources_sorted (d : EagerDir D K F) (key : K) : (d.sources key).Pairwise (· < ·) := by
  have hle : ((d.unsafeGetAllDataIter key).map Entry.source).Pairwise (· ≤ ·) := by
    rw [pairwise_map]
    exact d.allData_sorted key
  have hnodup : (d.sources key).Pairwise (· ≠ ·) := nodup_dedup _
  exact ((hle.sublist (dedup_sublist _)).and hnodup).imp fun h => lt_of_le_of_ne h.1 h.2

theorem mem_sources (h : d.Sound) {source : Source D K} {key : K}
    (hne : d.getArraySourceKey source key ≠ []) : source ∈ d.sources key := by
  rw [← flatMap_entries h] at hne
  obtain ⟨e, he, hs, _⟩ := exists_of_source hne
  exact mem_dedup.mpr (mem_map.mpr ⟨e, he, hs⟩)

theorem filesOf_by_source (h : d.Sound) (key : K) :
    d.filesOf key = (d.sources key).flatMap fun source => d.getArraySourceKey source key :=
  filesOf_sources h key (d.sources_sorted key) fun _ hne => mem_sources h hne

theorem flatMap_withoutTombs (h : d.Sound) (source : Source D K) (key : K) :
    ((d.unsafeGetDataIterWithoutTombs key).flatMap
      fun e => if e.source = source then e.files else []) = d.getArraySourceKey source key := by
  rw [withoutTombs_liveEntries, ← flatMap_liveEntries h]
  generalize d.liveEntries key = es
  induction es with
  | nil => rfl
  | cons e es ih =>
    rw [filter_cons, flatMap_cons]
    by_cases he : e.files = []
    · simp [he, ih]
    · simp [he, ih]

def ReducerSorted (d : EagerDir D K F) : Prop :=
  ∀ compact, d.reducer = some compact → compact.fixed.Pairwise fun a b => a.1 < b.1

section Write
variable [DecidableEq F]

theorem reducerSorted_writeEntry {d : EagerDir D K F} (h : d.ReducerSorted)
    (ctx : WriteContext D K) (origSource writer : Source D K) (k : K) (rvalues : List F) :
    (d.writeEntry ctx origSource writer k rvalues).ReducerSorted := by
  by_cases hne : rvalues = d.getArraySourceKey origSource k
  · rw [writeEntry_same hne]
    exact h
  · intro compact hc
    unfold writeEntry at hc
    simp only at hc
    rw [if_neg hne] at hc
    obtain ⟨old, hold, rfl⟩ := Option.map_eq_some_iff.mp hc
    exact h old hold

theorem Reached.reducerSorted {d : EagerDir D K F} (h : Reached d) : d.ReducerSorted := by
  apply h.rule (P := ReducerSorted)
  · intro c s hs compact hc
    rw [reducer_make hs] at hc
    obtain ⟨r, _, rfl⟩ := Option.map_eq_some_iff.mp hc
    change (List.map _ _).Pairwise _
    rw [pairwise_map]
    exact (groupRows_spec (FixedDir.create c.acc).keys_sorted).1
  · exact fun d ctx origSource writer key values hd =>
      reducerSorted_writeEntry hd ctx origSource writer key values
  · exact fun d source minfo hd => hd
  · intro d d' limit hd hp
    rcases purge_cases hp with heq | ⟨fixedOld, heq⟩
    · rw [heq]
      exact hd
    · rw [heq]
      exact hd

end Write

theorem unsafeGetFileIterFrom_eq (h : d.ReducerSorted) (start : Option K) :
    d.unsafeGetFileIterFrom start = d.unsafeGetFileIter.filter fun x => reaches start x.1 := by
  unfold unsafeGetFileIterFrom unsafeGetFileIter
  cases hred : d.reducer with
  | none => exact d.unsafeGetFileIterNoReducer_eq start
  | some compact => exact Reducer.unsafeIterFrom_eq (h compact hred) start

theorem fileIter_sorted (h : d.ReducerSorted) :
    d.unsafeGetFileIter.Pairwise fun a b => a.1 < b.1 := by
  unfold unsafeGetFileIter
  cases hred : d.reducer with
  | none => exact d.unsafeGetFileIterNoReducer_sorted
  | some compact =>
    have hfixed := h compact hred
    exact overrideMerge_pairwise (· < ·) id (hfixed.imp le_of_lt) hfixed
      compact.modified.items_sorted

theorem fileIter_getArrayRaw (h : d.ReducerSorted) :
    (∀ x ∈ d.unsafeGetFileIter, x.2 = d.getArrayRaw x.1) ∧
      ∀ key, d.getArrayRaw key ≠ [] → (key, d.getArrayRaw key) ∈ d.unsafeGetFileIter := by
  cases hred : d.reducer with
  | none =>
    have hraw : ∀ key, d.getArrayRaw key = d.filesOf key := by
      intro key
      unfold getArrayRaw
      rw [hred]
    simp only [hraw]
    exact mem_unsafeGetFileIter hred
  | some compact =>
    have hfixed := h compact hred
    have hmem : ∀ x, x ∈ d.unsafeGetFileIter ↔ x ∈ compact.modified.items ∨
        x ∈ compact.fixed ∧ ∀ m ∈ compact.modified.items, m.1 ≠ x.1 := by
      intro x
      unfold unsafeGetFileIter
      rw [hred]
      exact mem_overrideMerge (hfixed.imp le_of_lt) compact.modified.items_sorted x
    have hnone : ∀ key, (∀ m ∈ compact.modified.items, m.1 ≠ key) →
        compact.modified.maybeGet key = none := by
      intro key hno
      rw [SortedMap.maybeGet_eq_none]
      exact fun values hm => hno (key, values) hm rfl
    constructor
    · intro x hx
      rw [getArrayRaw_some hred, Reducer.getArray]
      rcases (hmem x).mp hx with hx | ⟨hx, hno⟩
      · rw [SortedMap.maybeGet_eq_some.mpr hx]
      · rw [hnone x.1 hno]
        exact (Reducer.getFixed_of_mem hfixed hx).symm
    · intro key hne
      rw [getArrayRaw_some hred, Reducer.getArray] at hne ⊢
      rw [hmem]
      cases hget : compact.modified.maybeGet key with
      | some values => exact Or.inl (SortedMap.maybeGet_eq_some.mp hget)
      | none =>
        rw [hget] at hne
        refine Or.inr ⟨getFixed_mem hne, ?_⟩
        intro m hm he
        change m.1 = key at he
        exact SortedMap.maybeGet_eq_none.mp hget m.2 (he ▸ hm)

/-- The reads of a directory describe one array for each key and source. -/
structure ReadsAgree (d : EagerDir D K F) : Prop where
  allData_sorted : ∀ key, (d.unsafeGetAllDataIter key).Pairwise fun a b => a.source ≤ b.source
  allData : ∀ source key, ((d.unsafeGetAllDataIter key).flatMap
    fun e => if e.source = source then e.files else []) = d.getArraySourceKey source key
  withoutTombs_sorted : ∀ key,
    (d.unsafeGetDataIterWithoutTombs key).Pairwise fun a b => a.source ≤ b.source
  withoutTombs_files : ∀ key, ∀ e ∈ d.unsafeGetDataIterWithoutTombs key, e.files ≠ []
  withoutTombs : ∀ source key, ((d.unsafeGetDataIterWithoutTombs key).flatMap
    fun e => if e.source = source then e.files else []) = d.getArraySourceKey source key
  fileIter_sorted : ∀ start, (d.unsafeGetFileIterFrom start).Pairwise fun a b => a.1 < b.1
  fileIter : ∀ start, ∀ x ∈ d.unsafeGetFileIterFrom start,
    reaches start x.1 = true ∧ x.2 = d.getArrayRaw x.1
  fileIter_named : ∀ start key, reaches start key = true → d.getArrayRaw key ≠ [] →
    (key, d.getArrayRaw key) ∈ d.unsafeGetFileIterFrom start

theorem readsAgree (h : d.Sound) (hr : d.ReducerSorted) : d.ReadsAgree := by
  obtain ⟨hvalues, hnamed⟩ := fileIter_getArrayRaw hr
  constructor
  · exact d.allData_sorted
  · exact flatMap_entries h
  · intro key
    rw [withoutTombs_liveEntries]
    exact (d.liveEntries_sorted key).filter _
  · intro key e he
    rw [withoutTombs_liveEntries, mem_filter] at he
    simpa using he.2
  · exact flatMap_withoutTombs h
  · intro start
    rw [unsafeGetFileIterFrom_eq hr]
    exact (fileIter_sorted hr).filter _
  · intro start x hx
    rw [unsafeGetFileIterFrom_eq hr, mem_filter] at hx
    exact ⟨hx.2, hvalues x hx.1⟩
  · intro start key hreach hne
    rw [unsafeGetFileIterFrom_eq hr, mem_filter]
    exact ⟨hnamed key hne, hreach⟩

section Write
variable [DecidableEq F]

/-- All reads of a reached directory agree; without a reducer the array of a key is made
of those of its sources, and rows collected once are listed once. -/
theorem reached_reads_agree {d : EagerDir D K F} (h : Reached d) :
    d.ReadsAgree ∧
      (d.reducer = none → ∀ key, d.getArrayRaw key =
        (d.sources key).flatMap fun source => d.getArraySourceKey source key) ∧
      (d.fixedData.Distinct → ∀ key,
        (d.unsafeGetAllDataIter key).Pairwise (fun a b => a.source < b.source) ∧
          (d.unsafeGetDataIterWithoutTombs key).Pairwise fun a b => a.source < b.source) := by
  refine ⟨readsAgree h.sound h.reducerSorted, ?_, ?_⟩
  · intro hred key
    unfold getArrayRaw
    rw [hred]
    exact filesOf_by_source h.sound key
  · intro hdistinct key
    constructor
    · exact entries_sorted hdistinct key
    · rw [withoutTombs_liveEntries]
      have hlive : (d.liveEntries key).Pairwise fun a b => a.source < b.source :=
        overrideMerge_pairwise (· < ·) id (d.fixedData.getIter_sorted key)
          (FixedDataMap.getIter_strict hdistinct key) (d.mapEntries_sorted key)
      exact hlive.filter _

theorem reached_reads_agree_collected : ∃ s, collected.make = some s ∧ s.dir.ReadsAgree := by
  obtain ⟨s, hs, _⟩ := make_inv (c := collected) ⟨by decide, by decide, rfl⟩
  exact ⟨s, hs, (reached_reads_agree (.made hs)).1⟩

end Write

/-- A directory that counts its values does not list them. -/
theorem counted_reads_disagree : ∃ d : EagerDir ℕ PlainKey ℤ, Reached d ∧
    d.getArrayRaw (.iid 1) ≠
      (d.sources (.iid 1)).flatMap fun source => d.getArraySourceKey source (.iid 1) := by
  obtain ⟨s, hs⟩ := make_counting [(.iid 1, [5], sampleSource 1)]
  have hkept := kept_make rfl hs
  have hfiles : s.dir.filesOf (.iid 1) = [5] := by
    have hmade := make_made hs
    rw [filesOf_fixed]
    · rw [hmade.fixedData]
      change valuesOf (FixedDir.create [⟨.iid 1, [5], sampleSource 1, 0⟩]).rows _ = _
      rw [FixedDir.rows_create_of_sorted (pairwise_singleton _ _)]
      rfl
    · rw [hmade.data]
      exact not_mem_nil
  have hraw := hkept.reduced.reduced (.iid 1) ⟨_, mem_singleton_self _, rfl⟩
  refine ⟨s.dir, .made hs, ?_⟩
  rw [← filesOf_by_source hkept.sound, hraw, hfiles]
  decide

end EagerDir
end SkipPlatform
