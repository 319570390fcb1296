import SkipPlatform.EagerDir

set_option autoImplicit false
set_option linter.unusedSectionVars false

/-! What a directory holds: for every key a list of entries, one for each source. The
readers and the writer of a directory are described by these entries. -/
namespace SkipPlatform.EagerDir
open List SortedMerge StoreSourceMap
variable {D K F : Type} [LinearOrder D] [StoreKey K]

abbrev entries (d : EagerDir D K F) (key : K) : List (Entry (Source D K) F) :=
  d.unsafeGetAllDataIter key

/-- Every layer is in order, a write overrides older rows only, and a tombstone over a
row with values is also recorded as an empty array. -/
structure Valid (d : EagerDir D K F) : Prop where
  distinct : d.fixedData.Distinct
  data : d.data.Valid
  newer : ∀ k, ∀ e ∈ (d.data.value k).items, ∀ e' ∈ d.fixedData.getIter k,
    e'.source = e.source → e'.tick ≤ e.tick
  masked : ∀ k, ∀ r ∈ d.fixedData.data.rows, r.key = k → ∀ e ∈ (d.data.value k).items,
    e.source = r.source → e ∈ (d.data.value k).map.itemsWithTick.map DataMapValue.mapEntry

/-- The part of it that readers by key and source rely on; rows may share a key and
source. -/
structure Sound (d : EagerDir D K F) : Prop where
  coherent : ∀ k, (d.data.value k).Coherent
  masked : ∀ k, ∀ r ∈ d.fixedData.data.rows, r.key = k → ∀ e ∈ (d.data.value k).items,
    e.source = r.source → e ∈ (d.data.value k).map.itemsWithTick.map DataMapValue.mapEntry

variable {d : EagerDir D K F}

theorem Valid.sound (h : d.Valid) : d.Sound := ⟨h.data.coherent, h.masked⟩

theorem entries_eq (d : EagerDir D K F) (key : K) :
    d.entries key =
      overrideMerge Entry.source (d.fixedData.getIter key) (d.data.value key).items := by
  unfold entries unsafeGetAllDataIter DataMap.value
  cases h : d.data.maybeGet key with
  | none =>
    change _ = overrideMerge _ _ (DataMapValue.empty : DataMapValue (Source D K) F).items
    rw [DataMapValue.items_empty]
    rfl
  | some modified => rfl

variable {key : K}

theorem mem_entries {e : Entry (Source D K) F} :
    e ∈ d.entries key ↔ e ∈ (d.data.value key).items ∨
      e ∈ d.fixedData.getIter key ∧ ∀ m ∈ (d.data.value key).items, m.source ≠ e.source := by
  rw [entries_eq]
  exact mem_overrideMerge (d.fixedData.getIter_sorted key) (DataMapValue.items_sorted _) e

theorem entries_sorted (h : d.fixedData.Distinct) (key : K) :
    (d.entries key).Pairwise fun a b => a.source < b.source := by
  rw [entries_eq]
  exact overrideMerge_pairwise (· < ·) id (d.fixedData.getIter_sorted key)
    (FixedDataMap.getIter_strict h key) (DataMapValue.items_sorted _)

theorem entries_unique (h : d.fixedData.Distinct)
    {a b : Entry (Source D K) F} (ha : a ∈ d.entries key) (hb : b ∈ d.entries key)
    (hab : a.source = b.source) : a = b :=
  unique_of_sorted (entries_sorted h key) ha hb hab

theorem mem_entriesAfter (h : d.Valid) (limit : ℕ) (key : K) :
    d.unsafeGetAllDataIterAfter limit key =
      (d.entries key).filter fun e => decide (limit ≤ e.tick) := by
  have hfixed := FixedDataMap.getIterAfter_eq h.distinct limit key
  have hmerge : d.unsafeGetAllDataIterAfter limit key =
      overrideMerge Entry.source (d.fixedData.getIterAfter limit key)
        ((d.data.value key).itemsAfter limit) := by
    unfold unsafeGetAllDataIterAfter DataMap.value
    cases d.data.maybeGet key with
    | none =>
      change _ = overrideMerge _ _ (DataMapValue.empty.itemsAfter limit)
      rw [DataMapValue.itemsAfter_empty]
      rfl
    | some modified => rfl
  have hitems := DataMapValue.itemsAfter_eq (h.data.coherent key) limit
  have hsorted : (d.fixedData.getIterAfter limit key).Pairwise fun a b => a.source < b.source := by
    rw [hfixed]
    exact (FixedDataMap.getIter_strict h.distinct key).filter _
  have hmodified : ((d.data.value key).itemsAfter limit).Pairwise
      fun a b => a.source < b.source := by
    rw [hitems]
    exact (DataMapValue.items_sorted _).filter _
  rw [hmerge]
  apply eq_of_mem_iff Entry.source
  · exact overrideMerge_pairwise (· < ·) id (hsorted.imp le_of_lt) hsorted hmodified
  · exact (entries_sorted h.distinct key).filter _
  · intro e
    rw [mem_overrideMerge (hsorted.imp le_of_lt) hmodified, hfixed, hitems, mem_filter,
      mem_filter, mem_filter, mem_entries, decide_eq_true_iff]
    constructor
    · rintro (⟨he, hle⟩ | ⟨⟨he, hle⟩, hn⟩)
      · exact ⟨Or.inl he, hle⟩
      · refine ⟨Or.inr ⟨he, ?_⟩, hle⟩
        intro m hm hs
        have hnewer := h.newer key m hm e he hs.symm
        exact hn m (mem_filter.mpr ⟨hm, decide_eq_true (hle.trans hnewer)⟩) hs
    · rintro ⟨he | ⟨he, hn⟩, hle⟩
      · exact Or.inl ⟨he, hle⟩
      · exact Or.inr ⟨⟨he, hle⟩, fun m hm => hn m (mem_filter.mp hm).1⟩

theorem row_of_files {m : FixedDataMap K (Source D K) F} {e : Entry (Source D K) F}
    (he : e ∈ m.getIter key) (hf : e.files ≠ []) :
    ∃ r ∈ m.data.rows, r.key = key ∧ FixedDataMap.rowEntry r = e := by
  rcases FixedDataMap.mem_getIterAll.mp (FixedDataMap.mem_getIter.mp he) with
    ⟨r, hr, hre⟩ | ⟨r, hr, hre⟩
  · exact ⟨r, hr, (Prod.mk.inj hre).1, (Prod.mk.inj hre).2⟩
  · rw [← (Prod.mk.inj hre).2] at hf
    exact absurd rfl hf

theorem withoutTombs_eq (h : d.Valid) (key : K) :
    d.unsafeGetDataIterWithoutTombs key = (d.entries key).filter fun e => !e.files.isEmpty := by
  have hmerge : d.unsafeGetDataIterWithoutTombs key =
      (overrideMerge Entry.source (d.fixedData.getIter key)
        ((d.data.value key).map.itemsWithTick.map DataMapValue.mapEntry)).filter
          fun e => !e.files.isEmpty := by
    unfold unsafeGetDataIterWithoutTombs DataMap.value
    cases d.data.maybeGet key with
    | none => rfl
    | some modified => rfl
  have hmap : ((d.data.value key).map.itemsWithTick.map DataMapValue.mapEntry).Pairwise
      fun a b => a.source < b.source := by
    rw [pairwise_map]
    exact (d.data.value key).map.items_sorted
  have hfixed := d.fixedData.getIter_sorted key
  rw [hmerge]
  apply eq_of_mem_iff Entry.source
  · exact (overrideMerge_pairwise (· < ·) id hfixed
      (FixedDataMap.getIter_strict h.distinct key) hmap).filter _
  · exact (entries_sorted h.distinct key).filter _
  · intro e
    rw [mem_filter, mem_filter, mem_overrideMerge hfixed hmap, mem_entries,
      DataMapValue.mem_items (h.data.coherent key)]
    apply and_congr_left
    intro hf
    have hne : e.files ≠ [] := by simpa using hf
    constructor
    · rintro (he | ⟨he, hn⟩)
      · exact Or.inl (Or.inl he)
      · refine Or.inr ⟨he, ?_⟩
        intro m hm hs
        obtain ⟨r, hr, hrk, hre⟩ := row_of_files he hne
        have hrs : m.source = r.source := hs.trans (congrArg Entry.source hre).symm
        exact hn m (h.masked key r hr hrk m hm hrs) hs
    · rintro ((he | he) | ⟨he, hn⟩)
      · exact Or.inl he
      · obtain ⟨y, _, hy⟩ := mem_map.mp he
        rw [← hy] at hne
        exact absurd rfl hne
      · refine Or.inr ⟨he, ?_⟩
        intro m hm
        exact hn m ((DataMapValue.mem_items (h.data.coherent key) m).mpr (Or.inl hm))

theorem getArraySourceKey_cases (d : EagerDir D K F) (source : Source D K) (key : K) :
    d.getArraySourceKey source key =
      match (d.data.value key).maybeGet source with
      | none => (d.fixedData.data.getArraySourceKey source key).flatten
      | some v => v := by
  unfold getArraySourceKey DataMap.value
  cases d.data.maybeGet key with
  | none => rfl
  | some modified => rfl

theorem getArraySourceKey_of_mem {d : EagerDir D K F} (h : d.Valid) {key : K}
    {e : Entry (Source D K) F} (he : e ∈ d.entries key) :
    d.getArraySourceKey e.source key = e.files := by
  rw [getArraySourceKey_cases]
  cases hm : (d.data.value key).maybeGet e.source with
  | some v =>
    obtain ⟨e', he', hs, hv⟩ := (DataMapValue.maybeGet_eq_some (h.data.coherent key)).mp hm
    have : e' = e := entries_unique h.distinct (mem_entries.mpr (Or.inl he')) he hs
    rw [← this]
    exact hv.symm
  | none =>
    rcases mem_entries.mp he with hi | ⟨hf, _⟩
    · have hsome := (DataMapValue.maybeGet_eq_some (h.data.coherent key)).mpr ⟨e, hi, rfl, rfl⟩
      rw [hm] at hsome
      cases hsome
    · change (d.fixedData.data.getArraySourceKey e.source key).flatten = e.files
      rcases FixedDataMap.mem_getIterAll.mp (FixedDataMap.mem_getIter.mp hf) with
        ⟨r, hr, hre⟩ | ⟨r, hr, hre⟩
      · cases hre
        have := FixedDataMap.getArraySourceKey_of_mem h.distinct hr
        change (d.fixedData.data.getArraySourceKey r.source r.key).flatten = r.value
        rw [this]
        simp
      · cases hre
        have hnil : d.fixedData.data.getArraySourceKey r.source r.key = [] := by
          rw [FixedDataMap.getArraySourceKey_eq_nil]
          intro r' hr' hk hs
          apply d.fixedData.apart r' hr' r hr
          unfold FixedRow.place
          rw [hk, hs]
        change (d.fixedData.data.getArraySourceKey r.source r.key).flatten = []
        rw [hnil]
        rfl

theorem getArraySourceKey_of_not_mem (h : d.Valid)
    {source : Source D K} (hno : ∀ e ∈ d.entries key, e.source ≠ source) :
    d.getArraySourceKey source key = [] := by
  rw [getArraySourceKey_cases]
  cases hm : (d.data.value key).maybeGet source with
  | some v =>
    obtain ⟨e, he, hs, _⟩ := (DataMapValue.maybeGet_eq_some (h.data.coherent key)).mp hm
    exact absurd hs (hno e (mem_entries.mpr (Or.inl he)))
  | none =>
    have hnil : d.fixedData.data.getArraySourceKey source key = [] := by
      rw [FixedDataMap.getArraySourceKey_eq_nil]
      intro r hr hk hs
      have hi : FixedDataMap.rowEntry r ∈ d.fixedData.getIter key :=
        FixedDataMap.mem_getIter.mpr (FixedDataMap.mem_getIterAll.mpr (Or.inl ⟨r, hr, by rw [hk]⟩))
      refine hno _ (mem_entries.mpr (Or.inr ⟨hi, ?_⟩)) hs
      intro m hmi hms
      have hsome := (DataMapValue.maybeGet_eq_some (h.data.coherent key)).mpr
        ⟨m, hmi, hms.trans hs, rfl⟩
      rw [hm] at hsome
      cases hsome
    change (d.fixedData.data.getArraySourceKey source key).flatten = []
    rw [hnil]
    rfl

theorem getArraySourceKey_congr {d d' : EagerDir D K F} (h : d.Valid) (h' : d'.Valid)
    {source : Source D K}
    (heq : ∀ e, e.source = source → e.files ≠ [] → (e ∈ d.entries key ↔ e ∈ d'.entries key)) :
    d.getArraySourceKey source key = d'.getArraySourceKey source key := by
  have hfiles : ∀ {a b : EagerDir D K F}, a.Valid → b.Valid →
      (∀ e, e.source = source → e.files ≠ [] → e ∈ a.entries key → e ∈ b.entries key) →
      a.getArraySourceKey source key ≠ [] →
        a.getArraySourceKey source key = b.getArraySourceKey source key := by
    intro a b ha hb hab hne
    by_cases hno : ∀ e ∈ a.entries key, e.source ≠ source
    · exact absurd (getArraySourceKey_of_not_mem ha hno) hne
    · push Not at hno
      obtain ⟨e, he, hs⟩ := hno
      have hf := getArraySourceKey_of_mem ha he
      rw [hs] at hf
      have he' := hab e hs (hf ▸ hne) he
      rw [hf, ← getArraySourceKey_of_mem hb he', hs]
  by_cases hd : d.getArraySourceKey source key = []
  · by_cases hd' : d'.getArraySourceKey source key = []
    · rw [hd, hd']
    · exact (hfiles h' h (fun e hs hf => (heq e hs hf).mpr) hd').symm
  · exact hfiles h h' (fun e hs hf => (heq e hs hf).mp) hd

def contributions (d : EagerDir D K F) (key : K) : List (Source D K × List F) :=
  (d.unsafeGetDataIterWithoutTombs key).map fun e => (e.source, e.files)

theorem mem_contributions (h : d.Valid)
    {x : Source D K × List F} :
    x ∈ d.contributions key ↔ x.2 ≠ [] ∧ d.getArraySourceKey x.1 key = x.2 := by
  unfold contributions
  rw [withoutTombs_eq h, mem_map]
  constructor
  · rintro ⟨e, he, rfl⟩
    obtain ⟨hmem, hf⟩ := mem_filter.mp he
    exact ⟨by simpa using hf, getArraySourceKey_of_mem h hmem⟩
  · rintro ⟨hne, hx⟩
    by_cases hno : ∀ e ∈ d.entries key, e.source ≠ x.1
    · rw [getArraySourceKey_of_not_mem h hno] at hx
      exact absurd hx.symm hne
    · push Not at hno
      obtain ⟨e, he, hs⟩ := hno
      have hfiles : e.files = x.2 := by
        rw [← getArraySourceKey_of_mem h he, hs]
        exact hx
      refine ⟨e, mem_filter.mpr ⟨he, ?_⟩, Prod.ext hs hfiles⟩
      rw [hfiles]
      simpa using hne

theorem contributions_sorted (h : d.Valid) (key : K) :
    (d.contributions key).Pairwise fun a b => a.1 < b.1 := by
  unfold contributions
  rw [withoutTombs_eq h, pairwise_map]
  exact (entries_sorted h.distinct key).filter _

theorem filesOf_eq (d : EagerDir D K F) (key : K) :
    d.filesOf key = (d.contributions key).flatMap Prod.snd := by
  unfold filesOf contributions
  rw [flatMap_map]

theorem contributions_congr {d d' : EagerDir D K F} (h : d.Valid) (h' : d'.Valid)
    (heq : ∀ source, d.getArraySourceKey source key = d'.getArraySourceKey source key) :
    d.contributions key = d'.contributions key := by
  apply eq_of_mem_iff Prod.fst (contributions_sorted h key) (contributions_sorted h' key)
  intro x
  rw [mem_contributions h, mem_contributions h', heq]

theorem filesOf_congr {d d' : EagerDir D K F} (h : d.Valid) (h' : d'.Valid)
    (heq : ∀ source, d.getArraySourceKey source key = d'.getArraySourceKey source key) :
    d.filesOf key = d'.filesOf key := by
  rw [filesOf_eq, filesOf_eq, contributions_congr h h' heq]

theorem getChangesAfter_eq {tick : ℕ}
    (hlimit : ∀ limit, d.tombLimit = some limit → limit < tick) :
    d.getChangesAfter tick =
      (false, (d.data.getChangesAfter tick).union (d.fixedData.getChangesAfter tick)) := by
  unfold getChangesAfter
  rw [if_neg]
  rw [Option.any_eq_true]
  rintro ⟨limit, hl, hle⟩
  have := hlimit limit hl
  have := of_decide_eq_true hle
  omega

theorem mem_getChangesAfter {d : EagerDir D K F} (h : d.Valid) {tick : ℕ}
    (hlimit : ∀ limit, d.tombLimit = some limit → limit < tick) {k : K} :
    k ∈ (d.getChangesAfter tick).2.keys ↔ ∃ e ∈ d.entries k, tick ≤ e.tick := by
  rw [getChangesAfter_eq hlimit, SortedMap.mem_union, DataMap.mem_getChangesAfter h.data,
    FixedDataMap.mem_getChangesAfter]
  constructor
  · rintro (⟨e, he, hle⟩ | ⟨e, he, hle⟩)
    · exact ⟨e, mem_entries.mpr (Or.inl he), hle⟩
    · by_cases hno : ∀ m ∈ (d.data.value k).items, m.source ≠ e.source
      · exact ⟨e, mem_entries.mpr (Or.inr ⟨he, hno⟩), hle⟩
      · push Not at hno
        obtain ⟨m, hm, hs⟩ := hno
        have hnewer := h.newer k m hm e he hs.symm
        exact ⟨m, mem_entries.mpr (Or.inl hm), hle.trans hnewer⟩
  · rintro ⟨e, he, hle⟩
    rcases mem_entries.mp he with he | ⟨he, _⟩
    · exact Or.inl ⟨e, he, hle⟩
    · exact Or.inr ⟨e, he, hle⟩

/-- No tick of the directory lies after `now`. -/
structure Until (d : EagerDir D K F) (now : ℕ) : Prop where
  fixed : ∀ k, ∀ e ∈ d.fixedData.getIter k, e.tick ≤ now
  data : ∀ k, ∀ e ∈ (d.data.value k).items, e.tick ≤ now

theorem Until.mono {now later : ℕ} (h : d.Until now) (hle : now ≤ later) :
    d.Until later :=
  ⟨fun k e he => (h.fixed k e he).trans hle, fun k e he => (h.data k e he).trans hle⟩

theorem getFixed_mem {r : Reducer K F} (h : r.getFixed key ≠ []) :
    (key, r.getFixed key) ∈ r.fixed := by
  unfold Reducer.getFixed at h ⊢
  revert h
  apply SortedSearch.bisect_induction (P := fun xs => SortedSearch.bisect _ _ xs ≠ [] →
    (key, SortedSearch.bisect _ _ xs) ∈ xs)
  · intro h
    rw [SortedSearch.bisect_nil] at h
    exact absurd rfl h
  · intro l x rest hmid hl hr h
    rw [SortedSearch.bisect_node _ _ l rest x hmid] at h ⊢
    rw [mem_append, mem_cons]
    cases hc : compare key x.1 with
    | lt =>
      rw [hc] at h
      exact Or.inl (hl h)
    | eq =>
      right
      left
      rw [compare_eq_iff_eq.mp hc]
    | gt =>
      rw [hc] at h
      exact Or.inr (Or.inr (hr h))

section Write
variable [DecidableEq F]

def writtenData (d : EagerDir D K F) (tick : ℕ) (source writer : Source D K) (k : K)
    (rvalues : List F) : DataMap K (Source D K) F :=
  d.data.set tick k ((d.data.value k).set tick
    (!(d.fixedData.data.getArraySourceKey source k).isEmpty) source writer rvalues)

variable {d : EagerDir D K F} {ctx : WriteContext D K} {rvalues : List F}

theorem writeEntry_same
    {origSource writer : Source D K} {k : K}
    (h : rvalues = d.getArraySourceKey origSource k) :
    d.writeEntry ctx origSource writer k rvalues = d := by
  unfold writeEntry
  exact if_pos h

theorem writeEntry_data
    {origSource writer : Source D K} {k : K}
    (h : rvalues ≠ d.getArraySourceKey origSource k) :
    (d.writeEntry ctx origSource writer k rvalues).data =
      d.writtenData ctx.tick (ctx.sourceOverride.getD origSource)
        (ctx.sourceOverride.getD writer) k rvalues := by
  unfold writeEntry
  simp only
  rw [if_neg h]
  rfl

theorem writeEntry_frame (d : EagerDir D K F) (ctx : WriteContext D K)
    (origSource writer : Source D K) (k : K) (rvalues : List F) :
    let d' := d.writeEntry ctx origSource writer k rvalues
    d'.fixedData = d.fixedData ∧ d'.fixedOld = d.fixedOld ∧ d'.old = d.old ∧
      d'.tombLimit = d.tombLimit ∧ d'.created = d.created ∧ d'.dirName = d.dirName ∧
        d'.input = d.input ∧ d'.creator = d.creator := by
  by_cases h : rvalues = d.getArraySourceKey origSource k
  · rw [writeEntry_same h]
    exact ⟨rfl, rfl, rfl, rfl, rfl, rfl, rfl, rfl⟩
  · unfold writeEntry
    simp only
    rw [if_neg h]
    exact ⟨rfl, rfl, rfl, rfl, rfl, rfl, rfl, rfl⟩

theorem value_writtenData (d : EagerDir D K F) (tick : ℕ) (source writer : Source D K) (k k' : K)
    (rvalues : List F) :
    (d.writtenData tick source writer k rvalues).value k' =
      if k' = k then
        (d.data.value k).set tick (!(d.fixedData.data.getArraySourceKey source k).isEmpty) source
          writer rvalues
      else d.data.value k' :=
  DataMap.value_set _ _ _ _ _

theorem mem_items_writtenData (h : d.Sound) (tick : ℕ)
    (source writer : Source D K) (k k' : K) (rvalues : List F) (e : Entry (Source D K) F) :
    e ∈ ((d.writtenData tick source writer k rvalues).value k').items ↔
      (k' = k ∧ e = DataMapValue.entryOf tick source writer rvalues) ∨
        (k' = k → e.source ≠ source) ∧ e ∈ (d.data.value k').items := by
  rw [value_writtenData]
  by_cases hk : k' = k
  · rw [if_pos hk, DataMapValue.mem_items_set (h.coherent k), hk]
    simp
  · rw [if_neg hk]
    simp [hk]

theorem mem_entries_writeEntry {d : EagerDir D K F} (h : d.Valid) {ctx : WriteContext D K}
    {origSource writer : Source D K} {k : K} {rvalues : List F}
    (hne : rvalues ≠ d.getArraySourceKey origSource k) (k' : K) (e : Entry (Source D K) F) :
    e ∈ (d.writeEntry ctx origSource writer k rvalues).entries k' ↔
      (k' = k ∧ e = DataMapValue.entryOf ctx.tick (ctx.sourceOverride.getD origSource)
          (ctx.sourceOverride.getD writer) rvalues) ∨
        (k' = k → e.source ≠ ctx.sourceOverride.getD origSource) ∧ e ∈ d.entries k' := by
  have hframe := (writeEntry_frame d ctx origSource writer k rvalues).1
  rw [mem_entries, mem_entries, hframe, writeEntry_data hne]
  simp only [mem_items_writtenData h.sound]
  set source := ctx.sourceOverride.getD origSource
  set new := DataMapValue.entryOf ctx.tick source (ctx.sourceOverride.getD writer) rvalues with hnew
  have hsource : new.source = source := DataMapValue.entryOf_source ..
  constructor
  · rintro ((hn | ⟨hs, he⟩) | ⟨he, hno⟩)
    · exact Or.inl hn
    · exact Or.inr ⟨hs, Or.inl he⟩
    · have hs : k' = k → e.source ≠ source := by
        intro hk hes
        exact hno new (Or.inl ⟨hk, rfl⟩) (hsource.trans hes.symm)
      refine Or.inr ⟨hs, Or.inr ⟨he, ?_⟩⟩
      intro m hm hms
      exact hno m (Or.inr ⟨fun hk => hms ▸ hs hk, hm⟩) hms
  · rintro (hn | ⟨hs, he | ⟨he, hno⟩⟩)
    · exact Or.inl (Or.inl hn)
    · exact Or.inl (Or.inr ⟨hs, he⟩)
    · refine Or.inr ⟨he, ?_⟩
      rintro m (⟨hk, hm⟩ | ⟨_, hm⟩)
      · rw [hm, hsource]
        exact (hs hk).symm
      · exact hno m hm

theorem sound_writeEntry (h : d.Sound) (ctx : WriteContext D K)
    (origSource writer : Source D K) (k : K) (rvalues : List F) :
    (d.writeEntry ctx origSource writer k rvalues).Sound := by
  by_cases hne : rvalues = d.getArraySourceKey origSource k
  · rw [writeEntry_same hne]
    exact h
  have hframe := (writeEntry_frame d ctx origSource writer k rvalues).1
  have hdata : (d.writeEntry ctx origSource writer k rvalues).data = _ := writeEntry_data hne
  constructor
  · rw [hdata]
    intro k'
    rw [value_writtenData]
    split_ifs
    · exact DataMapValue.coherent_set (h.coherent k) _ _ _ _ _
    · exact h.coherent k'
  · rw [hframe, hdata]
    intro k' r hr hrk e he hs
    rcases (mem_items_writtenData h _ _ _ k k' rvalues e).mp he with ⟨hk, hn⟩ | ⟨hnot, he⟩
    · rw [value_writtenData, if_pos hk]
      set source := ctx.sourceOverride.getD origSource
      have hrs : r.source = source := by
        rw [← hs, hn]
        exact DataMapValue.entryOf_source ..
      have hmask : (!(d.fixedData.data.getArraySourceKey source k).isEmpty) = true := by
        rw [Bool.not_eq_true', isEmpty_eq_false_iff]
        intro hnil
        exact FixedDataMap.getArraySourceKey_eq_nil.mp hnil r hr (hrk.trans hk) hrs
      rw [hmask, hn, mem_map]
      cases rvalues with
      | nil =>
        exact ⟨_, (DataMapValue.mem_map_set_nil _ _ true _ _ _).mpr (Or.inl ⟨rfl, rfl⟩), rfl⟩
      | cons f fs =>
        exact ⟨_, (DataMapValue.mem_map_set_cons _ _ true _ _ f fs _).mpr (Or.inl rfl), rfl⟩
    · have hmap := h.masked k' r hr hrk e he hs
      obtain ⟨x, hx, hxe⟩ := mem_map.mp hmap
      have hxs : x.1 = e.source := congrArg Entry.source hxe
      rw [value_writtenData]
      by_cases hk : k' = k
      · rw [if_pos hk, mem_map]
        subst hk
        have hne' : x.1 ≠ ctx.sourceOverride.getD origSource := by
          rw [hxs]
          exact hnot rfl
        cases rvalues with
        | nil => exact ⟨x, (DataMapValue.mem_map_set_nil _ _ _ _ _ x).mpr (Or.inr ⟨hne', hx⟩), hxe⟩
        | cons f fs =>
          exact ⟨x, (DataMapValue.mem_map_set_cons _ _ _ _ _ f fs x).mpr (Or.inr ⟨hne', hx⟩), hxe⟩
      · rw [if_neg hk]
        exact hmap

theorem valid_writeEntry (h : d.Valid)
    (hu : d.Until ctx.tick) (origSource writer : Source D K) (k : K) (rvalues : List F) :
    (d.writeEntry ctx origSource writer k rvalues).Valid := by
  by_cases hne : rvalues = d.getArraySourceKey origSource k
  · rw [writeEntry_same hne]
    exact h
  have hframe := (writeEntry_frame d ctx origSource writer k rvalues).1
  have hdata : (d.writeEntry ctx origSource writer k rvalues).data = _ := writeEntry_data hne
  constructor
  · rw [hframe]
    exact h.distinct
  · rw [hdata]
    exact DataMap.valid_set h.data ctx.tick hu.data k _ _ _ rvalues
  · rw [hframe, hdata]
    intro k' e he e' he' hs
    rcases (mem_items_writtenData h.sound _ _ _ k k' rvalues e).mp he with ⟨_, hn⟩ | ⟨_, he⟩
    · rw [hn, DataMapValue.entryOf_tick]
      exact hu.fixed k' e' he'
    · exact h.newer k' e he e' he' hs
  · exact (sound_writeEntry h.sound ctx origSource writer k rvalues).masked

theorem until_writeEntry (h : d.Valid)
    (hu : d.Until ctx.tick) (origSource writer : Source D K) (k : K) (rvalues : List F) :
    (d.writeEntry ctx origSource writer k rvalues).Until ctx.tick := by
  by_cases hne : rvalues = d.getArraySourceKey origSource k
  · rw [writeEntry_same hne]
    exact hu
  constructor
  · rw [(writeEntry_frame d ctx origSource writer k rvalues).1]
    exact hu.fixed
  · rw [writeEntry_data hne]
    intro k' e he
    rcases (mem_items_writtenData h.sound _ _ _ k k' rvalues e).mp he with ⟨_, hn⟩ | ⟨_, he⟩
    · rw [hn, DataMapValue.entryOf_tick]
    · exact hu.data k' e he

theorem getArraySourceKey_written (h : d.Sound) {origSource : Source D K} (writer : Source D K)
    {k : K} (hne : rvalues ≠ d.getArraySourceKey origSource k) (source' : Source D K)
    (k' : K) :
    (d.writeEntry ctx origSource writer k rvalues).getArraySourceKey source' k' =
      if k' = k ∧ source' = ctx.sourceOverride.getD origSource then rvalues
      else d.getArraySourceKey source' k' := by
  rw [getArraySourceKey_cases, getArraySourceKey_cases, writeEntry_data hne, value_writtenData,
    (writeEntry_frame d ctx origSource writer k rvalues).1]
  by_cases hk : k' = k
  · rw [if_pos hk, DataMapValue.maybeGet_set (h.coherent k), hk]
    by_cases hs : source' = ctx.sourceOverride.getD origSource
    · rw [if_pos hs, if_pos ⟨rfl, hs⟩]
    · rw [if_neg hs, if_neg fun hand => hs hand.2]
  · rw [if_neg hk, if_neg fun hand => hk hand.1]

theorem getArraySourceKey_writeEntry (h : d.Sound)
    (hov : ctx.sourceOverride = none) (source writer : Source D K) (k : K)
    (rvalues : List F) (source' : Source D K) (k' : K) :
    (d.writeEntry ctx source writer k rvalues).getArraySourceKey source' k' =
      if k' = k ∧ source' = source then rvalues else d.getArraySourceKey source' k' := by
  by_cases hne : rvalues = d.getArraySourceKey source k
  · rw [writeEntry_same hne]
    split_ifs with hp
    · rw [hp.1, hp.2, ← hne]
    · rfl
  · rw [getArraySourceKey_written h writer hne, hov]
    rfl

end Write
end SkipPlatform.EagerDir
