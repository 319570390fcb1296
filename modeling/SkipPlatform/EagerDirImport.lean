import SkipPlatform.EagerDirRuns

set_option autoImplicit false
set_option linter.unusedSectionVars false

/-! Replication of one input directory: the entries changed since a tick are written
to the target, and a source purged past that tick resets the keys it does not name. -/
namespace SkipPlatform.EagerDir
open List SortedMerge StoreSourceMap
variable {D K F : Type} [LinearOrder D] [StoreKey K]

def valuesOf (rows : List (FixedRow K (Source D K) (List F))) (key : K) : List F :=
  (rows.filter fun r => decide (r.key = key)).flatMap FixedRow.value

theorem valuesOf_cons (row : FixedRow K (Source D K) (List F))
    (rest : List (FixedRow K (Source D K) (List F))) (key : K) :
    valuesOf (row :: rest) key =
      if row.key = key then row.value ++ valuesOf rest key else valuesOf rest key := by
  unfold valuesOf
  rw [filter_cons]
  by_cases h : row.key = key
  · rw [if_pos (decide_eq_true h), if_pos h, flatMap_cons]
  · rw [if_neg (by simpa using h), if_neg h]

theorem valuesOf_eq_nil {rows : List (FixedRow K (Source D K) (List F))} {key : K}
    (h : ∀ r ∈ rows, r.key ≠ key) : valuesOf rows key = [] := by
  unfold valuesOf
  rw [filter_eq_nil_iff.mpr fun r hr hd => h r hr (of_decide_eq_true hd)]
  rfl

theorem groupRows_spec {rows : List (FixedRow K (Source D K) (List F))}
    (h : rows.Pairwise fun a b => a.key ≤ b.key) :
    (Reducer.groupRows rows).Pairwise (fun a b => a.1 < b.1) ∧
      ∀ x, x ∈ Reducer.groupRows rows ↔
        (∃ r ∈ rows, r.key = x.1) ∧ x.2 = valuesOf rows x.1 := by
  induction rows with
  | nil => exact ⟨List.Pairwise.nil, fun x => by simp [Reducer.groupRows]⟩
  | cons row rest ih =>
    obtain ⟨hrow, hrest⟩ := pairwise_cons.mp h
    obtain ⟨hsorted, hmem⟩ := ih hrest
    have hexists : ∀ k, (∃ r ∈ row :: rest, r.key = k) ↔
        row.key = k ∨ ∃ r ∈ rest, r.key = k := by
      intro k
      simp
    rw [Reducer.groupRows]
    cases hg : Reducer.groupRows rest with
    | nil =>
      have hnone : ∀ k, ¬ ∃ r ∈ rest, r.key = k := by
        intro k hk
        have := (hmem (k, valuesOf rest k)).mpr ⟨hk, rfl⟩
        rw [hg] at this
        cases this
      have hvalues : ∀ k, valuesOf rest k = [] := fun k =>
        valuesOf_eq_nil fun r hr he => hnone k ⟨r, hr, he⟩
      refine ⟨pairwise_singleton _ _, ?_⟩
      intro x
      rw [mem_singleton, hexists, valuesOf_cons, hvalues, append_nil]
      simp only [hnone, or_false]
      constructor
      · intro hx
        rw [hx]
        exact ⟨rfl, by rw [if_pos rfl]⟩
      · rintro ⟨hk, hv⟩
        rw [if_pos hk] at hv
        exact Prod.ext hk.symm hv
    | cons group groups =>
      obtain ⟨key, files⟩ := group
      rw [hg] at hsorted hmem
      obtain ⟨hhead, hgroups⟩ := pairwise_cons.mp hsorted
      obtain ⟨⟨r, hr, hrk⟩, hfiles⟩ := (hmem (key, files)).mp mem_cons_self
      change r.key = key at hrk
      change files = valuesOf rest key at hfiles
      have hle : row.key ≤ key := hrk ▸ hrow r hr
      by_cases hkey : row.key = key
      · simp only [if_pos hkey]
        refine ⟨pairwise_cons.mpr ⟨hhead, hgroups⟩, ?_⟩
        intro x
        rw [mem_cons, hexists, valuesOf_cons]
        constructor
        · rintro (hx | hx)
          · rw [hx]
            exact ⟨Or.inl hkey, by rw [if_pos hkey, ← hfiles]⟩
          · have hx' := (hmem x).mp (mem_cons_of_mem _ hx)
            have hne : row.key ≠ x.1 := by
              rw [hkey]
              exact (hhead x hx).ne
            exact ⟨Or.inr hx'.1, by rw [if_neg hne, hx'.2]⟩
        · rintro ⟨hk, hv⟩
          by_cases hxk : row.key = x.1
          · rw [if_pos hxk] at hv
            left
            refine Prod.ext (hxk.symm.trans hkey) ?_
            rw [hv, ← hxk, hkey, hfiles]
          · rw [if_neg hxk] at hv
            have hx := (hmem x).mpr ⟨hk.resolve_left hxk, hv⟩
            rcases mem_cons.mp hx with hx | hx
            · rw [hx] at hxk
              exact absurd hkey hxk
            · exact Or.inr hx
      · have hlt : row.key < key := lt_of_le_of_ne hle hkey
        have hbelow : ∀ y ∈ (key, files) :: groups, row.key < y.1 := by
          intro y hy
          rcases mem_cons.mp hy with hy | hy
          · rw [hy]
            exact hlt
          · exact hlt.trans (hhead y hy)
        have hnil : valuesOf rest row.key = [] := by
          apply valuesOf_eq_nil
          intro r' hr' he
          have hgroup := (hmem (row.key, valuesOf rest row.key)).mpr ⟨⟨r', hr', he⟩, rfl⟩
          exact lt_irrefl _ (hbelow _ hgroup)
        simp only [if_neg hkey]
        refine ⟨pairwise_cons.mpr ⟨hbelow, hsorted⟩, ?_⟩
        intro x
        rw [mem_cons, hexists, valuesOf_cons]
        constructor
        · rintro (hx | hx)
          · rw [hx]
            exact ⟨Or.inl rfl, by rw [if_pos rfl, hnil, append_nil]⟩
          · have hx' := (hmem x).mp hx
            exact ⟨Or.inr hx'.1, by rw [if_neg (hbelow x hx).ne, hx'.2]⟩
        · rintro ⟨hk, hv⟩
          by_cases hxk : row.key = x.1
          · left
            rw [if_pos hxk, ← hxk, hnil, append_nil] at hv
            exact Prod.ext hxk.symm hv
          · rw [if_neg hxk] at hv
            exact Or.inr ((hmem x).mpr ⟨hk.resolve_left hxk, hv⟩)

theorem flatMap_getIter (m : FixedDataMap K (Source D K) F) (key : K) :
    (m.getIter key).flatMap Entry.files = valuesOf m.data.rows key := by
  unfold FixedDataMap.getIter FixedDataMap.mergeKey
  rw [flatMap_mergeBy Entry.files]
  · unfold FixedDir.getIter valuesOf
    rw [FixedDir.getAll_eq, flatMap_map]
  · intro y
    rfl
  · intro x y
    rfl

theorem flatMap_filter_files (es : List (Entry (Source D K) F)) :
    (es.filter fun e => !e.files.isEmpty).flatMap Entry.files = es.flatMap Entry.files := by
  induction es with
  | nil => rfl
  | cons e es ih =>
    rw [filter_cons, flatMap_cons]
    by_cases he : e.files = []
    · rw [if_neg (by simp [he]), ih, he, nil_append]
    · rw [if_pos (by simp [he]), flatMap_cons, ih]

variable {d : EagerDir D K F}

theorem filesOf_fixed {key : K} (h : key ∉ d.data.data.keys) :
    d.filesOf key = valuesOf d.fixedData.data.rows key := by
  have hdata : d.data.data.maybeGet key = none := by
    rw [DMap.maybeGet_eq_none]
    intro x hx he
    exact h (mem_map.mpr ⟨x, hx, he⟩)
  unfold filesOf unsafeGetDataIterWithoutTombs DataMap.maybeGet
  rw [hdata]
  cases d.data.tombs.maybeGet key with
  | none =>
    change ((d.fixedData.getIter key).filter fun e => !e.files.isEmpty).flatMap Entry.files = _
    rw [flatMap_filter_files, flatMap_getIter]
  | some tombs =>
    change ((d.fixedData.getIter key).filter fun e => !e.files.isEmpty).flatMap Entry.files = _
    rw [flatMap_filter_files, flatMap_getIter]

theorem keys_sorted (d : EagerDir D K F) : d.data.data.keys.Pairwise (· < ·) := by
  unfold DMap.keys
  rw [pairwise_map]
  exact d.data.data.items_sorted

theorem modifiedFiles_sorted (d : EagerDir D K F) :
    (d.data.data.keys.map fun key => (key, d.getArrayRaw key)).Pairwise fun a b => a.1 < b.1 := by
  rw [pairwise_map]
  exact d.keys_sorted

theorem unsafeGetFileIterNoReducer_none (d : EagerDir D K F) :
    d.unsafeGetFileIterNoReducer none =
      overrideMerge Prod.fst (Reducer.groupRows d.fixedData.data.rows)
        (d.data.data.keys.map fun key => (key, d.getArrayRaw key)) := by
  unfold unsafeGetFileIterNoReducer
  simp only [drop_zero, Option.all_none, filter_true]

theorem unsafeGetFileIterNoReducer_sorted (d : EagerDir D K F) :
    (d.unsafeGetFileIterNoReducer none).Pairwise fun a b => a.1 < b.1 := by
  have hgroups := (groupRows_spec d.fixedData.data.keys_sorted).1
  rw [unsafeGetFileIterNoReducer_none]
  exact overrideMerge_pairwise (· < ·) id (hgroups.imp le_of_lt) hgroups d.modifiedFiles_sorted

/-- The walk over a directory without reducer yields the files of every key it names,
and names every key with files. -/
theorem mem_unsafeGetFileIter (hred : d.reducer = none) :
    (∀ x ∈ d.unsafeGetFileIter, x.2 = d.filesOf x.1) ∧
      ∀ key, d.filesOf key ≠ [] → (key, d.filesOf key) ∈ d.unsafeGetFileIter := by
  obtain ⟨hsorted, hgroups⟩ := groupRows_spec d.fixedData.data.keys_sorted
  have hraw : ∀ key, d.getArrayRaw key = d.filesOf key := by
    intro key
    unfold getArrayRaw
    rw [hred]
  set modified := d.data.data.keys.map fun key => (key, d.filesOf key) with hmodified
  have hkeys : modified.Pairwise fun a b => a.1 < b.1 := by
    rw [hmodified, pairwise_map]
    exact d.keys_sorted
  have hiter : d.unsafeGetFileIter =
      overrideMerge Prod.fst (Reducer.groupRows d.fixedData.data.rows) modified := by
    unfold unsafeGetFileIter
    rw [hred]
    simp only [unsafeGetFileIterNoReducer_none, hraw]
    rfl
  have hmem : ∀ x, x ∈ d.unsafeGetFileIter ↔ x ∈ modified ∨
      x ∈ Reducer.groupRows d.fixedData.data.rows ∧ ∀ m ∈ modified, m.1 ≠ x.1 := by
    intro x
    rw [hiter]
    exact mem_overrideMerge (hsorted.imp le_of_lt) hkeys x
  have hnot : ∀ key, (∀ m ∈ modified, m.1 ≠ key) → key ∉ d.data.data.keys := by
    intro key hno hk
    exact hno (key, d.filesOf key) (mem_map_of_mem hk) rfl
  constructor
  · intro x hx
    rcases (hmem x).mp hx with hx | ⟨hx, hno⟩
    · obtain ⟨key, _, rfl⟩ := mem_map.mp hx
      rfl
    · rw [filesOf_fixed (hnot x.1 hno)]
      exact ((hgroups x).mp hx).2
  · intro key hne
    rw [hmem]
    by_cases hk : key ∈ d.data.data.keys
    · exact Or.inl (mem_map_of_mem hk)
    · have hfixed := filesOf_fixed hk
      refine Or.inr ⟨(hgroups _).mpr ⟨?_, hfixed⟩, ?_⟩
      · by_contra hno
        push Not at hno
        exact hne (hfixed.trans (valuesOf_eq_nil hno))
      · intro m hm he
        obtain ⟨key', hkey', rfl⟩ := mem_map.mp hm
        change key' = key at he
        exact hk (he ▸ hkey')

theorem filesOf_eq_nil (h : d.Valid) {key : K} :
    d.filesOf key = [] ↔ ∀ source, d.getArraySourceKey source key = [] := by
  rw [filesOf_eq, flatMap_eq_nil_iff]
  constructor
  · intro hnil source
    by_contra hne
    exact hne (hnil (source, d.getArraySourceKey source key)
      ((mem_contributions h).mpr ⟨hne, rfl⟩))
  · intro hnil x hx
    have := (mem_contributions h).mp hx
    exact absurd (this.2.symm.trans (hnil x.1)) this.1

/-- One binding of `unsafeWriteArraySourceMany`. -/
abbrev Binding (D K F : Type) := K × Source D K × Source D K × List F

theorem mem_getAllKeysWithValues (hred : d.reducer = none) {key : K} :
    key ∈ d.getAllKeysWithValues.keys ↔ d.filesOf key ≠ [] := by
  obtain ⟨hvalues, hnamed⟩ := mem_unsafeGetFileIter hred
  have hfold : d.getAllKeysWithValues =
      ((d.unsafeGetFileIter.filter fun x => !x.2.isEmpty).map Prod.fst).foldl
        (fun s k => s.set k ()) .empty := by
    unfold getAllKeysWithValues
    rw [foldl_map]
  rw [hfold, DMap.mem_foldl_set]
  simp only [mem_map, mem_filter]
  constructor
  · rintro (⟨x, ⟨hx, hne⟩, rfl⟩ | hk)
    · rw [← hvalues x hx]
      simpa using hne
    · cases hk
  · intro hne
    exact Or.inl ⟨_, ⟨hnamed key hne, by simpa using hne⟩, rfl⟩

section Write
variable [DecidableEq F]

def writeBindings (ctx : WriteContext D K) (d : EagerDir D K F) (bindings : List (Binding D K F)) :
    EagerDir D K F :=
  bindings.foldl (fun d b => d.writeEntry ctx b.2.1 b.2.2.1 b.1 b.2.2.2) d

/-- `gen` is the path `Path::gen` makes of the writer's directory. -/
def unsafeWriteArraySourceMany (ctx : WriteContext D K) (gen : D → Source D K)
    (d : EagerDir D K F) (bindings : List (Binding D K F))
    (changedKeysIfReset : Option (D × SortedSet K)) : EagerDir D K F :=
  let d := writeBindings ctx d bindings
  match changedKeysIfReset with
  | none => d
  | some (writerDirName, changedKeys) => d.reset ctx (gen writerDirName) changedKeys

def importEntries (d : EagerDir D K F) (tick : ℕ) (changedKeys : SortedSet K) :
    List (Binding D K F) :=
  changedKeys.keys.flatMap fun key =>
    (d.unsafeGetAllDataIterAfter tick key).map fun e => (key, e.source, e.writer, e.files)

/-- The part of `import` for a target that has the input directory. -/
def importInto (d : EagerDir D K F) (ctx : WriteContext D K) (gen : D → Source D K) (tick : ℕ)
    (inputDir : EagerDir D K F) : EagerDir D K F :=
  let changes := d.getChangesAfter tick
  unsafeWriteArraySourceMany ctx gen inputDir (d.importEntries tick changes.2)
    (if changes.1 then some (d.dirName, changes.2) else none)

/-- The directory still knows of a write of this key and source at or after the tick. -/
def Recorded (d : EagerDir D K F) (tick : ℕ) (source : Source D K) (key : K) : Prop :=
  ∃ e ∈ d.entries key, e.source = source ∧ tick ≤ e.tick

variable {d : EagerDir D K F}

theorem mem_importEntries (h : d.Valid) {tick : ℕ} {changed : SortedSet K}
    {b : Binding D K F} :
    b ∈ d.importEntries tick changed ↔ b.1 ∈ changed.keys ∧
      ∃ e ∈ d.entries b.1, tick ≤ e.tick ∧ (e.source, e.writer, e.files) = b.2 := by
  unfold importEntries
  simp only [mem_flatMap, mem_entriesAfter h, mem_map, mem_filter,
    decide_eq_true_eq]
  constructor
  · rintro ⟨key, hkey, e, ⟨he, ht⟩, rfl⟩
    exact ⟨hkey, e, he, ht, rfl⟩
  · rintro ⟨hkey, e, he, ht, hb⟩
    exact ⟨b.1, hkey, e, ⟨he, ht⟩, Prod.ext rfl hb⟩

theorem importEntries_distinct (h : d.Valid) (tick : ℕ)
    (changed : SortedSet K) :
    (d.importEntries tick changed).Pairwise fun a b => (a.1, a.2.1) ≠ (b.1, b.2.1) := by
  unfold importEntries
  rw [pairwise_flatMap]
  constructor
  · intro key _
    rw [pairwise_map, mem_entriesAfter h]
    apply ((entries_sorted h.distinct key).filter _).imp
    intro a b hab he
    exact hab.ne (Prod.mk.inj he).2
  · apply changed.keys_sorted.imp
    intro k k' hk x hx y hy he
    obtain ⟨e, _, rfl⟩ := mem_map.mp hx
    obtain ⟨e', _, rfl⟩ := mem_map.mp hy
    exact hk.ne (Prod.mk.inj he).1

/-- A directory without reducer that can be written at the context's tick. -/
structure Ready (ctx : WriteContext D K) (d : EagerDir D K F) : Prop where
  valid : d.Valid
  ticks : d.Until ctx.tick
  plain : d.reducer = none

theorem reducer_writeEntry (h : d.reducer = none) (ctx : WriteContext D K)
    (origSource writer : Source D K) (k : K) (rvalues : List F) :
    (d.writeEntry ctx origSource writer k rvalues).reducer = none := by
  by_cases hne : rvalues = d.getArraySourceKey origSource k
  · rw [writeEntry_same hne]
    exact h
  · unfold writeEntry
    simp only
    rw [if_neg hne, h]
    rfl

theorem ready_writeEntry {ctx : WriteContext D K} (h : d.Ready ctx)
    (origSource writer : Source D K) (k : K) (rvalues : List F) :
    (d.writeEntry ctx origSource writer k rvalues).Ready ctx :=
  ⟨valid_writeEntry h.valid h.ticks _ _ _ _, until_writeEntry h.valid h.ticks _ _ _ _,
    reducer_writeEntry h.plain _ _ _ _ _⟩

variable {ctx : WriteContext D K} (hov : ctx.sourceOverride = none)
include hov

theorem writeBindings_spec {bindings : List (Binding D K F)}
    (h : d.Ready ctx) (hdistinct : bindings.Pairwise fun a b => (a.1, a.2.1) ≠ (b.1, b.2.1)) :
    (writeBindings ctx d bindings).Ready ctx ∧
      (∀ b ∈ bindings,
        (writeBindings ctx d bindings).getArraySourceKey b.2.1 b.1 = b.2.2.2) ∧
      ∀ source key, (∀ b ∈ bindings, (b.1, b.2.1) ≠ (key, source)) →
        (writeBindings ctx d bindings).getArraySourceKey source key =
          d.getArraySourceKey source key := by
  induction bindings generalizing d with
  | nil => exact ⟨h, fun b hb => absurd hb not_mem_nil, fun _ _ _ => rfl⟩
  | cons b rest ih =>
    obtain ⟨hb, hrest⟩ := pairwise_cons.mp hdistinct
    have hwrite := getArraySourceKey_writeEntry h.valid.sound hov b.2.1 b.2.2.1 b.1 b.2.2.2
    obtain ⟨hready, hin, hout⟩ := ih (ready_writeEntry h b.2.1 b.2.2.1 b.1 b.2.2.2) hrest
    refine ⟨hready, ?_, ?_⟩
    · intro b' hb'
      rcases mem_cons.mp hb' with hb' | hb'
      · rw [hb']
        refine (hout b.2.1 b.1 fun c hc => (hb c hc).symm).trans ?_
        rw [hwrite, if_pos ⟨rfl, rfl⟩]
      · exact hin b' hb'
    · intro source key hno
      refine (hout source key fun c hc => hno c (mem_cons_of_mem b hc)).trans ?_
      rw [hwrite, if_neg]
      intro hp
      exact hno b mem_cons_self (Prod.ext hp.1.symm hp.2.symm)

theorem resetKey_spec (h : d.Ready ctx) (writer : Source D K) (key : K) :
    (resetKey ctx writer d key).Ready ctx ∧
      ∀ source k, (resetKey ctx writer d key).getArraySourceKey source k =
        if k = key then [] else d.getArraySourceKey source k := by
  set es := d.unsafeGetDataIterWithoutTombs key with hes
  have hbind : resetKey ctx writer d key =
      writeBindings ctx d (es.map fun e => (key, e.source, writer, [])) := by
    unfold resetKey writeBindings
    rw [foldl_map]
  have hdistinct : (es.map fun e => ((key, e.source, writer, []) : Binding D K F)).Pairwise
      fun a b => (a.1, a.2.1) ≠ (b.1, b.2.1) := by
    rw [pairwise_map, hes, withoutTombs_eq h.valid]
    apply ((entries_sorted h.valid.distinct key).filter _).imp
    intro a b hab he
    exact hab.ne (Prod.mk.inj he).2
  obtain ⟨hready, hin, hout⟩ := writeBindings_spec hov h hdistinct
  rw [hbind]
  refine ⟨hready, ?_⟩
  intro source k
  by_cases hsome : ∃ e ∈ es, k = key ∧ e.source = source
  · obtain ⟨e, he, hk, hs⟩ := hsome
    rw [if_pos hk, hk, ← hs]
    exact hin (key, e.source, writer, []) (mem_map_of_mem he)
  · have hunchanged := hout source k (by
      intro b hb he
      obtain ⟨e, he', rfl⟩ := mem_map.mp hb
      exact hsome ⟨e, he', (Prod.mk.inj he).1.symm, (Prod.mk.inj he).2⟩)
    rw [hunchanged]
    by_cases hk : k = key
    · rw [if_pos hk]
      by_contra hne
      have hmem := (mem_contributions h.valid).mpr
        (show (source, d.getArraySourceKey source k).2 ≠ [] ∧ _ from ⟨hne, rfl⟩)
      rw [hk] at hmem
      obtain ⟨e, he, hee⟩ := mem_map.mp hmem
      exact hsome ⟨e, he, hk, (Prod.mk.inj hee).1⟩
    · rw [if_neg hk]

theorem reset_spec (h : d.Ready ctx) (writer : Source D K)
    (keep : SortedSet K) :
    (d.reset ctx writer keep).Ready ctx ∧
      ∀ source k, (d.reset ctx writer keep).getArraySourceKey source k =
        if k ∈ keep.keys then d.getArraySourceKey source k else [] := by
  have hloop : ∀ (xs : List (K × List F)) (d' : EagerDir D K F), d'.Ready ctx →
      let d'' := xs.foldl (fun d' x =>
        if !keep.containsKey x.1 && !x.2.isEmpty then resetKey ctx writer d' x.1 else d') d'
      d''.Ready ctx ∧ ∀ source k, d''.getArraySourceKey source k =
        if ∃ x ∈ xs, x.1 = k ∧ x.1 ∉ keep.keys ∧ x.2 ≠ [] then []
        else d'.getArraySourceKey source k := by
    intro xs
    induction xs with
    | nil =>
      intro d' hd'
      refine ⟨hd', ?_⟩
      intro source k
      rw [if_neg (by simp)]
      rfl
    | cons x xs ih =>
      intro d' hd'
      rw [foldl_cons]
      by_cases hx : x.1 ∉ keep.keys ∧ x.2 ≠ []
      · have hcond : (!keep.containsKey x.1 && !x.2.isEmpty) = true := by
          simp [← SortedMap.containsKey_iff] at hx ⊢
          exact hx
        rw [if_pos hcond]
        obtain ⟨hr, hv⟩ := resetKey_spec hov hd' writer x.1
        obtain ⟨hr', hv'⟩ := ih _ hr
        refine ⟨hr', ?_⟩
        intro source k
        rw [hv', hv]
        by_cases hlater : ∃ y ∈ xs, y.1 = k ∧ y.1 ∉ keep.keys ∧ y.2 ≠ []
        · obtain ⟨y, hy, hp⟩ := hlater
          rw [if_pos ⟨y, hy, hp⟩, if_pos ⟨y, mem_cons_of_mem x hy, hp⟩]
        · rw [if_neg hlater]
          by_cases hk : k = x.1
          · rw [if_pos hk, if_pos ⟨x, mem_cons_self, hk.symm, hx⟩]
          · rw [if_neg hk, if_neg]
            rintro ⟨y, hy, hyk, hp⟩
            rcases mem_cons.mp hy with hy | hy
            · exact hk (hyk.symm.trans (congrArg Prod.fst hy))
            · exact hlater ⟨y, hy, hyk, hp⟩
      · have hcond : ¬ (!keep.containsKey x.1 && !x.2.isEmpty) = true := by
          simp [← SortedMap.containsKey_iff] at hx ⊢
          exact hx
        rw [if_neg hcond]
        obtain ⟨hr', hv'⟩ := ih d' hd'
        refine ⟨hr', ?_⟩
        intro source k
        rw [hv']
        have hiff : (∃ y ∈ x :: xs, y.1 = k ∧ y.1 ∉ keep.keys ∧ y.2 ≠ []) ↔
            ∃ y ∈ xs, y.1 = k ∧ y.1 ∉ keep.keys ∧ y.2 ≠ [] := by
          constructor
          · rintro ⟨y, hy, hyk, hp⟩
            rcases mem_cons.mp hy with hy | hy
            · rw [hy] at hp
              exact absurd hp hx
            · exact ⟨y, hy, hyk, hp⟩
          · rintro ⟨y, hy, hp⟩
            exact ⟨y, mem_cons_of_mem x hy, hp⟩
        simp only [hiff]
  obtain ⟨hready, hvalue⟩ := hloop d.unsafeGetFileIter d h
  refine ⟨hready, ?_⟩
  intro source k
  obtain ⟨hfiles, hnamed⟩ := mem_unsafeGetFileIter h.plain
  refine (hvalue source k).trans ?_
  by_cases hkeep : k ∈ keep.keys
  · rw [if_pos hkeep, if_neg]
    rintro ⟨x, _, hk, hno, _⟩
    exact hno (hk ▸ hkeep)
  · rw [if_neg hkeep]
    by_cases hempty : d.filesOf k = []
    · rw [(filesOf_eq_nil h.valid).mp hempty source]
      simp
    · rw [if_pos ⟨_, hnamed k hempty, rfl, hkeep, hempty⟩]

/-- After an import the target agrees with the source on a key and source exactly if the
source has a record of the last write, or was purged past the tick and has no values
left for the key, or both agreed before. -/
theorem importInto_agrees_iff {d inputDir : EagerDir D K F} (h : d.Valid) (hred : d.reducer = none)
    (ht : inputDir.Ready ctx) (gen : D → Source D K) (tick : ℕ) (source : Source D K) (key : K) :
    (d.importInto ctx gen tick inputDir).getArraySourceKey source key =
        d.getArraySourceKey source key ↔
      d.Recorded tick source key ∨
        ((d.getChangesAfter tick).1 = true ∧ d.filesOf key = []) ∨
          inputDir.getArraySourceKey source key = d.getArraySourceKey source key := by
  set changed := (d.getChangesAfter tick).2 with hchanged
  obtain ⟨hready, hin, hout⟩ :=
    writeBindings_spec hov ht (importEntries_distinct h tick changed)
  set written := writeBindings ctx inputDir (d.importEntries tick changed) with hwritten
  have hrecorded : ∀ e ∈ d.entries key, tick ≤ e.tick → key ∈ changed.keys →
      written.getArraySourceKey e.source key = d.getArraySourceKey e.source key := by
    intro e he hte hk
    rw [getArraySourceKey_of_mem h he]
    exact hin (key, e.source, e.writer, e.files)
      ((mem_importEntries h).mpr ⟨hk, e, he, hte, rfl⟩)
  have hother : (¬ d.Recorded tick source key ∨ key ∉ changed.keys) →
      written.getArraySourceKey source key = inputDir.getArraySourceKey source key := by
    intro hno
    apply hout
    intro b hb he
    obtain ⟨hk, e, hmem, hte, hbe⟩ := (mem_importEntries h).mp hb
    have hbk : b.1 = key := (Prod.mk.inj he).1
    have hbs : b.2.1 = source := (Prod.mk.inj he).2
    rw [hbk] at hk hmem
    rcases hno with hno | hno
    · exact hno ⟨e, hmem, (congrArg Prod.fst hbe).trans hbs, hte⟩
    · exact hno hk
  by_cases hreset : (d.getChangesAfter tick).1 = true
  · have hlimit : d.getChangesAfter tick = (true, d.getAllKeysWithValues) := by
      unfold getChangesAfter at hreset ⊢
      split_ifs at hreset ⊢
      rfl
    have hkeys : ∀ k, k ∈ changed.keys ↔ d.filesOf k ≠ [] := by
      intro k
      rw [hchanged, hlimit]
      exact mem_getAllKeysWithValues hred
    have hresult : ∀ source k, (d.importInto ctx gen tick inputDir).getArraySourceKey source k =
        if k ∈ changed.keys then written.getArraySourceKey source k else [] := by
      intro source k
      unfold importInto unsafeWriteArraySourceMany
      simp only
      rw [if_pos hreset]
      exact (reset_spec hov hready (gen d.dirName) changed).2 source k
    rw [hresult]
    by_cases hempty : d.filesOf key = []
    · rw [if_neg fun hk => (hkeys key).mp hk hempty, (filesOf_eq_nil h).mp hempty source]
      exact iff_of_true rfl (Or.inr (Or.inl ⟨hreset, hempty⟩))
    · have hk : key ∈ changed.keys := (hkeys key).mpr hempty
      rw [if_pos hk]
      by_cases hrec : d.Recorded tick source key
      · obtain ⟨e, he, hs, hte⟩ := hrec
        rw [← hs]
        exact iff_of_true (hrecorded e he hte hk) (Or.inl ⟨e, he, rfl, hte⟩)
      · rw [hother (Or.inl hrec)]
        simp [hrec, hempty]
  · have hlimit : ∀ limit, d.tombLimit = some limit → limit < tick := by
      intro limit hl
      by_contra hle
      apply hreset
      unfold getChangesAfter
      rw [if_pos]
      rw [hl, Option.any_some, decide_eq_true_iff]
      omega
    have hkeys : ∀ k, k ∈ changed.keys ↔ ∃ e ∈ d.entries k, tick ≤ e.tick := fun k =>
      mem_getChangesAfter h hlimit
    have hresult : (d.importInto ctx gen tick inputDir).getArraySourceKey source key =
        written.getArraySourceKey source key := by
      unfold importInto unsafeWriteArraySourceMany
      simp only
      rw [if_neg hreset]
    rw [hresult]
    by_cases hrec : d.Recorded tick source key
    · obtain ⟨e, he, hs, hte⟩ := hrec
      rw [← hs]
      exact iff_of_true (hrecorded e he hte ((hkeys key).mpr ⟨e, he, hte⟩))
        (Or.inl ⟨e, he, rfl, hte⟩)
    · rw [hother (Or.inl hrec)]
      simp [hrec, hreset]

end Write

section Arrays
variable [DecidableEq F] {s s' : Clocked D K F}

/-- What a step does to the arrays of the sources, as a map. -/
def Step.effect (arrays : Source D K → K → List F) : Step D K F → Source D K → K → List F
  | .write sourceOverride origSource _ key values => fun source k =>
    if values ≠ arrays origSource key ∧ k = key ∧ source = sourceOverride.getD origSource then values
    else arrays source k
  | .reset _ _ keep => fun source k => if k ∈ keep.keys then arrays source k else []
  | _ => arrays

/-- A reset clears every source of a key where no source overrides them. -/
def Step.Clears : Step D K F → Prop
  | .reset sourceOverride _ _ => sourceOverride = none
  | _ => True

theorem step_effect (h : s.Inv) (plain : s.dir.reducer = none) {st : Step D K F}
    (hc : ∀ limit, st = .purge limit → s.dir.compacts = false) (clears : st.Clears)
    (hs : s.step st = some s') : s'.dir.reducer = none ∧
      s'.dir.getArraySourceKey = st.effect s.dir.getArraySourceKey := by
  cases st with
  | write sourceOverride origSource writer key values =>
    cases hs
    refine ⟨reducer_writeEntry plain _ _ _ _ _, funext fun source => funext fun k => ?_⟩
    by_cases same : values = s.dir.getArraySourceKey origSource key
    · rw [writeEntry_same same]
      exact (if_neg fun both => both.1 same).symm
    · rw [getArraySourceKey_written h.valid.sound writer same]
      simp [Step.effect, same]
  | reset sourceOverride writer keep =>
    cases hs
    cases clears
    have before : s.dir.Ready ⟨s.now, none⟩ := ⟨h.valid, h.ticks, plain⟩
    obtain ⟨ready, reads⟩ := reset_spec rfl before writer keep
    exact ⟨ready.plain, funext fun source => funext fun k => reads source k⟩
  | purge limit =>
    obtain ⟨d', hp, hd'⟩ := Option.map_eq_some_iff.mp hs
    cases hd'
    obtain ⟨d, hd, -, -, -, same⟩ := purge_spec h.valid h.old (hc limit rfl) limit s.now h.ticks
    cases hp.symm.trans hd
    refine ⟨?_, funext fun source => funext fun k => same.getArraySourceKey source k⟩
    rcases purge_cases hp with hsame | ⟨fixedOld, hd'⟩
    · rw [hsame]
      exact plain
    · rw [hd']
      exact plain
  | _ =>
    cases hs
    exact ⟨plain, rfl⟩

/-- A directory without a reducer is a map from sources and keys to arrays, whatever it went
through since its creation. -/
theorem run_arrays (c : Creation D K F) (hc : c.Distinct) (plain : c.reducer = none)
    (steps : List (Step D K F)) (hp : ∀ s, c.make = some s → s.Plain steps)
    (clears : ∀ st ∈ steps, st.Clears) :
    ∃ s s', c.make = some s ∧ s.run steps = some s' ∧
      s'.dir.getArraySourceKey = steps.foldl Step.effect s.dir.getArraySourceKey := by
  obtain ⟨s, hs, hi⟩ := make_inv hc
  obtain ⟨s', hrun, -, -, -, hreads⟩ := run_rule
    (P := fun rest t => (∀ st ∈ rest, st.Clears) ∧ t.dir.reducer = none ∧
      rest.foldl Step.effect t.dir.getArraySourceKey =
        steps.foldl Step.effect s.dir.getArraySourceKey)
    (by
      intro st rest t t' ht hcompacts hstep ⟨hrest, hplain, hreads⟩
      obtain ⟨hplain', heffect⟩ :=
        step_effect ht hplain hcompacts (hrest st mem_cons_self) hstep
      exact ⟨fun st' hst' => hrest st' (mem_cons_of_mem st hst'), hplain',
        by rw [heffect]; exact hreads⟩)
    hi steps (hp s hs) ⟨clears, (make_made hs).reducer plain, rfl⟩
  exact ⟨s, s', hs, hrun, hreads⟩

theorem run_arrays_dropRow : ∃ s s', collected.make = some s ∧ s.run dropRow = some s' ∧
    s'.dir.getArraySourceKey = dropRow.foldl Step.effect s.dir.getArraySourceKey := by
  apply run_arrays collected ⟨by decide, by decide, rfl⟩ rfl
  · intro s _ s1 _ s2 _ s3 _
    trivial
  · intro st member
    simp only [dropRow, mem_cons, not_mem_nil, or_false] at member
    rcases member with rfl | rfl | rfl <;> trivial

end Arrays
end SkipPlatform.EagerDir
