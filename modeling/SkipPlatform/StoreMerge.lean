import SkipPlatform.EagerDirSize
import SkipPlatform.StoreDeps
import SkipPlatform.StoreReplication

set_option autoImplicit false
set_option linter.unusedSectionVars false

/-! The merge of a working context into the root: what it returns when a part of it
raises, and what the input directories hold when none does. -/
namespace SkipPlatform
open List SortedMerge StoreSourceMap

namespace EagerDir
variable {D K F : Type} [LinearOrder D] [StoreKey K] [DecidableEq F]

variable {tick : ℕ}

theorem recorded_writeEntry {d : EagerDir D K F} (h : d.Valid) (ctx : WriteContext D K)
    (origSource writer : Source D K) (k : K) (rvalues : List F) {source : Source D K}
    {key : K} (hne : (k, ctx.sourceOverride.getD origSource) ≠ (key, source)) :
    (d.writeEntry ctx origSource writer k rvalues).Recorded tick source key ↔
      d.Recorded tick source key := by
  by_cases hsame : rvalues = d.getArraySourceKey origSource k
  · rw [writeEntry_same hsame]
  · have hmem : ∀ e : Entry (Source D K) F, e.source = source →
        (e ∈ (d.writeEntry ctx origSource writer k rvalues).entries key ↔ e ∈ d.entries key) := by
      intro e hs
      rw [mem_entries_writeEntry h hsame]
      constructor
      · intro he
        rcases he with ⟨hk, hn⟩ | ⟨_, he⟩
        · rw [hn, DataMapValue.entryOf_source] at hs
          exact absurd (Prod.ext hk.symm hs) hne
        · exact he
      · intro he
        exact Or.inr ⟨fun hk hes => hne (Prod.ext hk.symm (hes.symm.trans hs)), he⟩
    constructor
    · intro hr
      obtain ⟨e, he, hs, ht⟩ := hr
      exact ⟨e, (hmem e hs).mp he, hs, ht⟩
    · intro hr
      obtain ⟨e, he, hs, ht⟩ := hr
      exact ⟨e, (hmem e hs).mpr he, hs, ht⟩

theorem recorded_writeBindings {ctx : WriteContext D K} (hov : ctx.sourceOverride = none)
    {bindings : List (Binding D K F)} {d : EagerDir D K F} (h : d.Ready ctx)
    {source : Source D K} {key : K} (hno : ∀ b ∈ bindings, (b.1, b.2.1) ≠ (key, source)) :
    (writeBindings ctx d bindings).Recorded tick source key ↔ d.Recorded tick source key := by
  induction bindings generalizing d with
  | nil => exact Iff.rfl
  | cons b rest ih =>
    have hrest := ih (ready_writeEntry h b.2.1 b.2.2.1 b.1 b.2.2.2)
      fun c hc => hno c (mem_cons_of_mem b hc)
    refine hrest.trans (recorded_writeEntry h.valid ctx b.2.1 b.2.2.1 b.1 b.2.2.2 ?_)
    rw [hov]
    exact hno b mem_cons_self

theorem frame_writeBindings (ctx : WriteContext D K) (bindings : List (Binding D K F))
    (d : EagerDir D K F) : (writeBindings ctx d bindings).identity = d.identity ∧
      (writeBindings ctx d bindings).tombLimit = d.tombLimit := by
  induction bindings generalizing d with
  | nil => exact ⟨rfl, rfl⟩
  | cons b rest ih =>
    obtain ⟨hid, hlimit⟩ := ih (d.writeEntry ctx b.2.1 b.2.2.1 b.1 b.2.2.2)
    refine ⟨hid.trans (identity_writeEntry d ctx b.2.1 b.2.2.1 b.1 b.2.2.2), hlimit.trans ?_⟩
    exact (writeEntry_frame d ctx b.2.1 b.2.2.1 b.1 b.2.2.2).2.2.2.1

/-- The import of a directory that was not purged past the tick: its writes since the tick
replace those of the target, the other entries of the target stay as they are. -/
structure Overlaid (tick : ℕ) (d inputDir merged : EagerDir D K F) : Prop where
  identity : merged.identity = inputDir.identity
  tombLimit : merged.tombLimit = inputDir.tombLimit
  written : ∀ source key, d.Recorded tick source key →
    merged.getArraySourceKey source key = d.getArraySourceKey source key
  kept : ∀ source key, ¬ d.Recorded tick source key →
    merged.getArraySourceKey source key = inputDir.getArraySourceKey source key ∧
      (merged.Recorded tick source key ↔ inputDir.Recorded tick source key)

theorem overlaid_importInto {ctx : WriteContext D K} (hov : ctx.sourceOverride = none)
    {d inputDir : EagerDir D K F} (h : d.Valid) (hp : ¬ d.PurgedPast tick)
    (ht : inputDir.Ready ctx) (gen : D → Source D K) :
    Overlaid tick d inputDir (d.importInto ctx gen tick inputDir) ∧
      (d.importInto ctx gen tick inputDir).Ready ctx := by
  have hreset : ¬ (d.getChangesAfter tick).1 = true := fun hr => hp (getChangesAfter_fst.mp hr)
  set changed := (d.getChangesAfter tick).2 with hchanged
  have hresult : d.importInto ctx gen tick inputDir =
      writeBindings ctx inputDir (d.importEntries tick changed) := by
    unfold importInto unsafeWriteArraySourceMany
    simp only
    rw [if_neg hreset]
  have hlimit : ∀ limit, d.tombLimit = some limit → limit < tick := by
    intro limit hl
    by_contra hle
    exact hp ⟨limit, hl, not_lt.mp hle⟩
  obtain ⟨hready, hin, hout⟩ :=
    writeBindings_spec hov ht (importEntries_distinct h tick changed)
  have hno : ∀ source key, ¬ d.Recorded tick source key →
      ∀ b ∈ d.importEntries tick changed, (b.1, b.2.1) ≠ (key, source) := by
    intro source key hr b hb he
    obtain ⟨_, e, hmem, hte, hbe⟩ := (mem_importEntries h).mp hb
    rw [(Prod.mk.inj he).1] at hmem
    exact hr ⟨e, hmem, (congrArg Prod.fst hbe).trans (Prod.mk.inj he).2, hte⟩
  obtain ⟨hid, hlim⟩ := frame_writeBindings ctx (d.importEntries tick changed) inputDir
  rw [hresult]
  refine ⟨⟨hid, hlim, ?_, ?_⟩, hready⟩
  · intro source key hr
    obtain ⟨e, he, hs, hte⟩ := hr
    have hk : key ∈ changed.keys := (mem_getChangesAfter h hlimit).mpr ⟨e, he, hte⟩
    rw [← hs, getArraySourceKey_of_mem h he]
    exact hin (key, e.source, e.writer, e.files)
      ((mem_importEntries h).mpr ⟨hk, e, he, hte, rfl⟩)
  · intro source key hr
    exact ⟨hout source key (hno source key hr), recorded_writeBindings hov ht (hno source key hr)⟩

theorem overlaid_self {d inputDir : EagerDir D K F}
    (h : ∀ source key, ¬ d.Recorded tick source key) : Overlaid tick d inputDir inputDir :=
  ⟨rfl, rfl, fun source key hr => absurd hr (h source key), fun _ _ _ => ⟨rfl, Iff.rfl⟩⟩

/-- The writes of `delta` since the tick are applied to `root`, except where `root` has
writes of its own. -/
structure Merged (tick : ℕ) (root delta d : EagerDir D K F) : Prop where
  written : ∀ source key, delta.Recorded tick source key → ¬ root.Recorded tick source key →
    d.getArraySourceKey source key = delta.getArraySourceKey source key
  kept : ∀ source key, root.Recorded tick source key ∨ ¬ delta.Recorded tick source key →
    d.getArraySourceKey source key = root.getArraySourceKey source key

theorem merged_of_overlaid {root delta delta' d : EagerDir D K F}
    (h : Overlaid tick root delta delta') (h' : Overlaid tick delta' root d) :
    Merged tick root delta d := by
  constructor
  · intro source key hdelta hroot
    obtain ⟨hvalue, hrec⟩ := h.kept source key hroot
    rw [h'.written source key (hrec.mpr hdelta), hvalue]
  · intro source key hor
    by_cases hrec : delta'.Recorded tick source key
    · rw [h'.written source key hrec]
      by_cases hroot : root.Recorded tick source key
      · exact h.written source key hroot
      · have hno := hor.resolve_left hroot
        exact absurd ((h.kept source key hroot).2.mp hrec) hno
    · exact (h'.kept source key hrec).1

end EagerDir

namespace StoreContext
variable {D K F : Type} [LinearOrder D] [StoreKey K]

/-- Directories that are allowed are stored one after the other at one tick. -/
inductive Moves (allowed : Dir D K F → Prop) (c : StoreContext D K F) : StoreContext D K F → Prop
  | refl : Moves allowed c c
  | store {c' : StoreContext D K F} (h : Moves allowed c c') (dirName : D) (dir : Dir D K F)
    (ha : allowed dir) : Moves allowed c (c'.setDir dirName dir)

variable {allowed : Dir D K F → Prop}

theorem Moves.trans {c c' c'' : StoreContext D K F} (h : Moves allowed c c')
    (h' : Moves allowed c' c'') : Moves allowed c c'' := by
  induction h' with
  | refl => exact h
  | store _ dirName dir ha ih => exact ih.store dirName dir ha

theorem Moves.tick {c c' : StoreContext D K F} (h : Moves allowed c c') : c'.tick = c.tick := by
  induction h with
  | refl => rfl
  | store _ dirName dir _ ih => exact ih

theorem Moves.maybeGet {c c' : StoreContext D K F} (h : Moves allowed c c') {dirName : D}
    {dir : Dir D K F} (hd : c.dirs.maybeGet dirName = some dir) (ha : allowed dir) :
    ∃ dir', c'.dirs.maybeGet dirName = some dir' ∧ allowed dir' := by
  induction h with
  | refl => exact ⟨dir, hd, ha⟩
  | store _ name dir' ha' ih =>
    rw [maybeGet_setDir]
    by_cases hn : dirName = name
    · rw [if_pos hn]
      exact ⟨dir', rfl, ha'⟩
    · rw [if_neg hn]
      exact ih

theorem Moves.dirs {c c' : StoreContext D K F} (h : Moves allowed c c') (dirName : D) :
    (∃ dir, (dirName, dir, c.tick) ∈ c'.dirs.itemsWithTick) ∨
      (c'.dirs.maybeGet dirName = c.dirs.maybeGet dirName ∧
        ∀ dir tick, (dirName, dir, tick) ∈ c.dirs.itemsWithTick →
          (dirName, dir, tick) ∈ c'.dirs.itemsWithTick) := by
  induction h with
  | refl => exact Or.inr ⟨rfl, fun _ _ hd => hd⟩
  | @store c' h name dir _ ih =>
    have hmem := c'.dirs.mem_set c'.tick name dir
    by_cases hn : dirName = name
    · left
      refine ⟨dir, (hmem _).mpr (Or.inl ?_)⟩
      rw [hn, h.tick]
    · rcases ih with ⟨old, hold⟩ | ⟨hsame, hkept⟩
      · exact Or.inl ⟨old, (hmem _).mpr (Or.inr ⟨hn, hold⟩)⟩
      · right
        rw [maybeGet_setDir, if_neg hn]
        exact ⟨hsame, fun old tick hold => (hmem _).mpr (Or.inr ⟨hn, hkept old tick hold⟩)⟩

theorem moves_foldlM {f : StoreContext D K F → D → Option (StoreContext D K F)}
    (hf : ∀ c c' name, f c name = some c' → Moves allowed c c') {names : List D}
    {c c' : StoreContext D K F} (h : names.foldlM f c = some c') : Moves allowed c c' := by
  induction names generalizing c with
  | nil =>
    rw [← Option.some.inj h]
    exact .refl
  | cons name names ih =>
    rw [foldlM_cons] at h
    obtain ⟨c1, hc1, hrest⟩ := Option.bind_eq_some_iff.mp h
    exact (hf c c1 name hc1).trans (ih hrest)

theorem moves_removeDirFuel (hdel : allowed .deleted) (fuel : ℕ) :
    ∀ (c c' : StoreContext D K F) (dirName : D),
      c.removeDirFuel fuel dirName = some c' → Moves allowed c c' := by
  induction fuel with
  | zero =>
    intro c c' dirName hr
    cases hr
  | succ fuel ih =>
    intro c c' dirName hr
    rw [removeDirFuel] at hr
    split at hr
    · obtain ⟨c1, hc1, he⟩ := Option.map_eq_some_iff.mp hr
      obtain ⟨subs, _, hfold⟩ := Option.bind_eq_some_iff.mp hc1
      rw [← he]
      exact (moves_foldlM ih hfold).store dirName .deleted hdel
    · cases hr
    · rw [← Option.some.inj hr]
      exact .refl

section Write
variable [DecidableEq F]

theorem moves_step {c c' : StoreContext D K F} {st : StoreStep D K F} (h : c.step st = some c') :
    Moves (fun _ => True) c c' ∨ ∃ ticks, c' = { c with tick := c.tick + ticks } := by
  have hcreate : ∀ creation : EagerDir.Creation D K F, c.create creation = some c' →
      Moves (fun _ => True) c c' := by
    intro creation hc
    obtain ⟨s, _, he⟩ := Option.map_eq_some_iff.mp hc
    rw [← he]
    exact Moves.refl.store _ _ trivial
  cases st with
  | advance ticks => exact Or.inr ⟨ticks, (Option.some.inj h).symm⟩
  | mkdir creator dirName content =>
    left
    apply hcreate (EagerDir.inputCreation dirName c.tick creator content)
    change c.mkdirMulti creator dirName content = some c' at h
    unfold mkdirMulti at h
    simp only at h
    split at h
    · split_ifs at h
      exact h
    · cases h
    · exact h
  | derive creation => exact Or.inl (hcreate _ h)
  | change dirName st =>
    left
    obtain ⟨dir, changed, _, _, he⟩ := step_change_eq_some h
    rw [← he]
    exact Moves.refl.store _ _ trivial
  | touch dirName =>
    left
    obtain ⟨dir, _, he⟩ := Option.map_eq_some_iff.mp h
    rw [← he]
    exact Moves.refl.store _ _ trivial
  | createLazy dirName =>
    left
    rw [← Option.some.inj h]
    exact Moves.refl.store _ _ trivial
  | remove dirName => exact Or.inl (moves_removeDirFuel trivial _ c c' dirName h)

theorem moves_importDir {gen : D → Source D K} {tick : ℕ} {source : StoreContext D K F}
    (target target' : StoreContext D K F) (dirName : D)
    (h : importDir gen tick source target dirName = some target') :
    Moves (fun dir => dir ≠ .lazy) target target' := by
  have hdel : (Dir.deleted : Dir D K F) ≠ .lazy := by
    intro he
    cases he
  unfold importDir at h
  split at h
  · exact moves_removeDirFuel hdel _ target target' dirName h
  · split_ifs at h
    · split at h
      · rw [← Option.some.inj h]
        exact .refl
      · split_ifs at h
        rw [← Option.some.inj h]
        apply Moves.refl.store
        intro he
        cases he
      · cases h
    · rw [← Option.some.inj h]
      exact .refl
  · rw [← Option.some.inj h]
    exact .refl

/-- An input directory was stored no earlier than any of its writes. -/
def Dated (c : StoreContext D K F) : Prop :=
  ∀ dirName d, c.dirs.maybeGet dirName = some (.eager d) → d.input = true →
    ∀ tick source key, d.Recorded tick source key →
      dirName ∈ (c.dirs.getChangesAfter tick).keys

variable {d : EagerDir D K F}

theorem recorded_le {now tick : ℕ} (h : d.Until now) {source : Source D K}
    {key : K} (hr : d.Recorded tick source key) : tick ≤ now := by
  obtain ⟨e, he, _, hle⟩ := hr
  rcases EagerDir.mem_entries.mp he with hdata | hfixed
  · exact hle.trans (h.data key e hdata)
  · exact hle.trans (h.fixed key e hfixed.1)

variable {c : StoreContext D K F}

theorem mem_changes {dirName : D} {tick : ℕ} :
    dirName ∈ (c.dirs.getChangesAfter tick).keys ↔
      ∃ dir stored, (dirName, dir, stored) ∈ c.dirs.itemsWithTick ∧ tick ≤ stored := by
  rw [DMap.mem_getChangesAfter]
  constructor
  · intro h
    obtain ⟨x, hx, hn, ht⟩ := h
    exact ⟨x.2.1, x.2.2, hn ▸ hx, ht⟩
  · intro h
    obtain ⟨dir, stored, hx, ht⟩ := h
    exact ⟨_, hx, rfl, ht⟩

theorem dated_moves {c c' : StoreContext D K F} (h : c.Dated) (hm : Moves allowed c c')
    (hu : ∀ dirName d, c'.dirs.maybeGet dirName = some (.eager d) → d.input = true →
      d.Until c'.tick) : c'.Dated := by
  intro dirName d hd hi tick source key hr
  rw [mem_changes]
  rcases hm.dirs dirName with ⟨dir, hstored⟩ | ⟨hsame, hkept⟩
  · have hle := recorded_le (hu dirName d hd hi) hr
    rw [hm.tick] at hle
    exact ⟨dir, c.tick, hstored, hle⟩
  · rw [hsame] at hd
    obtain ⟨dir, stored, hx, ht⟩ := mem_changes.mp (h dirName d hd hi tick source key hr)
    exact ⟨dir, stored, hkept dir stored hx, ht⟩

def Reachable (c : StoreContext D K F) : Prop :=
  ∃ history, (empty : StoreContext D K F).run history = some c

theorem Reachable.follows (h : c.Reachable) :
    Follows (fun input => input = true) 0 empty c := by
  obtain ⟨history, hr⟩ := h
  exact follows_inputs hr follows_empty

theorem Reachable.dated (h : c.Reachable) : c.Dated := by
  obtain ⟨history, hr⟩ := h
  have hrun : ∀ (steps : List (StoreStep D K F)) (c : StoreContext D K F), c.Dated →
      Follows (fun input => input = true) 0 empty c → ∀ c', c.run steps = some c' → c'.Dated := by
    intro steps
    induction steps with
    | nil =>
      intro c hc _ c' hr
      rw [← Option.some.inj hr]
      exact hc
    | cons st rest ih =>
      intro c hc hf c' hr
      unfold run at hr
      rw [foldlM_cons] at hr
      obtain ⟨c1, hc1, hrest⟩ := Option.bind_eq_some_iff.mp hr
      have hf1 : Follows (fun input => input = true) 0 empty c1 := by
        apply follows_step hf _ hc1
        intro creation _ hfalse
        cases hfalse
      apply ih c1 _ hf1 c' hrest
      rcases moves_step hc1 with hm | ⟨ticks, he⟩
      · exact dated_moves hc hm fun dirName d hd hi => (hf1.writable dirName d hd hi).2
      · rw [he]
        exact hc
  apply hrun history empty _ follows_empty c hr
  intro dirName d hd
  cases hd

theorem Reachable.ready (h : c.Reachable) {dirName : D} (hd : c.dirs.maybeGet dirName = some
    (.eager d)) (hi : d.input = true) :
    d.Ready ⟨c.tick, none⟩ :=
  ⟨(h.follows.writable dirName d hd hi).1, (h.follows.writable dirName d hd hi).2,
    h.follows.plain dirName d hd hi⟩

theorem ready_importInto {ctx : WriteContext D K} (hov : ctx.sourceOverride = none)
    {d inputDir : EagerDir D K F} (h : d.Valid) (ht : inputDir.Ready ctx) (gen : D → Source D K)
    (tick : ℕ) : (d.importInto ctx gen tick inputDir).Ready ctx := by
  obtain ⟨hready, _, _⟩ := EagerDir.writeBindings_spec hov ht
    (EagerDir.importEntries_distinct h tick (d.getChangesAfter tick).2)
  unfold EagerDir.importInto EagerDir.unsafeWriteArraySourceMany
  simp only
  split
  · exact hready
  · exact (EagerDir.reset_spec hov hready _ _).1

theorem identity_importInto (ctx : WriteContext D K) (gen : D → Source D K) (tick : ℕ)
    (d inputDir : EagerDir D K F) :
    (d.importInto ctx gen tick inputDir).identity = inputDir.identity := by
  have hwritten := (EagerDir.frame_writeBindings ctx
    (d.importEntries tick (d.getChangesAfter tick).2) inputDir).1
  unfold EagerDir.importInto EagerDir.unsafeWriteArraySourceMany
  simp only
  split
  · exact hwritten
  · exact (EagerDir.identity_reset ctx _ _ _).trans hwritten

/-- Every input directory can be written at the tick of the context. -/
def Writeable (c : StoreContext D K F) : Prop :=
  ∀ dirName d, c.dirs.maybeGet dirName = some (.eager d) → d.input = true → d.Ready ⟨c.tick, none⟩

theorem isReplicated_input (h : isReplicated d = true) : d.input = true := by
  unfold isReplicated at h
  rw [Bool.and_eq_true] at h
  exact h.1

theorem isReplicated_congr {d d' : EagerDir D K F} (h : d'.identity = d.identity) :
    isReplicated d' = isReplicated d := by
  have hinput : d'.input = d.input := congrArg (fun i => i.2.1) h
  have hcreator : d'.creator = d.creator := congrArg (fun i => i.2.2.2) h
  unfold isReplicated
  rw [hinput, hcreator]

section Import
variable {gen : D → Source D K} {tick : ℕ} {source target target' : StoreContext D K F}
  (h : importChanges gen target tick source = some target')
include h

theorem moves_importChanges : Moves (fun dir => dir ≠ .lazy) target target' :=
  moves_foldlM moves_importDir h

variable {d : EagerDir D K F}

theorem importChanges_cases {dirName : D}
    (hd : target'.dirs.maybeGet dirName = some (.eager d)) :
    (dirName ∈ (source.dirs.getChangesAfter tick).keys →
        Imported gen tick source target dirName d) ∧
      (dirName ∉ (source.dirs.getChangesAfter tick).keys →
        target.dirs.maybeGet dirName = some (.eager d)) := by
  have hnodup : (source.dirs.getChangesAfter tick).keys.Nodup :=
    (source.dirs.getChangesAfter tick).keys_sorted.imp fun hab => hab.ne
  exact importNames_spec hnodup h hd

/-- A directory of the target after the import is its own or has changes of the source's
directory of that name written to it. -/
theorem importChanges_origin {dirName : D}
    (hd : target'.dirs.maybeGet dirName = some (.eager d)) :
    target.dirs.maybeGet dirName = some (.eager d) ∨
      ∃ dir inputDir, source.dirs.maybeGet dirName = some (.eager dir) ∧ isReplicated dir = true ∧
        target.dirs.maybeGet dirName = some (.eager inputDir) ∧ inputDir.input = true ∧
          d = dir.importInto ⟨target.tick, none⟩ gen tick inputDir := by
  obtain ⟨hvisited, hother⟩ := importChanges_cases h hd
  by_cases hc : dirName ∈ (source.dirs.getChangesAfter tick).keys
  · have himported := hvisited hc
    unfold Imported at himported
    split at himported
    · exact absurd himported id
    · rename_i dir hdir
      split_ifs at himported with hrep
      · obtain ⟨inputDir, ht, hi, he⟩ := himported
        exact Or.inr ⟨dir, inputDir, hdir, hrep, ht, hi, he⟩
      · exact Or.inl himported
    · exact Or.inl himported
  · exact Or.inl (hother hc)

theorem writeable_importChanges (hs : source.Writeable) (ht : target.Writeable) :
    target'.Writeable := by
  intro dirName d hd hi
  rw [(moves_importChanges h).tick]
  rcases importChanges_origin h hd with hown | ⟨dir, inputDir, hdir, hrep, hown, hinput, he⟩
  · exact ht dirName d hown hi
  · rw [he]
    exact ready_importInto rfl (hs dirName dir hdir (isReplicated_input hrep)).valid
      (ht dirName inputDir hown hinput) gen tick

theorem dated_importChanges (hs : source.Writeable) (ht : target.Writeable) (hd : target.Dated) :
    target'.Dated := by
  apply dated_moves hd (moves_importChanges h)
  intro dirName d hdir hi
  exact (writeable_importChanges h hs ht dirName d hdir hi).ticks

theorem importChanges_eager {dirName : D}
    (hd : target.dirs.maybeGet dirName = some (.eager d)) :
    (∃ d', target'.dirs.maybeGet dirName = some (.eager d')) ∨
      target'.dirs.maybeGet dirName = some .deleted ∧
        dirName ∈ (target'.dirs.getChangesAfter target.tick).keys := by
  have hlazy : (Dir.eager d : Dir D K F) ≠ .lazy := by
    intro he
    cases he
  obtain ⟨dir, hdir, ha⟩ := (moves_importChanges h).maybeGet hd hlazy
  cases dir with
  | eager d' => exact Or.inl ⟨d', hdir⟩
  | lazy => exact absurd rfl ha
  | deleted =>
    right
    refine ⟨hdir, ?_⟩
    rcases (moves_importChanges h).dirs dirName with ⟨dir, hstored⟩ | ⟨hsame, _⟩
    · exact mem_changes.mpr ⟨dir, target.tick, hstored, le_rfl⟩
    · rw [hdir, hd] at hsame
      cases hsame

end Import

theorem Reachable.writeable (h : c.Reachable) : c.Writeable :=
  fun _ _ hd hi => h.ready hd hi

section Merge
variable {gen : D → Source D K} {tick : ℕ} {root delta delta' merged : StoreContext D K F}
  (hroot : root.Reachable) (hdelta : delta.Reachable) (ht : tick ≤ delta.tick)
  (himport : importChanges gen delta tick root = some delta')
  (hexport : importChanges gen root tick delta' = some merged)
include hroot hdelta ht himport hexport

theorem merged_importChanges {dirName : D} {d r dl : EagerDir D K F}
    (hd : merged.dirs.maybeGet dirName = some (.eager d))
    (hr : root.dirs.maybeGet dirName = some (.eager r))
    (hdl : delta.dirs.maybeGet dirName = some (.eager dl)) (hrrep : isReplicated r = true)
    (hdlrep : isReplicated dl = true) (hrp : ¬ r.PurgedPast tick) (hdlp : ¬ dl.PurgedPast tick) :
    EagerDir.Merged tick r dl d := by
  have hrinput := isReplicated_input hrrep
  have hfound : ∃ dl', delta'.dirs.maybeGet dirName = some (.eager dl') := by
    rcases importChanges_eager himport hdl with hdl' | ⟨hdel, hchanged⟩
    · exact hdl'
    · have hin : dirName ∈ (delta'.dirs.getChangesAfter tick).keys := by
        obtain ⟨dir, stored, hx, hle⟩ := mem_changes.mp hchanged
        exact mem_changes.mpr ⟨dir, stored, hx, ht.trans hle⟩
      have hgone := (importChanges_cases hexport hd).1 hin
      unfold Imported at hgone
      rw [hdel] at hgone
      exact absurd hgone id
  obtain ⟨dl', hdl'⟩ := hfound
  have hfirst : EagerDir.Overlaid tick r dl dl' := by
    obtain ⟨hvisited, hother⟩ := importChanges_cases himport hdl'
    by_cases hc : dirName ∈ (root.dirs.getChangesAfter tick).keys
    · have himported := hvisited hc
      unfold Imported at himported
      rw [hr] at himported
      simp only [if_pos hrrep] at himported
      obtain ⟨inputDir, hown, hi, he⟩ := himported
      rw [hdl] at hown
      cases hown
      rw [he]
      exact (EagerDir.overlaid_importInto rfl (hroot.ready hr hrinput).valid hrp
        (hdelta.ready hdl hi) gen).1
    · have hown := hother hc
      rw [hdl] at hown
      cases hown
      apply EagerDir.overlaid_self
      exact fun source key hrec => hc (hroot.dated dirName r hr hrinput tick source key hrec)
  have hrep' : isReplicated dl' = true := (isReplicated_congr hfirst.identity).trans hdlrep
  have hpurged' : ¬ dl'.PurgedPast tick := by
    unfold EagerDir.PurgedPast
    rw [hfirst.tombLimit]
    exact hdlp
  have hready' := writeable_importChanges himport hroot.writeable hdelta.writeable dirName dl' hdl'
    (isReplicated_input hrep')
  have hdated' := dated_importChanges himport hroot.writeable hdelta.writeable hdelta.dated
  apply EagerDir.merged_of_overlaid hfirst
  obtain ⟨hvisited, hother⟩ := importChanges_cases hexport hd
  by_cases hc : dirName ∈ (delta'.dirs.getChangesAfter tick).keys
  · have himported := hvisited hc
    unfold Imported at himported
    rw [hdl'] at himported
    simp only [if_pos hrep'] at himported
    obtain ⟨inputDir, hown, hi, he⟩ := himported
    rw [hr] at hown
    cases hown
    rw [he]
    exact (EagerDir.overlaid_importInto rfl hready'.valid hpurged' (hroot.ready hr hi) gen).1
  · have hown := hother hc
    rw [hr] at hown
    cases hown
    apply EagerDir.overlaid_self
    exact fun source key hrec =>
      hc (hdated' dirName dl' hdl' (isReplicated_input hrep') tick source key hrec)

/-- A directory of the merged context was in the root, and is the root's where the working
context has no input directory of its own. -/
theorem merged_elsewhere {dirName : D} {d : EagerDir D K F}
    (hd : merged.dirs.maybeGet dirName = some (.eager d)) :
    ∃ r, root.dirs.maybeGet dirName = some (.eager r) ∧ r.input = d.input ∧
      ((∀ dl, delta.dirs.maybeGet dirName = some (.eager dl) → isReplicated dl = false) → d = r) := by
  rcases importChanges_origin hexport hd with hown | ⟨dir, r, hdir, hrep, hr, hi, he⟩
  · exact ⟨d, hown, rfl, fun _ => rfl⟩
  · have hid := identity_importInto ⟨root.tick, none⟩ gen tick dir r
    rw [← he] at hid
    refine ⟨r, hr, (congrArg (fun i => i.2.1) hid).symm, ?_⟩
    intro hno
    rcases importChanges_origin himport hdir with hown | ⟨r', dl, _, _, hdl, _, he'⟩
    · rw [hno dir hown] at hrep
      cases hrep
    · have hid' := identity_importInto ⟨delta.tick, none⟩ gen tick r' dl
      rw [← he'] at hid'
      rw [isReplicated_congr hid', hno dl hdl] at hrep
      cases hrep

theorem writeable_merged : merged.Writeable :=
  writeable_importChanges hexport
    (writeable_importChanges himport hroot.writeable hdelta.writeable) hroot.writeable

end Merge

def purgeDirs (purgeFrom : StoreContext D K F → EagerDir D K F → ℕ) (c : StoreContext D K F)
    (toPurge : SortedSet D) : Option (StoreContext D K F) :=
  toPurge.keys.foldlM (fun c dirName =>
    match c.dirs.maybeGet dirName with
    | some (.eager dir) =>
      (dir.purge (purgeFrom c dir)).map fun purged => c.setDir dirName (.eager purged)
    | some .lazy => none
    | _ => some c) c

/-- The same arrays, in input directories that are read the same way. -/
def SameInputs (c c' : StoreContext D K F) : Prop :=
  ∀ dirName d', c'.dirs.maybeGet dirName = some (.eager d') → d'.input = true →
    ∃ d, c.dirs.maybeGet dirName = some (.eager d) ∧ d.input = true ∧
      ∀ source key, d'.getArraySourceKey source key = d.getArraySourceKey source key

theorem purgeDirs_sameInputs {purgeFrom : StoreContext D K F → EagerDir D K F → ℕ}
    {c c' : StoreContext D K F} {toPurge : SortedSet D} (hw : c.Writeable)
    (h : c.purgeDirs purgeFrom toPurge = some c') : c.SameInputs c' := by
  have hloop : ∀ (names : List D), names.Nodup → ∀ c c' : StoreContext D K F,
      (∀ n ∈ names, ∀ d, c.dirs.maybeGet n = some (.eager d) → d.input = true → d.Valid) →
      names.foldlM (fun c dirName =>
        match c.dirs.maybeGet dirName with
        | some (.eager dir) =>
          (dir.purge (purgeFrom c dir)).map fun purged => c.setDir dirName (.eager purged)
        | some .lazy => none
        | _ => some c) c = some c' → c.SameInputs c' := by
    intro names
    induction names with
    | nil =>
      intro _ c c' _ h dirName d' hd' hi
      rw [← Option.some.inj h] at hd'
      exact ⟨d', hd', hi, fun _ _ => rfl⟩
    | cons name names ih =>
      intro hnodup c c' hv h
      obtain ⟨hname, hnames⟩ := nodup_cons.mp hnodup
      rw [foldlM_cons] at h
      obtain ⟨c1, hc1, hrest⟩ := Option.bind_eq_some_iff.mp h
      have hother : ∀ n, n ≠ name → c1.dirs.maybeGet n = c.dirs.maybeGet n := by
        intro n hn
        split at hc1
        · obtain ⟨purged, _, he⟩ := Option.map_eq_some_iff.mp hc1
          rw [← he, maybeGet_setDir, if_neg hn]
        · cases hc1
        · rw [← Option.some.inj hc1]
      have hv1 : ∀ n ∈ names, ∀ d, c1.dirs.maybeGet n = some (.eager d) → d.input = true →
          d.Valid := by
        intro n hn d hd
        rw [hother n fun he => hname (he ▸ hn)] at hd
        exact hv n (mem_cons_of_mem name hn) d hd
      intro dirName d' hd' hi
      obtain ⟨d1, hd1, hi1, hsame⟩ := ih hnames c1 c' hv1 hrest dirName d' hd' hi
      by_cases hn : dirName = name
      · rw [hn] at hd1 ⊢
        split at hc1
        · rename_i dir hdir
          obtain ⟨purged, hp, he⟩ := Option.map_eq_some_iff.mp hc1
          rw [← he, maybeGet_setDir, if_pos rfl] at hd1
          have hpurged : d1 = purged := by
            cases hd1
            rfl
          rw [hpurged] at hi1 hsame
          have hid : purged.identity = dir.identity := by
            rcases EagerDir.purge_cases hp with hs | ⟨fixedOld, hs⟩
            · rw [hs]
            · rw [hs]
              rfl
          have hinput : dir.input = true := by
            rw [← hi1]
            exact (congrArg (fun i => i.2.1) hid).symm
          refine ⟨dir, hdir, hinput, ?_⟩
          intro source key
          rw [hsame, EagerDir.getArraySourceKey_purge
            (hv name mem_cons_self dir hdir hinput) hp]
        · cases hc1
        · rw [← Option.some.inj hc1] at hd1
          exact ⟨d1, hd1, hi1, hsame⟩
      · rw [hother dirName hn] at hd1
        exact ⟨d1, hd1, hi1, hsame⟩
  apply hloop toPurge.keys (toPurge.keys_sorted.imp fun hab => hab.ne) c c' _ h
  exact fun n _ d hd hi => (hw n d hd hi).valid

end Write
end StoreContext
end SkipPlatform
