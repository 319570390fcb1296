import SkipPlatform.EagerDirCarried

set_option autoImplicit false
set_option linter.unusedSectionVars false

/-! What a run of a context keeps of the directories it started from. -/
namespace SkipPlatform.StoreContext
open List SortedMerge StoreSourceMap
variable {D K F : Type} [LinearOrder D] [StoreKey K]

/-- How a directory relates to the one of its name at the tick: it is that one with its
changes carried, or it was made since. -/
inductive Since (tick : ℕ) (start : StoreContext D K F) (dirName : D) (d : EagerDir D K F) : Prop
  | carried (old : EagerDir D K F) (found : start.dirs.maybeGet dirName = some (.eager old))
      (same : d.identity = old.identity) (changes : EagerDir.Carried tick old d)
  | fresh (created : tick ≤ d.created)
      (written : ∀ source key, d.Recorded tick source key ∨ d.getArraySourceKey source key = [])

theorem Since.trans {tick : ℕ} {start : StoreContext D K F} {dirName : D} {d d' : EagerDir D K F}
    (h : Since tick start dirName d) (hid : d'.identity = d.identity)
    (hc : EagerDir.Carried tick d d') : Since tick start dirName d' := by
  cases h with
  | carried old found same changes => exact .carried old found (hid.trans same) (changes.trans hc)
  | fresh created written =>
    have hcreated : d'.created = d.created := congrArg (fun i => i.2.2.1) hid
    refine .fresh (hcreated ▸ created) ?_
    intro source key
    rcases hc.entry source key with hr | hlost | hsame
    · exact Or.inl hr
    · exact Or.inr hlost.1
    · exact Or.inr (hsame.2.trans ((written source key).resolve_left hsame.1))

/-- `tracked` selects the directories by whether they are inputs. -/
structure Follows (tracked : Bool → Prop) (tick : ℕ) (start c : StoreContext D K F) : Prop where
  tick_le : tick ≤ c.tick
  writable : ∀ dirName d, c.dirs.maybeGet dirName = some (.eager d) → tracked d.input →
    d.Writable c.tick
  since : ∀ dirName d, c.dirs.maybeGet dirName = some (.eager d) → tracked d.input →
    Since tick start dirName d
  plain : ∀ dirName d, c.dirs.maybeGet dirName = some (.eager d) → d.input = true →
    d.reducer = none
  unchanged : ∀ dirName, dirName ∉ (c.dirs.getChangesAfter tick).keys →
    c.dirs.maybeGet dirName = start.dirs.maybeGet dirName

variable {tracked : Bool → Prop} {tick : ℕ} {start c : StoreContext D K F}

theorem Follows.restart (h : Follows tracked tick start c) {later : ℕ} (hle : later ≤ c.tick) :
    Follows tracked later c c where
  tick_le := hle
  writable := h.writable
  since := fun _ d hd _ => .carried d hd rfl (.refl later d)
  plain := h.plain
  unchanged := fun _ _ => rfl

theorem follows_empty : Follows tracked 0 (empty : StoreContext D K F) empty where
  tick_le := le_rfl
  writable := fun _ _ hd => by cases hd
  since := fun _ _ hd => by cases hd
  plain := fun _ _ hd => by cases hd
  unchanged := fun _ _ => rfl

theorem maybeGet_setDir (c : StoreContext D K F) (dirName other : D) (dir : Dir D K F) :
    (c.setDir dirName dir).dirs.maybeGet other =
      if other = dirName then some dir else c.dirs.maybeGet other :=
  DMap.maybeGet_set c.dirs c.tick dirName other dir

theorem mem_getChangesAfter_setDir (c : StoreContext D K F) (dirName other : D) (dir : Dir D K F)
    {tick : ℕ} (h : tick ≤ c.tick) :
    other ∈ ((c.setDir dirName dir).dirs.getChangesAfter tick).keys ↔
      other = dirName ∨ other ∈ (c.dirs.getChangesAfter tick).keys := by
  simp only [DMap.mem_getChangesAfter]
  constructor
  · intro hx
    obtain ⟨x, hx, hn, ht⟩ := hx
    rcases (c.dirs.mem_set c.tick dirName dir x).mp hx with hnew | ⟨_, hold⟩
    · rw [hnew] at hn
      exact Or.inl hn.symm
    · exact Or.inr ⟨x, hold, hn, ht⟩
  · intro hx
    by_cases hn : other = dirName
    · exact ⟨_, (c.dirs.mem_set c.tick dirName dir _).mpr (Or.inl rfl), hn.symm, h⟩
    · obtain ⟨x, hx, hxn, ht⟩ := hx.resolve_left hn
      have hne : x.1 ≠ dirName := fun he => hn (hxn.symm.trans he)
      exact ⟨x, (c.dirs.mem_set c.tick dirName dir x).mpr (Or.inr ⟨hne, hx⟩), hxn, ht⟩

theorem follows_setDir (h : Follows tracked tick start c) (dirName : D) (dir : Dir D K F)
    (hdir : ∀ d, dir = .eager d →
      (tracked d.input → d.Writable c.tick ∧ Since tick start dirName d) ∧
        (d.input = true → d.reducer = none)) :
    Follows tracked tick start (c.setDir dirName dir) := by
  have hstored : ∀ other d, (c.setDir dirName dir).dirs.maybeGet other = some (.eager d) →
      other = dirName ∧ dir = .eager d ∨
        c.dirs.maybeGet other = some (.eager d) := by
    intro other d hd
    rw [maybeGet_setDir] at hd
    by_cases hn : other = dirName
    · rw [if_pos hn] at hd
      exact Or.inl ⟨hn, Option.some.inj hd⟩
    · rw [if_neg hn] at hd
      exact Or.inr hd
  constructor
  · exact h.tick_le
  · intro other d hd ht
    rcases hstored other d hd with ⟨_, he⟩ | hd
    · exact ((hdir d he).1 ht).1
    · exact h.writable other d hd ht
  · intro other d hd ht
    rcases hstored other d hd with ⟨hn, he⟩ | hd
    · exact hn ▸ ((hdir d he).1 ht).2
    · exact h.since other d hd ht
  · intro other d hd hi
    rcases hstored other d hd with ⟨_, he⟩ | hd
    · exact (hdir d he).2 hi
    · exact h.plain other d hd hi
  · intro other hno
    rw [mem_getChangesAfter_setDir c dirName other dir h.tick_le, not_or] at hno
    rw [maybeGet_setDir, if_neg hno.1]
    exact h.unchanged other hno.2

theorem follows_removeDirFuel (fuel : ℕ) : ∀ {c c' : StoreContext D K F} {dirName : D},
    Follows tracked tick start c → c.removeDirFuel fuel dirName = some c' →
      Follows tracked tick start c' := by
  induction fuel with
  | zero =>
    intro c c' dirName _ hr
    cases hr
  | succ fuel ih =>
    intro c c' dirName h hr
    have hsubs : ∀ (subs : List D) {c c' : StoreContext D K F}, Follows tracked tick start c →
        subs.foldlM (removeDirFuel fuel) c = some c' → Follows tracked tick start c' := by
      intro subs
      induction subs with
      | nil =>
        intro c c' h hr
        rw [← Option.some.inj hr]
        exact h
      | cons sub subs ih' =>
        intro c c' h hr
        rw [foldlM_cons] at hr
        obtain ⟨c1, hc1, hrest⟩ := Option.bind_eq_some_iff.mp hr
        exact ih' (ih h hc1) hrest
    rw [removeDirFuel] at hr
    split at hr
    · obtain ⟨c1, hc1, he⟩ := Option.map_eq_some_iff.mp hr
      obtain ⟨subs, _, hfold⟩ := Option.bind_eq_some_iff.mp hc1
      rw [← he]
      apply follows_setDir (hsubs subs h hfold)
      intro d hd
      cases hd
    · cases hr
    · rw [← Option.some.inj hr]
      exact h

section Write
variable [DecidableEq F]

theorem contentRows_nodup (dirName : D) (content : List (K × List F)) :
    ((EagerDir.contentRows dirName content).map fun w => (w.1, w.2.2)).Nodup := by
  unfold EagerDir.contentRows
  set rows := (content.mergeSort fun a b => decide (a.1 ≤ b.1)).map fun x =>
    (⟨x.1, x.2, ⟨dirName, x.1⟩, 0⟩ : FixedRow K (Source D K) (List F)) with hrows
  have hsorted : rows.Pairwise fun a b => a.key ≤ b.key := by
    rw [hrows, pairwise_map]
    have hsort : (content.mergeSort fun a b => decide (a.1 ≤ b.1)).Pairwise
        fun a b => decide (a.1 ≤ b.1) = true := by
      apply pairwise_mergeSort
      · intro a b c hab hbc
        exact decide_eq_true ((of_decide_eq_true hab).trans (of_decide_eq_true hbc))
      · intro a b
        rcases le_total a.1 b.1 with hle | hle
        · simp [hle]
        · simp [hle]
    exact hsort.imp fun hab => of_decide_eq_true hab
  obtain ⟨hkeys, _⟩ := EagerDir.groupRows_spec hsorted
  rw [map_map, List.Nodup, pairwise_map]
  apply hkeys.imp
  intro a b hab he
  exact hab.ne (Prod.mk.inj he).1

theorem step_mkdir {c : StoreContext D K F} {dirName : D} (hnone : c.dirs.maybeGet dirName = none)
    (creator : Option (StoreReaders.ArrowKey D K)) (content : List (K × List F)) :
    ∃ s, (EagerDir.inputCreation dirName c.tick creator content).make = some s ∧ s.Inv ∧
      c.step (.mkdir creator dirName content) = some (c.setDir dirName (.eager s.dir)) := by
  have hdistinct : (EagerDir.inputCreation dirName c.tick creator content).Distinct :=
    ⟨contentRows_nodup dirName content, nodup_nil, rfl⟩
  obtain ⟨s, hs, hinv⟩ := EagerDir.make_inv hdistinct
  refine ⟨s, hs, hinv, ?_⟩
  have hcreate : c.create (EagerDir.inputCreation dirName c.tick creator content) =
      some (c.setDir dirName (.eager s.dir)) := by
    change (EagerDir.inputCreation dirName c.tick creator content).make.map _ = _
    rw [hs]
    rfl
  change c.mkdirMulti creator dirName content = _
  unfold mkdirMulti
  rw [hnone]
  exact hcreate

theorem step_change {c : StoreContext D K F} {dirName : D} {d : EagerDir D K F}
    {st : EagerDir.Step D K F} {s : EagerDir.Clocked D K F}
    (hd : c.dirs.maybeGet dirName = some (.eager d))
    (hs : EagerDir.Clocked.step ⟨d, c.tick⟩ st = some s) :
    c.step (.change dirName st) = some (c.setDir dirName (.eager s.dir)) := by
  unfold step
  simp only [hd]
  rw [hs]
  rfl

theorem since_make {creation : EagerDir.Creation D K F} {s : EagerDir.Clocked D K F}
    (hnodup : (creation.writes.map fun w => (w.1, w.2.2)).Nodup) (hs : creation.make = some s)
    (ht : tick ≤ creation.tick) (dirName : D) : Since tick start dirName s.dir := by
  obtain ⟨hvalid, _⟩ := EagerDir.make_valid hnodup hs
  have hmade := EagerDir.make_made hs
  refine .fresh (hmade.created ▸ ht) ?_
  intro source key
  by_cases hentry : ∃ e ∈ s.dir.entries key, e.source = source
  · obtain ⟨e, he, hes⟩ := hentry
    refine Or.inl ⟨e, he, hes, ?_⟩
    have hitems : (s.dir.data.value key).items = [] := by
      rw [hmade.data]
      exact DataMap.value_of_none (DataMap.maybeGet_empty key)
    have hiter : e ∈ (FixedDataMap.ofRows creation.acc).getIter key := by
      rcases EagerDir.mem_entries.mp he with hmem | ⟨hmem, _⟩
      · rw [hitems] at hmem
        cases hmem
      · exact hmade.fixedData ▸ hmem
    rcases FixedDataMap.mem_getIterAll.mp (FixedDataMap.mem_getIter.mp hiter) with
      ⟨r, hr, hre⟩ | ⟨r, hr, hre⟩
    · obtain ⟨w, _, hw⟩ := mem_map.mp (FixedDir.mem_rows_create.mp hr)
      rw [← (Prod.mk.inj hre).2, ← hw]
      exact ht
    · exact absurd (FixedDir.mem_rows_create.mp hr) not_mem_nil
  · apply Or.inr
    apply EagerDir.getArraySourceKey_of_not_mem hvalid
    intro e he hes
    exact hentry ⟨e, he, hes⟩

variable {c' : StoreContext D K F}

theorem follows_create (h : Follows tracked tick start c) {creation : EagerDir.Creation D K F}
    (hnodup : tracked creation.input → (creation.writes.map fun w => (w.1, w.2.2)).Nodup)
    (hplain : creation.input = true → creation.reducer = none)
    (hc : c.create creation = some c') : Follows tracked tick start c' := by
  obtain ⟨s, hs, he⟩ := Option.map_eq_some_iff.mp hc
  have hmade := EagerDir.make_made hs
  rw [← he]
  apply follows_setDir h
  intro d hd
  have hd : s.dir = d := by
    cases hd
    rfl
  rw [← hd, hmade.input]
  refine ⟨?_, fun hi => hmade.reducer (hplain hi)⟩
  intro ht
  have hdistinct : (({ creation with tick := c.tick } : EagerDir.Creation D K F).writes.map
    fun w => (w.1, w.2.2)).Nodup := hnodup ht
  have hv := EagerDir.make_valid hdistinct hs
  rw [hmade.now] at hv
  exact ⟨hv, since_make hdistinct hs h.tick_le _⟩

/-- The derived directories that are tracked are made without writing a key twice from
one source. -/
def Accepts (tracked : Bool → Prop) (st : StoreStep D K F) : Prop :=
  ∀ creation, st = .derive creation → tracked false →
    (creation.writes.map fun w => (w.1, w.2.2)).Nodup

theorem follows_step (h : Follows tracked tick start c) {st : StoreStep D K F}
    (ha : Accepts tracked st) (hs : c.step st = some c') :
    Follows tracked tick start c' := by
  cases st with
  | advance ticks =>
    rw [← Option.some.inj hs]
    refine ⟨h.tick_le.trans (Nat.le_add_right _ _), ?_, h.since, h.plain, h.unchanged⟩
    intro dirName d hd ht
    obtain ⟨hv, hu⟩ := h.writable dirName d hd ht
    exact ⟨hv, hu.mono (Nat.le_add_right _ _)⟩
  | mkdir creator dirName content =>
    have hcreate : c.create (EagerDir.inputCreation dirName c.tick creator content) = some c' := by
      change c.mkdirMulti creator dirName content = some c' at hs
      unfold mkdirMulti at hs
      simp only at hs
      split at hs
      · split_ifs at hs
        exact hs
      · cases hs
      · exact hs
    exact follows_create h (fun _ => contentRows_nodup dirName content) (fun _ => rfl) hcreate
  | derive creation =>
    apply follows_create h _ _ hs
    · exact ha creation rfl
    · intro hi
      cases hi
  | change dirName st =>
    obtain ⟨dir, s, hdir, hstep, he⟩ := step_change_eq_some hs
    have hid : s.dir.identity = dir.identity := EagerDir.identity_step hstep
    have hinput : s.dir.input = dir.input := congrArg (fun i => i.2.1) hid
    rw [← he]
    apply follows_setDir h
    intro d hd
    have hd : s.dir = d := by
      cases hd
      rfl
    rw [← hd, hinput]
    refine ⟨?_, fun hi => EagerDir.reducer_step hstep (h.plain dirName dir hdir hi)⟩
    intro ht
    obtain ⟨hw, hcarried⟩ :=
      EagerDir.carried_step h.tick_le (h.writable dirName dir hdir ht) hstep
    exact ⟨hw, (h.since dirName dir hdir ht).trans hid hcarried⟩
  | touch dirName =>
    obtain ⟨dir, hdir, he⟩ := Option.map_eq_some_iff.mp hs
    rw [← he]
    apply follows_setDir h
    intro d hd
    rw [hd] at hdir
    exact ⟨fun ht => ⟨h.writable dirName d hdir ht, h.since dirName d hdir ht⟩,
      h.plain dirName d hdir⟩
  | createLazy dirName =>
    rw [← Option.some.inj hs]
    apply follows_setDir h
    intro d hd
    cases hd
  | remove dirName => exact follows_removeDirFuel _ h hs

theorem follows_run (h : Follows tracked tick start c) {steps : List (StoreStep D K F)}
    (ha : ∀ st ∈ steps, Accepts tracked st)
    (hr : c.run steps = some c') : Follows tracked tick start c' := by
  induction steps generalizing c with
  | nil =>
    rw [← Option.some.inj hr]
    exact h
  | cons st rest ih =>
    unfold run at hr
    rw [foldlM_cons] at hr
    obtain ⟨c1, hc1, hrest⟩ := Option.bind_eq_some_iff.mp hr
    have h1 := follows_step h (ha st mem_cons_self) hc1
    exact ih h1 (fun st' hst' => ha st' (mem_cons_of_mem st hst')) hrest

end Write
end SkipPlatform.StoreContext

namespace SkipPlatform.EagerDir
open List StoreSourceMap
variable {D K F : Type} [LinearOrder D] [StoreKey K] [DecidableEq F]

theorem make_nil {dirName : D} {tick : ℕ} {s : Clocked D K F}
    (hs : (inputCreation dirName tick none [] : Creation D K F).make = some s)
    (hinv : s.Inv) : s.dir.Ready ⟨tick, none⟩ ∧ ∀ key, s.dir.getArrayRaw key = [] := by
  have hmade := make_made hs
  have hticks : s.dir.Until tick := by
    have hnow : s.now = tick := hmade.now
    rw [← hnow]
    exact hinv.ticks
  refine ⟨⟨hinv.valid, hticks, hmade.reducer rfl⟩, ?_⟩
  intro key
  unfold getArrayRaw
  rw [hmade.reducer rfl]
  change s.dir.filesOf key = []
  rw [filesOf_eq_nil hinv.valid]
  intro source
  apply getArraySourceKey_of_not_mem hinv.valid
  intro e he
  have hrows : (inputCreation dirName tick none [] : Creation D K F).acc = [] := by
    unfold Creation.acc inputCreation contentRows
    rw [mergeSort_nil]
    rfl
  rcases mem_entries.mp he with hmem | ⟨hmem, _⟩
  · rw [hmade.data, DataMap.value_of_none (DataMap.maybeGet_empty key)] at hmem
    cases hmem
  · rw [hmade.fixedData, hrows] at hmem
    rcases FixedDataMap.mem_getIterAll.mp (FixedDataMap.mem_getIter.mp hmem) with
      ⟨r, hr, _⟩ | ⟨r, hr, _⟩
    · exact absurd (FixedDir.mem_rows_create.mp hr) not_mem_nil
    · exact absurd (FixedDir.mem_rows_create.mp hr) not_mem_nil

theorem getArrayRaw_write_ne {tick : ℕ} {d : EagerDir D K F} (h : d.Ready ⟨tick, none⟩)
    (source : Source D K) (key : K) (value : F) :
    (d.writeEntry ⟨tick, none⟩ source source key [value]).getArrayRaw key ≠ [] := by
  have hready := ready_writeEntry h source source key [value]
  unfold getArrayRaw
  rw [hready.plain]
  intro hnil
  have hvalue := (filesOf_eq_nil hready.valid).mp hnil source
  rw [getArraySourceKey_writeEntry h.valid.sound rfl, if_pos ⟨rfl, rfl⟩] at hvalue
  cases hvalue

end SkipPlatform.EagerDir
