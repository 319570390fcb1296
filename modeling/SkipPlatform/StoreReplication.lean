import SkipPlatform.StoreContextRuns

set_option autoImplicit false
set_option linter.unusedSectionVars false

/-! Replication of the input directories of one context into another that agreed with it
at an earlier tick. -/
namespace SkipPlatform.StoreContext
open List SortedMerge StoreSourceMap
variable {D K F : Type} [LinearOrder D] [StoreKey K] [DecidableEq F]

/-- Whether `import` looks at the contents of a directory. -/
def isReplicated (d : EagerDir D K F) : Bool := d.input && d.creator.isNone

def importDir (gen : D → Source D K) (tick : ℕ) (source target : StoreContext D K F) (dirName : D) :
    Option (StoreContext D K F) :=
  match source.dirs.maybeGet dirName with
  | some .deleted => target.removeDir dirName
  | some (.eager dir) =>
    if isReplicated dir then
      match target.dirs.maybeGet dirName with
      | none => some target
      | some (.eager inputDir) =>
        if inputDir.input then
          some (target.setDir dirName
            (.eager (dir.importInto ⟨target.tick, none⟩ gen tick inputDir)))
        else none
      | some _ => none
    else some target
  | _ => some target

/-- `none` is a violated invariant. -/
def importChanges (gen : D → Source D K) (target : StoreContext D K F) (tick : ℕ)
    (source : StoreContext D K F) : Option (StoreContext D K F) :=
  (source.dirs.getChangesAfter tick).keys.foldlM (importDir gen tick source) target

omit [DecidableEq F] in
theorem removeDirFuel_spec (fuel : ℕ) : ∀ {c c' : StoreContext D K F} {dirName : D},
    c.removeDirFuel fuel dirName = some c' →
      c'.tick = c.tick ∧ (∀ other d, c'.dirs.maybeGet other = some (.eager d) →
        c.dirs.maybeGet other = some (.eager d)) ∧
          ∀ d, c'.dirs.maybeGet dirName ≠ some (.eager d) := by
  induction fuel with
  | zero =>
    intro c c' dirName hr
    cases hr
  | succ fuel ih =>
    intro c c' dirName hr
    have hsubs : ∀ (subs : List D) {c c' : StoreContext D K F},
        subs.foldlM (removeDirFuel fuel) c = some c' →
          c'.tick = c.tick ∧ ∀ other d, c'.dirs.maybeGet other = some (.eager d) →
            c.dirs.maybeGet other = some (.eager d) := by
      intro subs
      induction subs with
      | nil =>
        intro c c' hr
        rw [← Option.some.inj hr]
        exact ⟨rfl, fun _ _ hd => hd⟩
      | cons sub subs ih' =>
        intro c c' hr
        rw [foldlM_cons] at hr
        obtain ⟨c1, hc1, hrest⟩ := Option.bind_eq_some_iff.mp hr
        obtain ⟨ht, hd, _⟩ := ih hc1
        obtain ⟨ht', hd'⟩ := ih' hrest
        exact ⟨ht'.trans ht, fun other d hod => hd other d (hd' other d hod)⟩
    rw [removeDirFuel] at hr
    split at hr
    · obtain ⟨c1, hc1, he⟩ := Option.map_eq_some_iff.mp hr
      obtain ⟨subs, _, hfold⟩ := Option.bind_eq_some_iff.mp hc1
      obtain ⟨ht, hd⟩ := hsubs subs hfold
      rw [← he]
      refine ⟨ht, ?_, ?_⟩
      · intro other d hod
        rw [maybeGet_setDir] at hod
        split_ifs at hod
        · cases hod
        · exact hd other d hod
      · intro d hod
        rw [maybeGet_setDir, if_pos rfl] at hod
        cases hod
    · cases hr
    · rename_i hno _
      rw [← Option.some.inj hr]
      exact ⟨rfl, fun _ _ hd => hd, fun d hd => hno d hd⟩

/-- Where an input directory of the target comes from after its name was visited. -/
def Imported (gen : D → Source D K) (tick : ℕ) (source target : StoreContext D K F) (dirName : D)
    (d : EagerDir D K F) : Prop :=
  match source.dirs.maybeGet dirName with
  | some .deleted => False
  | some (.eager dir) =>
    if isReplicated dir then
      ∃ inputDir, target.dirs.maybeGet dirName = some (.eager inputDir) ∧ inputDir.input = true ∧
        d = dir.importInto ⟨target.tick, none⟩ gen tick inputDir
    else target.dirs.maybeGet dirName = some (.eager d)
  | _ => target.dirs.maybeGet dirName = some (.eager d)

variable {dirName : D} {tick : ℕ} {gen : D → Source D K}

theorem importDir_spec {source target target' : StoreContext D K F}
    (h : importDir gen tick source target dirName = some target') :
    target'.tick = target.tick ∧
      (∀ other d, other ≠ dirName → target'.dirs.maybeGet other = some (.eager d) →
        target.dirs.maybeGet other = some (.eager d)) ∧
      ∀ d, target'.dirs.maybeGet dirName = some (.eager d) →
        Imported gen tick source target dirName d := by
  unfold importDir at h
  unfold Imported
  cases hs : source.dirs.maybeGet dirName with
  | none =>
    rw [hs] at h
    rw [← Option.some.inj h]
    exact ⟨rfl, fun _ _ _ hd => hd, fun _ hd => hd⟩
  | some dir =>
    rw [hs] at h
    cases dir with
    | lazy =>
      rw [← Option.some.inj h]
      exact ⟨rfl, fun _ _ _ hd => hd, fun _ hd => hd⟩
    | deleted =>
      obtain ⟨ht, hd, hno⟩ := removeDirFuel_spec _ h
      exact ⟨ht, fun other d _ => hd other d, fun d hd => hno d hd⟩
    | eager dir =>
      simp only at h ⊢
      by_cases hrep : isReplicated dir = true
      · simp only [if_pos hrep] at h ⊢
        cases ht : target.dirs.maybeGet dirName with
        | none =>
          rw [ht] at h
          rw [← Option.some.inj h]
          refine ⟨rfl, fun _ _ _ hd => hd, ?_⟩
          intro d hd
          rw [ht] at hd
          cases hd
        | some old =>
          rw [ht] at h
          cases old with
          | lazy => cases h
          | deleted => cases h
          | eager inputDir =>
            simp only at h
            split_ifs at h with hinput
            rw [← Option.some.inj h]
            refine ⟨rfl, ?_, ?_⟩
            · intro other d hne hd
              rw [maybeGet_setDir, if_neg hne] at hd
              exact hd
            · intro d hd
              rw [maybeGet_setDir, if_pos rfl] at hd
              refine ⟨inputDir, rfl, hinput, ?_⟩
              cases hd
              rfl
      · simp only [if_neg hrep] at h ⊢
        rw [← Option.some.inj h]
        exact ⟨rfl, fun _ _ _ hd => hd, fun _ hd => hd⟩

variable {d : EagerDir D K F}

theorem imported_congr {source target target' : StoreContext D K F}
    (htick : target'.tick = target.tick)
    (hback : ∀ d, target'.dirs.maybeGet dirName = some (.eager d) →
      target.dirs.maybeGet dirName = some (.eager d))
    (h : Imported gen tick source target' dirName d) : Imported gen tick source target dirName d := by
  unfold Imported at h ⊢
  split at h
  · exact h
  · split_ifs at h ⊢
    · obtain ⟨inputDir, hd, hi, he⟩ := h
      exact ⟨inputDir, hback _ hd, hi, htick ▸ he⟩
    · exact hback d h
  · exact hback d h

theorem importNames_spec {source : StoreContext D K F}
    {names : List D} (hnodup : names.Nodup) {target target' : StoreContext D K F}
    (h : names.foldlM (importDir gen tick source) target = some target')
    (hd : target'.dirs.maybeGet dirName = some (.eager d)) :
    (dirName ∈ names → Imported gen tick source target dirName d) ∧
      (dirName ∉ names → target.dirs.maybeGet dirName = some (.eager d)) := by
  induction names generalizing target with
  | nil =>
    rw [← Option.some.inj h] at hd
    exact ⟨fun hm => absurd hm not_mem_nil, fun _ => hd⟩
  | cons name names ih =>
    obtain ⟨hname, hnames⟩ := nodup_cons.mp hnodup
    rw [foldlM_cons] at h
    obtain ⟨target1, h1, hrest⟩ := Option.bind_eq_some_iff.mp h
    obtain ⟨hvisited, hother⟩ := ih hnames hrest
    obtain ⟨htick, hback, hhere⟩ := importDir_spec h1
    refine ⟨?_, ?_⟩
    · intro hm
      by_cases hn : dirName = name
      · rw [hn] at hother hvisited ⊢
        exact hhere d (hother hname)
      · have hm' := (mem_cons.mp hm).resolve_left hn
        exact imported_congr htick (fun d => hback dirName d hn) (hvisited hm')
    · intro hm
      have hn : dirName ≠ name := fun he => hm (he ▸ mem_cons_self)
      exact hback dirName d hn (hother fun hm' => hm (mem_cons_of_mem name hm'))

/-- What the source has to remember of one directory: a replicated one still records, of
each entry that lost its values since the tick, the write that emptied it, unless it
was purged past the tick and the whole key is empty; another one has not changed. -/
structure Kept (tick : ℕ) (start source : StoreContext D K F) (dirName : D) : Prop where
  lost : ∀ d, source.dirs.maybeGet dirName = some (.eager d) → isReplicated d = true →
    ∀ path key, start.value dirName path key ≠ [] → d.getArraySourceKey path key = [] →
      d.Recorded tick path key ∨ d.PurgedPast tick ∧ d.filesOf key = []
  ignored : (∀ d, source.dirs.maybeGet dirName = some (.eager d) → isReplicated d = false) →
    ∀ path key, start.value dirName path key = source.value dirName path key

/-- The directories of the target are of the types the import expects, and those it
removes own no others. -/
structure Compatible (tick : ℕ) (source target : StoreContext D K F) : Prop where
  removed : ∀ dirName ∈ (source.dirs.getChangesAfter tick).keys,
    source.dirs.maybeGet dirName = some .deleted → target.dirs.maybeGet dirName ≠ some .lazy ∧
      ∀ d, target.dirs.maybeGet dirName = some (.eager d) → d.subDirs = some []
  written : ∀ dirName ∈ (source.dirs.getChangesAfter tick).keys, ∀ d,
    source.dirs.maybeGet dirName = some (.eager d) → isReplicated d = true →
      target.dirs.maybeGet dirName = none ∨
        ∃ d', target.dirs.maybeGet dirName = some (.eager d') ∧ d'.input = true

omit [DecidableEq F] in
theorem removeDir_own {c : StoreContext D K F}
    (hlazy : c.dirs.maybeGet dirName ≠ some .lazy)
    (hsubs : ∀ d, c.dirs.maybeGet dirName = some (.eager d) → d.subDirs = some []) :
    ∃ c', c.removeDir dirName = some c' ∧
      ∀ other, other ≠ dirName → c'.dirs.maybeGet other = c.dirs.maybeGet other := by
  unfold removeDir
  rw [removeDirFuel]
  split
  · rename_i d hd
    rw [hsubs d hd]
    refine ⟨_, rfl, ?_⟩
    intro other hne
    rw [maybeGet_setDir, if_neg hne]
  · rename_i hd
    exact absurd hd hlazy
  · exact ⟨c, rfl, fun _ _ => rfl⟩

theorem importDir_own {source target : StoreContext D K F}
    (hremoved : source.dirs.maybeGet dirName = some .deleted →
      target.dirs.maybeGet dirName ≠ some .lazy ∧
        ∀ d, target.dirs.maybeGet dirName = some (.eager d) → d.subDirs = some [])
    (hwritten : ∀ d, source.dirs.maybeGet dirName = some (.eager d) → isReplicated d = true →
      target.dirs.maybeGet dirName = none ∨
        ∃ d', target.dirs.maybeGet dirName = some (.eager d') ∧ d'.input = true) :
    ∃ target', importDir gen tick source target dirName = some target' ∧
      ∀ other, other ≠ dirName →
        target'.dirs.maybeGet other = target.dirs.maybeGet other := by
  unfold importDir
  cases hs : source.dirs.maybeGet dirName with
  | none => exact ⟨target, rfl, fun _ _ => rfl⟩
  | some dir =>
    cases dir with
    | lazy => exact ⟨target, rfl, fun _ _ => rfl⟩
    | deleted =>
      obtain ⟨hlazy, hsubs⟩ := hremoved hs
      exact removeDir_own hlazy hsubs
    | eager dir =>
      by_cases hrep : isReplicated dir = true
      · simp only [if_pos hrep]
        rcases hwritten dir hs hrep with ht | ⟨inputDir, ht, hinput⟩
        · rw [ht]
          exact ⟨target, rfl, fun _ _ => rfl⟩
        · rw [ht]
          simp only [if_pos hinput]
          refine ⟨_, rfl, ?_⟩
          intro other hne
          rw [maybeGet_setDir, if_neg hne]
      · simp only [if_neg hrep]
        exact ⟨target, rfl, fun _ _ => rfl⟩

theorem importChanges_total {source target : StoreContext D K F}
    (h : Compatible tick source target) :
    ∃ target', importChanges gen target tick source = some target' := by
  have hloop : ∀ (names : List D), names.Nodup →
      (∀ n ∈ names, n ∈ (source.dirs.getChangesAfter tick).keys) →
      ∀ current : StoreContext D K F,
        (∀ n ∈ names, current.dirs.maybeGet n = target.dirs.maybeGet n) →
          ∃ target', names.foldlM (importDir gen tick source) current = some target' := by
    intro names
    induction names with
    | nil => exact fun _ _ current _ => ⟨current, rfl⟩
    | cons name names ih =>
      intro hnodup hsub current hsame
      obtain ⟨hname, hnames⟩ := nodup_cons.mp hnodup
      have hin := hsub name mem_cons_self
      have hhere := hsame name mem_cons_self
      have hone : ∃ next, importDir gen tick source current name = some next ∧
          ∀ other, other ≠ name → next.dirs.maybeGet other = current.dirs.maybeGet other := by
        apply importDir_own
        · rw [hhere]
          exact h.removed name hin
        · rw [hhere]
          exact h.written name hin
      obtain ⟨next, hnext, hothers⟩ := hone
      rw [foldlM_cons, hnext]
      apply ih hnames fun n hn => hsub n (mem_cons_of_mem name hn)
      intro n hn
      have hne : n ≠ name := fun he => hname (he ▸ hn)
      rw [hothers n hne]
      exact hsame n (mem_cons_of_mem name hn)
  have hnodup : (source.dirs.getChangesAfter tick).keys.Nodup :=
    (source.dirs.getChangesAfter tick).keys_sorted.imp fun hab => hab.ne
  exact hloop _ hnodup (fun _ hn => hn) target fun _ _ => rfl

theorem value_of_eager {c : StoreContext D K F}
    (h : c.dirs.maybeGet dirName = some (.eager d)) (path : Source D K) (key : K) :
    c.value dirName path key = d.getArraySourceKey path key := by
  unfold value
  rw [h]

theorem Follows.unrecorded {start c : StoreContext D K F} {tracked : Bool → Prop}
    (h : Follows tracked tick start c)
    (hd : c.dirs.maybeGet dirName = some (.eager d)) (ht : tracked d.input) {path : Source D K}
    {key : K} (hr : ¬ d.Recorded tick path key) :
    d.getArraySourceKey path key = [] ∨
      d.getArraySourceKey path key = start.value dirName path key := by
  cases h.since dirName d hd ht with
  | carried old found same changes =>
    rcases changes.entry path key with hrec | hlost | hsame
    · exact absurd hrec hr
    · exact Or.inl hlost.1
    · right
      rw [value_of_eager found]
      exact hsame.2
  | fresh created written => exact Or.inl ((written path key).resolve_left hr)

variable {start source : StoreContext D K F}

/-- The import of a replicated directory meets the source's values exactly if the source
kept track of what it lost. -/
theorem importInto_kept_iff (gen : D → Source D K)
    (hf : Follows (fun input => input = true) tick start source)
    {d inputDir : EagerDir D K F} (hd : source.dirs.maybeGet dirName = some (.eager d))
    (hrep : isReplicated d = true) {ctx : WriteContext D K} (hov : ctx.sourceOverride = none)
    (hready : inputDir.Ready ctx)
    (hagree : ∀ path key, inputDir.getArraySourceKey path key = start.value dirName path key) :
    (∀ path key, (d.importInto ctx gen tick inputDir).getArraySourceKey path key =
        d.getArraySourceKey path key) ↔ Kept tick start source dirName := by
  have hinput : d.input = true := by
    unfold isReplicated at hrep
    rw [Bool.and_eq_true] at hrep
    exact hrep.1
  have hiff := fun path key => EagerDir.importInto_agrees_iff hov (hf.writable dirName d hd hinput).1
    (hf.plain dirName d hd hinput) hready gen tick path key
  constructor
  · intro hall
    constructor
    · intro d' hd' _ path key hbefore hnow
      have he : d' = d := by
        rw [hd] at hd'
        cases hd'
        rfl
      rw [he] at hnow ⊢
      rcases (hiff path key).mp (hall path key) with hr | ⟨hreset, hempty⟩ | hsame
      · exact Or.inl hr
      · exact Or.inr ⟨EagerDir.getChangesAfter_fst.mp hreset, hempty⟩
      · rw [hagree, hnow] at hsame
        exact absurd hsame hbefore
    · intro hnone
      rw [hnone d hd] at hrep
      cases hrep
  · intro hkept path key
    apply (hiff path key).mpr
    by_cases hr : d.Recorded tick path key
    · exact Or.inl hr
    · right
      by_cases hsame : inputDir.getArraySourceKey path key = d.getArraySourceKey path key
      · exact Or.inr hsame
      · left
        rw [hagree] at hsame
        have hnow : d.getArraySourceKey path key = [] := by
          rcases hf.unrecorded hd hinput hr with hnil | hold
          · exact hnil
          · exact absurd hold.symm hsame
        have hbefore : start.value dirName path key ≠ [] := by
          rw [hnow] at hsame
          exact hsame
        have hlost := (hkept.lost d hd hrep path key hbefore hnow).resolve_left hr
        exact ⟨EagerDir.getChangesAfter_fst.mpr hlost.1, hlost.2⟩

theorem kept_of_same
    (h : ∀ path key, start.value dirName path key = source.value dirName path key) :
    Kept tick start source dirName := by
  refine ⟨?_, fun _ => h⟩
  intro d hd _ path key hbefore hnow
  rw [h, value_of_eager hd, hnow] at hbefore
  exact absurd rfl hbefore

theorem kept_ignored_iff
    (hno : ∀ d, source.dirs.maybeGet dirName = some (.eager d) → isReplicated d = false) :
    Kept tick start source dirName ↔
      ∀ path key, start.value dirName path key = source.value dirName path key :=
  ⟨fun hk => hk.ignored hno, kept_of_same⟩

theorem follows_inputs {history : List (StoreStep D K F)}
    (hr : start.run history = some source)
    (h : Follows (fun input => input = true) tick start start) :
    Follows (fun input => input = true) tick start source := by
  apply follows_run h _ hr
  intro st _ creation _ hfalse
  cases hfalse

/-- An import into a context that agreed with the source at the tick meets the source's
values, directory by directory, exactly if the source kept track of what it lost. -/
theorem importChanges_exact_iff (gen : D → Source D K)
    {history steps replica : List (StoreStep D K F)} {start source target : StoreContext D K F}
    (hstart : (empty : StoreContext D K F).run history = some start)
    (hsource : start.run steps = some source)
    (htarget : (empty : StoreContext D K F).run replica = some target) {tick : ℕ}
    (ht : tick ≤ start.tick)
    (hagree : ∀ dirName d, target.dirs.maybeGet dirName = some (.eager d) → d.input = true →
      ∀ path key, d.getArraySourceKey path key = start.value dirName path key) :
    (Compatible tick source target →
      ∃ target', importChanges gen target tick source = some target') ∧
    ∀ target', importChanges gen target tick source = some target' →
      ∀ dirName d, target'.dirs.maybeGet dirName = some (.eager d) → d.input = true →
        ((∀ path key, d.getArraySourceKey path key = source.value dirName path key) ↔
          Kept tick start source dirName) := by
  refine ⟨importChanges_total, ?_⟩
  have hf : Follows (fun input => input = true) tick start source :=
    follows_inputs hsource ((follows_inputs hstart follows_empty).restart ht)
  have hft : Follows (fun input => input = true) 0 empty target :=
    follows_inputs htarget follows_empty
  intro target' himport dirName d hd hinput
  have hnodup : (source.dirs.getChangesAfter tick).keys.Nodup :=
    (source.dirs.getChangesAfter tick).keys_sorted.imp fun hab => hab.ne
  obtain ⟨hvisited, hother⟩ := importNames_spec hnodup himport hd
  have hignored : target.dirs.maybeGet dirName = some (.eager d) →
      (∀ d, source.dirs.maybeGet dirName = some (.eager d) → isReplicated d = false) →
        ((∀ path key, d.getArraySourceKey path key = source.value dirName path key) ↔
          Kept tick start source dirName) := by
    intro hold hno
    rw [kept_ignored_iff hno]
    simp only [hagree dirName d hold hinput]
  by_cases hchanged : dirName ∈ (source.dirs.getChangesAfter tick).keys
  · have himported := hvisited hchanged
    unfold Imported at himported
    cases hs : source.dirs.maybeGet dirName with
    | none =>
      rw [hs] at himported
      exact hignored himported fun d' hd' => by rw [hs] at hd'; cases hd'
    | some dir =>
      rw [hs] at himported
      cases dir with
      | lazy => exact hignored himported fun d' hd' => by rw [hs] at hd'; cases hd'
      | deleted => exact absurd himported id
      | eager dir =>
        by_cases hrep : isReplicated dir = true
        · simp only [if_pos hrep] at himported
          obtain ⟨inputDir, hold, hin, he⟩ := himported
          have hready : inputDir.Ready ⟨target.tick, none⟩ :=
            ⟨(hft.writable dirName inputDir hold hin).1, (hft.writable dirName inputDir hold hin).2,
              hft.plain dirName inputDir hold hin⟩
          have hiff := importInto_kept_iff gen hf hs hrep rfl hready
            (hagree dirName inputDir hold hin)
          rw [← hiff, he]
          simp only [value_of_eager hs]
        · simp only [if_neg hrep] at himported
          apply hignored himported
          intro d' hd'
          rw [hs] at hd'
          cases hd'
          exact eq_false_of_ne_true hrep
  · have hsame : ∀ path key, start.value dirName path key = source.value dirName path key := by
      intro path key
      unfold value
      rw [hf.unchanged dirName hchanged]
    have hold := hother hchanged
    apply iff_of_true
    · intro path key
      rw [hagree dirName d hold hinput, hsame]
    · exact kept_of_same hsame

end SkipPlatform.StoreContext

namespace SkipPlatform.StoreContext
open List SortedMerge StoreSourceMap EagerDir

def twoSources : List (StoreStep ℕ PlainKey ℕ) :=
  [.mkdir none 1 [], .change 1 (.write none (sampleSource 1) (sampleSource 1) (.iid 1) [10]),
    .change 1 (.write none (sampleSource 2) (sampleSource 2) (.iid 1) [20]), .advance 1]

/-- One of the sources is emptied, and a later purge drops the tombstone. -/
def dropPurged : List (StoreStep ℕ PlainKey ℕ) :=
  [.change 1 (.write none (sampleSource 1) (sampleSource 1) (.iid 1) []), .advance 1,
    .change 1 (.purge 1)]

structure Single (c : StoreContext ℕ PlainKey ℕ) (tick : ℕ) (d : EagerDir ℕ PlainKey ℕ) : Prop where
  now : c.tick = tick
  found : c.dirs.maybeGet 1 = some (.eager d)
  others : ∀ name, name ≠ 1 → c.dirs.maybeGet name = none
  replicated : isReplicated d = true
  ready : d.Ready ⟨tick, none⟩
  records : d.fixedOld.Holds [] ∧ d.old = .empty

theorem Single.store {c : StoreContext ℕ PlainKey ℕ} {tick : ℕ} {d d' : EagerDir ℕ PlainKey ℕ}
    (h : Single c tick d) (hid : d'.identity = d.identity) (hready : d'.Ready ⟨tick, none⟩)
    (hrecords : d'.fixedOld.Holds [] ∧ d'.old = .empty) :
    Single (c.setDir 1 (.eager d')) tick d' := by
  constructor
  · exact h.now
  · rw [maybeGet_setDir, if_pos rfl]
  · intro name hne
    rw [maybeGet_setDir, if_neg hne]
    exact h.others name hne
  · have hrep := h.replicated
    have hinput : d'.input = d.input := congrArg (fun i => i.2.1) hid
    have hcreator : d'.creator = d.creator := congrArg (fun i => i.2.2.2) hid
    unfold isReplicated at hrep ⊢
    rw [hinput, hcreator]
    exact hrep
  · exact hready
  · exact hrecords

theorem Single.write {c : StoreContext ℕ PlainKey ℕ} {tick : ℕ} {d : EagerDir ℕ PlainKey ℕ}
    (h : Single c tick d) (source : Source ℕ PlainKey) (key : PlainKey) (values : List ℕ) :
    ∃ c', c.step (.change 1 (.write none source source key values)) = some c' ∧
      Single c' tick (d.writeEntry ⟨tick, none⟩ source source key values) := by
  obtain ⟨_, hfixed, hold, _⟩ := writeEntry_frame d ⟨tick, none⟩ source source key values
  refine ⟨_, step_change h.found rfl, ?_⟩
  rw [h.now]
  apply h.store
  · exact identity_writeEntry d ⟨tick, none⟩ source source key values
  · exact ready_writeEntry h.ready source source key values
  · rw [hfixed, hold]
    exact h.records

theorem Single.advance {c : StoreContext ℕ PlainKey ℕ} {tick : ℕ} {d : EagerDir ℕ PlainKey ℕ}
    (h : Single c tick d) : ∃ c', c.step (.advance 1) = some c' ∧ Single c' (tick + 1) d := by
  refine ⟨_, rfl, congrArg (· + 1) h.now, h.found, h.others, h.replicated, ?_, h.records⟩
  exact ⟨h.ready.valid, h.ready.ticks.mono (Nat.le_add_right tick 1), h.ready.plain⟩

theorem Single.purge {c : StoreContext ℕ PlainKey ℕ} {tick : ℕ} {d : EagerDir ℕ PlainKey ℕ}
    (h : Single c tick d) (limit : ℕ) (hnone : d.tombLimit = none) :
    ∃ c' d', c.step (.change 1 (.purge limit)) = some c' ∧ Single c' tick d' ∧
      ∀ key e, e ∈ d'.entries key ↔ e ∈ d.entries key ∧ (e.files ≠ [] ∨ limit < e.tick) := by
  have hcompacts : d.compacts = false := by
    unfold compacts
    rw [oldRows_eq h.records.1, h.records.2]
    rfl
  obtain ⟨m, hm, hholds⟩ := purgeOld_spec h.records.1 hcompacts
  set d' : EagerDir ℕ PlainKey ℕ :=
    { d with
      tombLimit := some limit
      data := .empty
      old := .empty
      fixedData := d.flattenData limit
      fixedOld := m } with hd'
  have hpurge : d.purge limit = some d' := by
    unfold EagerDir.purge
    rw [hnone, hm]
    rfl
  have hstep : Clocked.step ⟨d, c.tick⟩ (.purge limit) = some ⟨d', c.tick⟩ := by
    change (d.purge limit).map _ = _
    rw [hpurge]
    rfl
  refine ⟨_, d', step_change h.found hstep, ?_, mem_entries_flattenData h.ready.valid limit rfl rfl⟩
  apply h.store
  · rfl
  · exact ⟨valid_flattenData h.ready.valid limit rfl rfl,
      until_flattenData h.ready.valid limit rfl rfl h.ready.ticks, h.ready.plain⟩
  · rw [h.records.2] at hholds
    exact ⟨hholds, rfl⟩

theorem twoSources_run : ∃ start d, (empty : StoreContext ℕ PlainKey ℕ).run twoSources = some start ∧
    Single start 1 d ∧ d.tombLimit = none ∧
      d.getArraySourceKey (sampleSource 1) (.iid 1) = [10] ∧
        d.getArraySourceKey (sampleSource 2) (.iid 1) = [20] := by
  have hnone : (empty : StoreContext ℕ PlainKey ℕ).dirs.maybeGet 1 = none := rfl
  obtain ⟨s, hs, ⟨hvalid, _, hticks⟩, hmkdir⟩ := step_mkdir hnone none []
  have hmade := make_made hs
  have hrecords : s.dir.fixedOld.Holds [] := by
    have hnodup : (([] : List (StoreSourceMap.Row ℕ PlainKey)).map Prod.fst).Nodup := nodup_nil
    obtain ⟨m, hm, hholds⟩ := FixedSourceMap.create_holds hnodup rfl true
    have hold : FixedSourceMap.create ([] : List (StoreSourceMap.Row ℕ PlainKey)) true = some s.dir.fixedOld :=
      hmade.fixedOld
    have hsorted : sortBy ([] : List (StoreSourceMap.Row ℕ PlainKey)) = [] := mergeSort_nil
    rw [hm] at hold
    rw [← Option.some.inj hold, ← hsorted]
    exact hholds
  have hready : s.dir.Ready ⟨0, none⟩ := by
    rw [hmade.now] at hticks
    exact ⟨hvalid, hticks, hmade.reducer rfl⟩
  have hfirst : Single (empty.setDir 1 (.eager s.dir)) 0 s.dir := by
    refine ⟨rfl, by rw [maybeGet_setDir, if_pos rfl], ?_, ?_, hready, hrecords, hmade.old⟩
    · intro name hne
      rw [maybeGet_setDir, if_neg hne]
      rfl
    · unfold isReplicated
      rw [hmade.input, hmade.creator]
      rfl
  obtain ⟨c1, hc1, h1⟩ := hfirst.write (sampleSource 1) (.iid 1) [10]
  obtain ⟨c2, hc2, h2⟩ := h1.write (sampleSource 2) (.iid 1) [20]
  obtain ⟨c3, hc3, h3⟩ := h2.advance
  refine ⟨c3, _, ?_, h3, ?_, ?_, ?_⟩
  · unfold run twoSources
    simp only [foldlM_cons, foldlM_nil, hmkdir, hc1, hc2, hc3, Option.bind_eq_bind,
      Option.bind_some, Option.pure_def]
  · rw [(writeEntry_frame _ _ _ _ _ _).2.2.2.1, (writeEntry_frame _ _ _ _ _ _).2.2.2.1]
    exact hmade.tombLimit
  · rw [getArraySourceKey_writeEntry h1.ready.valid.sound rfl, if_neg (by decide),
      getArraySourceKey_writeEntry hfirst.ready.valid.sound rfl, if_pos ⟨rfl, rfl⟩]
  · rw [getArraySourceKey_writeEntry h1.ready.valid.sound rfl, if_pos ⟨rfl, rfl⟩]

theorem dropPurged_run {start : StoreContext ℕ PlainKey ℕ} {d : EagerDir ℕ PlainKey ℕ}
    (h : Single start 1 d) (hlimit : d.tombLimit = none)
    (hvalue : d.getArraySourceKey (sampleSource 2) (.iid 1) = [20]) :
    ∃ source d', start.run dropPurged = some source ∧ Single source 2 d' ∧
      ¬ d'.Recorded 1 (sampleSource 1) (.iid 1) ∧
        d'.getArraySourceKey (sampleSource 1) (.iid 1) = [] ∧
          d'.getArraySourceKey (sampleSource 2) (.iid 1) = [20] := by
  obtain ⟨c1, hc1, h1⟩ := h.write (sampleSource 1) (.iid 1) []
  obtain ⟨c2, hc2, h2⟩ := h1.advance
  set d1 := d.writeEntry ⟨1, none⟩ (sampleSource 1) (sampleSource 1) (.iid 1) [] with hd1
  have hlimit1 : d1.tombLimit = none :=
    (writeEntry_frame d ⟨1, none⟩ _ _ _ _).2.2.2.1.trans hlimit
  obtain ⟨c3, d', hc3, h3, hentries⟩ := h2.purge 1 hlimit1
  have hsame : ∀ path key, d'.getArraySourceKey path key = d1.getArraySourceKey path key := by
    intro path key
    apply getArraySourceKey_congr h3.ready.valid h2.ready.valid
    intro e _ hf
    rw [hentries]
    simp [hf]
  have hlost : d1.getArraySourceKey (sampleSource 1) (.iid 1) = [] := by
    rw [hd1, getArraySourceKey_writeEntry h.ready.valid.sound rfl, if_pos ⟨rfl, rfl⟩]
  refine ⟨c3, d', ?_, h3, ?_, ?_, ?_⟩
  · unfold run dropPurged
    simp only [foldlM_cons, foldlM_nil, hc1, hc2, hc3, Option.bind_eq_bind,
      Option.bind_some, Option.pure_def]
  · intro hr
    obtain ⟨e, he, hpath, hlate⟩ := hr
    obtain ⟨he1, hkept⟩ := (hentries _ e).mp he
    have hfiles : e.files = [] := by
      rw [← getArraySourceKey_of_mem h2.ready.valid he1, hpath]
      exact hlost
    have hearly : e.tick ≤ 1 := by
      rcases mem_entries.mp he1 with hmem | ⟨hmem, _⟩
      · exact h1.ready.ticks.data _ e hmem
      · exact h1.ready.ticks.fixed _ e hmem
    rcases hkept with hne | hlt
    · exact hne hfiles
    · omega
  · rw [hsame]
    exact hlost
  · rw [hsame, hd1, getArraySourceKey_writeEntry h.ready.valid.sound rfl,
      if_neg (by decide)]
    exact hvalue

theorem Single.changes {c : StoreContext ℕ PlainKey ℕ} {tick : ℕ} {d : EagerDir ℕ PlainKey ℕ}
    (h : Single c tick d) {after name : ℕ} (hn : name ∈ (c.dirs.getChangesAfter after).keys) :
    name = 1 := by
  by_contra hne
  obtain ⟨x, hx, hxn, _⟩ := DMap.mem_getChangesAfter.mp hn
  exact DMap.maybeGet_eq_none.mp (h.others name hne) x hx hxn

/-- The dropped tombstone: the copy keeps the values of the first source. -/
theorem dropPurged_not_exact : ∃ start source target,
    (empty : StoreContext ℕ PlainKey ℕ).run twoSources = some start ∧
      start.run dropPurged = some source ∧
        importChanges (fun name => ⟨name, .iid 0⟩) start 1 source = some target ∧
          target.value 1 (sampleSource 1) (.iid 1) ≠ source.value 1 (sampleSource 1) (.iid 1) := by
  obtain ⟨start, d, hstart, h, hlimit, hfirst, hsecond⟩ := twoSources_run
  obtain ⟨source, d', hsource, h', hno, hlost, hkept⟩ := dropPurged_run h hlimit hsecond
  have hf : Follows (fun input => input = true) 1 start source :=
    follows_inputs hsource ((follows_inputs hstart follows_empty).restart (le_of_eq h.now.symm))
  have hchanged : (source.dirs.getChangesAfter 1).keys = [1] := by
    apply eq_of_mem_iff id (source.dirs.getChangesAfter 1).keys_sorted (pairwise_singleton _ _)
    intro name
    rw [mem_singleton]
    constructor
    · exact h'.changes
    · intro hn
      rw [hn]
      by_contra hno1
      have hsame := hf.unchanged 1 hno1
      rw [h'.found, h.found] at hsame
      cases hsame
      rw [hfirst] at hlost
      cases hlost
  set gen : ℕ → Source ℕ PlainKey := fun name => ⟨name, .iid 0⟩ with hgen
  have hinput : d.input = true := by
    have hrep := h.replicated
    unfold isReplicated at hrep
    rw [Bool.and_eq_true] at hrep
    exact hrep.1
  set target := start.setDir 1 (.eager (d'.importInto ⟨1, none⟩ gen 1 d)) with htarget
  have hone : importDir gen 1 source start 1 = some target := by
    unfold importDir
    rw [h'.found]
    simp only [if_pos h'.replicated, h.found, if_pos hinput, h.now, htarget]
  have himported : target.dirs.maybeGet 1 = some (.eager (d'.importInto ⟨1, none⟩ gen 1 d)) := by
    rw [htarget, maybeGet_setDir, if_pos rfl]
  refine ⟨start, source, target, hstart, hsource, ?_, ?_⟩
  · unfold importChanges
    rw [hchanged, foldlM_cons, hone]
    rfl
  · rw [value_of_eager h'.found, value_of_eager himported]
    intro hagrees
    rcases (importInto_agrees_iff rfl h'.ready.valid h'.ready.plain h.ready gen 1 _ _).mp
      hagrees with hr | ⟨_, hempty⟩ | hsame
    · exact hno hr
    · have hnil := (filesOf_eq_nil h'.ready.valid).mp hempty (sampleSource 2)
      rw [hkept] at hnil
      cases hnil
    · rw [hfirst, hlost] at hsame
      cases hsame

/-- A source that only wrote: the tombstone is there, and the copy is exact. -/
theorem importChanges_exact_iff_twoSources : ∃ start source,
    (empty : StoreContext ℕ PlainKey ℕ).run twoSources = some start ∧
      start.run (dropPurged.take 1) = some source ∧
        (Compatible 1 source start →
          ∃ target, importChanges (fun name => ⟨name, .iid 0⟩) start 1 source = some target) ∧
        ∀ target, importChanges (fun name => ⟨name, .iid 0⟩) start 1 source = some target →
          ∀ dirName d, target.dirs.maybeGet dirName = some (.eager d) → d.input = true →
            ((∀ path key, d.getArraySourceKey path key = source.value dirName path key) ↔
              Kept 1 start source dirName) := by
  obtain ⟨start, d, hstart, h, _, _, _⟩ := twoSources_run
  obtain ⟨source, hc, h'⟩ := h.write (sampleSource 1) (.iid 1) []
  have hsource : start.run (dropPurged.take 1) = some source := by
    unfold run dropPurged
    simp only [take_succ_cons, take_zero, foldlM_cons, foldlM_nil, hc,
      Option.bind_eq_bind, Option.bind_some, Option.pure_def]
  refine ⟨start, source, hstart, hsource, ?_⟩
  apply importChanges_exact_iff _ hstart hsource hstart
  · rw [h.now]
  · intro dirName d' hd' _ path key
    rw [value_of_eager hd']

end SkipPlatform.StoreContext
