import SkipPlatform.LazyWindow

set_option autoImplicit false
set_option linter.unusedSectionVars false

/-! Runs of reads, invalidations and ends of batches, in either mode of retention. -/
namespace SkipPlatform
variable {D K F T E : Type} [LinearOrder D] [LinearOrder K]

def TLazyDir.withMode (deltaRetention : Bool) (dir : TLazyDir D K F T) : TLazyDir D K F T :=
  { dir with deltaRetention := deltaRetention }

theorem TLazyDir.updateLazyGets_withMode (delta : Bool) (dir : TLazyDir D K F T)
    (refCountsOpt : Option (FiniteMap K ℤ)) (newKeysOpt deadKeysOpt : Option (Finset K)) :
    (dir.withMode delta).updateLazyGets refCountsOpt newKeysOpt deadKeysOpt =
      ((dir.updateLazyGets refCountsOpt newKeysOpt deadKeysOpt).1,
        (dir.updateLazyGets refCountsOpt newKeysOpt deadKeysOpt).2.map (withMode delta)) := by
  rw [TLazyDir.updateLazyGets_eq, TLazyDir.updateLazyGets_eq]
  refine Prod.ext rfl ?_
  dsimp only
  split <;> rfl

namespace LazyContext

def withMode (delta : Bool) (c : LazyContext D K F T) : LazyContext D K F T :=
  { c with dirs := c.dirs.mapWithKey fun _ dir => dir.withMode delta }

def onMode {α : Type} (delta : Bool) (result : α × LazyContext D K F T) :
    α × LazyContext D K F T := (result.1, result.2.withMode delta)

variable (delta : Bool)

theorem set_withMode (c : LazyContext D K F T) (dirName : D)
    (dir : TLazyDir D K F T) :
    (c.withMode delta).dirs.set dirName (dir.withMode delta) =
      (c.dirs.set dirName dir).mapWithKey fun _ dir => dir.withMode delta := by
  refine FiniteMap.ext fun d => ?_
  rw [FiniteMap.get_set, FiniteMap.get_mapWithKey, FiniteMap.get_set]
  split <;> rfl

theorem setResult_withMode (c : LazyContext D K F T) (dirName : D) (key : K)
    (result : LazyResult D K F) :
    (c.withMode delta).setResult dirName key result =
      (c.setResult dirName key result).withMode delta := by
  have found : (c.withMode delta).dirs.get dirName =
      (c.dirs.get dirName).map (TLazyDir.withMode delta) := rfl
  unfold setResult
  rw [found]
  cases c.dirs.get dirName with
  | none => rfl
  | some dir =>
    have dirs := set_withMode delta c dirName { dir with data := dir.data.set key result }
    exact congrArg (fun dirs : FiniteMap D (TLazyDir D K F T) => { c with dirs := dirs }) dirs

theorem leave_withMode (c : LazyContext D K F T)
    (arrow : StoreReaders.ArrowKey D K) :
    ((c.withMode delta).leave arrow : Except (LazyExn K E) _) =
      (c.leave arrow).map (withMode delta) := by
  have stack : (c.withMode delta).arrowStack = c.arrowStack := rfl
  unfold leave
  rw [stack]
  split
  · rfl
  · split <;> rfl

section Reads
variable {delta : Bool}

theorem runCompute_withMode {read : LazyContext D K F T → D → K → Outcome D K F T E (List F)}
    (hread : ∀ c dirName key,
      read (c.withMode delta) dirName key = (read c dirName key).map (onMode delta))
    (compute : LazyCompute D K F E) (c : LazyContext D K F T) :
    runCompute read compute (c.withMode delta) =
      (runCompute read compute c).map (onMode delta) := by
  induction compute generalizing c with
  | done values => rfl
  | fail exn => rfl
  | addRead path next ih => exact ih (c.addRead path)
  | getArray dirName key next ih =>
    rw [runCompute, runCompute, hread]
    cases read c dirName key with
    | none => rfl
    | some result => exact ih result.1 result.2

variable {run : LazyContext D K F T → Outcome D K F T E (Option (List F))}

theorem doGet_withMode
    (hrun : ∀ c, run (c.withMode delta) = (run c).map (onMode delta)) (c : LazyContext D K F T)
    (dirName : D) (key : K) :
    doGet run (c.withMode delta) dirName key = (doGet run c dirName key).map (onMode delta) := by
  have during := hrun { c.setResult dirName key .lCycle with reads := ∅ }
  have start : { (c.withMode delta).setResult dirName key .lCycle with reads := ∅ } =
      withMode delta { c.setResult dirName key .lCycle with reads := ∅ } := by
    rw [setResult_withMode]
    rfl
  unfold doGet
  dsimp only
  rw [start, during]
  cases run { c.setResult dirName key .lCycle with reads := ∅ } with
  | none => rfl
  | some result =>
    obtain ⟨outcome, c₂⟩ := result
    cases outcome with
    | error exn =>
      have ended := setResult_withMode delta c₂ dirName key .lAbsent
      dsimp only [Option.map_some, onMode]
      rw [ended]
      rfl
    | ok resultOpt =>
      have ended := setResult_withMode delta
        (c₂.updateNewDeps (selfArrow dirName key) c₂.reads) dirName key
        (resultOf c₂.reads resultOpt)
      have linked : (c₂.withMode delta).updateNewDeps (selfArrow dirName key)
          (c₂.withMode delta).reads =
          (c₂.updateNewDeps (selfArrow dirName key) c₂.reads).withMode delta := rfl
      have seen : (c₂.withMode delta).reads = c₂.reads := rfl
      dsimp only [Option.map_some, onMode]
      rw [linked, seen, ended]
      rfl

theorem computeArray_withMode
    (hrun : ∀ c, run (c.withMode delta) = (run c).map (onMode delta)) (this : TLazyDir D K F T)
    (c : LazyContext D K F T) (dirName : D) (key : K) :
    computeArray run (this.withMode delta) (c.withMode delta) dirName key =
      (computeArray run this c dirName key).map (onMode delta) := by
  have entered : (c.withMode delta).enter (selfArrow dirName key) (this.withMode delta).timeStack =
      (c.enter (selfArrow dirName key) this.timeStack).withMode delta := rfl
  unfold computeArray
  rw [entered, doGet_withMode hrun]
  cases doGet run (c.enter (selfArrow dirName key) this.timeStack) dirName key with
  | none => rfl
  | some result =>
    obtain ⟨outcome, c₁⟩ := result
    cases outcome with
    | error exn => rfl
    | ok res =>
      have left := leave_withMode (E := E) delta c₁ (selfArrow dirName key)
      dsimp only [Option.map_some, onMode]
      rw [left]
      cases (c₁.leave (selfArrow dirName key) : Except (LazyExn K E) _) with
      | error exn => rfl
      | ok c₂ => rfl

theorem unsafeGetArray_withMode
    (hrun : ∀ c, run (c.withMode delta) = (run c).map (onMode delta)) (this : TLazyDir D K F T)
    (c : LazyContext D K F T) (dirName : D) (key : K) :
    unsafeGetArray run (this.withMode delta) (c.withMode delta) dirName key =
      (unsafeGetArray run this c dirName key).map (onMode delta) := by
  have serial : (c.withMode delta).parallelReadOnly = c.parallelReadOnly := rfl
  have data : (this.withMode delta).data = this.data := rfl
  have noted : (if (this.withMode delta).collect = true then
      (c.withMode delta).addLazyGet dirName key else c.withMode delta) =
      withMode delta (if this.collect = true then c.addLazyGet dirName key else c) := by
    change (if this.collect = true then (c.addLazyGet dirName key).withMode delta
      else c.withMode delta) = _
    split <;> rfl
  unfold unsafeGetArray
  dsimp only
  rw [serial, data, noted]
  split
  · split <;> rfl
  · split
    · rfl
    · rfl
    · exact computeArray_withMode hrun this _ dirName key

theorem getArray_withMode (compute : D → K → LazyCompute D K F E) (fuel : ℕ)
    (c : LazyContext D K F T) (dirName : D) (key : K) :
    getArray compute fuel (c.withMode delta) dirName key =
      (getArray compute fuel c dirName key).map (onMode delta) := by
  induction fuel generalizing c dirName key with
  | zero => rfl
  | succ fuel ih =>
    have found : (c.withMode delta).dirs.get dirName =
        (c.dirs.get dirName).map (TLazyDir.withMode delta) := rfl
    rw [getArray, getArray, found]
    cases c.dirs.get dirName with
    | none => rfl
    | some this =>
      exact unsafeGetArray_withMode (runCompute_withMode ih (compute dirName key)) this
        (c.addRead ⟨dirName, .key key⟩) dirName key

end Reads

theorem invalidate_withMode (c : LazyContext D K F T) (dirName : D) (key : K) :
    (c.withMode delta).invalidate dirName key = (c.invalidate dirName key).withMode delta := by
  have found : (c.withMode delta).dirs.get dirName =
      (c.dirs.get dirName).map (TLazyDir.withMode delta) := rfl
  unfold invalidate
  rw [found]
  cases c.dirs.get dirName with
  | none => rfl
  | some dir =>
    have removed : { c.withMode delta with
        dirs := (c.withMode delta).dirs.set dirName
          { dir.withMode delta with data := dir.data.remove key } } =
        withMode delta { c with
          dirs := c.dirs.set dirName { dir with data := dir.data.remove key } } := by
      have dirs := set_withMode delta c dirName { dir with data := dir.data.remove key }
      exact congrArg (fun dirs : FiniteMap D (TLazyDir D K F T) => { c with dirs := dirs }) dirs
    have same : (dir.withMode delta).data = dir.data := rfl
    dsimp only [Option.map_some]
    rw [same, removed]
    split <;> rfl

theorem updateDir_withMode (c : LazyContext D K F T) (dirName : D)
    (refCountsOpt : Option (FiniteMap K ℤ)) (newKeysOpt deadKeysOpt : Option (Finset K)) :
    (c.withMode delta).updateDir dirName refCountsOpt newKeysOpt deadKeysOpt =
      ((c.updateDir dirName refCountsOpt newKeysOpt deadKeysOpt).1,
        (c.updateDir dirName refCountsOpt newKeysOpt deadKeysOpt).2.map
          (TLazyDir.withMode delta)) := by
  have found : (c.withMode delta).dirs.get dirName =
      (c.dirs.get dirName).map (TLazyDir.withMode delta) := rfl
  unfold updateDir
  rw [found]
  split
  · rfl
  · cases c.dirs.get dirName with
    | none => rfl
    | some dir => exact dir.updateLazyGets_withMode delta _ _ _

theorem updateLazyGets_withMode (c : LazyContext D K F T) :
    (c.withMode delta).updateLazyGets = c.updateLazyGets.map (withMode delta) := by
  have leaving : (c.withMode delta).expiring = c.expiring := rfl
  have missing : (c.withMode delta).missing c.expiring = c.missing c.expiring := by
    refine Finset.filter_congr fun d _ => ?_
    have found : (c.withMode delta).dirs.get d =
        (c.dirs.get d).map (TLazyDir.withMode delta) := rfl
    rw [found, Option.isNone_map]
    rfl
  rw [updateLazyGets_eq, updateLazyGets_eq, leaving, missing]
  dsimp only
  split
  · next idle =>
    have here : (c.lazyGets.isEmpty && c.expiring.isEmpty) = true := idle
    rw [if_pos here]
    rfl
  · next busy =>
    have here : ¬ (c.lazyGets.isEmpty && c.expiring.isEmpty) = true := busy
    rw [if_neg here]
    split
    · rfl
    · have counts : (fun dirName refCountsOpt newKeysOpt deadKeysOpt =>
          ((c.withMode delta).updateDir dirName refCountsOpt newKeysOpt deadKeysOpt).1) =
          fun dirName refCountsOpt newKeysOpt deadKeysOpt =>
            (c.updateDir dirName refCountsOpt newKeysOpt deadKeysOpt).1 := by
        funext dirName refCountsOpt newKeysOpt deadKeysOpt
        rw [updateDir_withMode]
      have dirs : ((c.withMode delta).dirs.mapWithKey fun dirName dir =>
          ((c.withMode delta).updateDir dirName (c.lazyGetsRefCount.get dirName)
            (c.lazyGets.get dirName) (c.expiring.get dirName)).2.getD dir) =
          (c.dirs.mapWithKey fun dirName dir =>
            (c.updateDir dirName (c.lazyGetsRefCount.get dirName) (c.lazyGets.get dirName)
              (c.expiring.get dirName)).2.getD dir).mapWithKey fun _ dir => dir.withMode delta := by
        refine FiniteMap.ext fun d => ?_
        have found : (c.withMode delta).dirs.get d =
            (c.dirs.get d).map (TLazyDir.withMode delta) := rfl
        rw [FiniteMap.get_mapWithKey, FiniteMap.get_mapWithKey, FiniteMap.get_mapWithKey, found,
          updateDir_withMode]
        cases c.dirs.get d with
        | none => rfl
        | some dir =>
          dsimp only [Option.map_some]
          cases (c.updateDir d (c.lazyGetsRefCount.get d) (c.lazyGets.get d)
            (c.expiring.get d)).2 <;> rfl
      have same : ∀ {m m' : FiniteMap D (FiniteMap K ℤ)}
          {dirs dirs' : FiniteMap D (TLazyDir D K F T)} (queue : List (FiniteMap D (Finset K))),
          m = m' → dirs = dirs' →
            (some { c with
              lazyGetsQueue := queue, lazyGetsRefCount := m, dirs := dirs, lazyGets := .empty } :
              Option (LazyContext D K F T)) =
            some { c with
              lazyGetsQueue := queue, lazyGetsRefCount := m', dirs := dirs', lazyGets := .empty } := by
        rintro m m' dirs dirs' queue rfl rfl
        rfl
      exact same _ (congrArg (c.lazyGetsRefCount.mergeWith2 c.lazyGets c.expiring) counts) dirs

/-- A read outside of any other, a row whose dependencies changed, an update, which ends the batch.
-/
inductive LazyEvent (D K F E : Type) where
  | read (compute : D → K → LazyCompute D K F E) (fuel : ℕ) (dirName : D) (key : K)
  | invalidate (dirName : D) (key : K)
  | update

def step (state : LazyContext D K F T × List (FiniteMap D (Finset K))) :
    LazyEvent D K F E → Option (LazyContext D K F T × List (FiniteMap D (Finset K)))
  | .read compute fuel dirName key =>
    (getArray compute fuel state.1 dirName key).map fun result => (result.2, state.2)
  | .invalidate dirName key => some (state.1.invalidate dirName key, state.2)
  | .update =>
    -- `invariant(this.currentArrow().isNone())`: a read that raised leaves its arrow.
    if state.1.arrowStack.isEmpty then
      state.1.updateLazyGets.map fun c => (c, state.2 ++ [state.1.lazyGets])
    else some state

theorem step_update {c : LazyContext D K F T} (idle : c.arrowStack = [])
    (history : List (FiniteMap D (Finset K))) :
    step (c, history) (.update : LazyEvent D K F E) =
      c.updateLazyGets.map fun c' => (c', history ++ [c.lazyGets]) := by
  rw [step, idle]
  rfl

def run (events : List (LazyEvent D K F E))
    (state : LazyContext D K F T × List (FiniteMap D (Finset K))) :
    Option (LazyContext D K F T × List (FiniteMap D (Finset K))) :=
  events.foldlM step state

structure Fresh (c : LazyContext D K F T) : Prop where
  gets : c.lazyGets = .empty
  queue : c.lazyGetsQueue = []
  refCounts : c.lazyGetsRefCount = .empty
  rows : ∀ d k, ¬ c.Defined d k

theorem Fresh.retained {c : LazyContext D K F T} (h : Fresh c) : Retained c [] := by
  refine ⟨?_, ?_, ?_, fun _ d k defined => absurd defined (h.rows d k)⟩
  · rw [h.queue, lastBatches, List.drop_nil]
  · intro d k
    rw [h.queue, h.refCounts]
    rfl
  · intro d mentioned
    rw [h.gets, h.refCounts, h.queue] at mentioned
    rcases mentioned with got | counted | ⟨batch, mem, -⟩
    · cases got
    · cases counted
    · cases mem

variable {c c' : LazyContext D K F T}

theorem step_retained {history history' : List (FiniteMap D (Finset K))}
    {event : LazyEvent D K F E} (h : Retained c history)
    (made : step (c, history) event = some (c', history')) :
    Retained c' history' ∧ c'.lazyCapacity = c.lazyCapacity := by
  cases event with
  | read compute fuel dirName key =>
    obtain ⟨⟨outcome, c₁⟩, got, same⟩ := Option.map_eq_some_iff.mp made
    cases same
    have reads := getArray_reads compute fuel got
    exact ⟨h.reads reads, reads.capacity⟩
  | invalidate dirName key =>
    cases made
    have reads := invalidate_reads c dirName key
    exact ⟨h.reads reads, reads.capacity⟩
  | update =>
    dsimp only [step] at made
    split at made
    · obtain ⟨c₁, ended, same⟩ := Option.map_eq_some_iff.mp made
      cases same
      have ends := updateLazyGets_ends ended
      exact ⟨h.ends ends, ends.capacity⟩
    · cases made
      exact ⟨h, rfl⟩

theorem run_retained {history history' : List (FiniteMap D (Finset K))}
    (events : List (LazyEvent D K F E)) (h : Retained c history)
    (made : run events (c, history) = some (c', history')) :
    Retained c' history' ∧ c'.lazyCapacity = c.lazyCapacity := by
  induction events generalizing c history with
  | nil =>
    cases made
    exact ⟨h, rfl⟩
  | cons event events ih =>
    rw [run, List.foldlM_cons] at made
    obtain ⟨⟨c₁, history₁⟩, first, rest⟩ := Option.bind_eq_some_iff.mp made
    obtain ⟨retained, capacity⟩ := step_retained h first
    obtain ⟨retained', capacity'⟩ := ih retained rest
    exact ⟨retained', capacity'.trans capacity⟩

theorem step_withMode (c : LazyContext D K F T)
    (history : List (FiniteMap D (Finset K))) (event : LazyEvent D K F E) :
    step (c.withMode delta, history) event =
      (step (c, history) event).map fun state => (state.1.withMode delta, state.2) := by
  cases event with
  | read compute fuel dirName key =>
    dsimp only [step]
    rw [getArray_withMode, Option.map_map, Option.map_map]
    rfl
  | invalidate dirName key =>
    have same := invalidate_withMode delta c dirName key
    dsimp only [step]
    rw [same]
    rfl
  | update =>
    have same := updateLazyGets_withMode delta c
    have stack : (c.withMode delta).arrowStack = c.arrowStack := rfl
    dsimp only [step]
    rw [same, stack]
    split
    · rw [Option.map_map, Option.map_map]
      rfl
    · rfl

theorem run_withMode (events : List (LazyEvent D K F E)) (c : LazyContext D K F T)
    (history : List (FiniteMap D (Finset K))) :
    run events (c.withMode delta, history) =
      (run events (c, history)).map fun state => (state.1.withMode delta, state.2) := by
  induction events generalizing c history with
  | nil => rfl
  | cons event events ih =>
    have first := step_withMode delta c history event
    unfold run at ih ⊢
    rw [List.foldlM_cons, List.foldlM_cons, first]
    cases step (c, history) event with
    | none => rfl
    | some state => exact ih state.1 state.2

/-- The end of a batch keeps the defined rows of a collecting directory whose count is positive. -/
def Collects (c c' : LazyContext D K F T) : Prop :=
  ∀ d dir, c.dirs.get d = some dir → dir.collect = true →
    ∃ dir', c'.dirs.get d = some dir' ∧ ∀ k values reads,
      (dir.data.get k = some (.lDefined values reads) → dir'.data.get k =
        some (if 0 < c'.refCount d k then .lDefined values reads else .lRemoved reads)) ∧
      (dir'.data.get k = some (.lDefined values reads) → 0 < c'.refCount d k)

theorem refCount_eq {c : LazyContext D K F T} {d : D} {k : K} {n : ℕ}
    (h : lookup c.lazyGetsRefCount d k = countOf n) : c.refCount d k = n := by
  rw [refCount, h, countOf]
  split
  · next zero =>
    rw [zero]
    rfl
  · rfl

theorem Retained.collects {history : List (FiniteMap D (Finset K))}
    (h : Retained c history) (e : Ends c c') (capacity : 1 ≤ c.lazyCapacity) : Collects c c' := by
  intro d dir found collect
  have rows := e.rows d
  rw [found] at rows
  refine ⟨_, rows, fun k values reads => ⟨fun row => ?_, fun row' => ?_⟩⟩
  · have expiry := h.expires_iff e capacity ⟨dir, found, collect, values, reads, row⟩
    have count := refCount_eq (h.counts_ends e d k)
    rw [TLazyDir.get_retire, row, count]
    by_cases positive : 0 < c'.lazyGetsQueue.countP (has · d k)
    · have kept := (not_congr expiry).mpr positive.ne'
      rw [if_neg kept, if_pos (Int.natCast_pos.mpr positive)]
    · have gone := expiry.mpr (Nat.eq_zero_of_not_pos positive)
      rw [if_pos gone, if_neg (mt Int.natCast_pos.mp positive)]
      rfl
  · have defined' : c'.Defined d k := ⟨_, rows, collect, values, reads, row'⟩
    obtain ⟨defined, kept⟩ := e.defined defined'
    have expiry := h.expires_iff e capacity defined
    rw [refCount_eq (h.counts_ends e d k), Int.natCast_pos, Nat.pos_iff_ne_zero, ne_eq, ← expiry,
      kept]
    exact Bool.false_ne_true

/-- The count of a key is the number of the last batches that have it, an update after which no read
is open ends the batch and keeps the defined rows whose count is positive, and the modes of
retention do the same. -/
theorem run_retention {c c' : LazyContext D K F T} {history : List (FiniteMap D (Finset K))}
    (fresh : Fresh c) (events : List (LazyEvent D K F E))
    (made : run events (c, []) = some (c', history)) :
    (∀ d k, c'.refCount d k = (lastBatches c.lazyCapacity history).countP (has · d k)) ∧
      (c'.arrowStack = [] → ∃ c'',
        step (c', history) (.update : LazyEvent D K F E) = some (c'', history ++ [c'.lazyGets]) ∧
        (1 ≤ c.lazyCapacity → Collects c' c'')) ∧
      ∀ delta, run events (c.withMode delta, []) = some (c'.withMode delta, history) := by
  obtain ⟨retained, capacity⟩ := run_retained events fresh.retained made
  refine ⟨fun d k => ?_, fun idle => ?_, fun delta => ?_⟩
  · rw [refCount_eq (retained.counts d k), retained.queue, capacity]
  · obtain ⟨c'', ended⟩ := retained.exists_ends
    have ends := updateLazyGets_ends ended
    refine ⟨c'', ?_, fun window => retained.collects ends (capacity ▸ window)⟩
    rw [step_update idle, ended]
    rfl
  · rw [run_withMode, made]
    rfl

/-- A read of the row 0 of the directory 0, and the end of its batch. -/
def sampleEvents : List (LazyEvent ℕ ℕ ℕ Unit) :=
  [.read (fun _ _ => .done (some [7])) 1 0 0, .update]

theorem sampleContext_fresh : Fresh sampleContext := by
  refine ⟨rfl, rfl, rfl, ?_⟩
  rintro d k ⟨dir, found, -, values, reads, row⟩
  simp only [sampleContext, FiniteMap.get_set, FiniteMap.get_empty] at found
  split at found
  · cases found
    cases row
  · cases found

theorem run_retention_sample :
    ∃ c' history, run sampleEvents (sampleContext, []) = some (c', history) ∧
      (∀ d k, c'.refCount d k =
        (lastBatches sampleContext.lazyCapacity history).countP (has · d k)) ∧
      (∃ c'', step (c', history) (.update : LazyEvent ℕ ℕ ℕ Unit) =
          some (c'', history ++ [c'.lazyGets]) ∧
        (1 ≤ sampleContext.lazyCapacity → Collects c' c'')) ∧
      ∀ delta, run sampleEvents (sampleContext.withMode delta, []) =
        some (c'.withMode delta, history) := by
  have ran : ∃ c' history, run sampleEvents (sampleContext, []) = some (c', history) ∧
      c'.arrowStack = [] := ⟨_, _, rfl, rfl⟩
  obtain ⟨c', history, made, idle⟩ := ran
  obtain ⟨counts, ends, modes⟩ := run_retention sampleContext_fresh sampleEvents made
  exact ⟨c', history, made, counts, ends idle, modes⟩

/-- A row stays defined with a count of zero where the window is empty, and in a directory whose
reads are not collected. -/
theorem run_keeps_uncounted :
    (∃ c' history, run sampleEvents ({ sampleContext with lazyCapacity := 0 }, []) =
        some (c', history) ∧ c'.refCount 0 0 = 0 ∧
      ∃ dir reads, c'.dirs.get 0 = some dir ∧ dir.data.get 0 = some (.lDefined [7] reads)) ∧
    ∃ c' history, run sampleEvents
        ({ sampleContext with dirs := FiniteMap.empty.set 0 ⟨0, false, .empty, false⟩ }, []) =
        some (c', history) ∧ c'.refCount 0 0 = 0 ∧
      ∃ dir reads, c'.dirs.get 0 = some dir ∧ dir.data.get 0 = some (.lDefined [7] reads) := by
  constructor
  · have read : ∃ c, step ({ sampleContext with lazyCapacity := 0 }, [])
        (.read (fun _ _ => .done (some [7])) 1 0 0 : LazyEvent ℕ ℕ ℕ Unit) = some (c, []) ∧
        c.arrowStack = [] ∧
        (∃ dir reads, c.dirs.get 0 = some dir ∧ dir.data.get 0 = some (.lDefined [7] reads)) ∧
        c.lazyGetsRefCount.get 0 = none ∧
        ∃ c', c.updateLazyGets = some c' ∧ c'.refCount 0 0 = 0 :=
      ⟨_, rfl, rfl, ⟨_, _, rfl, rfl⟩, rfl, _, rfl, rfl⟩
    obtain ⟨c, first, idle, ⟨dir, reads, found, row⟩, uncounted, c', ended, count⟩ := read
    have rows := (updateLazyGets_ends ended).rows 0
    rw [found] at rows
    refine ⟨c', [c.lazyGets], ?_, count, _, reads, rows, ?_⟩
    · have second : step (c, []) (.update : LazyEvent ℕ ℕ ℕ Unit) = some (c', [c.lazyGets]) := by
        rw [step_update idle, ended]
        rfl
      rw [run, sampleEvents, List.foldlM_cons, first, Option.bind_eq_bind, Option.bind_some,
        List.foldlM_cons, second]
      rfl
    · rw [TLazyDir.get_retire, uncounted, if_neg, row]
      simp [TLazyDir.expires]
  · exact ⟨_, _, rfl, rfl, _, _, rfl, rfl⟩

end LazyContext
end SkipPlatform
