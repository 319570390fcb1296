import SkipPlatform.LazyDir

set_option autoImplicit false
set_option linter.unusedSectionVars false

/-! What a read of a lazy directory leaves behind in the context: its reads and the marks of the rows
being computed are restored after an exception, the stack of arrows is not. -/
namespace SkipPlatform.LazyContext
open List StoreReaders
variable {D K F T E : Type} [LinearOrder D] [LinearOrder K]

def Computing (c : LazyContext D K F T) (dirName : D) (key : K) : Prop :=
  ∃ dir, c.dirs.get dirName = some dir ∧ dir.data.get key = some .lCycle

theorem get_setResult (c : LazyContext D K F T) (dirName d : D) (key : K)
    (result : LazyResult D K F) :
    (c.setResult dirName key result).dirs.get d =
      (c.dirs.get d).map fun dir =>
        if d = dirName then { dir with data := dir.data.set key result } else dir := by
  unfold setResult
  split
  · next absent =>
    by_cases here : d = dirName
    · rw [here, absent]
      rfl
    · simp [here]
  · next dir found =>
    by_cases here : d = dirName
    · simp [here, found]
    · simp [here]

@[simp]
theorem arrowStack_setResult (c : LazyContext D K F T) (dirName : D) (key : K)
    (result : LazyResult D K F) : (c.setResult dirName key result).arrowStack = c.arrowStack := by
  unfold setResult
  split <;> rfl

theorem dirs_setResult_congr {c e : LazyContext D K F T} (h : e.dirs = c.dirs) (dirName : D)
    (key : K) (result : LazyResult D K F) :
    (e.setResult dirName key result).dirs = (c.setResult dirName key result).dirs := by
  refine FiniteMap.ext fun d => ?_
  rw [get_setResult, get_setResult, h]

theorem isSome_setResult (c : LazyContext D K F T) (dirName d : D) (key : K)
    (result : LazyResult D K F) :
    ((c.setResult dirName key result).dirs.get d).isSome = (c.dirs.get d).isSome := by
  rw [get_setResult, Option.isSome_map]

theorem computing_setResult_self (c : LazyContext D K F T) (dirName : D) (key : K)
    (result : LazyResult D K F) :
    (c.setResult dirName key result).Computing dirName key ↔
      (c.dirs.get dirName).isSome = true ∧ result = .lCycle := by
  unfold Computing
  rw [get_setResult]
  cases c.dirs.get dirName with
  | none => simp
  | some dir => simp

theorem computing_setResult_other (c : LazyContext D K F T) {dirName d : D} {key k : K}
    (result : LazyResult D K F) (other : ¬ (d = dirName ∧ k = key)) :
    (c.setResult dirName key result).Computing d k ↔ c.Computing d k := by
  unfold Computing
  rw [get_setResult]
  cases c.dirs.get d with
  | none => simp
  | some dir =>
    by_cases here : d = dirName
    · have apart : k ≠ key := fun same => other ⟨here, same⟩
      simp [here, apart]
    · simp [here]

/-- The arrows that are on the stack afterwards are of rows that were not being computed. -/
structure Leaves (c c' : LazyContext D K F T) (extra : List (ArrowKey D K × T)) : Prop where
  stack : c'.arrowStack = extra ++ c.arrowStack
  apart : ∀ a ∈ extra, ∀ d k, a.1 = selfArrow d k → ¬ c.Computing d k
  computing : ∀ d k, c'.Computing d k ↔ c.Computing d k
  names : ∀ d, (c'.dirs.get d).isSome = (c.dirs.get d).isSome

theorem Leaves.refl (c : LazyContext D K F T) : Leaves c c [] :=
  ⟨rfl, fun _ h => absurd h not_mem_nil, fun _ _ => Iff.rfl, fun _ => rfl⟩

theorem Leaves.trans {c c₁ c₂ : LazyContext D K F T} {extra extra' : List (ArrowKey D K × T)}
    (h : Leaves c c₁ extra) (h' : Leaves c₁ c₂ extra') : Leaves c c₂ (extra' ++ extra) := by
  refine ⟨?_, ?_, ?_, ?_⟩
  · rw [h'.stack, h.stack, append_assoc]
  · intro a ha d k same
    rcases mem_append.mp ha with later | earlier
    · rw [← h.computing]
      exact h'.apart a later d k same
    · exact h.apart a earlier d k same
  · exact fun d k => (h'.computing d k).trans (h.computing d k)
  · exact fun d => (h'.names d).trans (h.names d)

variable {c c' : LazyContext D K F T}

theorem runCompute_leaves {read : LazyContext D K F T → D → K → Outcome D K F T E (List F)}
    (hread : ∀ c dirName key outcome c', read c dirName key = some (outcome, c') →
      ∃ extra, Leaves c c' extra) (compute : LazyCompute D K F E)
    {outcome : Except (LazyExn K E) (Option (List F))}
    (h : runCompute read compute c = some (outcome, c')) : ∃ extra, Leaves c c' extra := by
  induction compute generalizing c with
  | done values =>
    cases h
    exact ⟨[], Leaves.refl _⟩
  | fail exn =>
    cases h
    exact ⟨[], Leaves.refl _⟩
  | addRead path next ih =>
    obtain ⟨extra, left⟩ := ih h
    exact ⟨extra, left.stack, left.apart, left.computing, left.names⟩
  | getArray dirName key next ih =>
    rw [runCompute] at h
    split at h
    · cases h
    · next inner c₁ found =>
      obtain ⟨extra, first⟩ := hread _ _ _ _ _ found
      obtain ⟨extra', rest⟩ := ih inner h
      exact ⟨extra' ++ extra, first.trans rest⟩

variable {run : LazyContext D K F T → Outcome D K F T E (Option (List F))} {dirName : D}

theorem doGet_leaves
    (hrun : ∀ c outcome c', run c = some (outcome, c') → ∃ extra, Leaves c c' extra) {key : K}
    (present : (c.dirs.get dirName).isSome = true) (fresh : ¬ c.Computing dirName key)
    {outcome : Except (LazyExn K E) (LazyResult D K F)}
    (h : doGet run c dirName key = some (outcome, c')) :
    ∃ extra, Leaves c c' extra ∧ (∀ a ∈ extra, a.1 ≠ selfArrow dirName key) ∧
      c'.reads = c.reads := by
  have marked : ∀ {d k}, (c.setResult dirName key .lCycle).Computing d k ↔
      c.Computing d k ∨ (d = dirName ∧ k = key) := by
    intro d k
    by_cases here : d = dirName ∧ k = key
    · obtain ⟨rfl, rfl⟩ := here
      simp [computing_setResult_self, present]
    · rw [computing_setResult_other c _ here]
      simp [here]
  have ended : ∀ {inner c₂} {result : LazyResult D K F}, result ≠ .lCycle →
      run { c.setResult dirName key .lCycle with reads := ∅ } = some (inner, c₂) →
      c'.dirs = (c₂.setResult dirName key result).dirs → c'.arrowStack = c₂.arrowStack →
      c'.reads = c.reads →
      ∃ extra, Leaves c c' extra ∧ (∀ a ∈ extra, a.1 ≠ selfArrow dirName key) ∧
        c'.reads = c.reads := by
    intro inner c₂ result finished ran dirs stack reads
    obtain ⟨extra, left⟩ := hrun _ _ _ ran
    have computing : ∀ d k, c₂.Computing d k ↔ c.Computing d k ∨ (d = dirName ∧ k = key) :=
      fun d k => (left.computing d k).trans marked
    have there : (c₂.dirs.get dirName).isSome = true := by
      rw [left.names]
      exact (isSome_setResult c dirName dirName key .lCycle).trans present
    have same : ∀ d k, c'.Computing d k ↔ (c₂.setResult dirName key result).Computing d k := by
      intro d k
      unfold Computing
      rw [dirs]
    refine ⟨extra, ⟨?_, ?_, ?_, ?_⟩, ?_, reads⟩
    · rw [stack, left.stack]
      exact congrArg (extra ++ ·) (arrowStack_setResult c dirName key .lCycle)
    · intro a ha d k arrow before
      exact left.apart a ha d k arrow (marked.mpr (Or.inl before))
    · intro d k
      rw [same]
      by_cases here : d = dirName ∧ k = key
      · obtain ⟨rfl, rfl⟩ := here
        rw [computing_setResult_self]
        exact iff_of_false (fun both => finished both.2) fresh
      · rw [computing_setResult_other c₂ _ here, computing]
        simp [here]
    · intro d
      rw [dirs, isSome_setResult, left.names]
      exact isSome_setResult c dirName d key .lCycle
    · intro a ha arrow
      exact left.apart a ha dirName key arrow (marked.mpr (Or.inr ⟨rfl, rfl⟩))
  unfold doGet at h
  dsimp only at h
  split at h
  · cases h
  · next exn c₂ ran =>
    cases h
    have finished : (.lAbsent : LazyResult D K F) ≠ .lCycle := by simp
    exact ended finished ran rfl (arrowStack_setResult _ _ _ _) rfl
  · next resultOpt c₂ ran =>
    cases h
    have finished : resultOf (F := F) c₂.reads resultOpt ≠ .lCycle := by
      cases resultOpt <;> simp [resultOf]
    have dirs := dirs_setResult_congr (c := c₂)
      (e := c₂.updateNewDeps (selfArrow dirName key) c₂.reads) rfl dirName key
      (resultOf c₂.reads resultOpt)
    exact ended finished ran dirs (arrowStack_setResult _ _ _ _) rfl

/-- The read computes the row: it is not there, and nobody is computing it. -/
def Enters (c : LazyContext D K F T) (dirName : D) (key : K) : Prop :=
  c.parallelReadOnly = false ∧ ∃ dir, c.dirs.get dirName = some dir ∧
    (∀ values reads, dir.data.get key ≠ some (.lDefined values reads)) ∧
    dir.data.get key ≠ some .lCycle

/-- A read: after an exception the arrow of the row that it was computing is still there. -/
structure ReadLeaves (c : LazyContext D K F T) (dirName : D) (key : K)
    (outcome : Except (LazyExn K E) (List F)) (c' : LazyContext D K F T)
    (extra : List (ArrowKey D K × T)) : Prop where
  leaves : Leaves c c' extra
  reads : (c.dirs.get dirName).isSome = true → c'.reads = insert ⟨dirName, .key key⟩ c.reads
  returns : ∀ values, outcome = .ok values → extra = []
  throws : ∀ exn, outcome = .error exn → c.Enters dirName key → extra ≠ []

theorem leave_eq_ok {arrow : ArrowKey D K}
    (h : (c.leave arrow : Except (LazyExn K E) _) = .ok c') :
    ∃ timeStack rl, c.arrowStack = (arrow, timeStack) :: rl ∧ c' = { c with arrowStack := rl } := by
  unfold leave at h
  split at h
  · cases h
  · next arr rl stack =>
    split at h
    · next same =>
      cases h
      exact ⟨arr.2, rl, by rw [stack, ← same], rfl⟩
    · cases h

variable {outcome : Except (LazyExn K E) (List F)}

theorem computeArray_leaves
    (hrun : ∀ c outcome c', run c = some (outcome, c') → ∃ extra, Leaves c c' extra)
    {this : TLazyDir D K F T} {key : K}
    (present : (c.dirs.get dirName).isSome = true) (fresh : ¬ c.Computing dirName key)
    (h : computeArray run this c dirName key = some (outcome, c')) :
    ∃ extra, Leaves c c' extra ∧ c'.reads = c.reads ∧
      (∀ values, outcome = .ok values → extra = []) ∧ ∀ exn, outcome = .error exn → extra ≠ [] := by
  have entered : ∀ {inner c₁},
      doGet run (c.enter (selfArrow dirName key) this.timeStack) dirName key = some (inner, c₁) →
      ∃ extra, c₁.arrowStack = extra ++ (selfArrow dirName key, this.timeStack) :: c.arrowStack ∧
        Leaves c { c₁ with arrowStack := extra ++ (selfArrow dirName key, this.timeStack) ::
          c.arrowStack } (extra ++ [(selfArrow dirName key, this.timeStack)]) ∧
        (∀ a ∈ extra, a.1 ≠ selfArrow dirName key) ∧ c₁.reads = c.reads := by
    intro inner c₁ got
    obtain ⟨extra, left, apart, reads⟩ := doGet_leaves hrun (c := c.enter _ _) present fresh got
    refine ⟨extra, left.stack, ⟨?_, ?_, left.computing, left.names⟩, apart, reads⟩
    · rw [append_assoc]
      rfl
    · intro a ha d k same
      rcases mem_append.mp ha with nested | own
      · exact left.apart a nested d k same
      · rw [mem_singleton.mp own] at same
        have key_eq : dirName = d ∧ key = k := by simpa [selfArrow] using same
        rw [← key_eq.1, ← key_eq.2]
        exact fresh
  have kept : ∀ extra : List (ArrowKey D K × T),
      extra ++ [(selfArrow dirName key, this.timeStack)] ≠ [] :=
    fun extra => append_ne_nil_of_right_ne_nil _ (cons_ne_nil _ _)
  unfold computeArray at h
  split at h
  · cases h
  · next exn c₁ got =>
    cases h
    obtain ⟨extra, stack, left, -, reads⟩ := entered got
    rw [← stack] at left
    exact ⟨_, left, reads, fun _ ok => (by cases ok), fun _ _ => kept extra⟩
  · next res c₁ got =>
    obtain ⟨extra, stack, left, apart, reads⟩ := entered got
    split at h
    · next exn failed =>
      cases h
      rw [← stack] at left
      exact ⟨_, left, reads, fun _ ok => (by cases ok), fun _ _ => kept extra⟩
    · next c₂ ok =>
      cases h
      obtain ⟨timeStack, rl, top, rfl⟩ := leave_eq_ok ok
      rw [stack] at top
      cases extra with
      | nil =>
        have rest : c.arrowStack = rl := (List.cons.inj top).2
        refine ⟨[], ⟨rest.symm, fun _ none => absurd none not_mem_nil, left.computing,
          left.names⟩, reads, fun _ _ => rfl, fun _ error => (by cases error)⟩
      | cons a rest =>
        have first : a = (selfArrow dirName key, timeStack) := (List.cons.inj top).1
        exact absurd (congrArg Prod.fst first) (apart a mem_cons_self)

theorem Leaves.of_same {c e c' : LazyContext D K F T} {extra : List (ArrowKey D K × T)}
    (dirs : e.dirs = c.dirs) (stack : e.arrowStack = c.arrowStack) (h : Leaves e c' extra) :
    Leaves c c' extra := by
  have computing : ∀ d k, e.Computing d k ↔ c.Computing d k := by
    intro d k
    unfold Computing
    rw [dirs]
  refine ⟨by rw [h.stack, stack], ?_, ?_, ?_⟩
  · intro a ha d k same
    rw [← computing]
    exact h.apart a ha d k same
  · exact fun d k => (h.computing d k).trans (computing d k)
  · intro d
    rw [h.names, dirs]

theorem unsafeGetArray_leaves
    (hrun : ∀ c outcome c', run c = some (outcome, c') → ∃ extra, Leaves c c' extra)
    {this : TLazyDir D K F T} {key : K}
    (found : c.dirs.get dirName = some this)
    (h : unsafeGetArray run this (c.addRead ⟨dirName, .key key⟩) dirName key =
      some (outcome, c')) : ∃ extra, ReadLeaves c dirName key outcome c' extra := by
  have quiet : ∀ {e : LazyContext D K F T}, e.dirs = c.dirs → e.arrowStack = c.arrowStack →
      e.reads = insert ⟨dirName, .key key⟩ c.reads → ¬ c.Enters dirName key →
        ∃ extra, ReadLeaves c dirName key outcome e extra := by
    intro e dirs stack reads idle
    exact ⟨[], (Leaves.refl e).of_same dirs stack, fun _ => reads, fun _ _ => rfl,
      fun _ _ enters => absurd enters idle⟩
  have only : c.Enters dirName key → c.parallelReadOnly = false ∧
      (∀ values reads, this.data.get key ≠ some (.lDefined values reads)) ∧
        this.data.get key ≠ some .lCycle := by
    rintro ⟨serial, dir, found', notDefined, notCycle⟩
    rw [found, Option.some.injEq] at found'
    subst found'
    exact ⟨serial, notDefined, notCycle⟩
  have counted : ∀ e : LazyContext D K F T,
      (if this.collect = true then e.addLazyGet dirName key else e).dirs = e.dirs ∧
        (if this.collect = true then e.addLazyGet dirName key else e).arrowStack = e.arrowStack ∧
          (if this.collect = true then e.addLazyGet dirName key else e).reads = e.reads := by
    intro e
    split <;> exact ⟨rfl, rfl, rfl⟩
  obtain ⟨dirs, stack, reads⟩ := counted (c.addRead ⟨dirName, .key key⟩)
  unfold unsafeGetArray at h
  split at h
  · next parallel =>
    have idle : ¬ c.Enters dirName key := by
      intro enters
      have serial := (only enters).1
      change c.parallelReadOnly = true at parallel
      rw [serial] at parallel
      cases parallel
    split at h <;> cases h <;> exact quiet rfl rfl rfl idle
  · dsimp only at h
    split at h
    · next cycle =>
      cases h
      exact quiet dirs stack reads fun enters => (only enters).2.2 cycle
    · next values paths defined =>
      cases h
      exact quiet dirs stack reads fun enters => (only enters).2.1 _ _ defined
    · next notCycle notDefined =>
      generalize (if this.collect = true then
        (c.addRead ⟨dirName, .key key⟩).addLazyGet dirName key
          else c.addRead ⟨dirName, .key key⟩) = e at h dirs stack reads
      have present : (e.dirs.get dirName).isSome = true := by
        rw [dirs]
        exact Option.isSome_iff_exists.mpr ⟨this, found⟩
      have fresh : ¬ e.Computing dirName key := by
        rintro ⟨dir, found', cycle⟩
        rw [dirs] at found'
        change c.dirs.get dirName = some dir at found'
        rw [found, Option.some.injEq] at found'
        subst found'
        exact notCycle cycle
      obtain ⟨extra, left, kept, returns, throws⟩ := computeArray_leaves hrun present fresh h
      exact ⟨extra, left.of_same dirs stack, fun _ => kept.trans reads, returns,
        fun exn error _ => throws exn error⟩

theorem getArray_leaves (compute : D → K → LazyCompute D K F E) (fuel : ℕ) {key : K}
    (h : getArray compute fuel c dirName key = some (outcome, c')) :
    ∃ extra, ReadLeaves c dirName key outcome c' extra := by
  induction fuel generalizing c dirName key outcome c' with
  | zero => cases h
  | succ fuel ih =>
    rw [getArray] at h
    split at h
    · next absent =>
      cases h
      refine ⟨[], Leaves.refl _, fun present => ?_, fun _ _ => rfl, fun _ _ enters => ?_⟩
      · rw [absent] at present
        cases present
      · obtain ⟨-, dir, found, -⟩ := enters
        rw [absent] at found
        cases found
    · next this found =>
      refine unsafeGetArray_leaves (fun c₁ inner c₂ ran => ?_) found h
      refine runCompute_leaves (fun c d k out c' got => ?_) _ ran
      obtain ⟨extra, left⟩ := ih got
      exact ⟨extra, left.leaves⟩

def LeavesNoTrace (c : LazyContext D K F T) (dirName : D) (key : K) (c' : LazyContext D K F T) :
    Prop :=
  c'.arrowStack = c.arrowStack ∧ c'.reads = insert ⟨dirName, .key key⟩ c.reads ∧
    ∀ d k, ¬ c'.Computing d k

/-- An exception leaves arrows on the stack, whatever the row computes; the reads and the marks are
as they should be. -/
theorem getArray_throws (compute : D → K → LazyCompute D K F E) (fuel : ℕ)
    {c c' : LazyContext D K F T} {dirName : D} {key : K} {exn : LazyExn K E}
    (outermost : ∀ d k, ¬ c.Computing d k) (enters : c.Enters dirName key)
    (h : getArray compute fuel c dirName key = some (.error exn, c')) :
    ¬ LeavesNoTrace c dirName key c' ∧
      (∃ extra, extra ≠ [] ∧ c'.arrowStack = extra ++ c.arrowStack) ∧
      c'.reads = insert ⟨dirName, .key key⟩ c.reads ∧ ∀ d k, ¬ c'.Computing d k := by
  obtain ⟨extra, left⟩ := getArray_leaves compute fuel h
  have present : (c.dirs.get dirName).isSome = true := by
    obtain ⟨-, dir, found, -⟩ := enters
    exact Option.isSome_iff_exists.mpr ⟨dir, found⟩
  have kept := left.throws exn rfl enters
  refine ⟨fun clean => ?_, ⟨extra, kept, left.leaves.stack⟩, left.reads present, fun d k => ?_⟩
  · have same := left.leaves.stack
    rw [clean.1] at same
    exact kept (self_eq_append_left.mp same)
  · rw [left.leaves.computing]
    exact outermost d k

def sampleContext : LazyContext ℕ ℕ ℕ ℕ where
  parallelReadOnly := false
  dirs := FiniteMap.empty.set 0 ⟨0, true, .empty, false⟩
  reads := ∅
  deps := ∅
  arrowStack := []
  lazyCapacity := 10
  lazyGets := .empty
  lazyGetsQueue := []
  lazyGetsRefCount := .empty

theorem sampleContext_outermost (d k : ℕ) : ¬ sampleContext.Computing d k := by
  rintro ⟨dir, found, cycle⟩
  simp only [sampleContext, FiniteMap.get_set, FiniteMap.get_empty] at found
  split at found
  · cases found
    cases cycle
  · cases found

theorem sampleContext_enters (key : ℕ) : sampleContext.Enters 0 key :=
  ⟨rfl, _, rfl, fun _ _ => (by simp), by simp⟩

theorem getArray_throws_user :
    ∃ c', getArray (fun _ _ => .fail (.user ())) 1 sampleContext 0 0 = some (.error (.user ()), c') ∧
      ¬ LeavesNoTrace sampleContext 0 0 c' ∧
      (∃ extra, extra ≠ [] ∧ c'.arrowStack = extra ++ sampleContext.arrowStack) ∧
      c'.reads = insert ⟨0, .key 0⟩ sampleContext.reads ∧ ∀ d k, ¬ c'.Computing d k := by
  have thrown : ∃ c', getArray (fun _ _ => .fail (.user ())) 1 sampleContext 0 0 =
      some (.error (.user ()), c') := ⟨_, rfl⟩
  obtain ⟨c', got⟩ := thrown
  exact ⟨c', got, getArray_throws _ 1 sampleContext_outermost (sampleContext_enters 0) got⟩

/-- A row that reads itself: the arrow is still on the stack of the next update. -/
theorem getArray_cycle_keeps_arrow :
    ¬ ∀ (c c' : LazyContext ℕ ℕ ℕ ℕ) (exn : LazyExn ℕ Unit), (∀ d k, ¬ c.Computing d k) →
      c.Enters 0 0 →
      getArray (fun d k => .getArray d k (.propagate fun values => .done (some values))) 2 c 0 0 =
        some (.error exn, c') → LeavesNoTrace c 0 0 c' := by
  intro clean
  have stack := (clean sampleContext _ (.cyclicExn 0) sampleContext_outermost
    (sampleContext_enters 0) rfl).1
  cases stack

end SkipPlatform.LazyContext
