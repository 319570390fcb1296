import SkipPlatform.StoreResolve

set_option autoImplicit false

/-! `runWithResult`: a transaction on the global contexts, with the lock it takes and the
points at which an exception may leave it. -/
namespace SkipPlatform

/-- A session; the getter of its directories and its notification may raise. -/
structure Sub (C D E : Type) where
  dirNames : C → Except (Exn E) (List D)
  notifySub : C → ℕ → Except (Exn E) Unit

structure FPostponable (C E : Type) where
  created : ℕ
  perform : C → Except (Exn E) Unit

structure ContextOps (C D E X : Type) [LinearOrder D] where
  getTick : C → ℕ
  getGlobal : C → String → Option (GlobalFile D E X)
  getDirsChangesAfter : C → ℕ → SortedSet D
  sessions : C → List (Sub C D E)
  clearForkPostponables : C → C × List (FPostponable C E)
  resolveContext : ℕ → C → C → Option (Synchronizer C E) → Except (Exn E) C

structure Fork (C E : Type) where
  context : C
  start : ℕ
  postponables : List (FPostponable C E)

structure Contexts (C E : Type) where
  main : C
  forks : SortedMap String (Fork C E)

/-- Events of the global lock; `critical` tells the section that commits from those that
only count references. -/
inductive LockEvent where
  | acquire (critical : Bool)
  | release (critical : Bool)
  deriving DecidableEq

structure Outcome (C E T : Type) where
  result : Except (Exn E) T
  contexts : Contexts C E
  events : List LockEvent

section Transaction
variable {C D E X T : Type} [LinearOrder D]

/-- The action that is left to run, unless the fork started after it was postponed. -/
def FPostponable.check (p : FPostponable C E) (context : C) (forkStart : Option ℕ) :
    Option (Except (Exn E) Unit) :=
  match forkStart with
  | some start => if start ≤ p.created then some (p.perform context) else none
  | none => some (p.perform context)

def checkForkPostponables (context : C) (todo : List (Except (Exn E) Unit)) (forkStart : Option ℕ)
    (postponables remaining : List (FPostponable C E)) :
    List (Except (Exn E) Unit) × List (FPostponable C E) :=
  postponables.foldl (fun acc p =>
    match p.check context forkStart with
    | some fn => (acc.1 ++ [fn], acc.2)
    | none => (acc.1, acc.2 ++ [p])) (todo, remaining)

namespace Contexts

def getFork (contexts : Contexts C E) (name : String) : Except (Exn E) (Fork C E) :=
  match contexts.forks.maybeGet name with
  | some fork => .ok fork
  | none => .error (.violation "Key not found")

def get (contexts : Contexts C E) : Option String → Except (Exn E) C
  | some name => (contexts.getFork name).map Fork.context
  | none => .ok contexts.main

def check (ops : ContextOps C D E X) (contexts : Contexts C E) (optName : Option String)
    (context : C) : Except (Exn E) (Contexts C E × List (Except (Exn E) Unit)) := do
  let startTick ← match optName with
    | some name => (contexts.getFork name).map fun fork => some fork.start
    | none => .ok none
  let (context, cpostponables) := ops.clearForkPostponables context
  let (todo, remaining) := checkForkPostponables context [] startTick [] []
  let (todo, remaining) := checkForkPostponables context todo startTick cpostponables remaining
  match optName with
  | some name =>
    let fork ← contexts.getFork name
    let fork := { fork with context := context, postponables := fork.postponables ++ remaining }
    return ({ contexts with forks := contexts.forks.set name fork }, todo)
  | none =>
    if remaining.isEmpty then return ({ contexts with main := context }, todo)
    else .error (.violation "No actions can be postponed on main")

end Contexts

/-- What `gContextSyncNoLock` commits and the actions it leaves. -/
def contextSyncNoLock (ops : ContextOps C D E X) (txTime : ℕ) (oldContexts contexts : Contexts C E)
    (delta : C) (synchronizer : Option (Synchronizer C E)) (fork : Option String) :
    Except (Exn E) (Contexts C E × List (Except (Exn E) Unit)) := do
  let root ← contexts.get fork
  let _ ← oldContexts.get fork
  let rtmp ← ops.resolveContext txTime root delta synchronizer
  contexts.check ops fork rtmp

def notifyAll (ops : ContextOps C D E X) (context : C) (start : ℕ) : Except (Exn E) Unit := do
  let changedDirNames ← match ops.getGlobal context "CHANGED_DIRS" with
    | none => .ok (ops.getDirsChangesAfter context start)
    | some (.changedDirs value) => .ok value
    | some _ => .error (.violation "Wrong type for CHANGED_DIRS")
  if ops.getTick context = start then return ()
  (ops.sessions context).forM fun sub => do
    let dirNames ← sub.dirNames context
    if dirNames.any fun dirName => changedDirNames.containsKey dirName then
      sub.notifySub context start

def prepare (ops : ContextOps C D E X) (contexts : Contexts C E) (f : C → Except (Exn E) (T × C))
    (fork : Option String) : Except (Exn E) (ℕ × C × T) := do
  let current ← contexts.get fork
  let (res, context) ← f current
  return (ops.getTick current, context, res)

/-- What runs between the commit and the end: the unlocked part of the synchronizer, the
notifications and the actions. -/
def afterCommit (ops : ContextOps C D E X) (synchronizer : Option (Synchronizer C E))
    (fork : Option String) (startTick : ℕ) (delta : C)
    (new : Contexts C E × List (Except (Exn E) Unit)) : Except (Exn E) Unit := do
  synchronizer.forM fun sync => sync.afterUnlock delta
  let context ← new.1.get fork
  notifyAll ops context startTick
  new.2.forM id

def runWithResult (ops : ContextOps C D E X) (contexts : Contexts C E)
    (f : C → Except (Exn E) (T × C)) (synchronizer : Option (Synchronizer C E))
    (fork : Option String) : Outcome C E T :=
  let reference := [LockEvent.acquire false, .release false]
  let entry := match synchronizer with
    | none => [.acquire true]
    | some _ => reference
  let unlock := match synchronizer with
    | none => [LockEvent.release true]
    | some _ => []
  match prepare ops contexts f fork with
  | .error exn => ⟨.error exn, contexts, entry ++ unlock ++ reference⟩
  | .ok (startTick, newContext, res) =>
    let locked := match synchronizer with
      | none => entry
      | some _ => entry ++ [.acquire true]
    match contextSyncNoLock ops startTick contexts contexts newContext synchronizer fork with
    | .error exn => ⟨.error exn, contexts, locked ++ unlock⟩
    | .ok new =>
      let released := locked ++ [.release true]
      match afterCommit ops synchronizer fork startTick newContext new with
      | .error exn => ⟨.error exn, new.1, released ++ unlock⟩
      | .ok _ => ⟨.ok res, new.1, released ++ reference⟩

def Paired : List LockEvent → Prop
  | [] => True
  | .acquire entered :: .release left :: rest => entered = left ∧ Paired rest
  | _ => False

/-- The section that commits is entered and left once, by every call that comes to it, the
lock is free in between and afterwards, and a failure leaves the contexts as they were. -/
structure Outcome.Clean (o : Outcome C E T) (contexts : Contexts C E) (enters : Prop) : Prop where
  paired : Paired o.events
  acquired : (enters → o.events.count (.acquire true) = 1) ∧
    (¬ enters → o.events.count (.acquire true) = 0)
  released : (enters → o.events.count (.release true) = 1) ∧
    (¬ enters → o.events.count (.release true) = 0)
  failure : ∀ exn, o.result = .error exn → o.contexts = contexts

/-- Without a synchronizer the lock is taken at once, with one only for the commit. -/
def Enters (ops : ContextOps C D E X) (contexts : Contexts C E) (f : C → Except (Exn E) (T × C))
    (synchronizer : Option (Synchronizer C E)) (fork : Option String) : Prop :=
  synchronizer.isNone = true ∨ ∃ value, prepare ops contexts f fork = .ok value

/-- With a synchronizer nothing raises while it holds the lock, and nothing raises once
the new contexts are there. -/
def Quiet (ops : ContextOps C D E X) (contexts : Contexts C E) (f : C → Except (Exn E) (T × C))
    (synchronizer : Option (Synchronizer C E)) (fork : Option String) : Prop :=
  ∀ startTick newContext res, prepare ops contexts f fork = .ok (startTick, newContext, res) →
    (∀ exn, contextSyncNoLock ops startTick contexts contexts newContext synchronizer fork =
      .error exn → synchronizer.isNone = true) ∧
    ∀ new, contextSyncNoLock ops startTick contexts contexts newContext synchronizer fork =
      .ok new → afterCommit ops synchronizer fork startTick newContext new = .ok () ∨
        synchronizer.isSome = true ∧ new.1 = contexts

section Cases
variable {ops : ContextOps C D E X} {contexts : Contexts C E} {f : C → Except (Exn E) (T × C)}
  {synchronizer : Option (Synchronizer C E)} {fork : Option String}

theorem clean_of_raised {exn : Exn E} (h : prepare ops contexts f fork = .error exn) :
    (runWithResult ops contexts f synchronizer fork).Clean contexts
      (Enters ops contexts f synchronizer fork) := by
  have henters : Enters ops contexts f synchronizer fork ↔ synchronizer.isNone = true := by
    unfold Enters
    rw [h]
    simp
  unfold runWithResult
  rw [h]
  simp only
  cases synchronizer with
  | none =>
    constructor
    · exact ⟨rfl, rfl, trivial⟩
    · exact ⟨fun _ => rfl, fun hno => absurd (henters.mpr rfl) hno⟩
    · exact ⟨fun _ => rfl, fun hno => absurd (henters.mpr rfl) hno⟩
    · exact fun _ _ => rfl
  | some sync =>
    have hno : ¬ Enters ops contexts f (some sync) fork := fun he => by cases henters.mp he
    constructor
    · exact ⟨rfl, rfl, trivial⟩
    · exact ⟨fun he => absurd he hno, fun _ => rfl⟩
    · exact ⟨fun he => absurd he hno, fun _ => rfl⟩
    · exact fun _ _ => rfl

variable {startTick : ℕ} {newContext : C} {res : T}
  (h : prepare ops contexts f fork = .ok (startTick, newContext, res))
include h

theorem enters_of_returned : Enters ops contexts f synchronizer fork := Or.inr ⟨_, h⟩

theorem clean_of_sync_raised {exn : Exn E}
    (hsync : contextSyncNoLock ops startTick contexts contexts newContext synchronizer fork =
      .error exn) :
    (runWithResult ops contexts f synchronizer fork).Clean contexts
        (Enters ops contexts f synchronizer fork) ↔ synchronizer.isNone = true := by
  have henters : Enters ops contexts f synchronizer fork := enters_of_returned h
  unfold runWithResult
  rw [h]
  simp only
  rw [hsync]
  simp only
  cases synchronizer with
  | none =>
    apply iff_of_true _ rfl
    constructor
    · exact ⟨rfl, trivial⟩
    · exact ⟨fun _ => rfl, fun hno => absurd henters hno⟩
    · exact ⟨fun _ => rfl, fun hno => absurd henters hno⟩
    · exact fun _ _ => rfl
  | some sync =>
    apply iff_of_false
    · intro hclean
      exact hclean.paired.2
    · intro hnone
      cases hnone

theorem clean_of_committed {new : Contexts C E × List (Except (Exn E) Unit)}
    (hsync : contextSyncNoLock ops startTick contexts contexts newContext synchronizer fork =
      .ok new) :
    (runWithResult ops contexts f synchronizer fork).Clean contexts
        (Enters ops contexts f synchronizer fork) ↔
      afterCommit ops synchronizer fork startTick newContext new = .ok () ∨
        synchronizer.isSome = true ∧ new.1 = contexts := by
  have henters : Enters ops contexts f synchronizer fork := enters_of_returned h
  unfold runWithResult
  rw [h]
  simp only
  rw [hsync]
  simp only
  cases hafter : afterCommit ops synchronizer fork startTick newContext new with
  | ok _ =>
    apply iff_of_true _ (Or.inl rfl)
    cases synchronizer with
    | none =>
      constructor
      · exact ⟨rfl, rfl, trivial⟩
      · exact ⟨fun _ => rfl, fun hno => absurd henters hno⟩
      · exact ⟨fun _ => rfl, fun hno => absurd henters hno⟩
      · intro exn he
        cases he
    | some sync =>
      constructor
      · exact ⟨rfl, rfl, rfl, trivial⟩
      · exact ⟨fun _ => rfl, fun hno => absurd henters hno⟩
      · exact ⟨fun _ => rfl, fun hno => absurd henters hno⟩
      · intro exn he
        cases he
  | error exn =>
    cases synchronizer with
    | none =>
      apply iff_of_false
      · intro hclean
        exact hclean.paired.2
      · intro hor
        rcases hor with hok | ⟨hsome, _⟩
        · cases hok
        · cases hsome
    | some sync =>
      constructor
      · intro hclean
        exact Or.inr ⟨rfl, hclean.failure exn rfl⟩
      · intro hor
        have hsame : new.1 = contexts := by
          rcases hor with hok | ⟨_, hsame⟩
          · cases hok
          · exact hsame
        constructor
        · exact ⟨rfl, rfl, trivial⟩
        · exact ⟨fun _ => rfl, fun hno => absurd henters hno⟩
        · exact ⟨fun _ => rfl, fun hno => absurd henters hno⟩
        · exact fun _ _ => hsame

end Cases

/-- A call leaves the lock and, when it fails, the contexts as it found them exactly if it
is quiet. -/
theorem runWithResult_clean_iff (ops : ContextOps C D E X) (contexts : Contexts C E)
    (f : C → Except (Exn E) (T × C)) (synchronizer : Option (Synchronizer C E))
    (fork : Option String) :
    (runWithResult ops contexts f synchronizer fork).Clean contexts
        (Enters ops contexts f synchronizer fork) ↔
      Quiet ops contexts f synchronizer fork := by
  unfold Quiet
  cases h : prepare ops contexts f fork with
  | error exn =>
    apply iff_of_true (clean_of_raised h)
    intro startTick newContext res he
    cases he
  | ok value =>
    obtain ⟨startTick, newContext, res⟩ := value
    cases hsync : contextSyncNoLock ops startTick contexts contexts newContext synchronizer fork with
    | error exn =>
      rw [clean_of_sync_raised h hsync]
      constructor
      · intro hnone startTick' newContext' res' he
        cases he
        rw [hsync]
        refine ⟨fun _ _ => hnone, ?_⟩
        intro new hnew
        cases hnew
      · intro hquiet
        exact (hquiet startTick newContext res rfl).1 exn hsync
    | ok new =>
      rw [clean_of_committed h hsync]
      constructor
      · intro hafter startTick' newContext' res' he
        cases he
        rw [hsync]
        refine ⟨fun exn herror => ?_, ?_⟩
        · cases herror
        · intro new' hnew
          cases hnew
          exact hafter
      · intro hquiet
        exact (hquiet startTick newContext res rfl).2 new hsync

end Transaction

def counterOps : ContextOps ℕ ℕ Unit Unit where
  getTick context := context
  getGlobal _ _ := none
  getDirsChangesAfter _ _ := .empty
  sessions _ := []
  clearForkPostponables context := (context, [⟨0, fun _ => .error (.user ())⟩])
  resolveContext _ _ delta _ := .ok delta

/-- The action raises after the commit: the call fails, the new context stays, and the lock
is released twice. -/
theorem raising_action_commits :
    let o := runWithResult counterOps ⟨0, .empty⟩ (fun context => .ok ((), context + 1)) none none
    (∃ exn, o.result = .error exn) ∧ o.contexts.main = 1 ∧
      o.events = [.acquire true, .release true, .release true] :=
  ⟨⟨.user (), rfl⟩, rfl, rfl⟩

end SkipPlatform
