import SkipPlatform.SortedMap
import Mathlib.Data.List.Lex
import Mathlib.Data.Prod.Lex

set_option autoImplicit false

/-! The schedule of a context: time stamps, the arrows waiting for an update, and every
operation that assigns a time or puts an arrow in the queue. Of a directory it sees the
kind, the time stack and the names of its parents. -/
namespace SkipPlatform

structure TimeStack where
  values : List ℤ
  nonempty : values ≠ []
  deriving DecidableEq

namespace TimeStack

theorem values_injective : Function.Injective values := by
  intro a b h
  cases a
  cases b
  cases h
  rfl

instance : LinearOrder TimeStack := LinearOrder.lift' values values_injective

def createInput (time : ℤ) : TimeStack := ⟨[time], List.cons_ne_nil _ _⟩

def extend (s : TimeStack) (time : ℤ) : TimeStack := ⟨s.values ++ [time], by simp⟩

def getLast (s : TimeStack) : ℤ := s.values.getLast s.nonempty

def negate (s : TimeStack) : TimeStack := ⟨s.values.map fun x => -x, by simpa using s.nonempty⟩

@[simp] theorem getLast_createInput (time : ℤ) : (createInput time).getLast = time := rfl

@[simp] theorem getLast_extend (s : TimeStack) (time : ℤ) : (s.extend time).getLast = time := by
  simp [getLast, extend]

@[simp] theorem getLast_negate (s : TimeStack) : s.negate.getLast = -s.getLast := by
  simp [getLast, negate, List.getLast_map]

end TimeStack

structure Arrow (D : Type) where
  parentName : D
  childName : D
  deriving DecidableEq

abbrev Priority := TimeStack ×ₗ ℤ

inductive Node (D : Type) where
  | eager (timeStack : TimeStack) (parents : List D)
  | lazy (timeStack : TimeStack)
  | deleted (timeStack : TimeStack)

namespace Node
variable {D : Type}

def timeStack : Node D → TimeStack
  | eager timeStack _ => timeStack
  | lazy timeStack => timeStack
  | deleted timeStack => timeStack

def getTime (n : Node D) : ℤ := n.timeStack.getLast

end Node

/-- `held` are the arrows set aside by a running update. The last three fields record
what happened: which directory each time was drawn for, the arrows marked since
their last run, and the pairs of arrows of which the second replaced the first. -/
structure Schedule (D : Type) [LinearOrder D] where
  dirs : SortedMap D (Node D)
  time : ℤ
  toUpdate : SortedMap Priority (Arrow D)
  arrowStack : List (Arrow D × TimeStack)
  held : Option (SortedMap Priority (Arrow D))
  given : SortedMap ℤ D
  marked : List (Arrow D)
  replaced : List (Arrow D × Arrow D)

/-- `genSym` is the number drawn. `applied` is the end of the creation that `applying`
began; the mappers run in between. -/
inductive ScheduleEvent (D : Type) where
  | mkdirMulti (dirName : D) (genSym : ℤ)
  | applying (dirName : D) (genSym : ℤ)
  | applied (dirName : D) (timeStack : TimeStack) (parents : List D)
  | reuseDir (dirName : D) (genSym : ℤ)
  | createLazy (dirName : D) (genSym : ℤ)
  | updatePre (dirName : D) (genSym : ℤ)
  | importDir (dirName : D) (node : Node D)
  | removeDir (dirName : D)
  | enter (arrow : Arrow D) (timeStack : TimeStack)
  | leave
  | invalidateReader (reader : Arrow D)
  | written (dirName : D) (time : ℤ) (childNames : List D)
  | startUpdate
  | next (eligible before : D → Bool)
  | stopAfter

namespace Schedule
variable {D : Type} [LinearOrder D]

def empty : Schedule D := ⟨.empty, 0, .empty, [], none, .empty, [], []⟩

def setDir (s : Schedule D) (dirName : D) (node : Node D) : Schedule D :=
  { s with dirs := s.dirs.set dirName node }

def currentTimeStack (s : Schedule D) : Option TimeStack := s.arrowStack.head?.map Prod.snd

/-- `TimeStack::create`. -/
def timeStack (s : Schedule D) (time : ℤ) : TimeStack :=
  match s.currentTimeStack with
  | none => .createInput time
  | some timeStack => timeStack.extend time

/-- A time drawn for a directory. Numbers drawn twice are excluded. -/
def timeStamp (s : Schedule D) (dirName : D) (genSym : ℤ) : Option (Schedule D) :=
  if 0 < genSym ∧ s.given.maybeGet genSym = none then
    some { s with time := genSym, given := s.given.set genSym dirName }
  else none

/-- `toUpdate.set`, with the replacement recorded. -/
def enqueue (s : Schedule D) (key : Priority) (arrow : Arrow D) : Schedule D :=
  { s with
    toUpdate := s.toUpdate.set key arrow
    replaced :=
      match s.toUpdate.maybeGet key with
      | none => s.replaced
      | some old => (old, arrow) :: s.replaced }

def addToUpdate (s : Schedule D) (timeStack : TimeStack) (parentTime : ℤ) (arrow : Arrow D) :
    Schedule D :=
  s.enqueue (toLex (timeStack, parentTime)) arrow

def markDirty (s : Schedule D) (timeStack : TimeStack) (parentTime : ℤ) (arrow : Arrow D) :
    Schedule D :=
  { s.addToUpdate timeStack parentTime arrow with marked := arrow :: s.marked }

def arrowTimeStack (arrow : Arrow D) (child : Node D) : TimeStack :=
  if arrow.parentName = arrow.childName then child.timeStack.negate else child.timeStack

def invalidateReader (s : Schedule D) (reader : Arrow D) : Schedule D :=
  match s.dirs.maybeGet reader.childName with
  | none => s
  | some child =>
    match s.dirs.maybeGet reader.parentName with
    | none => s
    | some parent => s.markDirty (arrowTimeStack reader child) parent.getTime reader

def writeEntry (s : Schedule D) (dirName : D) (time : ℤ) (childNames : List D) : Schedule D :=
  childNames.foldl (fun s childName =>
    match s.dirs.maybeGet childName with
    | some (.eager timeStack _) => s.markDirty timeStack time ⟨dirName, childName⟩
    | _ => s) s

/-- Whether a queued arrow still is an edge of the graph; `none` is a parent that turned
into a lazy directory. -/
def valid (s : Schedule D) (arrow : Arrow D) : Option Bool :=
  match s.dirs.maybeGet arrow.childName with
  | some (.eager _ parents) =>
    if parents.contains arrow.parentName then
      match s.dirs.maybeGet arrow.parentName with
      | some (.eager _ _) => some true
      | some (.lazy _) => none
      | _ => some false
    else some false
  | some (.lazy _) => some (decide (arrow.parentName = arrow.childName))
  | _ => some false

def currentTime (s : Schedule D) (arrow : Arrow D) : Option Priority :=
  match s.dirs.maybeGet arrow.childName, s.dirs.maybeGet arrow.parentName with
  | some child, some parent => some (toLex (arrowTimeStack arrow child, parent.getTime))
  | _, _ => none

def restoreDeferredUpdates (s : Schedule D) (held : SortedMap Priority (Arrow D)) : Schedule D :=
  held.items.foldl (fun s x => s.enqueue x.1 x.2) s

def removeDir (s : Schedule D) (dirName : D) : Option (Schedule D) :=
  match s.dirs.maybeGet dirName with
  | some (.eager timeStack _) => some (s.setDir dirName (.deleted timeStack))
  | some (.lazy _) => none
  | _ => some s

def unmark (s : Schedule D) (arrow : Arrow D) : Schedule D :=
  { s with marked := s.marked.filter fun a => decide (a ≠ arrow) }

/-- What is done with the first arrow of the queue, already taken out of it. An arrow that
is run is no longer marked; its mappers run as the events that follow. -/
def dispatch (s : Schedule D) (held : SortedMap Priority (Arrow D)) (eligible before : D → Bool)
    (queuedTime : Priority) (arrow : Arrow D) : Schedule D :=
  if !eligible arrow.childName then { s with held := some (held.set queuedTime arrow) }
  else if before arrow.childName then
    { (s.restoreDeferredUpdates held).enqueue queuedTime arrow with held := none }
  else s.unmark arrow

/-- One turn of the loop of `updateWithBoundary`. -/
def next (s : Schedule D) (held : SortedMap Priority (Arrow D)) (eligible before : D → Bool) :
    Option (Schedule D) :=
  match s.toUpdate.removeMin with
  | none => some { s.restoreDeferredUpdates held with held := none }
  | some (queuedTime, arrow, toUpdate) =>
    let popped := { s with toUpdate := toUpdate }
    (s.valid arrow).map fun valid =>
      if !valid then popped.unmark arrow
      else
        match s.currentTime arrow with
        | some time =>
          if queuedTime ≠ time then popped.enqueue time arrow
          else popped.dispatch held eligible before queuedTime arrow
        | none => popped.dispatch held eligible before queuedTime arrow

def step (s : Schedule D) : ScheduleEvent D → Option (Schedule D)
  | .mkdirMulti dirName genSym =>
    match s.dirs.maybeGet dirName with
    | some (.lazy _) => none
    | _ =>
      (s.timeStamp dirName genSym).map fun s => s.setDir dirName (.eager (s.timeStack genSym) [])
  | .applying dirName genSym => (s.removeDir dirName).bind fun s => s.timeStamp dirName genSym
  | .applied dirName timeStack parents =>
    if s.given.maybeGet timeStack.getLast = some dirName then
      some (s.setDir dirName (.eager timeStack parents))
    else none
  | .reuseDir dirName genSym =>
    match s.dirs.maybeGet dirName with
    | some (.eager _ parents) =>
      (s.timeStamp dirName genSym).map fun s =>
        s.setDir dirName (.eager (s.timeStack genSym) parents)
    | _ => none
  | .createLazy dirName genSym =>
    (s.timeStamp dirName genSym).map fun s => s.setDir dirName (.lazy (s.timeStack genSym))
  | .updatePre dirName genSym =>
    (s.timeStamp dirName genSym).map fun s => s.setDir dirName (.eager (.createInput genSym) [])
  | .importDir dirName node =>
    match s.given.maybeGet node.getTime with
    | none =>
      if 0 < node.getTime then
        some ({ s with given := s.given.set node.getTime dirName }.setDir dirName node)
      else none
    | some owner => if owner = dirName then some (s.setDir dirName node) else none
  | .removeDir dirName => s.removeDir dirName
  | .enter arrow timeStack => some { s with arrowStack := (arrow, timeStack) :: s.arrowStack }
  | .leave => some { s with arrowStack := s.arrowStack.tail }
  | .invalidateReader reader => some (s.invalidateReader reader)
  | .written dirName time childNames =>
    if s.given.maybeGet time = some dirName then some (s.writeEntry dirName time childNames)
    else none
  | .startUpdate =>
    match s.held with
    | none => some { s with held := some .empty }
    | some _ => none
  | .next eligible before => s.held.bind fun held => s.next held eligible before
  | .stopAfter =>
    s.held.map fun held => { s.restoreDeferredUpdates held with held := none }

def run (s : Schedule D) (events : List (ScheduleEvent D)) : Option (Schedule D) :=
  events.foldlM step s

end Schedule
end SkipPlatform
