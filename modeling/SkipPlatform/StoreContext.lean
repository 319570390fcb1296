import SkipPlatform.EagerDirImport

set_option autoImplicit false

/-! The directories of a context and the steps that change them: new ticks, new
directories, changes of one directory, removals. -/
namespace SkipPlatform
open SortedMerge StoreSourceMap

inductive Dir (D K F : Type) [LinearOrder D] [StoreKey K] where
  | eager (dir : EagerDir D K F)
  | lazy
  | deleted

structure StoreContext (D K F : Type) [LinearOrder D] [StoreKey K] where
  dirs : DMap D (Dir D K F)
  tick : ℕ

namespace EagerDir
variable {D K F : Type} [LinearOrder D] [StoreKey K]

/-- The rows `mkdirMulti` makes of the initial contents: sorted, one row for each key. -/
def contentRows (dirName : D) (content : List (K × List F)) : List (K × List F × Source D K) :=
  (Reducer.groupRows ((content.mergeSort fun a b => decide (a.1 ≤ b.1)).map fun x =>
    (⟨x.1, x.2, ⟨dirName, x.1⟩, 0⟩ : FixedRow K (Source D K) (List F)))).map fun x =>
      (x.1, x.2, ⟨dirName, x.1⟩)

def inputCreation (dirName : D) (tick : ℕ) (creator : Option (StoreReaders.ArrowKey D K))
    (content : List (K × List F)) : Creation D K F where
  dirName := dirName
  input := true
  tick := tick
  creator := creator
  writes := contentRows dirName content
  oldVec := []
  reducer := none

def subDirs (d : EagerDir D K F) : Option (List D) :=
  d.fixedOld.items.map fun fixed => (d.old.items ++ fixed).flatMap fun row => row.2.getNewDirs

end EagerDir

/-- `derive` stores a directory computed from others, `touch` one whose edges changed. -/
inductive StoreStep (D K F : Type) [LinearOrder D] [StoreKey K] where
  | advance (ticks : ℕ)
  | mkdir (creator : Option (StoreReaders.ArrowKey D K)) (dirName : D) (content : List (K × List F))
  | derive (creation : EagerDir.Creation D K F)
  | change (dirName : D) (step : EagerDir.Step D K F)
  | touch (dirName : D)
  | createLazy (dirName : D)
  | remove (dirName : D)

namespace StoreContext
variable {D K F : Type} [LinearOrder D] [StoreKey K]

def empty : StoreContext D K F := ⟨.empty, 0⟩

def setDir (c : StoreContext D K F) (dirName : D) (dir : Dir D K F) : StoreContext D K F :=
  { c with dirs := c.dirs.set c.tick dirName dir }

/-- `none` when the recursion does not end or meets a lazy directory. -/
def removeDirFuel : ℕ → StoreContext D K F → D → Option (StoreContext D K F)
  | 0, _, _ => none
  | fuel + 1, c, dirName =>
    match c.dirs.maybeGet dirName with
    | some (.eager dir) =>
      (dir.subDirs.bind fun subs => subs.foldlM (removeDirFuel fuel) c).map fun c =>
        c.setDir dirName .deleted
    | some .lazy => none
    | _ => some c

/-- A removal nested deeper than there are directories comes back to one of them. -/
def removeDir (c : StoreContext D K F) (dirName : D) : Option (StoreContext D K F) :=
  c.removeDirFuel (c.dirs.keys.length + 1) dirName

def create (c : StoreContext D K F) (creation : EagerDir.Creation D K F) :
    Option (StoreContext D K F) :=
  ({ creation with tick := c.tick } : EagerDir.Creation D K F).make.map fun made =>
    c.setDir creation.dirName (.eager made.dir)

def mkdirMulti (c : StoreContext D K F) (creator : Option (StoreReaders.ArrowKey D K)) (dirName : D)
    (content : List (K × List F)) : Option (StoreContext D K F) :=
  let made := c.create (EagerDir.inputCreation dirName c.tick creator content)
  match c.dirs.maybeGet dirName with
  | some (.eager dir) => if dir.creator = creator then made else none
  | some .lazy => none
  | _ => made

/-- `none` is an exception or a violated invariant. -/
def step [DecidableEq F] (c : StoreContext D K F) : StoreStep D K F → Option (StoreContext D K F)
  | .advance ticks => some { c with tick := c.tick + ticks }
  | .mkdir creator dirName content => c.mkdirMulti creator dirName content
  | .derive creation => c.create { creation with input := false }
  | .change dirName st =>
    match c.dirs.maybeGet dirName with
    | some (.eager dir) =>
      (EagerDir.Clocked.step ⟨dir, c.tick⟩ st).map fun changed =>
        c.setDir dirName (.eager changed.dir)
    | _ => none
  | .touch dirName => (c.dirs.maybeGet dirName).map (c.setDir dirName)
  | .createLazy dirName => some (c.setDir dirName .lazy)
  | .remove dirName => c.removeDir dirName

theorem step_change_eq_some [DecidableEq F] {c c' : StoreContext D K F} {dirName : D}
    {st : EagerDir.Step D K F} (h : c.step (.change dirName st) = some c') :
    ∃ dir changed, c.dirs.maybeGet dirName = some (.eager dir) ∧
      EagerDir.Clocked.step ⟨dir, c.tick⟩ st = some changed ∧
      c.setDir dirName (.eager changed.dir) = c' := by
  unfold step at h
  dsimp only at h
  split at h
  · rename_i dir hdir
    obtain ⟨changed, hchanged, he⟩ := Option.map_eq_some_iff.mp h
    exact ⟨dir, changed, hdir, hchanged, he⟩
  · cases h

def run [DecidableEq F] (c : StoreContext D K F) (steps : List (StoreStep D K F)) :
    Option (StoreContext D K F) :=
  steps.foldlM step c

def value (c : StoreContext D K F) (dirName : D) (source : Source D K) (key : K) : List F :=
  match c.dirs.maybeGet dirName with
  | some (.eager dir) => dir.getArraySourceKey source key
  | _ => []

end StoreContext
end SkipPlatform
