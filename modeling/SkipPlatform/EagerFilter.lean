import SkipPlatform.CappedRows
import SkipPlatform.EagerDirPaths
import SkipPlatform.RangeMap

set_option autoImplicit false

/-! A directory with the first elements of another one: those that a predicate and key ranges
admit, up to a capacity. -/
namespace SkipPlatform
open StoreSourceMap

structure MaxKeyFile (K : Type) where
  key : K
  deriving DecidableEq

namespace KeyRange
variable {K : Type} [LinearOrder K]

/-- The order of `compare`: by start, then by end. -/
def lessEq (a b : KeyRange K) : Bool :=
  decide (a.start < b.start) || (decide (a.start = b.start) && decide (a.stop ≤ b.stop))

end KeyRange

structure FilterRange (K : Type) [LinearOrder K] where
  ranges : List (KeyRange K)
  max : K
  nonempty : ranges ≠ []
  sorted : ranges.Pairwise fun a b => a.start ≤ b.start
  bounded : ∀ range ∈ ranges, range.stop ≤ max

namespace FilterRange
variable {K : Type} [LinearOrder K]

def maxKey (first : KeyRange K) (ranges : List (KeyRange K)) : K :=
  ranges.foldl (fun maxKey range => if range.stop > maxKey then range.stop else maxKey) first.stop

theorem maxKey_ge (maxKey : K) (ranges : List (KeyRange K)) :
    maxKey ≤ ranges.foldl (fun maxKey range => if range.stop > maxKey then range.stop else maxKey)
        maxKey ∧
      ∀ range ∈ ranges, range.stop ≤
        ranges.foldl (fun maxKey range => if range.stop > maxKey then range.stop else maxKey)
          maxKey := by
  induction ranges generalizing maxKey with
  | nil => exact ⟨le_refl _, nofun⟩
  | cons range ranges ih =>
    have later := ih (if range.stop > maxKey then range.stop else maxKey)
    have bounds : maxKey ≤ (if range.stop > maxKey then range.stop else maxKey) ∧
        range.stop ≤ (if range.stop > maxKey then range.stop else maxKey) := by
      split
      · rename_i above
        exact ⟨above.le, le_refl _⟩
      · rename_i below
        exact ⟨le_refl _, not_lt.mp below⟩
    refine ⟨bounds.1.trans later.1, fun other hother => ?_⟩
    rcases List.mem_cons.mp hother with rfl | tail
    · exact bounds.2.trans later.1
    · exact later.2 other tail

theorem sorted_mergeSort (ranges : List (KeyRange K)) :
    (ranges.mergeSort KeyRange.lessEq).Pairwise fun a b => a.start ≤ b.start := by
  have trans : ∀ a b c : KeyRange K, a.lessEq b = true → b.lessEq c = true →
      a.lessEq c = true := by
    intro a b c hab hbc
    simp only [KeyRange.lessEq, Bool.or_eq_true, Bool.and_eq_true, decide_eq_true_eq] at hab hbc ⊢
    rcases hab with hab | ⟨hab, hstop⟩
    · rcases hbc with hbc | ⟨hbc, _⟩
      · exact Or.inl (hab.trans hbc)
      · exact Or.inl (hbc ▸ hab)
    · rcases hbc with hbc | ⟨hbc, hstop'⟩
      · exact Or.inl (hab ▸ hbc)
      · exact Or.inr ⟨hab.trans hbc, hstop.trans hstop'⟩
  have total : ∀ a b : KeyRange K, (a.lessEq b || b.lessEq a) = true := by
    intro a b
    simp only [KeyRange.lessEq, Bool.or_eq_true, Bool.and_eq_true, decide_eq_true_eq]
    rcases lt_trichotomy a.start b.start with h | h | h
    · exact Or.inl (Or.inl h)
    · rcases le_total a.stop b.stop with hs | hs
      · exact Or.inl (Or.inr ⟨h, hs⟩)
      · exact Or.inr (Or.inr ⟨h.symm, hs⟩)
    · exact Or.inr (Or.inl h)
  refine (List.pairwise_mergeSort trans total ranges).imp fun {a b} h => ?_
  simp only [KeyRange.lessEq, Bool.or_eq_true, Bool.and_eq_true, decide_eq_true_eq] at h
  exact h.elim le_of_lt fun h => h.1.le

/-- `none` is a violated invariant. -/
def create : Option (List (KeyRange K)) → Option (Option (FilterRange K))
  | none => some none
  | some [] => none
  | some (first :: rest) =>
    some (some
      { ranges := (first :: rest).mergeSort KeyRange.lessEq
        max := maxKey first (first :: rest)
        nonempty := by
          rw [ne_eq, ← List.length_eq_zero_iff, List.length_mergeSort]
          exact Nat.succ_ne_zero _
        sorted := sorted_mergeSort _
        bounded := fun range hrange =>
          (maxKey_ge first.stop (first :: rest)).2 range (List.mem_mergeSort.mp hrange) })

def firstStart (r : FilterRange K) : K := (r.ranges.head r.nonempty).start

end FilterRange

/-- `childKey` and `unitKey` stand for the name of the child as a key and for the unit key: they
address the file of this filter in the directory of the filters at capacity. -/
structure EagerFilter (D N K F : Type) where
  parentName : D
  childName : D
  childKey : N
  unitKey : N
  capacity : ℕ
  fileSize : F → ℕ
  removeFromFile : F → ℤ → F
  filter : K → F → Bool

structure FilterDirs (D N K F : Type) [LinearOrder D] [StoreKey N] [StoreKey K] where
  parent : EagerDir D K F
  child : EagerDir D K F
  full : EagerDir D N (MaxKeyFile K)

namespace EagerFilter
variable {D N K F : Type} [LinearOrder D] [StoreKey N] [StoreKey K] [DecidableEq F]

/-- What the loop over the parent has so far; `left` are the ranges from its position on. -/
structure Filling (K : Type) [LinearOrder K] where
  toAdd : ℤ
  keys : SortedSet K
  left : Option (List (KeyRange K))

/-- What the ranges say about a key: its files are added, left out, or no later one is wanted. -/
inductive Verdict where
  | add
  | next
  | done

def checkRanges (left : Option (List (KeyRange K))) (key : K) :
    Verdict × Option (List (KeyRange K)) :=
  match left with
  | none => (.add, none)
  | some ranges =>
    match ranges.dropWhile fun range => decide (key > range.stop) with
    | [] => (.done, some [])
    | range :: rest => (if key < range.start then .next else .add, some (range :: rest))

def addFile (e : EagerFilter D N K F) (key : K) (s : Filling K) (file : F) : Filling K × F :=
  let fsize : ℤ := e.fileSize file
  if fsize > s.toAdd then
    (⟨s.toAdd - s.toAdd, s.keys.set key (), s.left⟩, e.removeFromFile file (fsize - s.toAdd))
  else (⟨s.toAdd - fsize, s.keys.set key (), s.left⟩, file)

/-- The loop over the files of one key; `vec` are the files to write. -/
def gatherFiles (e : EagerFilter D N K F) (key : K) (s : Filling K) (vec : List F) :
    List F → Option (Filling K × List F)
  | [] => some (s, vec)
  | file :: files =>
    if !e.filter key file then e.gatherFiles key s vec files
    else
      match checkRanges s.left key with
      | (.done, left) => some ({ s with left := left }, vec)
      | (.next, left) => e.gatherFiles key { s with left := left } vec files
      | (.add, left) =>
        let added := e.addFile key { s with left := left } file
        if added.1.toAdd < 0 then none
        else if added.1.toAdd = 0 then some (added.1, vec ++ [added.2])
        else e.gatherFiles key added.1 (vec ++ [added.2]) files

def source (e : EagerFilter D N K F) (key : K) : Source D K := ⟨e.parentName, key⟩

def fillRows (e : EagerFilter D N K F) (ctx : WriteContext D K) (s : Filling K)
    (child : EagerDir D K F) : List (K × List F) → Option (Filling K × EagerDir D K F)
  | [] => some (s, child)
  | (key, files) :: rows =>
    match e.gatherFiles key s [] files with
    | none => none
    | some (s, vec) =>
      let child := child.writeEntry ctx (e.source key) (e.source key) key vec
      if s.toAdd = 0 then some (s, child) else e.fillRows ctx s child rows

def clearRow (e : EagerFilter D N K F) (ctx : WriteContext D K) (keys : SortedSet K)
    (child : EagerDir D K F) (key : K) : EagerDir D K F :=
  if keys.containsKey key then child
  else child.writeEntry ctx (e.source key) (e.source key) key []

def clearRows (e : EagerFilter D N K F) (ctx : WriteContext D K) (keys : SortedSet K)
    (child : EagerDir D K F) (rows : List (K × List F)) : EagerDir D K F :=
  rows.foldl (fun child x => e.clearRow ctx keys child x.1) child

def sizeBefore (e : EagerFilter D N K F) (child : EagerDir D K F) : Option K → ℕ
  | none => 0
  | some startKey =>
    ((child.unsafeGetFileIter.takeWhile fun x => !decide (startKey ≤ x.1)).map fun x =>
      (x.2.map e.fileSize).sum).sum

def outOfRanges : Option (FilterRange K) → Option (SortedSet K) → Bool
  | some r, some changedKeys =>
    (changedKeys.minimum.any fun x => decide (x.1 > r.max)) ||
      changedKeys.maximum.any fun x => decide (x.1 < r.firstStart)
  | _, _ => false

/-- The child is at capacity, and its last key is before the starting one. -/
def fullBefore (e : EagerFilter D N K F) (s : FilterDirs D N K F) (startKeyOpt : Option K) : Bool :=
  startKeyOpt.any fun startKey =>
    (s.full.getArrayRaw e.childKey).head?.any fun file => decide (file.key < startKey)

/-- `none` is the failing read of the greatest key. -/
def fullFiles (s : Filling K) : Option (List (MaxKeyFile K)) :=
  if s.toAdd = 0 then s.keys.maximum.map fun x => [⟨x.1⟩] else some []

/-- What the context says to a write in any directory: a source override is one path, read with the
keys of either directory. -/
structure SyncContext (D N K : Type) where
  tick : ℕ
  sourceOverride : Option (Source D K × Source D N)

namespace SyncContext
variable {D N K : Type}

def child (ctx : SyncContext D N K) : WriteContext D K :=
  ⟨ctx.tick, ctx.sourceOverride.map Prod.fst⟩

def full (ctx : SyncContext D N K) : WriteContext D N :=
  ⟨ctx.tick, ctx.sourceOverride.map Prod.snd⟩

end SyncContext

def syncData (e : EagerFilter D N K F) (ctx : SyncContext D N K)
    (rangesOpt : Option (FilterRange K)) (changedKeysOpt : Option (SortedSet K)) (s : FilterDirs D N K F) :
    Option (FilterDirs D N K F) :=
  if outOfRanges rangesOpt changedKeysOpt then some s
  else
    let startKeyOpt := changedKeysOpt.bind fun changedKeys => changedKeys.minimum.map Prod.fst
    if e.fullBefore s startKeyOpt then some s
    else
      let toAdd : ℤ := e.capacity - e.sizeBefore s.child startKeyOpt
      if toAdd = 0 then some s
      else
        match e.fillRows ctx.child ⟨toAdd, .empty, rangesOpt.map FilterRange.ranges⟩ s.child
            (s.parent.unsafeGetFileIterFrom startKeyOpt) with
        | none => none
        | some (filled, child) =>
          let child :=
            e.clearRows ctx.child filled.keys child (child.unsafeGetFileIterFrom startKeyOpt)
          let unit : Source D N := ⟨e.childName, e.unitKey⟩
          (fullFiles filled).map fun files =>
            { s with
              child := child
              full := s.full.writeEntry ctx.full unit unit e.childKey files }

/-- A new directory, as `mkDir` makes it. -/
def emptyDir {K' F' : Type} (tick : ℕ) (dirName : D) : EagerDir.Creation D K' F' where
  dirName := dirName
  input := false
  tick := tick
  creator := none
  writes := []
  oldVec := []
  reducer := none

/-- `fullName` is the name of the second directory. -/
def create (e : EagerFilter D N K F) (ctx : SyncContext D N K) (fullName : D)
    (rangesOpt : Option (FilterRange K)) (parent : EagerDir D K F) :
    Option (FilterDirs D N K F) :=
  match (emptyDir ctx.tick e.childName : EagerDir.Creation D K F).make,
      (emptyDir ctx.tick fullName : EagerDir.Creation D N (MaxKeyFile K)).make with
  | some child, some full => e.syncData ctx rangesOpt none ⟨parent, child.dir, full.dir⟩
  | _, _ => none

end EagerFilter

/-- A filter in a context: `dirty` are the keys of the parent that were written since the last
update. -/
structure FilterState (D N K F : Type) [LinearOrder D] [StoreKey N] [StoreKey K] where
  dirs : FilterDirs D N K F
  dirty : SortedSet K

inductive FilterStep (D N K F : Type) where
  | write (ctx : WriteContext D K) (origSource writer : Source D K) (key : K) (values : List F)
  | update (ctx : EagerFilter.SyncContext D N K) (readers : List K)

namespace FilterState
variable {D N K F : Type} [LinearOrder D] [StoreKey N] [StoreKey K] [DecidableEq F]

def step (e : EagerFilter D N K F) (rangesOpt : Option (FilterRange K)) (s : FilterState D N K F) :
    FilterStep D N K F → Option (FilterState D N K F)
  | .write ctx origSource writer key values =>
    if values = s.dirs.parent.getArraySourceKey origSource key then some s
    else
      some
        { dirs := { s.dirs with
            parent := s.dirs.parent.writeEntry ctx origSource writer key values }
          dirty := s.dirty.set key () }
  | .update ctx readers =>
    (e.syncData ctx rangesOpt
      (some (readers.foldl (fun dirty key => dirty.set key ()) s.dirty)) s.dirs).map fun dirs =>
        ⟨dirs, .empty⟩

def start (e : EagerFilter D N K F) (ctx : EagerFilter.SyncContext D N K) (fullName : D)
    (rangesOpt : Option (FilterRange K)) (parent : EagerDir D K F) : Option (FilterState D N K F) :=
  (e.create ctx fullName rangesOpt parent).map fun dirs => ⟨dirs, .empty⟩

def run (e : EagerFilter D N K F) (rangesOpt : Option (FilterRange K)) (s : FilterState D N K F)
    (steps : List (FilterStep D N K F)) : Option (FilterState D N K F) :=
  steps.foldlM (step e rangesOpt) s

end FilterState

def inRanges {K : Type} [LinearOrder K] (rangesOpt : Option (List (KeyRange K))) (key : K) : Bool :=
  rangesOpt.all fun ranges =>
    ranges.any fun range => decide (range.start ≤ key) && decide (key ≤ range.stop)

namespace EagerFilter
variable {D N K F : Type} [LinearOrder D] [StoreKey N] [StoreKey K]

def wanted (e : EagerFilter D N K F) (rangesOpt : Option (List (KeyRange K))) (key : K)
    (files : List F) : List F :=
  files.filter fun file => e.filter key file && inRanges rangesOpt key

def restricted (e : EagerFilter D N K F) (rangesOpt : Option (List (KeyRange K)))
    (rows : List (K × List F)) : List (K × List F) :=
  rows.map fun x => (x.1, e.wanted rangesOpt x.1 x.2)

/-- The first elements of the restricted parent, up to the capacity. -/
def expected (e : EagerFilter D N K F) (rangesOpt : Option (List (KeyRange K)))
    (parent : EagerDir D K F) : List (K × List F) :=
  CappedRows.filled (CappedRows.takeRows e.fileSize e.removeFromFile e.capacity
    (e.restricted rangesOpt parent.unsafeGetFileIter))

def wantedSize (e : EagerFilter D N K F) (rangesOpt : Option (List (KeyRange K)))
    (rows : List (K × List F)) : ℕ := CappedRows.rowsTotal e.fileSize (e.restricted rangesOpt rows)

/-- What the file of a filter says: it is there when the child is at capacity, and names the key
where the capacity is reached. -/
def FullAt (e : EagerFilter D N K F) (rangesOpt : Option (List (KeyRange K)))
    (rows : List (K × List F)) (files : List (MaxKeyFile K)) : Prop :=
  e.capacity = 0 ∨ (files = [] ∧ e.wantedSize rangesOpt rows < e.capacity) ∨
    ∃ m, files = [⟨m⟩] ∧
      e.wantedSize rangesOpt (rows.filter fun x => decide (x.1 < m)) < e.capacity ∧
      e.capacity ≤ e.wantedSize rangesOpt (rows.filter fun x => decide (x.1 ≤ m))

/-- The child and the file of the filter are what the rows of the parent ask for. -/
structure Settled (e : EagerFilter D N K F) (rangesOpt : Option (List (KeyRange K)))
    (s : FilterDirs D N K F) : Prop where
  child : CappedRows.filled s.child.unsafeGetFileIter = e.expected rangesOpt s.parent
  full : FullAt e rangesOpt s.parent.unsafeGetFileIter (s.full.getArrayRaw e.childKey)

end EagerFilter

namespace FilterState
variable {D N K F : Type} [LinearOrder D] [StoreKey N] [StoreKey K] [DecidableEq F]

/-- An update with a source override has nothing to write. -/
def Plain (e : EagerFilter D N K F) (rangesOpt : Option (List (KeyRange K)))
    (s : FilterState D N K F) : FilterStep D N K F → Prop
  | .write .. => True
  | .update ctx _ => ctx.sourceOverride = none ∨ e.Settled rangesOpt s.dirs

/-- Every step of a run is plain in the state before it. -/
def Along (e : EagerFilter D N K F) (rangesOpt : Option (List (KeyRange K)))
    (ranges : Option (FilterRange K)) (s : FilterState D N K F) : List (FilterStep D N K F) → Prop
  | [] => True
  | step :: steps => Plain e rangesOpt s step ∧
      ∀ s', s.step e ranges step = some s' → Along e rangesOpt ranges s' steps

end FilterState
end SkipPlatform
