import SkipPlatform.FiniteMap
import SkipPlatform.StoreDeps

set_option autoImplicit false

/-! Lazy directories: rows that are computed when they are read, kept while one of the last batches
of reads has them. Maps are finite maps with equality by entries, a set of keys is a `Finset`. -/
namespace SkipPlatform
open StoreReaders

inductive LazyResult (D K F : Type) where
  | lDefined (values : List F) (reads : List (StoreDeps.Path D K))
  | lRemoved (reads : List (StoreDeps.Path D K))
  | lCycle
  | lAbsent

def LazyResult.values {D K F : Type} : LazyResult D K F → List F
  | .lDefined arr _ => arr
  | _ => []

/-- `T` is the type of time stacks. The function that computes the rows is a parameter of the
reads. -/
structure TLazyDir (D K F T : Type) where
  timeStack : T
  collect : Bool
  data : FiniteMap K (LazyResult D K F)
  deltaRetention : Bool

-- What a sorted list of keys needs of their order, for the definitions below.
local instance keyTrans {K : Type} [LinearOrder K] : IsTrans K (· ≤ ·) := inferInstance
local instance keyAntisymm {K : Type} [LinearOrder K] : Std.Antisymm (α := K) (· ≤ ·) :=
  inferInstance

namespace TLazyDir
variable {D K F T : Type} [LinearOrder K]

def enterKey (deadKeys : Finset K) (refCounts : FiniteMap K ℤ) (key : K) : FiniteMap K ℤ :=
  if key ∈ deadKeys then refCounts
  else refCounts.set key ((refCounts.get key).getD 0 + 1)

def leaveKey (newKeys : Finset K) (state : FiniteMap K ℤ × List K) (key : K) :
    FiniteMap K ℤ × List K :=
  if key ∈ newKeys then state
  else
    match state.1.get key with
    | none => state
    | some 1 => (state.1.remove key, state.2 ++ [key])
    | some count => (state.1.set key (count - 1), state.2)

/-- The count of a key and whether the two batches have it, in the update of the whole map. -/
def mergeCount (_key : K) : Option ℤ → Option Unit → Option Unit → Option ℤ
  | refCountOpt, none, none => refCountOpt
  | refCountOpt, some _, some _ => refCountOpt
  | none, none, some _ => none
  | some 1, none, some _ => none
  | refCountOpt, newOpt, deadOpt =>
    some (refCountOpt.getD 0 + (newOpt.elim 0 fun _ => 1) - (deadOpt.elim 0 fun _ => 1))

/-- The keys that `mergeCount` drops. -/
def expires (refCounts : FiniteMap K ℤ) (newKeys deadKeys : Finset K) (key : K) : Bool :=
  decide (refCounts.get key = some 1 ∧ key ∈ deadKeys ∧ key ∉ newKeys)

def removeResult : LazyResult D K F → LazyResult D K F
  | .lDefined _ reads => .lRemoved reads
  | value => value

def removeKey (data : FiniteMap K (LazyResult D K F)) (key : K) : FiniteMap K (LazyResult D K F) :=
  match data.get key with
  | some (.lDefined _ reads) => data.set key (.lRemoved reads)
  | _ => data

def removeKeys (this : TLazyDir D K F T) (keys : List K) : TLazyDir D K F T :=
  { this with data := keys.foldl removeKey this.data }

/-- The counts after the two batches, and the keys that lose their last reference. -/
def updateRefCounts (this : TLazyDir D K F T) (refCounts : FiniteMap K ℤ)
    (newKeys deadKeys : Finset K) : FiniteMap K ℤ × List K :=
  if this.deltaRetention ∧ newKeys.card + deadKeys.card < refCounts.size / 8 then
    (deadKeys.sort (· ≤ ·)).foldl (leaveKey newKeys)
      ((newKeys.sort (· ≤ ·)).foldl (enterKey deadKeys) refCounts, [])
  else
    (refCounts.mergeWith2 (FiniteMap.ofSet newKeys) (FiniteMap.ofSet deadKeys) mergeCount,
      (deadKeys.sort (· ≤ ·)).filter (expires refCounts newKeys deadKeys))

def retire (data : FiniteMap K (LazyResult D K F)) (previousRefCounts : FiniteMap K ℤ)
    (newKeys deadKeys : Finset K) : FiniteMap K (LazyResult D K F) :=
  data.mergeWith2 previousRefCounts (FiniteMap.ofSet deadKeys) fun key value count dead =>
    if count = some 1 ∧ dead.isSome ∧ key ∉ newKeys then value.map removeResult else value

def updateLazyGets (this : TLazyDir D K F T) (refCountsOpt : Option (FiniteMap K ℤ))
    (newKeysOpt deadKeysOpt : Option (Finset K)) :
    Option (FiniteMap K ℤ) × Option (TLazyDir D K F T) :=
  let previousRefCounts := refCountsOpt.getD .empty
  let newKeys := newKeysOpt.getD ∅
  let deadKeys := deadKeysOpt.getD ∅
  let (refCounts, toRemove) := this.updateRefCounts previousRefCounts newKeys deadKeys
  let dirOpt :=
    if toRemove.isEmpty then none
    else if this.deltaRetention ∧ this.data.size / 8 < toRemove.length then
      some { this with data := retire this.data previousRefCounts newKeys deadKeys }
    else some (this.removeKeys toRemove)
  (if refCounts.isEmpty then none else some refCounts, dirOpt)

end TLazyDir

/-- What the context keeps for lazy reads. The dependencies are the pairs of a path and a reader. -/
structure LazyContext (D K F T : Type) where
  parallelReadOnly : Bool
  dirs : FiniteMap D (TLazyDir D K F T)
  reads : Finset (StoreDeps.Path D K)
  deps : Finset (StoreDeps.Path D K × ArrowKey D K)
  arrowStack : List (ArrowKey D K × T)
  lazyCapacity : ℤ
  lazyGets : FiniteMap D (Finset K)
  lazyGetsQueue : List (FiniteMap D (Finset K))
  lazyGetsRefCount : FiniteMap D (FiniteMap K ℤ)

namespace LazyContext
variable {D K F T : Type} [LinearOrder D] [LinearOrder K]

def untouched (refCountsOpt : Option (FiniteMap K ℤ)) (newKeysOpt deadKeysOpt : Option (Finset K)) :
    Bool := newKeysOpt.isNone && (refCountsOpt.isNone || deadKeysOpt.isNone)

/-- What the end of a batch makes of the counts of one directory, and of the directory. -/
def updateDir (c : LazyContext D K F T) (dirName : D) (refCountsOpt : Option (FiniteMap K ℤ))
    (newKeysOpt deadKeysOpt : Option (Finset K)) :
    Option (FiniteMap K ℤ) × Option (TLazyDir D K F T) :=
  if untouched refCountsOpt newKeysOpt deadKeysOpt then (refCountsOpt, none)
  else
    match c.dirs.get dirName with
    | none => (refCountsOpt, none)
    | some dir => dir.updateLazyGets refCountsOpt newKeysOpt deadKeysOpt

def missing (c : LazyContext D K F T) (deadLazyGets : FiniteMap D (Finset K)) : Finset D :=
  (c.lazyGetsRefCount.support ∪ c.lazyGets.support ∪ deadLazyGets.support).filter fun dirName =>
    (!untouched (c.lazyGetsRefCount.get dirName) (c.lazyGets.get dirName)
      (deadLazyGets.get dirName) && (c.dirs.get dirName).isNone) = true

/-- The end of a batch of reads; `none` where the lookup of a directory fails. Each directory is
handled once, so that the counts and the rows of all are updated together. -/
def updateLazyGets (c : LazyContext D K F T) : Option (LazyContext D K F T) :=
  let queue := c.lazyGetsQueue ++ [c.lazyGets]
  let full := decide (c.lazyCapacity < queue.length)
  let lazyGetsQueue := if full then queue.tail else queue
  let deadLazyGets := if full then queue.headD .empty else .empty
  if c.lazyGets.isEmpty && deadLazyGets.isEmpty then
    some { c with lazyGetsQueue := lazyGetsQueue }
  else if c.missing deadLazyGets ≠ ∅ then none
  else
    some { c with
      lazyGetsQueue := lazyGetsQueue
      lazyGetsRefCount := c.lazyGetsRefCount.mergeWith2 c.lazyGets deadLazyGets
        fun dirName refCountsOpt newKeysOpt deadKeysOpt =>
          (c.updateDir dirName refCountsOpt newKeysOpt deadKeysOpt).1
      dirs := c.dirs.mapWithKey fun dirName dir =>
        (c.updateDir dirName (c.lazyGetsRefCount.get dirName) (c.lazyGets.get dirName)
          (deadLazyGets.get dirName)).2.getD dir
      lazyGets := .empty }

def addLazyGet (c : LazyContext D K F T) (dirName : D) (key : K) : LazyContext D K F T :=
  { c with lazyGets := c.lazyGets.set dirName (insert key ((c.lazyGets.get dirName).getD ∅)) }

def addRead (c : LazyContext D K F T) (path : StoreDeps.Path D K) : LazyContext D K F T :=
  { c with reads := insert path c.reads }

def enter (c : LazyContext D K F T) (arrow : ArrowKey D K) (timeStack : T) : LazyContext D K F T :=
  { c with arrowStack := (arrow, timeStack) :: c.arrowStack }

def updateNewDeps (c : LazyContext D K F T) (reader : ArrowKey D K)
    (reads : Finset (StoreDeps.Path D K)) : LazyContext D K F T :=
  { c with deps := c.deps ∪ reads.image fun path => (path, reader) }

def removeDeps (c : LazyContext D K F T) (reader : ArrowKey D K)
    (reads : List (StoreDeps.Path D K)) : LazyContext D K F T :=
  { c with deps := c.deps \ (reads.map fun path => (path, reader)).toFinset }

/-- `!dir.data[key] = result` for the directory that the context has now, which is there: the key
was read from it and no directory goes away. -/
def setResult (c : LazyContext D K F T) (dirName : D) (key : K) (result : LazyResult D K F) :
    LazyContext D K F T :=
  match c.dirs.get dirName with
  | none => c
  | some dir =>
    { c with dirs := c.dirs.set dirName { dir with data := dir.data.set key result } }

end LazyContext

/-- The exceptions of a read; `E` are those of the functions that compute rows. -/
inductive LazyExn (K E : Type) where
  | cyclicExn (key : K)
  | invariantViolation (msg : String)
  | parallelContextUnavailable
  | user (exn : E)

/-- What the function that computes a row does: it reads rows of lazy directories, whose exceptions
it may catch, and paths of other directories. -/
inductive LazyCompute (D K F E : Type) where
  | done (values : Option (List F))
  | fail (exn : LazyExn K E)
  | addRead (path : StoreDeps.Path D K) (next : LazyCompute D K F E)
  | getArray (dirName : D) (key : K) (next : Except (LazyExn K E) (List F) → LazyCompute D K F E)

def LazyCompute.propagate {D K F E : Type} (next : List F → LazyCompute D K F E) :
    Except (LazyExn K E) (List F) → LazyCompute D K F E
  | .ok values => next values
  | .error exn => .fail exn

namespace LazyContext
variable {D K F T E : Type} [LinearOrder D] [LinearOrder K]

/-- `none` is a read that has used up its fuel. -/
abbrev Outcome (D K F T E α : Type) := Option (Except (LazyExn K E) α × LazyContext D K F T)

def leave (c : LazyContext D K F T) (arrow : ArrowKey D K) :
    Except (LazyExn K E) (LazyContext D K F T) :=
  match c.arrowStack with
  | [] => .error (.invariantViolation "Cannot leave empty context")
  | arr :: rl =>
    if arr.1 = arrow then .ok { c with arrowStack := rl }
    else .error (.invariantViolation "assert")

def runCompute (read : LazyContext D K F T → D → K → Outcome D K F T E (List F)) :
    LazyCompute D K F E → LazyContext D K F T → Outcome D K F T E (Option (List F))
  | .done values, c => some (.ok values, c)
  | .fail exn, c => some (.error exn, c)
  | .addRead path next, c => runCompute read next (c.addRead path)
  | .getArray dirName key next, c =>
    match read c dirName key with
    | none => none
    | some (outcome, c) => runCompute read (next outcome) c

def selfArrow (dirName : D) (key : K) : ArrowKey D K := ⟨dirName, dirName, key⟩

def resultOf (reads : Finset (StoreDeps.Path D K)) : Option (List F) → LazyResult D K F
  | none => .lAbsent
  | some x => .lDefined x (reads.sort (· ≤ ·))

def doGet (run : LazyContext D K F T → Outcome D K F T E (Option (List F)))
    (c : LazyContext D K F T) (dirName : D) (key : K) :
    Outcome D K F T E (LazyResult D K F) :=
  let readsCopy := c.reads
  match run { c.setResult dirName key .lCycle with reads := ∅ } with
  | none => none
  | some (.error exn, c) =>
    some (.error exn, { c.setResult dirName key .lAbsent with reads := readsCopy })
  | some (.ok resultOpt, c) =>
    let result := resultOf c.reads resultOpt
    let c := c.updateNewDeps (selfArrow dirName key) c.reads
    some (.ok result, { c.setResult dirName key result with reads := readsCopy })

/-- The branch of `unsafeGetArray` that computes the row. -/
def computeArray (run : LazyContext D K F T → Outcome D K F T E (Option (List F)))
    (this : TLazyDir D K F T) (c : LazyContext D K F T) (dirName : D) (key : K) :
    Outcome D K F T E (List F) :=
  match doGet run (c.enter (selfArrow dirName key) this.timeStack) dirName key with
  | none => none
  | some (.error exn, c) => some (.error exn, c)
  | some (.ok res, c) =>
    match c.leave (selfArrow dirName key) with
    | .error exn => some (.error exn, c)
    | .ok c => some (.ok res.values, c)

def unsafeGetArray (run : LazyContext D K F T → Outcome D K F T E (Option (List F)))
    (this : TLazyDir D K F T) (c : LazyContext D K F T) (dirName : D) (key : K) :
    Outcome D K F T E (List F) :=
  if c.parallelReadOnly then
    match this.data.get key with
    | some (.lDefined values _) => some (.ok values, c)
    | _ => some (.error .parallelContextUnavailable, c)
  else
    let c := if this.collect then c.addLazyGet dirName key else c
    match this.data.get key with
    | some .lCycle => some (.error (.cyclicExn key), c)
    | some (.lDefined arr _) => some (.ok arr, c)
    | _ => computeArray run this c dirName key

/-- A row whose dependencies changed, in the update of its directory; the readers of the row, which
become dirty, are left out. -/
def invalidate (c : LazyContext D K F T) (dirName : D) (key : K) : LazyContext D K F T :=
  match c.dirs.get dirName with
  | none => c
  | some dir =>
    let oldValue := dir.data.get key
    let c := { c with dirs := c.dirs.set dirName { dir with data := dir.data.remove key } }
    match oldValue with
    | some (.lDefined _ reads) => c.removeDeps (selfArrow dirName key) reads
    | some (.lRemoved reads) => c.removeDeps (selfArrow dirName key) reads
    | _ => c

/-- A read of a directory by its name, with the functions that compute the rows. -/
def getArray (compute : D → K → LazyCompute D K F E) :
    ℕ → LazyContext D K F T → D → K → Outcome D K F T E (List F)
  | 0, _, _, _ => none
  | fuel + 1, c, dirName, key =>
    match c.dirs.get dirName with
    | none =>
      some (.error (.invariantViolation "unsafeGetLazyDir: Was expecting LazyDir"), c)
    | some this =>
      unsafeGetArray (runCompute (getArray compute fuel) (compute dirName key)) this
        (c.addRead ⟨dirName, .key key⟩) dirName key

end LazyContext
end SkipPlatform
