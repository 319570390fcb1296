import SkipPlatform.FixedDataMap
import SkipPlatform.StoreSourceMapLookup

set_option autoImplicit false

/-! An eager directory: its readers, its writer, and the purge that turns the writes
since the last purge into fixed rows. The edges of the dependency graph are left to the
context. -/
namespace SkipPlatform
open SortedMerge StoreSourceMap

/-- `init` and `update` are the user's reducer. -/
structure Reducer (K F : Type) [LinearOrder K] where
  init : List F → List F
  update : List F → List F → List F → Option (List F)
  fixed : List (K × List F)
  modified : SortedMap K (List F)

namespace Reducer
variable {K S F : Type} [LinearOrder K] [LinearOrder S]

def groupRows : List (FixedRow K S (List F)) → List (K × List F)
  | [] => []
  | row :: rest =>
    match groupRows rest with
    | (key, files) :: groups =>
      if row.key = key then (key, row.value ++ files) :: groups
      else (row.key, row.value) :: (key, files) :: groups
    | [] => [(row.key, row.value)]

def create (fixedData : FixedDir K S (List F)) (init : List F → List F)
    (update : List F → List F → List F → Option (List F)) : Reducer K F :=
  ⟨init, update, (groupRows fixedData.rows).map fun x => (x.1, init x.2), .empty⟩

def getFixed (r : Reducer K F) (key : K) : List F :=
  SortedSearch.bisect [] (fun elt left right =>
    match compare key elt.1 with
    | .lt => left
    | .eq => elt.2
    | .gt => right) r.fixed

def getArray (r : Reducer K F) (key : K) : List F :=
  match r.modified.maybeGet key with
  | none => r.getFixed key
  | some values => values

def unsafeIter (r : Reducer K F) : List (K × List F) :=
  overrideMerge Prod.fst r.fixed r.modified.items

/-- `files` are the values of the key after the write. -/
def write (r : Reducer K F) (key : K) (oldValues rvalues files : List F) : Reducer K F :=
  let state := r.getArray key
  let values :=
    if state.isEmpty then r.init files
    else
      match r.update state oldValues rvalues with
      | none => r.init files
      | some new => new
  { r with modified := r.modified.set key values }

end Reducer

structure EagerDir (D K F : Type) [LinearOrder D] [StoreKey K] where
  dirName : D
  input : Bool
  created : ℕ
  creator : Option (StoreReaders.ArrowKey D K)
  fixedData : FixedDataMap K (Source D K) F
  totalSize : ℤ
  fixedOld : FixedSourceMap D K
  data : DataMap K (Source D K) F
  old : SortedMap (Source D K) (MInfo D K)
  reducer : Option (Reducer K F)
  tombLimit : Option ℕ

structure WriteContext (D K : Type) where
  tick : ℕ
  sourceOverride : Option (Source D K)

namespace EagerDir
variable {D K F : Type} [LinearOrder D] [StoreKey K]

/-- A directory of initial rows, as `mkdirMulti` and `applyManyFor` make it. `none` is a
violated invariant. -/
def create (dirName : D) (input : Bool) (tick : ℕ) (creator : Option (StoreReaders.ArrowKey D K))
    (acc : List (FixedRow K (Source D K) (List F))) (oldVec : List (StoreSourceMap.Row D K))
    (reducer : Option ((List F → List F) × (List F → List F → List F → Option (List F)))) :
    Option (EagerDir D K F) :=
  (FixedSourceMap.create oldVec true).map fun fixedOld =>
    { dirName := dirName
      input := input
      created := tick
      creator := creator
      fixedData := .ofRows acc
      totalSize := acc.length
      fixedOld := fixedOld
      data := .empty
      old := .empty
      reducer := reducer.map fun r => Reducer.create (FixedDir.create acc) r.1 r.2
      tombLimit := none }

def unsafeGetAllDataIter (d : EagerDir D K F) (key : K) : List (Entry (Source D K) F) :=
  match d.data.maybeGet key with
  | none => d.fixedData.getIter key
  | some modified => overrideMerge Entry.source (d.fixedData.getIter key) modified.items

def unsafeGetAllDataIterAfter (d : EagerDir D K F) (limit : ℕ) (key : K) :
    List (Entry (Source D K) F) :=
  match d.data.maybeGet key with
  | none => d.fixedData.getIterAfter limit key
  | some modified =>
    overrideMerge Entry.source (d.fixedData.getIterAfter limit key) (modified.itemsAfter limit)

/-- The entries with values; the tombstones of the last writes are not consulted. -/
def unsafeGetDataIterWithoutTombs (d : EagerDir D K F) (key : K) : List (Entry (Source D K) F) :=
  match d.data.maybeGet key with
  | none => (d.fixedData.getIter key).filter fun e => !e.files.isEmpty
  | some modified =>
    (overrideMerge Entry.source (d.fixedData.getIter key)
      (modified.map.itemsWithTick.map DataMapValue.mapEntry)).filter fun e => !e.files.isEmpty

def filesOf (d : EagerDir D K F) (key : K) : List F :=
  (d.unsafeGetDataIterWithoutTombs key).flatMap Entry.files

def getArrayRaw (d : EagerDir D K F) (key : K) : List F :=
  match d.reducer with
  | none => d.filesOf key
  | some compact => compact.getArray key

def getArraySourceKey (d : EagerDir D K F) (source : Source D K) (key : K) : List F :=
  match d.data.maybeGet key with
  | none => (d.fixedData.data.getArraySourceKey source key).flatten
  | some modified =>
    match modified.maybeGet source with
    | none => (d.fixedData.data.getArraySourceKey source key).flatten
    | some v => v

def unsafeGetFileIterNoReducer (d : EagerDir D K F) (start : Option K) : List (K × List F) :=
  let current :=
    match start with
    | none => 0
    | some key => d.fixedData.data.getPos key
  overrideMerge Prod.fst (Reducer.groupRows (d.fixedData.data.rows.drop current))
    ((d.data.data.keys.filter fun key => start.all fun s => decide (s ≤ key)).map fun key =>
      (key, d.getArrayRaw key))

def unsafeGetFileIter (d : EagerDir D K F) : List (K × List F) :=
  match d.reducer with
  | none => d.unsafeGetFileIterNoReducer none
  | some reducer => reducer.unsafeIter

def keysLoop : List (FixedRow K (Source D K) (List F)) →
    List (K × DataMapValue (Source D K) F) → List K
  | fixed, [] => (fixed.filter fun row => !row.value.isEmpty).map FixedRow.key
  | fixed, (newKey, newValues) :: rest =>
    ((fixed.takeWhile fun row => decide (row.key < newKey)).filter
      fun row => !row.value.isEmpty).map FixedRow.key ++
      (if newValues.isEmpty then [] else [newKey]) ++
      keysLoop (fixed.dropWhile fun row => decide (row.key < newKey)) rest

def keys (d : EagerDir D K F) : SortedSet K :=
  (keysLoop d.fixedData.data.rows d.data.items).foldl (fun s k => s.set k ()) .empty

def getAllKeysWithValues (d : EagerDir D K F) : SortedSet K :=
  (d.unsafeGetFileIter.filter fun x => !x.2.isEmpty).foldl (fun s x => s.set x.1 ()) .empty

def getChangesAfter (d : EagerDir D K F) (tick : ℕ) : Bool × SortedSet K :=
  if d.tombLimit.any fun limit => decide (tick ≤ limit) then (true, d.getAllKeysWithValues)
  else (false, (d.data.getChangesAfter tick).union (d.fixedData.getChangesAfter tick))

/-- `none` is a failing read of a compact map. -/
def getOld (d : EagerDir D K F) (source : Source D K) : Option (MInfo D K) :=
  match d.old.maybeGet source with
  | some minfo => some minfo
  | none => (d.fixedOld.maybeGet source).map fun found => found.getD .empty

def setOld (d : EagerDir D K F) (source : Source D K) (minfo : MInfo D K) : EagerDir D K F :=
  { d with old := d.old.set source minfo }

def writeEntry [DecidableEq F] (d : EagerDir D K F) (ctx : WriteContext D K)
    (origSource writer : Source D K) (k : K) (rvalues : List F) : EagerDir D K F :=
  let oldValues := d.getArraySourceKey origSource k
  if rvalues = oldValues then d
  else
    let origSource := ctx.sourceOverride.getD origSource
    let writer := ctx.sourceOverride.getD writer
    let totalSize :=
      if oldValues.isEmpty && !rvalues.isEmpty then d.totalSize + 1
      else if !oldValues.isEmpty && rvalues.isEmpty then d.totalSize - 1
      else d.totalSize
    let map := (d.data.maybeGet k).getD .empty
    let isMasking := !(d.fixedData.data.getArraySourceKey origSource k).isEmpty
    let data := d.data.set ctx.tick k (map.set ctx.tick isMasking origSource writer rvalues)
    let written := { d with data := data }
    { written with
      totalSize := totalSize
      reducer := d.reducer.map fun r => r.write k oldValues rvalues (written.filesOf k) }

def resetKey [DecidableEq F] (ctx : WriteContext D K) (writer : Source D K) (d : EagerDir D K F)
    (key : K) : EagerDir D K F :=
  (d.unsafeGetDataIterWithoutTombs key).foldl (fun d e => d.writeEntry ctx e.source writer key []) d

def reset [DecidableEq F] (d : EagerDir D K F) (ctx : WriteContext D K) (writer : Source D K)
    (keep : SortedSet K) : EagerDir D K F :=
  d.unsafeGetFileIter.foldl
    (fun d' x => if !keep.containsKey x.1 && !x.2.isEmpty then resetKey ctx writer d' x.1 else d') d

def oldRows (d : EagerDir D K F) : Option (List (StoreSourceMap.Row D K)) :=
  d.fixedOld.items.map fun fixed =>
    (overrideMerge Prod.fst fixed d.old.items).filter fun row =>
      match row.2 with
      | .empty => false
      | _ => true

def purgeOld (d : EagerDir D K F) : Option (FixedSourceMap D K) :=
  d.oldRows.bind fun acc => FixedSourceMap.create acc false

/-- The rows emitted while the entries of one key are walked, and the fixed rows left. -/
def flattenKey (key : K) : List (K × Entry (Source D K) F) → List (Entry (Source D K) F) →
    List (K × Entry (Source D K) F) × List (K × Entry (Source D K) F)
  | fixed, [] =>
    (fixed.takeWhile fun x => decide (x.1 = key), fixed.dropWhile fun x => decide (x.1 = key))
  | fixed, e :: es =>
    let rest := (fixed.dropWhile fun x => decide (x.1 = key) && decide (x.2.source < e.source))
    let r := flattenKey key
      (rest.dropWhile fun x => decide (x.1 = key) && decide (x.2.source = e.source)) es
    ((fixed.takeWhile fun x => decide (x.1 = key) && decide (x.2.source < e.source)) ++
      (key, e) :: r.1, r.2)

def flattenRows : List (K × Entry (Source D K) F) → List (K × DataMapValue (Source D K) F) →
    List (K × Entry (Source D K) F)
  | fixed, [] => fixed
  | fixed, (key, map) :: rest =>
    let r := flattenKey key (fixed.dropWhile fun x => decide (x.1 < key)) map.items
    (fixed.takeWhile fun x => decide (x.1 < key)) ++ r.1 ++ flattenRows r.2 rest

end EagerDir
end SkipPlatform
