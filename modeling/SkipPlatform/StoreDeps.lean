import Mathlib.Data.List.Lex
import Mathlib.Algebra.Order.Group.Int
import Mathlib.Data.Sum.Order
import SkipPlatform.StoreReadersEquivalence

set_option autoImplicit false

/-! The dependency index of a context: for each read path its readers, for each child
directory the paths it reads, and the projections of filtered reads. -/
namespace SkipPlatform.StoreDeps
open StoreReaders

/-- The base names a path can have in the index. The tags stand for the paths that
`Path::dirTag` and its siblings build in a sub-directory of their own. -/
inductive ReadKey (K : Type) where
  | key (k : K)
  | dirTag
  | sizeTag
  | isEmptyTag
  | filesTag
  | filteredReadKey (source : ReadKey K) (projectionHash id : ℤ)
  deriving DecidableEq

namespace ReadKey
variable {K : Type}

def encode : ReadKey K → (K ⊕ₗ ℕ) ×ₗ List (ℤ ×ₗ ℤ)
  | key k => toLex (toLex (Sum.inl k), [])
  | dirTag => toLex (toLex (Sum.inr 0), [])
  | sizeTag => toLex (toLex (Sum.inr 1), [])
  | isEmptyTag => toLex (toLex (Sum.inr 2), [])
  | filesTag => toLex (toLex (Sum.inr 3), [])
  | filteredReadKey source projectionHash id =>
    toLex ((ofLex source.encode).1, toLex (projectionHash, id) :: (ofLex source.encode).2)

theorem encode_injective : Function.Injective (encode (K := K)) := by
  intro a
  induction a with
  | filteredReadKey s h i ih =>
    intro b hb
    cases b with
    | filteredReadKey s' h' i' =>
      simp only [encode, toLex_inj, Prod.mk.injEq, List.cons.injEq] at hb
      obtain ⟨hfst, ⟨rfl, rfl⟩, hsnd⟩ := hb
      have hs : s.encode = s'.encode := congrArg toLex (Prod.ext hfst hsnd)
      rw [ih hs]
    | _ => simp [encode] at hb
  | _ =>
    intro b hb
    cases b <;> simp_all [encode]

instance [LinearOrder K] : LinearOrder (ReadKey K) := LinearOrder.lift' encode encode_injective

end ReadKey

structure Path (D K : Type) where
  dirName : D
  baseName : ReadKey K
  deriving DecidableEq

namespace Path
variable {D K : Type}

theorem toLex_injective :
    Function.Injective (fun p : Path D K => (toLex (p.dirName, p.baseName) : D ×ₗ ReadKey K)) := by
  intro p q h
  cases p
  cases q
  simpa using h

instance [LinearOrder D] [LinearOrder K] : LinearOrder (Path D K) :=
  LinearOrder.lift' _ toLex_injective

end Path

/-- The projection of a filtered read and the projected files its readers saw. -/
structure ReadFilter (P F : Type) where
  id : ℤ
  projectionHash : ℤ
  project : P
  value : List F

def ReadFilter.path {D K P F : Type} (f : ReadFilter P F) (source : Path D K) : Path D K :=
  ⟨source.dirName, .filteredReadKey source.baseName f.projectionHash f.id⟩

variable {D K P F : Type} [LinearOrder D] [LinearOrder K]

/-- `idata` is only ever looked up, set and removed by name, so that the hash map of
the source is a sorted map here. -/
structure Deps (D K P F : Type) [LinearOrder D] [LinearOrder K] where
  data : SortedMap (Path D K) (DependencyReaders D K)
  idata : SortedMap D (SortedSet (Path D K))
  filters : SortedMap (Path D K) (SortedMap ℤ (List (ReadFilter P F)))
  nextFilterID : ℤ
  compactReaders : Bool
  blockReaders : Bool

namespace Deps

def empty (compactReaders blockReaders : Bool) : Deps D K P F :=
  ⟨.empty, .empty, .empty, 0, compactReaders, blockReaders⟩

def readers (d : Deps D K P F) (path : Path D K) : List (ArrowKey D K) :=
  match d.data.maybeGet path with
  | some readers => readers.values
  | none => []

/-- Register a projection, or share one that saw the same projected files. The new
identity is drawn from a counter shared by all forks, hence an argument. -/
def addFilter [DecidableEq P] [DecidableEq F] (hash : P → ℤ) (fresh : ℤ) (d : Deps D K P F)
    (path : Path D K) (project : P) (value : List F) : Deps D K P F × Path D K :=
  let projectionHash := hash project
  let groups := (d.filters.maybeGet path).getD .empty
  let filters := (groups.maybeGet projectionHash).getD []
  match filters.find? (fun f => f.project = project ∧ f.value = value) with
  | some f => (d, f.path path)
  | none =>
    let filter : ReadFilter P F := ⟨fresh, projectionHash, project, value⟩
    ({ d with
        nextFilterID := fresh
        filters := d.filters.set path (groups.set projectionHash (filters ++ [filter])) },
      filter.path path)

/-- `none` when `source` has no such filter: `get` and `fromSome` fail. -/
def importFilter (d source : Deps D K P F) (read : Path D K) : Option (Deps D K P F) :=
  match read.baseName with
  | .filteredReadKey key projectionHash id =>
    let path : Path D K := ⟨read.dirName, key⟩
    match ((source.filters.maybeGet path).bind (·.maybeGet projectionHash)).bind
        (·.find? fun f => f.id = id) with
    | none => none
    | some filter =>
      let groups := (d.filters.maybeGet path).getD .empty
      let current := (groups.maybeGet projectionHash).getD []
      let filters :=
        if current.any fun f => decide (f.id = id) then d.filters
        else d.filters.set path (groups.set projectionHash (current ++ [filter]))
      some { d with filters := filters, nextFilterID := max d.nextFilterID id }
  | _ => some d

def iset (d : Deps D K P F) (dirName : D) (arrow : Path D K) : Deps D K P F :=
  let iset := (d.idata.maybeGet dirName).getD .empty
  { d with idata := d.idata.set dirName (iset.set arrow ()) }

def iremove (d : Deps D K P F) (dirName : D) (arrow : Path D K) : Deps D K P F :=
  let iset := ((d.idata.maybeGet dirName).getD .empty).remove arrow
  if iset.isEmpty then { d with idata := d.idata.remove dirName }
  else { d with idata := d.idata.set dirName iset }

def set (d : Deps D K P F) (path : Path D K) (arrowKey : ArrowKey D K) : Option (Deps D K P F) :=
  let set := (d.data.maybeGet path).getD (.empty d.compactReaders d.blockReaders)
  (set.set arrowKey d.blockReaders).map fun set =>
    iset { d with data := d.data.set path set } arrowKey.childName path

def removeFilter (d : Deps D K P F) (path : Path D K) (projectionHash id : ℤ) : Deps D K P F :=
  match d.filters.maybeGet path with
  | none => d
  | some groups =>
    match groups.maybeGet projectionHash with
    | none => d
    | some bucket =>
      let remaining := bucket.filter fun f => decide (f.id ≠ id)
      let groups2 :=
        if remaining.isEmpty then groups.remove projectionHash
        else groups.set projectionHash remaining
      { d with filters :=
          if groups2.isEmpty then d.filters.remove path else d.filters.set path groups2 }

/-- What `removeInternal` does once the last reader of a path is gone. -/
def forgetPath (d : Deps D K P F) (path : Path D K) : Deps D K P F :=
  let d := { d with data := d.data.remove path }
  match path.baseName with
  | .filteredReadKey source projectionHash id =>
    d.removeFilter ⟨path.dirName, source⟩ projectionHash id
  | _ => d

def removeInternal (d : Deps D K P F) (path : Path D K) (arrowKey : ArrowKey D K)
    (skipInverseRemoval : Bool) : Deps D K P F :=
  let set := (d.data.maybeGet path).getD (.empty d.compactReaders d.blockReaders)
  let set := set.remove arrowKey d.compactReaders
  let d := if set.isEmpty then d.forgetPath path else { d with data := d.data.set path set }
  if !skipInverseRemoval && !set.hasSibling arrowKey && !set.hasChild arrowKey.childName then
    d.iremove arrowKey.childName path
  else d

def remove (d : Deps D K P F) (path : Path D K) (arrowKey : ArrowKey D K) : Deps D K P F :=
  d.removeInternal path arrowKey false

/-- One path of `removeDir`; the readers are those before the loop. -/
def removeDirPath (dirName : D) (d : Deps D K P F) (path : Path D K) : Deps D K P F :=
  (d.readers path).foldl (fun d reader =>
    if reader.parentName = dirName ∨ reader.childName = dirName then
      d.removeInternal path reader (decide (reader.childName = dirName))
    else d) d

def removeDir (d : Deps D K P F) (dirName : D) : Deps D K P F :=
  let affected := (d.idata.maybeGet dirName).getD .empty
  let d := affected.keys.foldl (removeDirPath dirName) d
  { d with idata := d.idata.remove dirName }

def updateNewDeps (d : Deps D K P F) (reader : ArrowKey D K) (reads : List (Path D K)) :
    Option (Deps D K P F) :=
  reads.foldlM (fun d path => d.set path reader) d

def removeDeps (d : Deps D K P F) (reader : ArrowKey D K) (reads : List (Path D K)) :
    Deps D K P F :=
  reads.foldl (fun d path => d.remove path reader) d

/-- The merge of `replaceDeps`: `oldReads` from the current index on, `newReads` in
order. -/
def mergeDeps (reader : ArrowKey D K) (d : Deps D K P F) :
    List (Path D K) → List (Path D K) → Option (Deps D K P F)
  | oldReads, [] => some (d.removeDeps reader oldReads)
  | [], path :: newReads => (d.set path reader).bind fun d => mergeDeps reader d [] newReads
  | old :: oldReads, path :: newReads =>
    if old < path then mergeDeps reader (d.remove old reader) oldReads (path :: newReads)
    else if old = path then mergeDeps reader d oldReads newReads
    else (d.set path reader).bind fun d => mergeDeps reader d (old :: oldReads) newReads
  termination_by oldReads newReads => oldReads.length + newReads.length

/-- `incremental` is the low bit of the dependency mode. -/
def replaceDeps (d : Deps D K P F) (incremental : Bool) (reader : ArrowKey D K)
    (oldReads : List (Path D K)) (newReads : SortedSet (Path D K)) : Option (Deps D K P F) :=
  if incremental then mergeDeps reader d oldReads newReads.keys
  else
    (d.updateNewDeps reader newReads.keys).map fun d =>
      d.removeDeps reader (oldReads.filter fun path => !newReads.containsKey path)

/-- `importDeps` for one path. -/
def importDep (d source : Deps D K P F) (reader : ArrowKey D K) (path : Path D K) :
    Option (Deps D K P F) :=
  (d.importFilter source path).bind fun d => d.set path reader

end Deps
end SkipPlatform.StoreDeps
