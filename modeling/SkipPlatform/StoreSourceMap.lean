import Mathlib.Data.List.Sort
import Mathlib.Order.WithBot
import SkipPlatform.SortedSearch
import SkipPlatform.StoreDeps

set_option autoImplicit false

/-! The map from a source row to what its mapper wrote, as it is built when a directory
is created or purged. Sources that are rows of a SQL table may be stored without their
keys: the shape of the writes is guessed from the rows, and keys are rebuilt on reading. -/
namespace SkipPlatform.StoreSourceMap
open SortedSearch

structure RowValues (V : Type) where
  values : List (Option V)
  repeatCount : ℕ

namespace RowValues
variable {V : Type}

def toLexPair (r : RowValues V) : List (WithBot V) ×ₗ ℕ := toLex (r.values, r.repeatCount)

theorem toLexPair_injective : Function.Injective (toLexPair (V := V)) := by
  intro r s h
  have hp : (r.values, r.repeatCount) = (s.values, s.repeatCount) := toLex.injective h
  cases r
  cases s
  simpa using hp

instance [LinearOrder V] : LinearOrder (RowValues V) := LinearOrder.lift' toLexPair toLexPair_injective

end RowValues

def compareValue {V : Type} [LinearOrder V] : Option V → Option V → Ordering
  | none, none => .eq
  | none, some _ => .lt
  | some _, none => .gt
  | some a, some b => compare a b

inductive KeyView (V N : Type) where
  | rowKey (row : RowValues V) (kinds : N)
  | indexProjKey (row : RowValues V) (columnIndices : List ℕ)
  | projKey (value : Option V) (colNbr leftShard rightShard : ℕ)
  | other

/-- The keys of directories: their comparison, and the three classes of SQL keys. -/
class Key (K : Type) where
  Val : Type
  Kinds : Type
  valOrder : LinearOrder Val
  kindsEq : DecidableEq Kinds
  compare : K → K → Ordering
  compare_symm : ∀ a b, compare a b = .eq → compare b a = .eq
  view : K → KeyView Val Kinds
  rowKey : RowValues Val → Kinds → K
  indexProjKey : RowValues Val → List ℕ → K
  projKey : Option Val → ℕ → ℕ → ℕ → K
  view_rowKey : ∀ row kinds, view (rowKey row kinds) = .rowKey row kinds

instance {K : Type} [Key K] : LinearOrder (Key.Val K) := Key.valOrder
instance {K : Type} [Key K] : DecidableEq (Key.Kinds K) := Key.kindsEq

structure Source (D K : Type) where
  dirName : D
  baseName : K

/-- What one run of a mapper left behind: the keys it wrote, the directories it made
and the paths it read. -/
inductive MInfo (D K : Type) where
  | empty
  | single (key : K)
  | full (keys : List K) (newDirs : List D) (reads : List (StoreDeps.Path D K))

namespace MInfo
variable {D K : Type}

def getKeys : MInfo D K → List K
  | empty => []
  | single key => [key]
  | full keys _ _ => keys

def getNewDirs : MInfo D K → List D
  | full _ newDirs _ => newDirs
  | _ => []

def getReads : MInfo D K → List (StoreDeps.Path D K)
  | full _ _ reads => reads
  | _ => []

def create (keys : List K) (newDirs : List D) (reads : List (StoreDeps.Path D K)) : MInfo D K :=
  match keys, newDirs, reads with
  | [], [], [] => empty
  | [key], [], [] => single key
  | _, _, _ => full keys newDirs reads

@[simp] theorem getKeys_create (keys : List K) (newDirs : List D)
    (reads : List (StoreDeps.Path D K)) : (create keys newDirs reads).getKeys = keys := by
  unfold create
  split <;> rfl

@[simp] theorem getNewDirs_create (keys : List K) (newDirs : List D)
    (reads : List (StoreDeps.Path D K)) : (create keys newDirs reads).getNewDirs = newDirs := by
  unfold create
  split <;> rfl

@[simp] theorem getReads_create (keys : List K) (newDirs : List D)
    (reads : List (StoreDeps.Path D K)) : (create keys newDirs reads).getReads = reads := by
  unfold create
  split <;> rfl

end MInfo

variable {D K : Type} [LinearOrder D] [Key K]

def Source.compare (p q : Source D K) : Ordering :=
  (Ord.compare p.dirName q.dirName).then (Key.compare p.baseName q.baseName)

abbrev Row (D K : Type) := Source D K × MInfo D K

def sortBy (rows : List (Row D K)) : List (Row D K) :=
  rows.mergeSort fun a b => (a.1.compare b.1).isLE

def assertUnique {α : Type} (same : α → α → Bool) : List α → Bool
  | a :: b :: rest => !same a b && assertUnique same (b :: rest)
  | _ => true

inductive FSMMInfoType (K : Type) [Key K] where
  | fullRow
  | indexProjection (columnIndices : List ℕ)
  | projection (col leftShard rightShard : ℕ)
  | extension (col : ℕ) (kinds : Key.Kinds K)

structure FSMMetadata (D K : Type) [Key K] where
  dir : D
  rowKinds : Key.Kinds K
  minfoType : FSMMInfoType K

inductive FixedSourceMap (D K : Type) [LinearOrder D] [Key K] where
  | fsm (data : List (Row D K))
  | identity (dir : D) (keys : List K)
  | compact (metadata : FSMMetadata D K) (data : List (RowValues (Key.Val K)))

/-- The plain map, a sorted vector of rows. `none` is a violated invariant. -/
def FSMImpl.create (data : List (Row D K)) (allowDuplicates : Bool) :
    Option (FixedSourceMap D K) :=
  if allowDuplicates || assertUnique (fun a b => a.1.compare b.1 == .eq) (sortBy data) then
    some (.fsm (sortBy data))
  else none

def identityRows (dir : D) (data : List (Row D K)) : Bool :=
  data.all fun row =>
    decide (row.1.dirName = dir) &&
      match row.2 with
      | .single key => Key.compare key row.1.baseName == .eq
      | _ => false

def IdentityFSMImpl.create (data : List (Row D K)) (allowDuplicates : Bool) :
    Option (FixedSourceMap D K) :=
  match data with
  | [] => FSMImpl.create data allowDuplicates
  | first :: _ =>
    if identityRows first.1.dirName data then
      if allowDuplicates || assertUnique (fun a b => a.1.compare b.1 == .eq) (sortBy data) then
        some (.identity first.1.dirName ((sortBy data).map fun row => row.1.baseName))
      else none
    else FSMImpl.create data allowDuplicates

structure Seen (D K : Type) [Key K] where
  dir : Option D
  rowKinds : Option (Key.Kinds K)
  minfoType : Option (FSMMInfoType K)

/-- The shape of one more row of writes. `none` is the early `return None()`; a mismatch
of two projections instead forgets the shape seen so far. -/
def seeMInfo (seen : Option (FSMMInfoType K)) (rowKey : K) (pathRow : RowValues (Key.Val K))
    (minfo : MInfo D K) : Option (Option (FSMMInfoType K)) :=
  match minfo with
  | .single key =>
    match Key.view key with
    | .rowKey minfoRow minfoKinds =>
      if Key.compare key rowKey = .eq then
        match seen with
        | none => some (some .fullRow)
        | some .fullRow => some seen
        | _ => none
      else
        match pathRow.values with
        | [pathVal] =>
          match seen with
          | none =>
            (minfoRow.values.findIdx? fun v => decide (pathVal = v)).map fun col =>
              some (.extension col minfoKinds)
          | some (.extension col extKinds) =>
            if minfoRow.values[col]? = some pathVal ∧ extKinds = minfoKinds then some seen
            else none
          | _ => none
        | _ => none
    | .indexProjKey minfoRow columnIndices =>
      if minfoRow ≠ pathRow then none
      else
        match seen with
        | none => some (some (.indexProjection columnIndices))
        | some (.indexProjection seenColumnIndices) =>
          if columnIndices = seenColumnIndices then some seen else some none
        | _ => some none
    | .projKey _ col left right =>
      match seen with
      | none => some (some (.projection col left right))
      | some (.projection pCol pLeft pRight) =>
        if col = pCol ∧ left = pLeft ∧ right = pRight then some seen else some none
      | _ => some none
    | .other => none
  | _ => none

def seeRow (seen : Seen D K) (row : Row D K) : Option (Seen D K) :=
  if seen.dir.all fun dir => decide (dir = row.1.dirName) then
    match Key.view row.1.baseName with
    | .rowKey pathRow rowKinds =>
      if seen.rowKinds.all fun kinds => decide (rowKinds = kinds) then
        (seeMInfo seen.minfoType row.1.baseName pathRow row.2).map fun minfoType =>
          ⟨some row.1.dirName, some rowKinds, minfoType⟩
      else none
    | _ => none
  else none

def getMetadata (data : List (Row D K)) : Option (FSMMetadata D K) :=
  match data.foldlM seeRow ⟨none, none, none⟩ with
  | some ⟨some dir, some rowKinds, some minfoType⟩ => some ⟨dir, rowKinds, minfoType⟩
  | _ => none

def stripRow (minfoType : FSMMInfoType K) (row : Row D K) : Option (RowValues (Key.Val K)) :=
  match minfoType with
  | .extension _ _ =>
    match row.2 with
    | .single key =>
      match Key.view key with
      | .rowKey values _ => some values
      | _ => none
    | _ => none
  | _ =>
    match Key.view row.1.baseName with
    | .rowKey values _ => some values
    | _ => none

def sortRows {V : Type} [LinearOrder V] (rows : List (RowValues V)) : List (RowValues V) :=
  rows.mergeSort fun a b => decide (a ≤ b)

def CompactFSMImpl.createWithMetadata (data : List (Row D K)) (metadata : FSMMetadata D K)
    (allowDuplicates : Bool) : Option (FixedSourceMap D K) :=
  (data.mapM (stripRow metadata.minfoType)).bind fun strippedData =>
    if allowDuplicates || assertUnique (fun a b => decide (a = b)) (sortRows strippedData) then
      some (.compact metadata (sortRows strippedData))
    else none

/-- `findFirstBy` with a probe that can read out of bounds. -/
def findFirstByM (delta : ℕ → Option Ordering) (l n : ℕ) : Option ℕ :=
  if l < n then
    (delta (l + (n - 1 - l) / 2)).bind fun order =>
      if order = .gt then findFirstByM delta (l + (n - 1 - l) / 2 + 1) n
      else findFirstByM delta l (l + (n - 1 - l) / 2)
  else some l
termination_by n - l

namespace FixedSourceMap

/-- The outer `none` is an access out of bounds. -/
def extendKey (data : List (RowValues (Key.Val K))) (col : ℕ) (kinds : Key.Kinds K)
    (row : RowValues (Key.Val K)) : Option (Option (MInfo D K)) :=
  row.values[0]?.bind fun value =>
    (findFirstByM (fun i => (data[i]?.bind fun r => r.values[col]?).map (compareValue value))
      0 data.length).map fun idx => data[idx]?.map fun r => .single (Key.rowKey r kinds)

def reconstructMInfo (metadata : FSMMetadata D K) (data : List (RowValues (Key.Val K)))
    (rowKey : K) (row : RowValues (Key.Val K)) : Option (MInfo D K) :=
  match metadata.minfoType with
  | .fullRow => some (.single rowKey)
  | .indexProjection columnIndices => some (.single (Key.indexProjKey row columnIndices))
  | .projection col leftShard rightShard =>
    row.values[col]?.map fun value => .single (Key.projKey value col leftShard rightShard)
  | .extension col kinds => (extendKey data col kinds row).bind id

/-- The outer `none` is a failing read, the inner one an absent source. -/
def maybeGet (m : FixedSourceMap D K) (source : Source D K) : Option (Option (MInfo D K)) :=
  match m with
  | fsm data =>
    some (data[findFirst data fun row => source.compare row.1]?.bind fun row =>
      if row.1.compare source = .eq then some row.2 else none)
  | identity dir keys =>
    if source.dirName ≠ dir then some none
    else
      some (keys[findFirst keys fun key => Key.compare source.baseName key]?.bind fun key =>
        if Key.compare key source.baseName = .eq then some (.single key) else none)
  | compact metadata data =>
    match Key.view source.baseName with
    | .rowKey row _ =>
      match metadata.minfoType with
      | .extension col kinds => extendKey data col kinds row
      | _ =>
        if data[findFirst data fun r => Ord.compare row r]? = some row then
          (reconstructMInfo metadata data source.baseName row).map some
        else some none
    | _ => some none

def reconstructKVPair (metadata : FSMMetadata D K) (data : List (RowValues (Key.Val K)))
    (row : RowValues (Key.Val K)) : Option (Row D K) :=
  let rowKey := Key.rowKey row metadata.rowKinds
  (reconstructMInfo metadata data rowKey row).map fun minfo => (⟨metadata.dir, rowKey⟩, minfo)

def items (m : FixedSourceMap D K) : Option (List (Row D K)) :=
  match m with
  | fsm data => some data
  | identity dir keys => some (keys.map fun key => (⟨dir, key⟩, .single key))
  | compact metadata data => data.mapM (reconstructKVPair metadata data)

def size (m : FixedSourceMap D K) : ℕ :=
  match m with
  | fsm data => data.length
  | identity _ keys => keys.length
  | compact _ data => data.length

def create (data : List (Row D K)) (allowDuplicates : Bool) : Option (FixedSourceMap D K) :=
  match getMetadata data with
  | some metadata => CompactFSMImpl.createWithMetadata data metadata allowDuplicates
  | none => IdentityFSMImpl.create data allowDuplicates

end FixedSourceMap
end SkipPlatform.StoreSourceMap
