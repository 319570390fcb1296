import Mathlib.Data.List.Basic
import Mathlib.Tactic.Linarith
import SkipPlatform.SortedMap

set_option autoImplicit false
set_option linter.unusedSectionVars false

/-! Reader sets of the dependency index. A path's readers are kept as a short
array, as a tree, or as a tree of blocks; the three are translated from
`DependencyReaders` and `ReaderBlockSet`, with arrays as lists. -/
namespace SkipPlatform.StoreReaders

/-- The read of a third directory while row `key` of `parentName` is mapped into
`childName`. -/
structure ArrowKey (D K : Type) where
  parentName : D
  childName : D
  key : K
  deriving DecidableEq

namespace ArrowKey
variable {D K : Type}

def toLex3 (a : ArrowKey D K) : D ×ₗ D ×ₗ K := toLex (a.parentName, toLex (a.childName, a.key))

theorem toLex3_injective : Function.Injective (toLex3 (D := D) (K := K)) := by
  rintro ⟨p, c, k⟩ ⟨p', c', k'⟩ h
  simpa [toLex3] using h

variable [LinearOrder D] [LinearOrder K]

instance : LinearOrder (ArrowKey D K) := LinearOrder.lift' toLex3 toLex3_injective

def arrow (a : ArrowKey D K) : D ×ₗ D := toLex (a.parentName, a.childName)

theorem arrow_mono {a b : ArrowKey D K} (h : a ≤ b) : a.arrow ≤ b.arrow := by
  change toLex3 a ≤ toLex3 b at h
  simp only [toLex3, Prod.Lex.toLex_le_toLex, arrow] at h ⊢
  rcases h with h | ⟨h, h' | ⟨h', _⟩⟩
  · exact Or.inl h
  · exact Or.inr ⟨h, h'.le⟩
  · exact Or.inr ⟨h, h'.le⟩

theorem arrow_eq_iff {a b : ArrowKey D K} :
    a.arrow = b.arrow ↔ a.parentName = b.parentName ∧ a.childName = b.childName := by
  simp [arrow]

end ArrowKey

variable {D K : Type} [LinearOrder D] [LinearOrder K]

abbrev Block (D K : Type) := List (ArrowKey D K)
abbrev Entry (D K : Type) := ArrowKey D K × Block D K

/-- The bisection of `lowerBound`; the bound keeps every probe inside the block. -/
def lowerBoundFrom (values : Block D K) (key : ArrowKey D K) (lo hi : ℕ)
    (h : hi ≤ values.length) : ℕ :=
  if hlt : lo < hi then
    if values.get ⟨(lo + hi) / 2, by omega⟩ < key then
      lowerBoundFrom values key ((lo + hi) / 2 + 1) hi h
    else lowerBoundFrom values key lo ((lo + hi) / 2) (by omega)
  else lo
termination_by hi - lo

def lowerBound (values : Block D K) (key : ArrowKey D K) : ℕ :=
  lowerBoundFrom values key 0 values.length le_rfl

structure ReaderBlockSet (D K : Type) [LinearOrder D] [LinearOrder K] where
  blocks : SortedMap (ArrowKey D K) (Block D K)
  count : ℕ

/-- `blocks[values[0]] = values`, for a block that is not empty. -/
def indexBlock (blocks : SortedMap (ArrowKey D K) (Block D K)) :
    Block D K → SortedMap (ArrowKey D K) (Block D K)
  | [] => blocks
  | v :: vs => blocks.set v (v :: vs)

namespace ReaderBlockSet

def fromSorted : Block D K → Option (ReaderBlockSet D K)
  | [] => none
  | v :: vs => some ⟨.singleton v (v :: vs), (v :: vs).length⟩

def values (b : ReaderBlockSet D K) : List (ArrowKey D K) := b.blocks.values.flatten

def blockForLoop (key : ArrowKey D K) :
    SortedTree (ArrowKey D K) (Block D K) → Option (Entry D K) → Option (Entry D K)
  | .nil, previous => previous
  | .node _ _ k v l r, previous =>
    if key < k then blockForLoop key l previous else blockForLoop key r (some (k, v))

def blockFor (b : ReaderBlockSet D K) (key : ArrowKey D K) : Option (Entry D K) :=
  match blockForLoop key b.blocks.tree none with
  | some e => some e
  | none => b.blocks.minimum

def neighborLoop (key : ArrowKey D K) (before : Bool) :
    SortedTree (ArrowKey D K) (Block D K) → Option (Entry D K) → Option (Entry D K)
  | .nil, found => found
  | .node _ _ k v l r, found =>
    if (if before then decide (k < key) else decide (key < k)) then
      if before then neighborLoop key before r (some (k, v))
      else neighborLoop key before l (some (k, v))
    else if before then neighborLoop key before l found else neighborLoop key before r found

def neighbor (b : ReaderBlockSet D K) (key : ArrowKey D K) (before : Bool) :
    Option (Entry D K) := neighborLoop key before b.blocks.tree none

/-- `none` is the failing `fromSome` on a set without blocks. -/
def set (b : ReaderBlockSet D K) (key : ArrowKey D K) : Option (ReaderBlockSet D K) :=
  match b.blockFor key with
  | none => none
  | some (first, values) =>
    let index := lowerBound values key
    if values[index]? = some key then some b
    else
      let updated := values.insertIdx index key
      let blocks := if updated.head? ≠ some first then b.blocks.remove first else b.blocks
      let blocks :=
        if updated.length ≤ 64 then indexBlock blocks updated
        else indexBlock (indexBlock blocks (updated.take 32)) (updated.drop 32)
      some ⟨blocks, b.count + 1⟩

/-- Join a small block with a neighbour and index the result as one or two blocks. -/
def rebalance (result : ReaderBlockSet D K) (u : ArrowKey D K) (updated : Block D K) :
    ReaderBlockSet D K :=
  match (result.neighbor u true).or (result.neighbor u false) with
  | none => result
  | some (otherFirst, other) =>
    let combined := if otherFirst < u then other ++ updated else updated ++ other
    let blocks := (result.blocks.remove u).remove otherFirst
    let blocks :=
      if combined.length ≤ 64 then indexBlock blocks combined
      else
        let middle := combined.length / 2
        indexBlock (indexBlock blocks (combined.take middle)) (combined.drop middle)
    ⟨blocks, result.count⟩

def remove (b : ReaderBlockSet D K) (key : ArrowKey D K) : ReaderBlockSet D K :=
  match b.blockFor key with
  | none => b
  | some (first, values) =>
    let index := lowerBound values key
    if values[index]? ≠ some key then b
    else
      let updated := values.eraseIdx index
      let blocks := if updated.head? ≠ some first then b.blocks.remove first else b.blocks
      let result : ReaderBlockSet D K := ⟨indexBlock blocks updated, b.count - 1⟩
      match updated with
      | [] => result
      | u :: _ =>
        if updated.length < 16 ∧ result.count > 8 then result.rebalance u updated else result

def hasSiblingLoop (arrow : ArrowKey D K) :
    SortedTree (ArrowKey D K) (Block D K) → Block D K → Bool
  | .nil, previous => previous.any (fun reader => decide (arrow.arrow = reader.arrow))
  | .node _ _ k v l r, previous =>
    match compare arrow.arrow k.arrow with
    | .eq => true
    | .lt => hasSiblingLoop arrow l previous
    | .gt => hasSiblingLoop arrow r v

def hasSibling (b : ReaderBlockSet D K) (arrow : ArrowKey D K) : Bool :=
  hasSiblingLoop arrow b.blocks.tree []

end ReaderBlockSet

inductive DependencyReaders (D K : Type) [LinearOrder D] [LinearOrder K] where
  | readerArray (items : List (ArrowKey D K))
  | readerTree (tree : SortedMap (ArrowKey D K) Unit)
  | readerBlocks (blocks : ReaderBlockSet D K)

namespace DependencyReaders

def empty (compact blocks : Bool) : DependencyReaders D K :=
  if compact || blocks then readerArray [] else readerTree .empty

def size : DependencyReaders D K → ℕ
  | readerArray values => values.length
  | readerTree tree => tree.size
  | readerBlocks blocks => blocks.count

def isEmpty (r : DependencyReaders D K) : Bool := r.size == 0

def values : DependencyReaders D K → List (ArrowKey D K)
  | readerArray values => values
  | readerTree tree => tree.keys
  | readerBlocks blocks => blocks.values

/-- The linear scan of a short array for the first element not below `key`. -/
def arrayIndex (key : ArrowKey D K) : List (ArrowKey D K) → ℕ
  | [] => 0
  | v :: vs => if v < key then arrayIndex key vs + 1 else 0

def set (r : DependencyReaders D K) (key : ArrowKey D K) (blockReaders : Bool) :
    Option (DependencyReaders D K) :=
  match r with
  | readerTree tree => some (readerTree (tree.set key ()))
  | readerBlocks blocks => (blocks.set key).map readerBlocks
  | readerArray values =>
    let index := arrayIndex key values
    if values[index]? = some key then some r
    else if values.length < 8 then some (readerArray (values.insertIdx index key))
    else if blockReaders then
      ((ReaderBlockSet.fromSorted values).bind (·.set key)).map readerBlocks
    else
      let tree := SortedMap.createFromIterator (values.map fun value => (value, ()))
      some (readerTree (tree.set key ()))

def remove (r : DependencyReaders D K) (key : ArrowKey D K) (compact : Bool) :
    DependencyReaders D K :=
  match r with
  | readerBlocks blocks =>
    let updated := blocks.remove key
    if updated.count ≤ 8 then readerArray updated.values else readerBlocks updated
  | readerArray values => readerArray (values.filter fun value => decide (value ≠ key))
  | readerTree tree =>
    let updated := tree.remove key
    if compact = true ∧ updated.size ≤ 8 then readerArray updated.keys else readerTree updated

def hasChild (r : DependencyReaders D K) (child : D) : Bool :=
  r.values.any fun reader => decide (reader.childName = child)

def treeHasSibling (arrow : ArrowKey D K) : SortedTree (ArrowKey D K) Unit → Bool
  | .nil => false
  | .node _ _ k _ l r =>
    match compare arrow.arrow k.arrow with
    | .eq => true
    | .lt => treeHasSibling arrow l
    | .gt => treeHasSibling arrow r

def hasSibling (r : DependencyReaders D K) (arrow : ArrowKey D K) : Bool :=
  match r with
  | readerBlocks blocks => blocks.hasSibling arrow
  | readerArray values => values.any fun reader => decide (arrow.arrow = reader.arrow)
  | readerTree tree => treeHasSibling arrow tree.tree

end DependencyReaders
end SkipPlatform.StoreReaders
