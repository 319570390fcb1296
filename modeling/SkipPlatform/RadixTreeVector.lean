import SkipPlatform.RawSlots
import Mathlib.Data.Int.Bitwise
import Mathlib.Logic.Function.Basic

set_option autoImplicit false

/-! Persistent vectors: a tree of leaves of 32 items and a tail. A leaf and a tail are arrays that
versions may share; they are numbered in a heap. -/
namespace SkipPlatform.Persistent
open RawSlots
variable {T : Type}

def branchFactor : ℕ := 32

inductive Exn where
  | outOfBounds
  | invariantViolation
  deriving DecidableEq

/-- `none` is an access to memory outside of an array or to a slot without a value. -/
abbrev Outcome (α : Type) := Option (Except Exn α)

abbrev Heap (T : Type) := List (List (Option T))

/-- `null` is a child that is `None()`. A leaf has the number of its array. -/
inductive Node where
  | null
  | leaf (elements : ℕ)
  | internal (elements : Fin 32 → Node)

/-- The index within the children of a node, for an index of the vector. A shift is given by the
number of its levels of five bits. -/
def child (index : ℤ) (shift : ℕ) : Fin 32 :=
  ⟨(index / 32 ^ shift % 32).toNat, by
    have nonneg := Int.emod_nonneg (index / 32 ^ shift) (by decide : (32 : ℤ) ≠ 0)
    have lt := Int.emod_lt_of_pos (index / 32 ^ shift) (by decide : (0 : ℤ) < 32)
    omega⟩

def leafChild (index : ℤ) : Fin 32 := child index 0

namespace Node

def isNull : Node → Bool
  | null => true
  | _ => false

def branchLadder : ℕ → ℕ → Node
  | 0, tail => leaf tail
  | shift + 1, tail => internal (Function.update (fun _ => null) 0 (branchLadder shift tail))

def pushTail : Node → ℕ → ℤ → ℕ → Except Exn Node
  | null, _, _, _ => .error .invariantViolation
  | leaf _, _, _, _ => .error .invariantViolation
  | internal elements, shift, index, tail =>
    let child := child index shift
    let shift := shift - 1
    let tailNode :=
      if shift = 0 then .ok (leaf tail)
      else if (elements child).isNull then .ok (branchLadder shift tail)
      else pushTail (elements child) shift index tail
    tailNode.map fun tailNode => internal (Function.update elements child tailNode)

/-- The node without its rightmost leaf, and the array of this leaf. -/
def popTail : Node → ℕ → ℤ → Except Exn (Node × ℕ)
  | null, _, _ => .error .invariantViolation
  | leaf elements, _, _ => .ok (null, elements)
  | internal elements, shift, index =>
    let child := child index shift
    (popTail (elements child) (shift - 1) index).map fun (nextNode, tail) =>
      if child = 0 ∧ nextNode.isNull then (nextNode, tail)
      else (internal (Function.update elements child nextNode), tail)

def get (heap : Heap T) : Node → ℕ → ℤ → Outcome T
  | null, _, _ => some (.error .invariantViolation)
  | leaf elements, _, index =>
    ((heap[elements]?).bind fun elements => readSlot elements (leafChild index)).map .ok
  | internal elements, shift, index => get heap (elements (child index shift)) (shift - 1) index

def set (heap : Heap T) : Node → ℕ → ℤ → T → Outcome (Heap T × Node)
  | null, _, _, _ => some (.error .invariantViolation)
  | leaf elements, _, index, value =>
    ((heap[elements]?).bind fun elements => writeSlot elements (leafChild index) value).map
      fun nextElements => .ok (heap ++ [nextElements], leaf heap.length)
  | internal elements, shift, index, value =>
    let child := child index shift
    (set heap (elements child) (shift - 1) index value).map fun outcome =>
      outcome.map fun (heap, nextChildNode) =>
        (heap, internal (Function.update elements child nextChildNode))

def andThen (yielded more : Outcome (List T)) : Outcome (List T) :=
  match yielded with
  | some (.ok items) => more.map fun outcome => outcome.map fun more => items ++ more
  | other => other

/-- `iterateNode`: the items that the iterator yields before it ends or throws. -/
def iterate (heap : Heap T) (rootSize : ℤ) : Node → ℕ → Outcome (List T)
  | null, _ => some (.error .invariantViolation)
  | leaf elements, _ => ((heap[elements]?).bind fun elements => elements.mapM id).map .ok
  | internal elements, shift =>
    (List.range (child rootSize shift)).foldl
      (fun yielded i =>
        andThen yielded (iterate heap rootSize (elements (Fin.ofNat 32 i)) (shift - 1)))
      (some (.ok []))

end Node

/-- Sizes are plain numbers: those of the code are far from their bounds in any memory. -/
structure RadixTreeVector where
  rootSize : ℕ
  shift : ℕ
  root : Node
  tailSize : ℕ
  tail : ℕ

namespace RadixTreeVector

def arrayMake : List (Option T) := .replicate branchFactor none

def size (v : RadixTreeVector) : ℕ := v.rootSize + v.tailSize

def mcreate (heap : Heap T) : Heap T × RadixTreeVector :=
  (heap ++ [arrayMake], ⟨0, 0, .null, 0, heap.length⟩)

def clone (heap : Heap T) (v : RadixTreeVector) : Outcome (Heap T × RadixTreeVector) :=
  heap[v.tail]?.map fun tail => .ok (heap ++ [tail], { v with tail := heap.length })

/-- The index after the subtraction of the size of the root, in 64 bits. -/
def tailIndex (v : RadixTreeVector) (index : ℤ) : ℤ := (index - v.rootSize).bmod (2 ^ 64)

def get (heap : Heap T) (v : RadixTreeVector) (index : Int64) : Outcome T :=
  if 0 ≤ index.toInt ∧ index.toInt < v.rootSize then v.root.get heap v.shift index.toInt
  else if v.tailIndex index.toInt < v.tailSize then
    if 0 ≤ v.tailIndex index.toInt then
      ((heap[v.tail]?).bind fun tail => readSlot tail (v.tailIndex index.toInt).toNat).map .ok
    else none
  else some (.error .outOfBounds)

def set (heap : Heap T) (v : RadixTreeVector) (index : Int64) (value : T) :
    Outcome (Heap T × RadixTreeVector) :=
  if index.toInt < v.rootSize then
    (v.root.set heap v.shift index.toInt value).map fun outcome =>
      outcome.map fun (heap, root) => (heap, { v with root := root })
  else if v.tailIndex index.toInt < v.tailSize then
    if 0 ≤ v.tailIndex index.toInt then
      ((heap[v.tail]?).bind fun tail =>
        writeSlot tail (v.tailIndex index.toInt).toNat value).map
          fun tail => .ok (heap.set v.tail tail, v)
    else none
  else some (.error .outOfBounds)

def pushTail (v : RadixTreeVector) : Except Exn RadixTreeVector :=
  if v.root.isNull then .ok { v with root := .leaf v.tail }
  else if v.rootSize + branchFactor ≤ branchFactor * 32 ^ v.shift then
    (v.root.pushTail v.shift v.rootSize v.tail).map fun root => { v with root := root }
  else
    let elements := Function.update (Function.update (fun _ => Node.null) 0 v.root) 1
      (Node.branchLadder v.shift v.tail)
    .ok { v with root := .internal elements, shift := v.shift + 1 }

def push (heap : Heap T) (v : RadixTreeVector) (value : T) : Outcome (Heap T × RadixTreeVector) :=
  ((heap[v.tail]?).bind fun tail => writeSlot tail v.tailSize value).map fun tail =>
    let heap := heap.set v.tail tail
    if v.tailSize + 1 = branchFactor then
      v.pushTail.map fun v =>
        (heap ++ [arrayMake],
          { v with rootSize := v.rootSize + branchFactor, tailSize := 0, tail := heap.length })
    else .ok (heap, { v with tailSize := v.tailSize + 1 })

def pushAll (heap : Heap T) (v : RadixTreeVector) : List T → Outcome (Heap T × RadixTreeVector)
  | [] => some (.ok (heap, v))
  | value :: items =>
    match v.push heap value with
    | some (.ok (heap, v)) => pushAll heap v items
    | other => other

def mcreateFromItems (heap : Heap T) (items : List T) : Outcome (Heap T × RadixTreeVector) :=
  pushAll (mcreate heap).1 (mcreate heap).2 items

def flattened : Node → Except Exn Node
  | .internal elements => .ok (elements 0)
  | _ => .error .invariantViolation

def nextRoot (v : RadixTreeVector) (nextRoot : Node) : Except Exn RadixTreeVector :=
  let nextRootSize := v.rootSize - branchFactor
  if ¬ nextRoot.isNull ∧ nextRootSize ≤ branchFactor * 32 ^ (v.shift - 1) then
    (flattened nextRoot).map fun root =>
      { v with root := root, rootSize := nextRootSize, shift := v.shift - 1 }
  else .ok { v with root := nextRoot, rootSize := nextRootSize }

def takeSlot (tail : List (Option T)) (i : ℕ) : Option (T × List (Option T)) :=
  (readSlot tail i).map fun value => (value, tail.set i none)

def popTail (heap : Heap T) (v : RadixTreeVector) : Outcome (T × Heap T × RadixTreeVector) :=
  match v.root.popTail v.shift (v.rootSize - branchFactor : ℤ) with
  | .error exn => some (.error exn)
  | .ok (root, leaf) =>
    match v.nextRoot root with
    | .error exn => some (.error exn)
    | .ok v =>
      ((heap[leaf]?).bind fun elements => takeSlot elements (branchFactor - 1)).map
        fun (value, tail) =>
          .ok (value, heap ++ [tail],
            { v with tail := heap.length, tailSize := branchFactor - 1 })

def pop (heap : Heap T) (v : RadixTreeVector) : Outcome (T × Heap T × RadixTreeVector) :=
  if v.tailSize > 0 then
    ((heap[v.tail]?).bind fun tail => takeSlot tail (v.tailSize - 1)).map fun (value, tail) =>
      .ok (value, heap.set v.tail tail, { v with tailSize := v.tailSize - 1 })
  else if v.rootSize > 0 then v.popTail heap
  else some (.error .outOfBounds)

/-- The items of the iterator `values`. -/
def values (heap : Heap T) (v : RadixTreeVector) : Outcome (List T) :=
  let ofRoot := if v.root.isNull then some (.ok []) else v.root.iterate heap v.rootSize v.shift
  Node.andThen ofRoot
    (((heap[v.tail]?).bind fun tail => (List.range v.tailSize).mapM (readSlot tail)).map .ok)

end RadixTreeVector
end SkipPlatform.Persistent
