import SkipPlatform.Dominators
import Mathlib.Tactic

set_option autoImplicit false

/-! The control-flow graph of a function, its blocks in reverse postorder and its dominator tree.
A block id is a natural number, and `BlockID::none` is `none`; arrays indexed by block ids are
functions. Loops take fuel. -/
namespace SkipPlatform.Dominator
open Dominators

abbrev BlockID := ℕ

/-- The successors of a block are the targets of its terminator, in order. -/
structure Block where
  id : BlockID
  successors : List BlockID
deriving DecidableEq

structure Function where
  blocks : List Block
deriving DecidableEq

def Function.getBlock (f : Function) (id : BlockID) : Option Block :=
  f.blocks.find? fun b => b.id = id

/-- The blocks that are being visited, the innermost first, with the successors seen of each. -/
structure Search where
  stack : List (Block × ℕ)
  pushed : BlockID → Bool
  visited : List BlockID

def Function.search (f : Function) : ℕ → Search → Option (List BlockID)
  | 0, _ => none
  | fuel + 1, s =>
    match s.stack with
    | [] => some s.visited
    | (b, successorIndex) :: stack =>
      if successorIndex = b.successors.length then
        f.search fuel { s with stack := stack, visited := s.visited ++ [b.id] }
      else do
        let child ← b.successors[successorIndex]?
        let stack := (b, successorIndex + 1) :: stack
        if s.pushed child then f.search fuel { s with stack := stack }
        else do
          let block ← f.getBlock child
          f.search fuel { s with
            stack := (block, 0) :: stack, pushed := Function.update s.pushed child true }

def Function.reversePostorder (f : Function) (fuel : ℕ) : Option (List BlockID) := do
  let entry ← f.blocks.head?
  let visited ← f.search fuel
    { stack := [(entry, 0)], pushed := Function.update (fun _ => false) entry.id true, visited := [] }
  if visited.reverse.head? = some entry.id then some visited.reverse else none

/-- The same block is not added twice to the same list; it would be the head. -/
def addPredecessor (id : BlockID) (predecessors : BlockID → List BlockID) (target : BlockID) :
    BlockID → List BlockID :=
  if (predecessors target).head? = some id then predecessors
  else Function.update predecessors target (id :: predecessors target)

def Function.computePredecessors (f : Function) (reversePostorder : List BlockID) :
    Option (BlockID → List BlockID) :=
  reversePostorder.foldlM (fun predecessors blockID => do
    let b ← f.getBlock blockID
    some (b.successors.foldl (addPredecessor b.id) predecessors)) fun _ => []

def intersectDominators (rpoIndex : BlockID → ℤ) (dom : BlockID → Option BlockID) :
    ℕ → BlockID → BlockID → Option BlockID
  | 0, _, _ => none
  | fuel + 1, b1, b2 =>
    if b1 = b2 then some b1
    else if rpoIndex b2 < rpoIndex b1 then do
      let b1 ← dom b1
      intersectDominators rpoIndex dom fuel b1 b2
    else do
      let b2 ← dom b2
      intersectDominators rpoIndex dom fuel b1 b2

def addDominator (rpoIndex : BlockID → ℤ) (dom : BlockID → Option BlockID) (fuel : ℕ)
    (newdom : Option BlockID) (p : BlockID) : Option (Option BlockID) :=
  if (dom p).isSome then
    match newdom with
    | none => some (some p)
    | some d => (intersectDominators rpoIndex dom fuel d p).map some
  else some newdom

def assignPass (predecessors : BlockID → List BlockID) (rpoIndex : BlockID → ℤ) (fuel : ℕ) :
    List BlockID → (BlockID → Option BlockID) → Bool → Option ((BlockID → Option BlockID) × Bool)
  | [], dom, changed => some (dom, changed)
  | b :: rest, dom, changed => do
      let newdom ← (predecessors b).foldlM (addDominator rpoIndex dom fuel) none
      if newdom ≠ dom b then
        assignPass predecessors rpoIndex fuel rest (Function.update dom b newdom) true
      else assignPass predecessors rpoIndex fuel rest dom changed

def assignDominators (predecessors : BlockID → List BlockID) (rpo : List BlockID)
    (rpoIndex : BlockID → ℤ) (fuel : ℕ) :
    ℕ → (BlockID → Option BlockID) → Option (BlockID → Option BlockID)
  | 0, _ => none
  | passes + 1, dom => do
      let (dom, changed) ← assignPass predecessors rpoIndex fuel rpo.tail dom false
      if changed then assignDominators predecessors rpo rpoIndex fuel passes dom else some dom

def indices (rpo : List BlockID) : BlockID → ℤ :=
  rpo.zipIdx.foldl (fun rpoIndex bi => Function.update rpoIndex bi.1 bi.2) fun _ => -1

def Function.computeDominatorTree (f : Function) (fuel : ℕ) :
    Option (BlockID → Option BlockID) := do
  let rpo ← f.reversePostorder fuel
  let entry ← rpo.head?
  let predecessors ← f.computePredecessors rpo
  let dom ← assignDominators predecessors rpo (indices rpo) fuel fuel
    (Function.update (fun _ => none) entry (some entry))
  some (Function.update dom entry none)

def addChild (tree : BlockID → Option BlockID) (children : BlockID → List BlockID)
    (childID : BlockID) : BlockID → List BlockID :=
  match tree childID with
  | some parent => Function.update children parent (childID :: children parent)
  | none => children

/-- The children of a block, the last one in reverse postorder first. -/
def computeDominatorChildren (tree : BlockID → Option BlockID) (reversePostorder : List BlockID) :
    BlockID → List BlockID := reversePostorder.foldl (addChild tree) fun _ => []

structure Function.WellFormed (f : Function) : Prop where
  some : f.blocks ≠ []
  ids : (f.blocks.map Block.id).Nodup
  targets : ∀ b ∈ f.blocks, ∀ target ∈ b.successors, target ∈ f.blocks.map Block.id

def Function.Edge (f : Function) (p x : BlockID) : Prop :=
  ∃ b, f.getBlock p = some b ∧ x ∈ b.successors

theorem Function.getBlock_id {f : Function} {id : BlockID} {b : Block}
    (h : f.getBlock id = some b) : b.id = id ∧ b ∈ f.blocks := by
  have found := List.find?_some h
  exact ⟨of_decide_eq_true found, List.mem_of_find?_eq_some h⟩

theorem Function.getBlock_of_mem {f : Function} (ids : (f.blocks.map Block.id).Nodup) {b : Block}
    (h : b ∈ f.blocks) : f.getBlock b.id = some b := by
  cases found : f.getBlock b.id with
  | none =>
    have none := List.find?_eq_none.mp found b h
    exact absurd (decide_eq_true rfl) none
  | some b' =>
    obtain ⟨same, member⟩ := getBlock_id found
    rw [List.inj_on_of_nodup_map ids member h same]

theorem Function.WellFormed.getBlock {f : Function} (h : f.WellFormed) {id : BlockID}
    (member : id ∈ f.blocks.map Block.id) : ∃ b, f.getBlock id = Option.some b := by
  obtain ⟨b, inside, rfl⟩ := List.mem_map.mp member
  exact ⟨b, f.getBlock_of_mem h.ids inside⟩

theorem Function.WellFormed.edge {f : Function} (h : f.WellFormed) {p x : BlockID}
    (edge : f.Edge p x) : ∃ b, f.getBlock x = Option.some b := by
  obtain ⟨b, found, member⟩ := edge
  exact h.getBlock (h.targets b (f.getBlock_id found).2 x member)

end SkipPlatform.Dominator
