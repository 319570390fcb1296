import Mathlib.Data.Multiset.UnionInter
import Mathlib.Data.List.Sort
import SkipPlatform.SqlValue

set_option autoImplicit false

/-! Compound selects. Every operand writes its rows to one directory with its place among the
operands and a kind that depends on the operators to come, and one pass over the entries of a row
decides how often the row is in the result. -/
namespace SkipPlatform

inductive CompoundOperator where
  | union
  | unionAll
  | except
  | intersect
deriving DecidableEq

inductive QUnionKind where
  | single
  | all
  | intersect
deriving DecidableEq

inductive QueryKind where
  | except
  | union (kind : QUnionKind)
  | intersect (nextIsIntersect : Bool)
deriving DecidableEq

namespace QueryKind

def compile : CompoundOperator → QueryKind
  | .union => .union .single
  | .unionAll => .union .all
  | .except => .except
  | .intersect => .intersect false

def isIntersect : QueryKind → Bool
  | .intersect _ => true
  | _ => false

def makeQueryKind (queryKind : QueryKind) (rest : List QueryKind) : QueryKind :=
  let later := rest.any isIntersect
  let isUnionAll := decide (queryKind = .union .all) && rest.all (· = .union .all)
  if isUnionAll then .union .all
  else
    match queryKind with
    | .union kind =>
      if later then .union .intersect
      else
        match kind with
        | .all => .union .single
        | k => .union k
    | .intersect _ => .intersect later
    | .except => .except

def restKinds : List QueryKind → List QueryKind
  | [] => []
  | qKind :: rest => makeQueryKind qKind rest :: restKinds rest

def makeParents (rest : List QueryKind) : List QueryKind :=
  let first :=
    match rest with
    | .union .all :: _ => makeQueryKind (.union .all) rest
    | _ => makeQueryKind (.union .single) rest
  first :: restKinds rest

end QueryKind

structure RowKind (V : Type) where
  order : ℕ
  kind : QueryKind
  row : RowValues V

structure UnionState where
  count : ℕ
  intersectOrder : ℤ
deriving DecidableEq

namespace UnionState

def start : UnionState := ⟨0, -1⟩

def step (order : ℕ) (kind : QueryKind) (s : UnionState) : UnionState :=
  match kind with
  | .union .intersect =>
    if s.intersectOrder < order then { s with intersectOrder := order } else s
  | .union .single => { s with count := 1 }
  | .union .all => { s with count := s.count + 1 }
  | .intersect nextIsIntersect =>
    if s.intersectOrder + 1 = order then
      if nextIsIntersect then ⟨0, order⟩ else { s with count := 1 }
    else ⟨0, -1⟩
  | .except => { s with count := 0 }

end UnionState

section Reducer

variable {V : Type}

/-- By the place of the operand, and by the entry's own place among those. -/
def IndexLe (x y : RowKind V × ℕ) : Prop :=
  x.1.order < y.1.order ∨ x.1.order = y.1.order ∧ x.2 ≤ y.2

instance : DecidableRel (IndexLe (V := V)) := fun _ _ => inferInstanceAs (Decidable (_ ∨ _))

instance : Std.Total (IndexLe (V := V)) where
  total x y := by
    unfold IndexLe
    omega

instance : IsTrans (RowKind V × ℕ) IndexLe where
  trans x y z := by
    unfold IndexLe
    omega

def sortedRows (unsortedRows : List (RowKind V)) : List (RowKind V) :=
  (unsortedRows.zipIdx.insertionSort IndexLe).map Prod.fst

theorem sortedRows_perm (rows : List (RowKind V)) : (sortedRows rows).Perm rows := by
  have hperm := (List.perm_insertionSort IndexLe rows.zipIdx).map Prod.fst
  rwa [List.zipIdx_map_fst] at hperm

theorem sortedRows_pairwise (rows : List (RowKind V)) :
    (sortedRows rows).Pairwise fun x y => x.order ≤ y.order := by
  refine List.pairwise_map.mpr ((List.pairwise_insertionSort IndexLe rows.zipIdx).imp ?_)
  intro x y hxy
  rcases hxy with hlt | ⟨heq, _⟩
  · exact hlt.le
  · exact heq.le

def countRows (rows : List (RowKind V)) : ℕ :=
  (rows.foldl (fun s row => UnionState.step row.order row.kind s) UnionState.start).count

def initUnion (unsortedRows : List (RowKind V)) : List (RowValues V) :=
  match sortedRows unsortedRows with
  | [] => []
  | first :: others =>
    let count := countRows (first :: others)
    if count = 0 then []
    else if count = 1 then [first.row]
    else List.replicate count first.row

end Reducer

/-- What the operands of a compound select have written, an operand by its place. -/
structure CompoundSelect (V : Type) where
  rest : List CompoundOperator
  written : List (ℕ × RowValues V)
  rest_ne_nil : rest ≠ []
  order_le : ∀ w ∈ written, w.1 ≤ rest.length
  repeatCount_pos : ∀ w ∈ written, 0 < w.2.repeatCount

namespace CompoundSelect

variable {V : Type} [DecidableEq V]

def kinds (q : CompoundSelect V) : List QueryKind :=
  QueryKind.makeParents (q.rest.map QueryKind.compile)

def files (q : CompoundSelect V) (x : List (Option V)) : List (RowKind V) :=
  (q.written.filter (·.2.values = x)).map fun w => ⟨w.1, q.kinds.getD w.1 .except, w.2⟩

def keys (q : CompoundSelect V) : List (List (Option V)) := (q.written.map (·.2.values)).dedup

def result (q : CompoundSelect V) : Multiset (List (Option V)) :=
  q.keys.flatMap fun x => (initUnion (q.files x)).flatMap RowValues.copies

end CompoundSelect

namespace CompoundOperator

variable {R : Type} [DecidableEq R]

def apply : CompoundOperator → Multiset R → Multiset R → Multiset R
  | .union, a, b => (a + b).dedup
  | .unionAll, a, b => a + b
  | .except, a, b => a.dedup.filter (· ∉ b)
  | .intersect, a, b => (a ∩ b).dedup

end CompoundOperator

namespace CompoundSelect

variable {V : Type} [DecidableEq V]

def operand (q : CompoundSelect V) (i : ℕ) : Multiset (List (Option V)) :=
  (q.written.filter (·.1 = i)).flatMap fun w => w.2.copies

def applyFrom (q : CompoundSelect V) :
    ℕ → List CompoundOperator → Multiset (List (Option V)) → Multiset (List (Option V))
  | _, [], acc => acc
  | i, op :: ops, acc => q.applyFrom (i + 1) ops (op.apply acc (q.operand i))

def leftToRight (q : CompoundSelect V) : Multiset (List (Option V)) :=
  q.applyFrom 1 q.rest (q.operand 0)

end CompoundSelect
end SkipPlatform
