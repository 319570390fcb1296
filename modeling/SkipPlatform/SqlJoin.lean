import SkipPlatform.SqlValue

set_option autoImplicit false

/-! Merge joins. A row of either side is written under its join value to a column or a row of a
grid of shards, whose size is taken from statistics that were recorded for the row when a group
was skewed; a reducer then joins the rows of each shard. -/
namespace SkipPlatform

inductive JoinKind where
  | left
  | right
  | full
  | inner
  | cross
  | comma
deriving DecidableEq

namespace JoinKind

def keepsLeft : JoinKind → Bool
  | .left => true
  | .full => true
  | _ => false

def keepsRight : JoinKind → Bool
  | .right => true
  | .full => true
  | _ => false

end JoinKind

structure ShardStats where
  tick : ℕ
  left : ℕ
  right : ℕ
deriving DecidableEq

structure LeftShardedFile (V : Type) where
  leftShardID : ℕ
  rightShard : ℕ
  value : RowValues V
deriving DecidableEq

structure RightShardedFile (V : Type) where
  leftShard : ℕ
  rightShardID : ℕ
  value : RowValues V
deriving DecidableEq

/-- The column of the key is left out, as the comparison leaves it out. -/
structure ProjKey (V : Type) where
  value : Option V
  leftShard : ℕ
  rightShard : ℕ
deriving DecidableEq

inductive JoinOutput (A B : Type) where
  | pair (left : A) (right : B)
  | onlyLeft (left : A)
  | onlyRight (right : B)
deriving DecidableEq

def joinRows {A B : Type} (joinKind : JoinKind) (leftRows : List A) (rightRows : List B) :
    List (JoinOutput A B) :=
  (leftRows.flatMap fun left =>
    (if rightRows.isEmpty && joinKind.keepsLeft then [.onlyLeft left] else []) ++
      rightRows.map fun right => .pair left right) ++
  if joinKind.keepsRight && leftRows.isEmpty then rightRows.map .onlyRight else []

def pow2Fuel : ℕ → ℕ → ℕ
  | 0, _ => 2
  | fuel + 1, n => if n ≤ 1 then 2 else 2 * pow2Fuel fuel (n / 2)

def pow2 (n : ℕ) : ℕ := pow2Fuel n n

def computeShardSizes : Option ShardStats → ℕ × ℕ
  | none => (1, 1)
  | some stats =>
    (if stats.right = 0 ∨ stats.left ≤ stats.right then 1 else stats.left / stats.right,
      if stats.left = 0 ∨ stats.right ≤ stats.left then 1 else stats.right / stats.left)

theorem computeShardSizes_pos (stats : Option ShardStats) :
    0 < (computeShardSizes stats).1 ∧ 0 < (computeShardSizes stats).2 := by
  cases stats with
  | none => decide
  | some stats =>
    simp only [computeShardSizes]
    refine ⟨?_, ?_⟩
    · split_ifs with h
      · decide
      · exact Nat.div_pos (by omega) (by omega)
    · split_ifs with h
      · decide
      · exact Nat.div_pos (by omega) (by omega)

section

variable {V : Type}

def normalizeValueIter (rows : List (RowValues V)) (shardStats : Option ShardStats) :
    Option (RowValues V) × Option ShardStats :=
  match rows with
  | [] => (none, none)
  | v :: _ =>
    let repeatCount := (rows.map (·.repeatCount)).sum
    if repeatCount = 0 then (none, none) else (some { v with repeatCount }, shardStats)

/-- `sym` is the number drawn from `genSym`. -/
def projLeft (shardStats : Option ShardStats) (row : RowValues V) (sym : ℕ) : LeftShardedFile V :=
  let sizes := computeShardSizes shardStats
  ⟨sym % sizes.1, sizes.2, row⟩

def projRight (shardStats : Option ShardStats) (row : RowValues V) (sym : ℕ) :
    RightShardedFile V :=
  let sizes := computeShardSizes shardStats
  ⟨sizes.1, sym % sizes.2, row⟩

def projLeftFun (rows : List (RowValues V)) (shardStats : Option ShardStats) (sym : ℕ) :
    Option (LeftShardedFile V) :=
  let normalized := normalizeValueIter rows shardStats
  normalized.1.map fun row => projLeft normalized.2 row sym

def projRightFun (rows : List (RowValues V)) (shardStats : Option ShardStats) (sym : ℕ) :
    Option (RightShardedFile V) :=
  let normalized := normalizeValueIter rows shardStats
  normalized.1.map fun row => projRight normalized.2 row sym

end

/-- The columns that are joined, and what tells the keys of the two tables apart in the table of
statistics. -/
structure SubMerge where
  leftColNbr : ℕ
  rightColNbr : ℕ
  leftKinds : ℕ
  rightKinds : ℕ
  joinKind : JoinKind

abbrev ShardKey (V : Type) := ℕ × List (Option V)

structure JoinState (V : Type) where
  tick : ℕ
  left : List (LeftShardedFile V)
  right : List (RightShardedFile V)
  shards : ShardKey V → Option ShardStats

namespace SubMerge

variable {V : Type} (j : SubMerge)

def leftValue (l : LeftShardedFile V) : Option V := l.value.values.getD j.leftColNbr none

def rightValue (r : RightShardedFile V) : Option V := r.value.values.getD j.rightColNbr none

def leftKey (l : LeftShardedFile V) : ShardKey V := (j.leftKinds, l.value.values)

def rightKey (r : RightShardedFile V) : ShardKey V := (j.rightKinds, r.value.values)

def leftKeys (l : LeftShardedFile V) : List (ProjKey V) :=
  (List.range l.rightShard).map fun i => ⟨j.leftValue l, l.leftShardID, i⟩

def rightKeys (r : RightShardedFile V) : List (ProjKey V) :=
  (List.range r.leftShard).map fun i => ⟨j.rightValue r, i, r.rightShardID⟩

variable [DecidableEq V]

def leftGroup (s : JoinState V) (k : ProjKey V) : List (LeftShardedFile V) :=
  s.left.filter fun l => k ∈ j.leftKeys l

def rightGroup (s : JoinState V) (k : ProjKey V) : List (RightShardedFile V) :=
  s.right.filter fun r => k ∈ j.rightKeys r

def projKeys (s : JoinState V) : List (ProjKey V) :=
  (s.left.flatMap j.leftKeys ++ s.right.flatMap j.rightKeys).dedup

def outputs (s : JoinState V) : List (JoinOutput (LeftShardedFile V) (RightShardedFile V)) :=
  (j.projKeys s).flatMap fun k => joinRows j.joinKind (j.leftGroup s k) (j.rightGroup s k)

def skewed (leftSize rightSize : ℕ) : Bool :=
  leftSize / max 1 rightSize > 128 || rightSize / max 1 leftSize > 128

def getStats (s : JoinState V) (keys : List (ShardKey V)) : Option ShardStats :=
  keys.findSome? s.shards

/-- The statistics that the reducer of a shard records, for the rows it has. -/
def newStats (s : JoinState V) (k : ProjKey V) : Option (ShardStats × List (ShardKey V)) :=
  let leftRows := (j.leftGroup s k).map j.leftKey
  let rightRows := (j.rightGroup s k).map j.rightKey
  if skewed leftRows.length rightRows.length then
    let oldStats := (getStats s leftRows).or (getStats s rightRows)
    let stats := oldStats.getD ⟨s.tick, pow2 leftRows.length, pow2 rightRows.length⟩
    if oldStats = none ∨ stats.tick < s.tick then
      some (⟨s.tick, stats.left * 2, stats.right * 2⟩, leftRows ++ rightRows)
    else none
  else none

def reduce (s : JoinState V) (k : ProjKey V) : JoinState V :=
  match j.newStats s k with
  | none => s
  | some (stats, keys) => { s with shards := fun key => if key ∈ keys then some stats else s.shards key }

def writeLeft (s : JoinState V) (values : List (Option V)) (rows : List (RowValues V)) (sym : ℕ) :
    JoinState V :=
  { s with
    left := s.left.filter (·.value.values ≠ values) ++
      (projLeftFun (rows.filter (·.values = values)) (s.shards (j.leftKinds, values)) sym).toList }

def writeRight (s : JoinState V) (values : List (Option V)) (rows : List (RowValues V)) (sym : ℕ) :
    JoinState V :=
  { s with
    right := s.right.filter (·.value.values ≠ values) ++
      (projRightFun (rows.filter (·.values = values)) (s.shards (j.rightKinds, values)) sym).toList }

def projectLeft (s : JoinState V) (values : List (Option V)) (sym : ℕ) : JoinState V :=
  { s with
    left := s.left.map fun l =>
      if l.value.values = values then projLeft (s.shards (j.leftKey l)) l.value sym else l }

def projectRight (s : JoinState V) (values : List (Option V)) (sym : ℕ) : JoinState V :=
  { s with
    right := s.right.map fun r =>
      if r.value.values = values then projRight (s.shards (j.rightKey r)) r.value sym else r }

/-- A history of the joined tables. The shards are reduced and the rows projected in any order. -/
inductive Action (V : Type) where
  | writeLeft (values : List (Option V)) (rows : List (RowValues V)) (sym : ℕ)
  | writeRight (values : List (Option V)) (rows : List (RowValues V)) (sym : ℕ)
  | reduce (k : ProjKey V)
  | projectLeft (values : List (Option V)) (sym : ℕ)
  | projectRight (values : List (Option V)) (sym : ℕ)
  | nextTick

def step (s : JoinState V) : Action V → JoinState V
  | .writeLeft values rows sym => j.writeLeft s values rows sym
  | .writeRight values rows sym => j.writeRight s values rows sym
  | .reduce k => j.reduce s k
  | .projectLeft values sym => j.projectLeft s values sym
  | .projectRight values sym => j.projectRight s values sym
  | .nextTick => { s with tick := s.tick + 1 }

def run (s : JoinState V) (actions : List (Action V)) : JoinState V := actions.foldl j.step s

end SubMerge

def JoinState.start {V : Type} (tick : ℕ) (left right : List (RowValues V)) : JoinState V where
  tick := tick
  left := left.map fun row => projLeft none row 0
  right := right.map fun row => projRight none row 0
  shards _ := none

end SkipPlatform
