import SkipPlatform.SqlJoin

set_option autoImplicit false

/-! How a query over several tables is compiled: the ON conditions join the WHERE condition, and
equalities of columns are taken out of it again, one after the other, as merge joins of two
tables. -/
namespace SkipPlatform

/-- The value of an expression. It is undefined as long as the expression reads a table that has
no row yet. -/
inductive AValue (α : Type) where
  | aUndefined
  | aNull
  | aDef (x : α)
deriving DecidableEq

namespace AValue

def flatMap {α β : Type} (x : AValue α) (f : α → AValue β) : AValue β :=
  match x with
  | aUndefined => aUndefined
  | aNull => aNull
  | aDef x => f x

def kept : AValue ℤ → Bool
  | aUndefined => true
  | aNull => false
  | aDef n => n ≠ 0

end AValue

def btoi (b : Bool) : ℤ := if b then 1 else 0

/-- Any condition on the columns that have a name, which has a value once all of them have. -/
structure Condition (I V : Type) where
  eval : (I → AValue V) → AValue ℤ
  total : ∀ env : I → AValue V, (∀ name, env name ≠ .aUndefined) → eval env ≠ .aUndefined

/-- Conditions as they are read. The two names of an equality are columns of the same type. -/
inductive Expr (I V : Type) where
  | vInt (n : ℤ)
  | eq (name1 name2 : I)
  | and (e1 e2 : Expr I V)
  | on (kind : JoinKind) (e : Expr I V)
  | other (c : Condition I V)

namespace Expr

variable {I V : Type}

def plain : Expr I V → Bool
  | .and e1 e2 => e1.plain && e2.plain
  | .on _ _ => false
  | _ => true

def isOne : Expr I V → Bool
  | .vInt n => n = 1
  | _ => false

@[grind] def evalCIExpr [DecidableEq V] (env : I → AValue V) : Expr I V → AValue ℤ
  | .vInt n => .aDef n
  | .eq name1 name2 =>
    (env name1).flatMap fun n1 => (env name2).flatMap fun n2 => .aDef (btoi (n1 = n2))
  | .and e1 e2 =>
    match e1.evalCIExpr env with
    | .aNull => .aDef 0
    | .aUndefined =>
      match (e2.evalCIExpr env).flatMap fun n2 => .aDef (btoi (n2 ≠ 0)) with
      | .aNull => .aDef 0
      | .aUndefined => .aUndefined
      | .aDef n => if n = 0 then .aDef 0 else .aUndefined
    | .aDef n =>
      if n = 0 then .aDef n else (e2.evalCIExpr env).flatMap fun n2 => .aDef (btoi (n2 ≠ 0))
  | .on _ e => e.evalCIExpr env
  | .other c => c.eval env

end Expr

inductive SelectFrom (S I V : Type) where
  | source (s : S)
  | join (kind : JoinKind) (lhs rhs : SelectFrom S I V) (onClause : Option (Expr I V))

def mergeConds {I V : Type} : Option (Expr I V) → Option (Expr I V) → Option (Expr I V)
  | none, x => x
  | x, none => x
  | some c1, some c2 => some (.and c1 c2)

def expandJoins {S I V : Type} :
    SelectFrom S I V → Except String (List S × Option (Expr I V))
  | .source s => .ok ([s], none)
  | .join kind lhs rhs onClause => do
    let expandedLhs ← expandJoins lhs
    let expandedRhs ← expandJoins rhs
    let where_ := mergeConds expandedLhs.2 expandedRhs.2
    match kind with
    | .comma | .cross => .ok (expandedLhs.1 ++ expandedRhs.1, where_)
    | _ =>
      match onClause with
      | none => .error "Expected ON after JOIN"
      | some onClause =>
        match where_ with
        | none => .ok (expandedLhs.1 ++ expandedRhs.1, some (.on kind onClause))
        | some cond => .ok (expandedLhs.1 ++ expandedRhs.1, some (.and (.on kind onClause) cond))

structure Column where
  tableNbr : ℕ
  colNbr : ℕ
deriving DecidableEq

/-- Two columns whose values are the same; the table of the left one comes first. -/
structure EqJoin where
  left : Column
  right : Column
deriving DecidableEq

structure JTable (V : Type) where
  schemaSize : ℕ
  rows : List (RowValues V)

section FindJoin

variable {I V : Type}

/-- The first equality of columns of two different tables that are still there, and the condition
without it. -/
def findJoin (live : ℕ → Bool) (subst : I → Column) :
    Expr I V → Except String (Expr I V × JoinKind × Option EqJoin)
  | .on jk e => do
    let (e, _, eqJoin) ← findJoin live subst e
    match jk with
    | .left | .right | .full =>
      if eqJoin = none then .error "Invalid ON expression for JOIN" else .ok (e, jk, eqJoin)
    | _ => .ok (e, jk, eqJoin)
  | .and e1 e2 => do
    let (e1', jk1, join1) ← findJoin live subst e1
    match join1 with
    | none =>
      let (e2', jk2, join2) ← findJoin live subst e2
      match join2 with
      | none => .ok (.and e1 e2, .inner, none)
      | some _ => .ok (if e2'.isOne then e1' else .and e1' e2', jk2, join2)
    | some _ => .ok (if e1'.isOne then e2 else .and e1' e2, jk1, join1)
  | .eq name1 name2 =>
    let col1 := subst name1
    let col2 := subst name2
    if live col1.tableNbr && live col2.tableNbr && col1.tableNbr ≠ col2.tableNbr then
      if col2.tableNbr < col1.tableNbr then .ok (.vInt 1, .inner, some ⟨col2, col1⟩)
      else .ok (.vInt 1, .inner, some ⟨col1, col2⟩)
    else .ok (.eq name1 name2, .inner, none)
  | .vInt n => .ok (.vInt n, .inner, none)
  | .other c => .ok (.other c, .inner, none)

end FindJoin

/-- The row that a shard writes, for `kinds` columns. -/
def JoinOutput.row {V : Type} (kinds : ℕ) :
    JoinOutput (LeftShardedFile V) (RightShardedFile V) → RowValues V
  | .pair l r => ⟨l.value.values ++ r.value.values, l.value.repeatCount * r.value.repeatCount⟩
  | .onlyLeft l =>
    ⟨l.value.values ++ List.replicate (kinds - l.value.values.length) none, l.value.repeatCount⟩
  | .onlyRight r =>
    ⟨List.replicate (kinds - r.value.values.length) none ++ r.value.values, r.value.repeatCount⟩

/-- What happens to the shards of a join before its rows are read: the reducer records statistics
and rows are projected again. -/
def SubMerge.Action.reshards {V : Type} : SubMerge.Action V → Bool
  | .reduce _ => true
  | .projectLeft _ _ => true
  | .projectRight _ _ => true
  | _ => false

/-- The state in which a join is read, by the one in which its rows were written. -/
structure Resharding (V : Type) [DecidableEq V] where
  settle : SubMerge → JoinState V → JoinState V
  reached : ∀ j s, ∃ actions : List (SubMerge.Action V),
    (∀ action ∈ actions, action.reshards = true) ∧ settle j s = j.run s actions

structure Merge (I V : Type) where
  tables : List (Option (JTable V))
  subst : I → Column
  cond : Expr I V

namespace Merge

variable {I V : Type}

def live (m : Merge I V) (tableNbr : ℕ) : Bool := (m.tables.getD tableNbr none).isSome

variable [DecidableEq V]

def subMerge (join : EqJoin) (joinKind : JoinKind) (left right : JTable V) : SubMerge where
  leftColNbr := join.left.colNbr
  rightColNbr := join.right.colNbr
  leftKinds := left.schemaSize
  rightKinds := right.schemaSize
  joinKind := joinKind

def joinTables (resharding : Resharding V) (join : EqJoin) (joinKind : JoinKind)
    (left right : JTable V) : JTable V :=
  let j := subMerge join joinKind left right
  { schemaSize := left.schemaSize + right.schemaSize
    rows := (j.outputs (resharding.settle j (.start 0 left.rows right.rows))).map
      (JoinOutput.row (left.schemaSize + right.schemaSize)) }

/-- The right table goes into the place of the left one, with its columns after those of the left
one. -/
def merge (resharding : Resharding V) (m : Merge I V) (join : EqJoin) (joinKind : JoinKind) :
    Except String (Merge I V) :=
  match m.tables.getD join.left.tableNbr none, m.tables.getD join.right.tableNbr none with
  | some left, some right => .ok
    { m with
      tables := (m.tables.set join.right.tableNbr none).set join.left.tableNbr
        (some (joinTables resharding join joinKind left right))
      subst := fun name =>
        if (m.subst name).tableNbr = join.right.tableNbr then
          ⟨join.left.tableNbr, left.schemaSize + (m.subst name).colNbr⟩
        else m.subst name }
  | _, _ => .error "Expected Some"

def move (m : Merge I V) : Merge I V :=
  { m with
    tables := m.tables.filter (·.isSome)
    subst := fun name =>
      if m.live (m.subst name).tableNbr then
        ⟨(m.tables.take (m.subst name).tableNbr).countP (·.isSome), (m.subst name).colNbr⟩
      else m.subst name }

/-- Every round takes a table away, so that there are at most as many rounds as tables. -/
def compileMerge (resharding : Resharding V) : ℕ → Merge I V → Except String (Merge I V)
  | 0, m => .ok m.move
  | fuel + 1, m => do
    let (cond, joinKind, joinOpt) ← findJoin m.live m.subst m.cond
    match joinOpt with
    | none => .ok { m with cond := cond }.move
    | some join => compileMerge resharding fuel (← merge resharding { m with cond := cond } join joinKind)

end Merge

section Select

variable {I V : Type}

def getFrom (subst : I → Column) (entries : List (List (Option V))) (name : I) : AValue V :=
  match entries[(subst name).tableNbr]? with
  | none => .aUndefined
  | some row =>
    match row.getD (subst name).colNbr none with
    | none => .aNull
    | some v => .aDef v

variable [DecidableEq V]

def evalSelectTables (subst : I → Column) (cond : Expr I V) :
    List (JTable V) → List (List (Option V)) → ℕ → List (List (List (Option V)) × ℕ)
  | [], entries, repeatCount => [(entries, repeatCount)]
  | table :: remainingTables, entries, repeatCount =>
    table.rows.flatMap fun row =>
      if (cond.evalCIExpr (getFrom subst (entries ++ [row.values]))).kept then
        evalSelectTables subst cond remainingTables (entries ++ [row.values])
          (repeatCount * row.repeatCount)
      else []

/-- The rows of all tables that a query reads, before anything is selected of them. -/
def selectRows (resharding : Resharding V) (from_ : SelectFrom (JTable V) I V) (subst : I → Column)
    (where_ : Option (Expr I V)) : Except String (List (RowValues V)) := do
  let (tables, cond) ← expandJoins from_
  let m : Merge I V := ⟨tables.map some, subst, (mergeConds cond where_).getD (.vInt 1)⟩
  let m ← Merge.compileMerge resharding m.tables.length m
  return (evalSelectTables m.subst m.cond (m.tables.filterMap id) [] 1).map fun row =>
    ⟨row.1.flatten, row.2⟩

end Select
end SkipPlatform
