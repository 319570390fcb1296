import Mathlib.Algebra.Order.Ring.Nat
import SkipPlatform.SqlLike

set_option autoImplicit false

/-! Expressions of a compiled query and their evaluation on the rows that are bound so far. -/
namespace SkipPlatform.SqlExpr

/-- The value of an expression, undefined as long as it reads a table that has no row yet. -/
inductive AValue (α : Type) where
  | aUndef
  | aNull
  | aDef (x : α)
deriving DecidableEq

namespace AValue

def flatMap {α β : Type} (x : AValue α) (f : α → Option (AValue β)) : Option (AValue β) :=
  match x with
  | aUndef => some aUndef
  | aNull => some aNull
  | aDef x => f x

def isNull {α : Type} : AValue α → Bool
  | aNull => true
  | _ => false

end AValue

open AValue

def btoi (b : Bool) : ℤ := if b then 1 else 0

structure Types where
  float : Type
  json : Type
  type : Type

inductive Kind where
  | int
  | float
  | string
  | json
  | type
deriving DecidableEq

abbrev Val (V : Types) : Kind → Type
  | .int => ℤ
  | .float => V.float
  | .string => String
  | .json => V.json
  | .type => V.type

inductive CValue (V : Types) where
  | cInt (n : ℤ)
  | cFloat (x : V.float)
  | cString (s : String)
  | cJSON (j : V.json)
  | cType (t : V.type)

abbrev Row (V : Types) := List (Option (CValue V))

/-- The rows of the tables with their repetitions, how JSON is read, and a value that is drawn
anew, as sequence numbers and identifiers are, which may be another one for other rows. -/
structure Db (V : Types) (D : Type) where
  rows : D → List (Row V)
  decodeJSON : String → Option V.json
  toType : V.json → V.type
  fresh : (k : Kind) → List (List (Row V)) → Val V k

def noTables {D : Type} : Db ⟨Unit, Unit, Unit⟩ D where
  rows := fun _ => []
  decodeJSON := fun _ => none
  toType := fun _ => ()
  fresh := fun k _ =>
    match k with
    | .int => (0 : ℤ)
    | .float => ()
    | .string => ""
    | .json => ()
    | .type => ()

structure Frame (V : Types) (D : Type) where
  entries : List (Row V)
  tables : List D

/-- The frame of a query, then the frames of the queries around it. -/
abbrev ExprEvaluator (V : Types) (D : Type) := List (Frame V D)

mutual

/-- `unary` and `binary` are the operators that have a value only for values of their operands;
an operator throws where its function is `none`. Comparisons evaluate both operands first. -/
inductive CExpr (V : Types) (D : Type) : Kind → Type where
  | cNull {k : Kind} : CExpr V D k
  | cLiteral {k : Kind} (v : Val V k) : CExpr V D k
  | cISize (tableNbr : ℕ) : CExpr V D .int
  | cGetFrom {k : Kind} (tableNbr n : ℕ) : CExpr V D k
  | cFresh {k : Kind} : CExpr V D k
  | cUp {k : Kind} (e : CExpr V D k) : CExpr V D k
  | unary {k l : Kind} (f : Val V k → Option (AValue (Val V l))) (e : CExpr V D k) : CExpr V D l
  | binary {k l m : Kind} (f : Val V k → Val V l → Option (AValue (Val V m)))
      (e1 : CExpr V D k) (e2 : CExpr V D l) : CExpr V D m
  | cCompare {k : Kind} (bop : Val V k → Val V k → Bool) (e1 e2 : CExpr V D k) : CExpr V D .int
  | cStrftime (f : String → String → List String → Option String)
      (sformat stime : CExpr V D .string) (smodifiers : CExprs V D .string) : CExpr V D .string
  | cNot (e : CExpr V D .int) : CExpr V D .int
  | cOn (e : CExpr V D .int) : CExpr V D .int
  | cIf {k : Kind} (conde : CExpr V D .int) (e1 e2 : CExpr V D k) : CExpr V D k
  | cOr (e1 e2 : CExpr V D .int) : CExpr V D .int
  | cAnd (e1 e2 : CExpr V D .int) : CExpr V D .int
  | cIsNull {k : Kind} (e : CExpr V D k) : CExpr V D .int
  | cCoalesce {k : Kind} (el : CExprs V D k) : CExpr V D k
  | cNullIf {k : Kind} (eq : Val V k → Val V k → Bool) (e1 e2 : CExpr V D k) : CExpr V D k
  | cIBetween (negated : Bool) (e1 e2 e3 : CExpr V D .int) : CExpr V D .int
  | cIn {k : Kind} (eq : Val V k → Val V k → Bool) (vExpr : CExpr V D k) (set : CExprs V D k) :
      CExpr V D .int
  | cInQuery {k : Kind} (found : Val V k → List (Row V) → Bool) (vExpr : CExpr V D k)
      (query : CSelect V D) : CExpr V D .int
  | cExists (select : CSelect V D) : CExpr V D .int
  | cQuery {k : Kind} (select : CSelect V D) : CExpr V D k

inductive CExprs (V : Types) (D : Type) : Kind → Type where
  | nil {k : Kind} : CExprs V D k
  | cons {k : Kind} (e : CExpr V D k) (es : CExprs V D k) : CExprs V D k

/-- Expressions of any type, `cGNull` first where there is one. -/
inductive CGExprs (V : Types) (D : Type) : Type where
  | nil : CGExprs V D
  | cGNull (es : CGExprs V D) : CGExprs V D
  | cons {k : Kind} (e : CExpr V D k) (es : CGExprs V D) : CGExprs V D

/-- Queries inside of expressions. `finish` and `reduce` are what becomes of the rows that a
query writes: the reducer of its directory, DISTINCT, GROUP BY, ORDER BY and LIMIT; `empty` is
the row of a global aggregate without data, and `effects` are its checks. -/
inductive CSelect (V : Types) (D : Type) : Type where
  | simple (tables : List D) (condition : CExpr V D .int) (params : CGExprs V D)
      (effects : CExprs V D .int) (finish : List (Row V) → List (Row V)) : CSelect V D
  | aggr (tables : List D) (condition : CExpr V D .int) (aggrs : CGExprs V D)
      (reduce : List (Row V) → List (Row V)) (having : CExpr V D .int)
      (params : CGExprs V D) (effects : CExprs V D .int) (empty : Option (Row V))
      (finish : List (Row V) → List (Row V)) : CSelect V D
  | compound (combine : List (Row V) → List (Row V) → List (Row V))
      (select rest : CSelect V D) : CSelect V D

end

section Operators

variable {V : Types} {D : Type}

def toInt64 (n : ℤ) : ℤ := n.bmod (2 ^ 64)

def cAdd (e1 e2 : CExpr V D .int) : CExpr V D .int :=
  .binary (fun n1 n2 : ℤ => some (aDef (toInt64 (n1 + n2)))) e1 e2

def cSub (e1 e2 : CExpr V D .int) : CExpr V D .int :=
  .binary (fun n1 n2 : ℤ => some (aDef (toInt64 (n1 - n2)))) e1 e2

def cMul (e1 e2 : CExpr V D .int) : CExpr V D .int :=
  .binary (fun n1 n2 : ℤ => some (aDef (toInt64 (n1 * n2)))) e1 e2

def cDiv (e1 e2 : CExpr V D .int) : CExpr V D .int :=
  .binary (fun n1 n2 : ℤ =>
    if n2 = 0 then some aNull else some (aDef (toInt64 (n1.tdiv n2)))) e1 e2

def cMod (e1 e2 : CExpr V D .int) : CExpr V D .int :=
  .binary (fun n1 n2 : ℤ => if n2 = 0 then none else some (aDef (n1.tmod n2))) e1 e2

def cIAbs (n : CExpr V D .int) : CExpr V D .int :=
  .unary (fun x : ℤ => some (aDef (if x < 0 then toInt64 (-x) else x))) n

def cILte (e1 e2 : CExpr V D .int) : CExpr V D .int := .cCompare (fun n1 n2 : ℤ => n1 ≤ n2) e1 e2

def cILt (e1 e2 : CExpr V D .int) : CExpr V D .int := .cCompare (fun n1 n2 : ℤ => n1 < n2) e1 e2

def cIGte (e1 e2 : CExpr V D .int) : CExpr V D .int := .cCompare (fun n1 n2 : ℤ => n2 ≤ n1) e1 e2

def cIGt (e1 e2 : CExpr V D .int) : CExpr V D .int := .cCompare (fun n1 n2 : ℤ => n2 < n1) e1 e2

def cIDiff (e1 e2 : CExpr V D .int) : CExpr V D .int := .cCompare (fun n1 n2 : ℤ => n1 != n2) e1 e2

def cSLike (e1 : CExpr V D .string) (pattern : SqlLike.Pattern) : CExpr V D .int :=
  .unary (fun text : String => some (aDef (btoi (SqlLike.matching text.toList pattern)))) e1

def cSConcat (e1 e2 : CExpr V D .string) : CExpr V D .string :=
  .binary (fun n1 n2 : String => some (aDef (n1 ++ n2))) e1 e2

def cBetween {k : Kind} (lte : Val V k → Val V k → Bool) (e1 e2 e3 : CExpr V D k) :
    CExpr V D .int :=
  .binary (fun n1 n2 : ℤ => some (aDef (btoi (n1 ≠ 0 ∧ n2 ≠ 0))))
    (.cCompare lte e2 e1) (.cCompare lte e1 e3)

def cNotBetween {k : Kind} (lte : Val V k → Val V k → Bool) (e1 e2 e3 : CExpr V D k) :
    CExpr V D .int :=
  .binary (fun n1 n2 : ℤ => some (aDef (btoi (n1 = 0 ∨ n2 = 0))))
    (.cCompare lte e2 e1) (.cCompare lte e1 e3)

end Operators

section Evaluation

variable {V : Types} {D : Type}

def ofCell (db : Db V D) : (k : Kind) → CValue V → Option (Val V k)
  | .int, .cInt n => some n
  | .float, .cFloat x => some x
  | .string, .cString s => some s
  | .json, .cJSON j => some j
  | .json, .cString s => db.decodeJSON s
  | .type, .cType t => some t
  | .type, .cJSON j => some (db.toType j)
  | .type, .cString s => (db.decodeJSON s).map db.toType
  | _, _ => none

def ofQuery (db : Db V D) : (k : Kind) → CValue V → Option (Val V k)
  | .int, .cInt n => some n
  | .float, .cFloat x => some x
  | .string, .cString s => some s
  | .json, .cJSON j => some j
  | .type, .cType t => some t
  | .type, .cJSON j => some (db.toType j)
  | _, _ => none

def toCValue : (k : Kind) → Val V k → CValue V
  | .int, n => .cInt n
  | .float, x => .cFloat x
  | .string, s => .cString s
  | .json, j => .cJSON j
  | .type, t => .cType t

def getFrom (db : Db V D) (k : Kind) (entries : List (Row V)) (tableNbr n : ℕ) :
    Option (AValue (Val V k)) :=
  match entries[tableNbr]? with
  | none => some aUndef
  | some row =>
    match row[n]? with
    | none => none
    | some none => some aNull
    | some (some v) => (ofCell db k v).map aDef

def notOf : AValue ℤ → Option (AValue ℤ)
  | aUndef => some aUndef
  | aNull => some aNull
  | aDef n => some (aDef (if n = 0 then 1 else 0))

def isNullOf {α : Type} : AValue α → Option (AValue ℤ)
  | aUndef => some aUndef
  | aNull => some (aDef 1)
  | aDef _ => some (aDef 0)

def ifOf {α : Type} (cond : AValue ℤ) (e1 e2 : Option (AValue α)) : Option (AValue α) :=
  match cond with
  | aUndef => some aUndef
  | aNull => e2
  | aDef n => if n ≠ 0 then e1 else e2

def truthOf (e : Option (AValue ℤ)) : Option (AValue ℤ) :=
  e.bind fun v => v.flatMap fun n => some (aDef (btoi (n ≠ 0)))

def orOf (e1 : AValue ℤ) (e2 : Option (AValue ℤ)) : Option (AValue ℤ) :=
  match e1 with
  | aNull => truthOf e2
  | aUndef =>
    (truthOf e2).map fun v =>
      match v with
      | aDef n => if n = 0 then aUndef else aDef n
      | _ => aUndef
  | aDef n => if n = 0 then truthOf e2 else some (aDef n)

def andOf (e1 : AValue ℤ) (e2 : Option (AValue ℤ)) : Option (AValue ℤ) :=
  match e1 with
  | aNull => some (aDef 0)
  | aUndef =>
    (truthOf e2).map fun v =>
      match v with
      | aNull => aDef 0
      | aDef n => if n = 0 then aDef 0 else aUndef
      | aUndef => aUndef
  | aDef n => if n = 0 then some (aDef 0) else truthOf e2

def coalesceOf {α : Type} : List (Option (AValue α)) → Option (AValue α)
  | [] => some aNull
  | v :: vs =>
    v.bind fun v =>
      match v with
      | aUndef => some aUndef
      | aNull => coalesceOf vs
      | aDef x => some (aDef x)

def nullIfOf {α : Type} (eq : α → α → Bool) (e1 : AValue α) (e2 : Option (AValue α)) :
    Option (AValue α) :=
  match e1 with
  | aUndef => some aUndef
  | aNull => some aNull
  | aDef x =>
    e2.bind fun v =>
      match v with
      | aUndef => some aUndef
      | aNull => some (aDef x)
      | aDef y => some (if eq x y then aNull else aDef x)

def compareOf {α : Type} (bop : α → α → Bool) (ie1 ie2 : AValue α) : Option (AValue ℤ) :=
  ie1.flatMap fun n1 => ie2.flatMap fun n2 => some (aDef (btoi (bop n1 n2)))

def betweenOf (negated : Bool) (lower upper : AValue ℤ) : AValue ℤ :=
  if lower = aDef 0 ∨ upper = aDef 0 then aDef (btoi negated)
  else if lower = aUndef ∨ upper = aUndef then aUndef
  else if lower = aNull ∨ upper = aNull then aNull
  else aDef (btoi (!negated))

def inOf {α : Type} (eq : α → α → Bool) (v : AValue α) :
    List (Option (AValue α)) → Bool → Option (AValue ℤ)
  | [], hasNull => some (if hasNull then aNull else aDef 0)
  | elt :: set, hasNull =>
    elt.bind fun elt =>
      (compareOf eq v elt).bind fun c =>
        match c with
        | aUndef => some aUndef
        | aNull => inOf eq v set true
        | aDef n => if n = 0 then inOf eq v set hasNull else some (aDef n)

def strftimeOf (f : String → String → List String → Option String) (format time : String)
    (modifiers : List (Option (AValue String))) : Option (AValue String) :=
  (modifiers.mapM id).bind fun modifiers =>
    if aUndef ∈ modifiers then some aUndef
    else if aNull ∈ modifiers then some aNull
    else
      (modifiers.mapM fun m : AValue String =>
        match m with
        | aDef v => some v
        | _ => none).bind fun modifiers => (f format time modifiers).map aDef

/-- The value of a query used as one: the only column of its first row. -/
def queryOf (db : Db V D) (k : Kind) : List (Row V) → Option (AValue (Val V k))
  | [] => some aNull
  | row :: _ =>
    match row with
    | [none] => some aNull
    | [some v] => (ofQuery db k v).map aDef
    | _ => none

def keeps : AValue ℤ → Bool
  | aNull => false
  | aUndef => true
  | aDef n => n ≠ 0

/-- The row of the values of the parameters; no row at all if there are none. A check that is 0
throws. -/
def rowOf (checks : List (Option (AValue ℤ))) (params : List (Option (AValue (CValue V)))) :
    Option (List (Row V)) :=
  (checks.mapM fun v : Option (AValue ℤ) =>
    v.bind fun v => if v = aDef 0 then none else some ()).bind fun _ =>
  (params.mapM fun v : Option (AValue (CValue V)) =>
    v.bind fun v =>
      match v with
      | aUndef => none
      | aNull => some none
      | aDef x => some (some x)).map fun row => if row.isEmpty then [] else [row]

def flattenM {α : Type} (rows : List (Option (List α))) : Option (List α) :=
  (rows.mapM id).map List.flatten

/-- A row of the next table is bound, and given up at once where the condition is NULL or 0. -/
def evalSelectTable (rows : D → List (Row V)) (whereVal : List (Row V) → Option (AValue ℤ))
    (evalSelectRow : List (Row V) → Option (List (Row V))) :
    List D → List (Row V) → Option (List (Row V))
  | [], entries => evalSelectRow entries
  | table :: remainingTables, entries =>
    flattenM ((rows table).map fun inputRow =>
      (whereVal (entries ++ [inputRow])).bind fun v =>
        if keeps v then
          evalSelectTable rows whereVal evalSelectRow remainingTables (entries ++ [inputRow])
        else some [])

mutual

def eval (db : Db V D) {k : Kind} :
    CExpr V D k → ExprEvaluator V D → Option (AValue (Val V k))
  | .cNull, _ => some aNull
  | .cLiteral v, _ => some (aDef v)
  | .cISize tableNbr, env =>
    (env.head?.bind fun frame => frame.tables[tableNbr]?).map fun table =>
      aDef ((db.rows table).length : ℤ)
  | .cGetFrom tableNbr n, env =>
    env.head?.bind fun frame => getFrom db k frame.entries tableNbr n
  | .cFresh, env => some (aDef (db.fresh k (env.map fun frame => frame.entries)))
  | .cUp e, env => if env.tail.isEmpty then none else eval db e env.tail
  | .unary f e, env => (eval db e env).bind fun v => v.flatMap f
  | .binary f e1 e2, env =>
    (eval db e1 env).bind fun v1 =>
      v1.flatMap fun n1 => (eval db e2 env).bind fun v2 => v2.flatMap fun n2 => f n1 n2
  | .cCompare bop e1 e2, env =>
    (eval db e1 env).bind fun v1 => (eval db e2 env).bind fun v2 => compareOf bop v1 v2
  | .cStrftime f sformat stime smodifiers, env =>
    (eval db sformat env).bind fun v1 =>
      v1.flatMap fun format =>
        (eval db stime env).bind fun v2 =>
          v2.flatMap fun time => strftimeOf f format time (evals db smodifiers env)
  | .cNot e, env => (eval db e env).bind notOf
  | .cOn e, env => eval db e env
  | .cIf conde e1 e2, env => (eval db conde env).bind fun v => ifOf v (eval db e1 env) (eval db e2 env)
  | .cOr e1 e2, env => (eval db e1 env).bind fun v => orOf v (eval db e2 env)
  | .cAnd e1 e2, env => (eval db e1 env).bind fun v => andOf v (eval db e2 env)
  | .cIsNull e, env => (eval db e env).bind isNullOf
  | .cCoalesce el, env => coalesceOf (evals db el env)
  | .cNullIf eq e1 e2, env => (eval db e1 env).bind fun v => nullIfOf eq v (eval db e2 env)
  | .cIBetween negated e1 e2 e3, env =>
    (eval db e2 env).bind fun v2 =>
      (eval db e1 env).bind fun v1 =>
        (eval db e3 env).bind fun v3 =>
          (compareOf (fun n1 n2 : ℤ => n1 ≤ n2) v2 v1).bind fun lower =>
            (compareOf (fun n1 n2 : ℤ => n1 ≤ n2) v1 v3).map fun upper =>
              betweenOf negated lower upper
  | .cIn eq vExpr set, env =>
    (eval db vExpr env).bind fun v => inOf eq v (evals db set env) v.isNull
  | .cInQuery found vExpr query, env =>
    (eval db vExpr env).bind fun v =>
      match v with
      | aNull => some aNull
      | aUndef => some aUndef
      | aDef x => (evalSelect db query env).map fun rows => aDef (btoi (found x rows))
  | .cExists select, env =>
    (evalSelect db select env).map fun rows => aDef (btoi (0 < rows.length))
  | .cQuery select, env => (evalSelect db select env).bind fun rows => queryOf db k rows

def evals (db : Db V D) {k : Kind} :
    CExprs V D k → ExprEvaluator V D → List (Option (AValue (Val V k)))
  | .nil, _ => []
  | .cons e es, env => eval db e env :: evals db es env

def evalParams (db : Db V D) :
    CGExprs V D → ExprEvaluator V D → List (Option (AValue (CValue V)))
  | .nil, _ => []
  | .cGNull es, env => some aNull :: evalParams db es env
  | .cons (k := l) e es, env =>
    ((eval db e env).bind fun v => v.flatMap fun x => some (aDef (toCValue l x))) ::
      evalParams db es env

def evalSelect (db : Db V D) : CSelect V D → ExprEvaluator V D → Option (List (Row V))
  | .simple [] condition params effects finish, up =>
    (eval db condition ({ entries := [], tables := [] } :: up)).bind fun v =>
      if keeps v then
        (rowOf (evals db effects ({ entries := [], tables := [] } :: up))
          (evalParams db params ({ entries := [], tables := [] } :: up))).map finish
      else some (finish [[none]])
  | .simple (table :: tables) condition params effects finish, up =>
    (evalSelectTable db.rows
      (fun entries => eval db condition ({ entries, tables := table :: tables } :: up))
      (fun entries =>
        rowOf (evals db effects ({ entries, tables := table :: tables } :: up))
          (evalParams db params ({ entries, tables := table :: tables } :: up)))
      (table :: tables) []).map finish
  | .aggr [] _ aggrs _ _ params effects _ finish, up =>
    (rowOf [] (evalParams db aggrs ({ entries := [], tables := [] } :: up))).bind fun entry =>
      (flattenM (entry.map fun row =>
        rowOf (evals db effects ({ entries := [row], tables := [] } :: up))
          (evalParams db params ({ entries := [row], tables := [] } :: up)))).map finish
  | .aggr (table :: tables) condition aggrs reduce having params effects empty finish, up =>
    (evalSelectTable db.rows
      (fun entries => eval db condition ({ entries, tables := table :: tables } :: up))
      (fun entries => rowOf [] (evalParams db aggrs ({ entries, tables := table :: tables } :: up)))
      (table :: tables) []).bind fun rows =>
    (flattenM ((reduce rows).map fun row =>
      (eval db having ({ entries := [row], tables := table :: tables } :: up)).bind fun v =>
        if v = aUndef then none
        else if keeps v then
          rowOf (evals db effects ({ entries := [row], tables := table :: tables } :: up))
            (evalParams db params ({ entries := [row], tables := table :: tables } :: up))
        else some [])).bind fun data =>
    (match data, empty with
      | [], some row =>
        rowOf [] (evalParams db params ({ entries := [row], tables := table :: tables } :: up))
      | _, _ => some data).map finish
  | .compound combine select rest, up =>
    (evalSelect db select up).bind fun rows =>
      (evalSelect db rest up).map fun others => combine rows others

end

end Evaluation

end SkipPlatform.SqlExpr
