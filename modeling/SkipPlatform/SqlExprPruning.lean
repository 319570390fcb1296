import Mathlib.Data.List.Forall2
import SkipPlatform.SqlExpr

set_option autoImplicit false

/-! A condition on rows of the first tables of a query only: what its value says about all rows that
are made of them. -/
namespace SkipPlatform.SqlExprPruning

open SqlExpr SqlExpr.AValue

/-- What is asked of a value: whether it is true, which truth value it is, or the value itself. -/
inductive Mode where
  | truth
  | logic
  | value
deriving DecidableEq

def truthy : AValue ℤ → AValue Bool
  | aUndef => aUndef
  | aNull => aDef false
  | aDef n => aDef (n ≠ 0)

def logical : AValue ℤ → AValue Bool
  | aUndef => aUndef
  | aNull => aNull
  | aDef n => aDef (n ≠ 0)

section Conditions

variable {V : Types} {D : Type}

def Alike : {k : Kind} → Mode → AValue (Val V k) → AValue (Val V k) → Prop
  | .int, .truth, v, w => truthy v = truthy w
  | .int, .logic, v, w => logical v = logical w
  | .int, .value, v, w => v = w
  | .float, _, v, w => v = w
  | .string, _, v, w => v = w
  | .json, _, v, w => v = w
  | .type, _, v, w => v = w

def IsDef {α : Type} (v : Option (AValue α)) : Prop := ∃ x, v = some (aDef x)

def IsTrue (v : Option (AValue ℤ)) : Prop := ∃ n, v = some (aDef n) ∧ n ≠ 0

def IsFalsy (v : Option (AValue ℤ)) : Prop := v = some aNull ∨ v = some (aDef 0)

def GoesOn {α : Type} (eq : α → α → Bool) (v : AValue α) (elt : Option (AValue α)) : Prop :=
  ∃ w, elt = some w ∧ (compareOf eq v w = some aNull ∨ compareOf eq v w = some (aDef 0))

def IsKept (v : Option (AValue ℤ)) : Prop := ∃ w, v = some w ∧ keeps w = true

/-- What holds of the rows that a walk over the tables binds, and of those that it selects. -/
def Walk (rows : D → List (Row V)) (whereVal : List (Row V) → Option (AValue ℤ))
    (bound selected : List (Row V) → Prop) : List D → List (Row V) → Prop
  | [], entries => selected entries
  | table :: remainingTables, entries => ∀ inputRow ∈ rows table, bound (entries ++ [inputRow]) ∧
      (IsKept (whereVal (entries ++ [inputRow])) →
        Walk rows whereVal bound selected remainingTables (entries ++ [inputRow]))

variable (db : Db V D)

/-- The rows that an aggregate query selects of its tables. -/
def aggrEntries (condition : CExpr V D .int) (aggrs : CGExprs V D) (tables : List D)
    (up : ExprEvaluator V D) : Option (List (Row V)) :=
  evalSelectTable db.rows (fun entries => eval db condition (⟨entries, tables⟩ :: up))
    (fun entries => rowOf [] (evalParams db aggrs (⟨entries, tables⟩ :: up))) tables []

/-- The rows that are left of its groups. -/
def aggrData (having : CExpr V D .int) (params : CGExprs V D) (effects : CExprs V D .int)
    (tables : List D) (up : ExprEvaluator V D) (groups : List (Row V)) : Option (List (Row V)) :=
  flattenM (groups.map fun row =>
    (eval db having (⟨[row], tables⟩ :: up)).bind fun v =>
      if v = aUndef then none
      else if keeps v then
        rowOf (evals db effects (⟨[row], tables⟩ :: up)) (evalParams db params (⟨[row], tables⟩ :: up))
      else some [])

mutual

/-- The evaluation reads no column of the tables from `b` on of the query that is `d` queries
further out, nor a value that is drawn anew. -/
def ReadsBound (b : ℕ) : {k : Kind} → CExpr V D k → ExprEvaluator V D → ℕ → Prop
  | _, .cNull, _, _ => True
  | _, .cLiteral _, _, _ => True
  | _, .cISize _, _, _ => True
  | _, .cGetFrom tableNbr _, _, d => d = 0 → tableNbr < b
  | _, .cFresh, _, _ => False
  | _, .cUp _, _, 0 => True
  | _, .cUp e, env, d + 1 => ReadsBound b e env.tail d
  | _, .unary _ e, env, d => ReadsBound b e env d
  | _, .binary _ e1 e2, env, d =>
    ReadsBound b e1 env d ∧ (IsDef (eval db e1 env) → ReadsBound b e2 env d)
  | _, .cCompare _ e1 e2, env, d => ReadsBound b e1 env d ∧ ReadsBound b e2 env d
  | _, .cStrftime _ sformat stime smodifiers, env, d =>
    ReadsBound b sformat env d ∧ (IsDef (eval db sformat env) → ReadsBound b stime env d) ∧
      (IsDef (eval db sformat env) → IsDef (eval db stime env) →
        ReadsBoundWhile b (fun _ => True) smodifiers env d)
  | _, .cNot e, env, d => ReadsBound b e env d
  | _, .cOn e, env, d => ReadsBound b e env d
  | _, .cIf conde e1 e2, env, d =>
    ReadsBound b conde env d ∧ (IsTrue (eval db conde env) → ReadsBound b e1 env d) ∧
      (IsFalsy (eval db conde env) → ReadsBound b e2 env d)
  | _, .cOr e1 e2, env, d =>
    ReadsBound b e1 env d ∧ (¬ IsTrue (eval db e1 env) → ReadsBound b e2 env d)
  | _, .cAnd e1 e2, env, d =>
    ReadsBound b e1 env d ∧ (¬ IsFalsy (eval db e1 env) → ReadsBound b e2 env d)
  | _, .cIsNull e, env, d => ReadsBound b e env d
  | _, .cCoalesce el, env, d => ReadsBoundWhile b (fun v => v = some aNull) el env d
  | _, .cNullIf _ e1 e2, env, d =>
    ReadsBound b e1 env d ∧ (IsDef (eval db e1 env) → ReadsBound b e2 env d)
  | _, .cIBetween _ e1 e2 e3, env, d =>
    ReadsBound b e1 env d ∧ ReadsBound b e2 env d ∧ ReadsBound b e3 env d
  | _, .cIn eq vExpr set, env, d =>
    ReadsBound b vExpr env d ∧
      ∀ v, eval db vExpr env = some v → ReadsBoundWhile b (GoesOn eq v) set env d
  | _, .cInQuery _ vExpr query, env, d =>
    ReadsBound b vExpr env d ∧ (IsDef (eval db vExpr env) → SelectReadsBound b query env d)
  | _, .cExists select, env, d => SelectReadsBound b select env d
  | _, .cQuery select, env, d => SelectReadsBound b select env d

def ReadsBoundWhile (b : ℕ) : {k : Kind} → (Option (AValue (Val V k)) → Prop) →
    CExprs V D k → ExprEvaluator V D → ℕ → Prop
  | _, _, .nil, _, _ => True
  | _, goesOn, .cons e es, env, d =>
    ReadsBound b e env d ∧ (goesOn (eval db e env) → ReadsBoundWhile b goesOn es env d)

def ParamsReadBound (b : ℕ) : CGExprs V D → ExprEvaluator V D → ℕ → Prop
  | .nil, _, _ => True
  | .cGNull es, env, d => ParamsReadBound b es env d
  | .cons e es, env, d => ReadsBound b e env d ∧ ParamsReadBound b es env d

/-- Of the rows of its own tables, a query evaluates its condition on those that it binds, and the
rest on those that it selects. -/
def SelectReadsBound (b : ℕ) : CSelect V D → ExprEvaluator V D → ℕ → Prop
  | .simple [] condition params effects _, up, d =>
    ReadsBound b condition (⟨[], []⟩ :: up) (d + 1) ∧
      (IsKept (eval db condition (⟨[], []⟩ :: up)) →
        ParamsReadBound b params (⟨[], []⟩ :: up) (d + 1) ∧
          ReadsBoundWhile b (fun _ => True) effects (⟨[], []⟩ :: up) (d + 1))
  | .simple (table :: tables) condition params effects _, up, d =>
    Walk db.rows (fun entries => eval db condition (⟨entries, table :: tables⟩ :: up))
      (fun entries => ReadsBound b condition (⟨entries, table :: tables⟩ :: up) (d + 1))
      (fun entries => ParamsReadBound b params (⟨entries, table :: tables⟩ :: up) (d + 1) ∧
        ReadsBoundWhile b (fun _ => True) effects (⟨entries, table :: tables⟩ :: up) (d + 1))
      (table :: tables) []
  | .aggr [] _ aggrs _ _ params effects _ _, up, d =>
    ParamsReadBound b aggrs (⟨[], []⟩ :: up) (d + 1) ∧
      ∀ entry, rowOf [] (evalParams db aggrs (⟨[], []⟩ :: up)) = some entry → ∀ row ∈ entry,
        ParamsReadBound b params (⟨[row], []⟩ :: up) (d + 1) ∧
          ReadsBoundWhile b (fun _ => True) effects (⟨[row], []⟩ :: up) (d + 1)
  | .aggr (table :: tables) condition aggrs reduce having params effects empty _, up, d =>
    Walk db.rows (fun entries => eval db condition (⟨entries, table :: tables⟩ :: up))
      (fun entries => ReadsBound b condition (⟨entries, table :: tables⟩ :: up) (d + 1))
      (fun entries => ParamsReadBound b aggrs (⟨entries, table :: tables⟩ :: up) (d + 1))
      (table :: tables) [] ∧
    ∀ rows, aggrEntries db condition aggrs (table :: tables) up = some rows →
      (∀ row ∈ reduce rows, ReadsBound b having (⟨[row], table :: tables⟩ :: up) (d + 1) ∧
        (IsKept (eval db having (⟨[row], table :: tables⟩ :: up)) →
          ParamsReadBound b params (⟨[row], table :: tables⟩ :: up) (d + 1) ∧
            ReadsBoundWhile b (fun _ => True) effects (⟨[row], table :: tables⟩ :: up) (d + 1))) ∧
      (aggrData db having params effects (table :: tables) up (reduce rows) = some [] →
        ∀ row, empty = some row →
          ParamsReadBound b params (⟨[row], table :: tables⟩ :: up) (d + 1))
  | .compound _ select rest, up, d =>
    SelectReadsBound b select up d ∧ SelectReadsBound b rest up d

end

def Mode.operand : Mode → Mode
  | .truth => .truth
  | _ => .logic

/-- What is asked of the first operand of an OR, which is its value where it is true. -/
def Mode.first : Mode → Mode
  | .value => .value
  | _ => .truth

def Mode.element : Mode → Mode
  | .value => .value
  | _ => .logic

mutual

/-- The evaluation of the expression on the rows that are bound does not come to a connective that
cannot tell yet: an AND of something undefined and NULL where NULL and 0 are not the same, an OR
of something undefined and something true where the number counts, a query that keeps a row
because its condition is undefined, or a value that is drawn anew. -/
def Settled (b : ℕ) : {k : Kind} → Mode → CExpr V D k → ExprEvaluator V D → ℕ → Prop
  | _, _, .cNull, _, _ => True
  | _, _, .cLiteral _, _, _ => True
  | _, _, .cISize _, _, _ => True
  | _, _, .cGetFrom _ _, _, _ => True
  | _, _, .cFresh, _, _ => False
  | _, _, .cUp _, _, 0 => True
  | _, m, .cUp e, env, d + 1 => Settled b m e env.tail d
  | _, _, .unary _ e, env, d => Settled b .value e env d
  | _, _, .binary _ e1 e2, env, d =>
    Settled b .value e1 env d ∧ (IsDef (eval db e1 env) → Settled b .value e2 env d)
  | _, _, .cCompare _ e1 e2, env, d =>
    Settled b .value e1 env d ∧ (IsDef (eval db e1 env) → Settled b .value e2 env d)
  | _, _, .cStrftime _ sformat stime smodifiers, env, d =>
    Settled b .value sformat env d ∧
      (IsDef (eval db sformat env) → Settled b .value stime env d) ∧
      (IsDef (eval db sformat env) → IsDef (eval db stime env) →
        SettledWhile b .value (fun _ => True) smodifiers env d)
  | _, _, .cNot e, env, d => Settled b .logic e env d
  | _, m, .cOn e, env, d => Settled b m e env d
  | _, m, .cIf conde e1 e2, env, d =>
    Settled b .truth conde env d ∧ (IsTrue (eval db conde env) → Settled b m e1 env d) ∧
      (IsFalsy (eval db conde env) → Settled b m e2 env d)
  | _, m, .cOr e1 e2, env, d =>
    Settled b m.first e1 env d ∧
      (¬ IsTrue (eval db e1 env) → Settled b m.operand e2 env d) ∧
      (m = .value → ¬ (eval db e1 env = some aUndef ∧ IsTrue (eval db e2 env)))
  | _, m, .cAnd e1 e2, env, d =>
    Settled b .truth e1 env d ∧
      (¬ IsFalsy (eval db e1 env) → Settled b m.operand e2 env d) ∧
      (m ≠ .truth → ¬ (eval db e1 env = some aUndef ∧ eval db e2 env = some aNull))
  | _, _, .cIsNull e, env, d => Settled b .logic e env d
  | _, m, .cCoalesce el, env, d => SettledWhile b m.element (fun v => v = some aNull) el env d
  | _, _, .cNullIf _ e1 e2, env, d =>
    Settled b .value e1 env d ∧ (IsDef (eval db e1 env) → Settled b .value e2 env d)
  | _, _, .cIBetween _ e1 e2 e3, env, d =>
    Settled b .value e1 env d ∧ Settled b .value e2 env d ∧ Settled b .value e3 env d
  | _, _, .cIn eq vExpr set, env, d =>
    Settled b .value vExpr env d ∧ (eval db vExpr env = some aUndef → set ≠ .nil) ∧
      ∀ v, eval db vExpr env = some v → v ≠ aUndef →
        SettledWhile b .value (GoesOn eq v) set env d
  | _, _, .cInQuery _ vExpr query, env, d =>
    Settled b .value vExpr env d ∧ (IsDef (eval db vExpr env) → SelectSettled b query env d)
  | _, _, .cExists select, env, d => SelectSettled b select env d
  | _, _, .cQuery select, env, d => SelectSettled b select env d

def SettledWhile (b : ℕ) : {k : Kind} → Mode → (Option (AValue (Val V k)) → Prop) →
    CExprs V D k → ExprEvaluator V D → ℕ → Prop
  | _, _, _, .nil, _, _ => True
  | _, m, goesOn, .cons e es, env, d =>
    Settled b m e env d ∧ (goesOn (eval db e env) → SettledWhile b m goesOn es env d)

def ParamsSettled (b : ℕ) : CGExprs V D → ExprEvaluator V D → ℕ → Prop
  | .nil, _, _ => True
  | .cGNull es, env, d => ParamsSettled b es env d
  | .cons e es, env, d => Settled b .value e env d ∧ ParamsSettled b es env d

/-- On the rows that a query binds of its own tables, its condition is not undefined, or so only
because not all of these tables have a row. -/
def SelectSettled (b : ℕ) : CSelect V D → ExprEvaluator V D → ℕ → Prop
  | .simple [] condition params _ _, up, d =>
    (ReadsBound db b condition (⟨[], []⟩ :: up) (d + 1) ∨
      Settled b .truth condition (⟨[], []⟩ :: up) (d + 1) ∧
        eval db condition (⟨[], []⟩ :: up) ≠ some aUndef) ∧
    (IsKept (eval db condition (⟨[], []⟩ :: up)) →
      ParamsSettled b params (⟨[], []⟩ :: up) (d + 1))
  | .simple (table :: tables) condition params _ _, up, d =>
    Walk db.rows (fun entries => eval db condition (⟨entries, table :: tables⟩ :: up))
      (fun entries => ReadsBound db b condition (⟨entries, table :: tables⟩ :: up) (d + 1) ∨
        Settled b .truth condition (⟨entries, table :: tables⟩ :: up) (d + 1) ∧
          eval db condition (⟨entries, table :: tables⟩ :: up) ≠ some aUndef)
      (fun entries => ParamsSettled b params (⟨entries, table :: tables⟩ :: up) (d + 1))
      (table :: tables) []
  | .aggr [] _ aggrs _ _ params _ _ _, up, d =>
    ParamsSettled b aggrs (⟨[], []⟩ :: up) (d + 1) ∧
      ∀ entry, rowOf [] (evalParams db aggrs (⟨[], []⟩ :: up)) = some entry → ∀ row ∈ entry,
        ParamsSettled b params (⟨[row], []⟩ :: up) (d + 1)
  | .aggr (table :: tables) condition aggrs reduce having params effects empty _, up, d =>
    Walk db.rows (fun entries => eval db condition (⟨entries, table :: tables⟩ :: up))
      (fun entries => ReadsBound db b condition (⟨entries, table :: tables⟩ :: up) (d + 1) ∨
        Settled b .truth condition (⟨entries, table :: tables⟩ :: up) (d + 1) ∧
          eval db condition (⟨entries, table :: tables⟩ :: up) ≠ some aUndef)
      (fun entries => ParamsSettled b aggrs (⟨entries, table :: tables⟩ :: up) (d + 1))
      (table :: tables) [] ∧
    ∀ rows, aggrEntries db condition aggrs (table :: tables) up = some rows →
      (∀ row ∈ reduce rows, Settled b .truth having (⟨[row], table :: tables⟩ :: up) (d + 1) ∧
        (IsKept (eval db having (⟨[row], table :: tables⟩ :: up)) →
          ParamsSettled b params (⟨[row], table :: tables⟩ :: up) (d + 1))) ∧
      (aggrData db having params effects (table :: tables) up (reduce rows) = some [] →
        ∀ row, empty = some row → ParamsSettled b params (⟨[row], table :: tables⟩ :: up) (d + 1))
  | .compound _ select rest, up, d =>
    SelectSettled b select up d ∧ SelectSettled b rest up d

end

def extend (frame : Frame V D) (more : List (Row V)) : Frame V D where
  entries := frame.entries ++ more
  tables := frame.tables

/-- A value that is there is still there, as far as it is asked for, unless the evaluation throws. -/
def Stays {k : Kind} (m : Mode) (p f : Option (AValue (Val V k))) : Prop :=
  ∀ v, p = some v → v ≠ aUndef → f = none ∨ ∃ w, f = some w ∧ Alike m v w

/-- The same for the rows of a query. -/
def RowsStay {α : Type} (p f : Option α) : Prop := ∀ x, p = some x → f = none ∨ f = some x

def KeptStays (p f : Option (AValue ℤ)) : Prop :=
  ∀ v, p = some v → f = none ∨ ∃ w, f = some w ∧ keeps w = keeps v

def ParamsStay (ps fs : List (Option (AValue (CValue V)))) : Prop :=
  List.Forall₂ (fun p f => ∀ v, p = some v → v ≠ aUndef → f = none ∨ f = some v) ps fs

def StaysWhile {k : Kind} (m : Mode) (goesOn : Option (AValue (Val V k)) → Prop) :
    List (Option (AValue (Val V k))) → List (Option (AValue (Val V k))) → Prop
  | [], [] => True
  | p :: ps, f :: fs => Stays m p f ∧ (goesOn p → StaysWhile m goesOn ps fs)
  | _, _ => False

end Conditions

section Reading

variable {V : Types} {D : Type}

theorem evalSelectTable_congr {rows : D → List (Row V)} {w w' : List (Row V) → Option (AValue ℤ)}
    {r r' : List (Row V) → Option (List (Row V))} {bound selected : List (Row V) → Prop}
    (hw : ∀ entries, bound entries → w' entries = w entries)
    (hr : ∀ entries, selected entries → r' entries = r entries) (tables : List D)
    (entries : List (Row V)) (h : Walk rows w bound selected tables entries) :
    evalSelectTable rows w' r' tables entries = evalSelectTable rows w r tables entries := by
  induction tables generalizing entries with
  | nil => exact hr entries h
  | cons table tables ih =>
    rw [evalSelectTable, evalSelectTable]
    refine congrArg flattenM (List.map_congr_left fun inputRow hrow => ?_)
    obtain ⟨hb, hnext⟩ := h inputRow hrow
    rw [hw _ hb]
    cases hv : w (entries ++ [inputRow]) with
    | none => rfl
    | some v =>
      rw [Option.bind_some, Option.bind_some]
      by_cases hk : keeps v = true
      · rw [if_pos hk, if_pos hk, ih _ (hnext ⟨v, hv, hk⟩)]
      · rw [if_neg hk, if_neg hk]

variable (db : Db V D) (frame : Frame V D) (more : List (Row V)) (ups : ExprEvaluator V D)

theorem coalesceOf_congr {k : Kind} (goesOn : Option (AValue (Val V k)) → Prop)
    (hgoes : ∀ v, v = some aNull → goesOn v) (v : Option (AValue (Val V k)))
    {vs vs' : List (Option (AValue (Val V k)))}
    (h : goesOn v → coalesceOf vs' = coalesceOf vs) :
    coalesceOf (v :: vs') = coalesceOf (v :: vs) := by
  cases v with
  | none => rfl
  | some w =>
    cases w with
    | aUndef => rfl
    | aNull => exact h (hgoes _ rfl)
    | aDef x => rfl

theorem inOf_congr {k : Kind} (eq : Val V k → Val V k → Bool) (v : AValue (Val V k))
    (elt : Option (AValue (Val V k))) {set set' : List (Option (AValue (Val V k)))}
    (h : GoesOn eq v elt → ∀ hasNull, inOf eq v set' hasNull = inOf eq v set hasNull)
    (hasNull : Bool) : inOf eq v (elt :: set') hasNull = inOf eq v (elt :: set) hasNull := by
  cases elt with
  | none => rfl
  | some w =>
    rw [inOf, inOf, Option.bind_some, Option.bind_some]
    cases hc : compareOf eq v w with
    | none => rfl
    | some c =>
      cases c with
      | aUndef => rfl
      | aNull => exact h ⟨w, rfl, Or.inl hc⟩ true
      | aDef n =>
        rw [Option.bind_some, Option.bind_some]
        dsimp only
        by_cases hn : n = 0
        · rw [if_pos hn, if_pos hn]
          exact h ⟨w, rfl, Or.inr (by rw [hc, hn])⟩ hasNull
        · rw [if_neg hn, if_neg hn]

mutual

/-- What is not read may be there or not. -/
theorem eval_extend : ∀ {k : Kind} (e : CExpr V D k) (pre : ExprEvaluator V D),
    ReadsBound db frame.entries.length e (pre ++ frame :: ups) pre.length →
    eval db e (pre ++ extend frame more :: ups) = eval db e (pre ++ frame :: ups)
  | _, .cNull, pre, h => rfl
  | _, .cLiteral v, pre, h => rfl
  | _, .cISize tableNbr, pre, h => by
    cases pre with
    | nil => rfl
    | cons f pre => rfl
  | k, .cGetFrom tableNbr n, pre, h => by
    cases pre with
    | nil =>
      have hl : tableNbr < frame.entries.length := h rfl
      have he : (frame.entries ++ more)[tableNbr]? = frame.entries[tableNbr]? :=
        List.getElem?_append_left hl
      change getFrom db k (frame.entries ++ more) tableNbr n = getFrom db k frame.entries tableNbr n
      rw [getFrom, getFrom, he]
    | cons f pre => rfl
  | _, .cFresh, pre, h => False.elim h
  | _, .cUp e, pre, h => by
    cases pre with
    | nil => rfl
    | cons f pre =>
      have ih := eval_extend e pre h
      rw [eval, eval, List.cons_append, List.cons_append, List.tail_cons, List.tail_cons, ih]
      cases pre <;> rfl
  | _, .unary f e, pre, h => by rw [eval, eval, eval_extend e pre h]
  | _, .binary f e1 e2, pre, h => by
    rw [eval, eval, eval_extend e1 pre h.1]
    cases hv : eval db e1 (pre ++ frame :: ups) with
    | none => rfl
    | some v =>
      cases v with
      | aUndef => rfl
      | aNull => rfl
      | aDef x => rw [eval_extend e2 pre (h.2 ⟨x, hv⟩)]
  | _, .cCompare bop e1 e2, pre, h => by
    rw [eval, eval, eval_extend e1 pre h.1, eval_extend e2 pre h.2]
  | _, .cStrftime f sformat stime smodifiers, pre, h => by
    rw [eval, eval, eval_extend sformat pre h.1]
    cases hv : eval db sformat (pre ++ frame :: ups) with
    | none => rfl
    | some v =>
      cases v with
      | aUndef => rfl
      | aNull => rfl
      | aDef x =>
        rw [eval_extend stime pre (h.2.1 ⟨x, hv⟩)]
        cases ht : eval db stime (pre ++ frame :: ups) with
        | none => rfl
        | some t =>
          cases t with
          | aUndef => rfl
          | aNull => rfl
          | aDef y => rw [evals_extend smodifiers pre (h.2.2 ⟨x, hv⟩ ⟨y, ht⟩)]
  | _, .cNot e, pre, h => by rw [eval, eval, eval_extend e pre h]
  | _, .cOn e, pre, h => by rw [eval, eval, eval_extend e pre h]
  | _, .cIf conde e1 e2, pre, h => by
    rw [eval, eval, eval_extend conde pre h.1]
    cases hv : eval db conde (pre ++ frame :: ups) with
    | none => rfl
    | some v =>
      cases v with
      | aUndef => rfl
      | aNull => exact eval_extend e2 pre (h.2.2 (Or.inl hv))
      | aDef n =>
        rw [Option.bind_some, Option.bind_some, ifOf, ifOf]
        by_cases hn : n = 0
        · rw [if_neg (not_not.mpr hn), if_neg (not_not.mpr hn)]
          exact eval_extend e2 pre (h.2.2 (Or.inr (by rw [hv, hn])))
        · rw [if_pos hn, if_pos hn]
          exact eval_extend e1 pre (h.2.1 ⟨n, hv, hn⟩)
  | _, .cOr e1 e2, pre, h => by
    rw [eval, eval, eval_extend e1 pre h.1]
    by_cases ht : IsTrue (eval db e1 (pre ++ frame :: ups))
    · obtain ⟨n, hv, hn⟩ := ht
      rw [hv, Option.bind_some, Option.bind_some, orOf, orOf, if_neg hn, if_neg hn]
    · rw [eval_extend e2 pre (h.2 ht)]
  | _, .cAnd e1 e2, pre, h => by
    rw [eval, eval, eval_extend e1 pre h.1]
    by_cases hf : IsFalsy (eval db e1 (pre ++ frame :: ups))
    · rcases hf with hv | hv
      · rw [hv]
        rfl
      · rw [hv]
        rfl
    · rw [eval_extend e2 pre (h.2 hf)]
  | _, .cIsNull e, pre, h => by rw [eval, eval, eval_extend e pre h]
  | _, .cCoalesce el, pre, h => by
    rw [eval, eval]
    exact coalesce_extend el pre h
  | _, .cNullIf eq e1 e2, pre, h => by
    rw [eval, eval, eval_extend e1 pre h.1]
    cases hv : eval db e1 (pre ++ frame :: ups) with
    | none => rfl
    | some v =>
      cases v with
      | aUndef => rfl
      | aNull => rfl
      | aDef x => rw [eval_extend e2 pre (h.2 ⟨x, hv⟩)]
  | _, .cIBetween negated e1 e2 e3, pre, h => by
    rw [eval, eval, eval_extend e1 pre h.1, eval_extend e2 pre h.2.1, eval_extend e3 pre h.2.2]
  | _, .cIn eq vExpr set, pre, h => by
    rw [eval, eval, eval_extend vExpr pre h.1]
    cases hv : eval db vExpr (pre ++ frame :: ups) with
    | none => rfl
    | some v => exact in_extend eq v set pre (h.2 v hv) v.isNull
  | _, .cInQuery found vExpr query, pre, h => by
    rw [eval, eval, eval_extend vExpr pre h.1]
    cases hv : eval db vExpr (pre ++ frame :: ups) with
    | none => rfl
    | some v =>
      cases v with
      | aUndef => rfl
      | aNull => rfl
      | aDef x =>
        rw [Option.bind_some, Option.bind_some, evalSelect_extend query pre (h.2 ⟨x, hv⟩)]
  | _, .cExists select, pre, h => by rw [eval, eval, evalSelect_extend select pre h]
  | _, .cQuery select, pre, h => by rw [eval, eval, evalSelect_extend select pre h]

theorem coalesce_extend : ∀ {k : Kind} (es : CExprs V D k) (pre : ExprEvaluator V D),
    ReadsBoundWhile db frame.entries.length (fun v => v = some aNull) es (pre ++ frame :: ups)
      pre.length →
    coalesceOf (evals db es (pre ++ extend frame more :: ups)) =
      coalesceOf (evals db es (pre ++ frame :: ups))
  | _, .nil, pre, h => rfl
  | _, .cons e es, pre, h => by
    rw [evals, evals, eval_extend e pre h.1]
    exact coalesceOf_congr _ (fun _ hv => hv) _ fun hg => coalesce_extend es pre (h.2 hg)

theorem in_extend : ∀ {k : Kind} (eq : Val V k → Val V k → Bool) (v : AValue (Val V k))
    (es : CExprs V D k) (pre : ExprEvaluator V D),
    ReadsBoundWhile db frame.entries.length (GoesOn eq v) es (pre ++ frame :: ups) pre.length →
    ∀ hasNull, inOf eq v (evals db es (pre ++ extend frame more :: ups)) hasNull =
      inOf eq v (evals db es (pre ++ frame :: ups)) hasNull
  | _, eq, v, .nil, pre, h => fun hasNull => rfl
  | _, eq, v, .cons e es, pre, h => by
    rw [evals, evals, eval_extend e pre h.1]
    exact inOf_congr eq v _ fun hg => in_extend eq v es pre (h.2 hg)

theorem evals_extend : ∀ {k : Kind} (es : CExprs V D k) (pre : ExprEvaluator V D),
    ReadsBoundWhile db frame.entries.length (fun _ => True) es (pre ++ frame :: ups) pre.length →
    evals db es (pre ++ extend frame more :: ups) = evals db es (pre ++ frame :: ups)
  | _, .nil, pre, h => rfl
  | _, .cons e es, pre, h => by
    rw [evals, evals, eval_extend e pre h.1, evals_extend es pre (h.2 trivial)]

theorem evalParams_extend : ∀ (es : CGExprs V D) (pre : ExprEvaluator V D),
    ParamsReadBound db frame.entries.length es (pre ++ frame :: ups) pre.length →
    evalParams db es (pre ++ extend frame more :: ups) = evalParams db es (pre ++ frame :: ups)
  | .nil, pre, h => rfl
  | .cGNull es, pre, h => by rw [evalParams, evalParams, evalParams_extend es pre h]
  | .cons e es, pre, h => by
    rw [evalParams, evalParams, eval_extend e pre h.1, evalParams_extend es pre h.2]

theorem evalSelect_extend : ∀ (select : CSelect V D) (pre : ExprEvaluator V D),
    SelectReadsBound db frame.entries.length select (pre ++ frame :: ups) pre.length →
    evalSelect db select (pre ++ extend frame more :: ups) =
      evalSelect db select (pre ++ frame :: ups)
  | .simple [] condition params effects finish, pre, h => by
    have hc := eval_extend condition (⟨[], []⟩ :: pre) h.1
    rw [List.cons_append, List.cons_append] at hc
    rw [evalSelect, evalSelect, hc]
    cases hv : eval db condition (⟨[], []⟩ :: (pre ++ frame :: ups)) with
    | none => rfl
    | some v =>
      rw [Option.bind_some, Option.bind_some]
      by_cases hk : keeps v = true
      · have hp := evalParams_extend params (⟨[], []⟩ :: pre) (h.2 ⟨v, hv, hk⟩).1
        have he := evals_extend effects (⟨[], []⟩ :: pre) (h.2 ⟨v, hv, hk⟩).2
        rw [List.cons_append, List.cons_append] at hp he
        rw [if_pos hk, if_pos hk, hp, he]
      · rw [if_neg hk, if_neg hk]
  | .simple (table :: tables) condition params effects finish, pre, h => by
    rw [evalSelect, evalSelect]
    refine congrArg (Option.map finish) (evalSelectTable_congr (fun entries hb => ?_)
      (fun entries hs => ?_) (table :: tables) [] h)
    · exact eval_extend condition (⟨entries, table :: tables⟩ :: pre) hb
    · have hp := evalParams_extend params (⟨entries, table :: tables⟩ :: pre) hs.1
      have he := evals_extend effects (⟨entries, table :: tables⟩ :: pre) hs.2
      rw [List.cons_append, List.cons_append] at hp he
      rw [hp, he]
  | .aggr [] condition aggrs reduce having params effects empty finish, pre, h => by
    have ha := evalParams_extend aggrs (⟨[], []⟩ :: pre) h.1
    rw [List.cons_append, List.cons_append] at ha
    rw [evalSelect, evalSelect, ha]
    cases hentry : rowOf [] (evalParams db aggrs (⟨[], []⟩ :: (pre ++ frame :: ups))) with
    | none => rfl
    | some entry =>
      refine congrArg (Option.map finish) (congrArg flattenM (List.map_congr_left fun row hrow => ?_))
      have hp := evalParams_extend params (⟨[row], []⟩ :: pre) (h.2 entry hentry row hrow).1
      have he := evals_extend effects (⟨[row], []⟩ :: pre) (h.2 entry hentry row hrow).2
      rw [List.cons_append, List.cons_append] at hp he
      rw [hp, he]
  | .aggr (table :: tables) condition aggrs reduce having params effects empty finish, pre, h => by
    have hentries : aggrEntries db condition aggrs (table :: tables) (pre ++ extend frame more :: ups) =
        aggrEntries db condition aggrs (table :: tables) (pre ++ frame :: ups) :=
      evalSelectTable_congr
        (fun entries hb => eval_extend condition (⟨entries, table :: tables⟩ :: pre) hb)
        (fun entries hs => congrArg (rowOf [])
          (evalParams_extend aggrs (⟨entries, table :: tables⟩ :: pre) hs)) (table :: tables) [] h.1
    change (aggrEntries db condition aggrs (table :: tables) (pre ++ extend frame more :: ups)).bind _ =
      (aggrEntries db condition aggrs (table :: tables) (pre ++ frame :: ups)).bind _
    rw [hentries]
    cases hrows : aggrEntries db condition aggrs (table :: tables) (pre ++ frame :: ups) with
    | none => rfl
    | some rows =>
      obtain ⟨hgroups, hempty⟩ := h.2 rows hrows
      have hdata : aggrData db having params effects (table :: tables)
            (pre ++ extend frame more :: ups) (reduce rows) =
          aggrData db having params effects (table :: tables) (pre ++ frame :: ups) (reduce rows) := by
        refine congrArg flattenM (List.map_congr_left fun row hrow => ?_)
        have hh := eval_extend having (⟨[row], table :: tables⟩ :: pre) (hgroups row hrow).1
        rw [List.cons_append, List.cons_append] at hh
        rw [hh]
        cases hv : eval db having (⟨[row], table :: tables⟩ :: (pre ++ frame :: ups)) with
        | none => rfl
        | some v =>
          rw [Option.bind_some, Option.bind_some]
          by_cases hk : keeps v = true
          · have hkept := (hgroups row hrow).2 ⟨v, hv, hk⟩
            have hp := evalParams_extend params (⟨[row], table :: tables⟩ :: pre) hkept.1
            have he := evals_extend effects (⟨[row], table :: tables⟩ :: pre) hkept.2
            rw [List.cons_append, List.cons_append] at hp he
            rw [hp, he]
          · rw [if_neg hk, if_neg hk]
      change (aggrData db having params effects (table :: tables) (pre ++ extend frame more :: ups)
        (reduce rows)).bind _ = (aggrData db having params effects (table :: tables)
          (pre ++ frame :: ups) (reduce rows)).bind _
      rw [hdata]
      cases hd : aggrData db having params effects (table :: tables) (pre ++ frame :: ups)
        (reduce rows) with
      | none => rfl
      | some data =>
        cases data with
        | cons row data => rfl
        | nil =>
          cases empty with
          | none => rfl
          | some row =>
            have hp := evalParams_extend params (⟨[row], table :: tables⟩ :: pre)
              (hempty hd row rfl)
            rw [List.cons_append, List.cons_append] at hp
            exact congrArg (fun params => Option.map finish (rowOf [] params)) hp
  | .compound combine select rest, pre, h => by
    rw [evalSelect, evalSelect, evalSelect_extend select pre h.1, evalSelect_extend rest pre h.2]

end

end Reading

section Values

variable {V : Types} {k l : Kind}

theorem alike_value (v w : AValue (Val V k)) : Alike .value v w ↔ v = w := by
  cases k <;> exact Iff.rfl

theorem alike_refl (m : Mode) (v : AValue (Val V k)) : Alike m v v := by
  cases k <;> cases m <;> rfl

theorem alike_undef (m : Mode) (v w : AValue (Val V k)) (h : Alike m v w) (hv : v ≠ aUndef) :
    w ≠ aUndef := by
  intro hw
  subst hw
  apply hv
  cases k <;> cases m <;> cases v <;> first | rfl | exact AValue.noConfusion h | cases h

theorem alike_null (m : Mode) (hm : m ≠ .truth) (v w : AValue (Val V k)) (h : Alike m v w) :
    v = aNull ↔ w = aNull := by
  cases m with
  | truth => exact absurd rfl hm
  | value => rw [(alike_value v w).mp h]
  | logic =>
    cases k with
    | int => cases v <;> cases w <;> simp_all [Alike, logical]
    | float => exact Eq.congr_left h
    | string => exact Eq.congr_left h
    | json => exact Eq.congr_left h
    | type => exact Eq.congr_left h

theorem alike_element (m : Mode) (v w : AValue (Val V k)) (h : Alike m.element v w) :
    Alike m v w := by
  cases m with
  | value => exact h
  | logic => exact h
  | truth =>
    cases k with
    | int => cases v <;> cases w <;> simp_all [Alike, logical, truthy, Mode.element]
    | float => exact h
    | string => exact h
    | json => exact h
    | type => exact h

theorem stays_refl (m : Mode) (p : Option (AValue (Val V k))) : Stays m p p :=
  fun v hp _ => Or.inr ⟨v, hp, alike_refl m v⟩

theorem stays_undef (m : Mode) (f : Option (AValue (Val V k))) : Stays m (some aUndef) f :=
  fun _ hp hv => absurd (Option.some.inj hp).symm hv

variable {p f : Option (AValue (Val V k))}

theorem stays_bind {m n : Mode}
    {g g' : AValue (Val V k) → Option (AValue (Val V l))} (h : Stays m p f)
    (hu : p = some aUndef → ∀ w, f = some w → Stays n (g aUndef) (g' w))
    (hg : ∀ v w, p = some v → v ≠ aUndef → f = some w → Alike m v w → Stays n (g v) (g' w)) :
    Stays n (p.bind g) (f.bind g') := by
  intro x hx hne
  cases p with
  | none => cases hx
  | some v =>
    cases f with
    | none => exact Or.inl rfl
    | some w =>
      by_cases hv : v = aUndef
      · subst hv
        exact hu rfl w rfl x hx hne
      · cases h v rfl hv with
        | inl hn => cases hn
        | inr hw =>
          obtain ⟨w', he, ha⟩ := hw
          have he : w = w' := Option.some.inj he
          subst he
          exact hg v w rfl hv rfl ha x hx hne

variable {m : Mode}

theorem stays_flatMap
    {g g' : Val V k → Option (AValue (Val V l))} (h : Stays .value p f)
    (hg : ∀ x, p = some (aDef x) → Stays m (g x) (g' x)) :
    Stays m (p.bind fun v => v.flatMap g) (f.bind fun v => v.flatMap g') := by
  apply stays_bind h
  · intro _ w _
    exact stays_undef m _
  · intro v w hp hv hf ha
    have ha := (alike_value v w).mp ha
    subst ha
    cases v with
    | aUndef => exact absurd rfl hv
    | aNull => exact stays_refl m _
    | aDef x => exact hg x hp

variable {p1 f1 p2 f2 : Option (AValue (Val V k))}

theorem stays_compare (bop : Val V k → Val V k → Bool) (h1 : Stays .value p1 f1)
    (h2 : IsDef p1 → Stays .value p2 f2) :
    Stays (V := V) (k := .int) m (p1.bind fun v1 => p2.bind fun v2 => compareOf bop v1 v2)
      (f1.bind fun v1 => f2.bind fun v2 => compareOf bop v1 v2) := by
  apply stays_bind h1
  · intro _ w _ x hx hne
    cases p2 with
    | none => cases hx
    | some v2 => exact absurd (Option.some.inj hx).symm hne
  · intro v w hp hv hf ha
    have ha := (alike_value v w).mp ha
    subst ha
    cases v with
    | aUndef => exact absurd rfl hv
    | aNull =>
      intro x hx hne
      cases p2 with
      | none => cases hx
      | some v2 =>
        cases f2 with
        | none => exact Or.inl rfl
        | some w2 => exact Or.inr ⟨x, hx, alike_refl m x⟩
    | aDef n =>
      apply stays_bind (h2 ⟨n, hp⟩)
      · intro _ w _
        exact stays_undef m _
      · intro v2 w2 _ _ _ ha
        rw [(alike_value v2 w2).mp ha]
        exact stays_refl m _

theorem stays_not {p f : Option (AValue ℤ)} (h : Stays (V := V) (k := .int) .logic p f) :
    Stays (V := V) (k := .int) m (p.bind notOf) (f.bind notOf) := by
  apply stays_bind h
  · intro _ w _
    exact stays_undef m _
  · intro v w _ hv _ ha
    have he : notOf v = notOf w := by
      cases v with
      | aUndef => exact absurd rfl hv
      | aNull => cases w <;> simp_all [Alike, logical, notOf]
      | aDef x => cases w <;> simp_all [Alike, logical, notOf]
    rw [he]
    exact stays_refl m _

theorem stays_isNull (h : Stays .logic p f) :
    Stays (V := V) (k := .int) m (p.bind isNullOf) (f.bind isNullOf) := by
  apply stays_bind h
  · intro _ w _
    exact stays_undef m _
  · intro v w _ hv _ ha
    have hn := alike_null .logic (by decide) v w ha
    have hu := alike_undef .logic v w ha hv
    have he : isNullOf v = isNullOf w := by
      cases v with
      | aUndef => exact absurd rfl hv
      | aNull => rw [hn.mp rfl]
      | aDef x =>
        cases w with
        | aUndef => exact absurd rfl hu
        | aNull => cases hn.mpr rfl
        | aDef y => rfl
    rw [he]
    exact stays_refl m _

theorem stays_if {c d : Option (AValue ℤ)}
    (hc : Stays (V := V) (k := .int) .truth c d) (h1 : IsTrue c → Stays m p1 f1)
    (h2 : IsFalsy c → Stays m p2 f2) :
    Stays m (c.bind fun v => ifOf v p1 p2) (d.bind fun v => ifOf v f1 f2) := by
  apply stays_bind hc
  · intro _ w _
    exact stays_undef m _
  · intro v w hp hv _ ha
    have hf : IsFalsy c → truthy v = aDef false → Stays m (ifOf v p1 p2) (ifOf w f1 f2) := by
      intro hz ht
      have ht2 : truthy w = aDef false := by rw [← ht]; exact ha.symm
      have e1 : ifOf v p1 p2 = p2 := by
        cases v <;> simp_all [truthy, ifOf]
      have e2 : ifOf w f1 f2 = f2 := by
        cases w <;> simp_all [truthy, ifOf]
      rw [e1, e2]
      exact h2 hz
    cases v with
    | aUndef => exact absurd rfl hv
    | aNull => exact hf (Or.inl hp) rfl
    | aDef n =>
      by_cases hn : n = 0
      · subst hn
        exact hf (Or.inr hp) (by simp [truthy])
      · have e2 : ifOf w f1 f2 = f1 := by
          cases w <;> simp_all [Alike, truthy, ifOf]
        rw [ifOf, if_pos hn, e2]
        exact h1 ⟨n, hp, hn⟩

theorem truthOf_cases (p : Option (AValue ℤ)) (v : AValue ℤ) (h : truthOf p = some v) :
    p = some aUndef ∧ v = aUndef ∨ p = some aNull ∧ v = aNull ∨
      ∃ n, p = some (aDef n) ∧ v = aDef (btoi (n ≠ 0)) := by
  cases p with
  | none => cases h
  | some x =>
    cases x with
    | aUndef => exact Or.inl ⟨rfl, (Option.some.inj h).symm⟩
    | aNull => exact Or.inr (Or.inl ⟨rfl, (Option.some.inj h).symm⟩)
    | aDef n => exact Or.inr (Or.inr ⟨n, rfl, (Option.some.inj h).symm⟩)

theorem btoi_eq_zero (n : ℤ) : btoi (n ≠ 0) = 0 ↔ n = 0 := by
  by_cases h : n = 0 <;> simp [btoi, h]

theorem stays_truthOf {p f : Option (AValue ℤ)}
    (h : Stays (V := V) (k := .int) m.operand p f) :
    Stays (V := V) (k := .int) m (truthOf p) (truthOf f) := by
  apply stays_bind h
  · intro _ w _
    exact stays_undef m _
  · intro v w _ hv _ ha
    cases m with
    | truth =>
      cases v <;> cases w <;>
        simp_all [Alike, Mode.operand, truthy, flatMap, Stays, btoi]
    | logic =>
      cases v <;> cases w <;>
        simp_all [Alike, Mode.operand, logical, flatMap, Stays, btoi]
    | value =>
      cases v <;> cases w <;>
        simp_all [Alike, Mode.operand, logical, flatMap, Stays, btoi]

theorem alike_true (m : Mode) (hm : m ≠ .value) (n : ℤ) (hn : n ≠ 0) (w : AValue ℤ) :
    Alike (V := V) (k := .int) m (aDef n) w ↔ ∃ y, w = aDef y ∧ y ≠ 0 := by
  cases m with
  | value => exact absurd rfl hm
  | truth => cases w <;> simp [Alike, truthy, hn]
  | logic => cases w <;> simp [Alike, logical, hn]

theorem alike_falsy (m : Mode) (v w : AValue ℤ) (h : Alike (V := V) (k := .int) m v w)
    (hv : truthy v = aDef false) : truthy w = aDef false := by
  cases m with
  | truth => rw [← hv]; exact h.symm
  | value => rw [← hv, show v = w from h]
  | logic => cases v <;> cases w <;> simp_all [Alike, logical, truthy]

theorem orOf_falsy (v : AValue ℤ) (e : Option (AValue ℤ)) (hv : truthy v = aDef false) :
    orOf v e = truthOf e := by
  cases v <;> simp_all [truthy, orOf]

theorem andOf_falsy (v : AValue ℤ) (e : Option (AValue ℤ)) (hv : truthy v = aDef false) :
    andOf v e = some (aDef 0) := by
  cases v <;> simp_all [truthy, andOf]

theorem andOf_true (n : ℤ) (hn : n ≠ 0) (e : Option (AValue ℤ)) : andOf (aDef n) e = truthOf e :=
  if_neg hn

theorem isTrue_of_truthOf (p : Option (AValue ℤ)) (n : ℤ) (hn : n ≠ 0)
    (h : truthOf p = some (aDef n)) : IsTrue p := by
  rcases truthOf_cases p _ h with ⟨-, hv⟩ | ⟨-, hv⟩ | ⟨y, hp, hv⟩
  · cases hv
  · cases hv
  · refine ⟨y, hp, ?_⟩
    intro hy
    apply hn
    rw [AValue.aDef.inj hv]
    exact (btoi_eq_zero y).mpr hy

theorem stays_or_aUndef {p2 f2 : Option (AValue ℤ)} (w : AValue ℤ)
    (h2 : Stays (V := V) (k := .int) m.operand p2 f2) (h3 : m = .value → ¬ IsTrue p2) :
    Stays (V := V) (k := .int) m (orOf aUndef p2) (orOf w f2) := by
  intro x hx hne
  have ih := stays_truthOf h2
  change (truthOf p2).map _ = some x at hx
  obtain ⟨v, hv, hx⟩ := Option.map_eq_some_iff.mp hx
  cases v with
  | aUndef => exact absurd hx.symm hne
  | aNull => exact absurd hx.symm hne
  | aDef n =>
    by_cases hn : n = 0
    · subst hn
      exact absurd hx.symm hne
    · have hx : aDef n = x := by
        rw [← hx]
        exact (if_neg hn).symm
      subst hx
      have hm : m ≠ .value := fun hm => h3 hm (isTrue_of_truthOf p2 n hn hv)
      have hy : ∀ y : ℤ, y ≠ 0 → Alike (V := V) (k := .int) m (aDef n) (aDef y) :=
        fun y hy => (alike_true m hm n hn _).mpr ⟨y, rfl, hy⟩
      rcases ih _ hv (by simp) with hf | ⟨w2, hf, ha⟩
      · cases w with
        | aUndef => exact Or.inl (by rw [orOf, hf]; rfl)
        | aNull => exact Or.inl hf
        | aDef y =>
          by_cases h0 : y = 0
          · exact Or.inl (by rw [orOf, if_pos h0, hf])
          · exact Or.inr ⟨aDef y, if_neg h0, hy y h0⟩
      · obtain ⟨y2, hw2, hy2⟩ := (alike_true m hm n hn w2).mp ha
        subst hw2
        cases w with
        | aUndef =>
          refine Or.inr ⟨aDef y2, ?_, ha⟩
          rw [orOf, hf, Option.map_some]
          exact congrArg some (if_neg hy2)
        | aNull => exact Or.inr ⟨aDef y2, hf, ha⟩
        | aDef y =>
          by_cases h0 : y = 0
          · exact Or.inr ⟨aDef y2, by rw [orOf, if_pos h0, hf], ha⟩
          · exact Or.inr ⟨aDef y, if_neg h0, hy y h0⟩

/-- A true first operand is the value of the OR, so that the second one is not looked at. -/
theorem stays_or_true {p2 f2 : Option (AValue ℤ)} {n : ℤ} (hn : n ≠ 0) {w : AValue ℤ}
    (ha : Alike (V := V) (k := .int) m.first (aDef n) w) :
    Stays (V := V) (k := .int) m (orOf (aDef n) p2) (orOf w f2) := by
  have e1 : orOf (aDef n) p2 = some (aDef n) := if_neg hn
  rw [e1]
  cases m with
  | value =>
    have ha : aDef n = w := ha
    subst ha
    rw [show orOf (aDef n) f2 = some (aDef n) from if_neg hn]
    exact stays_refl _ _
  | truth =>
    obtain ⟨y, hw, hy⟩ := (alike_true .truth (by decide) n hn w).mp ha
    subst hw
    rw [show orOf (aDef y) f2 = some (aDef y) from if_neg hy]
    intro x hx _
    cases hx
    exact Or.inr ⟨aDef y, rfl, ha⟩
  | logic =>
    obtain ⟨y, hw, hy⟩ := (alike_true .truth (by decide) n hn w).mp ha
    subst hw
    rw [show orOf (aDef y) f2 = some (aDef y) from if_neg hy]
    intro x hx _
    cases hx
    exact Or.inr ⟨aDef y, rfl, (alike_true .logic (by decide) n hn _).mpr ⟨y, rfl, hy⟩⟩

theorem stays_or {p1 f1 p2 f2 : Option (AValue ℤ)}
    (h1 : Stays (V := V) (k := .int) m.first p1 f1)
    (h2 : ¬ IsTrue p1 → Stays (V := V) (k := .int) m.operand p2 f2)
    (h3 : m = .value → ¬ (p1 = some aUndef ∧ IsTrue p2)) :
    Stays (V := V) (k := .int) m (p1.bind fun v => orOf v p2) (f1.bind fun v => orOf v f2) := by
  apply stays_bind h1
  · intro hp w _
    have ht : ¬ IsTrue p1 := by
      intro ⟨n, hn, _⟩
      rw [hp] at hn
      cases hn
    exact stays_or_aUndef w (h2 ht) fun hm h => h3 hm ⟨hp, h⟩
  · intro v w hp hv _ ha
    have hz : truthy v = aDef false → ¬ IsTrue p1 →
        Stays (V := V) (k := .int) m (orOf v p2) (orOf w f2) := by
      intro hz ht
      rw [orOf_falsy v p2 hz, orOf_falsy w f2 (alike_falsy _ v w ha hz)]
      exact stays_truthOf (h2 ht)
    cases v with
    | aUndef => exact absurd rfl hv
    | aNull =>
      apply hz rfl
      intro ⟨n, hn, _⟩
      rw [hp] at hn
      cases hn
    | aDef n =>
      by_cases hn : n = 0
      · apply hz (by simp [truthy, hn])
        intro ⟨y, hy, h0⟩
        rw [hp] at hy
        cases hy
        exact h0 hn
      · exact stays_or_true hn ha

/-- An AND with an undefined first operand is 0 only where the second one is NULL or 0. -/
theorem andOf_aUndef_eq {p2 : Option (AValue ℤ)} {x : AValue ℤ} (hx : andOf aUndef p2 = some x)
    (hne : x ≠ aUndef) (hn : m ≠ .truth → p2 ≠ some aNull) :
    ∃ v, truthOf p2 = some v ∧ x = aDef 0 ∧ v ≠ aUndef ∧ truthy v = aDef false ∧
      (m ≠ .truth → v = aDef 0) := by
  change (truthOf p2).map _ = some x at hx
  obtain ⟨v, hv, hx⟩ := Option.map_eq_some_iff.mp hx
  refine ⟨v, hv, ?_⟩
  cases v with
  | aUndef => exact absurd hx.symm hne
  | aNull =>
    refine ⟨hx.symm, by simp, rfl, ?_⟩
    intro hm
    rcases truthOf_cases p2 _ hv with ⟨-, hc⟩ | ⟨hc, -⟩ | ⟨y, -, hc⟩
    · cases hc
    · exact absurd hc (hn hm)
    · cases hc
  | aDef n =>
    by_cases hn : n = 0
    · subst hn
      exact ⟨hx.symm, by simp, by simp [truthy], fun _ => rfl⟩
    · have hx : aUndef = x := by
        rw [← hx]
        exact (if_neg hn).symm
      exact absurd hx.symm hne

theorem stays_and_aUndef {p2 f2 : Option (AValue ℤ)} (w : AValue ℤ)
    (h2 : Stays (V := V) (k := .int) m.operand p2 f2) (h3 : m ≠ .truth → p2 ≠ some aNull) :
    Stays (V := V) (k := .int) m (andOf aUndef p2) (andOf w f2) := by
  intro x hx hne
  obtain ⟨v, hv, hx0, hvu, hvf, hvm⟩ := andOf_aUndef_eq hx hne h3
  subst hx0
  have hzero : ∀ w2, truthOf f2 = some w2 → Alike (V := V) (k := .int) m v w2 →
      Alike (V := V) (k := .int) m (aDef 0) w2 ∧ truthy w2 = aDef false := by
    intro w2 _ ha
    refine ⟨?_, alike_falsy m v w2 ha hvf⟩
    by_cases hm : m = .truth
    · subst hm
      have hw : truthy w2 = aDef false := alike_falsy .truth v w2 ha hvf
      change truthy (aDef 0) = truthy w2
      rw [hw]
      simp [truthy]
    · rw [← hvm hm]
      exact ha
  by_cases hw : truthy w = aDef false
  · exact Or.inr ⟨aDef 0, andOf_falsy w f2 hw, alike_refl m _⟩
  · rcases stays_truthOf h2 v hv hvu with hf | ⟨w2, hf, ha⟩
    · cases w with
      | aUndef => exact Or.inl (by rw [andOf, hf]; rfl)
      | aNull => exact absurd rfl hw
      | aDef y =>
        have hy : y ≠ 0 := fun hy => hw (by simp [truthy, hy])
        exact Or.inl (by rw [andOf_true y hy, hf])
    · have hz := hzero w2 hf ha
      cases w with
      | aUndef =>
        refine Or.inr ⟨aDef 0, ?_, alike_refl m _⟩
        rw [andOf, hf, Option.map_some]
        cases w2 <;> simp_all [truthy]
      | aNull => exact absurd rfl hw
      | aDef y =>
        have hy : y ≠ 0 := fun hy => hw (by simp [truthy, hy])
        exact Or.inr ⟨w2, by rw [andOf_true y hy, hf], hz.1⟩

theorem stays_and {p1 f1 p2 f2 : Option (AValue ℤ)}
    (h1 : Stays (V := V) (k := .int) .truth p1 f1)
    (h2 : ¬ IsFalsy p1 → Stays (V := V) (k := .int) m.operand p2 f2)
    (h3 : m ≠ .truth → ¬ (p1 = some aUndef ∧ p2 = some aNull)) :
    Stays (V := V) (k := .int) m (p1.bind fun v => andOf v p2) (f1.bind fun v => andOf v f2) := by
  apply stays_bind h1
  · intro hp w _
    have ht : ¬ IsFalsy p1 := by
      intro hf
      rw [hp] at hf
      rcases hf with hf | hf <;> cases hf
    exact stays_and_aUndef w (h2 ht) fun hm h => h3 hm ⟨hp, h⟩
  · intro v w hp hv _ ha
    by_cases hz : truthy v = aDef false
    · rw [andOf_falsy v p2 hz, andOf_falsy w f2 (alike_falsy .truth v w ha hz)]
      exact stays_refl m _
    · cases v with
      | aUndef => exact absurd rfl hv
      | aNull => exact absurd rfl hz
      | aDef n =>
        have hn : n ≠ 0 := fun hn => hz (by simp [truthy, hn])
        obtain ⟨y, hw, hy⟩ := (alike_true .truth (by decide) n hn w).mp ha
        subst hw
        rw [andOf_true n hn, andOf_true y hy]
        apply stays_truthOf
        apply h2
        intro hf
        rw [hp] at hf
        rcases hf with hf | hf
        · cases hf
        · cases hf
          exact hn rfl

theorem stays_coalesce (ps fs : List (Option (AValue (Val V k))))
    (h : StaysWhile m.element (fun v => v = some aNull) ps fs) :
    Stays m (coalesceOf ps) (coalesceOf fs) := by
  induction ps generalizing fs with
  | nil =>
    cases fs with
    | nil => exact stays_refl m _
    | cons f fs => exact False.elim h
  | cons p ps ih =>
    cases fs with
    | nil => exact False.elim h
    | cons f fs =>
      apply stays_bind h.1
      · intro _ w _
        exact stays_undef m _
      · intro v w hp hv _ ha
        have hn := alike_null m.element (by cases m <;> decide) v w ha
        have hu := alike_undef _ v w ha hv
        cases v with
        | aUndef => exact absurd rfl hv
        | aNull =>
          rw [hn.mp rfl]
          exact ih fs (h.2 hp)
        | aDef x =>
          cases w with
          | aUndef => exact absurd rfl hu
          | aNull => cases hn.mpr rfl
          | aDef y =>
            intro z hz _
            cases hz
            exact Or.inr ⟨aDef y, rfl, alike_element m _ _ ha⟩

theorem stays_nullIf (eq : Val V k → Val V k → Bool) (h1 : Stays .value p1 f1)
    (h2 : IsDef p1 → Stays .value p2 f2) :
    Stays m (p1.bind fun v => nullIfOf eq v p2) (f1.bind fun v => nullIfOf eq v f2) := by
  apply stays_bind h1
  · intro _ w _
    exact stays_undef m _
  · intro v w hp hv _ ha
    rw [← (alike_value v w).mp ha]
    cases v with
    | aUndef => exact absurd rfl hv
    | aNull => exact stays_refl m _
    | aDef x =>
      apply stays_bind (h2 ⟨x, hp⟩)
      · intro _ w _
        exact stays_undef m _
      · intro v2 w2 _ _ _ ha
        rw [(alike_value v2 w2).mp ha]
        exact stays_refl m _

def Below {α : Type} (v w : AValue α) : Prop := v = aUndef ∨ v = w

theorem below_compare {α : Type} (bop : α → α → Bool) (v1 v2 w1 w2 : AValue α)
    (h1 : Below v1 w1) (h2 : Below v2 w2) :
    ∃ c d, compareOf bop v1 v2 = some c ∧ compareOf bop w1 w2 = some d ∧ Below c d := by
  cases h1 with
  | inl h1 =>
    subst h1
    obtain ⟨d, hd⟩ : ∃ d, compareOf bop w1 w2 = some d := by cases w1 <;> cases w2 <;> exact ⟨_, rfl⟩
    exact ⟨aUndef, d, rfl, hd, Or.inl rfl⟩
  | inr h1 =>
    subst h1
    cases h2 with
    | inl h2 =>
      subst h2
      cases v1 with
      | aUndef => exact ⟨aUndef, aUndef, rfl, rfl, Or.inl rfl⟩
      | aNull => exact ⟨aNull, aNull, rfl, rfl, Or.inr rfl⟩
      | aDef x =>
        obtain ⟨d, hd⟩ : ∃ d, compareOf bop (aDef x) w2 = some d := by cases w2 <;> exact ⟨_, rfl⟩
        exact ⟨aUndef, d, rfl, hd, Or.inl rfl⟩
    | inr h2 =>
      subst h2
      obtain ⟨d, hd⟩ : ∃ d, compareOf bop v1 v2 = some d := by
        cases v1 <;> cases v2 <;> exact ⟨_, rfl⟩
      exact ⟨d, d, hd, hd, Or.inr rfl⟩

theorem below_between (negated : Bool) (l u l2 u2 : AValue ℤ) (hl : Below l l2)
    (hu : Below u u2) : Below (betweenOf negated l u) (betweenOf negated l2 u2) := by
  unfold Below betweenOf
  rcases hl with hl | hl <;> rcases hu with hu | hu <;> subst hl hu
  · exact Or.inl (by simp)
  · by_cases h0 : u = aDef 0
    · exact Or.inr (by simp [h0])
    · exact Or.inl (by simp [h0])
  · by_cases h0 : l = aDef 0
    · exact Or.inr (by simp [h0])
    · exact Or.inl (by simp [h0])
  · exact Or.inr rfl

theorem stays_below (h : Stays .value p f) (v : AValue (Val V k))
    (hp : p = some v) : f = none ∨ ∃ w, f = some w ∧ Below v w := by
  by_cases hv : v = aUndef
  · cases f with
    | none => exact Or.inl rfl
    | some w => exact Or.inr ⟨w, rfl, Or.inl hv⟩
  · rcases h v hp hv with hf | ⟨w, hf, ha⟩
    · exact Or.inl hf
    · exact Or.inr ⟨w, hf, Or.inr ((alike_value v w).mp ha)⟩

theorem stays_between (negated : Bool) {p1 f1 p2 f2 p3 f3 : Option (AValue ℤ)}
    (h1 : Stays (V := V) (k := .int) .value p1 f1) (h2 : Stays (V := V) (k := .int) .value p2 f2)
    (h3 : Stays (V := V) (k := .int) .value p3 f3) :
    Stays (V := V) (k := .int) m
      (p2.bind fun v2 => p1.bind fun v1 => p3.bind fun v3 =>
        (compareOf (fun n1 n2 : ℤ => n1 ≤ n2) v2 v1).bind fun lower =>
          (compareOf (fun n1 n2 : ℤ => n1 ≤ n2) v1 v3).map fun upper =>
            betweenOf negated lower upper)
      (f2.bind fun v2 => f1.bind fun v1 => f3.bind fun v3 =>
        (compareOf (fun n1 n2 : ℤ => n1 ≤ n2) v2 v1).bind fun lower =>
          (compareOf (fun n1 n2 : ℤ => n1 ≤ n2) v1 v3).map fun upper =>
            betweenOf negated lower upper) := by
  intro x hx hne
  cases p2 with
  | none => cases hx
  | some v2 =>
    cases p1 with
    | none => cases hx
    | some v1 =>
      cases p3 with
      | none => cases hx
      | some v3 =>
        rcases stays_below h2 v2 rfl with e2 | ⟨w2, e2, b2⟩
        · exact Or.inl (by rw [e2]; rfl)
        · rcases stays_below h1 v1 rfl with e1 | ⟨w1, e1, b1⟩
          · exact Or.inl (by rw [e2, e1]; rfl)
          · rcases stays_below h3 v3 rfl with e3 | ⟨w3, e3, b3⟩
            · exact Or.inl (by rw [e2, e1, e3]; rfl)
            · obtain ⟨c, c2, hc, hc2, bc⟩ :=
                below_compare (fun n1 n2 : ℤ => n1 ≤ n2) v2 v1 w2 w1 b2 b1
              obtain ⟨d, d2, hd, hd2, bd⟩ :=
                below_compare (fun n1 n2 : ℤ => n1 ≤ n2) v1 v3 w1 w3 b1 b3
              have hb := below_between negated c d c2 d2 bc bd
              simp only [Option.bind_some, hc, hd, Option.map_some, Option.some.injEq] at hx
              subst hx
              cases hb with
              | inl hb => exact absurd hb hne
              | inr hb =>
                refine Or.inr ⟨_, ?_, alike_refl m _⟩
                simp only [e2, e1, e3, Option.bind_some, hc2, hd2, Option.map_some, hb]

theorem stays_in (eq : Val V k → Val V k → Bool) (v : AValue (Val V k)) (hv : v ≠ aUndef)
    (ps fs : List (Option (AValue (Val V k)))) (hasNull : Bool)
    (h : StaysWhile .value (GoesOn eq v) ps fs) :
    Stays (V := V) (k := .int) m (inOf eq v ps hasNull) (inOf eq v fs hasNull) := by
  induction ps generalizing fs hasNull with
  | nil =>
    cases fs with
    | nil => exact stays_refl m _
    | cons f fs => exact False.elim h
  | cons p ps ih =>
    cases fs with
    | nil => exact False.elim h
    | cons f fs =>
      apply stays_bind h.1
      · intro hp w _
        cases v with
        | aUndef => exact absurd rfl hv
        | aNull => exact ih fs true (h.2 ⟨aUndef, hp, Or.inl rfl⟩)
        | aDef x => exact stays_undef m _
      · intro u w hp _ _ ha
        rw [← (alike_value u w).mp ha]
        cases hc : compareOf eq v u with
        | none => exact stays_refl m _
        | some c =>
          cases c with
          | aUndef => exact stays_refl m _
          | aNull => exact ih fs true (h.2 ⟨u, hp, Or.inl hc⟩)
          | aDef n =>
            by_cases hn : n = 0
            · simp only [Option.bind_some, if_pos hn]
              exact ih fs hasNull (h.2 ⟨u, hp, Or.inr (hn ▸ hc)⟩)
            · simp only [Option.bind_some, if_neg hn]
              exact stays_refl m _

theorem stays_mapM (ps fs : List (Option (AValue (Val V k)))) (vs : List (AValue (Val V k)))
    (h : StaysWhile .value (fun _ => True) ps fs) (hp : ps.mapM id = some vs)
    (hv : aUndef ∉ vs) : fs.mapM id = none ∨ fs.mapM id = some vs := by
  induction ps generalizing fs vs with
  | nil =>
    cases fs with
    | nil => exact Or.inr hp
    | cons f fs => exact False.elim h
  | cons p ps ih =>
    cases fs with
    | nil => exact False.elim h
    | cons f fs =>
      cases p with
      | none => simp at hp
      | some v =>
        rw [List.mapM_cons] at hp ⊢
        cases hps : ps.mapM id with
        | none => simp [hps] at hp
        | some us =>
          have hp : v :: us = vs := by simpa [hps] using hp
          subst hp
          have hvu : v ≠ aUndef := fun he => hv (by rw [he]; exact List.mem_cons_self)
          have hus := ih fs us (h.2 trivial) hps (fun hm => hv (List.mem_cons_of_mem _ hm))
          rcases h.1 v rfl hvu with hf | ⟨w, hf, ha⟩
          · exact Or.inl (by simp [hf])
          · rw [← (alike_value v w).mp ha] at hf
            rcases hus with hus | hus
            · exact Or.inl (by simp [hf, hus])
            · exact Or.inr (by simp [hf, hus])

theorem stays_strftime (f : String → String → List String → Option String)
    (format time : String) (ps fs : List (Option (AValue String)))
    (h : StaysWhile (V := V) (k := .string) .value (fun _ => True) ps fs) :
    Stays (V := V) (k := .string) m (strftimeOf f format time ps) (strftimeOf f format time fs) := by
  intro x hx hne
  cases hps : ps.mapM id with
  | none => rw [strftimeOf, hps] at hx; cases hx
  | some vs =>
    have hv : aUndef ∉ vs := by
      intro hm
      rw [strftimeOf, hps, Option.bind_some, if_pos hm] at hx
      exact hne (Option.some.inj hx).symm
    rcases stays_mapM (V := V) (k := .string) ps fs vs h hps hv with hf | hf
    · exact Or.inl (by rw [strftimeOf, hf]; rfl)
    · refine Or.inr ⟨x, ?_, alike_refl m x⟩
      rw [← hx, strftimeOf, strftimeOf, hps, hf]

theorem keeps_of_alike (v w : AValue ℤ) (hv : v ≠ aUndef)
    (h : Alike (V := V) (k := .int) .truth v w) : keeps w = keeps v := by
  have h : truthy v = truthy w := h
  cases v with
  | aUndef => exact absurd rfl hv
  | aNull => cases w <;> simp_all [truthy, keeps]
  | aDef x => cases w <;> simp_all [truthy, keeps]

theorem kept_of_stays {p f : Option (AValue ℤ)} (h : Stays (V := V) (k := .int) .truth p f)
    (hp : p ≠ some aUndef) : KeptStays p f := by
  intro v hv
  have hu : v ≠ aUndef := fun he => hp (he ▸ hv)
  rcases h v hv hu with hf | ⟨w, hf, ha⟩
  · exact Or.inl hf
  · exact Or.inr ⟨w, hf, keeps_of_alike v w hu ha⟩

end Values

section Rows

variable {V : Types} {D : Type} {α β : Type}

theorem rowsStay_refl (p : Option α) : RowsStay p p := fun _ hp => Or.inr hp

theorem rowsStay_bind {p f : Option α} {g g' : α → Option β} (h : RowsStay p f)
    (hg : ∀ x, p = some x → RowsStay (g x) (g' x)) : RowsStay (p.bind g) (f.bind g') := by
  intro y hy
  obtain ⟨x, hp, hx⟩ := Option.bind_eq_some_iff.mp hy
  rcases h x hp with hf | hf
  · exact Or.inl (by rw [hf]; rfl)
  · rw [hf]
    exact hg x hp y hx

theorem rowsStay_map {p f : Option α} (g : α → β) (h : RowsStay p f) :
    RowsStay (p.map g) (f.map g) := by
  rw [Option.map_eq_bind, Option.map_eq_bind]
  exact rowsStay_bind h fun x _ => rowsStay_refl _

theorem rowsStay_mapM {ps fs : List (Option α)} (h : List.Forall₂ RowsStay ps fs) :
    RowsStay (ps.mapM id) (fs.mapM id) := by
  induction h with
  | nil => exact rowsStay_refl _
  | cons hp _ ih =>
    rw [List.mapM_cons, List.mapM_cons]
    exact rowsStay_bind hp fun x _ => rowsStay_bind ih fun xs _ => rowsStay_refl _

theorem rowsStay_flattenM {rows : List α} {g g' : α → Option (List β)}
    (h : ∀ row ∈ rows, RowsStay (g row) (g' row)) :
    RowsStay (flattenM (rows.map g)) (flattenM (rows.map g')) := by
  refine rowsStay_map _ (rowsStay_mapM ?_)
  rw [List.forall₂_map_left_iff, List.forall₂_map_right_iff, List.forall₂_same]
  exact h

/-- Rows are kept or given up alike, and the checks of a query have no rows of their own. -/
theorem rowsStay_keeps {p f : Option (AValue ℤ)} {r r' : Option α} {e : α} (h : KeptStays p f)
    (hr : IsKept p → RowsStay r r') :
    RowsStay (p.bind fun v => if keeps v then r else some e)
      (f.bind fun v => if keeps v then r' else some e) := by
  intro x hx
  obtain ⟨v, hp, hv⟩ := Option.bind_eq_some_iff.mp hx
  rcases h v hp with hf | ⟨w, hf, hk⟩
  · exact Or.inl (by rw [hf]; rfl)
  · rw [hf, Option.bind_some, hk]
    by_cases hkv : keeps v = true
    · rw [if_pos hkv] at hv ⊢
      exact hr ⟨v, hp, hkv⟩ x hv
    · rw [if_neg hkv] at hv ⊢
      exact Or.inr hv

theorem rowsStay_having {p f : Option (AValue ℤ)} {r r' : Option α} {e : α}
    (h : Stays (V := V) (k := .int) .truth p f) (hr : IsKept p → RowsStay r r') :
    RowsStay (p.bind fun v => if v = aUndef then none else if keeps v then r else some e)
      (f.bind fun v => if v = aUndef then none else if keeps v then r' else some e) := by
  intro x hx
  obtain ⟨v, hp, hv⟩ := Option.bind_eq_some_iff.mp hx
  by_cases hu : v = aUndef
  · rw [if_pos hu] at hv
    cases hv
  · rw [if_neg hu] at hv
    rcases h v hp hu with hf | ⟨w, hf, ha⟩
    · exact Or.inl (by rw [hf]; rfl)
    · have hw := alike_undef (V := V) (k := .int) .truth v w ha hu
      rw [hf, Option.bind_some, if_neg hw, keeps_of_alike v w hu ha]
      by_cases hk : keeps v = true
      · rw [if_pos hk] at hv ⊢
        exact hr ⟨v, hp, hk⟩ x hv
      · rw [if_neg hk] at hv ⊢
        exact Or.inr hv

theorem rowsStay_params {value : AValue (CValue V) → Option (Option (CValue V))}
    (hu : value aUndef = none) {ps fs : List (Option (AValue (CValue V)))} (h : ParamsStay ps fs) :
    RowsStay (ps.mapM fun v => v.bind value) (fs.mapM fun v => v.bind value) := by
  induction h with
  | nil => exact rowsStay_refl _
  | @cons p f ps fs hp _ ih =>
    rw [List.mapM_cons, List.mapM_cons]
    refine rowsStay_bind ?_ fun x _ => rowsStay_bind ih fun xs _ => rowsStay_refl _
    intro x hx
    obtain ⟨v, hv, hx⟩ := Option.bind_eq_some_iff.mp hx
    have hd : v ≠ aUndef := by
      intro hd
      rw [hd, hu] at hx
      cases hx
    rcases hp v hv hd with hf | hf
    · exact Or.inl (by rw [hf]; rfl)
    · exact Or.inr (by rw [hf]; exact hx)

theorem rowsStay_rowOf (checks checks' : List (Option (AValue ℤ)))
    {ps fs : List (Option (AValue (CValue V)))} (h : ParamsStay ps fs) :
    RowsStay (rowOf checks ps) (rowOf checks' fs) := by
  intro row hrow
  rw [rowOf] at hrow
  obtain ⟨_, -, hrow⟩ := Option.bind_eq_some_iff.mp hrow
  rw [rowOf]
  cases hc : checks'.mapM fun v : Option (AValue ℤ) =>
      v.bind fun v => if v = aDef 0 then none else some () with
  | none => exact Or.inl rfl
  | some us => exact rowsStay_map _ (rowsStay_params rfl h) row hrow

theorem rowsStay_selectTable {rows : D → List (Row V)} {w w' : List (Row V) → Option (AValue ℤ)}
    {r r' : List (Row V) → Option (List (Row V))} {bound selected : List (Row V) → Prop}
    (hw : ∀ entries, bound entries → KeptStays (w entries) (w' entries))
    (hr : ∀ entries, selected entries → RowsStay (r entries) (r' entries)) (tables : List D)
    (entries : List (Row V)) (h : Walk rows w bound selected tables entries) :
    RowsStay (evalSelectTable rows w r tables entries)
      (evalSelectTable rows w' r' tables entries) := by
  induction tables generalizing entries with
  | nil => exact hr entries h
  | cons table tables ih =>
    rw [evalSelectTable, evalSelectTable]
    refine rowsStay_flattenM fun inputRow hrow => ?_
    obtain ⟨hb, hnext⟩ := h inputRow hrow
    exact rowsStay_keeps (hw _ hb) fun hk => ih _ (hnext hk)

end Rows

section Pruning

variable {V : Types} {D : Type}

section Run

variable (db : Db V D) (frame : Frame V D) (more : List (Row V)) (ups : ExprEvaluator V D)

theorem keptStays_of_readsBound (e : CExpr V D .int) (pre : ExprEvaluator V D)
    (h : ReadsBound db frame.entries.length e (pre ++ frame :: ups) pre.length) :
    KeptStays (eval db e (pre ++ frame :: ups)) (eval db e (pre ++ extend frame more :: ups)) := by
  intro v hv
  exact Or.inr ⟨v, by rw [eval_extend db frame more ups e pre h, hv], rfl⟩

mutual

theorem eval_stays : ∀ {k : Kind} (e : CExpr V D k) (m : Mode) (pre : ExprEvaluator V D),
    Settled db frame.entries.length m e (pre ++ frame :: ups) pre.length →
    Stays m (eval db e (pre ++ frame :: ups)) (eval db e (pre ++ extend frame more :: ups))
  | _, .cNull, m, pre, _ => stays_refl m _
  | _, .cLiteral v, m, pre, _ => stays_refl m _
  | _, .cISize tableNbr, m, pre, _ => by
    cases pre <;> exact stays_refl m _
  | k, .cGetFrom tableNbr n, m, pre, _ => by
    cases pre with
    | cons f pre => exact stays_refl m _
    | nil =>
      by_cases hl : tableNbr < frame.entries.length
      · have he := eval_extend db frame more ups (.cGetFrom (k := k) tableNbr n) [] fun _ => hl
        rw [he]
        exact stays_refl m _
      · have he : eval db (.cGetFrom tableNbr n) ([] ++ frame :: ups) =
            (some aUndef : Option (AValue (Val V k))) := by
          change getFrom db k frame.entries tableNbr n = some aUndef
          rw [getFrom, List.getElem?_eq_none (Nat.le_of_not_lt hl)]
        rw [he]
        exact stays_undef m _
  | _, .cFresh, m, pre, h => False.elim h
  | _, .cUp e, m, pre, h => by
    cases pre with
    | nil => exact stays_refl m _
    | cons f pre =>
      have ih := eval_stays e m pre h
      rw [eval, eval]
      cases pre <;> exact ih
  | _, .unary f e, m, pre, h => by
    have ih := eval_stays e .value pre h
    rw [eval, eval]
    exact stays_flatMap ih (fun x _ => stays_refl m _)
  | _, .binary f e1 e2, m, pre, h => by
    have ih1 := eval_stays e1 .value pre h.1
    rw [eval, eval]
    apply stays_flatMap ih1
    intro x hx
    have ih2 := eval_stays e2 .value pre (h.2 ⟨x, hx⟩)
    exact stays_flatMap ih2 (fun y _ => stays_refl m _)
  | _, .cCompare bop e1 e2, m, pre, h => by
    have ih1 := eval_stays e1 .value pre h.1
    rw [eval, eval]
    exact stays_compare bop ih1 (fun hd => eval_stays e2 .value pre (h.2 hd))
  | _, .cStrftime f sformat stime smodifiers, m, pre, h => by
    have ih1 := eval_stays sformat .value pre h.1
    rw [eval, eval]
    apply stays_flatMap (V := V) (k := .string) (l := .string) ih1
    intro format hf
    have ih2 := eval_stays stime .value pre (h.2.1 ⟨format, hf⟩)
    apply stays_flatMap (V := V) (k := .string) (l := .string) ih2
    intro time ht
    have ih3 := evals_stays smodifiers .value (fun _ => True) pre
      (h.2.2 ⟨format, hf⟩ ⟨time, ht⟩)
    exact stays_strftime f format time _ _ ih3
  | _, .cNot e, m, pre, h => by
    have ih := eval_stays e .logic pre h
    rw [eval, eval]
    exact stays_not ih
  | _, .cOn e, m, pre, h => by
    have ih := eval_stays e m pre h
    rw [eval, eval]
    exact ih
  | _, .cIf conde e1 e2, m, pre, h => by
    have ih := eval_stays conde .truth pre h.1
    rw [eval, eval]
    exact stays_if ih (fun hc => eval_stays e1 m pre (h.2.1 hc))
      (fun hc => eval_stays e2 m pre (h.2.2 hc))
  | _, .cOr e1 e2, m, pre, h => by
    have ih := eval_stays e1 m.first pre h.1
    rw [eval, eval]
    exact stays_or ih (fun hc => eval_stays e2 m.operand pre (h.2.1 hc)) h.2.2
  | _, .cAnd e1 e2, m, pre, h => by
    have ih := eval_stays e1 .truth pre h.1
    rw [eval, eval]
    exact stays_and ih (fun hc => eval_stays e2 m.operand pre (h.2.1 hc)) h.2.2
  | _, .cIsNull e, m, pre, h => by
    have ih := eval_stays e .logic pre h
    rw [eval, eval]
    exact stays_isNull ih
  | _, .cCoalesce el, m, pre, h => by
    have ih := evals_stays el m.element (fun v => v = some aNull) pre h
    rw [eval, eval]
    exact stays_coalesce _ _ ih
  | _, .cNullIf eq e1 e2, m, pre, h => by
    have ih := eval_stays e1 .value pre h.1
    rw [eval, eval]
    exact stays_nullIf eq ih (fun hd => eval_stays e2 .value pre (h.2 hd))
  | _, .cIBetween negated e1 e2 e3, m, pre, h => by
    have ih1 := eval_stays e1 .value pre h.1
    have ih2 := eval_stays e2 .value pre h.2.1
    have ih3 := eval_stays e3 .value pre h.2.2
    rw [eval, eval]
    exact stays_between negated ih1 ih2 ih3
  | _, .cIn eq vExpr set, m, pre, h => by
    have ih := eval_stays vExpr .value pre h.1
    rw [eval, eval]
    apply stays_bind ih
    · intro hp w _
      cases set with
      | nil => exact absurd rfl (h.2.1 hp)
      | cons e es =>
        intro x hx hne
        rw [evals, inOf] at hx
        cases he : eval db e (pre ++ frame :: ups) with
        | none => rw [he] at hx; cases hx
        | some u =>
          rw [he] at hx
          exact absurd (Option.some.inj hx).symm hne
    · intro v w hp hv _ ha
      rw [← (alike_value v w).mp ha]
      exact stays_in eq v hv _ _ _
        (evals_stays set .value (GoesOn eq v) pre (h.2.2 v hp hv))
  | _, .cInQuery found vExpr query, m, pre, h => by
    have ih := eval_stays vExpr .value pre h.1
    rw [eval, eval]
    apply stays_bind ih
    · intro _ w _
      exact stays_undef m _
    · intro v w hp hv _ ha
      rw [← (alike_value v w).mp ha]
      cases v with
      | aUndef => exact absurd rfl hv
      | aNull => exact stays_refl m _
      | aDef x =>
        intro y hy hne
        obtain ⟨rows, hrows, hy⟩ := Option.map_eq_some_iff.mp hy
        rcases select_stays query pre (h.2 ⟨x, hp⟩) rows hrows with hf | hf
        · exact Or.inl (by rw [hf]; rfl)
        · exact Or.inr ⟨y, by rw [hf, ← hy]; rfl, alike_refl m y⟩
  | _, .cExists select, m, pre, h => by
    rw [eval, eval]
    intro y hy hne
    obtain ⟨rows, hrows, hy⟩ := Option.map_eq_some_iff.mp hy
    rcases select_stays select pre h rows hrows with hf | hf
    · exact Or.inl (by rw [hf]; rfl)
    · exact Or.inr ⟨y, by rw [hf, ← hy]; rfl, alike_refl m y⟩
  | k, .cQuery select, m, pre, h => by
    rw [eval, eval]
    intro y hy hne
    obtain ⟨rows, hrows, hy⟩ := Option.bind_eq_some_iff.mp hy
    rcases select_stays select pre h rows hrows with hf | hf
    · exact Or.inl (by rw [hf]; rfl)
    · exact Or.inr ⟨y, by rw [hf]; exact hy, alike_refl m y⟩

theorem evals_stays : ∀ {k : Kind} (es : CExprs V D k) (m : Mode)
    (goesOn : Option (AValue (Val V k)) → Prop) (pre : ExprEvaluator V D),
    SettledWhile db frame.entries.length m goesOn es (pre ++ frame :: ups) pre.length →
    StaysWhile m goesOn (evals db es (pre ++ frame :: ups))
      (evals db es (pre ++ extend frame more :: ups))
  | _, .nil, _, _, _, _ => trivial
  | _, .cons e es, m, goesOn, pre, h =>
    ⟨eval_stays e m pre h.1, fun hg => evals_stays es m goesOn pre (h.2 hg)⟩

theorem params_stay : ∀ (es : CGExprs V D) (pre : ExprEvaluator V D),
    ParamsSettled db frame.entries.length es (pre ++ frame :: ups) pre.length →
    ParamsStay (evalParams db es (pre ++ frame :: ups))
      (evalParams db es (pre ++ extend frame more :: ups))
  | .nil, pre, h => List.Forall₂.nil
  | .cGNull es, pre, h => by
    rw [evalParams, evalParams]
    exact List.Forall₂.cons (fun v hv _ => Or.inr hv) (params_stay es pre h)
  | .cons e es, pre, h => by
    rw [evalParams, evalParams]
    refine List.Forall₂.cons (fun v hv hne => ?_) (params_stay es pre h.2)
    obtain ⟨x, hx, hv⟩ := Option.bind_eq_some_iff.mp hv
    have hu : x ≠ aUndef := by
      intro hu
      rw [hu] at hv
      exact hne (Option.some.inj hv).symm
    rcases eval_stays e .value pre h.1 x hx hu with hf | ⟨w, hf, ha⟩
    · exact Or.inl (by rw [hf]; rfl)
    · rw [← (alike_value x w).mp ha] at hf
      exact Or.inr (by rw [hf]; exact hv)

theorem select_stays : ∀ (select : CSelect V D) (pre : ExprEvaluator V D),
    SelectSettled db frame.entries.length select (pre ++ frame :: ups) pre.length →
    RowsStay (evalSelect db select (pre ++ frame :: ups))
      (evalSelect db select (pre ++ extend frame more :: ups))
  | .simple [] condition params effects finish, pre, h => by
    rw [evalSelect, evalSelect]
    refine rowsStay_keeps ?_ fun hk => rowsStay_map finish (rowsStay_rowOf _ _
      (params_stay params (⟨[], []⟩ :: pre) (h.2 hk)))
    rcases h.1 with hb | ⟨hs, hd⟩
    · exact keptStays_of_readsBound db frame more ups condition (⟨[], []⟩ :: pre) hb
    · exact kept_of_stays (eval_stays condition .truth (⟨[], []⟩ :: pre) hs) hd
  | .simple (table :: tables) condition params effects finish, pre, h => by
    rw [evalSelect, evalSelect]
    refine rowsStay_map finish (rowsStay_selectTable (fun entries hb => ?_)
      (fun entries hs => ?_) (table :: tables) [] h)
    · rcases hb with hb | ⟨hs, hd⟩
      · exact keptStays_of_readsBound db frame more ups condition
          (⟨entries, table :: tables⟩ :: pre) hb
      · exact kept_of_stays
          (eval_stays condition .truth (⟨entries, table :: tables⟩ :: pre) hs) hd
    · exact rowsStay_rowOf _ _ (params_stay params (⟨entries, table :: tables⟩ :: pre) hs)
  | .aggr [] condition aggrs reduce having params effects empty finish, pre, h => by
    rw [evalSelect, evalSelect]
    refine rowsStay_bind (rowsStay_rowOf _ _ (params_stay aggrs (⟨[], []⟩ :: pre) h.1))
      fun entry hentry => rowsStay_map finish (rowsStay_flattenM fun row hrow => ?_)
    exact rowsStay_rowOf _ _ (params_stay params (⟨[row], []⟩ :: pre) (h.2 entry hentry row hrow))
  | .aggr (table :: tables) condition aggrs reduce having params effects empty finish, pre, h => by
    rw [evalSelect, evalSelect]
    refine rowsStay_bind (rowsStay_selectTable (fun entries hb => ?_) (fun entries hs => ?_)
      (table :: tables) [] h.1) fun rows hrows => ?_
    · rcases hb with hb | ⟨hs, hd⟩
      · exact keptStays_of_readsBound db frame more ups condition
          (⟨entries, table :: tables⟩ :: pre) hb
      · exact kept_of_stays
          (eval_stays condition .truth (⟨entries, table :: tables⟩ :: pre) hs) hd
    · exact rowsStay_rowOf _ _ (params_stay aggrs (⟨entries, table :: tables⟩ :: pre) hs)
    obtain ⟨hgroups, hempty⟩ := h.2 rows hrows
    refine rowsStay_bind (rowsStay_flattenM fun row hrow => ?_) fun data hdata => ?_
    · exact rowsStay_having
        (eval_stays having .truth (⟨[row], table :: tables⟩ :: pre) (hgroups row hrow).1)
        fun hk => rowsStay_rowOf _ _
          (params_stay params (⟨[row], table :: tables⟩ :: pre) ((hgroups row hrow).2 hk))
    · refine rowsStay_map finish ?_
      cases data with
      | cons row data => exact rowsStay_refl _
      | nil =>
        cases empty with
        | none => exact rowsStay_refl _
        | some row =>
          exact rowsStay_rowOf _ _
            (params_stay params (⟨[row], table :: tables⟩ :: pre) (hempty hdata row rfl))
  | .compound combine select rest, pre, h => by
    rw [evalSelect, evalSelect]
    exact rowsStay_bind (select_stays select pre h.1) fun rows _ =>
      rowsStay_map _ (select_stays rest pre h.2)

end

end Run

end Pruning
end SkipPlatform.SqlExprPruning
