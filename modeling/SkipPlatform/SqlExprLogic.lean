import SkipPlatform.SqlExpr

set_option autoImplicit false

/-! AND, OR, NOT, BETWEEN and IN against three-valued logic, where a truth value is an integer, true
for every integer other than 0, and NULL is unknown. -/
namespace SkipPlatform.SqlExprLogic

open SqlExpr SqlExpr.AValue

def kNot (x : Option ℤ) : Option ℤ := x.map fun n => if n = 0 then 1 else 0

def kAnd : Option ℤ → Option ℤ → Option ℤ
  | none, none => none
  | none, some m => if m = 0 then some 0 else none
  | some n, none => if n = 0 then some 0 else none
  | some n, some m => if n = 0 ∨ m = 0 then some 0 else some 1

def kOr : Option ℤ → Option ℤ → Option ℤ
  | none, none => none
  | none, some m => if m = 0 then none else some 1
  | some n, none => if n = 0 then none else some n
  | some n, some m => if n ≠ 0 then some n else if m = 0 then some 0 else some 1

def kCompare (bop : ℤ → ℤ → Bool) (x y : Option ℤ) : Option ℤ :=
  x.bind fun n => y.map fun m => btoi (bop n m)

def kBetween (negated : Bool) (x lower upper : Option ℤ) : Option ℤ :=
  if negated then
    kNot (kAnd (kCompare (fun n m => n ≤ m) lower x) (kCompare (fun n m => n ≤ m) x upper))
  else kAnd (kCompare (fun n m => n ≤ m) lower x) (kCompare (fun n m => n ≤ m) x upper)

def kIn (x : Option ℤ) : List (Option ℤ) → Option ℤ
  | [] => some 0
  | y :: ys => kOr (kCompare (fun n m => n == m) x y) (kIn x ys)

section Expressions

variable {V : Types} {D : Type}

mutual

/-- Boolean expressions over integer operands; the list of IN is never empty. -/
inductive BoolExpr (V : Types) (D : Type) : Type where
  | operand (e : CExpr V D .int) : BoolExpr V D
  | not (e : BoolExpr V D) : BoolExpr V D
  | and (e1 e2 : BoolExpr V D) : BoolExpr V D
  | or (e1 e2 : BoolExpr V D) : BoolExpr V D
  | between (negated : Bool) (e1 e2 e3 : BoolExpr V D) : BoolExpr V D
  | inList (v elt : BoolExpr V D) (set : BoolExprs V D) : BoolExpr V D

inductive BoolExprs (V : Types) (D : Type) : Type where
  | nil : BoolExprs V D
  | cons (e : BoolExpr V D) (es : BoolExprs V D) : BoolExprs V D

end

mutual

def BoolExpr.toCExpr : BoolExpr V D → CExpr V D .int
  | .operand e => e
  | .not e => .cNot e.toCExpr
  | .and e1 e2 => .cAnd e1.toCExpr e2.toCExpr
  | .or e1 e2 => .cOr e1.toCExpr e2.toCExpr
  | .between negated e1 e2 e3 => .cIBetween negated e1.toCExpr e2.toCExpr e3.toCExpr
  | .inList v elt set =>
    .cIn (fun n m : ℤ => n == m) v.toCExpr (.cons elt.toCExpr set.toCExprs)

def BoolExprs.toCExprs : BoolExprs V D → CExprs V D .int
  | .nil => .nil
  | .cons e es => .cons e.toCExpr es.toCExprs

end

def operandValue (db : Db V D) (env : ExprEvaluator V D) (e : CExpr V D .int) : Option ℤ :=
  match eval db e env with
  | some (aDef n) => some n
  | _ => none

mutual

def kleene (db : Db V D) (env : ExprEvaluator V D) : BoolExpr V D → Option ℤ
  | .operand e => operandValue db env e
  | .not e => kNot (kleene db env e)
  | .and e1 e2 => kAnd (kleene db env e1) (kleene db env e2)
  | .or e1 e2 => kOr (kleene db env e1) (kleene db env e2)
  | .between negated e1 e2 e3 =>
    kBetween negated (kleene db env e1) (kleene db env e2) (kleene db env e3)
  | .inList v elt set => kIn (kleene db env v) (kleene db env elt :: kleenes db env set)

def kleenes (db : Db V D) (env : ExprEvaluator V D) : BoolExprs V D → List (Option ℤ)
  | .nil => []
  | .cons e es => kleene db env e :: kleenes db env es

end

mutual

/-- `P` holds of the expression and of all its parts. -/
def Everywhere (P : BoolExpr V D → Prop) : BoolExpr V D → Prop
  | .operand e => P (.operand e)
  | .not e => P (.not e) ∧ Everywhere P e
  | .and e1 e2 => P (.and e1 e2) ∧ Everywhere P e1 ∧ Everywhere P e2
  | .or e1 e2 => P (.or e1 e2) ∧ Everywhere P e1 ∧ Everywhere P e2
  | .between negated e1 e2 e3 =>
    P (.between negated e1 e2 e3) ∧ Everywhere P e1 ∧ Everywhere P e2 ∧ Everywhere P e3
  | .inList v elt set =>
    P (.inList v elt set) ∧ Everywhere P v ∧ Everywhere P elt ∧ Everywheres P set

def Everywheres (P : BoolExpr V D → Prop) : BoolExprs V D → Prop
  | .nil => True
  | .cons e es => Everywhere P e ∧ Everywheres P es

end

def ofOption : Option ℤ → AValue ℤ
  | none => aNull
  | some n => aDef n

def HasValue (db : Db V D) (env : ExprEvaluator V D) : BoolExpr V D → Prop
  | .operand e => eval db e env = some (ofOption (operandValue db env e))
  | _ => True

/-- The truth value that a NULL is mistaken for in AND, where `x1` and `x2` are prescribed for the
operands and `m1` and `m2` are their own mistakes. -/
def andMistake (x1 m1 x2 m2 : Option ℤ) : Option ℤ :=
  if x1 = some 0 ∨ x2 = some 0 then none
  else
    match x1 with
    | some _ => m2
    | none =>
      -- What is mistaken for true leaves it to the second operand, any other NULL is taken for false.
      if m1 = some 1 then m2.or (x2.map fun _ => 1) else some 0

def orMistake (x1 m1 x2 m2 : Option ℤ) : Option ℤ :=
  match x1 with
  | some n => if n = 0 then m2 else none
  | none =>
    if m1 = some 1 then if x2 = none ∨ x2 = some 0 then some 1 else none
    -- Any other NULL leaves it to the second operand, also when that one is false.
    else if x2 = some 0 then some 0
    else m2

/-- The truth value in place of a prescribed NULL, where a connective makes no mistake of its own. -/
def passedOn (prescribed read : Option ℤ) : Option ℤ := if prescribed = none then read else none

mutual

/-- The truth value that the NULL of an expression is mistaken for. -/
def mistaken (db : Db V D) (env : ExprEvaluator V D) : BoolExpr V D → Option ℤ
  | .operand _ => none
  | .not e => kNot (mistaken db env e)
  | .and e1 e2 =>
    andMistake (kleene db env e1) (mistaken db env e1) (kleene db env e2) (mistaken db env e2)
  | .or e1 e2 =>
    orMistake (kleene db env e1) (mistaken db env e1) (kleene db env e2) (mistaken db env e2)
  | .between negated e1 e2 e3 =>
    passedOn (kleene db env (.between negated e1 e2 e3))
      (kBetween negated ((mistaken db env e1).or (kleene db env e1))
        ((mistaken db env e2).or (kleene db env e2)) ((mistaken db env e3).or (kleene db env e3)))
  | .inList v elt set =>
    passedOn (kleene db env (.inList v elt set))
      (kIn ((mistaken db env v).or (kleene db env v))
        ((mistaken db env elt).or (kleene db env elt) :: readAll db env set))

def readAll (db : Db V D) (env : ExprEvaluator V D) : BoolExprs V D → List (Option ℤ)
  | .nil => []
  | .cons e es => (mistaken db env e).or (kleene db env e) :: readAll db env es

end

def Prescribed (db : Db V D) (env : ExprEvaluator V D) (e : BoolExpr V D) : Prop :=
  eval db e.toCExpr env = some (ofOption (kleene db env e))

end Expressions

section Connectives

def vAnd : Option ℤ → Option ℤ → Option ℤ
  | none, _ => some 0
  | some n, y => if n = 0 then some 0 else y.map fun m => btoi (m ≠ 0)

def vOr : Option ℤ → Option ℤ → Option ℤ
  | none, y => y.map fun m => btoi (m ≠ 0)
  | some n, y => if n = 0 then y.map fun m => btoi (m ≠ 0) else some n

theorem truthOf_ofOption (y : Option ℤ) :
    truthOf (some (ofOption y)) = some (ofOption (y.map fun m => btoi (m ≠ 0))) := by
  cases y <;> rfl

variable (x y : Option ℤ)

theorem ofOption_inj : ofOption x = ofOption y ↔ x = y := by
  cases x <;> cases y <;> simp [ofOption]

theorem notOf_ofOption (x : Option ℤ) : notOf (ofOption x) = some (ofOption (kNot x)) := by
  cases x <;> rfl

theorem andOf_ofOption :
    andOf (ofOption x) (some (ofOption y)) = some (ofOption (vAnd x y)) := by
  cases x with
  | none => rfl
  | some n =>
    change (if n = 0 then some (aDef 0) else truthOf (some (ofOption y))) = _
    rw [truthOf_ofOption, vAnd]
    by_cases hn : n = 0
    · rw [if_pos hn, if_pos hn]
      rfl
    · rw [if_neg hn, if_neg hn]

theorem orOf_ofOption :
    orOf (ofOption x) (some (ofOption y)) = some (ofOption (vOr x y)) := by
  cases x with
  | none => exact truthOf_ofOption y
  | some n =>
    change (if n = 0 then truthOf (some (ofOption y)) else some (aDef n)) = _
    rw [truthOf_ofOption, vOr]
    by_cases hn : n = 0
    · rw [if_pos hn, if_pos hn]
    · rw [if_neg hn, if_neg hn]
      rfl

variable (bop : ℤ → ℤ → Bool)

theorem compareOf_ofOption (x y : Option ℤ) :
    compareOf bop (ofOption x) (ofOption y) = some (ofOption (kCompare bop x y)) := by
  cases x <;> cases y <;> rfl

theorem kCompare_range (x y : Option ℤ) :
    kCompare bop x y = none ∨ kCompare bop x y = some 0 ∨ kCompare bop x y = some 1 := by
  cases x with
  | none => exact Or.inl rfl
  | some n =>
    cases y with
    | none => exact Or.inl rfl
    | some m =>
      cases h : bop n m with
      | false => exact Or.inr (Or.inl (by simp [kCompare, btoi, h]))
      | true => exact Or.inr (Or.inr (by simp [kCompare, btoi, h]))

theorem betweenOf_ofOption (negated : Bool) (x lower upper : Option ℤ) :
    betweenOf negated (ofOption (kCompare (fun n m => n ≤ m) lower x))
      (ofOption (kCompare (fun n m => n ≤ m) x upper)) =
      ofOption (kBetween negated x lower upper) := by
  have h1 := kCompare_range (fun n m => n ≤ m) lower x
  have h2 := kCompare_range (fun n m => n ≤ m) x upper
  unfold kBetween
  generalize kCompare (fun n m => n ≤ m) lower x = a at h1 ⊢
  generalize kCompare (fun n m => n ≤ m) x upper = b at h2 ⊢
  rcases h1 with h1 | h1 | h1 <;> rcases h2 with h2 | h2 | h2 <;> subst h1 <;> subst h2 <;>
    cases negated <;> rfl

theorem kIn_range (x : Option ℤ) (ys : List (Option ℤ)) :
    kIn x ys = none ∨ kIn x ys = some 0 ∨ kIn x ys = some 1 := by
  induction ys with
  | nil => exact Or.inr (Or.inl rfl)
  | cons y ys ih =>
    have hc := kCompare_range (fun n m => n == m) x y
    rw [kIn]
    generalize kCompare (fun n m => n == m) x y = c at hc ⊢
    generalize kIn x ys = z at ih ⊢
    rcases hc with hc | hc | hc <;> rcases ih with ih | ih | ih <;> subst hc <;> subst ih <;> decide

theorem inOf_ofOption (x : Option ℤ) (ys : List (Option ℤ)) (hasNull : Bool) :
    inOf (fun n m : ℤ => n == m) (ofOption x) (ys.map fun y => some (ofOption y)) hasNull =
      some (ofOption (if hasNull then kOr none (kIn x ys) else kIn x ys)) := by
  induction ys generalizing hasNull with
  | nil => cases hasNull <;> rfl
  | cons y ys ih =>
    have hc := kCompare_range (fun n m => n == m) x y
    have hz := kIn_range x ys
    rw [List.map_cons, inOf, Option.bind_some, compareOf_ofOption, Option.bind_some, kIn]
    generalize kCompare (fun n m => n == m) x y = c at hc ⊢
    rcases hc with hc | hc | hc
    · subst hc
      change inOf _ (ofOption x) _ true = _
      rw [ih true]
      generalize kIn x ys = z at hz ⊢
      rcases hz with hz | hz | hz <;> subst hz <;> cases hasNull <;> rfl
    · subst hc
      change inOf _ (ofOption x) _ hasNull = _
      rw [ih hasNull]
      generalize kIn x ys = z at hz ⊢
      rcases hz with hz | hz | hz <;> subst hz <;> cases hasNull <;> rfl
    · subst hc
      generalize kIn x ys = z at hz ⊢
      rcases hz with hz | hz | hz <;> subst hz <;> cases hasNull <;> rfl

theorem inOf_start (ys : List (Option ℤ)) :
    inOf (fun n m : ℤ => n == m) (ofOption x) ((y :: ys).map fun y => some (ofOption y))
      (ofOption x).isNull = some (ofOption (kIn x (y :: ys))) := by
  rw [inOf_ofOption]
  cases x with
  | some n => rfl
  | none =>
    change some (ofOption (kOr none (kOr none (kIn none ys)))) = some (ofOption (kOr none (kIn none ys)))
    have hz := kIn_range none ys
    generalize kIn none ys = z at hz ⊢
    rcases hz with hz | hz | hz <;> subst hz <;> rfl

/-- A value that is NULL by three-valued logic may be computed as 0 or 1. -/
def Refined (x v : Option ℤ) : Prop := v = x ∨ x = none ∧ (v = some 0 ∨ v = some 1)

theorem refined_not (x v : Option ℤ) (h : Refined x v) : Refined (kNot x) (kNot v) := by
  rcases h with h | ⟨hx, hv | hv⟩
  · exact Or.inl (congrArg kNot h)
  · subst hx hv
    exact Or.inr ⟨rfl, Or.inr rfl⟩
  · subst hx hv
    exact Or.inr ⟨rfl, Or.inl rfl⟩

theorem refined_kCompare (x1 x2 v1 v2 : Option ℤ) (h1 : Refined x1 v1)
    (h2 : Refined x2 v2) : Refined (kCompare bop x1 x2) (kCompare bop v1 v2) := by
  have hr := kCompare_range bop v1 v2
  have hn : kCompare bop x1 x2 = none → Refined (kCompare bop x1 x2) (kCompare bop v1 v2) := by
    intro hk
    rw [hk]
    rcases hr with hr | hr | hr
    · exact Or.inl hr
    · exact Or.inr ⟨rfl, Or.inl hr⟩
    · exact Or.inr ⟨rfl, Or.inr hr⟩
  rcases h1 with h1 | ⟨h1, -⟩
  · rcases h2 with h2 | ⟨h2, -⟩
    · subst h1 h2
      exact Or.inl rfl
    · subst h2
      apply hn
      cases x1 <;> rfl
  · subst h1
    exact hn rfl

theorem Refined.trans {x v w : Option ℤ} (h : Refined x v) (h' : Refined v w) : Refined x w := by
  rcases h with rfl | ⟨hx, hv⟩
  · exact h'
  · rcases h' with rfl | ⟨hn, -⟩
    · exact Or.inr ⟨hx, hv⟩
    · rcases hv with hv | hv <;> rw [hn] at hv <;> cases hv

theorem refined_connective (f : Option ℤ → Option ℤ → Option ℤ)
    (hleft : ∀ y v, v = some 0 ∨ v = some 1 → Refined (f none y) (f v y))
    (hright : ∀ x v, v = some 0 ∨ v = some 1 → Refined (f x none) (f x v))
    (x1 x2 v1 v2 : Option ℤ) (h1 : Refined x1 v1) (h2 : Refined x2 v2) :
    Refined (f x1 x2) (f v1 v2) := by
  have hfirst : Refined (f x1 x2) (f v1 x2) := by
    rcases h1 with rfl | ⟨rfl, hv⟩
    · exact Or.inl rfl
    · exact hleft _ _ hv
  have hsecond : Refined (f v1 x2) (f v1 v2) := by
    rcases h2 with rfl | ⟨rfl, hv⟩
    · exact Or.inl rfl
    · exact hright _ _ hv
  exact hfirst.trans hsecond

variable (x1 x2 v1 v2 : Option ℤ)

theorem refined_kAnd (h1 : Refined x1 v1) (h2 : Refined x2 v2) :
    Refined (kAnd x1 x2) (kAnd v1 v2) := by
  apply refined_connective kAnd _ _ x1 x2 v1 v2 h1 h2
  · intro y v hv
    cases y with
    | none => rcases hv with hv | hv <;> subst hv <;> simp [Refined, kAnd]
    | some m =>
      rcases hv with hv | hv <;> subst hv <;> by_cases hm : m = 0 <;> simp [Refined, kAnd, hm]
  · intro x v hv
    cases x with
    | none => rcases hv with hv | hv <;> subst hv <;> simp [Refined, kAnd]
    | some n =>
      rcases hv with hv | hv <;> subst hv <;> by_cases hn : n = 0 <;> simp [Refined, kAnd, hn]

theorem refined_kOr (h1 : Refined x1 v1) (h2 : Refined x2 v2) :
    Refined (kOr x1 x2) (kOr v1 v2) := by
  apply refined_connective kOr _ _ x1 x2 v1 v2 h1 h2
  · intro y v hv
    cases y with
    | none => rcases hv with hv | hv <;> subst hv <;> simp [Refined, kOr]
    | some m =>
      rcases hv with hv | hv <;> subst hv <;> by_cases hm : m = 0 <;> simp [Refined, kOr, hm]
  · intro x v hv
    cases x with
    | none => rcases hv with hv | hv <;> subst hv <;> simp [Refined, kOr]
    | some n =>
      rcases hv with hv | hv <;> subst hv <;> by_cases hn : n = 0 <;> simp [Refined, kOr, hn]

theorem refined_and (h1 : Refined x1 v1) (h2 : Refined x2 v2) :
    Refined (kAnd x1 x2) (vAnd v1 v2) := by
  refine (refined_kAnd x1 x2 v1 v2 h1 h2).trans ?_
  cases v1 with
  | none =>
    cases v2 with
    | none => simp [Refined, kAnd, vAnd]
    | some m => by_cases hm : m = 0 <;> simp [Refined, kAnd, vAnd, hm]
  | some n =>
    apply Or.inl
    cases v2 with
    | none => by_cases hn : n = 0 <;> simp [vAnd, kAnd, hn]
    | some m => by_cases hn : n = 0 <;> by_cases hm : m = 0 <;> simp [vAnd, kAnd, btoi, hn, hm]

theorem refined_or (h1 : Refined x1 v1) (h2 : Refined x2 v2) :
    Refined (kOr x1 x2) (vOr v1 v2) := by
  refine (refined_kOr x1 x2 v1 v2 h1 h2).trans ?_
  cases v1 with
  | none =>
    cases v2 with
    | none => simp [Refined, kOr, vOr]
    | some m => by_cases hm : m = 0 <;> simp [Refined, kOr, vOr, btoi, hm]
  | some n =>
    apply Or.inl
    cases v2 with
    | none => by_cases hn : n = 0 <;> simp [vOr, kOr, hn]
    | some m => by_cases hn : n = 0 <;> by_cases hm : m = 0 <;> simp [vOr, kOr, btoi, hn, hm]

theorem refined_kBetween (negated : Bool) (x lower upper v vl vu : Option ℤ) (h : Refined x v)
    (hl : Refined lower vl) (hu : Refined upper vu) :
    Refined (kBetween negated x lower upper) (kBetween negated v vl vu) := by
  have ha := refined_kAnd _ _ _ _ (refined_kCompare (fun n m => n ≤ m) lower x vl v hl h)
    (refined_kCompare (fun n m => n ≤ m) x upper v vu h hu)
  cases negated with
  | true => exact refined_not _ _ ha
  | false => exact ha

theorem refined_kIn (x v : Option ℤ) (ys vs : List (Option ℤ)) (h : Refined x v)
    (hs : List.Forall₂ Refined ys vs) : Refined (kIn x ys) (kIn v vs) := by
  induction hs with
  | nil => exact Or.inl rfl
  | cons hy hs ih => exact refined_kOr _ _ _ _ (refined_kCompare (fun n m => n == m) _ _ _ _ h hy) ih

/-- A mistake is made in place of NULL, and it is false or true. -/
def Mistake (x m : Option ℤ) : Prop := m = none ∨ x = none ∧ (m = some 0 ∨ m = some 1)

theorem Mistake.refined {x m : Option ℤ} (h : Mistake x m) : Refined x (m.or x) := by
  rcases h with rfl | ⟨rfl, h | h⟩
  · exact Or.inl rfl
  · subst h
    exact Or.inr ⟨rfl, Or.inl rfl⟩
  · subst h
    exact Or.inr ⟨rfl, Or.inr rfl⟩

theorem Mistake.or_eq_iff {x m : Option ℤ} (h : Mistake x m) : m.or x = x ↔ m = none := by
  rcases h with rfl | ⟨rfl, h | h⟩ <;> simp [*]

theorem mistake_of_refined {x m : Option ℤ} (h : Refined x (m.or x)) (hm : x ≠ none → m = none) :
    Mistake x m := by
  cases x with
  | some n => exact Or.inl (hm (by simp))
  | none =>
    rw [Option.or_none] at h
    rcases h with h | h
    · exact Or.inl h
    · exact Or.inr h

theorem passedOn_or {x v : Option ℤ} (h : Refined x v) : (passedOn x v).or x = v := by
  unfold passedOn
  cases x with
  | none => rw [if_pos rfl, Option.or_none]
  | some n =>
    rcases h with rfl | ⟨hx, -⟩
    · rw [if_neg (by simp)]
      rfl
    · cases hx

theorem kNot_or (x m : Option ℤ) : (kNot m).or (kNot x) = kNot (m.or x) := by
  cases m <;> rfl

variable {x1 x2} {m1 m2 : Option ℤ}

theorem andMistake_or (h1 : Mistake x1 m1) (h2 : Mistake x2 m2) :
    (andMistake x1 m1 x2 m2).or (kAnd x1 x2) = vAnd (m1.or x1) (m2.or x2) := by
  unfold andMistake
  rcases h1 with rfl | ⟨rfl, rfl | rfl⟩
  · cases x1 with
    | none =>
      by_cases hx : x2 = some 0
      · simp [hx, kAnd, vAnd]
      · simp [hx, vAnd]
    | some n =>
      by_cases hn : n = 0
      · cases x2 <;> simp [hn, kAnd, vAnd]
      · rcases h2 with rfl | ⟨rfl, rfl | rfl⟩
        · cases x2 with
          | none => simp [hn, kAnd, vAnd]
          | some m => by_cases hm : m = 0 <;> simp [hn, hm, kAnd, vAnd, btoi]
        · simp [hn, vAnd, btoi]
        · simp [hn, vAnd, btoi]
  · by_cases hx : x2 = some 0
    · simp [hx, kAnd, vAnd]
    · simp [hx, vAnd]
  · rcases h2 with rfl | ⟨rfl, rfl | rfl⟩
    · cases x2 with
      | none => simp [kAnd, vAnd]
      | some m => by_cases hm : m = 0 <;> simp [hm, kAnd, vAnd, btoi]
    · simp [vAnd, btoi]
    · simp [vAnd, btoi]

theorem andMistake_none (h : kAnd x1 x2 ≠ none) (h2 : Mistake x2 m2) :
    andMistake x1 m1 x2 m2 = none := by
  unfold andMistake
  by_cases hx : x1 = some 0 ∨ x2 = some 0
  · exact if_pos hx
  · rw [if_neg hx]
    cases x1 with
    | none =>
      cases x2 with
      | none => exact absurd rfl h
      | some m =>
        have hm : m ≠ 0 := fun hm => hx (Or.inr (congrArg some hm))
        simp [kAnd, hm] at h
    | some n =>
      have hn : n ≠ 0 := fun hn => hx (Or.inl (congrArg some hn))
      rcases h2 with rfl | ⟨rfl, -⟩
      · rfl
      · simp [kAnd, hn] at h

theorem orMistake_or (h1 : Mistake x1 m1) (h2 : Mistake x2 m2) :
    (orMistake x1 m1 x2 m2).or (kOr x1 x2) = vOr (m1.or x1) (m2.or x2) := by
  unfold orMistake
  rcases h1 with rfl | ⟨rfl, rfl | rfl⟩
  · cases x1 with
    | none =>
      rcases h2 with rfl | ⟨rfl, rfl | rfl⟩
      · cases x2 with
        | none => simp [kOr, vOr]
        | some m => by_cases hm : m = 0 <;> simp [hm, kOr, vOr, btoi]
      · simp [vOr, btoi]
      · simp [vOr, btoi]
    | some n =>
      by_cases hn : n = 0
      · rcases h2 with rfl | ⟨rfl, rfl | rfl⟩
        · cases x2 with
          | none => simp [hn, kOr, vOr]
          | some m => by_cases hm : m = 0 <;> simp [hn, hm, kOr, vOr, btoi]
        · simp [hn, vOr, btoi]
        · simp [hn, vOr, btoi]
      · cases x2 <;> simp [hn, kOr, vOr]
  · rcases h2 with rfl | ⟨rfl, rfl | rfl⟩
    · cases x2 with
      | none => simp [kOr, vOr]
      | some m => by_cases hm : m = 0 <;> simp [hm, kOr, vOr, btoi]
    · simp [vOr, btoi]
    · simp [vOr, btoi]
  · cases x2 with
    | none => simp [vOr]
    | some m => by_cases hm : m = 0 <;> simp [hm, kOr, vOr]

theorem orMistake_none (h : kOr x1 x2 ≠ none) (h1 : Mistake x1 m1) (h2 : Mistake x2 m2) :
    orMistake x1 m1 x2 m2 = none := by
  unfold orMistake
  rcases h1 with rfl | ⟨rfl, rfl | rfl⟩
  · cases x1 with
    | none =>
      cases x2 with
      | none => simp [kOr] at h
      | some m =>
        rcases h2 with rfl | ⟨hx, -⟩
        · by_cases hm : m = 0 <;> simp_all [kOr]
        · cases hx
    | some n =>
      by_cases hn : n = 0
      · rcases h2 with rfl | ⟨rfl, -⟩
        · simp
        · simp [kOr, hn] at h
      · simp [hn]
  · cases x2 with
    | none => simp [kOr] at h
    | some m =>
      rcases h2 with rfl | ⟨hx, -⟩
      · by_cases hm : m = 0 <;> simp_all [kOr]
      · cases hx
  · cases x2 with
    | none => simp [kOr] at h
    | some m => by_cases hm : m = 0 <;> simp_all [kOr]

end Connectives

section Expressions

variable {V : Types} {D : Type}

def read (db : Db V D) (env : ExprEvaluator V D) (e : BoolExpr V D) : Option ℤ :=
  (mistaken db env e).or (kleene db env e)

mutual

/-- The value of an expression is the one that it is mistaken for, or the prescribed one. -/
theorem eval_read (db : Db V D) (env : ExprEvaluator V D) (e : BoolExpr V D)
    (h : Everywhere (HasValue db env) e) :
    eval db e.toCExpr env = some (ofOption (read db env e)) ∧
      Mistake (kleene db env e) (mistaken db env e) := by
  cases e with
  | operand e => exact ⟨h, Or.inl rfl⟩
  | not e =>
    obtain ⟨he, hm⟩ := eval_read db env e h.2
    have hread : read db env (.not e) = kNot (read db env e) := kNot_or _ _
    refine ⟨?_, mistake_of_refined ?_ ?_⟩
    · rw [BoolExpr.toCExpr, eval, he, Option.bind_some, notOf_ofOption, hread]
    · change Refined _ (read db env _)
      rw [hread]
      exact refined_not _ _ hm.refined
    · intro hk
      rcases hm with hm | ⟨hx, -⟩
      · rw [mistaken, hm]
        rfl
      · rw [kleene, hx] at hk
        exact absurd rfl hk
  | and e1 e2 =>
    obtain ⟨he1, hm1⟩ := eval_read db env e1 h.2.1
    obtain ⟨he2, hm2⟩ := eval_read db env e2 h.2.2
    have hread : read db env (.and e1 e2) = vAnd (read db env e1) (read db env e2) :=
      andMistake_or hm1 hm2
    refine ⟨?_, mistake_of_refined ?_ fun hk => andMistake_none hk hm2⟩
    · rw [BoolExpr.toCExpr, eval, he1, he2, Option.bind_some, andOf_ofOption, hread]
    · change Refined _ (read db env _)
      rw [hread]
      exact refined_and _ _ _ _ hm1.refined hm2.refined
  | or e1 e2 =>
    obtain ⟨he1, hm1⟩ := eval_read db env e1 h.2.1
    obtain ⟨he2, hm2⟩ := eval_read db env e2 h.2.2
    have hread : read db env (.or e1 e2) = vOr (read db env e1) (read db env e2) :=
      orMistake_or hm1 hm2
    refine ⟨?_, mistake_of_refined ?_ fun hk => orMistake_none hk hm1 hm2⟩
    · rw [BoolExpr.toCExpr, eval, he1, he2, Option.bind_some, orOf_ofOption, hread]
    · change Refined _ (read db env _)
      rw [hread]
      exact refined_or _ _ _ _ hm1.refined hm2.refined
  | between negated e1 e2 e3 =>
    obtain ⟨he1, hm1⟩ := eval_read db env e1 h.2.1
    obtain ⟨he2, hm2⟩ := eval_read db env e2 h.2.2.1
    obtain ⟨he3, hm3⟩ := eval_read db env e3 h.2.2.2
    have hrefined := refined_kBetween negated _ _ _ _ _ _ hm1.refined hm2.refined hm3.refined
    have hread : read db env (.between negated e1 e2 e3) =
        kBetween negated (read db env e1) (read db env e2) (read db env e3) := passedOn_or hrefined
    refine ⟨?_, mistake_of_refined (hrefined.trans (Or.inl hread)) fun hk => if_neg hk⟩
    rw [BoolExpr.toCExpr, eval, he1, he2, he3, hread]
    simp only [Option.bind_some, compareOf_ofOption, Option.map_some, betweenOf_ofOption]
  | inList v elt set =>
    obtain ⟨he, hm⟩ := eval_read db env v h.2.1
    obtain ⟨he1, hm1⟩ := eval_read db env elt h.2.2.1
    obtain ⟨hes, hms⟩ := evals_read db env set h.2.2.2
    have hrefined := refined_kIn _ _ _ _ hm.refined (List.Forall₂.cons hm1.refined hms)
    have hread : read db env (.inList v elt set) =
        kIn (read db env v) (read db env elt :: readAll db env set) := passedOn_or hrefined
    refine ⟨?_, mistake_of_refined (hrefined.trans (Or.inl hread)) fun hk => if_neg hk⟩
    rw [BoolExpr.toCExpr, eval, he, Option.bind_some, evals, he1, hes, hread]
    exact inOf_start _ _ _

theorem evals_read (db : Db V D) (env : ExprEvaluator V D) (es : BoolExprs V D)
    (h : Everywheres (HasValue db env) es) :
    evals db es.toCExprs env = (readAll db env es).map (fun v => some (ofOption v)) ∧
      List.Forall₂ Refined (kleenes db env es) (readAll db env es) := by
  cases es with
  | nil => exact ⟨rfl, List.Forall₂.nil⟩
  | cons e es =>
    obtain ⟨he, hm⟩ := eval_read db env e h.1
    obtain ⟨hes, hms⟩ := evals_read db env es h.2
    refine ⟨?_, List.Forall₂.cons hm.refined hms⟩
    rw [BoolExprs.toCExprs, evals, he, hes]
    rfl

end

/-- An expression has the value that three-valued logic prescribes if and only if no NULL is
mistaken for a truth value in it that shows in its value; so it has wherever NULL is not
prescribed. -/
theorem prescribed_iff (db : Db V D) (env : ExprEvaluator V D) (e : BoolExpr V D)
    (h : Everywhere (HasValue db env) e) :
    (Prescribed db env e ↔ mistaken db env e = none) ∧
      (kleene db env e ≠ none → mistaken db env e = none) := by
  obtain ⟨he, hm⟩ := eval_read db env e h
  constructor
  · rw [Prescribed, he, Option.some_inj, ofOption_inj]
    exact hm.or_eq_iff
  · intro hk
    rcases hm with hm | ⟨hx, -⟩
    · exact hm
    · exact absurd hx hk

def oneAndNull : BoolExpr ⟨Unit, Unit, Unit⟩ Unit :=
  .and (.operand (.cLiteral (1 : ℤ))) (.operand .cNull)

theorem prescribed_one_and_null :
    (Prescribed noTables [⟨[], []⟩] oneAndNull ↔ mistaken noTables [⟨[], []⟩] oneAndNull = none) ∧
    (kleene noTables [⟨[], []⟩] oneAndNull ≠ none →
      mistaken noTables [⟨[], []⟩] oneAndNull = none) :=
  prescribed_iff noTables [⟨[], []⟩] oneAndNull ⟨trivial, rfl, rfl⟩

theorem prescribed_null_and :
    ¬ ∀ (V : Types) (D : Type) (db : Db V D) (env : ExprEvaluator V D) (e : BoolExpr V D),
      Everywhere (HasValue db env) e → Prescribed db env e := by
  intro h
  have hp := h _ Unit noTables [⟨[], []⟩]
    (.and (.operand .cNull) (.operand (.cLiteral (1 : ℤ)))) ⟨trivial, rfl, rfl⟩
  have hv : some (aDef (0 : ℤ)) = some aNull := hp
  exact absurd hv (by decide)

end Expressions

end SkipPlatform.SqlExprLogic
