import SkipPlatform.SqlValue

set_option autoImplicit false

/-! The reducer of aggregate selects. The state has one value for each aggregate; rows that a
source takes back and rows that it adds are worked into it, or the reducer asks for the group to
be read again. -/
namespace SkipPlatform

inductive AggrKind where
  | noop
  | sum (distinct : Bool)
  | count (distinct : Bool)
  | min
  | max
deriving DecidableEq

inductive Interruption where
  | reset
  | violation (message : String)
deriving DecidableEq

structure AggrRow (n : ℕ) where
  values : Fin n → Option CValue
  repeatCount : ℕ

abbrev AggrState (n : ℕ) := Fin n → Option CValue

namespace Aggregates

def combine (adding : Bool) : CValue → CValue → Except Interruption CValue
  | .int n, .int m => .ok (.int (if adding then n + m else n - m))
  | _, _ => .error (.violation "Invalid type")

/-- `getInt` of a row. -/
def rowGetInt : Option CValue → Except Interruption (Option (BitVec 64))
  | none => .ok none
  | some (.int n) => .ok (some n)
  | some (.string _) => .error (.violation "Expected an int")

/-- Whether a DISTINCT aggregate leaves the value out because the row before has it. -/
def repeatsLast (distinct : Bool) (lastRow : Option (Option CValue)) (vOpt : Option CValue) :
    Except Interruption Bool :=
  match distinct, lastRow, vOpt with
  | true, some lrow, some v => do return (← rowGetInt lrow) = v.getInt
  | _, _, _ => .ok false

/-- `state < vOpt`, where NULL is below everything. -/
def below (state : Option CValue) (v : CValue) : Bool :=
  match state with
  | none => true
  | some s => s < v

def above (state : Option CValue) (v : CValue) : Bool :=
  match state with
  | none => false
  | some s => v < s

def updateCell (adding : Bool) (kind : AggrKind) (lastRow : Option (Option CValue))
    (vOpt : Option CValue) (repeatCount : ℕ) (state : Option CValue) :
    Except Interruption (Option CValue) :=
  match kind, vOpt with
  | .min, none => .ok state
  | .min, some v =>
    let state := if state = none ∧ adding = true then some v else state
    if below state v then .ok state
    else if !adding then .error .reset
    else .ok (some v)
  | .max, none => .ok state
  | .max, some v =>
    if above state v then .ok state
    else if !adding then .error .reset
    else .ok (some v)
  | .sum distinct, vOpt => do
    if ← repeatsLast distinct lastRow vOpt then return state
    match vOpt with
    | none => return state
    | some (.int n) =>
      return some (← combine adding (state.getD (.int 0)) (.int (n * BitVec.ofNat 64 repeatCount)))
    | some (.string _) => .error (.violation "Invalid aggregate")
  | .count distinct, vOpt => do
    if ← repeatsLast distinct lastRow vOpt then return state
    match vOpt with
    | none => return state
    | some _ =>
      return some (← combine adding (state.getD (.int 0)) (.int (BitVec.ofNat 64 repeatCount)))
  | .noop, vOpt => .ok vOpt

variable {n : ℕ}

def updateRow (adding : Bool) (aggrKinds : Fin n → AggrKind) (lastRow : Option (AggrRow n))
    (row : AggrRow n) (state : AggrState n) : Except Interruption (AggrState n) :=
  (List.finRange n).foldlM (fun state i => do
    let v ← updateCell adding (aggrKinds i) (lastRow.map (·.values i)) (row.values i)
      row.repeatCount (state i)
    return Function.update state i v) state

def updateState (adding : Bool) (aggrKinds : Fin n → AggrKind) :
    Option (AggrRow n) → List (AggrRow n) → AggrState n → Except Interruption (AggrState n)
  | _, [], state => .ok state
  | lastRow, row :: rows, state => do
    let state ← updateRow adding aggrKinds lastRow row state
    updateState adding aggrKinds (some row) rows state

def startState (aggrKinds : Fin n → AggrKind) : AggrState n := fun i =>
  match aggrKinds i with
  | .count _ => some (.int 0)
  | _ => none

def reducerInit (aggrKinds : Fin n → AggrKind) (rows : List (AggrRow n)) :
    Except Interruption (Option (AggrState n)) := do
  let state ← updateState true aggrKinds none rows (startState aggrKinds)
  if rows.isEmpty then return none
  return some state

def isPotentiallyEmpty (aggrKinds : Fin n → AggrKind) (state : AggrState n) :
    List (Fin n) → Except Interruption Bool
  | [] => .ok true
  | i :: is =>
    if aggrKinds i = .noop then isPotentiallyEmpty aggrKinds state is
    else
      match state i with
      | some (.int m) => if m ≠ 0 then .ok false else isPotentiallyEmpty aggrKinds state is
      | _ => .error (.violation "Unexpected type")

/-- The new state of a group, or nothing when it has to be read again. -/
def reducerUpdate (aggrKinds : Fin n → AggrKind) (state : AggrState n)
    (oldRows newRows : List (AggrRow n)) : Except Interruption (Option (AggrState n)) :=
  match updateState false aggrKinds none oldRows state with
  | .error .reset => .ok none
  | .error e => .error e
  | .ok state => do
    let state ← updateState true aggrKinds none newRows state
    if newRows.isEmpty then
      if ← isPotentiallyEmpty aggrKinds state (List.finRange n) then return none
    return some state

end Aggregates
end SkipPlatform
