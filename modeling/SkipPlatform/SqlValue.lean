import Mathlib.Data.String.Basic
import Mathlib.Data.Sum.Order
import Mathlib.Tactic

set_option autoImplicit false

/-! The values and the rows of a table. -/
namespace SkipPlatform

inductive CValue where
  | int (value : BitVec 64)
  | string (value : String)
deriving DecidableEq

namespace CValue

def rank : CValue → ℤ ⊕ₗ String
  | .int n => Sum.inlₗ n.toInt
  | .string s => Sum.inrₗ s

theorem rank_injective : Function.Injective rank := by
  intro x y h
  cases x with
  | int n =>
    cases y with
    | int m => exact congrArg CValue.int (BitVec.toInt_inj.mp (Sum.inl.inj (toLex.injective h)))
    | string t => cases toLex.injective h
  | string s =>
    cases y with
    | int m => cases toLex.injective h
    | string t => exact congrArg CValue.string (Sum.inr.inj (toLex.injective h))

instance : LinearOrder CValue := LinearOrder.lift' rank rank_injective

def getInt : CValue → Option (BitVec 64)
  | .int n => some n
  | .string _ => none

end CValue

structure RowValues (V : Type) where
  values : List (Option V)
  repeatCount : ℕ
deriving DecidableEq

namespace RowValues

variable {V : Type}

def copies (r : RowValues V) : List (List (Option V)) := List.replicate r.repeatCount r.values

theorem count_copies [DecidableEq V] [BEq (List (Option V))] [LawfulBEq (List (Option V))]
    (r : RowValues V) (x : List (Option V)) : r.copies.count x =
      if r.values = x then r.repeatCount else 0 := by
  unfold copies
  rw [List.count_replicate]
  simp only [beq_iff_eq]

end RowValues
end SkipPlatform
