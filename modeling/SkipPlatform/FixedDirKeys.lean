import Mathlib.Data.Sum.Order
import Mathlib.Data.List.Lex
import SkipPlatform.FixedDir
import SkipPlatform.StoreSourceMapFaithful

set_option autoImplicit false

/-! Keys as the layouts of a directory see them: their order, known through a rank, and the
classes whose comparison takes no key of another class. -/
namespace SkipPlatform.FixedDirLayouts
open List StoreSourceMap

/-- Keys whose comparison is that of their ranks; `asRowKey` is the match on the class of the
rows of SQL tables. The comparison method of some classes takes no key of another class. -/
class RankedKey (K : Type) where
  Val : Type
  Kinds : Type
  valOrder : LinearOrder Val
  kindsEq : DecidableEq Kinds
  keyEq : DecidableEq K
  Rank : Type
  rankOrder : LinearOrder Rank
  rank : K → Rank
  compare : K → K → Ordering
  compare_rank : ∀ a b, compare a b = Ord.compare (rank a) (rank b)
  comparable : K → K → Bool
  rowKey : StoreSourceMap.RowValues Val → Kinds → K
  asRowKey : K → Option (StoreSourceMap.RowValues Val × Kinds)
  rowKey_of_some : ∀ k row kinds, asRowKey k = some (row, kinds) → k = rowKey row kinds

instance {K : Type} [RankedKey K] : LinearOrder (RankedKey.Val K) := RankedKey.valOrder
instance {K : Type} [RankedKey K] : DecidableEq (RankedKey.Kinds K) := RankedKey.kindsEq
instance {K : Type} [RankedKey K] : LinearOrder (RankedKey.Rank K) := RankedKey.rankOrder
instance {K : Type} [RankedKey K] : DecidableEq K := RankedKey.keyEq

def order {α : Type} [LinearOrder α] (a b : α) : Ordering := compare a b

section Order
variable {α : Type} [LinearOrder α] {a b : α}

theorem order_lt : order a b = .lt ↔ a < b := compare_lt_iff_lt

theorem order_eq : order a b = .eq ↔ a = b := compare_eq_iff_eq

theorem order_gt : order a b = .gt ↔ b < a := compare_gt_iff_gt

theorem order_self (a : α) : order a a = .eq := order_eq.mpr rfl

variable {β : Type} [LinearOrder β]

theorem order_lex (a a' : α) (b b' : β) :
    (order a a').then (order b b') = order (toLex (a, b)) (toLex (a', b')) :=
  SkipPlatform.FixedDir.compare_place a b (⟨a', (), b', 0⟩ : FixedRow α β Unit)

theorem order_inl (a a' : α) :
    order (Sum.inlₗ a : α ⊕ₗ β) (Sum.inlₗ a') = order a a' := by
  cases h : order a a' with
  | lt => exact order_lt.mpr (Sum.Lex.inl_lt_inl_iff.mpr (order_lt.mp h))
  | eq => rw [order_eq.mp h, order_self]
  | gt => exact order_gt.mpr (Sum.Lex.inl_lt_inl_iff.mpr (order_gt.mp h))

theorem order_inr (b b' : β) :
    order (Sum.inrₗ b : α ⊕ₗ β) (Sum.inrₗ b') = order b b' := by
  cases h : order b b' with
  | lt => exact order_lt.mpr (Sum.Lex.inr_lt_inr_iff.mpr (order_lt.mp h))
  | eq => rw [order_eq.mp h, order_self]
  | gt => exact order_gt.mpr (Sum.Lex.inr_lt_inr_iff.mpr (order_gt.mp h))

theorem order_inl_inr (a : α) (b : β) : order (Sum.inlₗ a : α ⊕ₗ β) (Sum.inrₗ b) = .lt :=
  order_lt.mpr (Sum.Lex.inl_lt_inr a b)

theorem order_inr_inl (a : α) (b : β) : order (Sum.inrₗ b : α ⊕ₗ β) (Sum.inlₗ a) = .gt :=
  order_gt.mpr (Sum.Lex.inl_lt_inr a b)

theorem order_dual (a a' : α) : order (OrderDual.toDual a) (OrderDual.toDual a') = order a' a := by
  cases h : order a' a with
  | lt => exact order_lt.mpr (OrderDual.toDual_lt_toDual.mpr (order_lt.mp h))
  | eq => rw [order_eq.mp h, order_self]
  | gt => exact order_gt.mpr (OrderDual.toDual_lt_toDual.mpr (order_gt.mp h))

end Order

theorem order_cons {α : Type} [LinearOrder α] (a b : α) (as bs : List α) :
    order (a :: as) (b :: bs) = (order a b).then (order as bs) := by
  cases h : order a b with
  | lt =>
    have hlt := order_lt.mp h
    exact order_lt.mpr (cons_lt_cons_iff.mpr (Or.inl hlt))
  | eq =>
    have heq := order_eq.mp h
    subst heq
    change _ = order as bs
    cases h' : order as bs with
    | lt =>
      have hlt := order_lt.mp h'
      exact order_lt.mpr (cons_lt_cons_iff.mpr (Or.inr ⟨rfl, hlt⟩))
    | eq => rw [order_eq.mp h', order_self]
    | gt =>
      have hgt := order_gt.mp h'
      exact order_gt.mpr (cons_lt_cons_iff.mpr (Or.inr ⟨rfl, hgt⟩))
  | gt =>
    have hgt := order_gt.mp h
    exact order_gt.mpr (cons_lt_cons_iff.mpr (Or.inl hgt))

theorem compareList_eq_order {α : Type} [LinearOrder α] (as bs : List α) :
    SqlKey.compareList as bs = order as bs := by
  induction as generalizing bs with
  | nil =>
    cases bs with
    | nil => rfl
    | cons b bs => exact (order_lt.mpr (nil_lt_cons b bs)).symm
  | cons a as ih =>
    cases bs with
    | nil => exact (order_gt.mpr (nil_lt_cons a as)).symm
    | cons b bs =>
      rw [SqlKey.compareList, ih, order_cons]
      rfl

abbrev Cell := WithBot ℤ ⊕ₗ (WithBot ℤ)ᵒᵈ

def ascending (v : Option ℤ) : WithBot ℤ := v

def cell (direction : IKind) (v : Option ℤ) : Cell :=
  if direction = .idesc then Sum.inrₗ (OrderDual.toDual (ascending v)) else Sum.inlₗ (ascending v)

/-- The columns a key is compared by, up to the first one the row does not have. -/
def cells (row : StoreSourceMap.RowValues ℤ) : List (ℕ × IKind) → List Cell
  | [] => []
  | (idx, direction) :: rest =>
    match row.values[idx]? with
    | none => []
    | some v => cell direction v :: cells row rest

theorem compareValue_eq_order (v w : Option ℤ) :
    compareValue v w = order (ascending v) (ascending w) := by
  cases v with
  | none =>
    cases w with
    | none => rfl
    | some w => exact (order_lt.mpr (WithBot.bot_lt_coe w)).symm
  | some v =>
    cases w with
    | none => exact (order_gt.mpr (WithBot.bot_lt_coe v)).symm
    | some w =>
      change compare v w = order (ascending (some v)) (ascending (some w))
      cases h : compare v w with
      | lt => exact (order_lt.mpr (WithBot.coe_lt_coe.mpr (compare_lt_iff_lt.mp h))).symm
      | eq =>
        rw [compare_eq_iff_eq.mp h]
        exact (order_self _).symm
      | gt => exact (order_gt.mpr (WithBot.coe_lt_coe.mpr (compare_gt_iff_gt.mp h))).symm

theorem order_cell (direction : IKind) (v w : Option ℤ) :
    (if direction = .idesc then compareValue w v else compareValue v w) =
      order (cell direction v) (cell direction w) := by
  unfold cell
  by_cases hd : direction = .idesc
  · rw [if_pos hd, if_pos hd, if_pos hd, order_inr, order_dual, compareValue_eq_order]
  · rw [if_neg hd, if_neg hd, if_neg hd, order_inl, compareValue_eq_order]

theorem compareColumns_eq_order (x y : StoreSourceMap.RowValues ℤ) (columns : List (ℕ × IKind)) :
    SqlKey.compareColumns x y columns = order (cells x columns) (cells y columns) := by
  induction columns with
  | nil => rfl
  | cons column rest ih =>
    obtain ⟨idx, direction⟩ := column
    rw [SqlKey.compareColumns, cells, cells]
    cases x.values[idx]? with
    | none =>
      cases y.values[idx]? with
      | none => rfl
      | some w => exact (order_lt.mpr (nil_lt_cons _ _)).symm
    | some v =>
      cases y.values[idx]? with
      | none => exact (order_gt.mpr (nil_lt_cons _ _)).symm
      | some w =>
        dsimp only [SqlKey.compareColumn]
        rw [order_cell, order_cons, ih]
        cases order (cell direction v) (cell direction w) with
        | lt => rfl
        | eq => rfl
        | gt => rfl

/-- Rows of a SQL table, names of directories and plain integers. The comparison of a directory
name fails on a key of another class. -/
inductive DirKey where
  | rowKey (row : StoreSourceMap.RowValues ℤ) (kinds : Kinds)
  | dirName (hash : ℤ)
  | iid (value : ℤ)
  deriving DecidableEq

namespace DirKey

def classRank : DirKey → ℕ
  | rowKey .. => 0
  | dirName _ => 1
  | iid _ => 2

def compare : DirKey → DirKey → Ordering
  | rowKey row kinds, rowKey row2 kinds2 => SqlKey.compare (.rowKey row kinds) (.rowKey row2 kinds2)
  | dirName a, dirName b => Ord.compare a b
  | iid a, iid b => Ord.compare a b
  | a, b => Ord.compare a.classRank b.classRank

abbrev RowRank := List (ℕ ×ₗ ℕ ×ₗ ℕ) ×ₗ List Cell

def rank : DirKey → RowRank ⊕ₗ (ℤ ⊕ₗ ℤ)
  | rowKey row kinds =>
    Sum.inlₗ (toLex (SqlKey.kindsRank kinds, cells row (kinds.map fun k => (k.1, k.2.1))))
  | dirName hash => Sum.inrₗ (Sum.inlₗ hash)
  | iid value => Sum.inrₗ (Sum.inrₗ value)

theorem compare_rank (a b : DirKey) : compare a b = order (rank a) (rank b) := by
  cases a with
  | rowKey row kinds =>
    cases b with
    | rowKey row2 kinds2 =>
      rw [rank, rank, order_inl, ← order_lex, ← compareList_eq_order]
      change (SqlKey.compareList _ _).then (SqlKey.compareColumns row row2 _) = _
      cases h : SqlKey.compareList (SqlKey.kindsRank kinds) (SqlKey.kindsRank kinds2) with
      | lt => rfl
      | eq =>
        have hk := SqlKey.kindsRank_injective (SqlKey.compareList_eq.mp h)
        subst hk
        exact compareColumns_eq_order row row2 _
      | gt => rfl
    | dirName => exact (order_inl_inr _ _).symm
    | iid => exact (order_inl_inr _ _).symm
  | dirName hash =>
    cases b with
    | rowKey => exact (order_inr_inl _ _).symm
    | dirName hash2 =>
      rw [rank, rank, order_inr, order_inl]
      rfl
    | iid =>
      rw [rank, rank, order_inr, order_inl_inr]
      rfl
  | iid value =>
    cases b with
    | rowKey => exact (order_inr_inl _ _).symm
    | dirName =>
      rw [rank, rank, order_inr, order_inr_inl]
      rfl
    | iid value2 =>
      rw [rank, rank, order_inr, order_inr]
      rfl

def asRowKey : DirKey → Option (StoreSourceMap.RowValues ℤ × Kinds)
  | rowKey row kinds => some (row, kinds)
  | _ => none

instance : RankedKey DirKey where
  Val := ℤ
  Kinds := Kinds
  valOrder := inferInstance
  kindsEq := inferInstance
  keyEq := inferInstance
  Rank := RowRank ⊕ₗ (ℤ ⊕ₗ ℤ)
  rankOrder := inferInstance
  rank := rank
  compare := compare
  compare_rank := compare_rank
  comparable a b := a.classRank != 1 || b.classRank == 1
  rowKey := rowKey
  asRowKey := asRowKey
  rowKey_of_some k row kinds h := by
    cases k with
    | rowKey row2 kinds2 =>
      cases h
      rfl
    | dirName => cases h
    | iid => cases h

end DirKey
end SkipPlatform.FixedDirLayouts
