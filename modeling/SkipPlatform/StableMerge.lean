import Mathlib.Data.List.Basic
import Mathlib.Tactic.Common

set_option autoImplicit false

/-! Stable sorting by a total preorder: the parts of a list are sorted and merged. -/
namespace StableMerge
open List
variable {T : Type} {le : T → T → Bool}

def equal (le : T → T → Bool) (x y : T) : Bool := le x y && le y x

/-- `l'` is `l` in order, equal elements as they were. -/
structure Sorts (le : T → T → Bool) (l l' : List T) : Prop where
  perm : l'.Perm l
  ordered : l'.Pairwise fun x y => le x y = true
  stable : ∀ x, l'.filter (equal le x) = l.filter (equal le x)

theorem Sorts.short {l : List T} (h : l.length ≤ 1) : Sorts le l l := by
  refine ⟨.refl _, ?_, fun _ => rfl⟩
  cases l with
  | nil => exact .nil
  | cons x l =>
    cases l with
    | nil => exact pairwise_singleton _ _
    | cons y l => exact absurd h (by simp)

theorem filter_merge (trans : ∀ x y z, le x y = true → le y z = true → le x z = true)
    (x : T) {l₁ l₂ : List T} (h₁ : l₁.Pairwise fun x y => le x y = true) :
    (List.merge l₁ l₂ le).filter (equal le x) =
      l₁.filter (equal le x) ++ l₂.filter (equal le x) := by
  induction l₁ generalizing l₂ with
  | nil => rw [nil_merge, filter_nil, nil_append]
  | cons y l₁ ih₁ =>
    induction l₂ with
    | nil => rw [merge_right, filter_nil, append_nil]
    | cons z l₂ ih₂ =>
      rw [cons_merge_cons]
      split
      · rw [filter_cons, filter_cons, ih₁ (List.Pairwise.of_cons h₁)]
        split <;> rfl
      · next after =>
        rw [filter_cons, ih₂]
        by_cases own : equal le x z = true
        · -- none of the left part is equal to `z`, which comes strictly before all of it
          have none : (y :: l₁).filter (equal le x) = [] := by
            rw [filter_eq_nil_iff]
            intro w mem same
            rw [equal, Bool.and_eq_true] at own same
            have below : le w z = true := trans _ _ _ same.2 own.1
            rcases mem_cons.mp mem with rfl | later
            · exact after below
            · exact after (trans _ _ _ (rel_of_pairwise_cons h₁ later) below)
          rw [if_pos own, none, filter_cons, if_pos own]
          rfl
        · rw [if_neg own, filter_cons (x := z), if_neg own]

theorem Sorts.merge (trans : ∀ x y z, le x y = true → le y z = true → le x z = true)
    (total : ∀ x y, le x y = true ∨ le y x = true) {l₁ l₁' l₂ l₂' : List T} (h₁ : Sorts le l₁ l₁')
    (h₂ : Sorts le l₂ l₂') : Sorts le (l₁ ++ l₂) (List.merge l₁' l₂' le) := by
  refine ⟨?_, ?_, fun x => ?_⟩
  · exact (merge_perm_append le).trans (h₁.perm.append h₂.perm)
  · refine pairwise_merge trans (fun x y => ?_) l₁' l₂' h₁.ordered h₂.ordered
    rw [Bool.or_eq_true]
    exact total x y
  · rw [filter_merge trans x h₁.ordered, h₁.stable, h₂.stable, filter_append]

end StableMerge
