import Mathlib.Data.Finset.Sort
import Mathlib.Data.Finset.Card

set_option autoImplicit false

/-! Finite maps that are equal when they have the same entries. -/
namespace SkipPlatform

structure FiniteMap (K V : Type) where
  get : K → Option V
  support : Finset K
  mem_support : ∀ k, k ∈ support ↔ (get k).isSome = true

namespace FiniteMap
variable {K V U W R : Type}

@[ext]
theorem ext {m m' : FiniteMap K V} (h : ∀ k, m.get k = m'.get k) : m = m' := by
  obtain ⟨get, support, mem⟩ := m
  obtain ⟨get', support', mem'⟩ := m'
  have gets : get = get' := funext h
  subst gets
  have supports : support = support' := Finset.ext fun k => (mem k).trans (mem' k).symm
  subst supports
  rfl

def empty : FiniteMap K V where
  get _ := none
  support := ∅
  mem_support k := by simp

def size (m : FiniteMap K V) : ℕ := m.support.card

def isEmpty (m : FiniteMap K V) : Bool := m.size == 0

def mapWithKey (f : K → V → W) (m : FiniteMap K V) : FiniteMap K W where
  get k := (m.get k).map (f k)
  support := m.support
  mem_support k := by rw [m.mem_support, Option.isSome_map]

def ofSet [DecidableEq K] (s : Finset K) : FiniteMap K Unit where
  get k := if k ∈ s then some () else none
  support := s
  mem_support k := by split <;> simp_all

section Changes
variable [DecidableEq K]

def set (m : FiniteMap K V) (k : K) (v : V) : FiniteMap K V where
  get k' := if k' = k then some v else m.get k'
  support := insert k m.support
  mem_support k' := by
    rw [Finset.mem_insert, m.mem_support]
    by_cases here : k' = k <;> simp [here]

def remove (m : FiniteMap K V) (k : K) : FiniteMap K V where
  get k' := if k' = k then none else m.get k'
  support := m.support.erase k
  mem_support k' := by
    rw [Finset.mem_erase, m.mem_support]
    by_cases here : k' = k <;> simp [here]

/-- The keys of the three maps with what `f` makes of their entries; it drops a key by `none`. -/
def mergeWith2 (m : FiniteMap K V) (other1 : FiniteMap K U) (other2 : FiniteMap K W)
    (f : K → Option V → Option U → Option W → Option R) : FiniteMap K R where
  get k :=
    if k ∈ m.support ∪ other1.support ∪ other2.support then
      f k (m.get k) (other1.get k) (other2.get k)
    else none
  support := (m.support ∪ other1.support ∪ other2.support).filter fun k =>
    (f k (m.get k) (other1.get k) (other2.get k)).isSome = true
  mem_support k := by
    rw [Finset.mem_filter]
    split <;> simp_all

end Changes

@[simp]
theorem get_empty (k : K) : (empty : FiniteMap K V).get k = none := rfl

@[simp]
theorem get_mapWithKey (f : K → V → W) (m : FiniteMap K V) (k : K) :
    (m.mapWithKey f).get k = (m.get k).map (f k) := rfl

theorem not_mem_support {m : FiniteMap K V} {k : K} : k ∉ m.support ↔ m.get k = none := by
  rw [m.mem_support, Option.not_isSome_iff_eq_none]

theorem isEmpty_iff {m : FiniteMap K V} : m.isEmpty = true ↔ ∀ k, m.get k = none := by
  rw [isEmpty, beq_iff_eq, size, Finset.card_eq_zero, Finset.eq_empty_iff_forall_notMem]
  exact forall_congr' fun k => not_mem_support

variable [DecidableEq K]

@[simp]
theorem get_ofSet (s : Finset K) (k : K) :
    (ofSet s).get k = if k ∈ s then some () else none := rfl

variable (m : FiniteMap K V)

@[simp]
theorem get_set (k k' : K) (v : V) :
    (m.set k v).get k' = if k' = k then some v else m.get k' := rfl

@[simp]
theorem get_remove (k k' : K) :
    (m.remove k).get k' = if k' = k then none else m.get k' := rfl

theorem get_mergeWith2 (other1 : FiniteMap K U) (other2 : FiniteMap K W)
    (f : K → Option V → Option U → Option W → Option R) (k : K)
    (absent : f k none none none = none) :
    (m.mergeWith2 other1 other2 f).get k = f k (m.get k) (other1.get k) (other2.get k) := by
  by_cases mem : k ∈ m.support ∪ other1.support ∪ other2.support
  · exact if_pos mem
  · have none : (m.mergeWith2 other1 other2 f).get k = Option.none := if_neg mem
    rw [Finset.mem_union, Finset.mem_union, not_or, not_or, not_mem_support, not_mem_support,
      not_mem_support] at mem
    rw [none, mem.1.1, mem.1.2, mem.2, absent]

end FiniteMap
end SkipPlatform
