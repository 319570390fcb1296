import Mathlib.Order.Compare
import Mathlib.Order.Basic
import Mathlib.Tactic.Common
import Mathlib.Data.Prod.Lex

set_option autoImplicit false

/-! The persistent ordered map of the Skip standard library: a height-balanced
tree whose nodes store their size and height. `SortedMap` pairs such a tree with
the facts every operation keeps, so clients only see lookups and item lists. -/
namespace SkipPlatform
open List

inductive SortedTree (K V : Type) : Type where
  | nil : SortedTree K V
  | node (n h : ℕ) (key : K) (value : V) (left right : SortedTree K V) : SortedTree K V

namespace SortedTree
variable {K V W : Type}

def size : SortedTree K V → ℕ
  | nil => 0
  | node n _ _ _ _ _ => n

def height : SortedTree K V → ℕ
  | nil => 0
  | node _ h _ _ _ _ => h

@[grind] def items : SortedTree K V → List (K × V)
  | nil => []
  | node _ _ k v l r => l.items ++ (k, v) :: r.items

def singleton (k : K) (v : V) : SortedTree K V := node 1 1 k v nil nil

def mkNode (k : K) (v : V) (l r : SortedTree K V) : SortedTree K V :=
  node (l.size + r.size + 1) (max l.height r.height + 1) k v l r

/-- A `nil` in either inner match contradicts the height test that guards it, so
the source's `invariant_violation` branches are never taken. -/
def balance (k : K) (v : V) (l r : SortedTree K V) : SortedTree K V :=
  if l.height > r.height + 2 then
    match l with
    | nil => mkNode k v l r
    | node _ _ lk lv ll lr =>
      if ll.height ≥ lr.height then mkNode lk lv ll (mkNode k v lr r)
      else
        match lr with
        | nil => mkNode k v l r
        | node _ _ lrk lrv lrl lrr =>
          mkNode lrk lrv (mkNode lk lv ll lrl) (mkNode k v lrr r)
  else if r.height > l.height + 2 then
    match r with
    | nil => mkNode k v l r
    | node _ _ rk rv rl rr =>
      if rr.height ≥ rl.height then mkNode rk rv (mkNode k v l rl) rr
      else
        match rl with
        | nil => mkNode k v l r
        | node _ _ rlk rlv rll rlr =>
          mkNode rlk rlv (mkNode k v l rll) (mkNode rk rv rlr rr)
  else mkNode k v l r

def minimum : SortedTree K V → Option (K × V)
  | nil => none
  | node _ _ k v nil _ => some (k, v)
  | node _ _ _ _ (node n h k v l r) _ => minimum (node n h k v l r)

def maximum : SortedTree K V → Option (K × V)
  | nil => none
  | node _ _ k v _ nil => some (k, v)
  | node _ _ _ _ _ (node n h k v l r) => maximum (node n h k v l r)

@[grind] def removeMin : SortedTree K V → Option (K × V × SortedTree K V)
  | nil => none
  | node _ _ key value left right =>
    match left.removeMin with
    | none => some (key, value, right)
    | some (k, v, rest) => some (k, v, balance key value rest right)

def concat (l r : SortedTree K V) : SortedTree K V :=
  match l with
  | nil => r
  | node .. =>
    match r.removeMin with
    | none => l
    | some (k, v, rest) => balance k v l rest

def Sized : SortedTree K V → Prop
  | nil => True
  | node n _ _ _ l r => n = l.size + r.size + 1 ∧ l.Sized ∧ r.Sized

variable {t : SortedTree K V}

theorem size_eq_length (h : t.Sized) : t.size = t.items.length := by
  induction t with
  | nil => rfl
  | node n _ k v l r ihl ihr =>
    obtain ⟨hn, hl, hr⟩ := h
    rw [items, length_append, length_cons, ← ihl hl, ← ihr hr]
    change n = _
    omega

@[simp] theorem items_mkNode (k : K) (v : V) (l r : SortedTree K V) :
    (mkNode k v l r).items = l.items ++ (k, v) :: r.items := rfl

variable {l r : SortedTree K V}

theorem sized_mkNode {k : K} {v : V} (hl : l.Sized) (hr : r.Sized) :
    (mkNode k v l r).Sized := ⟨rfl, hl, hr⟩

@[simp] theorem items_balance (k : K) (v : V) (l r : SortedTree K V) :
    (balance k v l r).items = l.items ++ (k, v) :: r.items := by
  unfold balance
  split_ifs
  · cases l with
    | nil => rfl
    | node n h lk lv ll lr =>
      cases lr with
      | nil => dsimp only; split_ifs <;> simp [items]
      | node => dsimp only; split_ifs <;> simp [items]
  · cases r with
    | nil => rfl
    | node n h rk rv rl rr =>
      cases rl with
      | nil => dsimp only; split_ifs <;> simp [items]
      | node => dsimp only; split_ifs <;> simp [items]
  · rfl

theorem sized_balance {k : K} {v : V} (hl : l.Sized) (hr : r.Sized) :
    (balance k v l r).Sized := by
  unfold balance
  split_ifs
  · cases l with
    | nil => exact sized_mkNode hl hr
    | node n h lk lv ll lr =>
      obtain ⟨hn, hll, hlr⟩ := hl
      dsimp only
      split_ifs
      · exact sized_mkNode hll (sized_mkNode hlr hr)
      · cases lr with
        | nil => exact sized_mkNode ⟨hn, hll, hlr⟩ hr
        | node =>
          exact sized_mkNode (sized_mkNode hll hlr.2.1) (sized_mkNode hlr.2.2 hr)
  · cases r with
    | nil => exact sized_mkNode hl hr
    | node n h rk rv rl rr =>
      obtain ⟨hn, hrl, hrr⟩ := hr
      dsimp only
      split_ifs
      · exact sized_mkNode (sized_mkNode hl hrl) hrr
      · cases rl with
        | nil => exact sized_mkNode hl ⟨hn, hrl, hrr⟩
        | node =>
          exact sized_mkNode (sized_mkNode hl hrl.2.1) (sized_mkNode hrl.2.2 hrr)
  · exact sized_mkNode hl hr

theorem minimum_eq_head (t : SortedTree K V) : t.minimum = t.items.head? := by
  induction t with
  | nil => rfl
  | node n h k v l r ihl _ =>
    cases l with
    | nil => rfl
    | node n' h' k' v' l' r' =>
      rw [minimum, ihl]
      simp [items]

theorem maximum_eq_getLast (t : SortedTree K V) : t.maximum = t.items.getLast? := by
  induction t with
  | nil => rfl
  | node n h k v l r _ ihr =>
    cases r with
    | nil => simp [maximum, items]
    | node n' h' k' v' l' r' =>
      have hne : items (node n' h' k' v' l' r') ≠ [] := by simp [items]
      rw [maximum, ihr]
      change _ = (l.items ++ (k, v) :: items (node n' h' k' v' l' r')).getLast?
      rw [List.getLast?_append, List.getLast?_cons, List.getLast?_eq_some_getLast hne]
      rfl

theorem removeMin_eq_none : t.removeMin = none ↔ t = nil := by
  cases t with
  | nil => simp [removeMin]
  | node n h k v l r =>
    rw [removeMin]
    cases l.removeMin <;> simp

theorem items_of_removeMin {t rest : SortedTree K V} {k : K} {v : V}
    (hm : t.removeMin = some (k, v, rest)) : t.items = (k, v) :: rest.items := by
  induction t generalizing k v rest with
  | nil => cases hm
  | node n h key value l r ihl _ =>
    rw [removeMin] at hm
    cases hl : l.removeMin with
    | none =>
      rw [hl] at hm
      cases hm
      rw [removeMin_eq_none.mp hl]
      rfl
    | some y =>
      obtain ⟨k', v', rest'⟩ := y
      rw [hl] at hm
      cases hm
      rw [items, ihl hl, items_balance, cons_append]

theorem sized_removeMin {t rest : SortedTree K V} {k : K} {v : V} (h : t.Sized)
    (hm : t.removeMin = some (k, v, rest)) : rest.Sized := by
  induction t generalizing k v rest with
  | nil => cases hm
  | node n h' key value l r ihl _ =>
    obtain ⟨_, hl, hr⟩ := h
    rw [removeMin] at hm
    cases hlm : l.removeMin with
    | none =>
      rw [hlm] at hm
      cases hm
      exact hr
    | some y =>
      rw [hlm] at hm
      cases hm
      exact sized_balance (ihl hl hlm) hr

@[simp] theorem items_concat (l r : SortedTree K V) : (concat l r).items = l.items ++ r.items := by
  cases l with
  | nil => rfl
  | node n h k v ll lr =>
    unfold concat
    cases hm : r.removeMin with
    | none =>
      rw [removeMin_eq_none.mp hm]
      exact (append_nil _).symm
    | some y =>
      obtain ⟨k', v', rest⟩ := y
      simp only [items_balance, items_of_removeMin hm]

theorem sized_concat (hl : l.Sized) (hr : r.Sized) :
    (concat l r).Sized := by
  cases l with
  | nil => exact hr
  | node n h k v ll lr =>
    unfold concat
    cases hm : r.removeMin with
    | none => exact hl
    | some y => exact sized_balance hl (sized_removeMin hr hm)

def mapValues (f : K → V → W) : SortedTree K V → SortedTree K W
  | nil => nil
  | node n h k v l r => node n h k (f k v) (l.mapValues f) (r.mapValues f)

variable (f : K → V → W)

theorem items_mapValues (t : SortedTree K V) :
    (t.mapValues f).items = t.items.map (fun x => (x.1, f x.1 x.2)) := by
  induction t with
  | nil => rfl
  | node n h k v l r ihl ihr => simp [mapValues, items, ihl, ihr]

theorem size_mapValues (t : SortedTree K V) :
    (t.mapValues f).size = t.size := by
  cases t <;> rfl

theorem sized_mapValues (h : t.Sized) :
    (t.mapValues f).Sized := by
  induction t with
  | nil => trivial
  | node n h' k v l r ihl ihr =>
    obtain ⟨hn, hl, hr⟩ := h
    refine ⟨?_, ihl hl, ihr hr⟩
    rw [size_mapValues, size_mapValues]
    exact hn

section Ordered
variable [LinearOrder K]

@[grind] def Ordered (t : SortedTree K V) : Prop := t.items.Pairwise (fun a b => a.1 < b.1)

def maybeGetItem (k : K) : SortedTree K V → Option (K × V)
  | nil => none
  | node _ _ key value left right =>
    match compare k key with
    | .lt => left.maybeGetItem k
    | .eq => some (key, value)
    | .gt => right.maybeGetItem k

@[grind] def set (k : K) (v : V) : SortedTree K V → SortedTree K V
  | nil => singleton k v
  | node n h key value left right =>
    match compare k key with
    | .lt => balance key value (left.set k v) right
    | .eq => node n h key v left right
    | .gt => balance key value left (right.set k v)

@[grind] def remove (k : K) : SortedTree K V → SortedTree K V
  | nil => nil
  | node _ _ key value left right =>
    match compare k key with
    | .lt => balance key value (left.remove k) right
    | .gt => balance key value left (right.remove k)
    | .eq => concat left right

theorem ordered_node {n h : ℕ} {k : K} {v : V} {l r : SortedTree K V} :
    (node n h k v l r).Ordered ↔
      l.Ordered ∧ r.Ordered ∧ (∀ x ∈ l.items, x.1 < k) ∧ ∀ x ∈ r.items, k < x.1 := by
  simp only [Ordered, items, pairwise_append, pairwise_cons, mem_cons,
    forall_eq_or_imp]
  constructor
  · rintro ⟨hl, ⟨hkr, hr⟩, hx⟩
    exact ⟨hl, hr, fun x hxl => (hx x hxl).1, hkr⟩
  · rintro ⟨hl, hr, hlk, hkr⟩
    exact ⟨hl, ⟨hkr, hr⟩, fun x hxl => ⟨hlk x hxl, fun y hy => (hlk x hxl).trans (hkr y hy)⟩⟩

theorem ordered_balance {k : K} {v : V} {l r : SortedTree K V} :
    (balance k v l r).Ordered ↔
      l.Ordered ∧ r.Ordered ∧ (∀ x ∈ l.items, x.1 < k) ∧ ∀ x ∈ r.items, k < x.1 := by
  unfold Ordered
  rw [items_balance]
  exact ordered_node (n := 0) (h := 0) (v := v)

variable {t : SortedTree K V}

theorem maybeGetItem_eq_some (ht : t.Ordered) {k k' : K} {v : V} :
    t.maybeGetItem k = some (k', v) ↔ k' = k ∧ (k, v) ∈ t.items := by
  induction t with
  | nil => simp [maybeGetItem, items]
  | node n h key value l r ihl ihr =>
    obtain ⟨hl, hr, hlk, hkr⟩ := ordered_node.mp ht
    simp only [maybeGetItem, items, mem_append, mem_cons, Prod.mk.injEq]
    cases hc : compare k key with
    | lt =>
      have hlt : k < key := compare_lt_iff_lt.mp hc
      rw [ihl hl]
      refine and_congr_right fun _ => ⟨Or.inl, ?_⟩
      rintro (h | ⟨h, _⟩ | h)
      · exact h
      · exact absurd h hlt.ne
      · exact absurd (hkr _ h) hlt.le.not_gt
    | eq =>
      have he : k = key := compare_eq_iff_eq.mp hc
      subst he
      simp only [Option.some.injEq, Prod.mk.injEq]
      constructor
      · rintro ⟨rfl, rfl⟩
        exact ⟨rfl, Or.inr (Or.inl ⟨trivial, rfl⟩)⟩
      · rintro ⟨rfl, h | ⟨_, h⟩ | h⟩
        · exact absurd (hlk _ h) (lt_irrefl _)
        · exact ⟨rfl, h.symm⟩
        · exact absurd (hkr _ h) (lt_irrefl _)
    | gt =>
      have hgt : key < k := compare_gt_iff_gt.mp hc
      rw [ihr hr]
      refine and_congr_right fun _ => ⟨fun h => Or.inr (Or.inr h), ?_⟩
      rintro (h | ⟨h, _⟩ | h)
      · exact absurd (hlk _ h) hgt.le.not_gt
      · exact absurd h hgt.ne'
      · exact h

theorem mem_items_set (ht : t.Ordered) (k : K) (v : V) (x : K × V) :
    x ∈ (t.set k v).items ↔ x = (k, v) ∨ x.1 ≠ k ∧ x ∈ t.items := by
  induction t with
  | nil => simp [set, singleton, items]
  | node n h key value l r ihl ihr =>
    obtain ⟨hl, hr, hlk, hkr⟩ := ordered_node.mp ht
    simp only [set]
    cases hc : compare k key with
    | lt =>
      have hlt : k < key := compare_lt_iff_lt.mp hc
      simp only [items_balance, mem_append, mem_cons, ihl hl, items]
      constructor
      · rintro ((h | h) | rfl | h)
        · exact Or.inl h
        · exact Or.inr ⟨h.1, Or.inl h.2⟩
        · exact Or.inr ⟨hlt.ne', Or.inr (Or.inl rfl)⟩
        · exact Or.inr ⟨(hlt.trans (hkr _ h)).ne', Or.inr (Or.inr h)⟩
      · rintro (h | ⟨hx, h | h | h⟩)
        · exact Or.inl (Or.inl h)
        · exact Or.inl (Or.inr ⟨hx, h⟩)
        · exact Or.inr (Or.inl h)
        · exact Or.inr (Or.inr h)
    | eq =>
      have he : k = key := compare_eq_iff_eq.mp hc
      subst he
      simp only [items, mem_append, mem_cons]
      constructor
      · rintro (h | h | h)
        · exact Or.inr ⟨(hlk _ h).ne, Or.inl h⟩
        · exact Or.inl h
        · exact Or.inr ⟨(hkr _ h).ne', Or.inr (Or.inr h)⟩
      · rintro (h | ⟨hx, h | h | h⟩)
        · exact Or.inr (Or.inl h)
        · exact Or.inl h
        · exact absurd (congrArg Prod.fst h) hx
        · exact Or.inr (Or.inr h)
    | gt =>
      have hgt : key < k := compare_gt_iff_gt.mp hc
      simp only [items_balance, mem_append, mem_cons, ihr hr, items]
      constructor
      · rintro (h | rfl | h | h)
        · exact Or.inr ⟨((hlk _ h).trans hgt).ne, Or.inl h⟩
        · exact Or.inr ⟨hgt.ne, Or.inr (Or.inl rfl)⟩
        · exact Or.inl h
        · exact Or.inr ⟨h.1, Or.inr (Or.inr h.2)⟩
      · rintro (h | ⟨hx, h | h | h⟩)
        · exact Or.inr (Or.inr (Or.inl h))
        · exact Or.inl h
        · exact Or.inr (Or.inl h)
        · exact Or.inr (Or.inr (Or.inr ⟨hx, h⟩))

theorem ordered_set (ht : t.Ordered) (k : K) (v : V) :
    (t.set k v).Ordered := by
  induction t with
  | nil => simp [set, singleton, Ordered, items]
  | node n h key value l r ihl ihr =>
    obtain ⟨hl, hr, hlk, hkr⟩ := ordered_node.mp ht
    simp only [set]
    cases hc : compare k key with
    | lt =>
      refine ordered_balance.mpr ⟨ihl hl, hr, ?_, hkr⟩
      intro x hx
      rcases (mem_items_set hl k v x).mp hx with rfl | ⟨_, h⟩
      · exact compare_lt_iff_lt.mp hc
      · exact hlk x h
    | eq => exact ordered_node.mpr ⟨hl, hr, hlk, hkr⟩
    | gt =>
      refine ordered_balance.mpr ⟨hl, ihr hr, hlk, ?_⟩
      intro x hx
      rcases (mem_items_set hr k v x).mp hx with rfl | ⟨_, h⟩
      · exact compare_gt_iff_gt.mp hc
      · exact hkr x h

theorem sized_set (ht : t.Sized) (k : K) (v : V) : (t.set k v).Sized := by
  induction t with
  | nil => exact ⟨rfl, trivial, trivial⟩
  | node n h key value l r ihl ihr =>
    obtain ⟨hn, hl, hr⟩ := ht
    simp only [set]
    split
    · exact sized_balance (ihl hl) hr
    · exact ⟨hn, hl, hr⟩
    · exact sized_balance hl (ihr hr)

theorem items_remove (ht : t.Ordered) (k : K) :
    (t.remove k).items = t.items.filter (fun x => decide (x.1 ≠ k)) := by
  induction t with
  | nil => rfl
  | node n h key value l r ihl ihr =>
    obtain ⟨hl, hr, hlk, hkr⟩ := ordered_node.mp ht
    have keepLeft : key ≤ k → l.items.filter (fun x => decide (x.1 ≠ k)) = l.items := by
      intro hle
      refine filter_eq_self.mpr fun x hx => ?_
      exact decide_eq_true ((hlk x hx).trans_le hle).ne
    have keepRight : k ≤ key → r.items.filter (fun x => decide (x.1 ≠ k)) = r.items := by
      intro hle
      refine filter_eq_self.mpr fun x hx => ?_
      exact decide_eq_true (hle.trans_lt (hkr x hx)).ne'
    simp only [remove]
    cases hc : compare k key with
    | lt =>
      have hlt : k < key := compare_lt_iff_lt.mp hc
      simp only [items_balance, ihl hl, items, filter_append, filter_cons]
      rw [keepRight hlt.le, if_pos (decide_eq_true hlt.ne')]
    | eq =>
      have he : k = key := compare_eq_iff_eq.mp hc
      subst he
      simp only [items_concat, items, filter_append, filter_cons]
      rw [keepLeft le_rfl, keepRight le_rfl, if_neg (by simp)]
    | gt =>
      have hgt : key < k := compare_gt_iff_gt.mp hc
      simp only [items_balance, ihr hr, items, filter_append, filter_cons]
      rw [keepLeft hgt.le, if_pos (decide_eq_true hgt.ne)]

theorem sized_remove (ht : t.Sized) (k : K) : (t.remove k).Sized := by
  induction t with
  | nil => trivial
  | node n h key value l r ihl ihr =>
    obtain ⟨_, hl, hr⟩ := ht
    simp only [remove]
    split
    · exact sized_balance (ihl hl) hr
    · exact sized_balance hl (ihr hr)
    · exact sized_concat hl hr

theorem ordered_remove (ht : t.Ordered) (k : K) : (t.remove k).Ordered := by
  unfold Ordered
  rw [items_remove ht]
  exact List.Pairwise.filter _ ht

end Ordered
end SortedTree

/-- An ordered tree with exact stored sizes: the only trees the library builds. -/
structure SortedMap (K V : Type) [LinearOrder K] where
  tree : SortedTree K V
  ordered : tree.Ordered
  sized : tree.Sized

abbrev SortedSet (K : Type) [LinearOrder K] := SortedMap K Unit

namespace SortedMap
variable {K V W : Type} [LinearOrder K]

def empty : SortedMap K V := ⟨.nil, List.Pairwise.nil, trivial⟩

def items (m : SortedMap K V) : List (K × V) := m.tree.items

def keys (m : SortedMap K V) : List K := m.items.map Prod.fst

def values (m : SortedMap K V) : List V := m.items.map Prod.snd

def size (m : SortedMap K V) : ℕ := m.tree.size

def isEmpty (m : SortedMap K V) : Bool :=
  match m.tree with
  | .nil => true
  | .node .. => false

def maybeGetItem (m : SortedMap K V) (k : K) : Option (K × V) := m.tree.maybeGetItem k

def maybeGet (m : SortedMap K V) (k : K) : Option V := (m.maybeGetItem k).map Prod.snd

def containsKey (m : SortedMap K V) (k : K) : Bool := (m.maybeGetItem k).isSome

def minimum (m : SortedMap K V) : Option (K × V) := m.tree.minimum

def maximum (m : SortedMap K V) : Option (K × V) := m.tree.maximum

def set (m : SortedMap K V) (k : K) (v : V) : SortedMap K V :=
  ⟨m.tree.set k v, SortedTree.ordered_set m.ordered k v, SortedTree.sized_set m.sized k v⟩

def remove (m : SortedMap K V) (k : K) : SortedMap K V :=
  ⟨m.tree.remove k, SortedTree.ordered_remove m.ordered k, SortedTree.sized_remove m.sized k⟩

def singleton (k : K) (v : V) : SortedMap K V :=
  ⟨.singleton k v, pairwise_singleton _ _, ⟨rfl, trivial, trivial⟩⟩

def createFromIterator (xs : List (K × V)) : SortedMap K V :=
  xs.foldl (fun m x => m.set x.1 x.2) empty

def map (f : K → V → W) (m : SortedMap K V) : SortedMap K W :=
  ⟨m.tree.mapValues f, by
    unfold SortedTree.Ordered
    rw [SortedTree.items_mapValues]
    exact pairwise_map.mpr m.ordered, SortedTree.sized_mapValues f m.sized⟩

theorem rest_ordered {m : SortedMap K V} {k : K} {v : V} {rest : SortedTree K V}
    (h : m.tree.removeMin = some (k, v, rest)) : rest.Ordered := by
  have ho := m.ordered
  unfold SortedTree.Ordered at ho
  rw [SortedTree.items_of_removeMin h] at ho
  exact (pairwise_cons.mp ho).2

def removeMin (m : SortedMap K V) : Option (K × V × SortedMap K V) :=
  match h : m.tree.removeMin with
  | none => none
  | some (k, v, rest) => some (k, v, ⟨rest, rest_ordered h, SortedTree.sized_removeMin m.sized h⟩)

variable (m : SortedMap K V)

theorem items_sorted : m.items.Pairwise (fun a b => a.1 < b.1) := m.ordered

theorem keys_sorted : m.keys.Pairwise (· < ·) :=
  pairwise_map.mpr m.items_sorted

theorem size_eq_length (m : SortedMap K V) : m.size = m.items.length :=
  SortedTree.size_eq_length m.sized

@[simp] theorem items_empty : (empty : SortedMap K V).items = [] := rfl

theorem isEmpty_iff {m : SortedMap K V} : m.isEmpty = true ↔ m.items = [] := by
  obtain ⟨t, ho, hs⟩ := m
  cases t with
  | nil => simp [isEmpty, items, SortedTree.items]
  | node => simp [isEmpty, items, SortedTree.items]

theorem minimum_eq_head (m : SortedMap K V) : m.minimum = m.items.head? :=
  SortedTree.minimum_eq_head m.tree

theorem maximum_eq_getLast (m : SortedMap K V) : m.maximum = m.items.getLast? :=
  SortedTree.maximum_eq_getLast m.tree

theorem mem_items_set (m : SortedMap K V) (k : K) (v : V) (x : K × V) :
    x ∈ (m.set k v).items ↔ x = (k, v) ∨ x.1 ≠ k ∧ x ∈ m.items :=
  SortedTree.mem_items_set m.ordered k v x

theorem items_set_ne_nil (k : K) (v : V) : (m.set k v).items ≠ [] :=
  ne_nil_of_mem ((m.mem_items_set k v (k, v)).mpr (Or.inl rfl))

theorem items_remove (m : SortedMap K V) (k : K) :
    (m.remove k).items = m.items.filter (fun x => decide (x.1 ≠ k)) :=
  SortedTree.items_remove m.ordered k

theorem mem_items_remove (k : K) (x : K × V) :
    x ∈ (m.remove k).items ↔ x.1 ≠ k ∧ x ∈ m.items := by
  rw [items_remove, mem_filter, decide_eq_true_iff, and_comm]

theorem items_map (f : K → V → W) (m : SortedMap K V) :
    (m.map f).items = m.items.map (fun x => (x.1, f x.1 x.2)) :=
  SortedTree.items_mapValues f m.tree

theorem maybeGet_eq_some {m : SortedMap K V} {k : K} {v : V} :
    m.maybeGet k = some v ↔ (k, v) ∈ m.items := by
  unfold maybeGet maybeGetItem items
  rw [Option.map_eq_some_iff]
  constructor
  · rintro ⟨⟨k', v'⟩, h, rfl⟩
    exact ((SortedTree.maybeGetItem_eq_some m.ordered).mp h).2
  · intro h
    exact ⟨(k, v), (SortedTree.maybeGetItem_eq_some m.ordered).mpr ⟨rfl, h⟩, rfl⟩

theorem maybeGet_eq_none {m : SortedMap K V} {k : K} :
    m.maybeGet k = none ↔ ∀ v, (k, v) ∉ m.items := by
  rw [← Option.not_isSome_iff_eq_none, Option.isSome_iff_exists]
  simp only [maybeGet_eq_some, not_exists]

theorem containsKey_eq (k : K) : m.containsKey k = (m.maybeGet k).isSome := by
  unfold containsKey maybeGet
  rw [Option.isSome_map]

@[simp] theorem maybeGet_empty (k : K) : (empty : SortedMap K V).maybeGet k = none := rfl

theorem maybeGet_set (k k' : K) (v : V) :
    (m.set k v).maybeGet k' = if k' = k then some v else m.maybeGet k' := by
  split_ifs with h
  · subst h
    rw [maybeGet_eq_some, mem_items_set]
    exact Or.inl rfl
  · ext w
    rw [maybeGet_eq_some, maybeGet_eq_some, mem_items_set]
    simp [h]

theorem maybeGet_remove (k k' : K) :
    (m.remove k).maybeGet k' = if k' = k then none else m.maybeGet k' := by
  split_ifs with h
  · subst h
    rw [maybeGet_eq_none]
    intro v hv
    exact ((mem_items_remove m k' _).mp hv).1 rfl
  · ext w
    rw [maybeGet_eq_some, maybeGet_eq_some, mem_items_remove]
    simp [h]

theorem maybeGet_map (f : K → V → W) (m : SortedMap K V) (k : K) :
    (m.map f).maybeGet k = (m.maybeGet k).map (f k) := by
  ext w
  rw [maybeGet_eq_some, items_map, Option.map_eq_some_iff]
  constructor
  · intro h
    obtain ⟨⟨k', v⟩, hm, he⟩ := mem_map.mp h
    cases he
    exact ⟨v, maybeGet_eq_some.mpr hm, rfl⟩
  · rintro ⟨v, hm, rfl⟩
    exact mem_map.mpr ⟨(k, v), maybeGet_eq_some.mp hm, rfl⟩

theorem maybeGet_singleton (k k' : K) (v : V) :
    (singleton k v).maybeGet k' = if k' = k then some v else none :=
  maybeGet_set empty k k' v

theorem mem_keys {m : SortedMap K V} {k : K} : k ∈ m.keys ↔ ∃ v, m.maybeGet k = some v := by
  simp only [keys, mem_map, maybeGet_eq_some, Prod.exists, exists_and_right, exists_eq_right]

theorem containsKey_iff {m : SortedMap K V} {k : K} : m.containsKey k = true ↔ k ∈ m.keys := by
  rw [containsKey_eq, Option.isSome_iff_exists, mem_keys]

theorem items_of_removeMin {m rest : SortedMap K V} {k : K} {v : V}
    (h : m.removeMin = some (k, v, rest)) : m.items = (k, v) :: rest.items := by
  unfold removeMin at h
  split at h
  · cases h
  · rename_i hm
    cases h
    exact SortedTree.items_of_removeMin hm

theorem items_nodup : m.items.Nodup :=
  m.items_sorted.imp fun hab he => (he ▸ hab).ne rfl

theorem items_eq_of_mem {m : SortedMap K V} {xs : List (K × V)}
    (hs : xs.Pairwise (fun a b => a.1 < b.1)) (h : ∀ x, x ∈ m.items ↔ x ∈ xs) :
    m.items = xs := by
  have hn : xs.Nodup := hs.imp fun hab he => (he ▸ hab).ne rfl
  refine ((perm_ext_iff_of_nodup m.items_nodup hn).mpr h).eq_of_pairwise ?_ m.items_sorted hs
  intro a b _ _ hab hba
  exact absurd hab hba.asymm

theorem items_eq_of_maybeGet {m m' : SortedMap K V} (h : ∀ k, m.maybeGet k = m'.maybeGet k) :
    m.items = m'.items := by
  refine items_eq_of_mem m'.items_sorted ?_
  rintro ⟨k, v⟩
  rw [← maybeGet_eq_some, ← maybeGet_eq_some, h]

end SortedMap
end SkipPlatform
