import Mathlib.Data.List.Sort
import SkipPlatform.DMap

set_option autoImplicit false

/-! The other operations of the map used for diffing, mapping, filtering and the walk over
a range of ticks, and what the walks for changes find in any map the operations build. -/
namespace SkipPlatform
open List
namespace DTree
variable {K V W : Type}

/-- Every node is made anew at `tick`, with the height it had. -/
def map (tick : ℕ) (f : K → V → W) : DTree K V → DTree K W
  | nil => nil
  | node _ _ h k v l r => node tick tick h k (f k v) (l.map tick f) (r.map tick f)

/-- A dropped node is replaced by the merge of its subtrees as they were before filtering. -/
def filterChanged (f : K → V → ℕ → Bool) : DTree K V → DTree K V × Bool
  | nil => (nil, false)
  | node m t h k v l r =>
    let left := l.filterChanged f
    let right := r.filterChanged f
    if f k v t then
      if left.2 || right.2 then (mkNode m t k v left.1 right.1, true)
      else (node m t h k v l r, false)
    else (merge l r, true)

def filter (f : K → V → ℕ → Bool) (t : DTree K V) : DTree K V := (t.filterChanged f).1

/-- The bindings pushed by the walk over a range of ticks, a node before its subtrees. -/
def getChangesRange (tickStart tickEnd : ℕ) : DTree K V → List (K × V)
  | nil => []
  | node m t _ k v l r =>
    if m < tickStart then []
    else
      (if tickStart ≤ t ∧ t < tickEnd then [(k, v)] else []) ++
        l.getChangesRange tickStart tickEnd ++ r.getChangesRange tickStart tickEnd

/-- Keys with their value and tick, a node before its subtrees. -/
def preorder : DTree K V → List (K × V × ℕ)
  | nil => []
  | node _ t _ k v l r => (k, v, t) :: (l.preorder ++ r.preorder)

theorem preorder_perm (t : DTree K V) : t.preorder.Perm t.itemsWithTick := by
  induction t with
  | nil => exact List.Perm.refl _
  | node m c h k v l r ihl ihr =>
    have happ : (l.preorder ++ r.preorder).Perm (l.itemsWithTick ++ r.itemsWithTick) :=
      ihl.append ihr
    exact (happ.cons (k, v, c)).trans perm_middle.symm

theorem getChangesRange_eq {t : DTree K V} (h : t.Ticked) (tickStart tickEnd : ℕ) :
    t.getChangesRange tickStart tickEnd =
      (t.preorder.filter fun x => decide (tickStart ≤ x.2.2 ∧ x.2.2 < tickEnd)).map
        fun x => (x.1, x.2.1) := by
  induction t with
  | nil => rfl
  | node m c h' k v l r ihl ihr =>
    rw [getChangesRange]
    by_cases hm : m < tickStart
    · have hnone : (node m c h' k v l r).preorder.filter
          (fun x => decide (tickStart ≤ x.2.2 ∧ x.2.2 < tickEnd)) = [] := by
        rw [filter_eq_nil_iff]
        intro x hx
        have hle := h.1 x ((preorder_perm _).mem_iff.mp hx)
        rw [decide_eq_true_iff]
        omega
      rw [if_pos hm, hnone]
      rfl
    · rw [if_neg hm, ihl h.2.1, ihr h.2.2, preorder, filter_cons, filter_append]
      by_cases hc : tickStart ≤ c ∧ c < tickEnd
      · simp [hc]
      · simp [hc]

theorem itemsWithTick_map (tick : ℕ) (f : K → V → W) (t : DTree K V) :
    (t.map tick f).itemsWithTick = t.itemsWithTick.map fun x => (x.1, f x.1 x.2.1, tick) := by
  induction t with
  | nil => rfl
  | node m c h k v l r ihl ihr =>
    rw [map, itemsWithTick, itemsWithTick, ihl, ihr, map_append, map_cons]

theorem ticked_map (tick : ℕ) (f : K → V → W) (t : DTree K V) : (t.map tick f).Ticked := by
  induction t with
  | nil => trivial
  | node m c h k v l r ihl ihr =>
    refine ⟨?_, ihl, ihr⟩
    intro x hx
    have heq := itemsWithTick_map tick f (node m c h k v l r)
    rw [map] at heq
    rw [heq] at hx
    obtain ⟨y, _, hy⟩ := mem_map.mp hx
    rw [← hy]

section Filter
variable (f : K → V → ℕ → Bool)

theorem filterChanged_of_unchanged {t : DTree K V} (h : (t.filterChanged f).2 = false) :
    (t.filterChanged f).1 = t := by
  cases t with
  | nil => rfl
  | node m c h' k v l r =>
    rw [filterChanged] at h ⊢
    split_ifs at h ⊢
    · rfl

variable {l r : DTree K V} {m c h : ℕ}

theorem itemsWithTick_filter_kept {k : K} {v : V}
    (hk : f k v c = true) :
    ((node m c h k v l r).filter f).itemsWithTick =
      (l.filter f).itemsWithTick ++ (k, v, c) :: (r.filter f).itemsWithTick := by
  unfold filter
  rw [filterChanged]
  rw [if_pos hk]
  by_cases hc : ((l.filterChanged f).2 || (r.filterChanged f).2) = true
  · rw [if_pos hc]
    rfl
  · rw [if_neg hc]
    have hor := Bool.or_eq_false_iff.mp (Bool.eq_false_iff.mpr hc)
    rw [filterChanged_of_unchanged f hor.1, filterChanged_of_unchanged f hor.2]
    rfl

theorem itemsWithTick_filter_dropped {k : K} {v : V}
    (hk : f k v c = false) :
    ((node m c h k v l r).filter f).itemsWithTick = l.itemsWithTick ++ r.itemsWithTick := by
  unfold filter
  rw [filterChanged]
  rw [if_neg (by rw [hk]; exact Bool.false_ne_true), itemsWithTick_merge]

/-- The bindings that satisfy `f`. -/
def satisfying (t : DTree K V) : List (K × V × ℕ) :=
  t.itemsWithTick.filter fun x => f x.1 x.2.1 x.2.2

theorem satisfying_kept {k : K} {v : V} (hk : f k v c = true) :
    (node m c h k v l r).satisfying f = l.satisfying f ++ (k, v, c) :: r.satisfying f := by
  unfold satisfying
  rw [itemsWithTick, filter_append, filter_cons, if_pos hk]

theorem satisfying_dropped {k : K} {v : V} (hk : f k v c = false) :
    (node m c h k v l r).satisfying f = l.satisfying f ++ r.satisfying f := by
  unfold satisfying
  rw [itemsWithTick, filter_append, filter_cons, if_neg (by simp [hk])]

theorem filter_sublist (t : DTree K V) :
    (t.filter f).itemsWithTick.Sublist t.itemsWithTick := by
  induction t with
  | nil => exact List.Sublist.refl _
  | node m c h k v l r ihl ihr =>
    cases hk : f k v c with
    | true =>
      rw [itemsWithTick_filter_kept f hk]
      exact ihl.append (ihr.cons_cons _)
    | false =>
      rw [itemsWithTick_filter_dropped f hk]
      exact (List.Sublist.refl _).append (sublist_cons_self _ _)

theorem satisfying_sublist (t : DTree K V) :
    (t.satisfying f).Sublist (t.filter f).itemsWithTick := by
  induction t with
  | nil => exact List.Sublist.refl _
  | node m c h k v l r ihl ihr =>
    cases hk : f k v c with
    | true =>
      rw [itemsWithTick_filter_kept f hk, satisfying_kept f hk]
      exact ihl.append (ihr.cons_cons _)
    | false =>
      rw [itemsWithTick_filter_dropped f hk, satisfying_dropped f hk]
      exact List.filter_sublist.append List.filter_sublist

theorem ticked_filter {t : DTree K V} (h : t.Ticked) : (t.filter f).Ticked := by
  induction t with
  | nil => trivial
  | node m c h' k v l r ihl ihr =>
    unfold filter at ihl ihr ⊢
    rw [filterChanged]
    split_ifs
    · exact ticked_mkNode h.current_le (ihl h.2.1) (ihr h.2.2)
    · exact h
    · exact ticked_merge h.2.1 h.2.2

/-- Below a binding that fails `f`, every binding satisfies it. -/
def DropsApart : DTree K V → Prop
  | nil => True
  | node _ c _ k v l r =>
    if f k v c then l.DropsApart ∧ r.DropsApart
    else ∀ x ∈ l.itemsWithTick ++ r.itemsWithTick, f x.1 x.2.1 x.2.2 = true

theorem filter_eq_satisfying_iff (t : DTree K V) :
    (t.filter f).itemsWithTick = t.satisfying f ↔ t.DropsApart f := by
  induction t with
  | nil => exact iff_of_true rfl trivial
  | node m c h k v l r ihl ihr =>
    cases hk : f k v c with
    | true =>
      rw [itemsWithTick_filter_kept f hk, satisfying_kept f hk, DropsApart, if_pos hk, ← ihl,
        ← ihr]
      constructor
      · intro heq
        have hl := (satisfying_sublist f l).length_le
        have hr := (satisfying_sublist f r).length_le
        have hlen := congrArg List.length heq
        rw [length_append, length_append, length_cons, length_cons] at hlen
        have hsplit := append_inj heq (by omega)
        exact ⟨hsplit.1, (List.cons.inj hsplit.2).2⟩
      · intro heq
        rw [heq.1, heq.2]
    | false =>
      rw [itemsWithTick_filter_dropped f hk, satisfying_dropped f hk, DropsApart,
        if_neg (by rw [hk]; exact Bool.false_ne_true)]
      have hcat : l.satisfying f ++ r.satisfying f =
          (l.itemsWithTick ++ r.itemsWithTick).filter fun x => f x.1 x.2.1 x.2.2 := by
        rw [filter_append]
        rfl
      rw [hcat, eq_comm, filter_eq_self]

end Filter

section Ordered
variable [LinearOrder K]

theorem ordered_map {t : DTree K V} (h : t.Ordered) (tick : ℕ) (f : K → V → W) :
    (t.map tick f).Ordered := by
  unfold Ordered
  rw [itemsWithTick_map, pairwise_map]
  exact h

theorem ordered_filter {t : DTree K V} (h : t.Ordered) (f : K → V → ℕ → Bool) :
    (t.filter f).Ordered := h.sublist (filter_sublist f t)

end Ordered
end DTree

namespace DMap
variable {K : Type} [LinearOrder K] {V W : Type}

def map (m : DMap K V) (tick : ℕ) (f : K → V → W) : DMap K W :=
  ⟨m.tree.map tick f, DTree.ordered_map m.ordered tick f, DTree.ticked_map tick f m.tree⟩

def filter (m : DMap K V) (f : K → V → ℕ → Bool) : DMap K V :=
  ⟨m.tree.filter f, DTree.ordered_filter m.ordered f, DTree.ticked_filter f m.ticked⟩

def getChangesRange (m : DMap K V) (tickStart tickEnd : ℕ) : List (K × V) :=
  m.tree.getChangesRange tickStart tickEnd

/-- The bindings a filter keeps are those that satisfy it exactly when no binding it drops
lies below another one it drops. -/
theorem filter_exact_iff (m : DMap K V) (f : K → V → ℕ → Bool) :
    (m.filter f).itemsWithTick = m.itemsWithTick.filter (fun x => f x.1 x.2.1 x.2.2) ↔
      m.tree.DropsApart f :=
  DTree.filter_eq_satisfying_iff f m.tree

/-- Filtering out `1` and `2` drops the root `2`, whose left child `1` stays. -/
theorem filter_keeps_dropped :
    ((((empty : DMap ℕ ℕ).set 1 2 20).set 1 1 10).filter fun k _ _ => decide (2 < k)).itemsWithTick
      ≠ (((empty : DMap ℕ ℕ).set 1 2 20).set 1 1 10).itemsWithTick.filter
        fun x => decide (2 < x.1) := by
  decide

theorem keys_getChangesAfter (m : DMap K V) (after : ℕ) :
    (m.getChangesAfter after).keys =
      (m.itemsWithTick.filter fun x => decide (after ≤ x.2.2)).map Prod.fst := by
  have hsorted : ((m.itemsWithTick.filter fun x => decide (after ≤ x.2.2)).map
      Prod.fst).Pairwise (· < ·) := pairwise_map.mpr (m.items_sorted.filter _)
  have hkeys : (m.getChangesAfter after).keys.Pairwise (· < ·) := SortedMap.keys_sorted _
  have hperm : (m.getChangesAfter after).keys.Perm
      ((m.itemsWithTick.filter fun x => decide (after ≤ x.2.2)).map Prod.fst) := by
    rw [perm_ext_iff_of_nodup (hkeys.imp ne_of_lt) (hsorted.imp ne_of_lt)]
    intro k
    rw [mem_getChangesAfter]
    simp only [mem_map, mem_filter, decide_eq_true_eq]
    constructor
    · intro ⟨x, hx, hk, hle⟩
      exact ⟨x, ⟨hx, hle⟩, hk⟩
    · intro ⟨x, ⟨hx, hle⟩, hk⟩
      exact ⟨x, hx, hk, hle⟩
  exact hperm.eq_of_pairwise' (r := (· ≤ ·)) (hkeys.imp le_of_lt) (hsorted.imp le_of_lt)

/-- The two queries for changes list in key order exactly the keys that are recent enough; the
one for a range of ticks lists the bindings of that range once each, a node before its
subtrees. -/
theorem change_queries_exact (m : DMap K V) (after tickStart tickEnd : ℕ) :
    (m.getChangesAfter after).keys =
        (m.itemsWithTick.filter fun x => decide (after ≤ x.2.2)).map Prod.fst ∧
      m.getChangesAfterIter after = m.itemsWithTick.filter (fun x => decide (after ≤ x.2.2)) ∧
      m.itemsWithTick.Pairwise (fun x y => x.1 < y.1) ∧
      m.getChangesRange tickStart tickEnd =
        (m.tree.preorder.filter fun x => decide (tickStart ≤ x.2.2 ∧ x.2.2 < tickEnd)).map
          (fun x => (x.1, x.2.1)) ∧
      m.tree.preorder.Perm m.itemsWithTick :=
  ⟨keys_getChangesAfter m after, getChangesAfterIter_eq m after, m.items_sorted,
    DTree.getChangesRange_eq m.ticked tickStart tickEnd, DTree.preorder_perm m.tree⟩

/-- The root `2` comes before its left child `1`. -/
theorem getChangesRange_not_sorted :
    ¬ ((((empty : DMap ℕ ℕ).set 1 2 20).set 1 1 10).getChangesRange 0 5).Pairwise
      (fun x y => x.1 < y.1) := by
  decide

/-- Mapping renews every binding: each lookup is mapped, and each key changed at `tick`. -/
theorem map_renews (m : DMap K V) (tick after : ℕ) (f : K → V → W) :
    (∀ k, (m.map tick f).maybeGet k = (m.maybeGet k).map (f k)) ∧
      ((m.map tick f).getChangesAfter after).keys = if after ≤ tick then m.keys else [] := by
  have items : (m.map tick f).itemsWithTick =
      m.itemsWithTick.map fun x => (x.1, f x.1 x.2.1, tick) := DTree.itemsWithTick_map tick f m.tree
  constructor
  · intro k
    cases found : m.maybeGet k with
    | none =>
      refine maybeGet_eq_none.mpr fun x hx => ?_
      rw [items] at hx
      obtain ⟨y, hy, rfl⟩ := mem_map.mp hx
      exact maybeGet_eq_none.mp found y hy
    | some v =>
      obtain ⟨c, member⟩ := maybeGet_eq_some.mp found
      exact maybeGet_eq_some.mpr ⟨tick, items ▸ mem_map.mpr ⟨_, member, rfl⟩⟩
  · rw [keys_getChangesAfter, items, filter_map, map_map, keys]
    split_ifs with recent
    · simp [Function.comp_def, recent]
    · simp [Function.comp_def, recent]

end DMap
end SkipPlatform
