import SkipPlatform.SortedMap

set_option autoImplicit false

/-! The map used for diffing: a balanced tree in which every node also keeps the youngest
tick of its subtree, so that a walk for recent changes can skip old parts. -/
namespace SkipPlatform
open List

/-- `maxTick` and `current` are the two fields of a node's tick range. -/
inductive DTree (K V : Type) : Type where
  | nil : DTree K V
  | node (maxTick current height : ℕ) (key : K) (value : V) (left right : DTree K V) : DTree K V

namespace DTree
variable {K V : Type}

def getMaxTick : DTree K V → ℕ
  | nil => 0
  | node m _ _ _ _ _ _ => m

def getHeight : DTree K V → ℕ
  | nil => 0
  | node _ _ h _ _ _ _ => h

def itemsWithTick : DTree K V → List (K × V × ℕ)
  | nil => []
  | node _ t _ k v l r => l.itemsWithTick ++ (k, v, t) :: r.itemsWithTick

def mkNode (m t : ℕ) (k : K) (v : V) (l r : DTree K V) : DTree K V :=
  node (max m (max l.getMaxTick r.getMaxTick)) t (1 + max l.getHeight r.getHeight) k v l r

/-- The inner `nil`s contradict the height tests, as in `SortedTree.balance`. -/
def balance (m t : ℕ) (k : K) (v : V) (l r : DTree K V) : DTree K V :=
  if l.getHeight > r.getHeight + 2 then
    match l with
    | nil => mkNode m t k v l r
    | node lm lt _ lk lv ll lr =>
      if ll.getHeight ≥ lr.getHeight then mkNode lm lt lk lv ll (mkNode m t k v lr r)
      else
        match lr with
        | nil => mkNode m t k v l r
        | node lrm lrt _ lrk lrv lrl lrr =>
          mkNode lrm lrt lrk lrv (mkNode lm lt lk lv ll lrl) (mkNode m t k v lrr r)
  else if r.getHeight > l.getHeight + 2 then
    match r with
    | nil => mkNode m t k v l r
    | node rm rt _ rk rv rl rr =>
      if rr.getHeight ≥ rl.getHeight then mkNode rm rt rk rv (mkNode m t k v l rl) rr
      else
        match rl with
        | nil => mkNode m t k v l r
        | node rlm rlt _ rlk rlv rll rlr =>
          mkNode rlm rlt rlk rlv (mkNode m t k v l rll) (mkNode rm rt rk rv rlr rr)
  else mkNode m t k v l r

def removeMinBinding : DTree K V → Option ((ℕ × ℕ × K × V) × DTree K V)
  | nil => none
  | node m t _ k v l r =>
    match l.removeMinBinding with
    | none => some ((m, t, k, v), r)
    | some (binding, l) => some (binding, balance m t k v l r)

def merge (t1 t2 : DTree K V) : DTree K V :=
  match t1 with
  | nil => t2
  | node .. =>
    match t2.removeMinBinding with
    | none => t1
    | some ((m, t, k, v), t2) => balance m t k v t1 t2

/-- Every node's `maxTick` bounds the ticks below it. -/
def Ticked : DTree K V → Prop
  | nil => True
  | node m t h k v l r =>
    (∀ x ∈ (node m t h k v l r).itemsWithTick, x.2.2 ≤ m) ∧ l.Ticked ∧ r.Ticked

variable {t : DTree K V}

theorem Ticked.le_getMaxTick (h : t.Ticked) :
    ∀ x ∈ t.itemsWithTick, x.2.2 ≤ t.getMaxTick := by
  cases t with
  | nil => intro x hx; cases hx
  | node => exact h.1

@[simp] theorem itemsWithTick_mkNode (m t : ℕ) (k : K) (v : V) (l r : DTree K V) :
    (mkNode m t k v l r).itemsWithTick = l.itemsWithTick ++ (k, v, t) :: r.itemsWithTick := rfl

variable {l r : DTree K V}

theorem ticked_mkNode {m t : ℕ} {k : K} {v : V} (ht : t ≤ m) (hl : l.Ticked)
    (hr : r.Ticked) : (mkNode m t k v l r).Ticked := by
  refine ⟨?_, hl, hr⟩
  intro x hx
  simp only [itemsWithTick, mem_append, mem_cons] at hx
  rcases hx with hx | rfl | hx
  · have := hl.le_getMaxTick x hx
    omega
  · change t ≤ _
    omega
  · have := hr.le_getMaxTick x hx
    omega

theorem Ticked.current_le {m t h : ℕ} {k : K} {v : V}
    (ht : (node m t h k v l r).Ticked) : t ≤ m := by
  refine ht.1 (k, v, t) ?_
  simp [itemsWithTick]

@[simp] theorem itemsWithTick_balance (m t : ℕ) (k : K) (v : V) (l r : DTree K V) :
    (balance m t k v l r).itemsWithTick = l.itemsWithTick ++ (k, v, t) :: r.itemsWithTick := by
  unfold balance
  split_ifs
  · cases l with
    | nil => rfl
    | node lm lt lh lk lv ll lr =>
      cases lr with
      | nil => dsimp only; split_ifs <;> simp [itemsWithTick]
      | node => dsimp only; split_ifs <;> simp [itemsWithTick]
  · cases r with
    | nil => rfl
    | node rm rt rh rk rv rl rr =>
      cases rl with
      | nil => dsimp only; split_ifs <;> simp [itemsWithTick]
      | node => dsimp only; split_ifs <;> simp [itemsWithTick]
  · rfl

theorem ticked_balance {m t : ℕ} {k : K} {v : V} (ht : t ≤ m)
    (hl : l.Ticked) (hr : r.Ticked) : (balance m t k v l r).Ticked := by
  unfold balance
  split_ifs
  · cases l with
    | nil => exact ticked_mkNode ht hl hr
    | node lm lt lh lk lv ll lr =>
      have hlt := hl.current_le
      dsimp only
      split_ifs
      · exact ticked_mkNode hlt hl.2.1 (ticked_mkNode ht hl.2.2 hr)
      · cases lr with
        | nil => exact ticked_mkNode ht hl hr
        | node =>
          exact ticked_mkNode hl.2.2.current_le (ticked_mkNode hlt hl.2.1 hl.2.2.2.1)
            (ticked_mkNode ht hl.2.2.2.2 hr)
  · cases r with
    | nil => exact ticked_mkNode ht hl hr
    | node rm rt rh rk rv rl rr =>
      have hrt := hr.current_le
      dsimp only
      split_ifs
      · exact ticked_mkNode hrt (ticked_mkNode ht hl hr.2.1) hr.2.2
      · cases rl with
        | nil => exact ticked_mkNode ht hl hr
        | node =>
          exact ticked_mkNode hr.2.1.current_le (ticked_mkNode ht hl hr.2.1.2.1)
            (ticked_mkNode hrt hr.2.1.2.2 hr.2.2)
  · exact ticked_mkNode ht hl hr

theorem removeMinBinding_eq_none (h : t.removeMinBinding = none) : t = nil := by
  cases t with
  | nil => rfl
  | node m c h' k v l r =>
    rw [removeMinBinding] at h
    split at h <;> cases h

theorem itemsWithTick_removeMinBinding {t rest : DTree K V} {m c : ℕ} {k : K} {v : V}
    (h : t.removeMinBinding = some ((m, c, k, v), rest)) :
    t.itemsWithTick = (k, v, c) :: rest.itemsWithTick := by
  induction t generalizing m c k v rest with
  | nil => cases h
  | node m' c' h' k' v' l r ihl _ =>
    rw [removeMinBinding] at h
    split at h
    · rename_i hl
      cases h
      rw [removeMinBinding_eq_none hl]
      rfl
    · rename_i binding l' hl
      cases h
      rw [itemsWithTick_balance, itemsWithTick, ihl hl]
      rfl

theorem ticked_removeMinBinding {t rest : DTree K V} {m c : ℕ} {k : K} {v : V} (ht : t.Ticked)
    (h : t.removeMinBinding = some ((m, c, k, v), rest)) : rest.Ticked ∧ c ≤ m := by
  induction t generalizing m c k v rest with
  | nil => cases h
  | node m' c' h' k' v' l r ihl _ =>
    rw [removeMinBinding] at h
    split at h
    · cases h
      exact ⟨ht.2.2, ht.current_le⟩
    · rename_i binding l' hl
      cases h
      obtain ⟨hrest, hc⟩ := ihl ht.2.1 hl
      exact ⟨ticked_balance ht.current_le hrest ht.2.2, hc⟩

@[simp] theorem itemsWithTick_merge (t1 t2 : DTree K V) :
    (merge t1 t2).itemsWithTick = t1.itemsWithTick ++ t2.itemsWithTick := by
  cases t1 with
  | nil => rfl
  | node m c h k v l r =>
    rw [merge]
    split
    · rename_i h2
      rw [removeMinBinding_eq_none h2]
      simp [itemsWithTick]
    · rename_i h2
      rw [itemsWithTick_balance, itemsWithTick_removeMinBinding h2]

theorem ticked_merge {t1 t2 : DTree K V} (h1 : t1.Ticked) (h2 : t2.Ticked) :
    (merge t1 t2).Ticked := by
  cases t1 with
  | nil => exact h2
  | node m c h k v l r =>
    rw [merge]
    split
    · exact h1
    · rename_i hm
      obtain ⟨hrest, hc⟩ := ticked_removeMinBinding h2 hm
      exact ticked_balance hc h1 hrest

/-- The keys, values and ticks a walk for changes yields; old subtrees are skipped. -/
def getChangesAfterIter (after : ℕ) : DTree K V → List (K × V × ℕ)
  | nil => []
  | node m t _ k v l r =>
    if m < after then []
    else
      l.getChangesAfterIter after ++ (if after ≤ t then [(k, v, t)] else []) ++
        r.getChangesAfterIter after

/-- The order of the accumulating walk: a node before its subtrees. -/
def getChangesAcc (after : ℕ) : DTree K V → List K
  | nil => []
  | node m t _ k _ l r =>
    if m < after then []
    else
      (if after ≤ t then [k] else []) ++ l.getChangesAcc after ++ r.getChangesAcc after

theorem getChangesAfterIter_eq (h : t.Ticked) (after : ℕ) :
    t.getChangesAfterIter after = t.itemsWithTick.filter fun x => decide (after ≤ x.2.2) := by
  induction t with
  | nil => rfl
  | node m c h' k v l r ihl ihr =>
    rw [getChangesAfterIter]
    by_cases hm : m < after
    · rw [if_pos hm, eq_comm, filter_eq_nil_iff]
      intro x hx
      have := h.1 x hx
      simp only [decide_eq_true_eq]
      omega
    · rw [if_neg hm, ihl h.2.1, ihr h.2.2, itemsWithTick, filter_append, filter_cons,
        append_assoc]
      by_cases hc : after ≤ c <;> simp [hc]

theorem mem_getChangesAcc (h : t.Ticked) (after : ℕ) (k : K) :
    k ∈ t.getChangesAcc after ↔ ∃ x ∈ t.itemsWithTick, x.1 = k ∧ after ≤ x.2.2 := by
  induction t with
  | nil => simp [getChangesAcc, itemsWithTick]
  | node m c h' key v l r ihl ihr =>
    rw [getChangesAcc]
    by_cases hm : m < after
    · rw [if_pos hm]
      refine iff_of_false not_mem_nil ?_
      rintro ⟨x, hx, _, hle⟩
      have := h.1 x hx
      omega
    · rw [if_neg hm, mem_append, mem_append, ihl h.2.1, ihr h.2.2]
      simp only [itemsWithTick, mem_append, mem_cons]
      constructor
      · rintro ((hk | ⟨x, hx, hk⟩) | ⟨x, hx, hk⟩)
        · by_cases hc : after ≤ c
          · rw [if_pos hc, mem_singleton] at hk
            exact ⟨(key, v, c), Or.inr (Or.inl rfl), hk.symm, hc⟩
          · rw [if_neg hc] at hk
            cases hk
        · exact ⟨x, Or.inl hx, hk⟩
        · exact ⟨x, Or.inr (Or.inr hx), hk⟩
      · rintro ⟨x, hx | rfl | hx, hk, hle⟩
        · exact Or.inl (Or.inr ⟨x, hx, hk, hle⟩)
        · refine Or.inl (Or.inl ?_)
          rw [if_pos hle, mem_singleton]
          exact hk.symm
        · exact Or.inr ⟨x, hx, hk, hle⟩

section Ordered
variable [LinearOrder K]

def Ordered (t : DTree K V) : Prop := t.itemsWithTick.Pairwise (fun a b => a.1 < b.1)

def maybeGet (k : K) : DTree K V → Option V
  | nil => none
  | node _ _ _ key value left right =>
    match compare k key with
    | .lt => left.maybeGet k
    | .eq => some value
    | .gt => right.maybeGet k

@[grind] def set (m t : ℕ) (key : K) (value : V) : DTree K V → DTree K V
  | nil => mkNode m t key value nil nil
  | node m' t' _ k v l r =>
    match compare key k with
    | .lt => balance (max m m') t' k v (l.set (max m m') t key value) r
    | .eq => mkNode (max m m') t k value l r
    | .gt => balance (max m m') t' k v l (r.set (max m m') t key value)

@[grind] def remove (k : K) : DTree K V → DTree K V
  | nil => nil
  | node m t _ key value left right =>
    match compare k key with
    | .lt => mkNode m t key value (left.remove k) right
    | .eq => merge left right
    | .gt => mkNode m t key value left (right.remove k)

theorem ordered_append {l r : List (K × V × ℕ)} {x : K × V × ℕ} :
    (l ++ x :: r).Pairwise (fun a b => a.1 < b.1) ↔
      l.Pairwise (fun a b => a.1 < b.1) ∧ r.Pairwise (fun a b => a.1 < b.1) ∧
        (∀ y ∈ l, y.1 < x.1) ∧ ∀ y ∈ r, x.1 < y.1 := by
  simp only [pairwise_append, pairwise_cons, mem_cons]
  constructor
  · rintro ⟨hl, ⟨hx, hr⟩, hlr⟩
    exact ⟨hl, hr, fun y hy => hlr y hy x (Or.inl rfl), hx⟩
  · rintro ⟨hl, hr, hlx, hxr⟩
    refine ⟨hl, ⟨hxr, hr⟩, ?_⟩
    rintro y hy z (rfl | hz)
    · exact hlx y hy
    · exact (hlx y hy).trans (hxr z hz)

theorem ordered_node {m t h : ℕ} {k : K} {v : V} {l r : DTree K V} :
    (node m t h k v l r).Ordered ↔ l.Ordered ∧ r.Ordered ∧
      (∀ x ∈ l.itemsWithTick, x.1 < k) ∧ ∀ x ∈ r.itemsWithTick, k < x.1 := ordered_append

variable {t : DTree K V}

theorem maybeGet_eq_some (ht : t.Ordered) {k : K} {v : V} :
    t.maybeGet k = some v ↔ ∃ c, (k, v, c) ∈ t.itemsWithTick := by
  induction t with
  | nil => simp [maybeGet, itemsWithTick]
  | node m c h key value l r ihl ihr =>
    obtain ⟨hl, hr, hlk, hkr⟩ := ordered_node.mp ht
    simp only [maybeGet, itemsWithTick, mem_append, mem_cons]
    cases hc : compare k key with
    | lt =>
      have hlt : k < key := compare_lt_iff_lt.mp hc
      simp only [ihl hl]
      refine exists_congr fun c' => ⟨Or.inl, ?_⟩
      rintro (h | h | h)
      · exact h
      · exact absurd (congrArg Prod.fst h) hlt.ne
      · exact absurd (hkr _ h) hlt.le.not_gt
    | eq =>
      have he : k = key := compare_eq_iff_eq.mp hc
      subst he
      simp only [Option.some.injEq]
      constructor
      · rintro rfl
        exact ⟨c, Or.inr (Or.inl rfl)⟩
      · rintro ⟨c', h | h | h⟩
        · exact absurd (hlk _ h) (lt_irrefl _)
        · simp only [Prod.mk.injEq, true_and] at h
          exact h.1.symm
        · exact absurd (hkr _ h) (lt_irrefl _)
    | gt =>
      have hgt : key < k := compare_gt_iff_gt.mp hc
      simp only [ihr hr]
      refine exists_congr fun c' => ⟨fun h => Or.inr (Or.inr h), ?_⟩
      rintro (h | h | h)
      · exact absurd (hlk _ h) hgt.le.not_gt
      · exact absurd (congrArg Prod.fst h) hgt.ne'
      · exact h

theorem mem_itemsWithTick_set (ht : t.Ordered) (m c : ℕ) (k : K) (v : V)
    (x : K × V × ℕ) :
    x ∈ (t.set m c k v).itemsWithTick ↔ x = (k, v, c) ∨ x.1 ≠ k ∧ x ∈ t.itemsWithTick := by
  induction t generalizing m with
  | nil => simp [set, mkNode, itemsWithTick]
  | node m' c' h key value l r ihl ihr =>
    obtain ⟨hl, hr, hlk, hkr⟩ := ordered_node.mp ht
    simp only [set]
    cases hc : compare k key with
    | lt =>
      have hlt : k < key := compare_lt_iff_lt.mp hc
      simp only [itemsWithTick_balance, mem_append, mem_cons, ihl hl, itemsWithTick]
      constructor
      · rintro ((h | h) | rfl | h)
        · exact Or.inl h
        · exact Or.inr ⟨h.1, Or.inl h.2⟩
        · exact Or.inr ⟨hlt.ne', Or.inr (Or.inl rfl)⟩
        · exact Or.inr ⟨(hlt.trans (hkr _ h)).ne', Or.inr (Or.inr h)⟩
      · rintro (h | ⟨hx, h | h | h⟩)
        · exact Or.inl (Or.inl h)
        · exact Or.inl (Or.inr ⟨hx, h⟩)
        · exact Or.inr (Or.inl h)
        · exact Or.inr (Or.inr h)
    | eq =>
      have he : k = key := compare_eq_iff_eq.mp hc
      subst he
      simp only [itemsWithTick_mkNode, itemsWithTick, mem_append, mem_cons]
      constructor
      · rintro (h | h | h)
        · exact Or.inr ⟨(hlk _ h).ne, Or.inl h⟩
        · exact Or.inl h
        · exact Or.inr ⟨(hkr _ h).ne', Or.inr (Or.inr h)⟩
      · rintro (h | ⟨hx, h | h | h⟩)
        · exact Or.inr (Or.inl h)
        · exact Or.inl h
        · exact absurd (congrArg Prod.fst h) hx
        · exact Or.inr (Or.inr h)
    | gt =>
      have hgt : key < k := compare_gt_iff_gt.mp hc
      simp only [itemsWithTick_balance, mem_append, mem_cons, ihr hr, itemsWithTick]
      constructor
      · rintro (h | rfl | h | h)
        · exact Or.inr ⟨((hlk _ h).trans hgt).ne, Or.inl h⟩
        · exact Or.inr ⟨hgt.ne, Or.inr (Or.inl rfl)⟩
        · exact Or.inl h
        · exact Or.inr ⟨h.1, Or.inr (Or.inr h.2)⟩
      · rintro (h | ⟨hx, h | h | h⟩)
        · exact Or.inr (Or.inr (Or.inl h))
        · exact Or.inl h
        · exact Or.inr (Or.inl h)
        · exact Or.inr (Or.inr (Or.inr ⟨hx, h⟩))

theorem ordered_set (ht : t.Ordered) (m c : ℕ) (k : K) (v : V) :
    (t.set m c k v).Ordered := by
  induction t generalizing m with
  | nil => simp [set, mkNode, Ordered, itemsWithTick]
  | node m' c' h key value l r ihl ihr =>
    obtain ⟨hl, hr, hlk, hkr⟩ := ordered_node.mp ht
    simp only [set]
    cases hc : compare k key with
    | lt =>
      unfold Ordered
      rw [itemsWithTick_balance]
      refine ordered_append.mpr ⟨ihl hl _, hr, ?_, hkr⟩
      intro x hx
      rcases (mem_itemsWithTick_set hl _ c k v x).mp hx with rfl | ⟨_, h⟩
      · exact compare_lt_iff_lt.mp hc
      · exact hlk x h
    | eq =>
      have he : k = key := compare_eq_iff_eq.mp hc
      subst he
      exact ordered_append.mpr ⟨hl, hr, hlk, hkr⟩
    | gt =>
      unfold Ordered
      rw [itemsWithTick_balance]
      refine ordered_append.mpr ⟨hl, ihr hr _, hlk, ?_⟩
      intro x hx
      rcases (mem_itemsWithTick_set hr _ c k v x).mp hx with rfl | ⟨_, h⟩
      · exact compare_gt_iff_gt.mp hc
      · exact hkr x h

theorem ticked_set (ht : t.Ticked) (m c : ℕ) (hc : c ≤ m) (k : K) (v : V) :
    (t.set m c k v).Ticked := by
  induction t generalizing m with
  | nil => exact ticked_mkNode hc trivial trivial
  | node m' c' h key value l r ihl ihr =>
    have hcur := ht.current_le
    simp only [set]
    split
    · exact ticked_balance (by omega) (ihl ht.2.1 _ (by omega)) ht.2.2
    · exact ticked_mkNode (by omega) ht.2.1 ht.2.2
    · exact ticked_balance (by omega) ht.2.1 (ihr ht.2.2 _ (by omega))

theorem itemsWithTick_remove (ht : t.Ordered) (k : K) :
    (t.remove k).itemsWithTick = t.itemsWithTick.filter (fun x => decide (x.1 ≠ k)) := by
  induction t with
  | nil => rfl
  | node m c h key value l r ihl ihr =>
    obtain ⟨hl, hr, hlk, hkr⟩ := ordered_node.mp ht
    have keepLeft : key ≤ k →
        l.itemsWithTick.filter (fun x => decide (x.1 ≠ k)) = l.itemsWithTick := by
      intro hle
      refine filter_eq_self.mpr fun x hx => ?_
      exact decide_eq_true ((hlk x hx).trans_le hle).ne
    have keepRight : k ≤ key →
        r.itemsWithTick.filter (fun x => decide (x.1 ≠ k)) = r.itemsWithTick := by
      intro hle
      refine filter_eq_self.mpr fun x hx => ?_
      exact decide_eq_true (hle.trans_lt (hkr x hx)).ne'
    simp only [remove]
    cases hc : compare k key with
    | lt =>
      have hlt : k < key := compare_lt_iff_lt.mp hc
      simp only [itemsWithTick_mkNode, ihl hl, itemsWithTick, filter_append, filter_cons]
      rw [keepRight hlt.le, if_pos (decide_eq_true hlt.ne')]
    | eq =>
      have he : k = key := compare_eq_iff_eq.mp hc
      subst he
      simp only [itemsWithTick_merge, itemsWithTick, filter_append, filter_cons]
      rw [keepLeft le_rfl, keepRight le_rfl, if_neg (by simp)]
    | gt =>
      have hgt : key < k := compare_gt_iff_gt.mp hc
      simp only [itemsWithTick_mkNode, ihr hr, itemsWithTick, filter_append, filter_cons]
      rw [keepLeft hgt.le, if_pos (decide_eq_true hgt.ne)]

theorem ordered_remove (ht : t.Ordered) (k : K) : (t.remove k).Ordered := by
  unfold Ordered
  rw [itemsWithTick_remove ht]
  exact List.Pairwise.filter _ ht

theorem ticked_remove (ht : t.Ticked) (k : K) : (t.remove k).Ticked := by
  induction t with
  | nil => trivial
  | node m c h key value l r ihl ihr =>
    simp only [remove]
    split
    · exact ticked_mkNode ht.current_le (ihl ht.2.1) ht.2.2
    · exact ticked_merge ht.2.1 ht.2.2
    · exact ticked_mkNode ht.current_le ht.2.1 (ihr ht.2.2)

end Ordered
end DTree

structure DMap (K V : Type) [LinearOrder K] where
  tree : DTree K V
  ordered : tree.Ordered
  ticked : tree.Ticked

namespace DMap
variable {K V : Type} [LinearOrder K]

def empty : DMap K V := ⟨.nil, List.Pairwise.nil, trivial⟩

def itemsWithTick (m : DMap K V) : List (K × V × ℕ) := m.tree.itemsWithTick

def isEmpty (m : DMap K V) : Bool :=
  match m.tree with
  | .nil => true
  | .node .. => false

def maybeGet (m : DMap K V) (k : K) : Option V := m.tree.maybeGet k

def containsKey (m : DMap K V) (k : K) : Bool := (m.maybeGet k).isSome

def set (m : DMap K V) (tick : ℕ) (k : K) (v : V) : DMap K V :=
  ⟨m.tree.set tick tick k v, DTree.ordered_set m.ordered tick tick k v,
    DTree.ticked_set m.ticked tick tick le_rfl k v⟩

def remove (m : DMap K V) (k : K) : DMap K V :=
  ⟨m.tree.remove k, DTree.ordered_remove m.ordered k, DTree.ticked_remove m.ticked k⟩

def keys (m : DMap K V) : List K := m.itemsWithTick.map Prod.fst

def getChangesAfterIter (m : DMap K V) (after : ℕ) : List (K × V × ℕ) :=
  m.tree.getChangesAfterIter after

def getChangesAfter (m : DMap K V) (after : ℕ) : SortedSet K :=
  (m.tree.getChangesAcc after).foldl (fun s k => s.set k ()) .empty

variable (m : DMap K V)

theorem items_sorted : m.itemsWithTick.Pairwise (fun a b => a.1 < b.1) := m.ordered

@[simp] theorem itemsWithTick_empty : (empty : DMap K V).itemsWithTick = [] := rfl

theorem isEmpty_iff {m : DMap K V} : m.isEmpty = true ↔ m.itemsWithTick = [] := by
  obtain ⟨t, ho, ht⟩ := m
  cases t with
  | nil => simp [isEmpty, itemsWithTick, DTree.itemsWithTick]
  | node => simp [isEmpty, itemsWithTick, DTree.itemsWithTick]

theorem maybeGet_eq_some {m : DMap K V} {k : K} {v : V} :
    m.maybeGet k = some v ↔ ∃ c, (k, v, c) ∈ m.itemsWithTick := DTree.maybeGet_eq_some m.ordered

theorem mem_set (tick : ℕ) (k : K) (v : V) (x : K × V × ℕ) :
    x ∈ (m.set tick k v).itemsWithTick ↔ x = (k, v, tick) ∨ x.1 ≠ k ∧ x ∈ m.itemsWithTick :=
  DTree.mem_itemsWithTick_set m.ordered tick tick k v x

theorem mem_remove (k : K) (x : K × V × ℕ) :
    x ∈ (m.remove k).itemsWithTick ↔ x.1 ≠ k ∧ x ∈ m.itemsWithTick := by
  unfold itemsWithTick remove
  rw [DTree.itemsWithTick_remove m.ordered, mem_filter, decide_eq_true_iff, and_comm]

theorem getChangesAfterIter_eq (m : DMap K V) (after : ℕ) :
    m.getChangesAfterIter after = m.itemsWithTick.filter fun x => decide (after ≤ x.2.2) :=
  DTree.getChangesAfterIter_eq m.ticked after

theorem mem_foldl_set {s : SortedSet K} {ks : List K} {k : K} :
    k ∈ (ks.foldl (fun s k => s.set k ()) s).keys ↔ k ∈ ks ∨ k ∈ s.keys := by
  induction ks generalizing s with
  | nil => simp
  | cons k' ks ih =>
    rw [foldl_cons, ih]
    simp only [SortedMap.mem_keys, SortedMap.maybeGet_set, mem_cons]
    by_cases hk : k = k' <;> simp [hk]

theorem mem_getChangesAfter {m : DMap K V} {after : ℕ} {k : K} :
    k ∈ (m.getChangesAfter after).keys ↔
      ∃ x ∈ m.itemsWithTick, x.1 = k ∧ after ≤ x.2.2 := by
  unfold getChangesAfter
  rw [mem_foldl_set, DTree.mem_getChangesAcc m.ticked]
  simp [SortedMap.keys, itemsWithTick]

theorem maybeGet_eq_none {m : DMap K V} {k : K} :
    m.maybeGet k = none ↔ ∀ x ∈ m.itemsWithTick, x.1 ≠ k := by
  constructor
  · intro h x hx he
    have hsome : m.maybeGet k = some x.2.1 := maybeGet_eq_some.mpr ⟨x.2.2, he ▸ hx⟩
    rw [h] at hsome
    cases hsome
  · intro h
    cases hg : m.maybeGet k with
    | none => rfl
    | some v =>
      obtain ⟨c, hc⟩ := maybeGet_eq_some.mp hg
      exact absurd rfl (h _ hc)

theorem items_unique {m : DMap K V} {k : K} {v v' : V} {c c' : ℕ}
    (h : (k, v, c) ∈ m.itemsWithTick) (h' : (k, v', c') ∈ m.itemsWithTick) : v = v' ∧ c = c' := by
  have hp := pairwise_iff_getElem.mp m.items_sorted
  obtain ⟨i, hi, hie⟩ := mem_iff_getElem.mp h
  obtain ⟨j, hj, hje⟩ := mem_iff_getElem.mp h'
  have hij : i = j := by
    by_contra hne
    rcases Nat.lt_or_gt_of_ne hne with hlt | hlt
    · have := hp i j hi hj hlt
      rw [hie, hje] at this
      exact lt_irrefl _ this
    · have := hp j i hj hi hlt
      rw [hie, hje] at this
      exact lt_irrefl _ this
  subst hij
  rw [hie] at hje
  simpa using hje

theorem maybeGet_congr {m m' : DMap K V} {k : K}
    (h : ∀ v c, (k, v, c) ∈ m.itemsWithTick ↔ (k, v, c) ∈ m'.itemsWithTick) :
    m.maybeGet k = m'.maybeGet k := by
  apply Option.ext
  intro v
  rw [maybeGet_eq_some, maybeGet_eq_some]
  exact exists_congr fun c => h v c

theorem maybeGet_set (tick : ℕ) (k k' : K) (v : V) :
    (m.set tick k v).maybeGet k' = if k' = k then some v else m.maybeGet k' := by
  by_cases hk : k' = k
  · rw [if_pos hk]
    exact maybeGet_eq_some.mpr ⟨tick, (m.mem_set tick k v _).mpr (Or.inl (by rw [hk]))⟩
  · rw [if_neg hk]
    apply maybeGet_congr
    intro v' c
    rw [mem_set]
    simp [hk]

end DMap

namespace SortedMap
variable {K : Type} [LinearOrder K]

def union (s s' : SortedSet K) : SortedSet K := s'.keys.foldl (fun s k => s.set k ()) s

theorem mem_union {s s' : SortedSet K} {k : K} :
    k ∈ (s.union s').keys ↔ k ∈ s.keys ∨ k ∈ s'.keys := by
  unfold union
  rw [DMap.mem_foldl_set, or_comm]

end SortedMap
end SkipPlatform
