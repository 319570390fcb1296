import SkipPlatform.SortedTreeMerge

set_option autoImplicit false

/-! Ordered trees as finite maps: what each operation does to the lookups. -/
namespace SkipPlatform
open List
namespace SortedTree
variable {K V U W R : Type} [LinearOrder K]

variable {t : SortedTree K V} {v : V}

theorem maybeGet_eq_some (ht : t.Ordered) {k : K} :
    t.maybeGet k = some v ↔ (k, v) ∈ t.items := by
  unfold maybeGet
  rw [Option.map_eq_some_iff]
  constructor
  · rintro ⟨⟨k', v'⟩, h, rfl⟩
    exact ((maybeGetItem_eq_some ht).mp h).2
  · intro h
    exact ⟨(k, v), (maybeGetItem_eq_some ht).mpr ⟨rfl, h⟩, rfl⟩

theorem maybeGet_eq_none (ht : t.Ordered) {k : K} :
    t.maybeGet k = none ↔ ∀ x ∈ t.items, x.1 ≠ k := by
  rw [Option.eq_none_iff_forall_not_mem]
  constructor
  · intro h x hx he
    apply h x.2
    rw [Option.mem_def, maybeGet_eq_some ht, ← he]
    exact hx
  · intro h v hv
    exact h (k, v) ((maybeGet_eq_some ht).mp hv) rfl

theorem maybeGet_isSome (ht : t.Ordered) {k : K} :
    (t.maybeGet k).isSome ↔ ∃ x ∈ t.items, x.1 = k := by
  rw [Option.isSome_iff_ne_none, Ne, maybeGet_eq_none ht]
  push Not
  rfl

theorem maybeGet_congr {t t' : SortedTree K V} (ht : t.Ordered) (h : t'.items = t.items) (k : K) :
    t'.maybeGet k = t.maybeGet k := by
  have ht' : t'.Ordered := by
    unfold Ordered
    rw [h]
    exact ht
  ext v
  rw [maybeGet_eq_some ht', maybeGet_eq_some ht, h]

theorem maybeGet_node (n h : ℕ) (key : K) (v : V) (l r : SortedTree K V) (k : K) :
    (node n h key v l r).maybeGet k =
      if k < key then l.maybeGet k else if k = key then some v else r.maybeGet k := by
  unfold maybeGet
  rcases lt_trichotomy k key with hlt | rfl | hgt
  · rw [if_pos hlt, maybeGetItem, compare_lt_iff_lt.mpr hlt]
  · rw [if_neg (lt_irrefl _), if_pos rfl, maybeGetItem, compare_eq_iff_eq.mpr rfl]
    rfl
  · rw [if_neg hgt.not_gt, if_neg hgt.ne', maybeGetItem, compare_gt_iff_gt.mpr hgt]

variable {key : K}

theorem ordered_join {t l r : SortedTree K V}
    (h : t.items = l.items ++ (key, v) :: r.items) :
    t.Ordered ↔
      l.Ordered ∧ r.Ordered ∧ (∀ x ∈ l.items, x.1 < key) ∧ ∀ x ∈ r.items, key < x.1 := by
  unfold Ordered
  rw [h]
  exact ordered_node (n := 0) (h := 0) (v := v)

theorem maybeGet_join {t l r : SortedTree K V}
    (h : t.items = l.items ++ (key, v) :: r.items) (ht : t.Ordered) (k : K) :
    t.maybeGet k =
      if k < key then l.maybeGet k else if k = key then some v else r.maybeGet k := by
  have hnode : (node 0 0 key v l r).Ordered := ordered_node.mpr ((ordered_join h).mp ht)
  rw [maybeGet_congr hnode h, maybeGet_node]

variable {l r : SortedTree K V}

theorem ordered_concat (hl : l.Ordered) (hr : r.Ordered)
    (hlk : ∀ x ∈ l.items, x.1 < key) (hkr : ∀ x ∈ r.items, key < x.1) :
    (concat l r).Ordered := by
  unfold Ordered
  rw [items_concat, pairwise_append]
  exact ⟨hl, hr, fun x hx y hy => (hlk x hx).trans (hkr y hy)⟩

theorem maybeGet_concat (hl : l.Ordered) (hr : r.Ordered)
    (hlk : ∀ x ∈ l.items, x.1 < key) (hkr : ∀ x ∈ r.items, key < x.1) (k : K) :
    (concat l r).maybeGet k =
      if k < key then l.maybeGet k else if k = key then none else r.maybeGet k := by
  have hboth : (concat l r).Ordered := ordered_concat hl hr hlk hkr
  have hmem (v : V) :
      (concat l r).maybeGet k = some v ↔ l.maybeGet k = some v ∨ r.maybeGet k = some v := by
    rw [maybeGet_eq_some hboth, items_concat, mem_append, maybeGet_eq_some hl,
      maybeGet_eq_some hr]
  have hleft : ¬ k < key → l.maybeGet k = none := by
    intro hk
    rw [maybeGet_eq_none hl]
    intro x hx he
    exact hk (he ▸ hlk x hx)
  have hright : ¬ key < k → r.maybeGet k = none := by
    intro hk
    rw [maybeGet_eq_none hr]
    intro x hx he
    exact hk (he ▸ hkr x hx)
  ext v
  rw [hmem]
  split_ifs with hlt he
  · rw [hright hlt.not_gt]
    simp
  · rw [hleft hlt, hright (he ▸ lt_irrefl _)]
    simp
  · rw [hleft hlt]
    simp

structure Sides (key : K) (l r : SortedTree K V) : Prop where
  left : l.Ordered
  right : r.Ordered
  left_lt : ∀ x ∈ l.items, x.1 < key
  right_gt : ∀ x ∈ r.items, key < x.1

theorem ordered_concatOrJoin (h : Sides key l r)
    (x : Option V) : (concatOrJoin key x l r).Ordered := by
  cases x with
  | none => exact ordered_concat h.left h.right h.left_lt h.right_gt
  | some v =>
    exact (ordered_join (items_mergeImpl key v l r)).mpr ⟨h.left, h.right, h.left_lt, h.right_gt⟩

theorem maybeGet_concatOrJoin (h : Sides key l r)
    (x : Option V) (k : K) :
    (concatOrJoin key x l r).maybeGet k =
      if k < key then l.maybeGet k else if k = key then x else r.maybeGet k := by
  cases x with
  | none => exact maybeGet_concat h.left h.right h.left_lt h.right_gt k
  | some v => exact maybeGet_join (items_mergeImpl key v l r) (ordered_concatOrJoin h (some v)) k

theorem setWith_eq (k : K) (v : V) (f : V → V → Option V) (t : SortedTree K V) :
    t.setWith k v f =
      ((t.maybeGet k).elim (some v) fun old => f old v).map fun new => t.set k new := by
  induction t with
  | nil => rfl
  | node n h key value l r ihl ihr =>
    rw [maybeGet_node]
    rcases lt_trichotomy k key with hlt | rfl | hgt
    · rw [setWith, compare_lt_iff_lt.mpr hlt, if_pos hlt]
      simp only [ihl, set, compare_lt_iff_lt.mpr hlt]
      cases (l.maybeGet k).elim (some v) fun old => f old v <;> rfl
    · rw [setWith, compare_eq_iff_eq.mpr rfl, if_neg (lt_irrefl _), if_pos rfl]
      simp only [set, compare_eq_iff_eq.mpr rfl, Option.elim_some]
      cases f value v <;> rfl
    · rw [setWith, compare_gt_iff_gt.mpr hgt, if_neg hgt.not_gt, if_neg hgt.ne']
      simp only [ihr, set, compare_gt_iff_gt.mpr hgt]
      cases (r.maybeGet k).elim (some v) fun old => f old v <;> rfl

theorem setWith_set (k : K) (v : V) (t : SortedTree K V) :
    (t.setWith k v fun _ v2 => some v2) = some (t.set k v) := by
  rw [setWith_eq]
  cases t.maybeGet k <;> rfl

theorem maybeGet_set (ht : t.Ordered) (k x : K) (v : V) :
    (t.set k v).maybeGet x = if x = k then some v else t.maybeGet x := by
  ext w
  rw [maybeGet_eq_some (ordered_set ht k v), mem_items_set ht]
  split_ifs with h
  · simp [h, eq_comm]
  · rw [maybeGet_eq_some ht]
    simp [h]

theorem maybeGet_remove (ht : t.Ordered) (k x : K) :
    (t.remove k).maybeGet x = if x = k then none else t.maybeGet x := by
  ext w
  rw [maybeGet_eq_some (ordered_remove ht k), items_remove ht, mem_filter]
  split_ifs with h
  · simp [h]
  · rw [maybeGet_eq_some ht]
    simp [h]

theorem ordered_filter (f : K → V → Bool) (ht : t.Ordered) :
    (t.filter f).Ordered := by
  unfold Ordered
  rw [items_filter]
  exact List.Pairwise.filter _ ht

theorem maybeGet_filter (f : K → V → Bool) (ht : t.Ordered) (x : K) :
    (t.filter f).maybeGet x = (t.maybeGet x).filter (f x) := by
  ext w
  rw [maybeGet_eq_some (ordered_filter f ht), items_filter, mem_filter,
    Option.filter_eq_some_iff, maybeGet_eq_some ht]

structure SplitAt (key : K) (t : SortedTree K V)
    (s : SortedTree K V × Option V × SortedTree K V) : Prop where
  sides : Sides key s.1 s.2.2
  value : s.2.1 = t.maybeGet key
  left : ∀ k, k < key → s.1.maybeGet k = t.maybeGet k
  right : ∀ k, key < k → s.2.2.maybeGet k = t.maybeGet k

theorem mem_of_sub {s t : SortedTree K V} (hs : s.Ordered) (ht : t.Ordered) {P : K → Prop}
    (hget : ∀ k, P k → s.maybeGet k = t.maybeGet k) {x : K × V} (hx : x ∈ s.items) (hp : P x.1) :
    x ∈ t.items := by
  rw [← maybeGet_eq_some ht, ← hget _ hp, maybeGet_eq_some hs]
  exact hx

theorem split_spec (ht : t.Ordered) (key : K) :
    SplitAt key t (t.split key) := by
  induction t with
  | nil =>
    have hnil : (nil : SortedTree K V).Ordered := List.Pairwise.nil
    exact ⟨⟨hnil, hnil, nofun, nofun⟩, rfl, fun _ _ => rfl, fun _ _ => rfl⟩
  | node n h k v l r ihl ihr =>
    obtain ⟨hl, hr, hlk, hkr⟩ := ordered_node.mp ht
    rcases lt_trichotomy key k with hlt | rfl | hgt
    · have ih := ihl hl
      have hjoin := items_mergeImpl k v (l.split key).2.2 r
      have hrest : ∀ x ∈ (l.split key).2.2.items, x.1 < k := fun x hx =>
        hlk x (mem_of_sub ih.sides.right hl ih.right hx (ih.sides.right_gt x hx))
      have hord := (ordered_join hjoin).mpr ⟨ih.sides.right, hr, hrest, hkr⟩
      rw [split_of_lt hlt]
      refine ⟨⟨ih.sides.left, hord, ih.sides.left_lt, ?_⟩, ?_, ?_, ?_⟩
      · intro x hx
        rw [hjoin, mem_append, mem_cons] at hx
        rcases hx with hx | rfl | hx
        · exact ih.sides.right_gt x hx
        · exact hlt
        · exact hlt.trans (hkr x hx)
      · rw [maybeGet_node, if_pos hlt]
        exact ih.value
      · intro k' hk'
        rw [maybeGet_node, if_pos (hk'.trans hlt)]
        exact ih.left k' hk'
      · intro k' hk'
        rw [maybeGet_node, maybeGet_join hjoin hord]
        split_ifs
        · exact ih.right k' hk'
        · rfl
        · rfl
    · rw [split_self]
      refine ⟨⟨hl, hr, hlk, hkr⟩, ?_, ?_, ?_⟩
      · rw [maybeGet_node, if_neg (lt_irrefl _), if_pos rfl]
      · intro k' hk'
        rw [maybeGet_node, if_pos hk']
      · intro k' hk'
        rw [maybeGet_node, if_neg hk'.not_gt, if_neg hk'.ne']
    · have ih := ihr hr
      have hjoin := items_mergeImpl k v l (r.split key).1
      have hrest : ∀ x ∈ (r.split key).1.items, k < x.1 := fun x hx =>
        hkr x (mem_of_sub ih.sides.left hr ih.left hx (ih.sides.left_lt x hx))
      have hord := (ordered_join hjoin).mpr ⟨hl, ih.sides.left, hlk, hrest⟩
      rw [split_of_gt hgt]
      refine ⟨⟨hord, ih.sides.right, ?_, ih.sides.right_gt⟩, ?_, ?_, ?_⟩
      · intro x hx
        rw [hjoin, mem_append, mem_cons] at hx
        rcases hx with hx | rfl | hx
        · exact (hlk x hx).trans hgt
        · exact hgt
        · exact ih.sides.left_lt x hx
      · rw [maybeGet_node, if_neg hgt.not_gt, if_neg hgt.ne']
        exact ih.value
      · intro k' hk'
        rw [maybeGet_node, maybeGet_join hjoin hord]
        split_ifs
        · rfl
        · rfl
        · exact ih.left k' hk'
      · intro k' hk'
        rw [maybeGet_node, if_neg (hgt.trans hk').not_gt, if_neg (hgt.trans hk').ne']
        exact ih.right k' hk'

theorem sized_split (h : t.Sized) (key : K) :
    (t.split key).1.Sized ∧ (t.split key).2.2.Sized := by
  induction t with
  | nil => exact ⟨trivial, trivial⟩
  | node n h' k v l r ihl ihr =>
    rcases lt_trichotomy key k with hlt | rfl | hgt
    · rw [split_of_lt hlt]
      exact ⟨(ihl h.2.1).1, sized_mergeImpl (ihl h.2.1).2 h.2.2⟩
    · rw [split_self]
      exact h.2
    · rw [split_of_gt hgt]
      exact ⟨sized_mergeImpl h.2.1 (ihr h.2.2).1, (ihr h.2.2).2⟩

theorem sides_of_lookups (hl : l.Ordered) (hr : r.Ordered)
    (hleft : ∀ k, (l.maybeGet k).isSome → k < key) (hright : ∀ k, (r.maybeGet k).isSome → key < k) :
    Sides key l r := by
  refine ⟨hl, hr, ?_, ?_⟩
  · intro x hx
    exact hleft x.1 ((maybeGet_isSome hl).mpr ⟨x, hx, rfl⟩)
  · intro x hx
    exact hright x.1 ((maybeGet_isSome hr).mpr ⟨x, hx, rfl⟩)

theorem Sides.lt_of_isSome {key k : K} (h : Sides key l r)
    (hk : (l.maybeGet k).isSome) : k < key := by
  obtain ⟨x, hx, rfl⟩ := (maybeGet_isSome h.left).mp hk
  exact h.left_lt x hx

theorem Sides.gt_of_isSome {key k : K} (h : Sides key l r)
    (hk : (r.maybeGet k).isSome) : key < k := by
  obtain ⟨x, hx, rfl⟩ := (maybeGet_isSome h.right).mp hk
  exact h.right_gt x hx

theorem Sides.left_eq_none {key k : K} (h : Sides key l r)
    (hk : ¬ k < key) : l.maybeGet k = none :=
  Option.not_isSome_iff_eq_none.mp fun hs => hk (h.lt_of_isSome hs)

theorem Sides.right_eq_none {key k : K} (h : Sides key l r)
    (hk : ¬ key < k) : r.maybeGet k = none :=
  Option.not_isSome_iff_eq_none.mp fun hs => hk (h.gt_of_isSome hs)

theorem sides_node {n h : ℕ}
    (ht : (node n h key v l r).Ordered) : Sides key l r := by
  obtain ⟨hl, hr, hlk, hkr⟩ := ordered_node.mp ht
  exact ⟨hl, hr, hlk, hkr⟩

theorem splitAt_node {n h : ℕ}
    (ht : (node n h key v l r).Ordered) : SplitAt key (node n h key v l r) (l, some v, r) := by
  have hs := split_spec ht key
  rw [split_self] at hs
  exact hs

theorem SplitAt.maybeGet {key : K} {t : SortedTree K V}
    {s : SortedTree K V × Option V × SortedTree K V} (h : SplitAt key t s) (k : K) :
    t.maybeGet k = if k < key then s.1.maybeGet k else if k = key then s.2.1 else s.2.2.maybeGet k := by
  split_ifs with hlt he
  · exact (h.left k hlt).symm
  · rw [he]
    exact h.value.symm
  · exact (h.right k (lt_of_le_of_ne (not_lt.mp hlt) (Ne.symm he))).symm

structure Merges (t1 t2 t : SortedTree K V) : Prop where
  ordered : t.Ordered
  get : ∀ k, t.maybeGet k = (t2.maybeGet k).or (t1.maybeGet k)

theorem Merges.join {t1 t2 l r : SortedTree K V}
    {s1 s2 : SortedTree K V × Option V × SortedTree K V} (h1 : SplitAt key t1 s1)
    (h2 : SplitAt key t2 s2) (hv : s2.2.1.or s1.2.1 = some v) (hl : Merges s1.1 s2.1 l)
    (hr : Merges s1.2.2 s2.2.2 r) : Merges t1 t2 (mergeImpl key v l r) := by
  have hsides : Sides key l r := by
    apply sides_of_lookups hl.ordered hr.ordered
    · intro k hk
      rw [hl.get, Option.isSome_or, Bool.or_eq_true] at hk
      exact hk.elim h2.sides.lt_of_isSome h1.sides.lt_of_isSome
    · intro k hk
      rw [hr.get, Option.isSome_or, Bool.or_eq_true] at hk
      exact hk.elim h2.sides.gt_of_isSome h1.sides.gt_of_isSome
  refine ⟨ordered_concatOrJoin hsides (some v), fun k => ?_⟩
  have hget := maybeGet_concatOrJoin hsides (some v) k
  rw [concatOrJoin] at hget
  rw [hget, h1.maybeGet k, h2.maybeGet k, hl.get, hr.get]
  split_ifs
  · rfl
  · exact hv.symm
  · rfl

theorem merge_spec (t1 t2 : SortedTree K V) (h1 : t1.Ordered) (h2 : t2.Ordered) :
    Merges t1 t2 (t1.merge t2) := by
  induction t1, t2 using merge.induct with
  | case1 t2 =>
    rw [merge]
    exact ⟨h2, fun k => (Option.or_none).symm⟩
  | case2 n h k v l r =>
    rw [merge]
    exact ⟨h1, fun k => rfl⟩
  | case3 n1 m1 k1 v1 l1 r1 n2 m2 k2 v2 l2 r2 hle s ihl ihr =>
    have hs := split_spec h2 k1
    have ho := sides_node h1
    rw [merge, if_pos hle]
    apply Merges.join (splitAt_node h1) hs
    · change s.2.1.or (some v1) = some (s.2.1.getD v1)
      cases s.2.1 <;> rfl
    · exact ihl ho.left hs.sides.left
    · exact ihr ho.right hs.sides.right
  | case4 n1 m1 k1 v1 l1 r1 n2 m2 k2 v2 l2 r2 hle s ihl ihr =>
    have hs := split_spec h1 k2
    have ho := sides_node h2
    rw [merge, if_neg hle]
    apply Merges.join hs (splitAt_node h2)
    · rfl
    · exact ihl hs.sides.left ho.left
    · exact ihr hs.sides.right ho.right

def valuesAt (t0 : SortedTree K V) (t1 : SortedTree K U) (t2 : SortedTree K W) (k : K) :
    Option V × Option U × Option W :=
  (t0.maybeGet k, t1.maybeGet k, t2.maybeGet k)

def AnySome (x : Option V × Option U × Option W) : Prop :=
  x.1.isSome ∨ x.2.1.isSome ∨ x.2.2.isSome

instance (x : Option V × Option U × Option W) : Decidable (AnySome x) :=
  inferInstanceAs (Decidable (_ ∨ _ ∨ _))

/-- Three maps merged by a function that is called once for each of their keys. -/
structure MergesWith (f : K → Option V → Option U → Option W → Option R) (t0 : SortedTree K V)
    (t1 : SortedTree K U) (t2 : SortedTree K W) (p : List (MergeCall K V U W) × SortedTree K R) :
    Prop where
  ordered : p.2.Ordered
  sized : p.2.Sized
  get : ∀ k, p.2.maybeGet k =
    if AnySome (valuesAt t0 t1 t2 k) then f k (t0.maybeGet k) (t1.maybeGet k) (t2.maybeGet k)
    else none
  once : (p.1.map Prod.fst).Nodup
  calls : ∀ c, c ∈ p.1 ↔ AnySome c.2 ∧ c.2 = valuesAt t0 t1 t2 c.1

section Join
variable {key : K} {t0 : SortedTree K V} {t1 : SortedTree K U} {t2 : SortedTree K W}
  {s0 : SortedTree K V × Option V × SortedTree K V}
  {s1 : SortedTree K U × Option U × SortedTree K U}
  {s2 : SortedTree K W × Option W × SortedTree K W}
  {f : K → Option V → Option U → Option W → Option R}

theorem AnySome.lt_key (h0 : SplitAt key t0 s0) (h1 : SplitAt key t1 s1) (h2 : SplitAt key t2 s2)
    {k : K} (h : AnySome (valuesAt s0.1 s1.1 s2.1 k)) : k < key := by
  rcases h with h | h | h
  · exact h0.sides.lt_of_isSome h
  · exact h1.sides.lt_of_isSome h
  · exact h2.sides.lt_of_isSome h

theorem AnySome.key_lt (h0 : SplitAt key t0 s0) (h1 : SplitAt key t1 s1) (h2 : SplitAt key t2 s2)
    {k : K} (h : AnySome (valuesAt s0.2.2 s1.2.2 s2.2.2 k)) : key < k := by
  rcases h with h | h | h
  · exact h0.sides.gt_of_isSome h
  · exact h1.sides.gt_of_isSome h
  · exact h2.sides.gt_of_isSome h

theorem valuesAt_split (h0 : SplitAt key t0 s0) (h1 : SplitAt key t1 s1) (h2 : SplitAt key t2 s2)
    (k : K) :
    valuesAt t0 t1 t2 k =
      if k < key then valuesAt s0.1 s1.1 s2.1 k
      else if k = key then (s0.2.1, s1.2.1, s2.2.1) else valuesAt s0.2.2 s1.2.2 s2.2.2 k := by
  unfold valuesAt
  rw [h0.maybeGet k, h1.maybeGet k, h2.maybeGet k]
  split_ifs <;> rfl

theorem MergesWith.join (h0 : SplitAt key t0 s0) (h1 : SplitAt key t1 s1) (h2 : SplitAt key t2 s2)
    (hroot : AnySome (s0.2.1, s1.2.1, s2.2.1))
    {left right : List (MergeCall K V U W) × SortedTree K R}
    (hl : MergesWith f s0.1 s1.1 s2.1 left) (hr : MergesWith f s0.2.2 s1.2.2 s2.2.2 right) :
    MergesWith f t0 t1 t2 ((key, s0.2.1, s1.2.1, s2.2.1) :: (left.1 ++ right.1),
      concatOrJoin key (f key s0.2.1 s1.2.1 s2.2.1) left.2 right.2) := by
  have hleft (k : K) (hk : (left.2.maybeGet k).isSome) : k < key := by
    rw [hl.get] at hk
    split_ifs at hk with hany
    · exact hany.lt_key h0 h1 h2
    · cases hk
  have hright (k : K) (hk : (right.2.maybeGet k).isSome) : key < k := by
    rw [hr.get] at hk
    split_ifs at hk with hany
    · exact hany.key_lt h0 h1 h2
    · cases hk
  have hsides : Sides key left.2 right.2 := sides_of_lookups hl.ordered hr.ordered hleft hright
  have hcalll (c : MergeCall K V U W) (hc : c ∈ left.1) : c.1 < key := by
    have hany := (hl.calls c).mp hc
    rw [hany.2] at hany
    exact hany.1.lt_key h0 h1 h2
  have hcallr (c : MergeCall K V U W) (hc : c ∈ right.1) : key < c.1 := by
    have hany := (hr.calls c).mp hc
    rw [hany.2] at hany
    exact hany.1.key_lt h0 h1 h2
  refine ⟨ordered_concatOrJoin hsides _, sized_concatOrJoin hl.sized hr.sized, ?_, ?_, ?_⟩
  · intro k
    have hvalues := valuesAt_split h0 h1 h2 k
    rw [maybeGet_concatOrJoin hsides, hvalues, h0.maybeGet k, h1.maybeGet k, h2.maybeGet k, hl.get,
      hr.get]
    rcases lt_trichotomy k key with hlt | rfl | hgt
    · simp only [if_pos hlt]
    · simp only [if_neg (lt_irrefl k), if_true, if_pos hroot]
    · simp only [if_neg hgt.not_gt, if_neg hgt.ne']
  · rw [map_cons, map_append, nodup_cons, nodup_append]
    refine ⟨?_, hl.once, hr.once, ?_⟩
    · intro hmem
      rw [mem_append, mem_map, mem_map] at hmem
      rcases hmem with ⟨c, hc, he⟩ | ⟨c, hc, he⟩
      · exact (hcalll c hc).ne he
      · exact (hcallr c hc).ne' he
    · intro a ha b hb
      obtain ⟨c, hc, rfl⟩ := mem_map.mp ha
      obtain ⟨d, hd, rfl⟩ := mem_map.mp hb
      exact ((hcalll c hc).trans (hcallr d hd)).ne
  · intro c
    rw [mem_cons, mem_append, valuesAt_split h0 h1 h2]
    rcases lt_trichotomy c.1 key with hlt | he | hgt
    · rw [if_pos hlt, ← hl.calls]
      constructor
      · rintro (rfl | hc | hc)
        · exact absurd hlt (lt_irrefl _)
        · exact hc
        · exact absurd (hcallr c hc) hlt.not_gt
      · exact fun hc => Or.inr (Or.inl hc)
    · rw [if_neg (he ▸ lt_irrefl _), if_pos he]
      constructor
      · rintro (rfl | hc | hc)
        · exact ⟨hroot, rfl⟩
        · exact absurd he (hcalll c hc).ne
        · exact absurd he (hcallr c hc).ne'
      · rintro ⟨_, hvalues⟩
        exact Or.inl (Prod.ext he hvalues)
    · rw [if_neg hgt.not_gt, if_neg hgt.ne', ← hr.calls]
      constructor
      · rintro (rfl | hc | hc)
        · exact absurd hgt (lt_irrefl _)
        · exact absurd (hcalll c hc) hgt.not_gt
        · exact hc
      · exact fun hc => Or.inr (Or.inr hc)

end Join

theorem mergesWith_nil (f : K → Option V → Option U → Option W → Option R) :
    MergesWith f nil nil nil ([], nil) := by
  refine ⟨List.Pairwise.nil, trivial, fun k => rfl, nodup_nil, fun c => ?_⟩
  constructor
  · nofun
  · rintro ⟨hany, hvalues⟩
    rw [hvalues] at hany
    rcases hany with h | h | h <;> cases h

theorem mergeWith2_of_root {f : K → Option V → Option U → Option W → Option R}
    {t0 : SortedTree K V} {t1 : SortedTree K U} {t2 : SortedTree K W} {call : MergeCall K V U W}
    {left right : Maps K V U W} (h : mergeRoot t0 t1 t2 = some (call, left, right)) :
    mergeWith2 f t0 t1 t2 =
      joinAt f call (mergeWith2 f left.1 left.2.1 left.2.2)
        (mergeWith2 f right.1 right.2.1 right.2.2) := by
  rw [mergeWith2]
  · split
    · rename_i heq
      rw [h] at heq
      cases heq
    · rename_i heq
      rw [h] at heq
      cases heq
      rfl
  · rintro rfl rfl rfl
    cases h

theorem mergeRoot_split {t0 : SortedTree K V} {t1 : SortedTree K U} {t2 : SortedTree K W}
    {call : MergeCall K V U W} {left right : Maps K V U W}
    (h : mergeRoot t0 t1 t2 = some (call, left, right)) (o0 : t0.Ordered) (o1 : t1.Ordered)
    (o2 : t2.Ordered) :
    SplitAt call.1 t0 (left.1, call.2.1, right.1) ∧
      SplitAt call.1 t1 (left.2.1, call.2.2.1, right.2.1) ∧
      SplitAt call.1 t2 (left.2.2, call.2.2.2, right.2.2) ∧ AnySome call.2 := by
  obtain ⟨s0, s1, s2, hvalues, rfl, rfl, hroot⟩ := mergeRoot_cases h
  rw [hvalues]
  rcases hroot with ⟨n, m, v, ht, hv, rfl, rfl⟩ | ⟨n, m, v, ht, hv, rfl, rfl⟩ |
    ⟨n, m, v, ht, hv, rfl, rfl⟩
  · rw [ht] at o0 ⊢
    rw [hv]
    exact ⟨splitAt_node o0, split_spec o1 _, split_spec o2 _, Or.inl rfl⟩
  · rw [ht] at o1 ⊢
    rw [hv]
    exact ⟨split_spec o0 _, splitAt_node o1, split_spec o2 _, Or.inr (Or.inl rfl)⟩
  · rw [ht] at o2 ⊢
    rw [hv]
    exact ⟨split_spec o0 _, split_spec o1 _, splitAt_node o2, Or.inr (Or.inr rfl)⟩

theorem mergeWith2_spec (f : K → Option V → Option U → Option W → Option R) (t0 : SortedTree K V)
    (t1 : SortedTree K U) (t2 : SortedTree K W) (o0 : t0.Ordered) (o1 : t1.Ordered)
    (o2 : t2.Ordered) : ∃ p, mergeWith2 f t0 t1 t2 = some p ∧ MergesWith f t0 t1 t2 p := by
  induction t0, t1, t2 using mergeWith2.induct with
  | case1 => exact ⟨_, by rw [mergeWith2], mergesWith_nil f⟩
  | case2 t0 t1 t2 hne hnone =>
    obtain ⟨h0, h1, h2⟩ := mergeRoot_eq_none hnone
    exact absurd h2 (hne h0 h1)
  | case3 t0 t1 t2 hne call left right hroot ihl ihr =>
    obtain ⟨h0, h1, h2, hany⟩ := mergeRoot_split hroot o0 o1 o2
    obtain ⟨pl, hpl, hl⟩ := ihl h0.sides.left h1.sides.left h2.sides.left
    obtain ⟨pr, hpr, hr⟩ := ihr h0.sides.right h1.sides.right h2.sides.right
    refine ⟨_, ?_, MergesWith.join h0 h1 h2 hany hl hr⟩
    rw [mergeWith2_of_root hroot, hpl, hpr]
    rfl

theorem add_of_absent {k : K} (h : t.maybeGet k = none) (v : V) :
    t.add k v = some (t.set k v) := by
  unfold add
  rw [setWith_eq, h]
  rfl

theorem foldlM_addSome {A : Type} (step : SortedTree K R → K × A → Option (SortedTree K R))
    (g : K × A → Option R) (xs : List (K × A)) {acc : SortedTree K R}
    (hstep : ∀ t x, step t x = t.addSome x.1 (g x)) (hxs : (xs.map Prod.fst).Nodup)
    (hacc : acc.Ordered) (hsized : acc.Sized)
    (hfresh : ∀ x ∈ xs, (g x).isSome → acc.maybeGet x.1 = none) :
    ∃ t, xs.foldlM step acc = some t ∧ t.Ordered ∧ t.Sized ∧
      (∀ x ∈ xs, t.maybeGet x.1 = (g x).or (acc.maybeGet x.1)) ∧
        ∀ k, (∀ x ∈ xs, x.1 ≠ k) → t.maybeGet k = acc.maybeGet k := by
  induction xs generalizing acc with
  | nil => exact ⟨acc, rfl, hacc, hsized, nofun, fun _ _ => rfl⟩
  | cons x xs ih =>
    obtain ⟨hx, hrest⟩ := nodup_cons.mp hxs
    have hx (y : K × A) (hy : y ∈ xs) : y.1 ≠ x.1 := fun he =>
      hx (mem_map.mpr ⟨y, hy, he⟩)
    have hnext : ∃ acc', step acc x = some acc' ∧ acc'.Ordered ∧ acc'.Sized ∧
        acc'.maybeGet x.1 = (g x).or (acc.maybeGet x.1) ∧
          ∀ k, k ≠ x.1 → acc'.maybeGet k = acc.maybeGet k := by
      have hnone := hfresh x mem_cons_self
      rw [hstep]
      cases hg : g x with
      | none => exact ⟨acc, rfl, hacc, hsized, rfl, fun _ _ => rfl⟩
      | some v =>
        rw [hg] at hnone
        refine ⟨acc.set x.1 v, add_of_absent (hnone rfl) v, ordered_set hacc _ _,
          sized_set hsized _ _, ?_, ?_⟩
        · rw [maybeGet_set hacc, if_pos rfl]
          rfl
        · intro k hk
          rw [maybeGet_set hacc, if_neg hk]
    obtain ⟨acc', hrun, hord, hsz, hget, hkept⟩ := hnext
    have hlater := ih hrest hord hsz fun y hy hs => by
      rw [hkept y.1 (hx y hy)]
      exact hfresh y (mem_cons_of_mem x hy) hs
    obtain ⟨t, ht, htord, htsz, htget, htkept⟩ := hlater
    refine ⟨t, ?_, htord, htsz, ?_, ?_⟩
    · rw [foldlM_cons, hrun]
      exact ht
    · intro y hy
      rcases mem_cons.mp hy with rfl | hy
      · rw [htkept y.1 fun z hz => hx z hz, hget]
      · rw [htget y hy, hkept y.1 (hx y hy)]
    · intro k hk
      rw [htkept k fun y hy => hk y (mem_cons_of_mem x hy)]
      exact hkept k (Ne.symm (hk x mem_cons_self))

theorem keys_nodup (ht : t.Ordered) : (t.items.map Prod.fst).Nodup := by
  unfold List.Nodup
  rw [pairwise_map]
  exact ht.imp fun h => h.ne

theorem containsKey_eq (t : SortedTree K V) (k : K) :
    t.containsKey k = (t.maybeGet k).isSome := by
  unfold containsKey maybeGet
  rw [Option.isSome_map]

theorem mergeWith_spec (f : K → Option V → Option U → Option R)
    {other : SortedTree K U} (ht : t.Ordered) (ho : other.Ordered) :
    ∃ r, mergeWith f t other = some r ∧ r.Ordered ∧ r.Sized ∧ ∀ k,
      r.maybeGet k = if (t.maybeGet k).isSome ∨ (other.maybeGet k).isSome
        then f k (t.maybeGet k) (other.maybeGet k) else none := by
  have hempty : (nil : SortedTree K R).Ordered := List.Pairwise.nil
  have hnil (k : K) : (nil : SortedTree K R).maybeGet k = none := rfl
  have hfirst := foldlM_addSome (fun result x =>
      result.addSome x.1 (f x.1 (some x.2) (other.maybeGet x.1)))
    (fun x : K × V => f x.1 (some x.2) (other.maybeGet x.1)) t.items (fun _ _ => rfl) (keys_nodup ht) hempty trivial fun x _ _ => hnil x.1
  obtain ⟨addL, hrun, hord, hsz, hget, hkept⟩ := hfirst
  have hsecond := foldlM_addSome (fun result x =>
      if t.containsKey x.1 then some result else result.addSome x.1 (f x.1 none (some x.2)))
    (fun x : K × U => if t.containsKey x.1 then none else f x.1 none (some x.2)) other.items
    (fun r x => by split_ifs <;> rfl) (keys_nodup ho) hord hsz fun x _ hs => by
      split_ifs at hs with hc
      · cases hs
      · rw [containsKey_eq, Bool.not_eq_true, Option.isSome_eq_false_iff,
          Option.isNone_iff_eq_none, maybeGet_eq_none ht] at hc
        exact hkept x.1 hc
  obtain ⟨r, hrun', hord', hsz', hget', hkept'⟩ := hsecond
  refine ⟨r, ?_, hord', hsz', ?_⟩
  · unfold mergeWith
    rw [hrun]
    exact hrun'
  · intro k
    have hleft : addL.maybeGet k =
        if (t.maybeGet k).isSome then f k (t.maybeGet k) (other.maybeGet k) else none := by
      split_ifs with hs
      · obtain ⟨x, hx, rfl⟩ := (maybeGet_isSome ht).mp hs
        rw [hget x hx, hnil, Option.or_none, (maybeGet_eq_some ht).mpr hx]
      · rw [maybeGet_isSome ht] at hs
        push Not at hs
        exact hkept k hs
    by_cases hs : (other.maybeGet k).isSome
    · obtain ⟨x, hx, rfl⟩ := (maybeGet_isSome ho).mp hs
      rw [if_pos (Or.inr hs), hget' x hx, hleft, containsKey_eq, (maybeGet_eq_some ho).mpr hx]
      cases t.maybeGet x.1 with
      | none => simp
      | some v => simp
    · have hother := hs
      rw [maybeGet_isSome ho] at hs
      push Not at hs
      rw [hkept' k hs, hleft]
      by_cases hfirst : (t.maybeGet k).isSome
      · rw [if_pos hfirst, if_pos (Or.inl hfirst)]
      · rw [if_neg hfirst, if_neg (not_or.mpr ⟨hfirst, hother⟩)]

theorem ordered_of_keys {t' : SortedTree K W} (ht : t.Ordered)
    (h : t'.items.map Prod.fst = t.items.map Prod.fst) : t'.Ordered := by
  have hkeys : (t.items.map Prod.fst).Pairwise (· < ·) := pairwise_map.mpr ht
  rw [← h] at hkeys
  exact pairwise_map.mp hkeys

inductive Built : {V : Type} → SortedTree K V → Prop where
  | create {V : Type} : Built (nil : SortedTree K V)
  | singleton {V : Type} (k : K) (v : V) : Built (singleton k v)
  | setWith {V : Type} {t t' : SortedTree K V} {k : K} {v : V} {f : V → V → Option V} :
      Built t → t.setWith k v f = some t' → Built t'
  | remove {V : Type} {t : SortedTree K V} (k : K) : Built t → Built (t.remove k)
  | removeMin {V : Type} {t rest : SortedTree K V} {k : K} {v : V} :
      Built t → t.removeMin = some (k, v, rest) → Built rest
  | filter {V : Type} {t : SortedTree K V} (f : K → V → Bool) : Built t → Built (t.filter f)
  | map {V W : Type} {t : SortedTree K V} (f : K → V → W) : Built t → Built (t.mapValues f)
  | mapAcc {R V W : Type} {t : SortedTree K V} (f : R → K → V → R × W) (init : R) :
      Built t → Built (t.mapAcc f init).2
  | splitLeft {V : Type} {t : SortedTree K V} (key : K) : Built t → Built (t.split key).1
  | splitRight {V : Type} {t : SortedTree K V} (key : K) : Built t → Built (t.split key).2.2
  | merge {V : Type} {t1 t2 : SortedTree K V} : Built t1 → Built t2 → Built (t1.merge t2)
  | mergeWith {V U R : Type} {f : K → Option V → Option U → Option R} {t : SortedTree K V}
      {other : SortedTree K U} {r : SortedTree K R} :
      Built t → Built other → mergeWith f t other = some r → Built r
  | mergeWith2 {V U W R : Type} {f : K → Option V → Option U → Option W → Option R}
      {t0 : SortedTree K V} {t1 : SortedTree K U} {t2 : SortedTree K W}
      {p : List (MergeCall K V U W) × SortedTree K R} :
      Built t0 → Built t1 → Built t2 → mergeWith2 f t0 t1 t2 = some p → Built p.2

theorem sized_merge {t1 t2 : SortedTree K V} (h1 : t1.Sized) (h2 : t2.Sized) :
    (t1.merge t2).Sized := by
  induction t1, t2 using merge.induct with
  | case1 t2 =>
    rw [merge]
    exact h2
  | case2 n h k v l r =>
    rw [merge]
    exact h1
  | case3 n1 m1 k1 v1 l1 r1 n2 m2 k2 v2 l2 r2 hle s ihl ihr =>
    have hs := sized_split h2 k1
    rw [merge, if_pos hle]
    exact sized_mergeImpl (ihl h1.2.1 hs.1) (ihr h1.2.2 hs.2)
  | case4 n1 m1 k1 v1 l1 r1 n2 m2 k2 v2 l2 r2 hle s ihl ihr =>
    have hs := sized_split h1 k2
    rw [merge, if_neg hle]
    exact sized_mergeImpl (ihl hs.1 h2.2.1) (ihr hs.2 h2.2.2)

theorem Built.ordered_sized (h : Built t) : t.Ordered ∧ t.Sized := by
  induction h with
  | create => exact ⟨List.Pairwise.nil, trivial⟩
  | singleton k v => exact ⟨pairwise_singleton _ _, rfl, trivial, trivial⟩
  | setWith _ hset ih =>
    rw [setWith_eq] at hset
    obtain ⟨new, _, rfl⟩ := Option.map_eq_some_iff.mp hset
    exact ⟨ordered_set ih.1 _ _, sized_set ih.2 _ _⟩
  | remove k _ ih => exact ⟨ordered_remove ih.1 k, sized_remove ih.2 k⟩
  | removeMin _ hm ih =>
    have hord := ih.1
    unfold Ordered at hord
    rw [items_of_removeMin hm] at hord
    exact ⟨(pairwise_cons.mp hord).2, sized_removeMin ih.2 hm⟩
  | filter f _ ih => exact ⟨ordered_filter f ih.1, sized_filter f ih.2⟩
  | map f _ ih =>
    refine ⟨ordered_of_keys ih.1 ?_, sized_mapValues f ih.2⟩
    rw [items_mapValues, map_map]
    rfl
  | mapAcc f init _ ih => exact ⟨ordered_of_keys ih.1 (keys_mapAcc f init _), sized_mapAcc f init _⟩
  | splitLeft key _ ih => exact ⟨(split_spec ih.1 key).sides.left, (sized_split ih.2 key).1⟩
  | splitRight key _ ih => exact ⟨(split_spec ih.1 key).sides.right, (sized_split ih.2 key).2⟩
  | merge _ _ ih1 ih2 => exact ⟨(merge_spec _ _ ih1.1 ih2.1).ordered, sized_merge ih1.2 ih2.2⟩
  | mergeWith _ _ hm ih ihother =>
    obtain ⟨r, hr, hord, hsz, _⟩ := mergeWith_spec _ ih.1 ihother.1
    rw [hm] at hr
    cases hr
    exact ⟨hord, hsz⟩
  | mergeWith2 _ _ _ hm ih0 ih1 ih2 =>
    obtain ⟨p, hp, hspec⟩ := mergeWith2_spec _ _ _ _ ih0.1 ih1.1 ih2.1
    rw [hm] at hp
    cases hp
    exact ⟨hspec.ordered, hspec.sized⟩

/-- The operations on maps as operations on their lookups. `mergeWith2` makes the calls in
`MergesWith`, and no call of `balance` or `mergeWith2` ends in an `invariant_violation`. -/
structure FiniteOperations (t t' : SortedTree K V) (u : SortedTree K U) (w : SortedTree K W) :
    Prop where
  ordered : t.items.Pairwise fun a b => a.1 < b.1
  size : t.size = t.items.length
  get : ∀ k v, t.maybeGet k = some v ↔ (k, v) ∈ t.items
  balance : ∀ k v (l r : SortedTree K V), balanceOrFail k v l r = some (balance k v l r)
  set : ∀ k v, ∃ s, t.setWith k v (fun _ v2 => some v2) = some s ∧
    ∀ x, s.maybeGet x = if x = k then some v else t.maybeGet x
  remove : ∀ k x, (t.remove k).maybeGet x = if x = k then none else t.maybeGet x
  filter : ∀ f x, (t.filter f).maybeGet x = (t.maybeGet x).filter (f x)
  split_left : ∀ key x,
    (t.split key).1.maybeGet x = if x < key then t.maybeGet x else none
  split_value : ∀ key, (t.split key).2.1 = t.maybeGet key
  split_right : ∀ key x,
    (t.split key).2.2.maybeGet x = if key < x then t.maybeGet x else none
  merge : ∀ x, (t.merge t').maybeGet x = (t'.maybeGet x).or (t.maybeGet x)
  mergeWith : ∀ {R : Type} (f : K → Option V → Option U → Option R), ∃ r, mergeWith f t u = some r ∧
    ∀ k, r.maybeGet k = if (t.maybeGet k).isSome ∨ (u.maybeGet k).isSome
      then f k (t.maybeGet k) (u.maybeGet k) else none
  mergeWith2 : ∀ {R : Type} (f : K → Option V → Option U → Option W → Option R),
    ∃ p, mergeWith2 f t u w = some p ∧ MergesWith f t u w p

/-- Maps built by the operations behave as finite maps. -/
theorem built_finite {t t' : SortedTree K V} {u : SortedTree K U} {w : SortedTree K W}
    (ht : Built t) (ht' : Built t') (hu : Built u) (hw : Built w) :
    FiniteOperations t t' u w := by
  obtain ⟨hord, hsz⟩ := ht.ordered_sized
  have hord' := ht'.ordered_sized.1
  have hordu := hu.ordered_sized.1
  have hsplit (key : K) := split_spec hord key
  constructor
  case ordered => exact hord
  case size => exact size_eq_length hsz
  case get => exact fun k v => maybeGet_eq_some hord
  case balance => exact balanceOrFail_eq
  case set => exact fun k v => ⟨t.set k v, setWith_set k v t, fun x => maybeGet_set hord k x v⟩
  case remove => exact maybeGet_remove hord
  case filter => exact fun f x => maybeGet_filter f hord x
  case split_left =>
    intro key x
    split_ifs with hx
    · exact (hsplit key).left x hx
    · exact (hsplit key).sides.left_eq_none hx
  case split_value => exact fun key => (hsplit key).value
  case split_right =>
    intro key x
    split_ifs with hx
    · exact (hsplit key).right x hx
    · exact (hsplit key).sides.right_eq_none hx
  case merge => exact (merge_spec t t' hord hord').get
  case mergeWith =>
    intro R f
    obtain ⟨r, hr, _, _, hget⟩ := mergeWith_spec f hord hordu
    exact ⟨r, hr, hget⟩
  case mergeWith2 => exact fun f => mergeWith2_spec f t u w hord hordu hw.ordered_sized.1

theorem built_set {V : Type} {t : SortedTree K V} (h : Built t) (k : K) (v : V) :
    Built (t.set k v) := by
  refine .setWith (f := fun _ new => some new) h (?_ : t.setWith k v _ = some (t.set k v))
  rw [setWith_eq]
  cases t.maybeGet k <;> rfl

theorem built_createFromItems {V : Type} (items : List (K × V)) : Built (createFromItems items) := by
  have hfold : ∀ t : SortedTree K V, Built t →
      Built (items.foldl (fun m p => m.set p.1 p.2) t) := by
    induction items with
    | nil => exact fun t ht => ht
    | cons x items ih => exact fun t ht => ih _ (built_set ht x.1 x.2)
  exact hfold nil .create

theorem built_finite_sample :
    FiniteOperations
      (createFromItems [(4, 'd'), (2, 'b'), (6, 'f'), (1, 'a'), (3, 'c'), (5, 'e'), (7, 'g')])
      ((createFromItems [(9, 'i'), (3, 'x'), (8, 'h')]).remove 9)
      (createFromItems [(2, true), (7, false), (10, true)])
      ((createFromItems [(1, 5), (2, 6), (3, 7), (4, 8)]).split 3).2.2 :=
  built_finite (built_createFromItems _) ((built_createFromItems _).remove 9)
    (built_createFromItems _) ((built_createFromItems _).splitRight 3)

end SortedTree
end SkipPlatform
