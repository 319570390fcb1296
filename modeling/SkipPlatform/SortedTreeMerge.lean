import SkipPlatform.SortedMap

set_option autoImplicit false

/-! Merging ordered trees: a tree is cut at the root of another one, the halves are merged, and the
results are joined again around the root. -/
namespace SkipPlatform
open List
namespace SortedTree
variable {K V U W R : Type}

/-- `balance` with its `invariant_violation` branches. -/
def balanceOrFail (k : K) (v : V) (l r : SortedTree K V) : Option (SortedTree K V) :=
  if l.height > r.height + 2 then
    match l with
    | nil => none
    | node _ _ lk lv ll lr =>
      if ll.height ≥ lr.height then some (mkNode lk lv ll (mkNode k v lr r))
      else
        match lr with
        | nil => none
        | node _ _ lrk lrv lrl lrr =>
          some (mkNode lrk lrv (mkNode lk lv ll lrl) (mkNode k v lrr r))
  else if r.height > l.height + 2 then
    match r with
    | nil => none
    | node _ _ rk rv rl rr =>
      if rr.height ≥ rl.height then some (mkNode rk rv (mkNode k v l rl) rr)
      else
        match rl with
        | nil => none
        | node _ _ rlk rlv rll rlr =>
          some (mkNode rlk rlv (mkNode k v l rll) (mkNode rk rv rlr rr))
  else some (mkNode k v l r)

theorem balanceOrFail_eq (k : K) (v : V) (l r : SortedTree K V) :
    balanceOrFail k v l r = some (balance k v l r) := by
  unfold balanceOrFail balance
  split_ifs with hl hr
  · cases l with
    | nil => exact absurd hl (Nat.not_lt_zero _)
    | node n h lk lv ll lr =>
      dsimp only
      split_ifs with hh
      · rfl
      · cases lr with
        | nil => exact absurd (Nat.zero_le _) hh
        | node => rfl
  · cases r with
    | nil => exact absurd hr (Nat.not_lt_zero _)
    | node n h rk rv rl rr =>
      dsimp only
      split_ifs with hh
      · rfl
      · cases rl with
        | nil => exact absurd (Nat.zero_le _) hh
        | node => rfl
  · rfl

def addMinBinding (k : K) (v : V) : SortedTree K V → SortedTree K V
  | nil => singleton k v
  | node _ _ key value left right => balance key value (left.addMinBinding k v) right

def addMaxBinding (k : K) (v : V) : SortedTree K V → SortedTree K V
  | nil => singleton k v
  | node _ _ key value left right => balance key value left (right.addMaxBinding k v)

def mergeImpl (k : K) (v : V) : SortedTree K V → SortedTree K V → SortedTree K V
  | nil, r => r.addMinBinding k v
  | node ln lh lk lv ll lr, nil => (node ln lh lk lv ll lr).addMaxBinding k v
  | node ln lh lk lv ll lr, node rn rh rk rv rl rr =>
    if lh > rh + 2 then balance lk lv ll (mergeImpl k v lr (node rn rh rk rv rl rr))
    else if rh > lh + 2 then balance rk rv (mergeImpl k v (node ln lh lk lv ll lr) rl) rr
    else mkNode k v (node ln lh lk lv ll lr) (node rn rh rk rv rl rr)

def concatOrJoin (k : K) (x : Option V) (l r : SortedTree K V) : SortedTree K V :=
  match x with
  | none => concat l r
  | some v => mergeImpl k v l r

def filter (f : K → V → Bool) : SortedTree K V → SortedTree K V
  | nil => nil
  | node _ _ key value left right =>
    if f key value then balance key value (left.filter f) (right.filter f)
    else concat (left.filter f) (right.filter f)

def mapAcc (f : R → K → V → R × W) (init : R) : SortedTree K V → R × SortedTree K W
  | nil => (init, nil)
  | node _ _ key value left right =>
    let (r, left) := left.mapAcc f init
    let (r, value) := f r key value
    let (r, right) := right.mapAcc f r
    (r, mkNode key value left right)

@[simp] theorem items_addMinBinding (k : K) (v : V) (t : SortedTree K V) :
    (t.addMinBinding k v).items = (k, v) :: t.items := by
  induction t with
  | nil => rfl
  | node n h key value l r ihl _ => simp [addMinBinding, items, ihl]

@[simp] theorem items_addMaxBinding (k : K) (v : V) (t : SortedTree K V) :
    (t.addMaxBinding k v).items = t.items ++ [(k, v)] := by
  induction t with
  | nil => rfl
  | node n h key value l r _ ihr => simp [addMaxBinding, items, ihr]

@[simp] theorem items_mergeImpl (k : K) (v : V) (l r : SortedTree K V) :
    (mergeImpl k v l r).items = l.items ++ (k, v) :: r.items := by
  induction l, r using mergeImpl.induct with
  | case1 r => simp [mergeImpl, items]
  | case2 => simp [mergeImpl, items]
  | case3 ln lh lk lv ll lr rn rh rk rv rl rr hl ih =>
    rw [mergeImpl, if_pos hl, items_balance, ih]
    simp [items]
  | case4 ln lh lk lv ll lr rn rh rk rv rl rr hl hr ih =>
    rw [mergeImpl, if_neg hl, if_pos hr, items_balance, ih]
    simp [items]
  | case5 ln lh lk lv ll lr rn rh rk rv rl rr hl hr =>
    rw [mergeImpl, if_neg hl, if_neg hr, items_mkNode]

variable {t : SortedTree K V}

theorem sized_addMinBinding (h : t.Sized) (k : K) (v : V) :
    (t.addMinBinding k v).Sized := by
  induction t with
  | nil => exact ⟨rfl, trivial, trivial⟩
  | node n h' key value l r ihl _ => exact sized_balance (ihl h.2.1) h.2.2

theorem sized_addMaxBinding (h : t.Sized) (k : K) (v : V) :
    (t.addMaxBinding k v).Sized := by
  induction t with
  | nil => exact ⟨rfl, trivial, trivial⟩
  | node n h' key value l r _ ihr => exact sized_balance h.2.1 (ihr h.2.2)

theorem sized_mergeImpl {k : K} {v : V} {l r : SortedTree K V} (hl : l.Sized) (hr : r.Sized) :
    (mergeImpl k v l r).Sized := by
  induction l, r using mergeImpl.induct with
  | case1 r =>
    rw [mergeImpl]
    exact sized_addMinBinding hr k v
  | case2 =>
    rw [mergeImpl]
    exact sized_addMaxBinding hl k v
  | case3 ln lh lk lv ll lr rn rh rk rv rl rr h ih =>
    rw [mergeImpl, if_pos h]
    exact sized_balance hl.2.1 (ih hl.2.2 hr)
  | case4 ln lh lk lv ll lr rn rh rk rv rl rr h h' ih =>
    rw [mergeImpl, if_neg h, if_pos h']
    exact sized_balance (ih hl hr.2.1) hr.2.2
  | case5 ln lh lk lv ll lr rn rh rk rv rl rr h h' =>
    rw [mergeImpl, if_neg h, if_neg h']
    exact sized_mkNode hl hr

theorem sized_concatOrJoin {k : K} {x : Option V} {l r : SortedTree K V} (hl : l.Sized)
    (hr : r.Sized) : (concatOrJoin k x l r).Sized := by
  cases x with
  | none => exact sized_concat hl hr
  | some v => exact sized_mergeImpl hl hr

theorem items_filter (f : K → V → Bool) (t : SortedTree K V) :
    (t.filter f).items = t.items.filter fun x => f x.1 x.2 := by
  induction t with
  | nil => rfl
  | node n h key value l r ihl ihr =>
    unfold filter
    split_ifs with hf
    · simp [items, ihl, ihr, hf]
    · simp [items, ihl, ihr, hf]

theorem sized_filter (f : K → V → Bool) (h : t.Sized) :
    (t.filter f).Sized := by
  induction t with
  | nil => trivial
  | node n h' key value l r ihl ihr =>
    unfold filter
    split_ifs
    · exact sized_balance (ihl h.2.1) (ihr h.2.2)
    · exact sized_concat (ihl h.2.1) (ihr h.2.2)

theorem keys_mapAcc (f : R → K → V → R × W) (init : R) (t : SortedTree K V) :
    (t.mapAcc f init).2.items.map Prod.fst = t.items.map Prod.fst := by
  induction t generalizing init with
  | nil => rfl
  | node n h key value l r ihl ihr => simp [mapAcc, items, ihl, ihr]

theorem sized_mapAcc (f : R → K → V → R × W) (init : R) (t : SortedTree K V) :
    (t.mapAcc f init).2.Sized := by
  induction t generalizing init with
  | nil => trivial
  | node n h key value l r ihl ihr => exact sized_mkNode (ihl _) (ihr _)

def tallRoot (h1 h2 : ℕ) : SortedTree K V → Option (K × V × SortedTree K V × SortedTree K V)
  | nil => none
  | node _ h key value left right =>
    if h ≥ h1 ∧ h ≥ h2 then some (key, value, left, right) else none

theorem tallRoot_eq_none {h1 h2 : ℕ} (h : t.tallRoot h1 h2 = none) :
    t = nil ∨ t.height < h1 ∨ t.height < h2 := by
  cases t with
  | nil => exact Or.inl rfl
  | node n m key value l r =>
    right
    rw [tallRoot] at h
    split_ifs at h with hm
    change m < h1 ∨ m < h2
    omega

theorem tallRoot_eq_some {h1 h2 : ℕ} {t l r : SortedTree K V} {k : K} {v : V}
    (h : t.tallRoot h1 h2 = some (k, v, l, r)) : ∃ n m, t = node n m k v l r := by
  cases t with
  | nil => cases h
  | node n m key value left right =>
    rw [tallRoot] at h
    split_ifs at h
    cases h
    exact ⟨n, m, rfl⟩

section Ordered
variable [LinearOrder K]

/-- `f` gets the old and the new value, and fails where it throws. -/
def setWith (k : K) (v : V) (f : V → V → Option V) : SortedTree K V → Option (SortedTree K V)
  | nil => some (singleton k v)
  | node n h key value left right =>
    match compare k key with
    | .lt => do balance key value (← left.setWith k v f) right
    | .eq => do return node n h key (← f value v) left right
    | .gt => do balance key value left (← right.setWith k v f)

/-- `none` for a key that is there already. -/
def add (t : SortedTree K V) (k : K) (v : V) : Option (SortedTree K V) :=
  t.setWith k v fun _ _ => none

def maybeGet (t : SortedTree K V) (k : K) : Option V := (t.maybeGetItem k).map Prod.snd

def containsKey (t : SortedTree K V) (k : K) : Bool := (t.maybeGetItem k).isSome

def split (k : K) : SortedTree K V → SortedTree K V × Option V × SortedTree K V
  | nil => (nil, none, nil)
  | node _ _ key value left right =>
    match compare k key with
    | .lt =>
      let (ll, v, rl) := left.split k
      (ll, v, mergeImpl key value rl right)
    | .eq => (left, some value, right)
    | .gt =>
      let (lr, v, rr) := right.split k
      (mergeImpl key value left lr, v, rr)

theorem split_of_lt {k key : K} (h : k < key) (n m : ℕ) (v : V) (l r : SortedTree K V) :
    (node n m key v l r).split k =
      ((l.split k).1, (l.split k).2.1, mergeImpl key v (l.split k).2.2 r) := by
  rw [split, compare_lt_iff_lt.mpr h]

theorem split_self (k : K) (n m : ℕ) (v : V) (l r : SortedTree K V) :
    (node n m k v l r).split k = (l, some v, r) := by
  rw [split, compare_eq_iff_eq.mpr rfl]

theorem split_of_gt {k key : K} (h : key < k) (n m : ℕ) (v : V) (l r : SortedTree K V) :
    (node n m key v l r).split k =
      (mergeImpl key v l (r.split k).1, (r.split k).2.1, (r.split k).2.2) := by
  rw [split, compare_gt_iff_gt.mpr h]

theorem length_split (k : K) (t : SortedTree K V) :
    (t.split k).1.items.length + (t.split k).2.2.items.length ≤ t.items.length := by
  induction t with
  | nil => exact le_rfl
  | node n h key value l r ihl ihr =>
    rcases lt_trichotomy k key with hlt | rfl | hgt
    · rw [split_of_lt hlt]
      simp only [items_mergeImpl, length_append, length_cons, items]
      omega
    · rw [split_self]
      simp only [length_append, length_cons, items]
      omega
    · rw [split_of_gt hgt]
      simp only [items_mergeImpl, length_append, length_cons, items]
      omega

def merge (t1 t2 : SortedTree K V) : SortedTree K V :=
  match t1, t2 with
  | nil, t2 => t2
  | node n h k v l r, nil => node n h k v l r
  | node n1 h1 k1 v1 left1 right1, node n2 h2 k2 v2 left2 right2 =>
    if h1 ≥ h2 then
      let s := (node n2 h2 k2 v2 left2 right2).split k1
      mergeImpl k1 (s.2.1.getD v1) (left1.merge s.1) (right1.merge s.2.2)
    else
      let s := (node n1 h1 k1 v1 left1 right1).split k2
      mergeImpl k2 v2 (s.1.merge left2) (s.2.2.merge right2)
termination_by t1.items.length + t2.items.length
decreasing_by
  · have := length_split k1 (node n2 h2 k2 v2 left2 right2)
    simp only [items, length_append, length_cons] at this ⊢
    omega
  · have := length_split k1 (node n2 h2 k2 v2 left2 right2)
    simp only [items, length_append, length_cons] at this ⊢
    omega
  · have := length_split k2 (node n1 h1 k1 v1 left1 right1)
    simp only [items, length_append, length_cons] at this ⊢
    omega
  · have := length_split k2 (node n1 h1 k1 v1 left1 right1)
    simp only [items, length_append, length_cons] at this ⊢
    omega

def createFromItems (items : List (K × V)) : SortedTree K V :=
  items.foldl (fun m p => m.set p.1 p.2) nil

def mapItems {K2 : Type} [LinearOrder K2] (s : K → V → K2 × W) (t : SortedTree K V) :
    SortedTree K2 W :=
  createFromItems (t.items.map fun i => s i.1 i.2)

def filterNone (t : SortedTree K (Option U)) : SortedTree K U :=
  createFromItems (t.items.filterMap fun i => i.2.map fun v => (i.1, v))

def mergeAll (maps : List (SortedTree K V)) : SortedTree K V := maps.foldl merge nil

def addSome (t : SortedTree K R) (k : K) : Option R → Option (SortedTree K R)
  | none => some t
  | some value => t.add k value

/-- `none` where `add` finds the key already there. -/
def mergeWith (f : K → Option V → Option U → Option R) (t : SortedTree K V)
    (other : SortedTree K U) : Option (SortedTree K R) := do
  let addL ← t.items.foldlM (fun result x =>
    result.addSome x.1 (f x.1 (some x.2) (other.maybeGet x.1))) nil
  other.items.foldlM (fun result x =>
    if t.containsKey x.1 then some result
    else result.addSome x.1 (f x.1 none (some x.2))) addL

/-- A call that `mergeWith2` makes: the key, and what the maps have there. -/
abbrev MergeCall (K V U W : Type) := K × Option V × Option U × Option W

abbrev Maps (K V U W : Type) := SortedTree K V × SortedTree K U × SortedTree K W

/-- The root that a merge starts from, and what it splits the maps into. -/
def mergeRoot (t0 : SortedTree K V) (t1 : SortedTree K U) (t2 : SortedTree K W) :
    Option (MergeCall K V U W × Maps K V U W × Maps K V U W) :=
  match t0.tallRoot t1.height t2.height with
  | some (key, v0, l0, r0) =>
    let (l1, v1, r1) := t1.split key
    let (l2, v2, r2) := t2.split key
    some ((key, some v0, v1, v2), (l0, l1, l2), (r0, r1, r2))
  | none =>
    match t1.tallRoot t0.height t2.height with
    | some (key, v1, l1, r1) =>
      let (l0, v0, r0) := t0.split key
      let (l2, v2, r2) := t2.split key
      some ((key, v0, some v1, v2), (l0, l1, l2), (r0, r1, r2))
    | none =>
      match t2 with
      | node _ _ key v2 l2 r2 =>
        let (l0, v0, r0) := t0.split key
        let (l1, v1, r1) := t1.split key
        some ((key, v0, v1, some v2), (l0, l1, l2), (r0, r1, r2))
      | nil => none

variable {t0 : SortedTree K V} {t1 : SortedTree K U} {t2 : SortedTree K W}

theorem mergeRoot_cases
    {call : MergeCall K V U W} {left right : Maps K V U W}
    (h : mergeRoot t0 t1 t2 = some (call, left, right)) :
    ∃ (s0 : SortedTree K V × Option V × SortedTree K V)
      (s1 : SortedTree K U × Option U × SortedTree K U)
      (s2 : SortedTree K W × Option W × SortedTree K W),
      call.2 = (s0.2.1, s1.2.1, s2.2.1) ∧ left = (s0.1, s1.1, s2.1) ∧
        right = (s0.2.2, s1.2.2, s2.2.2) ∧
        ((∃ n m v, t0 = node n m call.1 v s0.1 s0.2.2 ∧ s0.2.1 = some v ∧
          s1 = t1.split call.1 ∧ s2 = t2.split call.1) ∨
        (∃ n m v, t1 = node n m call.1 v s1.1 s1.2.2 ∧ s1.2.1 = some v ∧
          s0 = t0.split call.1 ∧ s2 = t2.split call.1) ∨
        ∃ n m v, t2 = node n m call.1 v s2.1 s2.2.2 ∧ s2.2.1 = some v ∧
          s0 = t0.split call.1 ∧ s1 = t1.split call.1) := by
  unfold mergeRoot at h
  cases h0 : t0.tallRoot t1.height t2.height with
  | some x =>
    obtain ⟨key, v0, l0, r0⟩ := x
    obtain ⟨n, m, ht⟩ := tallRoot_eq_some h0
    rw [h0] at h
    cases h
    exact ⟨(l0, some v0, r0), t1.split key, t2.split key, rfl, rfl, rfl,
      Or.inl ⟨n, m, v0, ht, rfl, rfl, rfl⟩⟩
  | none =>
    rw [h0] at h
    dsimp only at h
    cases h1 : t1.tallRoot t0.height t2.height with
    | some x =>
      obtain ⟨key, v1, l1, r1⟩ := x
      obtain ⟨n, m, ht⟩ := tallRoot_eq_some h1
      rw [h1] at h
      cases h
      exact ⟨t0.split key, (l1, some v1, r1), t2.split key, rfl, rfl, rfl,
        Or.inr (Or.inl ⟨n, m, v1, ht, rfl, rfl, rfl⟩)⟩
    | none =>
      rw [h1] at h
      cases t2 with
      | nil => cases h
      | node n m key v2 l2 r2 =>
        cases h
        exact ⟨t0.split key, t1.split key, (l2, some v2, r2), rfl, rfl, rfl,
          Or.inr (Or.inr ⟨n, m, v2, rfl, rfl, rfl, rfl⟩)⟩

theorem mergeRoot_eq_none
    (h : mergeRoot t0 t1 t2 = none) : t0 = nil ∧ t1 = nil ∧ t2 = nil := by
  unfold mergeRoot at h
  cases h0 : t0.tallRoot t1.height t2.height with
  | some x =>
    rw [h0] at h
    cases h
  | none =>
    rw [h0] at h
    dsimp only at h
    cases h1 : t1.tallRoot t0.height t2.height with
    | some x =>
      rw [h1] at h
      cases h
    | none =>
      rw [h1] at h
      cases t2 with
      | node n m key v2 l2 r2 => cases h
      | nil =>
        change t0.tallRoot t1.height 0 = none at h0
        change t1.tallRoot t0.height 0 = none at h1
        rcases tallRoot_eq_none h0 with e0 | e0 | e0
        · rcases tallRoot_eq_none h1 with e1 | e1 | e1
          · exact ⟨e0, e1, rfl⟩
          · rw [e0] at e1
            exact absurd e1 (Nat.not_lt_zero _)
          · exact absurd e1 (Nat.not_lt_zero _)
        · rcases tallRoot_eq_none h1 with e1 | e1 | e1
          · rw [e1] at e0
            exact absurd e0 (Nat.not_lt_zero _)
          · exact absurd e1 e0.not_gt
          · exact absurd e1 (Nat.not_lt_zero _)
        · exact absurd e0 (Nat.not_lt_zero _)

def Maps.length (m : Maps K V U W) : ℕ :=
  m.1.items.length + m.2.1.items.length + m.2.2.items.length

theorem mergeRoot_length
    {call : MergeCall K V U W} {left right : Maps K V U W}
    (h : mergeRoot t0 t1 t2 = some (call, left, right)) :
    left.length + right.length < Maps.length (t0, t1, t2) := by
  have h0 := length_split call.1 t0
  have h1 := length_split call.1 t1
  have h2 := length_split call.1 t2
  obtain ⟨s0, s1, s2, _, rfl, rfl, hroot⟩ := mergeRoot_cases h
  simp only [Maps.length]
  rcases hroot with ⟨n, m, v, ht, _, rfl, rfl⟩ | ⟨n, m, v, ht, _, rfl, rfl⟩ |
    ⟨n, m, v, ht, _, rfl, rfl⟩
  all_goals
    rw [ht]
    simp only [items, length_append, length_cons]
    omega

/-- The calls that were made for a root and for its two sides, and the tree they are joined to. -/
def joinAt (f : K → Option V → Option U → Option W → Option R) (call : MergeCall K V U W)
    (left right : Option (List (MergeCall K V U W) × SortedTree K R)) :
    Option (List (MergeCall K V U W) × SortedTree K R) := do
  let (calls1, l) ← left
  let (calls2, r) ← right
  return (call :: (calls1 ++ calls2),
    concatOrJoin call.1 (f call.1 call.2.1 call.2.2.1 call.2.2.2) l r)

/-- `none` is the `invariant_violation`. -/
def mergeWith2 (f : K → Option V → Option U → Option W → Option R) (t0 : SortedTree K V)
    (t1 : SortedTree K U) (t2 : SortedTree K W) :
    Option (List (MergeCall K V U W) × SortedTree K R) :=
  match t0, t1, t2 with
  | nil, nil, nil => some ([], nil)
  | t0, t1, t2 =>
    match _h : mergeRoot t0 t1 t2 with
    | none => none
    | some (call, left, right) =>
      joinAt f call (mergeWith2 f left.1 left.2.1 left.2.2)
        (mergeWith2 f right.1 right.2.1 right.2.2)
termination_by Maps.length (t0, t1, t2)
decreasing_by
  · have := mergeRoot_length _h
    change left.length < _
    omega
  · have := mergeRoot_length _h
    change right.length < _
    omega

end Ordered
end SortedTree
end SkipPlatform
