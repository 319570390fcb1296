import SkipPlatform.SortedTreeFinite

set_option autoImplicit false

/-! Heights of ordered trees. One call of `balance` makes up for a difference of three, as adding
and removing a key does, and `mergeImpl` for any difference. -/
namespace SkipPlatform
namespace SortedTree
variable {K V U W R : Type}

def Exact : SortedTree K V → Prop
  | nil => True
  | node _ h _ _ l r => h = max l.height r.height + 1 ∧ l.Exact ∧ r.Exact

def Level : SortedTree K V → Prop
  | nil => True
  | node _ _ _ _ l r => (l.height ≤ r.height + 2 ∧ r.height ≤ l.height + 2) ∧ l.Level ∧ r.Level

def mirror : SortedTree K V → SortedTree K V
  | nil => nil
  | node n h k v l r => node n h k v r.mirror l.mirror

@[simp] theorem height_mirror (t : SortedTree K V) : t.mirror.height = t.height := by
  cases t <;> rfl

@[simp] theorem size_mirror (t : SortedTree K V) : t.mirror.size = t.size := by
  cases t <;> rfl

theorem exact_mirror (t : SortedTree K V) : t.mirror.Exact ↔ t.Exact := by
  induction t with
  | nil => rfl
  | node n h k v l r ihl ihr =>
    simp only [mirror, Exact, height_mirror, ihl, ihr, max_comm r.height, and_comm (a := r.Exact)]

theorem level_mirror (t : SortedTree K V) : t.mirror.Level ↔ t.Level := by
  induction t with
  | nil => rfl
  | node n h k v l r ihl ihr =>
    simp only [mirror, Level, height_mirror, ihl, ihr, and_comm]

theorem mirror_mkNode (k : K) (v : V) (l r : SortedTree K V) :
    (mkNode k v l r).mirror = mkNode k v r.mirror l.mirror := by
  simp only [mkNode, mirror, size_mirror, height_mirror, max_comm r.height, Nat.add_comm r.size]

theorem mirror_balance (k : K) (v : V) (l r : SortedTree K V) :
    (balance k v l r).mirror = balance k v r.mirror l.mirror := by
  unfold balance
  simp only [height_mirror]
  split_ifs with hl hr hr
  · omega
  · cases l with
    | nil => exact mirror_mkNode k v nil r
    | node n h lk lv ll lr =>
      dsimp only [mirror]
      simp only [height_mirror]
      split_ifs
      · simp only [mirror_mkNode]
      · cases lr with
        | nil => simp only [mirror_mkNode, mirror]
        | node => simp only [mirror_mkNode, mirror]
  · cases r with
    | nil => exact mirror_mkNode k v l nil
    | node n h rk rv rl rr =>
      dsimp only [mirror]
      simp only [height_mirror]
      split_ifs
      · simp only [mirror_mkNode]
      · cases rl with
        | nil => simp only [mirror_mkNode, mirror]
        | node => simp only [mirror_mkNode, mirror]
  · exact mirror_mkNode k v l r

def rightHeight : SortedTree K V → ℕ
  | nil => 0
  | node _ _ _ _ _ r => r.height

/-- The height of what a rotation takes from the higher tree and puts beside the lower one, when
the lower one is to the right. -/
def movedRight : SortedTree K V → ℕ
  | nil => 0
  | node _ _ _ _ ll lr => if ll.height ≥ lr.height then lr.height else lr.rightHeight

def Fits (l r : SortedTree K V) : Prop :=
  (r.height + 2 < l.height → l.movedRight ≤ r.height + 2) ∧
    (l.height + 2 < r.height → r.mirror.movedRight ≤ l.height + 2)

variable {l r : SortedTree K V} {k : K} {v : V}

theorem exact_mkNode (hl : l.Exact) (hr : r.Exact) :
    (mkNode k v l r).Exact := ⟨rfl, hl, hr⟩

theorem exact_balance (hl : l.Exact) (hr : r.Exact) :
    (balance k v l r).Exact := by
  unfold balance
  split_ifs
  · cases l with
    | nil => exact exact_mkNode hl hr
    | node n h lk lv ll lr =>
      dsimp only
      split_ifs
      · exact exact_mkNode hl.2.1 (exact_mkNode hl.2.2 hr)
      · cases lr with
        | nil => exact exact_mkNode hl hr
        | node =>
          exact exact_mkNode (exact_mkNode hl.2.1 hl.2.2.2.1) (exact_mkNode hl.2.2.2.2 hr)
  · cases r with
    | nil => exact exact_mkNode hl hr
    | node n h rk rv rl rr =>
      dsimp only
      split_ifs
      · exact exact_mkNode (exact_mkNode hl hr.2.1) hr.2.2
      · cases rl with
        | nil => exact exact_mkNode hl hr
        | node =>
          exact exact_mkNode (exact_mkNode hl hr.2.1.2.1) (exact_mkNode hr.2.1.2.2 hr.2.2)
  · exact exact_mkNode hl hr

theorem balance_left (hl : l.Exact) (hll : l.Level)
    (hrl : r.Level) (h : r.height + 2 < l.height) :
    ((balance k v l r).Level ↔ l.movedRight ≤ r.height + 2) ∧
      l.height ≤ (balance k v l r).height ∧ (balance k v l r).height ≤ l.height + 1 := by
  unfold balance
  rw [if_pos h]
  cases l with
  | nil => exact absurd h (Nat.not_lt_zero _)
  | node n m lk lv ll lr =>
    obtain ⟨hm, hle, hre⟩ := hl
    obtain ⟨hnear, hlll, hllr⟩ := hll
    change r.height + 2 < m at h
    change (_ ↔ (if ll.height ≥ lr.height then lr.height else lr.rightHeight) ≤ r.height + 2) ∧
      m ≤ _ ∧ _ ≤ m + 1
    dsimp only
    by_cases hs : ll.height ≥ lr.height
    · rw [if_pos hs, if_pos hs]
      change (((ll.height ≤ max lr.height r.height + 1 + 2 ∧
        max lr.height r.height + 1 ≤ ll.height + 2) ∧ ll.Level ∧
        (lr.height ≤ r.height + 2 ∧ r.height ≤ lr.height + 2) ∧ lr.Level ∧ r.Level) ↔ _) ∧
        m ≤ max ll.height (max lr.height r.height + 1) + 1 ∧
        max ll.height (max lr.height r.height + 1) + 1 ≤ m + 1
      refine ⟨⟨fun hall => hall.2.2.1.1, fun hmoved => ?_⟩, by omega, by omega⟩
      exact ⟨by omega, hlll, by omega, hllr, hrl⟩
    · rw [if_neg hs, if_neg hs]
      cases lr with
      | nil => exact absurd (Nat.zero_le _) hs
      | node n' m' lrk lrv lrl lrr =>
        obtain ⟨hm', hlre, hrre⟩ := hre
        obtain ⟨hnear', hlrll, hlrrl⟩ := hllr
        change m = max ll.height m' + 1 at hm
        change ll.height ≤ m' + 2 ∧ m' ≤ ll.height + 2 at hnear
        change ¬ ll.height ≥ m' at hs
        change (((max ll.height lrl.height + 1 ≤ max lrr.height r.height + 1 + 2 ∧
          max lrr.height r.height + 1 ≤ max ll.height lrl.height + 1 + 2) ∧
          ((ll.height ≤ lrl.height + 2 ∧ lrl.height ≤ ll.height + 2) ∧ ll.Level ∧ lrl.Level) ∧
          (lrr.height ≤ r.height + 2 ∧ r.height ≤ lrr.height + 2) ∧ lrr.Level ∧ r.Level) ↔
            lrr.height ≤ r.height + 2) ∧
          m ≤ max (max ll.height lrl.height + 1) (max lrr.height r.height + 1) + 1 ∧
          max (max ll.height lrl.height + 1) (max lrr.height r.height + 1) + 1 ≤ m + 1
        refine ⟨⟨fun hall => hall.2.2.1.1, fun hmoved => ?_⟩, by omega, by omega⟩
        exact ⟨by omega, ⟨by omega, hlll, hlrll⟩, by omega, hlrrl, hrl⟩

theorem balance_right (hr : r.Exact) (hll : l.Level)
    (hrl : r.Level) (h : l.height + 2 < r.height) :
    ((balance k v l r).Level ↔ r.mirror.movedRight ≤ l.height + 2) ∧
      r.height ≤ (balance k v l r).height ∧ (balance k v l r).height ≤ r.height + 1 := by
  have hm := balance_left (k := k) (v := v) ((exact_mirror r).mpr hr) ((level_mirror r).mpr hrl)
    ((level_mirror l).mpr hll) (by simpa using h)
  rw [← mirror_balance, level_mirror, height_mirror, height_mirror, height_mirror] at hm
  exact hm

/-- What `balance` does to two trees that are balanced. -/
structure Balances (l r t : SortedTree K V) : Prop where
  level : t.Level ↔ Fits l r
  height_ge : max l.height r.height ≤ t.height
  height_le : t.height ≤ max l.height r.height + 1
  near : l.height ≤ r.height + 2 → r.height ≤ l.height + 2 →
    t.height = max l.height r.height + 1

theorem balance_spec (k : K) (v : V) (hl : l.Exact) (hr : r.Exact)
    (hll : l.Level) (hrl : r.Level) : Balances l r (balance k v l r) := by
  by_cases hleft : r.height + 2 < l.height
  · obtain ⟨hlevel, hge, hle⟩ := balance_left (k := k) (v := v) hl hll hrl hleft
    have hfits : Fits l r ↔ l.movedRight ≤ r.height + 2 :=
      ⟨fun h => h.1 hleft, fun h => ⟨fun _ => h, fun hright => by omega⟩⟩
    exact ⟨hlevel.trans hfits.symm, by omega, by omega, fun h _ => by omega⟩
  · by_cases hright : l.height + 2 < r.height
    · obtain ⟨hlevel, hge, hle⟩ := balance_right (k := k) (v := v) hr hll hrl hright
      have hfits : Fits l r ↔ r.mirror.movedRight ≤ l.height + 2 :=
        ⟨fun h => h.2 hright, fun h => ⟨fun hleft' => absurd hleft' hleft, fun _ => h⟩⟩
      exact ⟨hlevel.trans hfits.symm, by omega, by omega, fun _ h => by omega⟩
    · have hfits : Fits l r := ⟨fun h => absurd h hleft, fun h => absurd h hright⟩
      have hnode : balance k v l r = mkNode k v l r := by
        unfold balance
        rw [if_neg hleft, if_neg hright]
      have hheight : (mkNode k v l r).height = max l.height r.height + 1 := rfl
      rw [hnode]
      refine ⟨iff_of_true ⟨by omega, hll, hrl⟩ hfits, by omega, by omega, fun _ _ => hheight⟩

variable {t : SortedTree K V}

theorem movedRight_le (he : t.Exact) : t.movedRight ≤ t.height - 1 := by
  cases t with
  | nil => exact le_rfl
  | node n m k v l r =>
    obtain ⟨hm, _, hr⟩ := he
    change (if l.height ≥ r.height then r.height else r.rightHeight) ≤ m - 1
    split_ifs
    · omega
    · cases r with
      | nil => exact Nat.zero_le _
      | node n' m' k' v' l' r' =>
        obtain ⟨hm', _, _⟩ := hr
        change m = max l.height m' + 1 at hm
        change r'.height ≤ m - 1
        omega

theorem fits_of_near (hl : l.Exact) (hr : r.Exact)
    (h1 : l.height ≤ r.height + 3) (h2 : r.height ≤ l.height + 3) : Fits l r := by
  have hleft := movedRight_le hl
  have hright := movedRight_le ((exact_mirror r).mpr hr)
  rw [height_mirror] at hright
  exact ⟨fun _ => by omega, fun _ => by omega⟩

structure Balanced (t : SortedTree K V) : Prop where
  exact : t.Exact
  level : t.Level

theorem Balanced.left {n h : ℕ}
    (ht : (node n h k v l r).Balanced) : l.Balanced := ⟨ht.exact.2.1, ht.level.2.1⟩

theorem Balanced.right {n h : ℕ}
    (ht : (node n h k v l r).Balanced) : r.Balanced := ⟨ht.exact.2.2, ht.level.2.2⟩

theorem balanced_nil : (nil : SortedTree K V).Balanced := ⟨trivial, trivial⟩

theorem balanced_singleton (k : K) (v : V) : (singleton k v).Balanced :=
  ⟨⟨rfl, trivial, trivial⟩, ⟨Nat.zero_le _, Nat.zero_le _⟩, trivial, trivial⟩

theorem Balanced.balance {l r : SortedTree K V} (hl : l.Balanced) (hr : r.Balanced) (k : K)
    (v : V) (h1 : l.height ≤ r.height + 3) (h2 : r.height ≤ l.height + 3) :
    (balance k v l r).Balanced :=
  ⟨exact_balance hl.exact hr.exact,
    (balance_spec k v hl.exact hr.exact hl.level hr.level).level.mpr
      (fits_of_near hl.exact hr.exact h1 h2)⟩

/-- A tree in the place of one of height `h`, which may be a level higher. -/
structure Grown (h : ℕ) (t : SortedTree K V) : Prop extends Balanced t where
  ge : h ≤ t.height
  le : t.height ≤ h + 1

/-- A tree in the place of one of height `h`, which may be a level lower. -/
structure Shrunk (h : ℕ) (t : SortedTree K V) : Prop extends Balanced t where
  le : t.height ≤ h
  ge : h ≤ t.height + 1

theorem grown_singleton (k : K) (v : V) : Grown 0 (singleton k v) :=
  ⟨balanced_singleton k v, Nat.zero_le _, le_rfl⟩

section Step
variable {n h : ℕ} {k : K} {v : V} {l r t : SortedTree K V}

theorem Grown.balance_left (ht : (node n h k v l r).Balanced) (hg : Grown l.height t) :
    Grown h (balance k v t r) := by
  have hspec := balance_spec k v hg.exact ht.right.exact hg.level ht.right.level
  have hm := ht.exact.1
  have hnear := ht.level.1
  have hnear' := hspec.near
  have := hspec.height_ge
  have := hspec.height_le
  have := hg.ge
  have := hg.le
  exact ⟨hg.toBalanced.balance ht.right k v (by omega) (by omega), by omega, by omega⟩

theorem Grown.balance_right (ht : (node n h k v l r).Balanced) (hg : Grown r.height t) :
    Grown h (balance k v l t) := by
  have hspec := balance_spec k v ht.left.exact hg.exact ht.left.level hg.level
  have hm := ht.exact.1
  have hnear := ht.level.1
  have hnear' := hspec.near
  have := hspec.height_ge
  have := hspec.height_le
  have := hg.ge
  have := hg.le
  exact ⟨ht.left.balance hg.toBalanced k v (by omega) (by omega), by omega, by omega⟩

theorem Shrunk.balance_left (ht : (node n h k v l r).Balanced) (hs : Shrunk l.height t) :
    Shrunk h (balance k v t r) := by
  have hspec := balance_spec k v hs.exact ht.right.exact hs.level ht.right.level
  have hm := ht.exact.1
  have hnear := ht.level.1
  have hnear' := hspec.near
  have := hspec.height_ge
  have := hspec.height_le
  have := hs.ge
  have := hs.le
  exact ⟨hs.toBalanced.balance ht.right k v (by omega) (by omega), by omega, by omega⟩

theorem Shrunk.balance_right (ht : (node n h k v l r).Balanced) (hs : Shrunk r.height t) :
    Shrunk h (balance k v l t) := by
  have hspec := balance_spec k v ht.left.exact hs.exact ht.left.level hs.level
  have hm := ht.exact.1
  have hnear := ht.level.1
  have hnear' := hspec.near
  have := hspec.height_ge
  have := hspec.height_le
  have := hs.ge
  have := hs.le
  exact ⟨ht.left.balance hs.toBalanced k v (by omega) (by omega), by omega, by omega⟩

end Step

theorem grown_addMinBinding (ht : t.Balanced) (k : K) (v : V) :
    Grown t.height (t.addMinBinding k v) := by
  induction t with
  | nil => exact grown_singleton k v
  | node n h key value l r ihl _ => exact (ihl ht.left).balance_left ht

theorem grown_addMaxBinding (ht : t.Balanced) (k : K) (v : V) :
    Grown t.height (t.addMaxBinding k v) := by
  induction t with
  | nil => exact grown_singleton k v
  | node n h key value l r _ ihr => exact (ihr ht.right).balance_right ht

theorem shrunk_removeMin {t rest : SortedTree K V} (ht : t.Balanced)
    (hm : t.removeMin = some (k, v, rest)) : Shrunk t.height rest := by
  induction t generalizing k v rest with
  | nil => cases hm
  | node n h key value l r ihl _ =>
    rw [removeMin] at hm
    cases hl : l.removeMin with
    | none =>
      rw [hl] at hm
      cases hm
      have hnil : l = nil := removeMin_eq_none.mp hl
      have hh := ht.exact.1
      rw [hnil] at hh
      change h = max 0 r.height + 1 at hh
      exact ⟨ht.right, by change r.height ≤ h; omega, by change h ≤ r.height + 1; omega⟩
    | some y =>
      rw [hl] at hm
      cases hm
      exact (ihl ht.left hl).balance_left ht

/-- When does `concat` need no more than one rotation. -/
def ConcatFits (l r : SortedTree K V) : Prop :=
  l = nil ∨ ∀ k v rest, r.removeMin = some (k, v, rest) → Fits l rest

theorem balanced_concat_iff (hl : l.Balanced) (hr : r.Balanced) :
    (concat l r).Balanced ↔ ConcatFits l r := by
  unfold ConcatFits
  cases l with
  | nil => exact iff_of_true hr (Or.inl rfl)
  | node n h key value ll lr =>
    unfold concat
    cases hm : r.removeMin with
    | none => exact iff_of_true hl (Or.inr nofun)
    | some y =>
      obtain ⟨k, v, rest⟩ := y
      have hs := shrunk_removeMin hr hm
      have hspec := balance_spec k v hl.exact hs.exact hl.level hs.level
      constructor
      · intro hb
        right
        intro k' v' rest' he
        cases he
        exact hspec.level.mp hb.level
      · rintro (hnil | hfits)
        · cases hnil
        · exact ⟨exact_balance hl.exact hs.exact, hspec.level.mpr (hfits k v rest rfl)⟩

theorem shrunk_concat {n h : ℕ}
    (ht : (node n h k v l r).Balanced) : Shrunk h (concat l r) := by
  have hh := ht.exact.1
  have hnear := ht.level.1
  cases l with
  | nil =>
    change h = max 0 r.height + 1 at hh
    exact ⟨ht.right, by change r.height ≤ h; omega, by change h ≤ r.height + 1; omega⟩
  | node n' h' key value ll lr =>
    unfold concat
    cases hm : r.removeMin with
    | none =>
      rw [removeMin_eq_none.mp hm] at hh
      change h = max h' 0 + 1 at hh
      exact ⟨ht.left, by change h' ≤ h; omega, by change h ≤ h' + 1; omega⟩
    | some y => exact (shrunk_removeMin ht.right hm).balance_right (n := n) (v := y.2.1) ⟨ht.exact, ht.level⟩

theorem grown_mergeImpl (hl : l.Balanced) (hr : r.Balanced) (k : K) (v : V) :
    Grown (max l.height r.height) (mergeImpl k v l r) := by
  induction l, r using mergeImpl.induct with
  | case1 r =>
    rw [mergeImpl]
    have hg := grown_addMinBinding hr k v
    change Grown (max 0 r.height) _
    rw [Nat.zero_max]
    exact hg
  | case2 ln lh lk lv ll lr =>
    rw [mergeImpl]
    have hg := grown_addMaxBinding hl k v
    change Grown (max _ 0) _
    rw [Nat.max_zero]
    exact hg
  | case3 ln lh lk lv ll lr rn rh rk rv rl rr h ih =>
    have hg := ih hl.right hr
    have hspec := balance_spec lk lv hl.left.exact hg.exact hl.left.level hg.level
    have hh := hl.exact.1
    have hnear := hl.level.1
    have hnear' := hspec.near
    have := hspec.height_ge
    have := hspec.height_le
    have hge := hg.ge
    have hle := hg.le
    change max lr.height rh ≤ _ at hge
    change _ ≤ max lr.height rh + 1 at hle
    rw [mergeImpl, if_pos h]
    change Grown (max lh rh) _
    exact ⟨hl.left.balance hg.toBalanced lk lv (by omega) (by omega), by omega, by omega⟩
  | case4 ln lh lk lv ll lr rn rh rk rv rl rr h h' ih =>
    have hg := ih hl hr.left
    have hspec := balance_spec rk rv hg.exact hr.right.exact hg.level hr.right.level
    have hh := hr.exact.1
    have hnear := hr.level.1
    have hnear' := hspec.near
    have := hspec.height_ge
    have := hspec.height_le
    have hge := hg.ge
    have hle := hg.le
    change max lh rl.height ≤ _ at hge
    change _ ≤ max lh rl.height + 1 at hle
    rw [mergeImpl, if_neg h, if_pos h']
    change Grown (max lh rh) _
    exact ⟨hg.toBalanced.balance hr.right rk rv (by omega) (by omega), by omega, by omega⟩
  | case5 ln lh lk lv ll lr rn rh rk rv rl rr h h' =>
    rw [mergeImpl, if_neg h, if_neg h']
    refine ⟨⟨exact_mkNode hl.exact hr.exact, ⟨?_, ?_⟩, hl.level, hr.level⟩, ?_, ?_⟩
    · change lh ≤ rh + 2
      omega
    · change rh ≤ lh + 2
      omega
    · change max lh rh ≤ max lh rh + 1
      omega
    · exact le_rfl

theorem balanced_mergeImpl (hl : l.Balanced) (hr : r.Balanced) (k : K)
    (v : V) : (mergeImpl k v l r).Balanced := (grown_mergeImpl hl hr k v).toBalanced

theorem mapValues_height (f : K → V → W) (t : SortedTree K V) :
    (t.mapValues f).height = t.height := by
  cases t <;> rfl

theorem balanced_mapValues (f : K → V → W) (ht : t.Balanced) :
    (t.mapValues f).Balanced := by
  induction t with
  | nil => exact balanced_nil
  | node n h k v l r ihl ihr =>
    have hl := ihl ht.left
    have hr := ihr ht.right
    have hh := ht.exact.1
    have hnear := ht.level.1
    rw [← mapValues_height f l, ← mapValues_height f r] at hh hnear
    exact ⟨⟨hh, hl.exact, hr.exact⟩, hnear, hl.level, hr.level⟩

theorem balanced_mapAcc (f : R → K → V → R × W) (init : R)
    (ht : t.Balanced) :
    (t.mapAcc f init).2.Balanced ∧ (t.mapAcc f init).2.height = t.height := by
  induction t generalizing init with
  | nil => exact ⟨balanced_nil, rfl⟩
  | node n h k v l r ihl ihr =>
    obtain ⟨hl, hlh⟩ := ihl init ht.left
    obtain ⟨hr, hrh⟩ := ihr (f (l.mapAcc f init).1 k v).1 ht.right
    have hh := ht.exact.1
    have hnear := ht.level.1
    rw [← hlh, ← hrh] at hh hnear
    exact ⟨⟨exact_mkNode hl.exact hr.exact, hnear, hl.level, hr.level⟩, hh.symm⟩

theorem balanced_foldlM {A : Type} (step : SortedTree K R → A → Option (SortedTree K R))
    (hstep : ∀ t x t', t.Balanced → step t x = some t' → t'.Balanced) (xs : List A)
    {t t' : SortedTree K R} (ht : t.Balanced) (h : xs.foldlM step t = some t') : t'.Balanced := by
  induction xs generalizing t with
  | nil =>
    cases h
    exact ht
  | cons x xs ih =>
    rw [List.foldlM_cons] at h
    obtain ⟨s, hs, hrest⟩ := Option.bind_eq_some_iff.mp h
    exact ih (hstep t x s ht hs) hrest

section Ordered
variable [LinearOrder K]

variable {t : SortedTree K V}

theorem grown_set (ht : t.Balanced) (k : K) (v : V) :
    Grown t.height (t.set k v) := by
  induction t with
  | nil => exact grown_singleton k v
  | node n h key value l r ihl ihr =>
    rw [set]
    cases compare k key with
    | lt => exact (ihl ht.left).balance_left ht
    | eq => exact ⟨⟨ht.exact, ht.level⟩, le_rfl, Nat.le_succ _⟩
    | gt => exact (ihr ht.right).balance_right ht

theorem shrunk_remove (ht : t.Balanced) (k : K) :
    Shrunk t.height (t.remove k) := by
  induction t with
  | nil => exact ⟨balanced_nil, le_rfl, Nat.le_succ _⟩
  | node n h key value l r ihl ihr =>
    rw [remove]
    cases compare k key with
    | lt => exact (ihl ht.left).balance_left ht
    | eq => exact shrunk_concat ht
    | gt => exact (ihr ht.right).balance_right ht

theorem balanced_split (ht : t.Balanced) (key : K) :
    (t.split key).1.Balanced ∧ (t.split key).2.2.Balanced := by
  induction t with
  | nil => exact ⟨balanced_nil, balanced_nil⟩
  | node n h k v l r ihl ihr =>
    rcases lt_trichotomy key k with hlt | rfl | hgt
    · rw [split_of_lt hlt]
      exact ⟨(ihl ht.left).1, balanced_mergeImpl (ihl ht.left).2 ht.right k v⟩
    · rw [split_self]
      exact ⟨ht.left, ht.right⟩
    · rw [split_of_gt hgt]
      exact ⟨balanced_mergeImpl ht.left (ihr ht.right).1 k v, (ihr ht.right).2⟩

theorem balanced_merge {t1 t2 : SortedTree K V} (h1 : t1.Balanced) (h2 : t2.Balanced) :
    (t1.merge t2).Balanced := by
  induction t1, t2 using merge.induct with
  | case1 t2 =>
    rw [merge]
    exact h2
  | case2 n h k v l r =>
    rw [merge]
    exact h1
  | case3 n1 m1 k1 v1 l1 r1 n2 m2 k2 v2 l2 r2 hle s ihl ihr =>
    have hs := balanced_split h2 k1
    rw [merge, if_pos hle]
    exact balanced_mergeImpl (ihl h1.left hs.1) (ihr h1.right hs.2) _ _
  | case4 n1 m1 k1 v1 l1 r1 n2 m2 k2 v2 l2 r2 hle s ihl ihr =>
    have hs := balanced_split h1 k2
    rw [merge, if_neg hle]
    exact balanced_mergeImpl (ihl hs.1 h2.left) (ihr hs.2 h2.right) _ _

theorem balanced_setWith {t t' : SortedTree K V} {k : K} {v : V} {f : V → V → Option V}
    (ht : t.Balanced) (h : t.setWith k v f = some t') : t'.Balanced := by
  rw [setWith_eq] at h
  obtain ⟨new, _, rfl⟩ := Option.map_eq_some_iff.mp h
  exact (grown_set ht k new).toBalanced

theorem balanced_addSome {t t' : SortedTree K R} {k : K} {x : Option R} (ht : t.Balanced)
    (h : t.addSome k x = some t') : t'.Balanced := by
  cases x with
  | none =>
    cases h
    exact ht
  | some v => exact balanced_setWith ht h

theorem balanced_mergeWith {f : K → Option V → Option U → Option R}
    {other : SortedTree K U} {r : SortedTree K R} (h : mergeWith f t other = some r) :
    r.Balanced := by
  obtain ⟨addL, hl, hr⟩ := Option.bind_eq_some_iff.mp h
  have haddL : addL.Balanced :=
    balanced_foldlM _ (fun s x s' hs hstep => balanced_addSome hs hstep) _ balanced_nil hl
  refine balanced_foldlM _ (fun s x s' hs hstep => ?_) _ haddL hr
  split_ifs at hstep
  · cases hstep
    exact hs
  · exact balanced_addSome hs hstep

end Ordered

end SortedTree
end SkipPlatform
