import Mathlib.Algebra.Order.Ring.Nat
import Mathlib.Tactic.Tauto
import SkipPlatform.SortedSearch
import SkipPlatform.DMap

set_option autoImplicit false

/-! Values attached to ranges of keys, looked up by a single key. The ranges of the tree are
split where they overlap, so that two of them share a boundary at most; large trees are
moved to sorted arrays. -/
namespace SkipPlatform
open List SortedSearch

/-- Values in no particular order, with a cheap union. -/
inductive Rope (V : Type) : Type where
  | nil : Rope V
  | union (x1 x2 : Rope V) : Rope V
  | cons (x : V) (rl : Rope V) : Rope V

namespace Rope
variable {V : Type}

def nodes : Rope V → ℕ
  | nil => 1
  | union x1 x2 => 1 + x1.nodes + x2.nodes
  | cons _ rl => 1 + rl.nodes

/-- The loop of `values` and `toArray`: `todo` is the stack, its top first. -/
def drain (acc : List V) : List (Rope V) → List V
  | [] => acc
  | nil :: todo => drain acc todo
  | union x1 x2 :: todo => drain acc (x2 :: x1 :: todo)
  | cons x rl :: todo => drain (acc ++ [x]) (rl :: todo)
termination_by todo => (todo.map nodes).sum
decreasing_by
  all_goals
    simp only [map_cons, sum_cons, nodes]
    omega

def values (t : Rope V) : List V := drain [] [t]

def toArray (t : Rope V) : List V := drain [] [t]

def Mem (v : V) : Rope V → Prop
  | nil => False
  | union x1 x2 => x1.Mem v ∨ x2.Mem v
  | cons x rl => v = x ∨ rl.Mem v

theorem mem_drain (v : V) (acc : List V) (todo : List (Rope V)) :
    v ∈ drain acc todo ↔ v ∈ acc ∨ ∃ t ∈ todo, t.Mem v := by
  induction acc, todo using drain.induct with
  | case1 acc => simp [drain]
  | case2 acc todo ih =>
    rw [drain, ih]
    simp [Mem]
  | case3 acc x1 x2 todo ih =>
    rw [drain, ih]
    simp only [mem_cons, exists_eq_or_imp, Mem]
    tauto
  | case4 acc x rl todo ih =>
    rw [drain, ih]
    simp only [mem_append, mem_cons, not_mem_nil, or_false, exists_eq_or_imp, Mem]
    tauto

theorem mem_values {v : V} {t : Rope V} : v ∈ t.values ↔ t.Mem v := by
  unfold values
  rw [mem_drain]
  simp

theorem mem_toArray {v : V} {t : Rope V} : v ∈ t.toArray ↔ t.Mem v := mem_values

end Rope

inductive RangeMap (K V : Type) : Type where
  | nil : RangeMap K V
  | node (h : ℕ) (key1 key2 : K) (vset : Rope V) (left right : RangeMap K V) : RangeMap K V

namespace RangeMap
variable {K V : Type}

abbrev Item (K V : Type) := (K × K) × Rope V

def height : RangeMap K V → ℕ
  | nil => 0
  | node h _ _ _ _ _ => h

def items : RangeMap K V → List (Item K V)
  | nil => []
  | node _ k1 k2 v l r => l.items ++ ((k1, k2), v) :: r.items

def mkNode (k1 k2 : K) (v : Rope V) (l r : RangeMap K V) : RangeMap K V :=
  node (max l.height r.height + 1) k1 k2 v l r

/-- Nothing on an `invariant_violation`. -/
def balance (k1 k2 : K) (v : Rope V) (l r : RangeMap K V) : Option (RangeMap K V) :=
  if l.height > r.height + 2 then
    match l with
    | nil => none
    | node _ lk1 lk2 lv ll lr =>
      if ll.height ≥ lr.height then some (mkNode lk1 lk2 lv ll (mkNode k1 k2 v lr r))
      else
        match lr with
        | nil => none
        | node _ lrk1 lrk2 lrv lrl lrr =>
          some (mkNode lrk1 lrk2 lrv (mkNode lk1 lk2 lv ll lrl) (mkNode k1 k2 v lrr r))
  else if r.height > l.height + 2 then
    match r with
    | nil => none
    | node _ rk1 rk2 rv rl rr =>
      if rr.height ≥ rl.height then some (mkNode rk1 rk2 rv (mkNode k1 k2 v l rl) rr)
      else
        match rl with
        | nil => none
        | node _ rlk1 rlk2 rlv rll rlr =>
          some (mkNode rlk1 rlk2 rlv (mkNode k1 k2 v l rll) (mkNode rk1 rk2 rv rlr rr))
  else some (mkNode k1 k2 v l r)

theorem items_mkNode (k1 k2 : K) (v : Rope V) (l r : RangeMap K V) :
    (mkNode k1 k2 v l r).items = l.items ++ ((k1, k2), v) :: r.items := rfl

theorem balance_spec (k1 k2 : K) (v : Rope V) (l r : RangeMap K V) :
    ∃ t, balance k1 k2 v l r = some t ∧ t.items = l.items ++ ((k1, k2), v) :: r.items := by
  unfold balance
  split_ifs with hl hr
  · cases l with
    | nil => exact absurd hl (Nat.not_lt_zero _)
    | node lh lk1 lk2 lv ll lr =>
      dsimp only
      split_ifs with hh
      · refine ⟨_, rfl, ?_⟩
        simp [items_mkNode, items]
      · cases lr with
        | nil => exact absurd (Nat.zero_le _) hh
        | node =>
          refine ⟨_, rfl, ?_⟩
          simp [items_mkNode, items]
  · cases r with
    | nil => exact absurd hr (Nat.not_lt_zero _)
    | node rh rk1 rk2 rv rl rr =>
      dsimp only
      split_ifs with hh
      · refine ⟨_, rfl, ?_⟩
        simp [items_mkNode, items]
      · cases rl with
        | nil => exact absurd (Nat.zero_le _) hh
        | node =>
          refine ⟨_, rfl, ?_⟩
          simp [items_mkNode, items]
  · exact ⟨_, rfl, rfl⟩

section Ordered
variable [LinearOrder K]

def getRope (key : K) : RangeMap K V → Rope V
  | nil => .nil
  | node _ key1 key2 vset left right =>
    match compare key key1 with
    | .lt => left.getRope key
    | .eq =>
      if key = key2 then (vset.union (left.getRope key)).union (right.getRope key)
      else vset.union (left.getRope key)
    | .gt =>
      match compare key key2 with
      | .lt => vset
      | .eq => vset.union (right.getRope key)
      | .gt => right.getRope key

/-- Nothing on an `invariant_violation` or a failed `invariant`. -/
def addSet (key1 key2 : K) (values : Rope V) : RangeMap K V → Option (RangeMap K V)
  | nil => some (mkNode key1 key2 values nil nil)
  | node _ k1 k2 v l r =>
    if key1 ≤ key2 then
      match compare key2 k1 with
      | .lt => do balance k1 k2 v (← l.addSet key1 key2 values) r
      | .eq => do balance k1 k2 v (← l.addSet key1 key2 values) r
      | .gt =>
        match compare key1 k2 with
        | .gt => do balance k1 k2 v l (← r.addSet key1 key2 values)
        | .eq => do balance k1 k2 v l (← r.addSet key1 key2 values)
        | .lt =>
          match compare key1 k1, compare key2 k2 with
          | .eq, .eq => some (mkNode k1 k2 (values.union v) l r)
          | .lt, .lt => do
            let l ← l.addSet key1 k1 values
            let r ← r.addSet key2 k2 v
            return mkNode k1 key2 (values.union v) l r
          | .gt, .lt => do
            let l ← l.addSet k1 key1 v
            let r ← r.addSet key2 k2 v
            return mkNode key1 key2 (values.union v) l r
          | .gt, .gt => do
            let l ← l.addSet k1 key1 v
            let r ← r.addSet k2 key2 values
            return mkNode key1 k2 (values.union v) l r
          | .lt, .gt => do
            let l ← l.addSet key1 k1 values
            let r ← r.addSet k2 key2 values
            return mkNode k1 k2 (values.union v) l r
          | .eq, .gt => do
            let r ← r.addSet k2 key2 values
            balance k1 k2 (values.union v) l r
          | .gt, .eq => do
            let l ← l.addSet k1 key1 v
            balance key1 k2 (values.union v) l r
          | .lt, .eq => do
            let l ← l.addSet key1 k1 values
            balance k1 k2 (values.union v) l r
          | .eq, .lt => do
            let r ← r.addSet key2 k2 v
            balance k1 key2 (values.union v) l r
    else none

def add (key1 key2 : K) (value : V) (t : RangeMap K V) : Option (RangeMap K V) :=
  t.addSet key1 key2 (.cons value .nil)

def Between (a b k : K) : Prop := a ≤ k ∧ k ≤ b

def Covers (xs : List (Item K V)) (k : K) (v : V) : Prop :=
  ∃ x ∈ xs, Between x.1.1 x.1.2 k ∧ x.2.Mem v

section Apart
variable {W : Type}

/-- Ranges in order, of which two neighbours share a boundary at most. -/
def Apart (xs : List ((K × K) × W)) : Prop :=
  (∀ x ∈ xs, x.1.1 ≤ x.1.2) ∧ xs.Pairwise fun x y => x.1.2 ≤ y.1.1

/-- No range of the list starts before `a`. -/
def Above (xs : List ((K × K) × W)) (a : K) : Prop := ∀ x ∈ xs, a ≤ x.1.1

/-- No range of the list ends after `b`. -/
def Below (xs : List ((K × K) × W)) (b : K) : Prop := ∀ x ∈ xs, x.1.2 ≤ b

end Apart

theorem between_split {a b c k : K} (hab : a ≤ b) (hbc : b ≤ c) :
    Between a c k ↔ Between a b k ∨ Between b c k := by
  unfold Between
  constructor
  · intro h
    rcases le_total k b with hk | hk
    · exact Or.inl ⟨h.1, hk⟩
    · exact Or.inr ⟨hk, h.2⟩
  · intro h
    rcases h with h | h
    · exact ⟨h.1, h.2.trans hbc⟩
    · exact ⟨hab.trans h.1, h.2⟩

theorem covers_nil (k : K) (v : V) : Covers [] k v ↔ False := by
  simp [Covers]

theorem covers_cons (x : Item K V) (xs : List (Item K V)) (k : K) (v : V) :
    Covers (x :: xs) k v ↔ (Between x.1.1 x.1.2 k ∧ x.2.Mem v) ∨ Covers xs k v := by
  simp only [Covers, mem_cons, exists_eq_or_imp]

theorem covers_append (xs ys : List (Item K V)) (k : K) (v : V) :
    Covers (xs ++ ys) k v ↔ Covers xs k v ∨ Covers ys k v := by
  simp only [Covers, mem_append, or_and_right, exists_or]

theorem apart_node {W : Type} {l r : List ((K × K) × W)} {x : (K × K) × W} :
    Apart (l ++ x :: r) ↔
      Apart l ∧ Apart r ∧ x.1.1 ≤ x.1.2 ∧ Below l x.1.1 ∧ Above r x.1.2 := by
  constructor
  · intro h
    have hp := pairwise_append.mp h.2
    have hc := pairwise_cons.mp hp.2.1
    refine ⟨⟨fun y hy => h.1 y (by simp [hy]), hp.1⟩, ⟨fun y hy => h.1 y (by simp [hy]), hc.2⟩,
      h.1 x (by simp), ?_, hc.1⟩
    intro y hy
    exact hp.2.2 y hy x mem_cons_self
  · intro ⟨hl, hr, hx, hbelow, habove⟩
    constructor
    · intro y hy
      rcases mem_append.mp hy with hy | hy
      · exact hl.1 y hy
      · rcases mem_cons.mp hy with hy | hy
        · rw [hy]
          exact hx
        · exact hr.1 y hy
    · refine pairwise_append.mpr ⟨hl.2, pairwise_cons.mpr ⟨habove, hr.2⟩, ?_⟩
      intro y hy z hz
      rcases mem_cons.mp hz with hz | hz
      · rw [hz]
        exact hbelow y hy
      · exact (hbelow y hy).trans (hx.trans (habove z hz))

theorem not_between_of_below {W : Type} {xs : List ((K × K) × W)} {b k : K} (h : Below xs b)
    (hk : b < k) : ∀ x ∈ xs, ¬ Between x.1.1 x.1.2 k :=
  fun x hx hb => absurd (hb.2.trans (h x hx)) hk.not_ge

theorem not_between_of_above {W : Type} {xs : List ((K × K) × W)} {a k : K} (h : Above xs a)
    (hk : k < a) : ∀ x ∈ xs, ¬ Between x.1.1 x.1.2 k :=
  fun x hx hb => absurd ((h x hx).trans hb.1) hk.not_ge

/-- Which of the left part, the node and the right part a lookup asks. -/
def Asks (key key1 key2 : K) (here left right : Prop) : Prop :=
  match compare key key1 with
  | .lt => left
  | .eq => if key = key2 then (here ∨ left) ∨ right else here ∨ left
  | .gt =>
    match compare key key2 with
    | .lt => here
    | .eq => here ∨ right
    | .gt => right

theorem asks_iff {key key1 key2 : K} {here left right : Prop} (hle : key1 ≤ key2)
    (hleft : key1 < key → ¬ left) (hright : key < key2 → ¬ right) :
    Asks key key1 key2 here left right ↔ left ∨ (Between key1 key2 key ∧ here) ∨ right := by
  unfold Asks Between
  cases h1 : compare key key1 with
  | lt =>
    have hlt := compare_lt_iff_lt.mp h1
    have hno := hright (hlt.trans_le hle)
    have hout : ¬ key1 ≤ key := hlt.not_ge
    simp only [hno, hout, false_and, or_false]
  | eq =>
    have heq := compare_eq_iff_eq.mp h1
    subst heq
    dsimp only
    split_ifs with h2
    · subst h2
      simp only [le_refl, true_and]
      rw [or_assoc, or_left_comm]
    · have hno := hright (lt_of_le_of_ne hle h2)
      simp only [hno, hle, le_refl, true_and, or_false]
      exact or_comm
  | gt =>
    have hgt := compare_gt_iff_gt.mp h1
    have hno := hleft hgt
    dsimp only
    cases h2 : compare key key2 with
    | lt =>
      have hlt := compare_lt_iff_lt.mp h2
      have hno' := hright hlt
      simp only [hno, hno', hgt.le, hlt.le, true_and, false_or, or_false]
    | eq =>
      have heq := compare_eq_iff_eq.mp h2
      simp only [hno, hgt.le, heq.le, true_and, false_or]
    | gt =>
      have hgt' := compare_gt_iff_gt.mp h2
      have hout : ¬ key ≤ key2 := hgt'.not_ge
      simp only [hno, hout, and_false, false_and, false_or]

theorem mem_getRope_node (key : K) (v : V) (h : ℕ) (key1 key2 : K) (vset : Rope V)
    (left right : RangeMap K V) :
    ((node h key1 key2 vset left right).getRope key).Mem v ↔
      Asks key key1 key2 (vset.Mem v) ((left.getRope key).Mem v) ((right.getRope key).Mem v) := by
  rw [getRope, Asks]
  cases compare key key1 with
  | lt => rfl
  | eq =>
    dsimp only
    split_ifs
    · rfl
    · rfl
  | gt =>
    cases compare key key2 with
    | lt => rfl
    | eq => rfl
    | gt => rfl

theorem mem_getRope {t : RangeMap K V} (h : Apart t.items) (key : K) (v : V) :
    (t.getRope key).Mem v ↔ Covers t.items key v := by
  induction t with
  | nil => exact iff_of_false id (fun hc => (covers_nil key v).mp hc)
  | node _ key1 key2 vset left right ihl ihr =>
    obtain ⟨hl, hr, hle, hbelow, habove⟩ := apart_node.mp h
    rw [mem_getRope_node, items, covers_append, covers_cons, ihl hl, ihr hr]
    apply asks_iff hle
    · exact fun hk ⟨x, hx, hb, _⟩ => not_between_of_below hbelow hk x hx hb
    · exact fun hk ⟨x, hx, hb, _⟩ => not_between_of_above habove hk x hx hb

/-- What the ranges `added` do to the ranges `old` of a tree. -/
structure Adds (old new added : List (Item K V)) : Prop where
  apart : Apart new
  covers : ∀ k v, Covers new k v ↔ Covers old k v ∨ Covers added k v
  above : ∀ a, Above old a → Above added a → Above new a
  below : ∀ b, Below old b → Below added b → Below new b

theorem Adds.nothing {xs : List (Item K V)} (h : Apart xs) : Adds xs xs [] := by
  refine ⟨h, fun k v => ?_, fun a ha _ => ha, fun b hb _ => hb⟩
  rw [covers_nil, or_false]

theorem above_single {k1 k2 a : K} {v : Rope V} : Above [((k1, k2), v)] a ↔ a ≤ k1 := by
  simp [Above]

theorem below_single {k1 k2 b : K} {v : Rope V} : Below [((k1, k2), v)] b ↔ k2 ≤ b := by
  simp [Below]

theorem above_node {l r : List (Item K V)} {x : Item K V} {a : K} :
    Above (l ++ x :: r) a ↔ Above l a ∧ a ≤ x.1.1 ∧ Above r a := by
  simp only [Above, mem_append, mem_cons, or_imp, forall_and, forall_eq]

theorem below_node {l r : List (Item K V)} {x : Item K V} {b : K} :
    Below (l ++ x :: r) b ↔ Below l b ∧ x.1.2 ≤ b ∧ Below r b := by
  simp only [Below, mem_append, mem_cons, or_imp, forall_and, forall_eq]

/-- A node whose range changes from `x` to `y` while its subtrees take in the rest of `x` and of
the range added. -/
theorem Adds.node {l l' la r r' ra : List (Item K V)} {x y z : Item K V}
    (h : Apart (l ++ x :: r)) (hl : Adds l l' la) (hr : Adds r r' ra) (hy : y.1.1 ≤ y.1.2)
    (hbelow : x.1.1 ≤ y.1.1 ∧ Below la y.1.1) (habove : y.1.2 ≤ x.1.2 ∧ Above ra y.1.2)
    (hcovers : ∀ k v, Covers la k v ∨ Covers [y] k v ∨ Covers ra k v ↔
      Covers [x] k v ∨ Covers [z] k v)
    (hlow : ∀ a, a ≤ x.1.1 → a ≤ z.1.1 → Above la a ∧ a ≤ y.1.1 ∧ Above ra a)
    (hhigh : ∀ b, x.1.2 ≤ b → z.1.2 ≤ b → Below la b ∧ y.1.2 ≤ b ∧ Below ra b) :
    Adds (l ++ x :: r) (l' ++ y :: r') [z] := by
  obtain ⟨_, _, _, hlx, hrx⟩ := apart_node.mp h
  refine ⟨apart_node.mpr ⟨hl.apart, hr.apart, hy, ?_, ?_⟩, ?_, ?_, ?_⟩
  · exact hl.below _ (fun w hw => (hlx w hw).trans hbelow.1) hbelow.2
  · exact hr.above _ (fun w hw => habove.1.trans (hrx w hw)) habove.2
  · intro k v
    have hk := hcovers k v
    rw [covers_append, covers_append, covers_cons y, covers_cons x, hl.covers, hr.covers]
    rw [covers_cons y, covers_nil, or_false, covers_cons x, covers_nil, or_false] at hk
    constructor
    · intro hc
      rcases hc with (hc | hc) | hc | hc | hc
      · exact Or.inl (Or.inl hc)
      · exact (hk.mp (Or.inl hc)).imp_left fun hx => Or.inr (Or.inl hx)
      · exact (hk.mp (Or.inr (Or.inl hc))).imp_left fun hx => Or.inr (Or.inl hx)
      · exact Or.inl (Or.inr (Or.inr hc))
      · exact (hk.mp (Or.inr (Or.inr hc))).imp_left fun hx => Or.inr (Or.inl hx)
    · intro hc
      have hback : Covers la k v ∨ (Between y.1.1 y.1.2 k ∧ y.2.Mem v) ∨ Covers ra k v →
          (Covers l k v ∨ Covers la k v) ∨ (Between y.1.1 y.1.2 k ∧ y.2.Mem v) ∨
            Covers r k v ∨ Covers ra k v := by
        intro hb
        rcases hb with hb | hb | hb
        · exact Or.inl (Or.inr hb)
        · exact Or.inr (Or.inl hb)
        · exact Or.inr (Or.inr (Or.inr hb))
      rcases hc with (hc | hc | hc) | hc
      · exact Or.inl (Or.inl hc)
      · exact hback (hk.mpr (Or.inl hc))
      · exact Or.inr (Or.inr (Or.inl hc))
      · exact hback (hk.mpr (Or.inr hc))
  · intro a ha hz
    obtain ⟨hal, hax, har⟩ := above_node.mp ha
    obtain ⟨hla, hay, hra⟩ := hlow a hax (hz z mem_cons_self)
    exact above_node.mpr ⟨hl.above a hal hla, hay, hr.above a har hra⟩
  · intro b hb hz
    obtain ⟨hbl, hbx, hbr⟩ := below_node.mp hb
    obtain ⟨hla, hby, hra⟩ := hhigh b hbx (hz z mem_cons_self)
    exact below_node.mpr ⟨hl.below b hbl hla, hby, hr.below b hbr hra⟩

theorem covers_single {k1 k2 k : K} {v : Rope V} {u : V} :
    Covers [((k1, k2), v)] k u ↔ Between k1 k2 k ∧ v.Mem u := by
  rw [covers_cons, covers_nil, or_false]

theorem above_nil {a : K} : Above ([] : List (Item K V)) a := nofun

theorem below_nil {b : K} : Below ([] : List (Item K V)) b := nofun

theorem adds_balance {old : List (Item K V)} {z : List (Item K V)} {a b : K} {w : Rope V}
    {l r : RangeMap K V} (h : Adds old (l.items ++ ((a, b), w) :: r.items) z) :
    ∃ t, balance a b w l r = some t ∧ Adds old t.items z := by
  obtain ⟨t, ht, hitems⟩ := balance_spec a b w l r
  refine ⟨t, ht, ?_⟩
  rw [hitems]
  exact h

/-- What is left of the two starts `key1` and `k1` of overlapping ranges before the later one,
`a`: the earlier range goes to the left subtree up to there. -/
structure LeftPart (key1 k1 : K) (values v : Rope V) (a : K) (la : List (Item K V)) : Prop where
  le : key1 ≤ a ∧ k1 ≤ a
  below : Below la a
  above : ∀ x, x ≤ k1 → x ≤ key1 → Above la x ∧ x ≤ a
  covers : ∀ k u, (Between key1 a k ∧ values.Mem u) ∨ (Between k1 a k ∧ v.Mem u) ↔
    Covers la k u ∨ (Between a a k ∧ (values.Mem u ∨ v.Mem u))

structure RightPart (key2 k2 : K) (values v : Rope V) (b : K) (ra : List (Item K V)) : Prop where
  le : b ≤ key2 ∧ b ≤ k2
  above : Above ra b
  below : ∀ x, k2 ≤ x → key2 ≤ x → Below ra x ∧ b ≤ x
  covers : ∀ k u, (Between b key2 k ∧ values.Mem u) ∨ (Between b k2 k ∧ v.Mem u) ↔
    Covers ra k u ∨ (Between b b k ∧ (values.Mem u ∨ v.Mem u))

theorem leftPart_lt {key1 k1 : K} (h : key1 ≤ k1) (values v : Rope V) :
    LeftPart key1 k1 values v k1 [((key1, k1), values)] := by
  refine ⟨⟨h, le_rfl⟩, below_single.mpr le_rfl, fun x hx hz => ⟨above_single.mpr hz, hx⟩, ?_⟩
  intro k u
  have hedge : Between k1 k1 k → Between key1 k1 k := fun hb => ⟨h.trans hb.1, hb.2⟩
  rw [covers_single]
  tauto

theorem leftPart_eq (k1 : K) (values v : Rope V) : LeftPart k1 k1 values v k1 [] := by
  refine ⟨⟨le_rfl, le_rfl⟩, below_nil, fun x hx _ => ⟨above_nil, hx⟩, ?_⟩
  intro k u
  rw [covers_nil, false_or, and_or_left]

theorem leftPart_gt {key1 k1 : K} (h : k1 ≤ key1) (values v : Rope V) :
    LeftPart key1 k1 values v key1 [((k1, key1), v)] := by
  refine ⟨⟨le_rfl, h⟩, below_single.mpr le_rfl, fun x hx hz => ⟨above_single.mpr hx, hz⟩, ?_⟩
  intro k u
  have hedge : Between key1 key1 k → Between k1 key1 k := fun hb => ⟨h.trans hb.1, hb.2⟩
  rw [covers_single]
  tauto

theorem rightPart_lt {key2 k2 : K} (h : key2 ≤ k2) (values v : Rope V) :
    RightPart key2 k2 values v key2 [((key2, k2), v)] := by
  refine ⟨⟨le_rfl, h⟩, above_single.mpr le_rfl, fun x hx hz => ⟨below_single.mpr hx, hz⟩, ?_⟩
  intro k u
  have hedge : Between key2 key2 k → Between key2 k2 k := fun hb => ⟨hb.1, hb.2.trans h⟩
  rw [covers_single]
  tauto

theorem rightPart_eq (k2 : K) (values v : Rope V) : RightPart k2 k2 values v k2 [] := by
  refine ⟨⟨le_rfl, le_rfl⟩, above_nil, fun x hx _ => ⟨below_nil, hx⟩, ?_⟩
  intro k u
  rw [covers_nil, false_or, and_or_left]

theorem rightPart_gt {key2 k2 : K} (h : k2 ≤ key2) (values v : Rope V) :
    RightPart key2 k2 values v k2 [((k2, key2), values)] := by
  refine ⟨⟨h, le_rfl⟩, above_single.mpr le_rfl, fun x hx hz => ⟨below_single.mpr hz, hx⟩, ?_⟩
  intro k u
  have hedge : Between k2 k2 k → Between k2 key2 k := fun hb => ⟨hb.1, hb.2.trans h⟩
  rw [covers_single]
  tauto

theorem Adds.overlap {l l' la r r' ra : List (Item K V)} {key1 key2 k1 k2 a b : K}
    {values v : Rope V} (h : Apart (l ++ ((k1, k2), v) :: r))
    (left : LeftPart key1 k1 values v a la) (right : RightPart key2 k2 values v b ra)
    (hab : a ≤ b) (hl : Adds l l' la) (hr : Adds r r' ra) :
    Adds (l ++ ((k1, k2), v) :: r) (l' ++ ((a, b), values.union v) :: r')
      [((key1, key2), values)] := by
  refine Adds.node h hl hr hab ⟨left.le.2, left.below⟩ ⟨right.le.2, right.above⟩ ?_ ?_ ?_
  · intro k u
    have hleft := left.covers k u
    have hright := right.covers k u
    have hfirst : Between a a k → Between a b k := fun hk => ⟨hk.1, hk.2.trans hab⟩
    have hlast : Between b b k → Between a b k := fun hk => ⟨hab.trans hk.1, hk.2⟩
    rw [covers_single, covers_single, covers_single, between_split left.le.1 (hab.trans right.le.1),
      between_split hab right.le.1, between_split left.le.2 (hab.trans right.le.2),
      between_split hab right.le.2]
    change Covers la k u ∨ Between a b k ∧ (values.Mem u ∨ v.Mem u) ∨ Covers ra k u ↔ _
    constructor
    · intro hc
      rcases hc with hc | hc | hc
      · rcases hleft.mpr (Or.inl hc) with hk | hk
        · exact Or.inr ⟨Or.inl hk.1, hk.2⟩
        · exact Or.inl ⟨Or.inl hk.1, hk.2⟩
      · rcases hc.2 with hu | hu
        · exact Or.inr ⟨Or.inr (Or.inl hc.1), hu⟩
        · exact Or.inl ⟨Or.inr (Or.inl hc.1), hu⟩
      · rcases hright.mpr (Or.inl hc) with hk | hk
        · exact Or.inr ⟨Or.inr (Or.inr hk.1), hk.2⟩
        · exact Or.inl ⟨Or.inr (Or.inr hk.1), hk.2⟩
    · intro hc
      have goLeft := fun hx => (hleft.mp hx).imp_right fun hk =>
        (Or.inl ⟨hfirst hk.1, hk.2⟩ :
          Between a b k ∧ (values.Mem u ∨ v.Mem u) ∨ Covers ra k u)
      have goRight := fun hx => (hright.mp hx).symm.imp_left fun hk =>
        (⟨hlast hk.1, hk.2⟩ : Between a b k ∧ (values.Mem u ∨ v.Mem u))
      rcases hc with ⟨hk | hk | hk, hu⟩ | ⟨hk | hk | hk, hu⟩
      · exact goLeft (Or.inr ⟨hk, hu⟩)
      · exact Or.inr (Or.inl ⟨hk, Or.inr hu⟩)
      · exact Or.inr (goRight (Or.inr ⟨hk, hu⟩))
      · exact goLeft (Or.inl ⟨hk, hu⟩)
      · exact Or.inr (Or.inl ⟨hk, Or.inl hu⟩)
      · exact Or.inr (goRight (Or.inl ⟨hk, hu⟩))
  · intro x hx hz
    obtain ⟨hla, hxa⟩ := left.above x hx hz
    exact ⟨hla, hxa, fun w hw => (hxa.trans hab).trans (right.above w hw)⟩
  · intro x hx hz
    obtain ⟨hra, hbx⟩ := right.below x hx hz
    exact ⟨fun w hw => (left.below w hw).trans (hab.trans hbx), hbx, hra⟩

theorem addSet_spec {t : RangeMap K V} (h : Apart t.items) {key1 key2 : K} (hle : key1 ≤ key2)
    (values : Rope V) :
    ∃ t', t.addSet key1 key2 values = some t' ∧
      Adds t.items t'.items [((key1, key2), values)] := by
  induction t generalizing key1 key2 values with
  | nil =>
    refine ⟨_, rfl, ⟨fun x hx => ?_, pairwise_singleton _ _⟩, ?_, fun _ _ hz => hz,
      fun _ _ hz => hz⟩
    · rw [mem_singleton.mp hx]
      exact hle
    · intro k u
      exact (or_iff_right (covers_nil k u).mp).symm
  | node ht k1 k2 v l r ihl ihr =>
    obtain ⟨hl, hr, hk, _, _⟩ := apart_node.mp h
    change k1 ≤ k2 at hk
    have stayl := Adds.nothing hl
    have stayr := Adds.nothing hr
    rw [addSet, if_pos hle]
    have goLeft : key2 ≤ k1 → ∃ t', (do balance k1 k2 v (← l.addSet key1 key2 values) r) = some t' ∧
        Adds (node ht k1 k2 v l r).items t'.items [((key1, key2), values)] := by
      intro hlt
      obtain ⟨l', hl', hal⟩ := ihl hl hle values
      rw [hl']
      refine adds_balance (Adds.node h hal stayr hk ⟨le_rfl, below_single.mpr hlt⟩
        ⟨le_rfl, above_nil⟩ ?_ ?_ ?_)
      · intro k u
        rw [covers_nil, or_false, or_comm]
      · exact fun a ha hz => ⟨above_single.mpr hz, ha, above_nil⟩
      · exact fun b hb hz => ⟨below_single.mpr hz, hb, below_nil⟩
    have goRight : k2 ≤ key1 → ∃ t', (do balance k1 k2 v l (← r.addSet key1 key2 values)) = some t' ∧
        Adds (node ht k1 k2 v l r).items t'.items [((key1, key2), values)] := by
      intro hgt
      obtain ⟨r', hr', har⟩ := ihr hr hle values
      rw [hr']
      refine adds_balance (Adds.node h stayl har hk ⟨le_rfl, below_nil⟩
        ⟨le_rfl, above_single.mpr hgt⟩ ?_ ?_ ?_)
      · intro k u
        rw [covers_nil, false_or]
      · exact fun a ha hz => ⟨above_nil, ha, above_single.mpr hz⟩
      · exact fun b hb hz => ⟨below_nil, hb, below_single.mpr hz⟩
    cases h1 : compare key2 k1 with
    | lt => exact goLeft (compare_lt_iff_lt.mp h1).le
    | eq => exact goLeft (compare_eq_iff_eq.mp h1).le
    | gt =>
      have hgt := compare_gt_iff_gt.mp h1
      cases h2 : compare key1 k2 with
      | gt => exact goRight (compare_gt_iff_gt.mp h2).le
      | eq => exact goRight (compare_eq_iff_eq.mp h2).ge
      | lt =>
        have hlt := compare_lt_iff_lt.mp h2
        dsimp only
        cases h3 : compare key1 k1 with
        | lt =>
          have ha := (compare_lt_iff_lt.mp h3).le
          have left := leftPart_lt ha values v
          obtain ⟨l', hl', hal⟩ := ihl hl ha values
          cases h4 : compare key2 k2 with
          | lt =>
            have hb := (compare_lt_iff_lt.mp h4).le
            obtain ⟨r', hr', har⟩ := ihr hr hb v
            simp only [hl', hr']
            exact ⟨_, rfl, Adds.overlap h left (rightPart_lt hb values v) hgt.le hal har⟩
          | eq =>
            have hb := compare_eq_iff_eq.mp h4
            subst hb
            simp only [hl']
            exact adds_balance (Adds.overlap h left (rightPart_eq key2 values v) hk hal stayr)
          | gt =>
            have hb := (compare_gt_iff_gt.mp h4).le
            obtain ⟨r', hr', har⟩ := ihr hr hb values
            simp only [hl', hr']
            exact ⟨_, rfl, Adds.overlap h left (rightPart_gt hb values v) hk hal har⟩
        | eq =>
          have ha := compare_eq_iff_eq.mp h3
          subst ha
          have left := leftPart_eq key1 values v
          cases h4 : compare key2 k2 with
          | lt =>
            have hb := (compare_lt_iff_lt.mp h4).le
            obtain ⟨r', hr', har⟩ := ihr hr hb v
            simp only [hr']
            exact adds_balance (Adds.overlap h left (rightPart_lt hb values v) hle stayl har)
          | eq =>
            have hb := compare_eq_iff_eq.mp h4
            subst hb
            exact ⟨_, rfl, Adds.overlap h left (rightPart_eq key2 values v) hk stayl stayr⟩
          | gt =>
            have hb := (compare_gt_iff_gt.mp h4).le
            obtain ⟨r', hr', har⟩ := ihr hr hb values
            simp only [hr']
            exact adds_balance (Adds.overlap h left (rightPart_gt hb values v) hk stayl har)
        | gt =>
          have ha := (compare_gt_iff_gt.mp h3).le
          have left := leftPart_gt ha values v
          obtain ⟨l', hl', hal⟩ := ihl hl ha v
          cases h4 : compare key2 k2 with
          | lt =>
            have hb := (compare_lt_iff_lt.mp h4).le
            obtain ⟨r', hr', har⟩ := ihr hr hb v
            simp only [hl', hr']
            exact ⟨_, rfl, Adds.overlap h left (rightPart_lt hb values v) hle hal har⟩
          | eq =>
            have hb := compare_eq_iff_eq.mp h4
            subst hb
            simp only [hl']
            exact adds_balance (Adds.overlap h left (rightPart_eq key2 values v) hlt.le hal stayr)
          | gt =>
            have hb := (compare_gt_iff_gt.mp h4).le
            obtain ⟨r', hr', har⟩ := ihr hr hb values
            simp only [hl', hr']
            exact ⟨_, rfl, Adds.overlap h left (rightPart_gt hb values v) hlt.le hal har⟩

end Ordered

section Get
variable [LinearOrder K] [LinearOrder V]

def collect (vs : List V) : SortedSet V := vs.foldl (fun s v => s.set v ()) .empty

theorem mem_collect {vs : List V} {v : V} : v ∈ (collect vs).keys ↔ v ∈ vs := by
  unfold collect
  rw [DMap.mem_foldl_set]
  exact or_iff_left (not_mem_nil)

def get (key : K) (t : RangeMap K V) : SortedSet V := collect (t.getRope key).values

theorem mem_get {t : RangeMap K V} (h : Apart t.items) (key : K) (v : V) :
    v ∈ (t.get key).keys ↔ Covers t.items key v := by
  unfold get
  rw [mem_collect, Rope.mem_values, mem_getRope h]

end Get
end RangeMap

structure KeyRange (K : Type) [LinearOrder K] where
  start : K
  stop : K
  le : start ≤ stop

abbrev CompactRangeMap (K V : Type) := List ((K × K) × List V)

namespace CompactRangeMap
open RangeMap
variable {K V : Type}

def fromRangeMap (rmap : RangeMap K V) : CompactRangeMap K V :=
  rmap.items.map fun x => (x.1, x.2.toArray)

variable [LinearOrder K] [LinearOrder V]

/-- `getij`, on the part of the array it searches. -/
def get (key : K) (data : CompactRangeMap K V) : SortedSet V :=
  bisect .empty (fun elt left right =>
    match compare key elt.1.1 with
    | .lt => left
    | .eq =>
      if key = elt.1.2 then ((collect elt.2).union left).union right
      else (collect elt.2).union left
    | .gt =>
      match compare key elt.1.2 with
      | .lt => collect elt.2
      | .eq => (collect elt.2).union right
      | .gt => right) data

theorem mem_get_node (key : K) (v : V) (l r : CompactRangeMap K V) (x : (K × K) × List V)
    (mid : l.length = (l.length + r.length) / 2) :
    v ∈ (get key (l ++ x :: r)).keys ↔
      Asks key x.1.1 x.1.2 (v ∈ x.2) (v ∈ (get key l).keys) (v ∈ (get key r).keys) := by
  unfold get
  rw [bisect_node _ _ l r x mid, Asks]
  cases compare key x.1.1 with
  | lt => rfl
  | eq =>
    dsimp only
    split_ifs
    · rw [SortedMap.mem_union, SortedMap.mem_union, mem_collect]
    · rw [SortedMap.mem_union, mem_collect]
  | gt =>
    dsimp only
    cases compare key x.1.2 with
    | lt => exact mem_collect
    | eq =>
      dsimp only
      rw [SortedMap.mem_union, mem_collect]
    | gt => rfl

theorem mem_get {data : CompactRangeMap K V} (h : Apart data) (key : K) (v : V) :
    v ∈ (data.get key).keys ↔ ∃ x ∈ data, Between x.1.1 x.1.2 key ∧ v ∈ x.2 := by
  induction data using bisect_induction with
  | nil =>
    have hnil : get key ([] : CompactRangeMap K V) = .empty := bisect_nil _ _
    rw [hnil]
    exact iff_of_false not_mem_nil nofun
  | node l x r mid ihl ihr =>
    obtain ⟨hl, hr, hle, hbelow, habove⟩ := apart_node.mp h
    have hsplit : (∃ y ∈ l ++ x :: r, Between y.1.1 y.1.2 key ∧ v ∈ y.2) ↔
        (∃ y ∈ l, Between y.1.1 y.1.2 key ∧ v ∈ y.2) ∨ (Between x.1.1 x.1.2 key ∧ v ∈ x.2) ∨
          ∃ y ∈ r, Between y.1.1 y.1.2 key ∧ v ∈ y.2 := by
      simp only [mem_append, mem_cons, or_and_right, exists_or, exists_eq_left]
    rw [mem_get_node key v l r x mid, hsplit, ihl hl, ihr hr]
    apply asks_iff hle
    · exact fun hk ⟨y, hy, hb, _⟩ => not_between_of_below hbelow hk y hy hb
    · exact fun hk ⟨y, hy, hb, _⟩ => not_between_of_above habove hk y hy hb

omit [LinearOrder V] in
theorem apart_fromRangeMap {rmap : RangeMap K V} (h : Apart rmap.items) :
    Apart (fromRangeMap rmap) := by
  constructor
  · intro x hx
    obtain ⟨y, hy, heq⟩ := mem_map.mp hx
    rw [← heq]
    exact h.1 y hy
  · exact pairwise_map.mpr h.2

theorem mem_get_fromRangeMap {rmap : RangeMap K V} (h : Apart rmap.items) (key : K) (v : V) :
    v ∈ ((fromRangeMap rmap).get key).keys ↔ Covers rmap.items key v := by
  rw [mem_get (apart_fromRangeMap h), fromRangeMap]
  constructor
  · intro ⟨x, hx, hb, hv⟩
    obtain ⟨y, hy, heq⟩ := mem_map.mp hx
    rw [← heq] at hb hv
    exact ⟨y, hy, hb, Rope.mem_toArray.mp hv⟩
  · intro ⟨y, hy, hb, hv⟩
    exact ⟨_, mem_map_of_mem hy, hb, Rope.mem_toArray.mpr hv⟩

end CompactRangeMap

/-- The tree that takes the additions, and the arrays made of earlier ones. -/
structure RangeMapList (K V : Type) where
  rmap : RangeMap K V
  rmaps : List (CompactRangeMap K V)

namespace RangeMapList
open RangeMap
variable {K V : Type} [LinearOrder K]

def addSet (key1 key2 : K) (vset : Rope V) (m : RangeMapList K V) :
    Option (RangeMapList K V) := do
  let rmap ← m.rmap.addSet key1 key2 vset
  if key1 ≠ key2 ∧ rmap.height ≥ 10 then
    return ⟨.nil, CompactRangeMap.fromRangeMap rmap :: m.rmaps⟩
  else return ⟨rmap, m.rmaps⟩

def add (key1 key2 : K) (value : V) (m : RangeMapList K V) : Option (RangeMapList K V) :=
  m.addSet key1 key2 (.cons value .nil)

def createFromItems (items : List (KeyRange K × V)) : Option (RangeMapList K V) := do
  let rmap ← items.foldlM (fun t x => t.add x.1.start x.1.stop x.2) RangeMap.nil
  return ⟨rmap, []⟩

def addAll (m : RangeMapList K V) (added : List (KeyRange K × V)) :
    Option (RangeMapList K V) :=
  added.foldlM (fun m x => m.add x.1.start x.1.stop x.2) m

/-- Some range of the list has the key and the value. -/
def Holds (xs : List (KeyRange K × V)) (key : K) (v : V) : Prop :=
  ∃ x ∈ xs, Between x.1.start x.1.stop key ∧ v = x.2

variable [LinearOrder V]

def get (key : K) (m : RangeMapList K V) : SortedSet V :=
  m.rmaps.foldl (fun result rmap => result.union (rmap.get key))
    (SortedMap.union .empty (m.rmap.get key))

def Compacted (rmaps : List (CompactRangeMap K V)) (key : K) (v : V) : Prop :=
  ∃ c ∈ rmaps, v ∈ (c.get key).keys

structure Stands (m : RangeMapList K V) (xs : List (KeyRange K × V)) : Prop where
  apart : Apart m.rmap.items
  covers : ∀ key v, Covers m.rmap.items key v ∨ Compacted m.rmaps key v ↔ Holds xs key v

theorem mem_foldl_union (rmaps : List (CompactRangeMap K V)) (key : K) (v : V)
    (s : SortedSet V) :
    v ∈ (rmaps.foldl (fun result rmap => result.union (rmap.get key)) s).keys ↔
      v ∈ s.keys ∨ Compacted rmaps key v := by
  induction rmaps generalizing s with
  | nil => simp [Compacted]
  | cons c rmaps ih =>
    rw [foldl_cons, ih, SortedMap.mem_union, or_assoc]
    simp only [Compacted, mem_cons, exists_eq_or_imp]

theorem Stands.mem_get {m : RangeMapList K V} {xs : List (KeyRange K × V)} (h : m.Stands xs)
    (key : K) (v : V) : v ∈ (m.get key).keys ↔ Holds xs key v := by
  unfold get
  rw [mem_foldl_union, SortedMap.mem_union, RangeMap.mem_get h.apart, ← h.covers]
  have hempty : ¬ v ∈ (SortedMap.empty : SortedSet V).keys := not_mem_nil
  rw [or_iff_right hempty]

omit [LinearOrder V] in
theorem holds_concat (xs : List (KeyRange K × V)) (x : KeyRange K × V) (key : K) (v : V) :
    Holds (xs ++ [x]) key v ↔ Holds xs key v ∨ Between x.1.start x.1.stop key ∧ v = x.2 := by
  simp only [Holds, mem_append, mem_singleton, or_and_right, exists_or, exists_eq_left]

omit [LinearOrder V] in
theorem add_spec {t : RangeMap K V} (h : Apart t.items) (x : KeyRange K × V) :
    ∃ t', t.add x.1.start x.1.stop x.2 = some t' ∧ Apart t'.items ∧
      ∀ key v, Covers t'.items key v ↔
        Covers t.items key v ∨ Between x.1.start x.1.stop key ∧ v = x.2 := by
  obtain ⟨t', ht', hadds⟩ := addSet_spec h x.1.le (.cons x.2 .nil)
  refine ⟨t', ht', hadds.apart, ?_⟩
  intro key v
  rw [hadds.covers, covers_single]
  have hmem : (Rope.cons x.2 .nil).Mem v ↔ v = x.2 := or_iff_left id
  rw [hmem]

theorem Stands.add {m : RangeMapList K V} {xs : List (KeyRange K × V)} (h : m.Stands xs)
    (x : KeyRange K × V) :
    ∃ m', m.add x.1.start x.1.stop x.2 = some m' ∧ m'.Stands (xs ++ [x]) := by
  obtain ⟨t, ht, hapart, hcovers⟩ := add_spec h.apart x
  have hall : ∀ key v, Covers t.items key v ∨ Compacted m.rmaps key v ↔
      Holds (xs ++ [x]) key v := by
    intro key v
    rw [hcovers, holds_concat, ← h.covers, or_right_comm]
  have hadd : m.rmap.addSet x.1.start x.1.stop (.cons x.2 .nil) = some t := ht
  unfold RangeMapList.add RangeMapList.addSet
  rw [hadd]
  by_cases hfull : x.1.start ≠ x.1.stop ∧ t.height ≥ 10
  · refine ⟨⟨.nil, CompactRangeMap.fromRangeMap t :: m.rmaps⟩, if_pos hfull,
      ⟨nofun, List.Pairwise.nil⟩, ?_⟩
    intro key v
    rw [← hall]
    change Covers [] key v ∨ Compacted (CompactRangeMap.fromRangeMap t :: m.rmaps) key v ↔ _
    rw [covers_nil, false_or]
    simp only [Compacted, mem_cons, exists_eq_or_imp,
      CompactRangeMap.mem_get_fromRangeMap hapart]
  · exact ⟨⟨t, m.rmaps⟩, if_neg hfull, hapart, hall⟩

theorem Stands.addAll {m : RangeMapList K V} {xs : List (KeyRange K × V)} (h : m.Stands xs)
    (added : List (KeyRange K × V)) :
    ∃ m', m.addAll added = some m' ∧ m'.Stands (xs ++ added) := by
  unfold RangeMapList.addAll
  induction added generalizing m xs with
  | nil =>
    rw [append_nil]
    exact ⟨m, rfl, h⟩
  | cons x added ih =>
    obtain ⟨m', hm', hstands⟩ := h.add x
    obtain ⟨m'', hm'', hlast⟩ := ih hstands
    rw [append_assoc] at hlast
    refine ⟨m'', ?_, hlast⟩
    rw [foldlM_cons, hm']
    exact hm''

theorem stands_createFromItems (items : List (KeyRange K × V)) :
    ∃ m, createFromItems items = some m ∧ m.Stands items := by
  have hfold : ∀ (t : RangeMap K V) (xs : List (KeyRange K × V)),
      (⟨t, []⟩ : RangeMapList K V).Stands xs →
      ∃ t', items.foldlM (fun t x => RangeMap.add x.1.start x.1.stop x.2 t) t = some t' ∧
        (⟨t', []⟩ : RangeMapList K V).Stands (xs ++ items) := by
    induction items with
    | nil =>
      intro t xs h
      rw [append_nil]
      exact ⟨t, rfl, h⟩
    | cons x items ih =>
      intro t xs h
      obtain ⟨t', ht', hapart, hcovers⟩ := add_spec h.apart x
      have hstep : (⟨t', []⟩ : RangeMapList K V).Stands (xs ++ [x]) := by
        refine ⟨hapart, ?_⟩
        intro key v
        rw [holds_concat, ← h.covers, hcovers, or_right_comm]
      obtain ⟨t'', ht'', hlast⟩ := ih t' (xs ++ [x]) hstep
      rw [append_assoc] at hlast
      refine ⟨t'', ?_, hlast⟩
      rw [foldlM_cons, ht']
      exact ht''
  have hempty : (⟨.nil, []⟩ : RangeMapList K V).Stands [] := by
    refine ⟨⟨nofun, List.Pairwise.nil⟩, ?_⟩
    intro key v
    change Covers [] key v ∨ Compacted [] key v ↔ Holds [] key v
    simp [Covers, Compacted, Holds]
  obtain ⟨t, ht, hstands⟩ := hfold .nil [] hempty
  refine ⟨⟨t, []⟩, ?_, hstands⟩
  unfold createFromItems
  rw [ht]
  rfl

/-- Whatever ranges are added and however they overlap, no invariant fails and a lookup finds
exactly the values of the ranges that have the key. -/
theorem mem_get_addAll (items added : List (KeyRange K × V)) :
    ∃ m, (createFromItems items).bind (fun m => m.addAll added) = some m ∧
      ∀ key v, v ∈ (m.get key).keys ↔
        ∃ x ∈ items ++ added, x.1.start ≤ key ∧ key ≤ x.1.stop ∧ v = x.2 := by
  obtain ⟨m, hm, hstands⟩ := stands_createFromItems items
  obtain ⟨m', hm', hall⟩ := hstands.addAll added
  refine ⟨m', ?_, ?_⟩
  · rw [hm]
    exact hm'
  · intro key v
    rw [hall.mem_get]
    simp only [Holds, Between, and_assoc]

end RangeMapList
end SkipPlatform
