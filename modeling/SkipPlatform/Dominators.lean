import Mathlib.Logic.Relation
import Mathlib.Logic.Function.Basic
import Mathlib.Data.List.Basic
import Mathlib.Tactic

set_option autoImplicit false

/-! Dominators of a graph with an entry, and trees of candidates for them: what the tree says of a
node is its chain, which may only have more nodes than those that dominate it. -/
namespace Dominators
open List
variable {V : Type} {E : V → V → Prop} {entry : V}

inductive Walk (E : V → V → Prop) (entry : V) : V → List V → Prop
  | start : Walk E entry entry [entry]
  | step {p x : V} {nodes : List V} (walk : Walk E entry p nodes) (edge : E p x) :
      Walk E entry x (x :: nodes)

def Reachable (E : V → V → Prop) (entry x : V) : Prop := ∃ nodes, Walk E entry x nodes

def Dominates (E : V → V → Prop) (entry z x : V) : Prop := ∀ nodes, Walk E entry x nodes → z ∈ nodes

def StrictlyDominates (E : V → V → Prop) (entry z x : V) : Prop := z ≠ x ∧ Dominates E entry z x

/-- The strict dominator that all other strict dominators dominate. -/
structure ImmediatelyDominates (E : V → V → Prop) (entry d x : V) : Prop where
  strict : StrictlyDominates E entry d x
  others : ∀ z, StrictlyDominates E entry z x → Dominates E entry z d

theorem Walk.until {x z : V} {nodes : List V} (h : Walk E entry x nodes) (member : z ∈ nodes) :
    ∃ before, Walk E entry z before ∧ before <:+ nodes := by
  induction h with
  | start =>
    rw [mem_singleton.mp member]
    exact ⟨_, .start, suffix_refl _⟩
  | step walk edge ih =>
    rcases mem_cons.mp member with rfl | member
    · exact ⟨_, .step walk edge, suffix_refl _⟩
    · obtain ⟨before, walk', inside⟩ := ih member
      exact ⟨before, walk', inside.trans (suffix_cons _ _)⟩

theorem Dominates.pred {z p x : V} (h : Dominates E entry z x) (differs : z ≠ x) (edge : E p x) :
    Dominates E entry z p := fun _ walk =>
  (mem_cons.mp (h _ (walk.step edge))).resolve_left differs

theorem Walk.head_unique {x y : V} {nodes : List V} (h : Walk E entry x nodes)
    (h' : Walk E entry y nodes) : x = y := by
  cases h with
  | start =>
    cases h' with
    | start => rfl
    | step => rfl
  | step =>
    cases h' with
    | start => rfl
    | step => rfl

theorem Dominates.antisymm {a b : V} (reachable : Reachable E entry a)
    (hab : Dominates E entry a b) (hba : Dominates E entry b a) : a = b := by
  obtain ⟨nodes, walk⟩ := reachable
  induction length : nodes.length using Nat.strongRecOn generalizing nodes with
  | _ n ih =>
    by_contra differs
    obtain ⟨before, toB, inside⟩ := walk.until (hba nodes walk)
    obtain ⟨first, toA, inside'⟩ := toB.until (hab before toB)
    have shorter : before.length < nodes.length := by
      refine Nat.lt_of_le_of_ne inside.length_le fun same => differs ?_
      rw [inside.eq_of_length same] at toB
      exact walk.head_unique toB
    exact differs (ih first.length (by
      have := inside'.length_le
      omega) first toA rfl)

theorem ImmediatelyDominates.unique {d d' x : V} (reachable : Reachable E entry x)
    (h : ImmediatelyDominates E entry d x) (h' : ImmediatelyDominates E entry d' x) : d' = d := by
  obtain ⟨nodes, walk⟩ := reachable
  obtain ⟨before, toD, -⟩ := walk.until (h'.strict.2 nodes walk)
  exact Dominates.antisymm ⟨before, toD⟩ (h.others d' h'.strict) (h'.others d h.strict)

def Chain (dom : V → Option V) : V → V → Prop := Relation.ReflTransGen fun a b => dom a = some b

theorem Chain.refl {dom : V → Option V} (y : V) : Chain dom y y := Relation.ReflTransGen.refl

theorem Chain.trans {dom : V → Option V} {a b c : V} (h : Chain dom a b) (h' : Chain dom b c) :
    Chain dom a c := Relation.ReflTransGen.trans h h'

theorem Chain.head {dom : V → Option V} {a b c : V} (h : dom a = some b) (h' : Chain dom b c) :
    Chain dom a c := Relation.ReflTransGen.head h h'

theorem Chain.cases {dom : V → Option V} {a c : V} (h : Chain dom a c) :
    a = c ∨ ∃ b, dom a = some b ∧ Chain dom b c := Relation.ReflTransGen.cases_head h

theorem Chain.parent {dom : V → Option V} {a b c : V} (h : Chain dom a c) (differs : a ≠ c)
    (parent : dom a = some b) : Chain dom b c := by
  obtain ⟨b', parent', rest⟩ := h.cases.resolve_left differs
  rw [parent] at parent'
  rwa [Option.some.inj parent']

/-- The nodes that can be reached have numbers, and a predecessor each with a lower one. -/
structure Numbering (E : V → V → Prop) (entry : V) (rank : V → ℕ) (q : V → V) : Prop where
  inj : ∀ x y, Reachable E entry x → Reachable E entry y → rank x = rank y → x = y
  entry_rank : rank entry = 0
  edge : ∀ y, Reachable E entry y → y ≠ entry → E (q y) y
  reach : ∀ y, Reachable E entry y → y ≠ entry → Reachable E entry (q y)
  earlier : ∀ y, Reachable E entry y → y ≠ entry → rank (q y) < rank y

inductive Ancestor (q : V → V) (entry : V) : V → V → Prop
  | refl (y : V) : Ancestor q entry y y
  | step {v y : V} (differs : y ≠ entry) (h : Ancestor q entry v (q y)) : Ancestor q entry v y

theorem Ancestor.trans {q : V → V} {a b c : V} (h : Ancestor q entry a b)
    (h' : Ancestor q entry b c) : Ancestor q entry a c := by
  induction h' with
  | refl => exact h
  | step differs _ ih => exact .step differs ih

theorem Reachable.step {p x : V} (h : Reachable E entry p) (edge : E p x) : Reachable E entry x :=
  let ⟨_, walk⟩ := h
  ⟨_, walk.step edge⟩

theorem reachable_entry : Reachable E entry entry := ⟨_, .start⟩

section Numbered
variable {rank : V → ℕ} {q : V → V}

theorem Ancestor.rank_le (num : Numbering E entry rank q) {v y : V} (h : Ancestor q entry v y)
    (reach : Reachable E entry y) : Reachable E entry v ∧ rank v ≤ rank y := by
  induction h with
  | refl => exact ⟨reach, Nat.le_refl _⟩
  | step differs _ ih =>
    obtain ⟨reach', le⟩ := ih (num.reach _ reach differs)
    exact ⟨reach', Nat.le_trans le (Nat.le_of_lt (num.earlier _ reach differs))⟩

theorem Ancestor.walk (num : Numbering E entry rank q) {v y : V} (h : Ancestor q entry v y)
    (reach : Reachable E entry y) {nodes : List V} (walk : Walk E entry v nodes) :
    ∃ more, Walk E entry y (more ++ nodes) ∧ ∀ w ∈ more, rank v < rank w := by
  induction h with
  | refl => exact ⟨[], walk, forall_mem_nil _⟩
  | @step y differs h ih =>
    have reach' := num.reach _ reach differs
    obtain ⟨more, walk', above⟩ := ih reach'
    refine ⟨y :: more, walk'.step (num.edge _ reach differs), fun w member => ?_⟩
    rcases mem_cons.mp member with rfl | member
    · exact Nat.lt_of_le_of_lt (h.rank_le num reach').2 (num.earlier _ reach differs)
    · exact above w member

/-- Candidates that may only be too many: they dominate nothing that they need not, and no more can
be taken for a node than what lies above its candidate. -/
structure Approximates (E : V → V → Prop) (entry : V) (rank : V → ℕ) (q : V → V)
    (dom : V → Option V) : Prop where
  root : dom entry = some entry
  reach : ∀ y d, dom y = some d → Reachable E entry y
  known : ∀ y d, dom y = some d → (dom d).isSome = true
  ancestor : ∀ y d, dom y = some d → Ancestor q entry d y
  lower : ∀ y d, dom y = some d → y ≠ entry → rank d < rank y
  bound : ∀ x d, dom x = some d → x ≠ entry →
    ∀ z, (∀ p, E p x → (dom p).isSome = true → Chain dom p z) → rank z ≤ rank d
  covers : ∀ y, (dom y).isSome = true → ∀ z, Dominates E entry z y → Chain dom y z

/-- The candidates of the nodes with numbers below `i` lie above their predecessors. -/
structure Tight (E : V → V → Prop) (entry : V) (rank : V → ℕ) (q : V → V) (dom : V → Option V)
    (i : ℕ) : Prop where
  known : ∀ y, Reachable E entry y → rank y < i → (dom y).isSome = true
  pred : ∀ y d, Reachable E entry y → y ≠ entry → rank y < i → dom y = some d →
    Chain dom (q y) d

/-- A node that lies above exactly what all predecessors with candidates lie below. -/
def Meets (E : V → V → Prop) (dom : V → Option V) (x u : V) : Prop :=
  (dom u).isSome = true ∧
    ∀ z, Chain dom u z ↔ ∀ p, E p x → (dom p).isSome = true → Chain dom p z

variable {dom : V → Option V}

theorem Chain.ancestor (h : Approximates E entry rank q dom) {y z : V} (chain : Chain dom y z) :
    Ancestor q entry z y := by
  induction chain using Relation.ReflTransGen.head_induction_on with
  | refl => exact .refl _
  | head parent _ ih => exact ih.trans (h.ancestor _ _ parent)

theorem Approximates.reachable (h : Approximates E entry rank q dom) {y : V}
    (some : (dom y).isSome = true) : Reachable E entry y := by
  obtain ⟨d, parent⟩ := Option.isSome_iff_exists.mp some
  exact h.reach y d parent

theorem Chain.rank_le (num : Numbering E entry rank q) (h : Approximates E entry rank q dom)
    {y z : V} (chain : Chain dom y z) (reach : Reachable E entry y) : rank z ≤ rank y :=
  ((chain.ancestor h).rank_le num reach).2

theorem Chain.rank_lt (h : Approximates E entry rank q dom) (num : Numbering E entry rank q)
    {y z : V} (chain : Chain dom y z) (reach : Reachable E entry y) (differs : y ≠ z) :
    rank z < rank y := by
  refine Nat.lt_of_le_of_ne (chain.rank_le num h reach) fun same => differs ?_
  exact (num.inj _ _ ((chain.ancestor h).rank_le num reach).1 reach same).symm

theorem Chain.above_ancestor (num : Numbering E entry rank q) {i : ℕ} (tight : Tight E entry rank q dom i) {v y z : V} (anc : Ancestor q entry v y)
    (reach : Reachable E entry y) (below : rank y < i) (chain : Chain dom y z)
    (le : rank z ≤ rank v) : Chain dom v z := by
  induction anc with
  | refl => exact chain
  | @step y differs anc ih =>
    have earlier := num.earlier _ reach differs
    have reach' := num.reach _ reach differs
    have above := (anc.rank_le num reach').2
    have other : y ≠ z := by
      rintro rfl
      omega
    obtain ⟨d, parent, rest⟩ := chain.cases.resolve_left other
    exact ih reach' (by omega) ((tight.pred _ _ reach differs below parent).trans rest)

section Update
variable {i : ℕ} {x u : V}

/-- A candidate that all predecessors with candidates lie below is taken for a node; those with
lower numbers have been seen. -/
structure Step (E : V → V → Prop) (entry : V) (rank : V → ℕ) (q : V → V) (dom : V → Option V)
    (i : ℕ) (x u : V) : Prop where
  num : Numbering E entry rank q
  approx : Approximates E entry rank q dom
  tight : Tight E entry rank q dom i
  reach : Reachable E entry x
  rank_eq : rank x = i
  differs : x ≠ entry
  meets : Meets E dom x u

namespace Step
variable (s : Step E entry rank q dom i x u)
include s

theorem pred_known : (dom (q x)).isSome = true := by
  have earlier := s.num.earlier x s.reach s.differs
  rw [s.rank_eq] at earlier
  exact s.tight.known _ (s.num.reach x s.reach s.differs) earlier

theorem pred_chain : Chain dom (q x) u :=
  (s.meets.2 u).mp (Chain.refl u) _ (s.num.edge x s.reach s.differs) s.pred_known

theorem ancestor : Ancestor q entry u x := .step s.differs (s.pred_chain.ancestor s.approx)

theorem lower : rank u < rank x :=
  Nat.lt_of_le_of_lt (s.pred_chain.rank_le s.num s.approx (s.num.reach x s.reach s.differs))
    (s.num.earlier x s.reach s.differs)

theorem above {v : V} (old : dom x = some v) : Chain dom v u := by
  have reach := s.num.reach x s.reach s.differs
  have earlier := s.num.earlier x s.reach s.differs
  have le := s.approx.bound x v old s.differs u ((s.meets.2 u).mp (Chain.refl u))
  have anc : Ancestor q entry v (q x) := by
    have lower := s.approx.lower x v old s.differs
    cases s.approx.ancestor x v old with
    | refl => exact absurd lower (Nat.lt_irrefl _)
    | step _ anc => exact anc
  rw [s.rank_eq] at earlier
  exact Chain.above_ancestor s.num s.tight anc reach earlier s.pred_chain le

variable [DecidableEq V]

theorem update_low {y : V} (low : rank y < rank x) :
    Function.update dom x (some u) y = dom y := by
  refine Function.update_of_ne ?_ _ _
  rintro rfl
  exact Nat.lt_irrefl _ low

variable {y z : V}

theorem chain_low (reach : Reachable E entry y) (low : rank y < rank x) :
    Chain (Function.update dom x (some u)) y z ↔ Chain dom y z := by
  have next {a b : V} (reach : Reachable E entry a) (low : rank a < rank x)
      (parent : dom a = some b) : Reachable E entry b ∧ rank b < rank x := by
    obtain ⟨reach', le⟩ := (s.approx.ancestor a b parent).rank_le s.num reach
    exact ⟨reach', Nat.lt_of_le_of_lt le low⟩
  constructor
  · intro chain
    induction chain using Relation.ReflTransGen.head_induction_on with
    | refl => exact Chain.refl _
    | head parent _ ih =>
      rw [s.update_low low] at parent
      obtain ⟨reach', low'⟩ := next reach low parent
      exact Chain.head parent (ih reach' low')
  · intro chain
    induction chain using Relation.ReflTransGen.head_induction_on with
    | refl => exact Chain.refl _
    | head parent _ ih =>
      obtain ⟨reach', low'⟩ := next reach low parent
      rw [← s.update_low low] at parent
      exact Chain.head parent (ih reach' low')

theorem chain_old (known : (dom y).isSome = true)
    (chain : Chain (Function.update dom x (some u)) y z) : Chain dom y z := by
  induction chain using Relation.ReflTransGen.head_induction_on with
  | refl => exact Chain.refl _
  | @head a b parent _ ih =>
    by_cases here : a = x
    · rw [here] at known ⊢
      rw [here, Function.update_self] at parent
      obtain rfl := Option.some.inj parent
      obtain ⟨v, old⟩ := Option.isSome_iff_exists.mp known
      exact Chain.head old ((s.above old).trans (ih s.meets.1))
    · rw [Function.update_of_ne here] at parent
      exact Chain.head parent (ih (s.approx.known a b parent))

theorem chain_high (reach : Reachable E entry y) (high : rank x ≤ rank z)
    (chain : Chain dom y z) : Chain (Function.update dom x (some u)) y z := by
  induction chain using Relation.ReflTransGen.head_induction_on with
  | refl => exact Chain.refl _
  | @head a b parent rest ih =>
    by_cases same : a = z
    · rw [same]
      exact Chain.refl _
    · have reach' := ((s.approx.ancestor a b parent).rank_le s.num reach).1
      have lower := (Chain.head parent rest).rank_lt s.approx s.num reach same
      have other : a ≠ x := by
        rintro rfl
        omega
      rw [← Function.update_of_ne other (some u) dom] at parent
      exact Chain.head parent (ih reach')

theorem chain_apart (apart : ¬ Chain dom y x) (chain : Chain dom y z) :
    Chain (Function.update dom x (some u)) y z := by
  induction chain using Relation.ReflTransGen.head_induction_on with
  | refl => exact Chain.refl _
  | @head a b parent _ ih =>
    have other : a ≠ x := by
      rintro rfl
      exact apart (Chain.refl _)
    have apart' : ¬ Chain dom b x := fun rest => apart (Chain.head parent rest)
    rw [← Function.update_of_ne other (some u) dom] at parent
    exact Chain.head parent (ih apart')

theorem chain_self {z : V} (chain : Chain dom u z) :
    Chain (Function.update dom x (some u)) x z := by
  have same : Function.update dom x (some u) x = some u := Function.update_self ..
  exact Chain.head same ((s.chain_low (s.approx.reachable s.meets.1) s.lower).mpr chain)

theorem over_self {z : V} (dominates : Dominates E entry z x) :
    Chain (Function.update dom x (some u)) x z := by
  by_cases same : z = x
  · rw [same]
    exact Chain.refl _
  · exact s.chain_self ((s.meets.2 z).mpr fun p edge known =>
      s.approx.covers p known z (dominates.pred same edge))

theorem dominates_of_chain (known : (dom y).isSome = true) (chain : Chain dom y x)
    (low : rank z < rank x) (dominates : Dominates E entry z y) : Dominates E entry z x := by
  intro nodes walk
  obtain ⟨more, walk', above⟩ :=
    (chain.ancestor s.approx).walk s.num (s.approx.reachable known) walk
  rcases mem_append.mp (dominates _ walk') with member | member
  · have high := above z member
    omega
  · exact member

omit s in
theorem isSome_update {y : V} :
    (Function.update dom x (some u) y).isSome = true ↔ y = x ∨ (dom y).isSome = true := by
  by_cases here : y = x
  · rw [here, Function.update_self]
    exact ⟨fun _ => .inl rfl, fun _ => rfl⟩
  · rw [Function.update_of_ne here]
    exact ⟨.inr, fun known => known.resolve_left here⟩

theorem covers {y z : V} (known : (Function.update dom x (some u) y).isSome = true)
    (dominates : Dominates E entry z y) : Chain (Function.update dom x (some u)) y z := by
  rcases isSome_update.mp known with rfl | known
  · exact s.over_self dominates
  · have reach := s.approx.reachable known
    have chain := s.approx.covers y known z dominates
    by_cases high : rank x ≤ rank z
    · exact s.chain_high reach high chain
    · by_cases through : Chain dom y x
      · have low := Nat.lt_of_not_le high
        exact (s.chain_high reach (Nat.le_refl _) through).trans
          (s.over_self (s.dominates_of_chain known through low dominates))
      · exact s.chain_apart through chain

theorem approximates : Approximates E entry rank q (Function.update dom x (some u)) := by
  have cases {y d : V} (parent : Function.update dom x (some u) y = some d) :
      y = x ∧ d = u ∨ y ≠ x ∧ dom y = some d := by
    by_cases here : y = x
    · rw [here, Function.update_self] at parent
      exact .inl ⟨here, (Option.some.inj parent).symm⟩
    · rw [Function.update_of_ne here] at parent
      exact .inr ⟨here, parent⟩
  constructor
  · rw [Function.update_of_ne s.differs.symm]
    exact s.approx.root
  · intro y d parent
    rcases cases parent with ⟨rfl, -⟩ | ⟨-, parent⟩
    · exact s.reach
    · exact s.approx.reach y d parent
  · intro y d parent
    rcases cases parent with ⟨-, rfl⟩ | ⟨-, parent⟩
    · exact isSome_update.mpr (.inr s.meets.1)
    · exact isSome_update.mpr (.inr (s.approx.known y d parent))
  · intro y d parent
    rcases cases parent with ⟨rfl, rfl⟩ | ⟨-, parent⟩
    · exact s.ancestor
    · exact s.approx.ancestor y d parent
  · intro y d parent differs
    rcases cases parent with ⟨rfl, rfl⟩ | ⟨-, parent⟩
    · exact s.lower
    · exact s.approx.lower y d parent differs
  · intro y d parent differs z all
    have older (p : V) (edge : E p y) (known : (dom p).isSome = true) : Chain dom p z :=
      s.chain_old known (all p edge (isSome_update.mpr (.inr known)))
    rcases cases parent with ⟨rfl, rfl⟩ | ⟨-, parent⟩
    · exact ((s.meets.2 z).mpr older).rank_le s.num s.approx (s.approx.reachable s.meets.1)
    · exact s.approx.bound y d parent differs z older
  · exact fun y known z dominates => s.covers known dominates

theorem tight_next : Tight E entry rank q (Function.update dom x (some u)) (i + 1) := by
  have rank_eq := s.rank_eq
  have or {y : V} (reach : Reachable E entry y) (below : rank y < i + 1) : y = x ∨ rank y < i := by
    rcases Nat.lt_succ_iff_lt_or_eq.mp below with below | same
    · exact .inr below
    · exact .inl (s.num.inj y x reach s.reach (same.trans rank_eq.symm))
  constructor
  · intro y reach below
    exact isSome_update.mpr ((or reach below).imp_right (s.tight.known y reach))
  · intro y d reach differs below parent
    have earlier := s.num.earlier y reach differs
    refine (s.chain_low (s.num.reach y reach differs) (by omega)).mpr ?_
    rcases or reach below with rfl | below
    · rw [Function.update_self] at parent
      rw [← Option.some.inj parent]
      exact s.pred_chain
    · rw [s.update_low (by omega)] at parent
      exact s.tight.pred y d reach differs below parent

end Step

theorem Approximates.entry_of_rank (num : Numbering E entry rank q) {y : V}
    (reach : Reachable E entry y) (zero : rank y = 0) : y = entry :=
  num.inj y entry reach reachable_entry (zero.trans num.entry_rank.symm)

theorem approximates_entry [DecidableEq V] :
    Approximates E entry rank q (Function.update (fun _ => none) entry (some entry)) := by
  have only {y d : V} (h : Function.update (fun _ => none) entry (some entry) y = some d) :
      y = entry ∧ d = entry := by
    by_cases here : y = entry
    · rw [here, Function.update_self] at h
      exact ⟨here, (Option.some.inj h).symm⟩
    · rw [Function.update_of_ne here] at h
      cases h
  constructor
  · exact Function.update_self ..
  · intro y d h
    rw [(only h).1]
    exact reachable_entry
  · intro y d h
    rw [(only h).2, Function.update_self]
    rfl
  · intro y d h
    rw [(only h).1, (only h).2]
    exact .refl _
  · exact fun y d h differs => absurd (only h).1 differs
  · exact fun y d h differs => absurd (only h).1 differs
  · intro y known z dominates
    obtain ⟨d, h⟩ := Option.isSome_iff_exists.mp known
    obtain ⟨rfl, -⟩ := only h
    rw [mem_singleton.mp (dominates _ .start)]
    exact Chain.refl _

theorem Approximates.tight_one (num : Numbering E entry rank q)
    (h : Approximates E entry rank q dom) : Tight E entry rank q dom 1 := by
  constructor
  · intro y reach below
    rw [entry_of_rank num reach (Nat.lt_one_iff.mp below), h.root]
    rfl
  · intro y d reach differs below
    exact absurd (entry_of_rank num reach (Nat.lt_one_iff.mp below)) differs

theorem Approximates.dominates (num : Numbering E entry rank q)
    (h : Approximates E entry rank q dom)
    (fixed : ∀ x, Reachable E entry x → x ≠ entry → ∃ u, dom x = some u ∧ Meets E dom x u)
    {y z : V} {nodes : List V} (walk : Walk E entry y nodes) (chain : Chain dom y z) :
    z ∈ nodes := by
  have known {y : V} (reach : Reachable E entry y) : (dom y).isSome = true := by
    by_cases start : y = entry
    · rw [start, h.root]
      rfl
    · obtain ⟨u, parent, -⟩ := fixed y reach start
      rw [parent]
      rfl
  induction walk with
  | start =>
    have le := chain.rank_le num h reachable_entry
    have reach := ((chain.ancestor h).rank_le num reachable_entry).1
    rw [num.entry_rank] at le
    rw [entry_of_rank num reach (Nat.le_zero.mp le)]
    exact mem_cons_self
  | @step p x nodes walk edge ih =>
    by_cases same : x = z
    · rw [same]
      exact mem_cons_self
    · have reach : Reachable E entry x := ⟨_, walk.step edge⟩
      have differs : x ≠ entry := by
        rintro rfl
        have le := chain.rank_le num h reachable_entry
        rw [num.entry_rank] at le
        exact same (entry_of_rank num ((chain.ancestor h).rank_le num reach).1
          (Nat.le_zero.mp le)).symm
      obtain ⟨u, parent, meets⟩ := fixed x reach differs
      have up := (meets.2 z).mp (chain.parent same parent) p edge (known ⟨_, walk⟩)
      exact mem_cons_of_mem _ (ih up)

theorem Approximates.immediate (num : Numbering E entry rank q)
    (h : Approximates E entry rank q dom)
    (fixed : ∀ x, Reachable E entry x → x ≠ entry → ∃ u, dom x = some u ∧ Meets E dom x u)
    {x u : V} (differs : x ≠ entry) (parent : dom x = some u) :
    ImmediatelyDominates E entry u x := by
  have lower := h.lower x u parent differs
  have other : u ≠ x := by
    rintro rfl
    exact Nat.lt_irrefl _ lower
  refine ⟨⟨other, fun nodes walk => ?_⟩, fun z strict nodes walk => ?_⟩
  · exact h.dominates num fixed walk (Chain.head parent (Chain.refl u))
  · have chain := h.covers x (by rw [parent]; rfl) z strict.2
    exact h.dominates num fixed walk (chain.parent strict.1.symm parent)

end Update

end Numbered
end Dominators
