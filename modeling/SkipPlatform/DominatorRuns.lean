import SkipPlatform.DominatorOrder

set_option autoImplicit false

/-! The passes over the blocks end, with the immediate dominator of every reachable block. -/
namespace SkipPlatform.Dominator
open List Dominators
variable {f : Function} {entry : BlockID} {rpo : List BlockID} {q : BlockID → BlockID}
  {dom : BlockID → Option BlockID} {predecessors : BlockID → List BlockID}

structure Passed (f : Function) (entry : BlockID) (rpo : List BlockID) (q : BlockID → BlockID)
    (dom : BlockID → Option BlockID) (changed : Bool) (rest : List BlockID)
    (dom' : BlockID → Option BlockID) (changed' : Bool) : Prop where
  approx : Approximates f.Edge entry rpo.idxOf q dom'
  tight : Tight f.Edge entry rpo.idxOf q dom' rpo.length
  lower : ∀ y d, dom y = some d → ∃ d', dom' y = some d' ∧ rpo.idxOf d' ≤ rpo.idxOf d
  same : changed' = false → changed = false ∧ dom' = dom ∧
    ∀ x ∈ rest, ∃ u, dom x = some u ∧ Meets f.Edge dom x u
  strict : changed' = true → changed = true ∨ ∃ x ∈ rest, ∀ d, dom x = some d →
    ∃ d', dom' x = some d' ∧ rpo.idxOf d' < rpo.idxOf d

section Passes
variable (order : ReversePostorder f entry rpo) (num : Numbering f.Edge entry rpo.idxOf q)
include order

theorem mem_of_known (approx : Approximates f.Edge entry rpo.idxOf q dom) {b : BlockID}
    (known : (dom b).isSome = true) : b ∈ rpo := (order.mem b).mpr (approx.reachable known)

theorem idxOf_of_known (approx : Approximates f.Edge entry rpo.idxOf q dom) {b : BlockID}
    (known : (dom b).isSome = true) : rpo.idxOf b < rpo.length :=
  idxOf_lt_length_of_mem (mem_of_known order approx known)

include num

variable {fuel : ℕ}

theorem intersectDominators_meets (approx : Approximates f.Edge entry rpo.idxOf q dom)
    {b1 b2 : BlockID} (known1 : (dom b1).isSome = true)
    (known2 : (dom b2).isSome = true) (enough : rpo.idxOf b1 + rpo.idxOf b2 < fuel) :
    ∃ u, intersectDominators (indices rpo) dom fuel b1 b2 = some u ∧ (dom u).isSome = true ∧
      ∀ z, Chain dom u z ↔ Chain dom b1 z ∧ Chain dom b2 z := by
  -- a block with the higher index is not above the other one, so its parent replaces it
  have up {a b d : BlockID} (reach : Reachable f.Edge entry b) (parent : dom a = some d)
      (higher : rpo.idxOf b < rpo.idxOf a) (z : BlockID) :
      Chain dom d z ∧ Chain dom b z ↔ Chain dom a z ∧ Chain dom b z := by
    refine ⟨fun both => ⟨Chain.head parent both.1, both.2⟩, fun both => ⟨?_, both.2⟩⟩
    refine both.1.parent ?_ parent
    rintro rfl
    have le := both.2.rank_le num approx reach
    omega
  have notEntry {a b : BlockID} (higher : rpo.idxOf b < rpo.idxOf a) : a ≠ entry := by
    rintro rfl
    rw [num.entry_rank] at higher
    exact Nat.not_lt_zero _ higher
  induction fuel generalizing b1 b2 with
  | zero => exact absurd enough (Nat.not_lt_zero _)
  | succ fuel ih =>
    have reach1 := approx.reachable known1
    have reach2 := approx.reachable known2
    obtain ⟨d1, parent1⟩ := Option.isSome_iff_exists.mp known1
    obtain ⟨d2, parent2⟩ := Option.isSome_iff_exists.mp known2
    rw [intersectDominators, order.indices_eq (mem_of_known order approx known1),
      order.indices_eq (mem_of_known order approx known2)]
    by_cases same : b1 = b2
    · rw [if_pos same]
      exact ⟨b1, rfl, known1, fun z => by rw [same, and_self]⟩
    · rw [if_neg same]
      by_cases higher : rpo.idxOf b2 < rpo.idxOf b1
      · have lower := approx.lower b1 d1 parent1 (notEntry higher)
        obtain ⟨u, found, known, meets⟩ :=
          ih (approx.known b1 d1 parent1) known2 (by omega)
        rw [if_pos (Nat.cast_lt.mpr higher), parent1]
        exact ⟨u, found, known, fun z => (meets z).trans (up reach2 parent1 higher z)⟩
      · have apart : rpo.idxOf b1 ≠ rpo.idxOf b2 := fun ranks =>
          same (num.inj b1 b2 reach1 reach2 ranks)
        have higher' : rpo.idxOf b1 < rpo.idxOf b2 := by omega
        have lower := approx.lower b2 d2 parent2 (notEntry higher')
        obtain ⟨u, found, known, meets⟩ :=
          ih known1 (approx.known b2 d2 parent2) (by omega)
        rw [if_neg (fun less => higher (Nat.cast_lt.mp less)), parent2]
        refine ⟨u, found, known, fun z => (meets z).trans ?_⟩
        rw [and_comm, up reach1 parent2 higher' z, and_comm]

def Met (dom : BlockID → Option BlockID) (seen : List BlockID) : Option BlockID → Prop
  | none => ∀ p ∈ seen, dom p = none
  | some u => (dom u).isSome = true ∧
      ∀ z, Chain dom u z ↔ ∀ p ∈ seen, (dom p).isSome = true → Chain dom p z

theorem addDominator_met (approx : Approximates f.Edge entry rpo.idxOf q dom)
    (enough : 2 * rpo.length ≤ fuel) {seen : List BlockID} {newdom : Option BlockID}
    (met : Met dom seen newdom) (p : BlockID) :
    ∃ newdom', addDominator (indices rpo) dom fuel newdom p = some newdom' ∧
      Met dom (seen ++ [p]) newdom' := by
  unfold addDominator
  by_cases known : (dom p).isSome = true
  · rw [if_pos known]
    cases newdom with
    | none =>
      refine ⟨some p, rfl, known, fun z => ⟨fun chain p' member known' => ?_, fun all => ?_⟩⟩
      · rcases mem_append.mp member with member | member
        · rw [met p' member] at known'
          cases known'
        · rwa [mem_singleton.mp member]
      · exact all p (mem_append_right _ mem_cons_self) known
    | some d =>
      have first := idxOf_of_known order approx met.1
      have second := idxOf_of_known order approx known
      have below : rpo.idxOf d + rpo.idxOf p < fuel := by omega
      obtain ⟨u, found, known', meets⟩ :=
        intersectDominators_meets order num approx met.1 known below
      dsimp only
      rw [found]
      refine ⟨some u, rfl, known', fun z => ?_⟩
      rw [meets z, met.2 z]
      constructor
      · intro both p' member known'
        rcases mem_append.mp member with member | member
        · exact both.1 p' member known'
        · rw [mem_singleton.mp member]
          exact both.2
      · intro all
        exact ⟨fun p' member => all p' (mem_append_left _ member),
          all p (mem_append_right _ mem_cons_self) known⟩
  · rw [if_neg known]
    refine ⟨newdom, rfl, ?_⟩
    have unknown : dom p = none := Option.not_isSome_iff_eq_none.mp known
    cases newdom with
    | none =>
      intro p' member
      rcases mem_append.mp member with member | member
      · exact met p' member
      · rwa [mem_singleton.mp member]
    | some d =>
      refine ⟨met.1, fun z => (met.2 z).trans ⟨fun all p' member known' => ?_, fun all p' member =>
        all p' (mem_append_left _ member)⟩⟩
      rcases mem_append.mp member with member | member
      · exact all p' member known'
      · rw [mem_singleton.mp member] at known'
        exact absurd known' known

theorem foldlM_addDominator (approx : Approximates f.Edge entry rpo.idxOf q dom)
    (enough : 2 * rpo.length ≤ fuel) (rest : List BlockID) {seen : List BlockID}
    {newdom : Option BlockID} (met : Met dom seen newdom) :
    ∃ newdom', rest.foldlM (addDominator (indices rpo) dom fuel) newdom = some newdom' ∧
      Met dom (seen ++ rest) newdom' := by
  induction rest generalizing seen newdom with
  | nil => exact ⟨newdom, rfl, by rwa [append_nil]⟩
  | cons p rest ih =>
    obtain ⟨next, added, met⟩ := addDominator_met order num approx enough met p
    obtain ⟨last, folded, met⟩ := ih met
    rw [append_assoc] at met
    refine ⟨last, ?_, met⟩
    rw [foldlM_cons, added]
    exact folded

variable (mem : ∀ p b, p ∈ predecessors b ↔ p ∈ rpo ∧ f.Edge p b)
include mem

theorem newdom_meets (approx : Approximates f.Edge entry rpo.idxOf q dom)
    (enough : 2 * rpo.length ≤ fuel) {x : BlockID} (reach : Reachable f.Edge entry x)
    (differs : x ≠ entry) (tight : Tight f.Edge entry rpo.idxOf q dom (rpo.idxOf x)) :
    ∃ u, (predecessors x).foldlM (addDominator (indices rpo) dom fuel) none = some (some u) ∧
      Meets f.Edge dom x u := by
  have start : Met dom [] none := forall_mem_nil _
  obtain ⟨newdom, folded, met⟩ := foldlM_addDominator order num approx enough (predecessors x) start
  rw [nil_append] at met
  have reach' := num.reach x reach differs
  have known := tight.known _ reach' (num.earlier x reach differs)
  have member : q x ∈ predecessors x :=
    (mem _ _).mpr ⟨(order.mem _).mpr reach', num.edge x reach differs⟩
  cases newdom with
  | none =>
    rw [met _ member] at known
    cases known
  | some u =>
    refine ⟨u, folded, met.1, fun z => (met.2 z).trans ⟨fun all p edge known => ?_,
      fun all p member known => all p ((mem p x).mp member).2 known⟩⟩
    exact all p ((mem p x).mpr ⟨mem_of_known order approx known, edge⟩) known

theorem assignPass_passed (enough : 2 * rpo.length ≤ fuel) {seen rest : List BlockID}
    (split : rpo = seen ++ rest) (begun : seen ≠ []) {changed : Bool}
    (approx : Approximates f.Edge entry rpo.idxOf q dom)
    (tight : Tight f.Edge entry rpo.idxOf q dom seen.length) :
    ∃ dom' changed', assignPass predecessors (indices rpo) fuel rest dom changed =
      some (dom', changed') ∧ Passed f entry rpo q dom changed rest dom' changed' := by
  induction rest generalizing seen dom changed with
  | nil =>
    have length : rpo.length = seen.length :=
      congrArg List.length (split.trans (append_nil _))
    refine ⟨dom, changed, rfl, approx, ?_, ?_, ?_, ?_⟩
    · rw [length]
      exact tight
    · exact fun y d parent => ⟨d, parent, Nat.le_refl _⟩
    · exact fun same => ⟨same, rfl, forall_mem_nil _⟩
    · exact fun same => .inl same
  | cons x rest ih =>
    have nodup := order.nodup
    have head := order.head
    rw [split] at nodup
    have apart : x ∉ seen := fun member =>
      (nodup_append.mp nodup).2.2 x member x mem_cons_self rfl
    have rank : rpo.idxOf x = seen.length := by
      rw [split, idxOf_append_of_notMem apart, idxOf_cons_self, Nat.add_zero]
    have reach : Reachable f.Edge entry x := (order.mem x).mp
      (split ▸ mem_append_right _ mem_cons_self)
    have differs : x ≠ entry := by
      rintro rfl
      rw [split, List.head?_append_of_ne_nil _ begun] at head
      exact apart (mem_of_head? head)
    obtain ⟨u, folded, meets⟩ :=
      newdom_meets order num mem approx enough reach differs (rank ▸ tight)
    have step : Step f.Edge entry rpo.idxOf q dom seen.length x u :=
      ⟨num, approx, tight, reach, rank, differs, meets⟩
    have approx' := step.approximates
    have tight' := step.tight_next
    have split' : rpo = (seen ++ [x]) ++ rest := by
      rw [split, append_assoc]
      rfl
    have begun' : seen ++ [x] ≠ [] := append_ne_nil_of_right_ne_nil _ (cons_ne_nil _ _)
    have length : (seen ++ [x]).length = seen.length + 1 := length_append
    rw [assignPass, folded]
    change ∃ dom' changed', (if some u ≠ dom x then
      assignPass predecessors (indices rpo) fuel rest (Function.update dom x (some u)) true
        else assignPass predecessors (indices rpo) fuel rest dom changed) = _ ∧ _
    rw [← length] at tight'
    by_cases same : some u = dom x
    · rw [if_neg (not_not.mpr same)]
      rw [same, Function.update_eq_self] at approx' tight'
      obtain ⟨dom', changed', passed, h⟩ := ih split' begun' approx' tight'
      refine ⟨dom', changed', passed, h.approx, h.tight, h.lower, fun same' => ?_, fun yes => ?_⟩
      · obtain ⟨unchanged, kept, fixed⟩ := h.same same'
        refine ⟨unchanged, kept, fun y member => ?_⟩
        rcases mem_cons.mp member with rfl | member
        · exact ⟨u, same.symm, meets⟩
        · exact fixed y member
      · exact (h.strict yes).imp_right fun ⟨y, member, less⟩ =>
          ⟨y, mem_cons_of_mem _ member, less⟩
    · rw [if_pos same]
      have next : ∃ dom' changed', assignPass predecessors (indices rpo) fuel rest
          (Function.update dom x (some u)) true = some (dom', changed') ∧
            Passed f entry rpo q (Function.update dom x (some u)) true rest dom' changed' :=
        ih split' begun' approx' tight'
      obtain ⟨dom', changed', passed, h⟩ := next
      obtain ⟨d', parent', le⟩ := h.lower x u (Function.update_self ..)
      have old {d : BlockID} (parent : dom x = some d) : Reachable f.Edge entry d :=
        approx.reachable (approx.known x d parent)
      refine ⟨dom', changed', passed, h.approx, h.tight, fun y d parent => ?_, fun no => ?_,
        fun _ => .inr ⟨x, mem_cons_self, fun d parent => ?_⟩⟩
      · by_cases here : y = x
        · rw [here] at parent ⊢
          exact ⟨d', parent',
            Nat.le_trans le ((step.above parent).rank_le num approx (old parent))⟩
        · exact h.lower y d (by rw [Function.update_of_ne here, parent])
      · cases (h.same no).1
      · have other : d ≠ u := by
          rintro rfl
          exact same parent.symm
        exact ⟨d', parent', Nat.lt_of_le_of_lt le
          ((step.above parent).rank_lt approx num (old parent) other)⟩

def weight (rpo : List BlockID) (dom : BlockID → Option BlockID) : ℕ :=
  (rpo.map fun x => ((dom x).map rpo.idxOf).getD 0).sum

omit num mem in
theorem weight_le (approx : Approximates f.Edge entry rpo.idxOf q dom) :
    weight rpo dom ≤ rpo.length * rpo.length := by
  have each : ∀ n ∈ rpo.map fun x => ((dom x).map rpo.idxOf).getD 0, n ≤ rpo.length := by
    intro n member
    obtain ⟨x, -, rfl⟩ := mem_map.mp member
    cases parent : dom x with
    | none => exact Nat.zero_le _
    | some d => exact Nat.le_of_lt (idxOf_of_known order approx (approx.known x d parent))
  have bound := sum_le_card_nsmul _ _ each
  rwa [length_map, smul_eq_mul] at bound

omit order num mem in
theorem weight_lt {dom' : BlockID → Option BlockID} {x : BlockID} (member : x ∈ rpo)
    (lower : ∀ y d, dom y = some d → ∃ d', dom' y = some d' ∧ rpo.idxOf d' ≤ rpo.idxOf d)
    (all : ∀ y ∈ rpo, (dom y).isSome = true)
    (strict : ∀ d, dom x = some d → ∃ d', dom' x = some d' ∧ rpo.idxOf d' < rpo.idxOf d) :
    weight rpo dom' < weight rpo dom := by
  refine sum_lt_sum _ _ (fun y inside => ?_) ⟨x, member, ?_⟩
  · obtain ⟨d, parent⟩ := Option.isSome_iff_exists.mp (all y inside)
    obtain ⟨d', parent', le⟩ := lower y d parent
    rw [parent, parent']
    exact le
  · obtain ⟨d, parent⟩ := Option.isSome_iff_exists.mp (all x member)
    obtain ⟨d', parent', less⟩ := strict d parent
    rw [parent, parent']
    exact less

structure Assigned (f : Function) (entry : BlockID) (rpo : List BlockID) (q : BlockID → BlockID)
    (dom : BlockID → Option BlockID) : Prop where
  approx : Approximates f.Edge entry rpo.idxOf q dom
  fixed : ∀ x, Reachable f.Edge entry x → x ≠ entry → ∃ u, dom x = some u ∧ Meets f.Edge dom x u

omit num mem in
theorem tail_of_head : ∃ rest, rpo = entry :: rest ∧ rpo.tail = rest := by
  cases rpo with
  | nil => cases order.head
  | cons first rest =>
    cases order.head
    exact ⟨rest, rfl, rfl⟩

theorem assignPass_all (enough : 2 * rpo.length ≤ fuel)
    (approx : Approximates f.Edge entry rpo.idxOf q dom) :
    ∃ dom' changed', assignPass predecessors (indices rpo) fuel rpo.tail dom false =
      some (dom', changed') ∧ Passed f entry rpo q dom false rpo.tail dom' changed' := by
  obtain ⟨rest, split, tail⟩ := tail_of_head order
  rw [tail]
  exact assignPass_passed order num mem enough split (cons_ne_nil entry [])
    approx (approx.tight_one num)

omit num mem in
theorem assigned_of_same {dom' : BlockID → Option BlockID}
    (h : Passed f entry rpo q dom false rpo.tail dom' false) : Assigned f entry rpo q dom' := by
  obtain ⟨-, rfl, fixed⟩ := h.same rfl
  refine ⟨h.approx, fun x reach differs => fixed x ?_⟩
  obtain ⟨rest, split, tail⟩ := tail_of_head order
  have member := (order.mem x).mpr reach
  rw [split] at member
  rw [tail]
  exact (mem_cons.mp member).resolve_left differs

theorem assignDominators_known {fuel passes : ℕ} (enough : 2 * rpo.length ≤ fuel)
    (approx : Approximates f.Edge entry rpo.idxOf q dom) (all : ∀ y ∈ rpo, (dom y).isSome = true)
    (more : weight rpo dom < passes) :
    ∃ dom', assignDominators predecessors rpo (indices rpo) fuel passes dom = some dom' ∧
      Assigned f entry rpo q dom' := by
  induction passes generalizing dom with
  | zero => exact absurd more (Nat.not_lt_zero _)
  | succ passes ih =>
    obtain ⟨next, changed, passed, h⟩ := assignPass_all order num mem enough approx
    rw [assignDominators, passed]
    cases changed with
    | false => exact ⟨next, rfl, assigned_of_same order h⟩
    | true =>
      obtain ⟨x, member, less⟩ := (h.strict rfl).resolve_left Bool.false_ne_true
      have shrunk := weight_lt (mem_of_mem_tail member) h.lower all less
      exact ih h.approx (fun y inside => h.tight.known y ((order.mem y).mp inside)
        (idxOf_lt_length_of_mem inside)) (by omega)

theorem assignDominators_ends {fuel passes : ℕ} (enough : 2 * rpo.length ≤ fuel)
    (approx : Approximates f.Edge entry rpo.idxOf q dom)
    (more : rpo.length * rpo.length + 2 ≤ passes) :
    ∃ dom', assignDominators predecessors rpo (indices rpo) fuel passes dom = some dom' ∧
      Assigned f entry rpo q dom' := by
  obtain ⟨passes, rfl⟩ : ∃ n, passes = n + 1 := ⟨passes - 1, by omega⟩
  obtain ⟨next, changed, passed, h⟩ := assignPass_all order num mem enough approx
  rw [assignDominators, passed]
  cases changed with
  | false => exact ⟨next, rfl, assigned_of_same order h⟩
  | true =>
    have light := weight_le order h.approx
    exact assignDominators_known order num mem enough h.approx
      (fun y inside => h.tight.known y ((order.mem y).mp inside)
        (idxOf_lt_length_of_mem inside)) (by omega)

end Passes

theorem count_children (tree : BlockID → Option BlockID) {l : List BlockID} (nodup : l.Nodup)
    (children : BlockID → List BlockID) (parent child : BlockID) :
    (l.foldl (addChild tree) children parent).count child =
    (children parent).count child + if child ∈ l ∧ tree child = some parent then 1 else 0 := by
  induction l generalizing children with
  | nil => simp
  | cons x l ih =>
    rw [nodup_cons] at nodup
    rw [foldl_cons, ih nodup.2, addChild]
    by_cases here : child = x
    · subst here
      rw [if_neg fun both => nodup.1 both.1, Nat.add_zero]
      cases up : tree child with
      | none => simp
      | some d =>
        dsimp only
        by_cases same : parent = d
        · subst same
          rw [Function.update_self, count_cons_self, if_pos ⟨mem_cons_self, rfl⟩]
        · rw [Function.update_of_ne same, if_neg fun both => same (Option.some.inj both.2).symm,
            Nat.add_zero]
    · have inside : (child ∈ x :: l ∧ tree child = some parent) ↔
          (child ∈ l ∧ tree child = some parent) := by
        rw [mem_cons, or_iff_right here]
      rw [if_congr inside rfl rfl]
      congr 1
      cases up : tree x with
      | none => rfl
      | some d =>
        dsimp only
        by_cases same : parent = d
        · subst same
          rw [Function.update_self, count_cons_of_ne (Ne.symm here)]
        · rw [Function.update_of_ne same]

theorem reachable_block {f : Function} (h : f.WellFormed) {block : Block}
    (head : f.blocks.head? = some block) {x : BlockID} (reach : Reachable f.Edge block.id x) :
    ∃ b, f.getBlock x = some b := by
  obtain ⟨nodes, walk⟩ := reach
  cases walk with
  | start => exact ⟨block, f.getBlock_of_mem h.ids (mem_of_head? head)⟩
  | step _ edge => exact h.edge edge

theorem ReversePostorder.length_le {f : Function} (h : f.WellFormed) {block : Block}
    (head : f.blocks.head? = some block) {rpo : List BlockID}
    (order : ReversePostorder f block.id rpo) : rpo.length ≤ f.blocks.length := by
  have inside : rpo ⊆ f.blocks.map Block.id := by
    intro x member
    obtain ⟨b, found⟩ := reachable_block h head ((order.mem x).mp member)
    obtain ⟨rfl, listed⟩ := f.getBlock_id found
    exact mem_map_of_mem listed
  have short := (subperm_of_subset order.nodup inside).length_le
  rwa [length_map] at short

def Function.dominatorFuel (f : Function) : ℕ :=
  f.searchFuel + 2 * f.blocks.length + f.blocks.length * f.blocks.length + 2

theorem computeDominatorTree_ends {f : Function} (h : f.WellFormed) {block : Block}
    (head : f.blocks.head? = some block) {fuel : ℕ} (enough : f.dominatorFuel ≤ fuel) :
    ∃ rpo q dom, f.reversePostorder fuel = some rpo ∧ ReversePostorder f block.id rpo ∧
      Numbering f.Edge block.id rpo.idxOf q ∧ Assigned f block.id rpo q dom ∧
      f.computeDominatorTree fuel = some (Function.update dom block.id none) := by
  unfold Function.dominatorFuel at enough
  have searched : f.searchFuel ≤ fuel := by omega
  obtain ⟨rpo, ordered, order⟩ := reversePostorder_ends h head searched
  obtain ⟨q, num⟩ := order.numbering
  have short := order.length_le h head
  have square := Nat.mul_le_mul short short
  obtain ⟨predecessors, made, mem⟩ := mem_computePredecessors (f := f) (l := rpo)
    (fun p member => reachable_block h head ((order.mem p).mp member)) fun _ => []
  have mem : ∀ p b, p ∈ predecessors b ↔ p ∈ rpo ∧ f.Edge p b := fun p b =>
    (mem p b).trans (or_iff_right not_mem_nil)
  have walked : 2 * rpo.length ≤ fuel := by omega
  have passed : rpo.length * rpo.length + 2 ≤ fuel := by omega
  obtain ⟨dom, assigned, h'⟩ :=
    assignDominators_ends order num mem walked approximates_entry passed
  refine ⟨rpo, q, dom, ordered, order, num, h', ?_⟩
  rw [Function.computeDominatorTree, ordered]
  change (rpo.head?.bind _) = _
  rw [order.head]
  change (Option.bind (f.computePredecessors rpo) _) = _
  rw [Function.computePredecessors, made]
  change (Option.bind (assignDominators _ _ _ _ _ _) _) = _
  rw [assigned]
  rfl

/-- Every reachable block but the entry has its immediate dominator, which is one, in the tree, and
is listed once among the children of that block and nowhere else. -/
structure ExactTree (f : Function) (entry : BlockID) (rpo : List BlockID)
    (tree : BlockID → Option BlockID) : Prop where
  order : ReversePostorder f entry rpo
  immediate : ∀ x, Reachable f.Edge entry x → x ≠ entry → ∃ d, tree x = some d ∧
    ImmediatelyDominates f.Edge entry d x ∧ ∀ d', ImmediatelyDominates f.Edge entry d' x → d' = d
  absent : ∀ x, ¬ Reachable f.Edge entry x ∨ x = entry → tree x = none
  children : ∀ parent child, (computeDominatorChildren tree rpo parent).count child =
    if tree child = some parent then 1 else 0

/-- For every function the passes end, and with the fuel that they need the tree is exact. -/
theorem computeDominatorTree_exact {f : Function} (h : f.WellFormed) :
    ∃ entry enough, f.blocks.head?.map Block.id = some entry ∧ ∀ fuel, enough ≤ fuel →
      ∃ rpo tree, f.reversePostorder fuel = some rpo ∧ f.computeDominatorTree fuel = some tree ∧
        ExactTree f entry rpo tree := by
  cases head : f.blocks.head? with
  | none => exact absurd (List.head?_eq_none_iff.mp head) h.some
  | some block =>
    refine ⟨block.id, f.dominatorFuel, rfl, fun fuel enough => ?_⟩
    obtain ⟨rpo, q, dom, ordered, order, num, assigned, made⟩ :=
      computeDominatorTree_ends h head enough
    refine ⟨rpo, _, ordered, made, order, fun x reach differs => ?_, fun x apart => ?_,
      fun parent child => ?_⟩
    · obtain ⟨u, up, -⟩ := assigned.fixed x reach differs
      have immediate := assigned.approx.immediate num assigned.fixed differs up
      refine ⟨u, ?_, immediate, fun d' other => immediate.unique reach other⟩
      rw [Function.update_of_ne differs, up]
    · by_cases start : x = block.id
      · rw [start, Function.update_self]
      · rw [Function.update_of_ne start]
        have unreachable := apart.resolve_right start
        cases up : dom x with
        | none => rfl
        | some d => exact absurd (assigned.approx.reach x d up) unreachable
    · rw [computeDominatorChildren, count_children _ order.nodup, count_nil, Nat.zero_add]
      refine if_congr ⟨fun both => both.2, fun up => ⟨?_, up⟩⟩ rfl rfl
      by_cases start : child = block.id
      · rw [start, Function.update_self] at up
        cases up
      · rw [Function.update_of_ne start] at up
        exact (order.mem child).mpr (assigned.approx.reach child parent up)

/-- Two blocks that are entered together, edges that come twice, and a block that is not reached. -/
def sampleFunction : Function :=
  ⟨[⟨0, [1, 2, 2]⟩, ⟨1, [2]⟩, ⟨2, [1, 3]⟩, ⟨3, [0]⟩, ⟨4, [1]⟩]⟩

theorem sampleFunction_wellFormed : sampleFunction.WellFormed :=
  ⟨by decide, by decide, by decide⟩

theorem computeDominatorTree_exact_sample :
    ∃ entry enough, sampleFunction.blocks.head?.map Block.id = some entry ∧
      ∀ fuel, enough ≤ fuel → ∃ rpo tree, sampleFunction.reversePostorder fuel = some rpo ∧
        sampleFunction.computeDominatorTree fuel = some tree ∧
          ExactTree sampleFunction entry rpo tree :=
  computeDominatorTree_exact sampleFunction_wellFormed

end SkipPlatform.Dominator
