import SkipPlatform.DominatorTree

set_option autoImplicit false

/-! The search visits every reachable block once, and no block before all the blocks that it was
pushed from. -/
namespace SkipPlatform.Dominator
open List Dominators
variable {f : Function} {entry : BlockID}

def Search.ids (s : Search) : List BlockID := s.stack.map fun frame => frame.1.id

structure Search.Visiting (f : Function) (entry : BlockID) (s : Search) : Prop where
  pushed : ∀ x, s.pushed x = true ↔ x ∈ s.visited ∨ x ∈ s.ids
  nodup : (s.visited ++ s.ids).Nodup
  blocks : ∀ frame ∈ s.stack, f.getBlock frame.1.id = some frame.1 ∧
    frame.2 ≤ frame.1.successors.length
  reach : ∀ x, s.pushed x = true → Reachable f.Edge entry x
  seen : ∀ frame ∈ s.stack, ∀ y ∈ frame.1.successors.take frame.2, s.pushed y = true
  closed : ∀ x ∈ s.visited, ∀ y, f.Edge x y → s.pushed y = true
  links : s.stack.IsChain fun inner outer => f.Edge outer.1.id inner.1.id
  bottom : s.ids = [] ∧ s.visited.getLast? = some entry ∨ s.ids.getLast? = some entry
  later : ∀ before y after, s.visited = before ++ y :: after →
    y = entry ∨ ∃ q, f.Edge q y ∧ (q ∈ after ∨ q ∈ s.ids)

def unpushed (pushed : BlockID → Bool) (blocks : List Block) : ℕ :=
  ((blocks.filter fun b => !pushed b.id).map fun b => b.successors.length + 1).sum

def frames (stack : List (Block × ℕ)) : ℕ :=
  (stack.map fun frame => frame.1.successors.length - frame.2 + 1).sum

def Search.work (f : Function) (s : Search) : ℕ := unpushed s.pushed f.blocks + frames s.stack

theorem unpushed_update {pushed : BlockID → Bool} {blocks : List Block} {block : Block}
    (member : block ∈ blocks) (fresh : pushed block.id = false) :
    unpushed (Function.update pushed block.id true) blocks + (block.successors.length + 1) ≤
      unpushed pushed blocks := by
  have less (blocks : List Block) :
      unpushed (Function.update pushed block.id true) blocks ≤ unpushed pushed blocks := by
    induction blocks with
    | nil => exact Nat.le_refl _
    | cons b blocks ih =>
      unfold unpushed at ih ⊢
      by_cases here : b.id = block.id
      · rw [filter_cons_of_neg (by rw [here, Function.update_self]; decide),
          filter_cons_of_pos (by rw [here, fresh]; rfl), map_cons, sum_cons]
        omega
      · cases known : pushed b.id with
        | true =>
          rw [filter_cons_of_neg (by rw [Function.update_of_ne here, known]; decide),
            filter_cons_of_neg (by rw [known]; decide)]
          exact ih
        | false =>
          rw [filter_cons_of_pos (by rw [Function.update_of_ne here, known]; rfl),
            filter_cons_of_pos (by rw [known]; rfl), map_cons, map_cons,
            sum_cons, sum_cons]
          omega
  obtain ⟨before, after, rfl⟩ := append_of_mem member
  have first := less before
  have last := less after
  unfold unpushed at first last ⊢
  rw [filter_append, filter_append, map_append, map_append, sum_append,
    sum_append, filter_cons_of_neg (by rw [Function.update_self]; decide),
    filter_cons_of_pos (by rw [fresh]; rfl), map_cons, sum_cons]
  omega

namespace Search.Visiting
variable {s : Search} {b : Block} {i : ℕ} {stack : List (Block × ℕ)}

theorem ids_cons (top : s.stack = (b, i) :: stack) :
    s.ids = b.id :: stack.map fun frame => frame.1.id := by rw [ids, top, map_cons]

theorem bottom_cons (h : s.Visiting f entry) (top : s.stack = (b, i) :: stack) :
    (b.id :: stack.map fun frame => frame.1.id).getLast? = some entry := by
  rw [← ids_cons top]
  rcases h.bottom with ⟨none, -⟩ | last
  · rw [ids_cons top] at none
    cases none
  · exact last

theorem finish (h : s.Visiting f entry) (top : s.stack = (b, i) :: stack)
    (last : i = b.successors.length) :
    ({ s with stack := stack, visited := s.visited ++ [b.id] } : Search).Visiting f entry := by
  have here : (b, i) ∈ s.stack := top ▸ mem_cons_self
  have inner : ∀ frame ∈ stack, frame ∈ s.stack := fun frame member =>
    top ▸ mem_cons_of_mem _ member
  have pushed := h.pushed
  have nodup := h.nodup
  have links := h.links
  have later := h.later
  rw [ids_cons top] at pushed nodup later
  rw [top] at links
  constructor
  · intro x
    rw [pushed x, mem_append, mem_cons, mem_singleton, or_assoc]
    exact Iff.rfl
  · rw [append_assoc]
    exact nodup
  · exact fun frame member => h.blocks frame (inner frame member)
  · exact h.reach
  · exact fun frame member => h.seen frame (inner frame member)
  · intro x member y edge
    rcases mem_append.mp member with member | member
    · exact h.closed x member y edge
    · rw [mem_singleton.mp member] at edge
      obtain ⟨b', found, target⟩ := edge
      rw [(h.blocks _ here).1] at found
      cases found
      have all := h.seen _ here y
      dsimp only at all
      rw [last, take_length] at all
      exact all target
  · exact links.of_cons
  · have bottom := h.bottom_cons top
    cases stack with
    | nil => exact .inl ⟨rfl, by rw [List.getLast?_concat]; exact bottom⟩
    | cons frame stack =>
      right
      rw [map_cons, List.getLast?_cons_cons] at bottom
      exact bottom
  · intro before y after same
    cases after using List.reverseRecOn with
    | nil =>
      obtain ⟨-, last⟩ := append_inj' same rfl
      obtain rfl : b.id = y := head_eq_of_cons_eq last
      cases stack with
      | nil => exact .inl (Option.some.inj (h.bottom_cons top))
      | cons frame stack =>
        exact .inr ⟨frame.1.id, (isChain_cons_cons.mp links).1,
          .inr mem_cons_self⟩
    | append_singleton after z =>
      have same : s.visited ++ [b.id] = (before ++ y :: after) ++ [z] := by
        rw [append_assoc]
        exact same
      obtain ⟨visited, last⟩ := append_inj' same rfl
      obtain rfl : b.id = z := head_eq_of_cons_eq last
      refine (later before y after visited).imp_right fun ⟨q, edge, member⟩ => ⟨q, edge, ?_⟩
      rcases member with member | member
      · exact .inl (mem_append_left _ member)
      · rcases mem_cons.mp member with rfl | member
        · exact .inl (mem_append_right _ mem_cons_self)
        · exact .inr member

theorem mem_take_succ {l : List BlockID} {j : ℕ} {child y : BlockID} (next : l[j]? = some child)
    (member : y ∈ l.take (j + 1)) : y ∈ l.take j ∨ y = child := by
  rw [take_add_one, next] at member
  exact (mem_append.mp member).imp_right mem_singleton.mp

theorem skip (h : s.Visiting f entry) (top : s.stack = (b, i) :: stack) {child : BlockID}
    (next : b.successors[i]? = some child) (known : s.pushed child = true) :
    ({ s with stack := (b, i + 1) :: stack } : Search).Visiting f entry := by
  have here : (b, i) ∈ s.stack := top ▸ mem_cons_self
  have inner : ∀ frame ∈ stack, frame ∈ s.stack := fun frame member =>
    top ▸ mem_cons_of_mem _ member
  have same : ({ s with stack := (b, i + 1) :: stack } : Search).ids = s.ids := by
    rw [ids_cons top, ids, map_cons]
  have links := h.links
  rw [top] at links
  constructor
  · rw [same]
    exact h.pushed
  · rw [same]
    exact h.nodup
  · intro frame member
    rcases mem_cons.mp member with rfl | member
    · exact ⟨(h.blocks _ here).1, (List.getElem?_eq_some_iff.mp next).1⟩
    · exact h.blocks frame (inner frame member)
  · exact h.reach
  · intro frame member y target
    rcases mem_cons.mp member with rfl | member
    · rcases mem_take_succ next target with target | rfl
      · exact h.seen _ here y target
      · exact known
    · exact h.seen frame (inner frame member) y target
  · exact h.closed
  · cases stack with
    | nil => exact List.IsChain.singleton _
    | cons frame stack =>
      rw [isChain_cons_cons] at links ⊢
      exact links
  · rw [same]
    exact h.bottom
  · rw [same]
    exact h.later

theorem push (h : s.Visiting f entry) (top : s.stack = (b, i) :: stack) {child : BlockID}
    {block : Block} (next : b.successors[i]? = some child) (fresh : s.pushed child = false)
    (found : f.getBlock child = some block) :
    ({ s with
        stack := (block, 0) :: (b, i + 1) :: stack
        pushed := Function.update s.pushed child true } : Search).Visiting f entry := by
  have here : (b, i) ∈ s.stack := top ▸ mem_cons_self
  have inner : ∀ frame ∈ stack, frame ∈ s.stack := fun frame member =>
    top ▸ mem_cons_of_mem _ member
  have id := (f.getBlock_id found).1
  have same : ({ s with
      stack := (block, 0) :: (b, i + 1) :: stack
      pushed := Function.update s.pushed child true } : Search).ids = child :: s.ids := by
    rw [ids_cons top, ids, map_cons, map_cons, id]
  have edge : f.Edge b.id child :=
    ⟨b, (h.blocks _ here).1, mem_of_getElem? next⟩
  have more {x : BlockID} (known : s.pushed x = true) :
      Function.update s.pushed child true x = true := by
    by_cases this : x = child
    · rw [this, Function.update_self]
    · rw [Function.update_of_ne this, known]
  have apart : ¬ (child ∈ s.visited ∨ child ∈ s.ids) := by
    rw [← h.pushed child, fresh]
    exact Bool.false_ne_true
  have links := h.links
  rw [top] at links
  constructor
  · intro x
    rw [same, mem_cons]
    by_cases this : x = child
    · rw [this]
      simp
    · dsimp only
      rw [Function.update_of_ne this, h.pushed x]
      exact or_congr_right ⟨.inr, fun member => member.resolve_left this⟩
  · rw [same]
    refine (perm_middle.nodup_iff).mpr (nodup_cons.mpr ⟨?_, h.nodup⟩)
    rw [mem_append]
    exact apart
  · intro frame member
    rcases mem_cons.mp member with rfl | member
    · exact ⟨id ▸ found, Nat.zero_le _⟩
    · rcases mem_cons.mp member with rfl | member
      · exact ⟨(h.blocks _ here).1, (List.getElem?_eq_some_iff.mp next).1⟩
      · exact h.blocks frame (inner frame member)
  · intro x known
    by_cases this : x = child
    · rw [this]
      refine (h.reach b.id ((h.pushed _).mpr (.inr ?_))).step edge
      rw [ids_cons top]
      exact mem_cons_self
    · dsimp only at known
      rw [Function.update_of_ne this] at known
      exact h.reach x known
  · intro frame member y target
    rcases mem_cons.mp member with rfl | member
    · rw [take_zero] at target
      cases target
    · rcases mem_cons.mp member with rfl | member
      · rcases mem_take_succ next target with target | rfl
        · exact more (h.seen _ here y target)
        · exact Function.update_self ..
      · exact more (h.seen frame (inner frame member) y target)
  · exact fun x member y edge => more (h.closed x member y edge)
  · refine isChain_cons_cons.mpr ⟨by rw [id]; exact edge, ?_⟩
    cases stack with
    | nil => exact List.IsChain.singleton _
    | cons frame stack =>
      rw [isChain_cons_cons] at links ⊢
      exact links
  · right
    have bottom := h.bottom_cons top
    rw [same, ids_cons top, List.getLast?_cons_cons]
    exact bottom
  · intro before y after visited
    refine (h.later before y after visited).imp_right fun ⟨q, edge, member⟩ => ⟨q, edge, ?_⟩
    rw [same]
    exact member.imp_right (mem_cons_of_mem _)

end Search.Visiting

variable {stack : List (Block × ℕ)} {s : Search}

theorem work_finish {b : Block} {i : ℕ}
    (top : s.stack = (b, i) :: stack) :
    ({ s with stack := stack, visited := s.visited ++ [b.id] } : Search).work f < s.work f := by
  rw [Search.work, Search.work, top]
  simp only [frames, map_cons, sum_cons]
  omega

theorem work_skip {b : Block} {i : ℕ}
    (top : s.stack = (b, i) :: stack) (more : i < b.successors.length) :
    ({ s with stack := (b, i + 1) :: stack } : Search).work f < s.work f := by
  rw [Search.work, Search.work, top]
  simp only [frames, map_cons, sum_cons]
  omega

theorem work_push {b block : Block} {i : ℕ}
    (top : s.stack = (b, i) :: stack) (more : i < b.successors.length) (member : block ∈ f.blocks)
    (fresh : s.pushed block.id = false) :
    ({ s with
        stack := (block, 0) :: (b, i + 1) :: stack
        pushed := Function.update s.pushed block.id true } : Search).work f < s.work f := by
  have less := unpushed_update member fresh
  rw [Search.work, Search.work, top]
  simp only [frames, map_cons, sum_cons]
  omega

theorem search_ends (h : f.WellFormed) {fuel : ℕ} (visiting : s.Visiting f entry)
    (enough : s.work f < fuel) :
    ∃ t : Search, f.search fuel s = some t.visited ∧ t.stack = [] ∧ t.Visiting f entry := by
  induction fuel generalizing s with
  | zero => exact absurd enough (Nat.not_lt_zero _)
  | succ fuel ih =>
    unfold Function.search
    cases top : s.stack with
    | nil => exact ⟨s, rfl, top, visiting⟩
    | cons frame stack =>
      obtain ⟨b, i⟩ := frame
      have here : (b, i) ∈ s.stack := top ▸ mem_cons_self
      have bound := (visiting.blocks _ here).2
      dsimp only at bound ⊢
      by_cases last : i = b.successors.length
      · rw [if_pos last]
        have less := work_finish (f := f) top
        exact ih (visiting.finish top last) (by omega)
      · rw [if_neg last]
        have more : i < b.successors.length := by omega
        have next : b.successors[i]? = some b.successors[i] := List.getElem?_eq_getElem more
        rw [next]
        change ∃ t : Search, (if s.pushed b.successors[i] = true then _ else _) = _ ∧ _
        cases known : s.pushed b.successors[i] with
        | true =>
          have less := work_skip (f := f) top more
          rw [if_pos rfl]
          exact ih (visiting.skip top next known) (by omega)
        | false =>
          have edge : f.Edge b.id b.successors[i] :=
            ⟨b, (visiting.blocks _ here).1, getElem_mem more⟩
          obtain ⟨block, found⟩ := h.edge edge
          obtain ⟨id, member⟩ := f.getBlock_id found
          have less := work_push top more member (by rw [id, known])
          rw [if_neg Bool.false_ne_true, found]
          rw [id] at less
          exact ih (visiting.push top next known found) (by omega)

/-- Every reachable block is listed once, the entry first, and each other block after one of its
predecessors. -/
structure ReversePostorder (f : Function) (entry : BlockID) (rpo : List BlockID) : Prop where
  nodup : rpo.Nodup
  head : rpo.head? = some entry
  mem : ∀ x, x ∈ rpo ↔ Reachable f.Edge entry x
  earlier : ∀ y ∈ rpo, y ≠ entry → ∃ q ∈ rpo, f.Edge q y ∧ rpo.idxOf q < rpo.idxOf y

theorem idxOf_lt_of_reverse {before after : List BlockID} {q y : BlockID}
    (nodup : (before ++ y :: after).Nodup) (member : q ∈ after) :
    (before ++ y :: after).reverse.idxOf q < (before ++ y :: after).reverse.idxOf y := by
  have apart : y ∉ after.reverse := by
    rw [mem_reverse]
    exact (nodup_cons.mp (nodup_append.mp nodup).2.1).1
  have inside : q ∈ after.reverse := mem_reverse.mpr member
  have split : (before ++ y :: after).reverse = after.reverse ++ y :: before.reverse := by
    rw [reverse_append, reverse_cons, append_assoc]
    rfl
  rw [split, idxOf_append_of_mem inside, idxOf_append_of_notMem apart]
  exact Nat.lt_of_lt_of_le (idxOf_lt_length_of_mem inside) (Nat.le_add_right _ _)

theorem Search.Visiting.order {t : Search} (h : t.Visiting f entry) (empty : t.stack = []) :
    ReversePostorder f entry t.visited.reverse := by
  have ids : t.ids = [] := by rw [Search.ids, empty, map_nil]
  have nodup := h.nodup
  have pushed : ∀ x, t.pushed x = true ↔ x ∈ t.visited := fun x => by
    rw [h.pushed x, ids]
    exact or_iff_left not_mem_nil
  have last : t.visited.getLast? = some entry := by
    rcases h.bottom with ⟨-, last⟩ | bottom
    · exact last
    · rw [ids] at bottom
      cases bottom
  rw [ids, append_nil] at nodup
  constructor
  · exact nodup_reverse.mpr nodup
  · rw [List.head?_reverse]
    exact last
  · intro x
    rw [mem_reverse]
    refine ⟨fun member => h.reach x ((pushed x).mpr member), fun reach => ?_⟩
    obtain ⟨nodes, walk⟩ := reach
    induction walk with
    | start => exact mem_of_getLast? last
    | step _ edge ih => exact (pushed _).mp (h.closed _ ih _ edge)
  · intro y member differs
    obtain ⟨before, after, split⟩ := append_of_mem (mem_reverse.mp member)
    obtain ⟨q, edge, later⟩ := (h.later before y after split).resolve_left differs
    rw [ids] at later
    have later := later.resolve_right not_mem_nil
    rw [split] at nodup
    refine ⟨q, ?_, edge, ?_⟩
    · rw [mem_reverse, split]
      exact mem_append_right _ (mem_cons_of_mem _ later)
    · rw [split]
      exact idxOf_lt_of_reverse nodup later

theorem visiting_start {block : Block} (found : f.getBlock block.id = some block) :
    ({ stack := [(block, 0)]
       pushed := Function.update (fun _ => false) block.id true
       visited := [] } : Search).Visiting f block.id := by
  constructor
  · intro x
    simp only [Search.ids, map_cons, map_nil, mem_singleton, not_mem_nil,
      false_or]
    by_cases here : x = block.id
    · rw [here, Function.update_self]
      exact ⟨fun _ => rfl, fun _ => rfl⟩
    · rw [Function.update_of_ne here]
      exact ⟨fun wrong => absurd wrong Bool.false_ne_true, fun this => absurd this here⟩
  · exact nodup_singleton _
  · intro frame member
    rw [mem_singleton.mp member]
    exact ⟨found, Nat.zero_le _⟩
  · intro x known
    by_cases here : x = block.id
    · rw [here]
      exact reachable_entry
    · dsimp only at known
      rw [Function.update_of_ne here] at known
      cases known
  · intro frame member y target
    rw [mem_singleton.mp member] at target
    cases target
  · exact fun x member => absurd member not_mem_nil
  · exact List.IsChain.singleton _
  · exact .inr rfl
  · intro before y after same
    exact absurd same.symm (append_ne_nil_of_right_ne_nil _ (cons_ne_nil _ _))

def Function.searchFuel (f : Function) : ℕ :=
  2 * (f.blocks.map fun b => b.successors.length + 1).sum + 1

theorem unpushed_le (pushed : BlockID → Bool) (blocks : List Block) :
    unpushed pushed blocks ≤ (blocks.map fun b => b.successors.length + 1).sum :=
  (List.filter_sublist.map _).sum_le_sum fun _ _ => Nat.zero_le _

theorem reversePostorder_ends (h : f.WellFormed) {block : Block} (head : f.blocks.head? = some block)
    {fuel : ℕ} (enough : f.searchFuel ≤ fuel) : ∃ rpo, f.reversePostorder fuel = some rpo ∧
      ReversePostorder f block.id rpo := by
  have member := mem_of_head? head
  have visiting := visiting_start (f.getBlock_of_mem h.ids member)
  have work : ({ stack := [(block, 0)]
                 pushed := Function.update (fun _ => false) block.id true
                 visited := [] } : Search).work f < fuel := by
    have all := unpushed_le (Function.update (fun _ => false) block.id true) f.blocks
    have one : block.successors.length + 1 ≤
        (f.blocks.map fun b => b.successors.length + 1).sum :=
      single_le_sum (fun _ _ => Nat.zero_le _) _ (mem_map_of_mem member)
    unfold Function.searchFuel at enough
    simp only [Search.work, frames, map_cons, map_nil, sum_cons, sum_nil]
    omega
  obtain ⟨t, searched, empty, visiting⟩ := search_ends h visiting work
  have order := visiting.order empty
  refine ⟨t.visited.reverse, ?_, order⟩
  rw [Function.reversePostorder, head]
  change (f.search fuel _).bind _ = _
  rw [searched, Option.bind_some, if_pos order.head]

theorem ReversePostorder.numbering {rpo : List BlockID} (h : ReversePostorder f entry rpo) :
    ∃ q, Numbering f.Edge entry rpo.idxOf q := by
  have choice : ∀ y, ∃ q, y ∈ rpo → y ≠ entry →
      q ∈ rpo ∧ f.Edge q y ∧ rpo.idxOf q < rpo.idxOf y := by
    intro y
    by_cases both : y ∈ rpo ∧ y ≠ entry
    · obtain ⟨q, member, edge, less⟩ := h.earlier y both.1 both.2
      exact ⟨q, fun _ _ => ⟨member, edge, less⟩⟩
    · exact ⟨y, fun member differs => absurd ⟨member, differs⟩ both⟩
  choose q pred using choice
  refine ⟨q, ?_, ?_, ?_, ?_, ?_⟩
  · intro x y hx hy same
    exact (idxOf_inj ((h.mem x).mpr hx)).mp same
  · cases rpo with
    | nil => cases h.head
    | cons first rest =>
      cases h.head
      exact idxOf_cons_self
  · exact fun y reach differs => (pred y ((h.mem y).mpr reach) differs).2.1
  · exact fun y reach differs => (h.mem _).mp (pred y ((h.mem y).mpr reach) differs).1
  · exact fun y reach differs => (pred y ((h.mem y).mpr reach) differs).2.2

theorem mem_addPredecessor {id target p b : BlockID} {predecessors : BlockID → List BlockID} :
    p ∈ addPredecessor id predecessors target b ↔
      p ∈ predecessors b ∨ p = id ∧ b = target := by
  unfold addPredecessor
  by_cases here : b = target
  · subst here
    split
    · rename_i known
      have member := mem_of_head? known
      refine ⟨.inl, fun either => either.elim (fun member => member) fun this => ?_⟩
      rw [this.1]
      exact member
    · rw [Function.update_self, mem_cons]
      exact ⟨fun either => either.symm.imp_right fun same => ⟨same, rfl⟩,
        fun either => either.symm.imp_left fun both => both.1⟩
  · have apart : (p ∈ predecessors b ∨ p = id ∧ b = target) ↔ p ∈ predecessors b :=
      or_iff_left fun both => here both.2
    rw [apart]
    split
    · exact Iff.rfl
    · rw [Function.update_of_ne here]

theorem mem_addPredecessors {id p b : BlockID} (targets : List BlockID)
    (predecessors : BlockID → List BlockID) :
    p ∈ targets.foldl (addPredecessor id) predecessors b ↔
      p ∈ predecessors b ∨ p = id ∧ b ∈ targets := by
  induction targets generalizing predecessors with
  | nil => exact (or_iff_left fun both => not_mem_nil both.2).symm
  | cons target targets ih =>
    rw [foldl_cons, ih, mem_addPredecessor, mem_cons, or_assoc, ← and_or_left]

theorem mem_computePredecessors {l : List BlockID} (all : ∀ p ∈ l, ∃ b, f.getBlock p = some b)
    (predecessors : BlockID → List BlockID) : ∃ predecessors',
      l.foldlM (fun predecessors blockID => do
        let b ← f.getBlock blockID
        some (b.successors.foldl (addPredecessor b.id) predecessors)) predecessors =
          some predecessors' ∧
      ∀ p b, p ∈ predecessors' b ↔ p ∈ predecessors b ∨ p ∈ l ∧ f.Edge p b := by
  induction l generalizing predecessors with
  | nil => exact ⟨predecessors, rfl, fun p b => (or_iff_left fun both => not_mem_nil both.1).symm⟩
  | cons id l ih =>
    obtain ⟨block, found⟩ := all id mem_cons_self
    obtain ⟨predecessors', made, mem⟩ := ih (fun p member => all p (mem_cons_of_mem _ member))
      (block.successors.foldl (addPredecessor block.id) predecessors)
    refine ⟨predecessors', ?_, fun p b => ?_⟩
    · rw [foldlM_cons, found]
      exact made
    · rw [mem p b, mem_addPredecessors, (f.getBlock_id found).1, mem_cons, or_assoc]
      refine or_congr_right ⟨fun either => ?_, fun both => ?_⟩
      · rcases either with ⟨rfl, target⟩ | ⟨member, edge⟩
        · exact ⟨.inl rfl, block, found, target⟩
        · exact ⟨.inr member, edge⟩
      · obtain ⟨rfl | member, edge⟩ := both
        · obtain ⟨block', found', target⟩ := edge
          rw [found] at found'
          cases found'
          exact .inl ⟨rfl, target⟩
        · exact .inr ⟨member, edge⟩

theorem indices_mem {l : List BlockID} (nodup : l.Nodup) (i : ℕ) (m : BlockID → ℤ) (b : BlockID) :
    (l.zipIdx i).foldl (fun rpoIndex bi => Function.update rpoIndex bi.1 bi.2) m b =
      if b ∈ l then (i + l.idxOf b : ℤ) else m b := by
  induction l generalizing i m with
  | nil => rfl
  | cons x l ih =>
    rw [nodup_cons] at nodup
    rw [zipIdx_cons, foldl_cons, ih nodup.2]
    by_cases here : b = x
    · subst here
      rw [if_neg nodup.1, if_pos mem_cons_self, Function.update_self, idxOf_cons_self]
      simp
    · rw [Function.update_of_ne here]
      by_cases member : b ∈ l
      · rw [if_pos member, if_pos (mem_cons_of_mem _ member),
          idxOf_cons_ne _ (Ne.symm here)]
        push_cast
        ring
      · rw [if_neg member, if_neg (fun both => (mem_cons.mp both).elim here member)]

theorem ReversePostorder.indices_eq {rpo : List BlockID} (h : ReversePostorder f entry rpo)
    {b : BlockID} (member : b ∈ rpo) : indices rpo b = (rpo.idxOf b : ℤ) := by
  rw [indices, indices_mem h.nodup, if_pos member]
  simp

end SkipPlatform.Dominator
