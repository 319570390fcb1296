import Mathlib.Logic.Relation
import Mathlib.Data.List.Basic
import Mathlib.Tactic

set_option autoImplicit false

/-! Marking with a stack: a node is marked when it is pushed, and what it leads to is marked when it
is popped. -/
namespace SkipPlatform.MarkStack
open List

variable {V : Type}

structure Marks (V : Type) where
  marked : V → Bool
  stack : List V

def Marks.mark [DecidableEq V] (m : Marks V) (v : V) : Marks V :=
  if m.marked v then m else ⟨Function.update m.marked v true, v :: m.stack⟩

/-- Pops until the stack is empty. A node that is not known makes it fail. -/
def drain [DecidableEq V] (next : V → Option (List V)) : ℕ → Marks V → Option (V → Bool)
  | 0, _ => none
  | fuel + 1, m =>
    match m.stack with
    | [] => some m.marked
    | v :: stack => do
        let out ← next v
        drain next fuel (out.foldl Marks.mark { m with stack := stack })

def markRoots [DecidableEq V] (next : V → Option (List V)) (fuel : ℕ) (roots : List V)
    (marked : V → Bool) : Option (V → Bool) :=
  roots.foldlM (fun marked root => drain next fuel (Marks.mark ⟨marked, []⟩ root)) marked

def Leads (next : V → Option (List V)) (x y : V) : Prop := ∃ out, next x = some out ∧ y ∈ out

def Linked (next : V → Option (List V)) (roots : List V) (y : V) : Prop :=
  ∃ root ∈ roots, Relation.ReflTransGen (Leads next) root y

theorem Linked.root {next : V → Option (List V)} {roots : List V} {y : V} (h : y ∈ roots) :
    Linked next roots y := ⟨y, h, .refl⟩

theorem Linked.step {next : V → Option (List V)} {roots : List V} {x y : V}
    (h : Linked next roots x) (leads : Leads next x y) : Linked next roots y := by
  obtain ⟨root, member, chain⟩ := h
  exact ⟨root, member, chain.tail leads⟩

def Closed (next : V → Option (List V)) (marked : V → Bool) (v : V) : Prop :=
  ∃ out, next v = some out ∧ ∀ y ∈ out, marked y = true

theorem Closed.mono {next : V → Option (List V)} {marked marked' : V → Bool} {v : V}
    (h : Closed next marked v) (more : ∀ y, marked y = true → marked' y = true) :
    Closed next marked' v := by
  obtain ⟨out, known, all⟩ := h
  exact ⟨out, known, fun y member => more y (all y member)⟩

/-- The nodes that are pushed are marked, the other marked nodes are done with. -/
structure Marks.Pending (next : V → Option (List V)) (m : Marks V) : Prop where
  stack : ∀ v ∈ m.stack, m.marked v = true
  done : ∀ v, m.marked v = true → v ∈ m.stack ∨ Closed next m.marked v

structure Known (next : V → Option (List V)) (nodes : List V) : Prop where
  next : ∀ v ∈ nodes, ∃ out, next v = some out ∧ ∀ y ∈ out, y ∈ nodes

def Marks.work (nodes : List V) (m : Marks V) : ℕ :=
  m.stack.length + (nodes.filter fun v => !m.marked v).length

section mark
variable [DecidableEq V] {nodes : List V}

variable (m : Marks V)

theorem Marks.marked_mark (v y : V) :
    (m.mark v).marked y = true ↔ m.marked y = true ∨ y = v := by
  unfold Marks.mark
  split
  · rename_i known
    refine ⟨.inl, fun either => either.elim id fun same => ?_⟩
    rw [same]
    exact known
  · by_cases same : y = v
    · rw [same]
      simp
    · simp [same]

theorem Marks.mem_stack_mark (v y : V) (h : y ∈ (m.mark v).stack) :
    y ∈ m.stack ∨ y = v := by
  unfold Marks.mark at h
  split at h
  · exact .inl h
  · exact (mem_cons.mp h).symm

theorem Marks.mem_stack_or (v y : V) (h : (m.mark v).marked y = true) :
    m.marked y = true ∨ y ∈ (m.mark v).stack := by
  unfold Marks.mark at h ⊢
  split
  · rename_i known
    rw [if_pos known] at h
    exact .inl h
  · rename_i unknown
    rw [if_neg unknown] at h
    by_cases same : y = v
    · exact .inr (same ▸ mem_cons_self)
    · exact .inl (by simpa [Function.update_of_ne same] using h)

theorem Marks.stack_mark (v y : V) (h : y ∈ m.stack) : y ∈ (m.mark v).stack := by
  unfold Marks.mark
  split
  · exact h
  · exact mem_cons_of_mem _ h

theorem Marks.work_mark {v : V} (member : v ∈ nodes) :
    (m.mark v).work nodes ≤ m.work nodes := by
  unfold Marks.mark
  split
  · exact le_rfl
  · rename_i unknown
    have unmarked : m.marked v = false := Bool.eq_false_iff.mpr unknown
    have fewer : (nodes.filter fun y => !(Function.update m.marked v true) y).length <
        (nodes.filter fun y => !m.marked y).length := by
      have same : (nodes.filter fun y => !(Function.update m.marked v true) y) =
          (nodes.filter fun y => !m.marked y).filter fun y => decide (y ≠ v) := by
        rw [filter_filter]
        refine filter_congr fun y _ => ?_
        by_cases here : y = v
        · simp [here]
        · simp [here]
      rw [same]
      refine length_filter_lt_length_iff_exists.mpr ⟨v, ?_, ?_⟩
      · exact mem_filter.mpr ⟨member, by rw [unmarked]; rfl⟩
      · simp
    simp only [Marks.work, length_cons]
    omega

end mark

theorem Closed.chain {next : V → Option (List V)} {marked : V → Bool}
    (closed : ∀ y, marked y = true → Closed next marked y) {x y : V} (start : marked x = true)
    (chain : Relation.ReflTransGen (Leads next) x y) : marked y = true := by
  induction chain with
  | refl => exact start
  | tail _ leads ih =>
    obtain ⟨out, known, member⟩ := leads
    obtain ⟨out', known', all⟩ := closed _ ih
    rw [known] at known'
    cases known'
    exact all _ member

section run
variable [DecidableEq V] {next : V → Option (List V)} {nodes : List V}

theorem foldl_mark {out : List V} (inside : ∀ y ∈ out, y ∈ nodes) (m : Marks V) :
    (∀ y, (out.foldl Marks.mark m).marked y = true ↔ m.marked y = true ∨ y ∈ out) ∧
    (∀ y ∈ (out.foldl Marks.mark m).stack, y ∈ m.stack ∨ y ∈ out) ∧
    (∀ y, (out.foldl Marks.mark m).marked y = true →
      m.marked y = true ∨ y ∈ (out.foldl Marks.mark m).stack) ∧
    (∀ y ∈ m.stack, y ∈ (out.foldl Marks.mark m).stack) ∧
    (out.foldl Marks.mark m).work nodes ≤ m.work nodes := by
  induction out generalizing m with
  | nil => exact ⟨fun y => by simp, fun y h => .inl h, fun y h => .inl h, fun y h => h, le_rfl⟩
  | cons v out ih =>
    obtain ⟨marked, stack, pushed, kept, work⟩ :=
      ih (fun y member => inside y (mem_cons_of_mem _ member)) (m.mark v)
    rw [foldl_cons]
    refine ⟨fun y => ?_, fun y member => ?_, fun y this => ?_, fun y member => ?_, ?_⟩
    · rw [marked, m.marked_mark, mem_cons, or_assoc]
    · rcases stack y member with member | member
      · exact (m.mem_stack_mark v y member).imp_right fun same => mem_cons.mpr (.inl same)
      · exact .inr (mem_cons_of_mem _ member)
    · rcases pushed y this with this | member
      · exact (m.mem_stack_or v y this).imp_right (kept y)
      · exact .inr member
    · exact kept y (m.stack_mark v y member)
    · exact work.trans (m.work_mark (inside v mem_cons_self))

theorem Marks.Pending.pop {m : Marks V} (h : m.Pending next) {v : V} {stack out : List V}
    (top : m.stack = v :: stack) (known : next v = some out) (inside : ∀ y ∈ out, y ∈ nodes) :
    (out.foldl Marks.mark { m with stack := stack }).Pending next := by
  obtain ⟨marked, mem, pushed, kept, -⟩ := foldl_mark inside { m with stack := stack }
  refine ⟨fun y member => ?_, fun y this => ?_⟩
  · rcases mem y member with old | new
    · have before : y ∈ m.stack := by
        rw [top]
        exact mem_cons_of_mem _ old
      exact (marked y).mpr (.inl (h.stack y before))
    · exact (marked y).mpr (.inr new)
  · rcases pushed y this with before | member
    · rcases h.done y before with member | closed
      · rw [top] at member
        rcases mem_cons.mp member with rfl | member
        · exact .inr ⟨out, known, fun z inner => (marked z).mpr (.inr inner)⟩
        · exact .inl (kept y member)
      · exact .inr (closed.mono fun z this => (marked z).mpr (.inl this))
    · exact .inl member

/-- The marks that a run ends with: those it began with, and those that the stack leads to. -/
structure Drained (next : V → Option (List V)) (m : Marks V) (marked : V → Bool) : Prop where
  more : ∀ y, m.marked y = true → marked y = true
  sound : ∀ y, marked y = true → m.marked y = true ∨ Linked next m.stack y
  closed : ∀ y, marked y = true → Closed next marked y

theorem drain_ends (h : Known next nodes) {fuel : ℕ} {m : Marks V} (pending : m.Pending next)
    (inside : ∀ v ∈ m.stack, v ∈ nodes) (enough : m.work nodes < fuel) :
    ∃ marked, drain next fuel m = some marked ∧ Drained next m marked := by
  induction fuel generalizing m with
  | zero => omega
  | succ fuel ih =>
    cases top : m.stack with
    | nil =>
      refine ⟨m.marked, ?_, fun y this => this, fun y this => .inl this, fun y this => ?_⟩
      · rw [drain, top]
      · exact (pending.done y this).resolve_left fun member => by
          rw [top] at member
          exact not_mem_nil member
    | cons v stack =>
      have member : v ∈ m.stack := by
        rw [top]
        exact mem_cons_self
      obtain ⟨out, known, all⟩ := h.next v (inside v member)
      obtain ⟨marked, mem, -, -, work⟩ := foldl_mark all { m with stack := stack }
      have within : ∀ y ∈ (out.foldl Marks.mark { m with stack := stack }).stack, y ∈ nodes := by
        intro y member
        rcases mem y member with old | new
        · refine inside y ?_
          rw [top]
          exact mem_cons_of_mem _ old
        · exact all y new
      have less : (out.foldl Marks.mark { m with stack := stack }).work nodes < fuel := by
        have popped : ({ m with stack := stack } : Marks V).work nodes + 1 = m.work nodes := by
          simp only [Marks.work, top, length_cons]
          omega
        omega
      obtain ⟨marked', ran, drained⟩ := ih (pending.pop top known all) within less
      refine ⟨marked', ?_, fun y this => drained.more y ((marked y).mpr (.inl this)),
        fun y this => ?_, drained.closed⟩
      · rw [drain, top]
        change (next v).bind _ = _
        rw [known]
        exact ran
      · have leads : ∀ z ∈ out, Linked next m.stack z := fun z inner =>
          (Linked.root member).step ⟨out, known, inner⟩
        rcases drained.sound y this with before | ⟨root, pushed, chain⟩
        · exact ((marked y).mp before).imp_right (leads y)
        · rcases mem root pushed with old | new
          · refine .inr ⟨root, ?_, chain⟩
            rw [top]
            exact mem_cons_of_mem _ old
          · obtain ⟨first, pushed, chain'⟩ := leads root new
            exact .inr ⟨first, pushed, chain'.trans chain⟩

theorem markRoots_linked (h : Known next nodes) {fuel : ℕ} (enough : nodes.length < fuel)
    {roots : List V} (inside : ∀ v ∈ roots, v ∈ nodes) {marked : V → Bool}
    (closed : ∀ y, marked y = true → Closed next marked y) :
    ∃ marked', markRoots next fuel roots marked = some marked' ∧
      (∀ y, marked' y = true → Closed next marked' y) ∧
      ∀ y, marked' y = true ↔ marked y = true ∨ Linked next roots y := by
  induction roots generalizing marked with
  | nil =>
    refine ⟨marked, rfl, closed, fun y => ⟨.inl, fun either => either.elim id fun linked => ?_⟩⟩
    obtain ⟨root, member, -⟩ := linked
    exact absurd member not_mem_nil
  | cons root roots ih =>
    have here : root ∈ nodes := inside root mem_cons_self
    have pending : (Marks.mark ⟨marked, []⟩ root).Pending next := by
      refine ⟨fun y member => ?_, fun y this => ?_⟩
      · rcases Marks.mem_stack_mark _ _ _ member with old | same
        · exact absurd old not_mem_nil
        · exact (Marks.marked_mark _ _ _).mpr (.inr same)
      · rcases Marks.mem_stack_or _ _ _ this with before | member
        · exact .inr ((closed y before).mono fun z this =>
            (Marks.marked_mark _ _ _).mpr (.inl this))
        · exact .inl member
    have within : ∀ y ∈ (Marks.mark ⟨marked, []⟩ root).stack, y ∈ nodes := by
      intro y member
      rcases Marks.mem_stack_mark _ _ _ member with old | same
      · exact absurd old not_mem_nil
      · exact same ▸ here
    have less : (Marks.mark ⟨marked, []⟩ root).work nodes < fuel := by
      have most := Marks.work_mark ⟨marked, []⟩ here
      have all := length_filter_le (fun v => !marked v) nodes
      simp only [Marks.work, length_nil] at most
      unfold Marks.work
      omega
    obtain ⟨marked', ran, drained⟩ := drain_ends h pending within less
    obtain ⟨marked'', rest, closed', exact⟩ :=
      ih (fun v member => inside v (mem_cons_of_mem _ member)) drained.closed
    refine ⟨marked'', ?_, closed', fun y => ?_⟩
    · rw [markRoots, foldlM_cons, ran]
      exact rest
    · rw [exact]
      constructor
      · rintro (this | ⟨first, member, chain⟩)
        · rcases drained.sound y this with before | ⟨first, member, chain⟩
          · rcases (Marks.marked_mark _ _ _).mp before with old | same
            · exact .inl old
            · exact .inr (same ▸ Linked.root mem_cons_self)
          · rcases Marks.mem_stack_mark _ _ _ member with old | same
            · exact absurd old not_mem_nil
            · exact .inr ⟨root, mem_cons_self, same ▸ chain⟩
        · exact .inr ⟨first, mem_cons_of_mem _ member, chain⟩
      · rintro (this | ⟨first, member, chain⟩)
        · exact .inl (drained.more y ((Marks.marked_mark _ _ _).mpr (.inl this)))
        · rcases mem_cons.mp member with rfl | member
          · exact .inl (Closed.chain drained.closed
              (drained.more _ ((Marks.marked_mark _ _ _).mpr (.inr rfl))) chain)
          · exact .inr ⟨first, member, chain⟩

end run

end SkipPlatform.MarkStack
