import SkipPlatform.DeadCode

set_option autoImplicit false

/-! What a well-formed function is, what links an instruction to a side effect, and that just this
is marked as live. -/
namespace SkipPlatform.DeadCode
open List MarkStack Dominators

variable {D : Type} {f : Function D}

def Function.Reached (f : Function D) (id : BlockID) : Prop :=
  ∃ entry, f.blocks.head? = some entry ∧ Reachable f.graph.Edge entry.id id

def Function.BlockDominates (f : Function D) (z x : BlockID) : Prop :=
  ∃ entry, f.blocks.head? = some entry ∧ Dominates f.graph.Edge entry.id z x

def Block.ids (b : Block D) : List InstrID := b.params.map BlockParam.id ++ b.instrs.map Stmt.id

def Function.Available (f : Function D) (b : Block D) (before : List (Stmt D)) (id : InstrID) :
    Prop :=
  id ∈ f.params ∨ id ∈ f.constants.map Constant.id ∨ id ∈ b.params.map BlockParam.id ∨
    id ∈ before.map Stmt.id ∨
      ∃ d ∈ f.blocks, d.id ≠ b.id ∧ f.BlockDominates d.id b.id ∧ id ∈ d.ids

structure Function.WellFormed (f : Function D) : Prop where
  blocks : f.blocks ≠ []
  blockIDs : (f.blocks.map Block.id).Nodup
  instrIDs : (f.allInstrs.map Instr.id).Nodup
  targets : ∀ b ∈ f.blocks, ∀ s ∈ b.successors, s.target ∈ f.blocks.map Block.id
  terminated : ∀ b ∈ f.blocks, f.Reached b.id → ∃ body t, b.instrs = body ++ [t] ∧
    t.kind.isTerminator = true ∧ ∀ s ∈ body, s.kind.isTerminator = false
  indices : ∀ b ∈ f.blocks, f.Reached b.id → ∀ i (p : BlockParam), b.params[i]? = some p → p.index = i
  counts : ∀ b ∈ f.blocks, f.Reached b.id → ∀ s ∈ b.successors, ∀ target ∈ f.blocks,
    target.id = s.target → s.args.length = target.params.length
  operands : ∀ b ∈ f.blocks, f.Reached b.id → ∀ before s after, b.instrs = before ++ s :: after →
    ∀ id ∈ s.kind.operands, f.Available b before id
  arguments : ∀ b ∈ f.blocks, f.Reached b.id → ∀ s ∈ b.successors, ∀ id ∈ s.args,
    f.Available b b.instrs id

/-- An instruction uses its operands, and a block parameter the arguments that are passed for it. -/
inductive Function.Uses (f : Function D) (operands : Kind → List InstrID) :
    InstrID → InstrID → Prop
  | operand {b : Block D} {s : Stmt D} {y : InstrID} : b ∈ f.blocks → f.Reached b.id →
      s ∈ b.instrs → y ∈ operands s.kind → f.Uses operands s.id y
  | argument {b p : Block D} {s : BlockSuccessor} {param : BlockParam} {y : InstrID} :
      b ∈ f.blocks → p ∈ f.blocks → f.Reached p.id → s ∈ p.successors → s.target = b.id →
      param ∈ b.params → s.args[param.index]? = some y → f.Uses operands param.id y

def Function.Effect (f : Function D) (x : InstrID) : Prop :=
  ∃ b ∈ f.blocks, f.Reached b.id ∧ ∃ s ∈ b.instrs, alwaysLive s.kind = true ∧ s.id = x

def Function.Chained (f : Function D) (operands : Kind → List InstrID) (x : InstrID) : Prop :=
  ∃ root, f.Effect root ∧ Relation.ReflTransGen (f.Uses operands) root x

def Function.Needed (f : Function D) : InstrID → Prop := f.Chained Kind.operands

def Function.Visited (f : Function D) : InstrID → Prop := f.Chained Kind.visitNonBlockArgInputs

theorem Function.Effect.chained {operands : Kind → List InstrID} {x : InstrID} (h : f.Effect x) :
    f.Chained operands x := ⟨x, h, .refl⟩

theorem Function.Chained.step {operands : Kind → List InstrID} {x y : InstrID}
    (h : f.Chained operands x) (uses : f.Uses operands x y) : f.Chained operands y := by
  obtain ⟨root, effect, chain⟩ := h
  exact ⟨root, effect, chain.tail uses⟩

theorem Function.Chained.induct {operands : Kind → List InstrID} {P : InstrID → Prop}
    (effect : ∀ x, f.Effect x → P x)
    (uses : ∀ x y, f.Chained operands x → P x → f.Uses operands x y → P y) {x : InstrID}
    (h : f.Chained operands x) : P x := by
  obtain ⟨root, start, chain⟩ := h
  induction chain with
  | refl => exact effect root start
  | tail before use ih => exact uses _ _ ⟨root, start, before⟩ ih use

variable {b : Block D}

theorem Function.getBlock_id {id : BlockID} (h : f.getBlock id = some b) :
    b.id = id ∧ b ∈ f.blocks := by
  have found := List.find?_some h
  exact ⟨of_decide_eq_true found, List.mem_of_find?_eq_some h⟩

theorem Function.WellFormed.getBlock (h : f.WellFormed) {b : Block D} (member : b ∈ f.blocks) :
    f.getBlock b.id = some b := by
  cases found : f.getBlock b.id with
  | none => exact absurd (decide_eq_true rfl) (List.find?_eq_none.mp found b member)
  | some b' =>
    obtain ⟨same, member'⟩ := f.getBlock_id found
    rw [inj_on_of_nodup_map h.blockIDs member' member same]

theorem Function.WellFormed.block_unique (h : f.WellFormed) {b b' : Block D} (member : b ∈ f.blocks)
    (member' : b' ∈ f.blocks) (same : b.id = b'.id) : b = b' :=
  inj_on_of_nodup_map h.blockIDs member member' same

theorem Function.WellFormed.instr_unique (h : f.WellFormed) {i j : Instr D}
    (hi : i ∈ f.allInstrs) (hj : j ∈ f.allInstrs) (same : i.id = j.id) : i = j :=
  inj_on_of_nodup_map h.instrIDs hi hj same

theorem Function.WellFormed.getInstr (h : f.WellFormed) {i : Instr D} (member : i ∈ f.allInstrs) :
    f.getInstr i.id = some i := by
  cases found : f.getInstr i.id with
  | none => exact absurd (decide_eq_true rfl) (List.find?_eq_none.mp found i member)
  | some j =>
    have matched := List.find?_some found
    have same : j.id = i.id := of_decide_eq_true matched
    rw [h.instr_unique (List.mem_of_find?_eq_some found) member same]

theorem mem_allInstrs_param {id : InstrID} (h : id ∈ f.params) : .funParam id ∈ f.allInstrs :=
  mem_append_left _ (mem_append_left _ (mem_map_of_mem h))

theorem mem_allInstrs_constant {c : Constant D} (h : c ∈ f.constants) :
    .constant c ∈ f.allInstrs :=
  mem_append_left _ (mem_append_right _ (mem_map_of_mem h))

theorem mem_allInstrs_block {i : Instr D} (h : b ∈ f.blocks)
    (member : i ∈ b.allInstrs) : i ∈ f.allInstrs :=
  mem_append_right _ (mem_flatMap_of_mem h member)

theorem mem_allInstrs_blockParam {p : BlockParam} (h : b ∈ f.blocks)
    (member : p ∈ b.params) : .blockParam b.id p ∈ f.allInstrs :=
  mem_allInstrs_block h (mem_append_left _ (mem_map_of_mem member))

theorem mem_allInstrs_stmt {s : Stmt D} (h : b ∈ f.blocks) (member : s ∈ b.instrs) :
    .stmt s ∈ f.allInstrs :=
  mem_allInstrs_block h (mem_append_right _ (mem_map_of_mem member))

theorem Function.WellFormed.stmt_unique (h : f.WellFormed) {s s' : Stmt D}
    (hb : b ∈ f.blocks) (hs : s ∈ b.instrs) {b' : Block D} (hb' : b' ∈ f.blocks)
    (hs' : s' ∈ b'.instrs) (same : s.id = s'.id) : s = s' := by
  have unique : Instr.stmt s = Instr.stmt s' :=
    h.instr_unique (mem_allInstrs_stmt hb hs) (mem_allInstrs_stmt hb' hs') same
  cases unique
  rfl

theorem Function.WellFormed.param_unique (h : f.WellFormed) {b b' : Block D} {p p' : BlockParam}
    (hb : b ∈ f.blocks) (hp : p ∈ b.params) (hb' : b' ∈ f.blocks) (hp' : p' ∈ b'.params)
    (same : p.id = p'.id) : b.id = b'.id ∧ p = p' := by
  have unique : Instr.blockParam (D := D) b.id p = Instr.blockParam b'.id p' :=
    h.instr_unique (mem_allInstrs_blockParam hb hp) (mem_allInstrs_blockParam hb' hp') same
  exact Instr.blockParam.inj unique

theorem Function.WellFormed.own (h : f.WellFormed) (hb : b ∈ f.blocks) {x : InstrID}
    (member : x ∈ b.ids) : x ∉ f.params ∧ x ∉ f.constants.map Constant.id := by
  obtain ⟨i, inside, rfl, apart⟩ : ∃ i ∈ f.allInstrs, i.id = x ∧
      ((∀ id, i ≠ .funParam id) ∧ ∀ c, i ≠ .constant c) := by
    rcases mem_append.mp member with inner | inner
    · obtain ⟨p, inside, rfl⟩ := mem_map.mp inner
      exact ⟨.blockParam b.id p, mem_allInstrs_blockParam hb inside, rfl, nofun, nofun⟩
    · obtain ⟨s, inside, rfl⟩ := mem_map.mp inner
      exact ⟨.stmt s, mem_allInstrs_stmt hb inside, rfl, nofun, nofun⟩
  refine ⟨fun known => apart.1 _ (h.instr_unique inside (mem_allInstrs_param known) rfl),
    fun known => ?_⟩
  obtain ⟨c, known, same⟩ := mem_map.mp known
  exact apart.2 c (h.instr_unique inside (mem_allInstrs_constant known) same.symm)

theorem graph_getBlock (f : Function D) (id : BlockID) :
    f.graph.getBlock id =
      (f.getBlock id).map fun b => ⟨b.id, b.successors.map BlockSuccessor.target⟩ := by
  rw [Dominator.Function.getBlock, Function.graph, Function.getBlock, List.find?_map]
  rfl

theorem graph_edge {p x : BlockID} :
    f.graph.Edge p x ↔ ∃ b, f.getBlock p = some b ∧ ∃ s ∈ b.successors, s.target = x := by
  constructor
  · rintro ⟨block, found, member⟩
    rw [graph_getBlock] at found
    obtain ⟨b, known, rfl⟩ := Option.map_eq_some_iff.mp found
    exact ⟨b, known, mem_map.mp member⟩
  · rintro ⟨b, known, inside⟩
    exact ⟨_, by rw [graph_getBlock, known]; rfl, mem_map.mpr inside⟩

theorem Function.WellFormed.graph (h : f.WellFormed) : f.graph.WellFormed := by
  refine ⟨fun none => h.blocks (map_eq_nil_iff.mp none), ?_, ?_⟩
  · rw [Function.graph, map_map]
    exact h.blockIDs
  · intro node member target inside
    obtain ⟨b, known, rfl⟩ := mem_map.mp member
    obtain ⟨s, held, rfl⟩ := mem_map.mp inside
    rw [Function.graph, map_map]
    exact h.targets b known s held

theorem Function.Reached.step {p : Block D} (h : f.WellFormed) (member : p ∈ f.blocks)
    (reached : f.Reached p.id) {s : BlockSuccessor} (inside : s ∈ p.successors) :
    f.Reached s.target := by
  obtain ⟨entry, head, reach⟩ := reached
  exact ⟨entry, head, reach.step (graph_edge.mpr ⟨p, h.getBlock member, s, inside, rfl⟩)⟩

theorem Function.Reached.entry {entry : Block D} (head : f.blocks.head? = some entry) :
    f.Reached entry.id := ⟨entry, head, reachable_entry⟩

theorem Function.BlockDominates.reached {z x : BlockID} (h : f.BlockDominates z x)
    (reached : f.Reached x) : f.Reached z := by
  obtain ⟨entry, head, dominates⟩ := h
  obtain ⟨entry', head', nodes, walk⟩ := reached
  rw [head] at head'
  cases head'
  obtain ⟨nodes', walk', -⟩ := walk.until (dominates nodes walk)
  exact ⟨entry, head, nodes', walk'⟩

theorem mapM_known {A B : Type} {g : A → Option B} {l : List A}
    (h : ∀ a ∈ l, ∃ b, g a = some b) :
    ∃ bs, l.mapM g = some bs ∧ ∀ b, b ∈ bs ↔ ∃ a ∈ l, g a = some b := by
  induction l with
  | nil => exact ⟨[], rfl, fun b => by simp⟩
  | cons a l ih =>
    obtain ⟨b, known⟩ := h a mem_cons_self
    obtain ⟨bs, rest, mem⟩ := ih fun a member => h a (mem_cons_of_mem _ member)
    refine ⟨b :: bs, ?_, fun b' => ?_⟩
    · rw [mapM_cons, known, rest]
      rfl
    · rw [mem_cons, mem, exists_mem_cons_iff, known, Option.some.injEq, eq_comm]

/-- The order in which the blocks are gone through, and the predecessors of each. -/
structure Function.Order (f : Function D) (rpo : List BlockID)
    (predecessors : BlockID → List BlockID) (blocks : List (Block D)) : Prop where
  nodup : rpo.Nodup
  ids : blocks.map Block.id = rpo
  head : blocks.head? = f.blocks.head?
  mem : ∀ b, b ∈ blocks ↔ b ∈ f.blocks ∧ f.Reached b.id
  predecessors : ∀ p b, p ∈ predecessors b ↔ f.Reached p ∧ f.graph.Edge p b

theorem map_id_of_mapM {rpo : List BlockID} {blocks : List (Block D)}
    (h : rpo.mapM f.getBlock = some blocks) : blocks.map Block.id = rpo := by
  induction rpo generalizing blocks with
  | nil =>
    cases h
    rfl
  | cons id rpo ih =>
    rw [mapM_cons] at h
    obtain ⟨b, known, h⟩ := Option.bind_eq_some_iff.mp h
    obtain ⟨rest, after, h⟩ := Option.bind_eq_some_iff.mp h
    cases h
    rw [map_cons, ih after, (f.getBlock_id known).1]

theorem order_ends (h : f.WellFormed) : ∃ rpo predecessors blocks,
    f.graph.reversePostorder f.graph.searchFuel = some rpo ∧
    f.graph.computePredecessors rpo = some predecessors ∧ rpo.mapM f.getBlock = some blocks ∧
    f.Order rpo predecessors blocks := by
  obtain ⟨entry, head⟩ : ∃ entry, f.blocks.head? = some entry := by
    cases head : f.blocks.head? with
    | none => exact absurd (List.head?_eq_none_iff.mp head) h.blocks
    | some entry => exact ⟨entry, rfl⟩
  have start : f.graph.blocks.head? =
      some ⟨entry.id, entry.successors.map BlockSuccessor.target⟩ := by
    rw [Function.graph, List.head?_map, head]
    rfl
  obtain ⟨rpo, ordered, order⟩ := Dominator.reversePostorder_ends h.graph start le_rfl
  have reached : ∀ id, id ∈ rpo ↔ f.Reached id := fun id => (order.mem id).trans
    ⟨fun reach => ⟨entry, head, reach⟩, fun ⟨entry', head', reach⟩ => by
      rw [head] at head'
      cases head'
      exact reach⟩
  have known : ∀ id ∈ rpo, ∃ b, f.getBlock id = some b := by
    intro id member
    obtain ⟨nodes, walk⟩ := (order.mem id).mp member
    cases walk with
    | start => exact ⟨entry, h.getBlock (mem_of_head? head)⟩
    | step _ edge =>
      obtain ⟨p, found, s, inside, rfl⟩ := graph_edge.mp edge
      obtain ⟨b, member, same⟩ :=
        mem_map.mp (h.targets p (f.getBlock_id found).2 s inside)
      exact ⟨b, by rw [← same]; exact h.getBlock member⟩
  obtain ⟨predecessors, made, mem⟩ := Dominator.mem_computePredecessors (f := f.graph) (l := rpo)
    (fun p member => by
      obtain ⟨b, found⟩ := known p member
      exact ⟨_, by rw [graph_getBlock, found]; rfl⟩) fun _ => []
  obtain ⟨blocks, listed, inside⟩ := mapM_known known
  have ids := map_id_of_mapM listed
  refine ⟨rpo, predecessors, blocks, ordered, made, listed, order.nodup, ids, ?_, fun b => ?_,
    fun p b => ?_⟩
  · cases rpo with
    | nil => cases order.head
    | cons first rest =>
      cases order.head
      rw [mapM_cons, h.getBlock (mem_of_head? head)] at listed
      change (rest.mapM f.getBlock).bind (fun others => some (entry :: others)) = _ at listed
      obtain ⟨others, -, listed⟩ := Option.bind_eq_some_iff.mp listed
      cases listed
      exact head.symm
  · rw [inside]
    constructor
    · rintro ⟨id, member, found⟩
      obtain ⟨rfl, known⟩ := f.getBlock_id found
      exact ⟨known, (reached b.id).mp member⟩
    · rintro ⟨known, reach⟩
      exact ⟨b.id, (reached b.id).mpr reach, h.getBlock known⟩
  · rw [mem, ← reached]
    exact or_iff_right not_mem_nil

def Function.nodes (f : Function D) (blocks : List (Block D)) : List InstrID :=
  f.params ++ f.constants.map Constant.id ++ blocks.flatMap Block.ids

section order
variable {rpo : List BlockID} {predecessors : BlockID → List BlockID} {blocks : List (Block D)}

variable {x : InstrID}

theorem Function.Order.mem_nodes (o : f.Order rpo predecessors blocks) :
    x ∈ f.nodes blocks ↔ x ∈ f.params ∨ x ∈ f.constants.map Constant.id ∨
      ∃ b ∈ f.blocks, f.Reached b.id ∧ x ∈ b.ids := by
  rw [Function.nodes, mem_append, mem_append, or_assoc, mem_flatMap]
  refine or_congr_right (or_congr_right ⟨?_, ?_⟩)
  · rintro ⟨b, member, inside⟩
    obtain ⟨known, reached⟩ := (o.mem b).mp member
    exact ⟨b, known, reached, inside⟩
  · rintro ⟨b, known, reached, inside⟩
    exact ⟨b, (o.mem b).mpr ⟨known, reached⟩, inside⟩

theorem Function.Order.available (o : f.Order rpo predecessors blocks) {b : Block D}
    (member : b ∈ f.blocks) (reached : f.Reached b.id) {before : List (Stmt D)}
    (inside : ∀ s ∈ before, s ∈ b.instrs) (h : f.Available b before x) :
    x ∈ f.nodes blocks := by
  refine o.mem_nodes.mpr ?_
  rcases h with param | constant | own | own | ⟨d, known, -, dominates, own⟩
  · exact .inl param
  · exact .inr (.inl constant)
  · exact .inr (.inr ⟨b, member, reached, mem_append_left _ own⟩)
  · obtain ⟨s, first, rfl⟩ := mem_map.mp own
    exact .inr (.inr ⟨b, member, reached,
      mem_append_right _ (mem_map_of_mem (inside s first))⟩)
  · exact .inr (.inr ⟨d, known, dominates.reached reached, own⟩)

theorem visit_operands {kind : Kind} (h : x ∈ kind.visitNonBlockArgInputs) :
    x ∈ kind.operands := by
  cases kind with
  | obstackShallowClone byteSize value => exact mem_cons.mpr (.inl (mem_singleton.mp h))
  | _ => exact h

theorem Function.WellFormed.operand_node (h : f.WellFormed) (o : f.Order rpo predecessors blocks)
    {b : Block D} (member : b ∈ f.blocks) (reached : f.Reached b.id) {s : Stmt D}
    (inside : s ∈ b.instrs) (operand : x ∈ s.kind.operands) :
    x ∈ f.nodes blocks := by
  obtain ⟨before, after, split⟩ := append_of_mem inside
  refine o.available member reached (fun s' first => ?_)
    (h.operands b member reached before s after split x operand)
  rw [split]
  exact mem_append_left _ first

theorem Function.WellFormed.argument_node (h : f.WellFormed) (o : f.Order rpo predecessors blocks)
    {p : Block D} (member : p ∈ f.blocks) (reached : f.Reached p.id) {s : BlockSuccessor}
    (inside : s ∈ p.successors) (argument : x ∈ s.args) : x ∈ f.nodes blocks :=
  o.available member reached (fun _ first => first) (h.arguments p member reached s inside x argument)

theorem Function.WellFormed.argument (h : f.WellFormed) {p b : Block D} (member : p ∈ f.blocks)
    (reached : f.Reached p.id) {s : BlockSuccessor} (inside : s ∈ p.successors)
    (known : b ∈ f.blocks) (target : s.target = b.id) {param : BlockParam}
    (held : param ∈ b.params) : ∃ y, s.args[param.index]? = some y := by
  have goal : f.Reached b.id := target ▸ reached.step h member inside
  obtain ⟨i, here⟩ := mem_iff_getElem?.mp held
  have index := h.indices b known goal i param here
  have count := h.counts p member reached s inside b known target.symm
  have small := (List.getElem?_eq_some_iff.mp here).1
  rw [index]
  exact ⟨_, List.getElem?_eq_getElem (by omega)⟩

theorem visit_blockParam (h : f.WellFormed) (o : f.Order rpo predecessors blocks) {b : Block D}
    (known : b ∈ f.blocks) {param : BlockParam} (held : param ∈ b.params) :
    ∃ out, f.visitNonBlockArgInputs predecessors (.blockParam b.id param) = some out ∧
      ∀ y, y ∈ out ↔ ∃ p ∈ f.blocks, f.Reached p.id ∧ ∃ s ∈ p.successors, s.target = b.id ∧
        s.args[param.index]? = some y := by
  have step : ∀ id ∈ predecessors b.id, ∃ args, (do
      let block ← f.getBlock id
      (block.successors.filter fun s => s.target = b.id).mapM fun s => s.args[param.index]?) =
        some args ∧ ∀ y, y ∈ args ↔ ∃ p ∈ f.blocks, p.id = id ∧ ∃ s ∈ p.successors,
          s.target = b.id ∧ s.args[param.index]? = some y := by
    intro id member
    obtain ⟨reached, edge⟩ := (o.predecessors id b.id).mp member
    obtain ⟨p, found, -⟩ := graph_edge.mp edge
    obtain ⟨rfl, inside⟩ := f.getBlock_id found
    obtain ⟨args, all, mem⟩ := mapM_known
      (g := fun s : BlockSuccessor => s.args[param.index]?)
      (l := p.successors.filter fun s => s.target = b.id) fun s member => by
        obtain ⟨listed, target⟩ := mem_filter.mp member
        exact h.argument inside reached listed known (of_decide_eq_true target) held
    refine ⟨args, ?_, fun y => (mem y).trans ⟨?_, ?_⟩⟩
    · rw [found]
      exact all
    · rintro ⟨s, member, passed⟩
      obtain ⟨listed, target⟩ := mem_filter.mp member
      exact ⟨p, inside, rfl, s, listed, of_decide_eq_true target, passed⟩
    · rintro ⟨p', inside', same, s, listed, target, passed⟩
      cases h.block_unique inside' inside same
      exact ⟨s, mem_filter.mpr ⟨listed, decide_eq_true target⟩, passed⟩
  obtain ⟨argss, all, mem⟩ := mapM_known fun id member => (step id member).imp fun _ => And.left
  refine ⟨argss.flatten, ?_, fun y => ?_⟩
  · change Option.bind (List.mapM _ _) _ = _
    rw [all]
    rfl
  · rw [mem_flatten]
    constructor
    · rintro ⟨args, member, inner⟩
      obtain ⟨id, listed, made⟩ := (mem args).mp member
      obtain ⟨args', made', exact_⟩ := step id listed
      rw [made] at made'
      cases made'
      obtain ⟨p, inside, rfl, rest⟩ := (exact_ y).mp inner
      exact ⟨p, inside, ((o.predecessors p.id b.id).mp listed).1, rest⟩
    · rintro ⟨p, inside, reached, s, listed, target, passed⟩
      have edge : f.graph.Edge p.id b.id :=
        graph_edge.mpr ⟨p, h.getBlock inside, s, listed, target⟩
      have member := (o.predecessors p.id b.id).mpr ⟨reached, edge⟩
      obtain ⟨args, made, exact_⟩ := step p.id member
      exact ⟨args, (mem args).mpr ⟨p.id, member, made⟩,
        (exact_ y).mpr ⟨p, inside, rfl, s, listed, target, passed⟩⟩

theorem next_uses (h : f.WellFormed) (o : f.Order rpo predecessors blocks)
    (node : x ∈ f.nodes blocks) : ∃ out, f.next predecessors x = some out ∧
      ∀ y, y ∈ out ↔ f.Uses Kind.visitNonBlockArgInputs x y := by
  have leaf : ∀ i ∈ f.allInstrs, i.id = x → (∀ b p, i ≠ .blockParam b p) → (∀ s, i ≠ .stmt s) →
      ∀ y, ¬ f.Uses Kind.visitNonBlockArgInputs x y := by
    rintro i inside rfl noParam noStmt y uses
    generalize same : i.id = z at uses
    cases uses with
    | operand member _ listed _ =>
      exact noStmt _ (h.instr_unique inside (mem_allInstrs_stmt member listed) same)
    | argument member _ _ _ _ held _ =>
      exact noParam _ _ (h.instr_unique inside (mem_allInstrs_blockParam member held) same)
  rcases o.mem_nodes.mp node with param | constant | ⟨b, member, reached, own⟩
  · refine ⟨[], ?_, fun y => iff_of_false not_mem_nil
      (leaf _ (mem_allInstrs_param param) rfl nofun nofun y)⟩
    change (f.getInstr x).bind _ = _
    have found := h.getInstr (mem_allInstrs_param param)
    rw [Instr.id] at found
    rw [found]
    rfl
  · obtain ⟨c, inside, rfl⟩ := mem_map.mp constant
    refine ⟨[], ?_, fun y => iff_of_false not_mem_nil
      (leaf _ (mem_allInstrs_constant inside) rfl nofun nofun y)⟩
    change (f.getInstr c.id).bind _ = _
    have found := h.getInstr (mem_allInstrs_constant inside)
    rw [Instr.id] at found
    rw [found]
    rfl
  · rcases mem_append.mp own with inner | inner
    · obtain ⟨param, held, rfl⟩ := mem_map.mp inner
      obtain ⟨out, made, mem⟩ := visit_blockParam h o member held
      refine ⟨out, ?_, fun y => (mem y).trans ⟨?_, fun uses => ?_⟩⟩
      · change (f.getInstr param.id).bind _ = _
        have found := h.getInstr (mem_allInstrs_blockParam member held)
        rw [Instr.id] at found
        rw [found]
        exact made
      · rintro ⟨p, known, reach, s, listed, target, passed⟩
        exact .argument member known reach listed target held passed
      · generalize same : param.id = z at uses
        cases uses with
        | operand member' _ listed _ =>
          exact nomatch h.instr_unique (mem_allInstrs_blockParam member held)
            (mem_allInstrs_stmt member' listed) same
        | argument member' known reach listed target held' passed =>
          obtain ⟨block, rfl⟩ := h.param_unique member held member' held' same
          exact ⟨_, known, reach, _, listed, target.trans block.symm, passed⟩
    · obtain ⟨s, listed, rfl⟩ := mem_map.mp inner
      refine ⟨s.kind.visitNonBlockArgInputs, ?_, fun y => ⟨.operand member reached listed,
        fun uses => ?_⟩⟩
      · change (f.getInstr s.id).bind _ = _
        have found := h.getInstr (mem_allInstrs_stmt member listed)
        rw [Instr.id] at found
        rw [found]
        rfl
      · generalize same : s.id = z at uses
        cases uses with
        | operand member' _ listed' visited =>
          cases h.stmt_unique member listed member' listed' same
          exact visited
        | argument member' _ _ _ _ held _ =>
          exact nomatch h.instr_unique (mem_allInstrs_stmt member listed)
            (mem_allInstrs_blockParam member' held) same

theorem uses_node (h : f.WellFormed) (o : f.Order rpo predecessors blocks) {x y : InstrID}
    (uses : f.Uses Kind.operands x y) : y ∈ f.nodes blocks := by
  cases uses with
  | operand member reached listed operand => exact h.operand_node o member reached listed operand
  | argument _ known reached listed _ _ passed =>
    exact h.argument_node o known reached listed (mem_of_getElem? passed)

theorem Function.Uses.all {x y : InstrID} (h : f.Uses Kind.visitNonBlockArgInputs x y) :
    f.Uses Kind.operands x y := by
  cases h with
  | operand member reached listed visited =>
    exact .operand member reached listed (visit_operands visited)
  | argument member known reached listed target held passed =>
    exact .argument member known reached listed target held passed

theorem Function.Visited.needed (h : f.Visited x) : f.Needed x :=
  h.induct (fun _ effect => effect.chained) fun _ _ _ before uses => before.step uses.all

theorem markLive_visited (h : f.WellFormed) (o : f.Order rpo predecessors blocks) :
    ∃ isLive, f.markLive predecessors blocks = some isLive ∧
      ∀ x, isLive x = true ↔ f.Visited x := by
  have known : Known (f.next predecessors) (f.nodes blocks) := by
    refine ⟨fun x node => ?_⟩
    obtain ⟨out, made, mem⟩ := next_uses h o node
    exact ⟨out, made, fun y member => uses_node h o ((mem y).mp member).all⟩
  have roots : ∀ x, x ∈ (blocks.flatMap fun b =>
      (b.instrs.filter fun s => alwaysLive s.kind).map Stmt.id) ↔ f.Effect x := by
    intro x
    rw [mem_flatMap]
    constructor
    · rintro ⟨b, member, inner⟩
      obtain ⟨inside, reached⟩ := (o.mem b).mp member
      obtain ⟨s, kept, rfl⟩ := mem_map.mp inner
      obtain ⟨listed, live⟩ := mem_filter.mp kept
      exact ⟨b, inside, reached, s, listed, live, rfl⟩
    · rintro ⟨b, inside, reached, s, listed, live, rfl⟩
      exact ⟨b, (o.mem b).mpr ⟨inside, reached⟩,
        mem_map_of_mem (mem_filter.mpr ⟨listed, live⟩)⟩
  have effect_node : ∀ x, f.Effect x → x ∈ f.nodes blocks := by
    rintro x ⟨b, inside, reached, s, listed, -, rfl⟩
    exact o.mem_nodes.mpr (.inr (.inr
      ⟨b, inside, reached, mem_append_right _ (mem_map_of_mem listed)⟩))
  have enough : (f.nodes blocks).length < f.allInstrs.length + 1 := by
    have within : (f.nodes blocks).length ≤ f.allInstrs.length := by
      have blocksNodup : blocks.Nodup := by
        refine List.Nodup.of_map Block.id ?_
        rw [o.ids]
        exact o.nodup
      have sub : blocks.Subperm f.blocks :=
        subperm_of_subset blocksNodup fun b member => ((o.mem b).mp member).1
      obtain ⟨l, perm, sublist⟩ := sub
      have lengths : (blocks.map fun b => b.ids.length).sum ≤
          (f.blocks.map fun b => b.ids.length).sum := by
        rw [← (perm.map fun b : Block D => b.ids.length).sum_eq]
        exact (sublist.map _).sum_le_sum fun _ _ => Nat.zero_le _
      have allInstrs : ∀ b : Block D, b.allInstrs.length = b.ids.length := fun b => by
        simp [Block.allInstrs, Block.ids]
      simp only [Function.nodes, Function.allInstrs, length_append, length_map,
        length_flatMap, allInstrs]
      omega
    omega
  have unmarked : ∀ y, (fun _ : InstrID => false) y = true →
      Closed (f.next predecessors) (fun _ => false) y := nofun
  obtain ⟨isLive, made, -, mem⟩ := markRoots_linked known enough
    (fun x member => effect_node x ((roots x).mp member)) unmarked
  refine ⟨isLive, made, fun x => (mem x).trans ?_⟩
  rw [or_iff_right Bool.false_ne_true]
  constructor
  · rintro ⟨root, member, chain⟩
    have start := (roots root).mp member
    have both : f.Visited x ∧ x ∈ f.nodes blocks := by
      induction chain with
      | refl => exact ⟨start.chained, effect_node root start⟩
      | tail _ leads ih =>
        obtain ⟨out, known', inner⟩ := leads
        obtain ⟨out', made', mem'⟩ := next_uses h o ih.2
        rw [known'] at made'
        cases made'
        have uses := (mem' _).mp inner
        exact ⟨ih.1.step uses, uses_node h o uses.all⟩
    exact both.1
  · intro visited
    have both : Linked (f.next predecessors) (blocks.flatMap fun b =>
        (b.instrs.filter fun s => alwaysLive s.kind).map Stmt.id) x ∧ x ∈ f.nodes blocks := by
      refine visited.induct (P := fun x => Linked (f.next predecessors) _ x ∧ x ∈ f.nodes blocks)
        (fun x effect => ⟨.root ((roots x).mpr effect), effect_node x effect⟩)
        fun x y _ before uses => ?_
      obtain ⟨out, made', mem'⟩ := next_uses h o before.2
      exact ⟨before.1.step ⟨out, made', (mem' y).mpr uses⟩, uses_node h o uses.all⟩
    exact both.1

end order

end SkipPlatform.DeadCode
