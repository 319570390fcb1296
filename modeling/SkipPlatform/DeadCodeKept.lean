import SkipPlatform.DeadCodeTrim

set_option autoImplicit false

/-! What is left of a well-formed function is well formed, when all is kept that is used by what is
kept; and what was linked to a side effect still is. -/
namespace SkipPlatform.DeadCode
open List MarkStack Dominators

variable {D : Type} {f f' : Function D} {keep : InstrID → Bool}

structure Function.Closed (f : Function D) (keep : InstrID → Bool) : Prop where
  effects : ∀ x, f.Effect x → keep x = true
  uses : ∀ x y, keep x = true → f.Uses Kind.operands x y → y ∈ f.params ∨ keep y = true

section graph

theorem trim_block_successors (h : f.WellFormed) (effects : ∀ x, f.Effect x → keep x = true)
    {b : Block D} (member : b ∈ f.blocks) (reached : f.Reached b.id) :
    (b.trim keep f.origBlockParams).successors =
      b.successors.map (BlockSuccessor.trim keep f.origBlockParams) := by
  obtain ⟨body, t, last, final, -⟩ := h.terminated b member reached
  have listed : t ∈ b.instrs := by
    rw [last]
    exact mem_append_right _ mem_cons_self
  have live : keep t.id = true :=
    effects t.id ⟨b, member, reached, t, listed, alwaysLive_of_terminator final, rfl⟩
  have kept : (b.trim keep f.origBlockParams).instrs =
      (body.filter fun s => keep s.id).map (Stmt.trim keep f.origBlockParams) ++
        [t.trim keep f.origBlockParams] := by
    have alone : ([t].filter fun s => keep s.id) = [t] :=
      filter_eq_self.mpr fun s single => mem_singleton.mp single ▸ live
    rw [Block.trim, last, filter_append, alone, map_append]
    rfl
  rw [successors_of_end kept, successors_of_end last]
  exact trim_successors t.kind

theorem Trimmed.getBlock (T : Trimmed f f' keep) {b : Block D}
    (member : b ∈ f.blocks) (reached : f.Reached b.id) :
    f'.getBlock b.id = some (b.trim keep f.origBlockParams) := by
  have inside := (T.mem _).mpr ⟨b, member, reached, rfl⟩
  have same : (b.trim keep f.origBlockParams).id = b.id := rfl
  cases found : f'.getBlock b.id with
  | none => exact absurd (decide_eq_true same) (List.find?_eq_none.mp found _ inside)
  | some b' =>
    obtain ⟨same, member'⟩ := f'.getBlock_id found
    rw [inj_on_of_nodup_map T.blockIDs member' inside same]

theorem Trimmed.edge (T : Trimmed f f' keep) (h : f.WellFormed)
    (effects : ∀ x, f.Effect x → keep x = true) {p x : BlockID} (reached : f.Reached p) :
    f'.graph.Edge p x ↔ f.graph.Edge p x := by
  rw [graph_edge, graph_edge]
  constructor
  · rintro ⟨b', found, s', listed, rfl⟩
    obtain ⟨rfl, inside⟩ := f'.getBlock_id found
    obtain ⟨b, member, reached', rfl⟩ := (T.mem b').mp inside
    rw [trim_block_successors h effects member reached'] at listed
    obtain ⟨s, leads, rfl⟩ := mem_map.mp listed
    exact ⟨b, h.getBlock member, s, leads, rfl⟩
  · rintro ⟨b, found, s, listed, rfl⟩
    obtain ⟨rfl, member⟩ := f.getBlock_id found
    refine ⟨_, T.getBlock member reached, s.trim keep f.origBlockParams, ?_, rfl⟩
    rw [trim_block_successors h effects member reached]
    exact mem_map_of_mem listed

theorem Trimmed.walk (T : Trimmed f f' keep) (h : f.WellFormed)
    (effects : ∀ x, f.Effect x → keep x = true) {entry : Block D}
    (head : f.blocks.head? = some entry) {x : BlockID} {nodes : List BlockID} :
    Walk f'.graph.Edge entry.id x nodes ↔ Walk f.graph.Edge entry.id x nodes := by
  constructor
  · intro walk
    induction walk with
    | start => exact .start
    | step _ edge ih => exact .step ih ((T.edge h effects ⟨entry, head, _, ih⟩).mp edge)
  · intro walk
    induction walk with
    | start => exact .start
    | step before edge ih =>
      exact .step ih ((T.edge h effects ⟨entry, head, _, before⟩).mpr edge)

theorem Trimmed.entry (T : Trimmed f f' keep) {entry' : Block D}
    (head : f'.blocks.head? = some entry') :
    ∃ entry, f.blocks.head? = some entry ∧ entry.id = entry'.id := by
  rw [T.head] at head
  obtain ⟨entry, first, rfl⟩ := Option.map_eq_some_iff.mp head
  exact ⟨entry, first, rfl⟩

theorem Trimmed.reached (T : Trimmed f f' keep) (h : f.WellFormed)
    (effects : ∀ x, f.Effect x → keep x = true) {x : BlockID} : f'.Reached x ↔ f.Reached x := by
  constructor
  · rintro ⟨entry', head', nodes, walk⟩
    obtain ⟨entry, head, same⟩ := T.entry head'
    rw [← same, T.walk h effects head] at walk
    exact ⟨entry, head, nodes, walk⟩
  · rintro ⟨entry, head, nodes, walk⟩
    refine ⟨entry.trim keep f.origBlockParams, ?_, nodes, (T.walk h effects head).mpr walk⟩
    rw [T.head, head]
    rfl

theorem Trimmed.dominates (T : Trimmed f f' keep) (h : f.WellFormed)
    (effects : ∀ x, f.Effect x → keep x = true) {z x : BlockID} (dominates : f.BlockDominates z x) :
    f'.BlockDominates z x := by
  obtain ⟨entry, head, all⟩ := dominates
  refine ⟨entry.trim keep f.origBlockParams, ?_, fun nodes walk =>
    all nodes ((T.walk h effects head).mp walk)⟩
  rw [T.head, head]
  rfl

end graph

theorem allInstrs_ids (f : Function D) : f.allInstrs.map Instr.id =
    f.params ++ f.constants.map Constant.id ++ f.blocks.flatMap Block.ids := by
  have blocks : (f.blocks.flatMap Block.allInstrs).map Instr.id = f.blocks.flatMap Block.ids := by
    rw [map_flatMap]
    refine flatMap_congr fun b _ => ?_
    rw [Block.allInstrs, Block.ids, map_append, map_map, map_map]
    rfl
  rw [Function.allInstrs, map_append, map_append, map_map, map_map, blocks]
  refine congrArg (· ++ _) (congrArg (· ++ _) ?_)
  exact map_id _

theorem trim_ids (b : Block D) (params : BlockID → List BlockParam) :
    (b.trim keep params).ids = b.ids.filter keep := by
  rw [Block.ids, Block.ids, filter_append, filter_map, filter_map, Block.trim,
    keptParams_ids, map_map]
  rfl

theorem Trimmed.instrIDs (T : Trimmed f f' keep) (h : f.WellFormed) :
    (f'.allInstrs.map Instr.id).Nodup := by
  have all := h.instrIDs
  rw [allInstrs_ids, nodup_append'] at all ⊢
  obtain ⟨outside, inside, apart⟩ := all
  rw [nodup_append'] at outside
  obtain ⟨params, constants, separate⟩ := outside
  have fewer : f'.constants.map Constant.id ⊆ f.constants.map Constant.id := by
    rw [T.constants]
    exact (List.filter_sublist.map _).subset
  have blocksSub : f'.blocks.flatMap Block.ids ⊆ f.blocks.flatMap Block.ids := by
    intro x member
    obtain ⟨b', listed, own⟩ := mem_flatMap.mp member
    obtain ⟨b, known, -, rfl⟩ := (T.mem b').mp listed
    rw [trim_ids] at own
    exact mem_flatMap_of_mem known (mem_filter.mp own).1
  refine ⟨?_, ?_, ?_⟩
  · rw [nodup_append', T.params]
    refine ⟨params, ?_, fun x here there => separate here (fewer there)⟩
    rw [T.constants]
    exact constants.sublist (List.filter_sublist.map _)
  · rw [nodup_flatMap] at inside ⊢
    refine ⟨fun b' listed => ?_, ?_⟩
    · obtain ⟨b, known, -, rfl⟩ := (T.mem b').mp listed
      rw [trim_ids]
      exact (inside.1 b known).filter _
    · have differ : f'.blocks.Pairwise fun b c => b.id ≠ c.id := pairwise_map.mp T.blockIDs
      refine differ.imp_of_mem ?_
      intro b' c' listed listed' different x here there
      obtain ⟨b, known, -, rfl⟩ := (T.mem b').mp listed
      obtain ⟨c, known', -, rfl⟩ := (T.mem c').mp listed'
      rw [trim_ids] at here there
      have symm : Std.Symm (Function.onFun List.Disjoint (Block.ids (D := D))) :=
        ⟨fun _ _ disjoint => disjoint.symm⟩
      have unequal : b ≠ c := by
        rintro rfl
        exact different rfl
      exact inside.2.forall known known' unequal (mem_filter.mp here).1 (mem_filter.mp there).1
  · intro x here there
    refine apart (mem_append.mpr ?_) (blocksSub there)
    rw [T.params] at here
    exact (mem_append.mp here).imp_right fun constant => fewer constant

theorem kept_pairs_fst {ps : List BlockParam} {args : List InstrID} (count : args.length = ps.length) :
    ((ps.zip args).filter fun pa => keep pa.1.id).map Prod.fst = ps.filter fun p => keep p.id := by
  have zipped : (ps.zip args).map Prod.fst = ps := map_fst_zip (le_of_eq count.symm)
  conv_rhs => rw [← zipped, filter_map]
  rfl

theorem kept_argument {ps : List BlockParam} {args : List InstrID} (count : args.length = ps.length)
    (indices : ∀ i (p : BlockParam), ps[i]? = some p → p.index = i) {p : BlockParam} (held : p ∈ ps)
    (kept : keep p.id = true) {y : InstrID} (passed : args[p.index]? = some y) :
    ∃ p' ∈ keptParams keep ps, p'.id = p.id ∧
      (((ps.zip args).filter fun pa => keep pa.1.id).map Prod.snd)[p'.index]? = some y := by
  obtain ⟨i, here⟩ := mem_iff_getElem?.mp held
  rw [indices i p here] at passed
  have pair : (p, y) ∈ (ps.zip args).filter fun pa => keep pa.1.id :=
    mem_filter.mpr ⟨mem_of_getElem? (List.getElem?_zip_eq_some.mpr ⟨here, passed⟩), kept⟩
  obtain ⟨j, there⟩ := mem_iff_getElem?.mp pair
  have param : (ps.filter fun p => keep p.id)[j]? = some p := by
    rw [← kept_pairs_fst count, List.getElem?_map, there]
    rfl
  refine ⟨{ p with index := j }, mem_of_getElem? (i := j) ?_, rfl, ?_⟩
  · rw [keptParams, List.getElem?_mapIdx, param]
    rfl
  · rw [List.getElem?_map, there]
    rfl

theorem Function.WellFormed.trim_argument (h : f.WellFormed) {b : Block D} (member : b ∈ f.blocks)
    (reached : f.Reached b.id) {s : BlockSuccessor} (inside : s ∈ b.successors) {y : InstrID}
    (passed : y ∈ (s.trim keep f.origBlockParams).args) :
    y ∈ s.args ∧ ∃ x, keep x = true ∧ f.Uses Kind.operands x y := by
  obtain ⟨pa, pair, rfl⟩ := mem_map.mp passed
  obtain ⟨zipped, kept⟩ := mem_filter.mp pair
  refine ⟨(of_mem_zip zipped).2, pa.1.id, kept, ?_⟩
  obtain ⟨target, known, same⟩ := mem_map.mp (h.targets b member s inside)
  rw [← same, h.origBlockParams known] at zipped
  obtain ⟨i, there⟩ := mem_iff_getElem?.mp zipped
  obtain ⟨param, arg⟩ := List.getElem?_zip_eq_some.mp there
  have goal : f.Reached target.id := same ▸ reached.step h member inside
  refine .argument known member reached inside same.symm (mem_of_getElem? param) ?_
  rw [h.indices target known goal i pa.1 param]
  exact arg

theorem Trimmed.available (T : Trimmed f f' keep) (h : f.WellFormed)
    (effects : ∀ x, f.Effect x → keep x = true) {b : Block D} (reached : f.Reached b.id)
    {before : List (Stmt D)} {x : InstrID} (available : f.Available b before x)
    (kept : x ∈ f.params ∨ keep x = true) :
    f'.Available (b.trim keep f.origBlockParams)
      ((before.filter fun s => keep s.id).map (Stmt.trim keep f.origBlockParams)) x := by
  rcases kept with param | kept
  · exact .inl (T.params ▸ param)
  rcases available with param | constant | own | own | ⟨d, known, differs, dominates, own⟩
  · exact .inl (T.params ▸ param)
  · obtain ⟨c, inside, rfl⟩ := mem_map.mp constant
    refine .inr (.inl ?_)
    rw [T.constants]
    exact mem_map_of_mem (mem_filter.mpr ⟨inside, kept⟩)
  · obtain ⟨p, inside, rfl⟩ := mem_map.mp own
    refine .inr (.inr (.inl ?_))
    change p.id ∈ (keptParams keep b.params).map BlockParam.id
    rw [keptParams_ids]
    exact mem_map_of_mem (mem_filter.mpr ⟨inside, kept⟩)
  · obtain ⟨s, inside, rfl⟩ := mem_map.mp own
    refine .inr (.inr (.inr (.inl ?_)))
    rw [map_map]
    exact mem_map_of_mem (f := Stmt.id ∘ Stmt.trim keep f.origBlockParams)
      (mem_filter.mpr ⟨inside, kept⟩)
  · refine .inr (.inr (.inr (.inr ⟨d.trim keep f.origBlockParams,
      (T.mem _).mpr ⟨d, known, dominates.reached reached, rfl⟩, differs,
      T.dominates h effects dominates, ?_⟩)))
    rw [trim_ids]
    exact mem_filter.mpr ⟨own, kept⟩

theorem split_of_kept {instrs : List (Stmt D)} {params : BlockID → List BlockParam}
    {before' after' : List (Stmt D)} {s' : Stmt D}
    (h : (instrs.filter fun s => keep s.id).map (Stmt.trim keep params) = before' ++ s' :: after') :
    ∃ before s after, instrs = before ++ s :: after ∧ keep s.id = true ∧ s.trim keep params = s' ∧
      (before.filter fun s => keep s.id).map (Stmt.trim keep params) = before' := by
  obtain ⟨early, late, split, rfl, tail⟩ := map_eq_append_iff.mp h
  obtain ⟨s, rest, rfl, rfl, -⟩ := map_eq_cons_iff.mp tail
  obtain ⟨before, after, rfl, rfl, left⟩ := filter_eq_append_iff.mp split
  obtain ⟨skipped, final, rfl, none, kept, -⟩ := filter_eq_cons_iff.mp left
  refine ⟨before ++ skipped, s, final, (append_assoc _ _ _).symm, kept, rfl, ?_⟩
  rw [filter_append, filter_eq_nil_iff.mpr none, append_nil]

theorem Trimmed.wellFormed (T : Trimmed f f' keep) (h : f.WellFormed) (closed : f.Closed keep) :
    f'.WellFormed := by
  have successors := fun (b : Block D) (member : b ∈ f.blocks) (reached : f.Reached b.id) =>
    trim_block_successors h closed.effects member reached
  refine ⟨?_, T.blockIDs, T.instrIDs h, ?_, ?_, ?_, ?_, ?_, ?_⟩
  · intro none
    have head := T.head
    rw [none] at head
    exact h.blocks (List.head?_eq_none_iff.mp (Option.map_eq_none_iff.mp head.symm))
  · intro b' listed s' leads
    obtain ⟨b, member, reached, rfl⟩ := (T.mem b').mp listed
    rw [successors b member reached] at leads
    obtain ⟨s, inside, rfl⟩ := mem_map.mp leads
    obtain ⟨target, known, same⟩ := mem_map.mp (h.targets b member s inside)
    have goal : f.Reached target.id := same ▸ reached.step h member inside
    exact mem_map.mpr ⟨_, (T.mem _).mpr ⟨target, known, goal, rfl⟩, same⟩
  · intro b' listed _
    obtain ⟨b, member, reached, rfl⟩ := (T.mem b').mp listed
    obtain ⟨body, t, last, final, others⟩ := h.terminated b member reached
    have inner : t ∈ b.instrs := by
      rw [last]
      exact mem_append_right _ mem_cons_self
    have live : keep t.id = true :=
      closed.effects t.id ⟨b, member, reached, t, inner, alwaysLive_of_terminator final, rfl⟩
    have alone : ([t].filter fun s => keep s.id) = [t] :=
      filter_eq_self.mpr fun s single => mem_singleton.mp single ▸ live
    refine ⟨(body.filter fun s => keep s.id).map (Stmt.trim keep f.origBlockParams),
      t.trim keep f.origBlockParams, ?_, ?_, ?_⟩
    · rw [Block.trim, last, filter_append, alone, map_append]
      rfl
    · exact (trim_isTerminator t.kind).trans final
    · intro s' early
      obtain ⟨s, kept, rfl⟩ := mem_map.mp early
      exact (trim_isTerminator s.kind).trans (others s (mem_filter.mp kept).1)
  · intro b' listed _ i p here
    obtain ⟨b, member, reached, rfl⟩ := (T.mem b').mp listed
    exact keptParams_index here
  · intro b' listed _ s' leads target' listed' same
    obtain ⟨b, member, reached, rfl⟩ := (T.mem b').mp listed
    obtain ⟨target, known, -, rfl⟩ := (T.mem target').mp listed'
    rw [successors b member reached] at leads
    obtain ⟨s, inside, rfl⟩ := mem_map.mp leads
    have count := h.count member reached inside
    have here : f.origBlockParams s.target = target.params := by
      rw [← h.origBlockParams known]
      exact congrArg f.origBlockParams same.symm
    rw [here] at count
    change ((((f.origBlockParams s.target).zip s.args).filter _).map Prod.snd).length =
      (keptParams keep target.params).length
    rw [here, keptParams_length, length_map, ← kept_pairs_fst count, length_map]
  · intro b' listed _ before' s' after' split x operand
    obtain ⟨b, member, reached, rfl⟩ := (T.mem b').mp listed
    obtain ⟨before, s, after, whole, kept, rfl, rfl⟩ := split_of_kept split
    have operand : x ∈ s.kind.operands := trim_operands s.kind ▸ operand
    have inside : s ∈ b.instrs := by
      rw [whole]
      exact mem_append_right _ mem_cons_self
    exact T.available h closed.effects reached
      (h.operands b member reached before s after whole x operand)
      (closed.uses s.id x kept (.operand member reached inside operand))
  · intro b' listed _ s' leads x passed
    obtain ⟨b, member, reached, rfl⟩ := (T.mem b').mp listed
    rw [successors b member reached] at leads
    obtain ⟨s, inside, rfl⟩ := mem_map.mp leads
    obtain ⟨argument, user, kept, uses⟩ := h.trim_argument member reached inside passed
    exact T.available h closed.effects reached (h.arguments b member reached s inside x argument)
      (closed.uses user x kept uses)

theorem Trimmed.effect (T : Trimmed f f' keep) (h : f.WellFormed)
    (effects : ∀ x, f.Effect x → keep x = true) {x : InstrID} (effect : f.Effect x) :
    f'.Effect x := by
  have kept := effects x effect
  obtain ⟨b, member, reached, s, listed, live, rfl⟩ := effect
  refine ⟨_, (T.mem _).mpr ⟨b, member, reached, rfl⟩, (T.reached h effects).mpr reached,
    s.trim keep f.origBlockParams, mem_map_of_mem (mem_filter.mpr ⟨listed, kept⟩), ?_, rfl⟩
  exact (trim_alwaysLive s.kind).trans live

theorem Trimmed.uses (T : Trimmed f f' keep) (h : f.WellFormed)
    (effects : ∀ x, f.Effect x → keep x = true) {x y : InstrID} (kept : keep x = true)
    (uses : f.Uses Kind.visitNonBlockArgInputs x y) :
    f'.Uses Kind.visitNonBlockArgInputs x y := by
  cases uses with
  | @operand b s _ member reached listed visited =>
    have inside : s.trim keep f.origBlockParams ∈ (b.trim keep f.origBlockParams).instrs :=
      mem_map_of_mem (mem_filter.mpr ⟨listed, kept⟩)
    refine Function.Uses.operand (s := s.trim keep f.origBlockParams)
      ((T.mem _).mpr ⟨b, member, reached, rfl⟩) ((T.reached h effects).mpr reached) inside ?_
    exact (trim_visited s.kind).symm ▸ visited
  | @argument b p s param _ member known reached leads target held passed =>
    have goal : f.Reached b.id := target ▸ reached.step h known leads
    have count := h.counts p known reached s leads b member target.symm
    obtain ⟨param', held', same, passed'⟩ :=
      kept_argument count (h.indices b member goal) held kept passed
    rw [← same]
    refine .argument (b := b.trim keep f.origBlockParams) (p := p.trim keep f.origBlockParams)
      (s := s.trim keep f.origBlockParams) ((T.mem _).mpr ⟨b, member, goal, rfl⟩)
      ((T.mem _).mpr ⟨p, known, reached, rfl⟩) ((T.reached h effects).mpr reached) ?_ target held' ?_
    · rw [trim_block_successors h effects known reached]
      exact mem_map_of_mem leads
    · change ((((f.origBlockParams s.target).zip s.args).filter _).map Prod.snd)[param'.index]? = _
      rw [target, h.origBlockParams member]
      exact passed'

theorem Trimmed.visited (T : Trimmed f f' keep) (h : f.WellFormed)
    (live : ∀ x, keep x = true ↔ f.Visited x) {x : InstrID} (visited : f.Visited x) :
    f'.Visited x := by
  have effects : ∀ x, f.Effect x → keep x = true := fun x effect => (live x).mpr effect.chained
  exact visited.induct (fun x effect => (T.effect h effects effect).chained)
    fun x y before ih uses => ih.step (T.uses h effects ((live x).mpr before) uses)

theorem Trimmed.run_again (T : Trimmed f f' keep) (h : f.WellFormed) (closed : f.Closed keep)
    (live : ∀ x, keep x = true ↔ f.Visited x) : f'.run = some (f', false) := by
  have h' := T.wellFormed h closed
  obtain ⟨f'', changed, isLive, ran, live', -, same⟩ := run_trims h'
  have kept : ∀ x, keep x = true → isLive x = true := fun x this =>
    (live' x).mpr (T.visited h live ((live x).mp this))
  obtain ⟨rfl, rfl⟩ := same
    (fun b' listed => by
      obtain ⟨b, -, reached, rfl⟩ := (T.mem b').mp listed
      exact (T.reached h closed.effects).mpr reached)
    (fun b' listed x own => by
      obtain ⟨b, -, -, rfl⟩ := (T.mem b').mp listed
      rw [trim_ids] at own
      exact kept x (mem_filter.mp own).2)
    fun c listed => by
      rw [T.constants] at listed
      exact kept c.id (mem_filter.mp listed).2
  exact ran

end SkipPlatform.DeadCode
