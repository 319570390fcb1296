import SkipPlatform.DeadCodeLive

set_option autoImplicit false

/-! What is left of a function when the instructions of a set are kept, and that the pass leaves just
this of the live ones. -/
namespace SkipPlatform.DeadCode
open List MarkStack Dominators

variable {D : Type} {f : Function D}

def BlockSuccessor.trim (keep : InstrID → Bool) (params : BlockID → List BlockParam)
    (s : BlockSuccessor) : BlockSuccessor :=
  { s with args := (((params s.target).zip s.args).filter fun pa => keep pa.1.id).map Prod.snd }

def Kind.trim (keep : InstrID → Bool) (params : BlockID → List BlockParam) : Kind → Kind
  | .terminator t successors => .terminator t (successors.map (BlockSuccessor.trim keep params))
  | kind => kind

def Stmt.trim (keep : InstrID → Bool) (params : BlockID → List BlockParam) (s : Stmt D) : Stmt D :=
  { s with kind := s.kind.trim keep params }

def keptParams (keep : InstrID → Bool) (params : List BlockParam) : List BlockParam :=
  (params.filter fun p => keep p.id).mapIdx fun i p => { p with index := i }

def Block.trim (keep : InstrID → Bool) (params : BlockID → List BlockParam) (b : Block D) :
    Block D :=
  ⟨b.id, keptParams keep b.params, (b.instrs.filter fun s => keep s.id).map (Stmt.trim keep params)⟩

/-- The second function has what is kept of the first, and none of the blocks that cannot run. -/
structure Trimmed (f f' : Function D) (keep : InstrID → Bool) : Prop where
  params : f'.params = f.params
  constants : f'.constants = f.constants.filter fun c => keep c.id
  head : f'.blocks.head? = f.blocks.head?.map (Block.trim keep f.origBlockParams)
  mem : ∀ b', b' ∈ f'.blocks ↔
    ∃ b ∈ f.blocks, f.Reached b.id ∧ b.trim keep f.origBlockParams = b'
  blockIDs : (f'.blocks.map Block.id).Nodup

section trim
variable {keep : InstrID → Bool} {params : BlockID → List BlockParam}

theorem trim_args_all {s : BlockSuccessor} (count : s.args.length = (params s.target).length)
    (same : (s.trim keep params).args.length = s.args.length) : s.trim keep params = s := by
  have zipped : ((params s.target).zip s.args).map Prod.snd = s.args :=
    map_snd_zip (le_of_eq count)
  have all : ((params s.target).zip s.args).filter (fun pa => keep pa.1.id) =
      (params s.target).zip s.args := by
    refine filter_eq_self.mpr (length_filter_eq_length_iff.mp ?_)
    rw [BlockSuccessor.trim, length_map] at same
    rw [same, ← congrArg List.length zipped, length_map]
  rw [BlockSuccessor.trim, all, zipped]

theorem trim_args_kept {s : BlockSuccessor} (count : s.args.length = (params s.target).length)
    (all : ∀ p ∈ params s.target, keep p.id = true) : s.trim keep params = s := by
  have zipped : ((params s.target).zip s.args).map Prod.snd = s.args :=
    map_snd_zip (le_of_eq count)
  have kept : ((params s.target).zip s.args).filter (fun pa => keep pa.1.id) =
      (params s.target).zip s.args :=
    filter_eq_self.mpr fun pa member => all pa.1 (of_mem_zip member).1
  rw [BlockSuccessor.trim, kept, zipped]

variable (ps : List BlockParam)

theorem liveArgs_eq (args : List InstrID) (count : args.length ≤ ps.length) :
    liveArgs keep ps args = some (((ps.zip args).filter fun pa => keep pa.1.id).map Prod.snd) := by
  induction args generalizing ps with
  | nil => cases ps <;> rfl
  | cons arg args ih =>
    cases ps with
    | nil => exact absurd count (by simp)
    | cons p ps =>
      rw [liveArgs, ih ps (Nat.le_of_succ_le_succ count), zip_cons_cons, filter_cons]
      split
      · rfl
      · rfl

theorem keptParams_length :
    (keptParams keep ps).length = (ps.filter fun p => keep p.id).length := length_mapIdx

theorem keptParams_ids :
    (keptParams keep ps).map BlockParam.id =
      (ps.filter fun p => keep p.id).map BlockParam.id := by
  refine ext_getElem? fun i => ?_
  rw [keptParams, List.getElem?_map, List.getElem?_mapIdx, List.getElem?_map, Option.map_map]
  rfl

theorem keptParams_index {ps : List BlockParam} {i : ℕ} {p : BlockParam}
    (h : (keptParams keep ps)[i]? = some p) : p.index = i := by
  rw [keptParams, List.getElem?_mapIdx] at h
  obtain ⟨q, -, rfl⟩ := Option.map_eq_some_iff.mp h
  rfl

theorem keptParams_all {ps : List BlockParam} (indices : ∀ i (p : BlockParam), ps[i]? = some p → p.index = i)
    (all : (ps.filter fun p => keep p.id) = ps) : keptParams keep ps = ps := by
  rw [keptParams, all]
  refine mapIdx_eq_iff.mpr fun i => ?_
  cases here : ps[i]? with
  | none => rfl
  | some p => rw [Option.map_some, ← indices i p here]

variable (kind : Kind)

theorem trim_operands : (kind.trim keep params).operands = kind.operands := by
  cases kind <;> rfl

theorem trim_visited :
    (kind.trim keep params).visitNonBlockArgInputs = kind.visitNonBlockArgInputs := by
  cases kind <;> rfl

theorem trim_alwaysLive : alwaysLive (kind.trim keep params) = alwaysLive kind := by
  cases kind <;> rfl

theorem trim_isTerminator : (kind.trim keep params).isTerminator = kind.isTerminator := by
  cases kind <;> rfl

theorem trim_successors :
    (kind.trim keep params).successors = kind.successors.map (BlockSuccessor.trim keep params) := by
  cases kind <;> rfl

theorem trim_stmt_self {s : Stmt D}
    (h : ∀ succ ∈ s.kind.successors, succ.trim keep params = succ) : s.trim keep params = s := by
  obtain ⟨id, data, kind⟩ := s
  cases kind with
  | terminator t successors =>
    have h : ∀ succ ∈ successors, succ.trim keep params = succ := h
    have same : successors.map (BlockSuccessor.trim keep params) = successors := by
      rw [map_congr_left h, map_id']
    rw [Stmt.trim, Kind.trim, same]
  | _ => rfl

theorem successors_of_end {b : Block D} {body : List (Stmt D)} {t : Stmt D}
    (last : b.instrs = body ++ [t]) : b.successors = t.kind.successors := by
  rw [Block.successors, last, List.getLast?_concat]

theorem Kind.successors_of_body {kind : Kind} (h : kind.isTerminator = false) :
    kind.successors = [] := by
  cases kind with
  | terminator => cases h
  | _ => rfl

theorem alwaysLive_of_terminator {kind : Kind} (h : kind.isTerminator = true) :
    alwaysLive kind = true := by
  cases kind with
  | terminator => rfl
  | _ => cases h

end trim

section pass
variable {isLive : InstrID → Bool}

theorem Function.WellFormed.origBlockParams (h : f.WellFormed) {b : Block D} (member : b ∈ f.blocks) :
    f.origBlockParams b.id = b.params := by
  rw [Function.origBlockParams, h.getBlock member]

variable {b : Block D}

theorem Function.WellFormed.count (h : f.WellFormed) (member : b ∈ f.blocks)
    (reached : f.Reached b.id) {s : BlockSuccessor} (inside : s ∈ b.successors) :
    s.args.length = (f.origBlockParams s.target).length := by
  obtain ⟨target, known, same⟩ := mem_map.mp (h.targets b member s inside)
  rw [← same, h.origBlockParams known]
  exact h.counts b member reached s inside target known same

theorem Function.WellFormed.stmt_successors (h : f.WellFormed) (member : b ∈ f.blocks)
    (reached : f.Reached b.id) {s : Stmt D} (listed : s ∈ b.instrs) :
    ∀ succ ∈ s.kind.successors, succ ∈ b.successors := by
  obtain ⟨body, t, last, -, others⟩ := h.terminated b member reached
  intro succ inside
  rw [last] at listed
  rcases mem_append.mp listed with early | final
  · rw [Kind.successors_of_body (others s early)] at inside
    exact absurd inside not_mem_nil
  · rw [successors_of_end last, ← mem_singleton.mp final]
    exact inside

theorem optimizeSuccessor_eq {s : BlockSuccessor}
    (count : s.args.length = (f.origBlockParams s.target).length) :
    f.optimizeSuccessor isLive s = some (s.trim isLive f.origBlockParams,
      decide (s.trim isLive f.origBlockParams ≠ s)) := by
  rw [Function.optimizeSuccessor, liveArgs_eq _ _ (le_of_eq count)]
  change some (if (s.trim isLive f.origBlockParams).args.length = s.args.length then (s, false) else
    (s.trim isLive f.origBlockParams, true)) = _
  split
  · rename_i same
    have self := trim_args_all count same
    rw [self]
    simp
  · rename_i fewer
    have differs : s.trim isLive f.origBlockParams ≠ s :=
      fun self => fewer (congrArg (fun s => s.args.length) self)
    simp [differs]

theorem mapM_eq {A B : Type} {g : A → Option B} {k : A → B} {l : List A}
    (h : ∀ a ∈ l, g a = some (k a)) : l.mapM g = some (l.map k) := by
  induction l with
  | nil => rfl
  | cons a l ih =>
    rw [mapM_cons, h a mem_cons_self, ih fun a member => h a (mem_cons_of_mem _ member)]
    rfl

theorem optimizeInstr_eq {s : Stmt D}
    (counts : ∀ succ ∈ s.kind.successors, succ.args.length = (f.origBlockParams succ.target).length) :
    ∃ changed, f.optimizeInstr isLive s =
        some (if isLive s.id then [s.trim isLive f.origBlockParams] else [], changed) ∧
      (changed = false ↔ isLive s.id = true ∧ s.trim isLive f.origBlockParams = s) := by
  unfold Function.optimizeInstr
  cases live : isLive s.id with
  | false => exact ⟨true, rfl, by simp⟩
  | true =>
    rw [if_pos rfl, if_pos rfl]
    obtain ⟨id, data, kind⟩ := s
    cases kind with
    | terminator t successors =>
      have counts : ∀ succ ∈ successors,
          succ.args.length = (f.origBlockParams succ.target).length := counts
      dsimp only
      rw [mapM_eq fun succ member => optimizeSuccessor_eq (counts succ member)]
      have mapped : (successors.map fun succ => (succ.trim isLive f.origBlockParams,
          decide (succ.trim isLive f.origBlockParams ≠ succ))).map Prod.fst =
            successors.map (BlockSuccessor.trim isLive f.origBlockParams) := by
        rw [map_map]
        rfl
      simp only [Option.bind_eq_bind, Option.bind_some, mapped]
      split
      · rename_i some_changed
        refine ⟨true, rfl, iff_of_false Bool.true_eq_false.mp fun both => ?_⟩
        obtain ⟨pair, member, differs⟩ := any_eq_true.mp some_changed
        obtain ⟨succ, inside, rfl⟩ := mem_map.mp member
        have self := (Kind.terminator.inj (congrArg Stmt.kind both.2)).2
        have each : ∀ succ ∈ successors, succ.trim isLive f.origBlockParams = succ := by
          rw [map_eq_iff] at self
          intro succ inside
          obtain ⟨i, here⟩ := mem_iff_getElem?.mp inside
          have this := self i
          rw [here] at this
          exact (Option.some.inj this).symm
        exact of_decide_eq_true differs (each succ inside)
      · rename_i none_changed
        have each : ∀ succ ∈ successors, succ.trim isLive f.origBlockParams = succ := by
          intro succ inside
          by_contra differs
          exact none_changed (any_eq_true.mpr
            ⟨_, mem_map_of_mem inside, decide_eq_true differs⟩)
        have self := trim_stmt_self (s := ⟨id, data, .terminator t successors⟩) each
        exact ⟨false, by rw [self], iff_of_true rfl ⟨trivial, self⟩⟩
    | _ => exact ⟨false, rfl, iff_of_true rfl ⟨rfl, rfl⟩⟩

theorem beginOptimizeBlock_eq (indices : ∀ i
    (p : BlockParam), b.params[i]? = some p → p.index = i) :
    ∃ changed, beginOptimizeBlock isLive b = (keptParams isLive b.params, changed) ∧
      (changed = false ↔ ∀ p ∈ b.params, isLive p.id = true) := by
  unfold beginOptimizeBlock
  by_cases same : (b.params.filter fun p => isLive p.id).length = b.params.length
  · have all := length_filter_eq_length_iff.mp same
    rw [if_pos same]
    refine ⟨false, ?_, iff_of_true rfl all⟩
    rw [keptParams_all indices (filter_eq_self.mpr all)]
  · rw [if_neg same]
    refine ⟨true, ?_, iff_of_false Bool.true_eq_false.mp fun all =>
      same (length_filter_eq_length_iff.mpr all)⟩
    refine Prod.ext ?_ rfl
    refine congrArg (fun g => List.mapIdx g _) (funext fun i => funext fun p => ?_)
    by_cases index : p.index = i
    · rw [if_pos index, ← index]
    · rw [if_neg index]

theorem optimizeBlock_eq (h : f.WellFormed) (member : b ∈ f.blocks)
    (reached : f.Reached b.id) (effects : ∀ x, f.Effect x → isLive x = true) :
    ∃ changed, f.optimizeBlock isLive b = some ([b.trim isLive f.origBlockParams], changed) ∧
      (changed = false ↔ (∀ p ∈ b.params, isLive p.id = true) ∧
        ∀ s ∈ b.instrs, isLive s.id = true ∧ s.trim isLive f.origBlockParams = s) ∧
      (changed = false → b.trim isLive f.origBlockParams = b) := by
  have indices := h.indices b member reached
  have params : ∃ changed, beginOptimizeBlock isLive b = (keptParams isLive b.params, changed) ∧
      (changed = false ↔ ∀ p ∈ b.params, isLive p.id = true) := beginOptimizeBlock_eq indices
  obtain ⟨paramsChanged, begun, params_iff⟩ := params
  have step : ∀ s ∈ b.instrs, ∃ changed, f.optimizeInstr isLive s =
      some (if isLive s.id then [s.trim isLive f.origBlockParams] else [], changed) ∧
        (changed = false ↔ isLive s.id = true ∧ s.trim isLive f.origBlockParams = s) :=
    fun s listed => optimizeInstr_eq fun succ inside =>
      h.count member reached (h.stmt_successors member reached listed succ inside)
  choose! changed made iff_ using step
  have emitted := mapM_eq made
  have instrs : (b.instrs.map fun s => (if isLive s.id then [s.trim isLive f.origBlockParams] else [],
      changed s)).flatMap Prod.fst =
        (b.instrs.filter fun s => isLive s.id).map (Stmt.trim isLive f.origBlockParams) := by
    rw [flatMap_map]
    induction b.instrs with
    | nil => rfl
    | cons s instrs ih =>
      rw [flatMap_cons, ih, filter_cons]
      split
      · rfl
      · rfl
  have nonempty : ((b.instrs.filter fun s => isLive s.id).map
      (Stmt.trim isLive f.origBlockParams)).isEmpty = false := by
    obtain ⟨body, t, last, final, -⟩ := h.terminated b member reached
    have listed : t ∈ b.instrs := by
      rw [last]
      exact mem_append_right _ mem_cons_self
    have live : isLive t.id = true :=
      effects t.id ⟨b, member, reached, t, listed, alwaysLive_of_terminator final, rfl⟩
    exact isEmpty_eq_false_iff_exists_mem.mpr
      ⟨_, mem_map_of_mem (mem_filter.mpr ⟨listed, live⟩)⟩
  have any_iff : ((b.instrs.map fun s => (if isLive s.id then [s.trim isLive f.origBlockParams] else [],
      changed s)).any Prod.snd = false) ↔
        ∀ s ∈ b.instrs, isLive s.id = true ∧ s.trim isLive f.origBlockParams = s := by
    rw [any_eq_false]
    constructor
    · intro all s listed
      exact (iff_ s listed).mp (Bool.eq_false_iff.mpr (all _ (mem_map_of_mem listed)))
    · rintro all pair inside
      obtain ⟨s, listed, rfl⟩ := mem_map.mp inside
      exact Bool.eq_false_iff.mp ((iff_ s listed).mpr (all s listed))
  have both : (paramsChanged || (b.instrs.map fun s =>
      (if isLive s.id then [s.trim isLive f.origBlockParams] else [], changed s)).any Prod.snd) = false ↔
        (∀ p ∈ b.params, isLive p.id = true) ∧
          ∀ s ∈ b.instrs, isLive s.id = true ∧ s.trim isLive f.origBlockParams = s := by
    rw [Bool.or_eq_false_iff, params_iff, any_iff]
  have self : (∀ p ∈ b.params, isLive p.id = true) ∧ (∀ s ∈ b.instrs, isLive s.id = true ∧
      s.trim isLive f.origBlockParams = s) → b.trim isLive f.origBlockParams = b := by
    rintro ⟨params, stmts⟩
    rw [Block.trim, keptParams_all indices (filter_eq_self.mpr params),
      filter_eq_self.mpr fun s listed => (stmts s listed).1,
      map_congr_left fun s listed => (stmts s listed).2, map_id']
  refine ⟨_, ?_, both, fun none => self (both.mp none)⟩
  unfold Function.optimizeBlock
  rw [begun]
  simp only [emitted, Option.bind_eq_bind, Option.bind_some, instrs, nonempty]
  cases any : (paramsChanged || (b.instrs.map fun s =>
      (if isLive s.id then [s.trim isLive f.origBlockParams] else [], changed s)).any Prod.snd) with
  | true => rfl
  | false => rw [self (both.mp any)]; rfl

end pass

theorem Function.Order.all_reached {rpo : List BlockID} {predecessors : BlockID → List BlockID}
    {blocks : List (Block D)} (o : f.Order rpo predecessors blocks) (h : f.WellFormed) :
    decide (rpo.length ≠ f.blocks.length) = false ↔ ∀ b ∈ f.blocks, f.Reached b.id := by
  have nodup : blocks.Nodup := by
    refine List.Nodup.of_map Block.id ?_
    rw [o.ids]
    exact o.nodup
  have sub : blocks.Subperm f.blocks :=
    subperm_of_subset nodup fun b member => ((o.mem b).mp member).1
  have lengths : rpo.length = blocks.length := by rw [← o.ids, length_map]
  rw [decide_eq_false_iff_not, not_not, lengths]
  constructor
  · intro same b member
    exact ((o.mem b).mp ((sub.perm_of_length_le (le_of_eq same.symm)).mem_iff.mpr member)).2
  · intro reached
    have all : f.blocks.Subperm blocks :=
      subperm_of_subset (List.Nodup.of_map _ h.blockIDs) fun b member =>
        (o.mem b).mpr ⟨member, reached b member⟩
    exact le_antisymm sub.length_le all.length_le

theorem run_trims (h : f.WellFormed) : ∃ f' changed isLive, f.run = some (f', changed) ∧
    (∀ x, isLive x = true ↔ f.Visited x) ∧ Trimmed f f' isLive ∧
    ((∀ b ∈ f.blocks, f.Reached b.id) → (∀ b ∈ f.blocks, ∀ x ∈ b.ids, isLive x = true) →
      (∀ c ∈ f.constants, isLive c.id = true) → f' = f ∧ changed = false) := by
  obtain ⟨rpo, predecessors, blocks, ordered, predecessed, listed, o⟩ := order_ends h
  obtain ⟨isLive, marked, live⟩ := markLive_visited h o
  have effects : ∀ x, f.Effect x → isLive x = true := fun x effect => (live x).mpr effect.chained
  have step : ∀ b ∈ blocks, ∃ changed,
      f.optimizeBlock isLive b = some ([b.trim isLive f.origBlockParams], changed) ∧
      (changed = false ↔ (∀ p ∈ b.params, isLive p.id = true) ∧
        ∀ s ∈ b.instrs, isLive s.id = true ∧ s.trim isLive f.origBlockParams = s) ∧
      (changed = false → b.trim isLive f.origBlockParams = b) := fun b member =>
    optimizeBlock_eq h ((o.mem b).mp member).1 ((o.mem b).mp member).2 effects
  choose! changed made iff_ self using step
  have emitted := mapM_eq made
  have trimmed : (blocks.map fun b => ([b.trim isLive f.origBlockParams], changed b)).flatMap Prod.fst =
      blocks.map (Block.trim isLive f.origBlockParams) := by
    rw [flatMap_map, map_eq_flatMap]
  generalize anyBlock : (decide (rpo.length ≠ f.blocks.length) || (blocks.map fun b =>
    ([b.trim isLive f.origBlockParams], changed b)).any Prod.snd) = anyBlockChanged
  generalize anyConstant : decide ((f.constants.filter fun c => isLive c.id).length ≠
    f.constants.length) = constantsChanged
  have same_blocks : anyBlockChanged = false ↔ (∀ b ∈ f.blocks, f.Reached b.id) ∧
      ∀ b ∈ blocks, changed b = false := by
    rw [← anyBlock, Bool.or_eq_false_iff, o.all_reached h, any_map, any_eq_false]
    exact and_congr_right' (forall₂_congr fun b _ => Bool.eq_false_iff.symm)
  have constants : (if constantsChanged then f.constants.filter fun c => isLive c.id
      else f.constants) = f.constants.filter fun c => isLive c.id := by
    subst anyConstant
    split
    · rfl
    · rename_i same
      have lengths : (f.constants.filter fun c => isLive c.id).length = f.constants.length := by
        by_contra fewer
        exact same (decide_eq_true fewer)
      exact (filter_eq_self.mpr (length_filter_eq_length_iff.mp lengths)).symm
  refine ⟨{ f with
      constants := if constantsChanged then f.constants.filter fun c => isLive c.id else f.constants
      blocks := if anyBlockChanged then blocks.map (Block.trim isLive f.origBlockParams)
        else f.blocks }, anyBlockChanged || constantsChanged, isLive, ?_, live, ?_, ?_⟩
  · unfold Function.run
    simp only [ordered, predecessed, listed, marked, emitted, Option.bind_eq_bind, Option.bind_some,
      anyBlock, anyConstant, trimmed]
    cases anyBlockChanged <;> cases constantsChanged <;> rfl
  · cases anyBlockChanged with
    | true =>
      refine ⟨rfl, constants, ?_, fun b' => ?_, ?_⟩
      · change (blocks.map _).head? = _
        rw [List.head?_map, o.head]
      · change b' ∈ blocks.map _ ↔ _
        rw [mem_map]
        constructor
        · rintro ⟨b, member, same⟩
          exact ⟨b, ((o.mem b).mp member).1, ((o.mem b).mp member).2, same⟩
        · rintro ⟨b, member, reached, same⟩
          exact ⟨b, (o.mem b).mpr ⟨member, reached⟩, same⟩
      · change ((blocks.map _).map Block.id).Nodup
        rw [map_map]
        change (blocks.map Block.id).Nodup
        rw [o.ids]
        exact o.nodup
    | false =>
      obtain ⟨reached, none⟩ := same_blocks.mp rfl
      have all : ∀ b ∈ f.blocks, b.trim isLive f.origBlockParams = b := fun b member =>
        have listed := (o.mem b).mpr ⟨member, reached b member⟩
        self b listed (none b listed)
      refine ⟨rfl, constants, ?_, fun b' => ?_, h.blockIDs⟩
      · change f.blocks.head? = _
        cases head : f.blocks.head? with
        | none => rfl
        | some b => rw [Option.map_some, all b (mem_of_head? head)]
      · constructor
        · exact fun member => ⟨b', member, reached b' member, all b' member⟩
        · rintro ⟨b, member, -, same⟩
          rw [all b member] at same
          exact same ▸ member
  · intro reached blocksLive constantsLive
    have unchanged : anyBlockChanged = false := by
      refine same_blocks.mpr ⟨reached, fun b member => (iff_ b member).mpr ?_⟩
      obtain ⟨known, reach⟩ := (o.mem b).mp member
      refine ⟨fun p held => blocksLive b known p.id
          (mem_append_left _ (mem_map_of_mem held)), fun s inside =>
        ⟨blocksLive b known s.id (mem_append_right _ (mem_map_of_mem inside)), ?_⟩⟩
      refine trim_stmt_self fun succ leads => ?_
      have successor := h.stmt_successors known reach inside succ leads
      refine trim_args_kept (h.count known reach successor) fun p held => ?_
      obtain ⟨target, there, same⟩ := mem_map.mp (h.targets b known succ successor)
      rw [← same, h.origBlockParams there] at held
      exact blocksLive target there p.id (mem_append_left _ (mem_map_of_mem held))
    have same : constantsChanged = false := by
      rw [← anyConstant, decide_eq_false_iff_not, not_not]
      exact length_filter_eq_length_iff.mpr constantsLive
    rw [unchanged, same]
    exact ⟨rfl, rfl⟩

end SkipPlatform.DeadCode
