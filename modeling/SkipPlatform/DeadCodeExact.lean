import SkipPlatform.DeadCodeKept

set_option autoImplicit false

/-! What is left of a function does what the function did, and the pass is exact but for the operand
of a clone that is not visited. -/
namespace SkipPlatform.DeadCode
open List MarkStack Dominators

variable {D : Type} {f f' : Function D} {keep : InstrID → Bool}

section runs
variable {Val State Result : Type}

/-- The kept instructions and the parameters of the function have the same values. -/
def Agree (f : Function D) (keep : InstrID → Bool) (env env' : InstrID → Val) : Prop :=
  ∀ x, x ∈ f.params ∨ keep x = true → env x = env' x

/-- Both runs are at the same point, and the second is passed what is kept. -/
inductive Same (f : Function D) (keep : InstrID → Bool) :
    Status Val State Result → Status Val State Result → Prop
  | ended (r : Result) : Same f keep (.ended r) (.ended r)
  | enters {b : BlockID} {args args' : List Val} {env env' : InstrID → Val} (state : State) :
      f.Reached b → Agree f keep env env' →
      args' = (((f.origBlockParams b).zip args).filter fun pa => keep pa.1.id).map Prod.snd →
      Same f keep (.enters b args env state) (.enters b args' env' state)
  | stuck : Same f keep .stuck .stuck

theorem Same.seen {status status' : Status Val State Result} (h : Same f keep status status') :
    status.seen = status'.seen := by
  cases h <;> rfl

theorem Agree.update {env env' : InstrID → Val} (h : Agree f keep env env') (x : InstrID) (v : Val) :
    Agree f keep (Function.update env x v) (Function.update env' x v) := by
  intro y kept
  by_cases same : y = x
  · rw [same, Function.update_self, Function.update_self]
  · rw [Function.update_of_ne same, Function.update_of_ne same]
    exact h y kept

theorem Agree.drop {env env' : InstrID → Val} (h : Agree f keep env env') {x : InstrID}
    (own : x ∉ f.params) (dropped : keep x ≠ true) (v : Val) :
    Agree f keep (Function.update env x v) env' := by
  intro y kept
  have differs : y ≠ x := by
    rintro rfl
    exact kept.elim own dropped
  rw [Function.update_of_ne differs]
  exact h y kept

theorem Agree.map {env env' : InstrID → Val} (h : Agree f keep env env') {xs : List InstrID}
    (kept : ∀ x ∈ xs, x ∈ f.params ∨ keep x = true) : xs.map env = xs.map env' :=
  map_congr_left fun x member => h x (kept x member)

theorem bindParams_ids {params params' : List BlockParam}
    (same : params.map BlockParam.id = params'.map BlockParam.id) (env : InstrID → Val)
    (args : List Val) : bindParams env params args = bindParams env params' args := by
  have each : ∀ ps : List BlockParam, bindParams env ps args =
      ((ps.map BlockParam.id).zip args).foldl (fun env xv => Function.update env xv.1 xv.2) env := by
    intro ps
    rw [bindParams, zip_map_left, foldl_map]
    rfl
  rw [each, each, same]

theorem kept_zip (ps : List BlockParam) (args : List Val) :
    (ps.filter fun p => keep p.id).zip
        (((ps.zip args).filter fun pa => keep pa.1.id).map Prod.snd) =
      (ps.zip args).filter fun pa => keep pa.1.id := by
  induction ps generalizing args with
  | nil => rfl
  | cons p ps ih =>
    cases args with
    | nil => exact zip_nil_right
    | cons arg args =>
      rw [zip_cons_cons, filter_cons, filter_cons]
      split
      · rw [map_cons, zip_cons_cons, ih]
      · exact ih args

theorem Agree.bindParams {env env' : InstrID → Val} (h : Agree f keep env env')
    {params : List BlockParam} (own : ∀ p ∈ params, p.id ∉ f.params) (args : List Val) :
    Agree f keep (bindParams env params args) (bindParams env' (keptParams keep params)
      (((params.zip args).filter fun pa => keep pa.1.id).map Prod.snd)) := by
  rw [bindParams_ids (keptParams_ids params), DeadCode.bindParams, DeadCode.bindParams, kept_zip]
  have all : ∀ pa ∈ params.zip args, pa.1.id ∉ f.params := fun pa member =>
    own pa.1 (of_mem_zip member).1
  generalize params.zip args = pairs at all ⊢
  induction pairs generalizing env env' with
  | nil => exact h
  | cons pa pairs ih =>
    have rest := fun pa member => all pa (mem_cons_of_mem _ member)
    rw [foldl_cons, filter_cons]
    split
    · exact ih (h.update pa.1.id pa.2) rest
    · rename_i dropped
      exact ih (h.drop (all pa mem_cons_self) dropped pa.2) rest

theorem terminator_of_isTerminator {kind : Kind} (h : kind.isTerminator = true) :
    ∃ t successors, kind = .terminator t successors := by
  cases kind with
  | terminator t successors => exact ⟨t, successors, rfl⟩
  | _ => cases h

variable (m : Machine D Val State Result)

theorem Machine.runInstrs_other {s : Stmt D}
    (h : s.kind.isTerminator = false) (rest : List (Stmt D)) (env : InstrID → Val) (state : State) :
    m.runInstrs (s :: rest) env state =
      if alwaysLive s.kind then
        Status.andThen (m.effect s (s.kind.operands.map env) state) fun out =>
          m.runInstrs rest (Function.update env s.id out.1) out.2
      else
        m.runInstrs rest (Function.update env s.id (m.value s (s.kind.operands.map env) state))
          state := by
  obtain ⟨id, data, kind⟩ := s
  cases kind with
  | terminator => cases h
  | _ => rfl

theorem runInstrs_same (h : f.WellFormed) (closed : f.Closed keep)
    {b : Block D} (member : b ∈ f.blocks) (reached : f.Reached b.id) {instrs : List (Stmt D)}
    (inside : ∀ s ∈ instrs, s ∈ b.instrs) {env env' : InstrID → Val} (agree : Agree f keep env env')
    (state : State) : Same f keep (m.runInstrs instrs env state)
      (m.runInstrs ((instrs.filter fun s => keep s.id).map (Stmt.trim keep f.origBlockParams))
        env' state) := by
  induction instrs generalizing env env' state with
  | nil => exact .stuck
  | cons s rest ih =>
    have listed := inside s mem_cons_self
    have within : ∀ s ∈ rest, s ∈ b.instrs := fun s member => inside s (mem_cons_of_mem _ member)
    have own : s.id ∉ f.params :=
      (h.own member (mem_append_right _ (mem_map_of_mem listed))).1
    have operands : keep s.id = true → s.kind.operands.map env = s.kind.operands.map env' :=
      fun kept => agree.map fun y operand =>
        closed.uses s.id y kept (.operand member reached listed operand)
    have effect : alwaysLive s.kind = true → keep s.id = true := fun live =>
      closed.effects s.id ⟨b, member, reached, s, listed, live, rfl⟩
    have leads := h.stmt_successors member reached listed
    cases ends : s.kind.isTerminator with
    | true =>
      obtain ⟨id, data, kind⟩ := s
      obtain ⟨t, successors, rfl⟩ := terminator_of_isTerminator ends
      have kept : keep id = true := effect rfl
      rw [filter_cons, if_pos kept, map_cons]
      change Same f keep (m.runInstrs (⟨id, data, .terminator t successors⟩ :: rest) env state)
        (m.runInstrs (⟨id, data, .terminator t (successors.map
          (BlockSuccessor.trim keep f.origBlockParams))⟩ :: _) env' state)
      have values : t.visitNonBlockArgInputs.map env = t.visitNonBlockArgInputs.map env' :=
        operands kept
      simp only [Machine.runInstrs, values]
      cases m.leave id data t (t.visitNonBlockArgInputs.map env') state with
      | inl r => exact .ended r
      | inr out =>
        obtain ⟨choice, v, state⟩ := out
        simp only [Status.andThen, List.getElem?_map]
        cases here : successors[choice]? with
        | none => exact .stuck
        | some successor =>
          have leaves := leads successor (mem_of_getElem? here)
          have agree' := agree.update id v
          refine .enters state (reached.step h member leaves) agree' ?_
          have kept_args : ∀ y ∈ (successor.trim keep f.origBlockParams).args,
              y ∈ f.params ∨ keep y = true := fun y passed => by
            obtain ⟨-, user, kept, uses⟩ := h.trim_argument member reached leaves passed
            exact closed.uses user y kept uses
          have same := agree'.map kept_args
          refine same.symm.trans ?_
          rw [BlockSuccessor.trim, zip_map_right, filter_map, map_map,
            map_map]
          rfl
    | false =>
      rw [m.runInstrs_other ends]
      by_cases kept : keep s.id = true
      · have self : s.trim keep f.origBlockParams = s := trim_stmt_self (by
          rw [Kind.successors_of_body ends]
          exact fun _ listed => absurd listed not_mem_nil)
        rw [filter_cons, if_pos kept, map_cons, self, m.runInstrs_other ends,
          operands kept]
        split
        · cases m.effect s (s.kind.operands.map env') state with
          | inl r => exact .ended r
          | inr out => exact ih within (agree.update s.id out.1) out.2
        · exact ih within (agree.update s.id _) state
      · rw [filter_cons, if_neg kept, if_neg fun live => kept (effect live)]
        exact ih within (agree.drop own kept _) state

theorem step_same (T : Trimmed f f' keep) (h : f.WellFormed)
    (closed : f.Closed keep) {status status' : Status Val State Result}
    (same : Same f keep status status') : Same f keep (m.step f status) (m.step f' status') := by
  cases same with
  | ended r => exact .ended r
  | stuck => exact .stuck
  | @enters id args args' env env' state reached agree passed =>
    have known : ∃ b ∈ f.blocks, b.id = id := by
      obtain ⟨entry, head, nodes, walk⟩ := reached
      cases walk with
      | start => exact ⟨entry, mem_of_head? head, rfl⟩
      | step _ edge =>
        obtain ⟨p, found, s, inside, rfl⟩ := graph_edge.mp edge
        exact mem_map.mp (h.targets p (f.getBlock_id found).2 s inside)
    obtain ⟨b, member, rfl⟩ := known
    rw [h.origBlockParams member] at passed
    rw [Machine.step, Machine.step, h.getBlock member, T.getBlock member reached, passed]
    have own : ∀ p ∈ b.params, p.id ∉ f.params := fun p held =>
      (h.own member (mem_append_left _ (mem_map_of_mem held))).1
    exact runInstrs_same m h closed member reached (fun s listed => listed)
      (agree.bindParams own args) state

theorem enter_agree (T : Trimmed f f' keep) (h : f.WellFormed)
    (args : List Val) : Agree f keep (m.enter f args) (m.enter f' args) := by
  intro x kept
  have same : (f'.constants.find? fun c => c.id = x) = f.constants.find? fun c => c.id = x := by
    rw [T.constants, List.find?_filter]
    rcases kept with param | kept
    · have none : ∀ c ∈ f.constants, c.id ≠ x := by
        rintro c constant rfl
        exact nomatch h.instr_unique (mem_allInstrs_param param) (mem_allInstrs_constant constant) rfl
      have absent : (f.constants.find? fun c => decide (c.id = x)) = Option.none :=
        List.find?_eq_none.mpr fun c member same => none c member (of_decide_eq_true same)
      rw [absent]
      exact List.find?_eq_none.mpr fun c member same =>
        none c member (of_decide_eq_true (of_decide_eq_true same).2)
    · refine List.find?_congr fun c _ => ?_
      by_cases here : c.id = x
      · simp [here, kept]
      · simp [here]
  rw [Machine.enter, Machine.enter, same, T.params]

theorem after_same (T : Trimmed f f' keep) (h : f.WellFormed)
    (closed : f.Closed keep) (args : List Val) (state : State) (blocks : ℕ) :
    (m.after f' args state blocks).seen = (m.after f args state blocks).seen := by
  unfold Machine.after
  rw [T.head]
  cases head : f.blocks.head? with
  | none => rfl
  | some entry =>
    have start : @Same D Val State Result f keep (.enters entry.id [] (m.enter f args) state)
        (.enters entry.id [] (m.enter f' args) state) := by
      refine .enters state (.entry head) (enter_agree m T h args) ?_
      rw [zip_nil_right]
      rfl
    have run : Same f keep ((m.step f)^[blocks] (.enters entry.id [] (m.enter f args) state))
        ((m.step f')^[blocks] (.enters entry.id [] (m.enter f' args) state)) := by
      induction blocks with
      | zero => exact start
      | succ blocks ih =>
        rw [Function.iterate_succ_apply', Function.iterate_succ_apply']
        exact step_same m T h closed ih
    exact run.seen.symm

end runs

theorem trim_congr (h : f.WellFormed) {keep' : InstrID → Bool}
    (same : ∀ x, x ∉ f.params → keep x = keep' x) {b : Block D} (member : b ∈ f.blocks) :
    b.trim keep f.origBlockParams = b.trim keep' f.origBlockParams := by
  have own : ∀ b ∈ f.blocks, ∀ x ∈ b.ids, keep x = keep' x := fun b member x inside =>
    same x (h.own member inside).1
  have params : ∀ id, ∀ p ∈ f.origBlockParams id, keep p.id = keep' p.id := by
    intro id p held
    unfold Function.origBlockParams at held
    cases found : f.getBlock id with
    | none =>
      rw [found] at held
      exact absurd held not_mem_nil
    | some target =>
      rw [found] at held
      exact own target (f.getBlock_id found).2 p.id
        (mem_append_left _ (mem_map_of_mem held))
  have successor : BlockSuccessor.trim keep f.origBlockParams =
      BlockSuccessor.trim keep' f.origBlockParams := by
    funext s
    unfold BlockSuccessor.trim
    rw [filter_congr fun pa zipped => params s.target pa.1 (of_mem_zip zipped).1]
  have kind : ∀ kind : Kind,
      kind.trim keep f.origBlockParams = kind.trim keep' f.origBlockParams := by
    intro kind
    cases kind with
    | terminator t successors => rw [Kind.trim, Kind.trim, successor]
    | _ => rfl
  have stmt : Stmt.trim (D := D) keep f.origBlockParams = Stmt.trim keep' f.origBlockParams := by
    funext s
    unfold Stmt.trim
    rw [kind]
  have kept : (b.params.filter fun p => keep p.id) = b.params.filter fun p => keep' p.id :=
    filter_congr fun p held => own b member p.id
      (mem_append_left _ (mem_map_of_mem held))
  have left : (b.instrs.filter fun s => keep s.id) = b.instrs.filter fun s => keep' s.id :=
    filter_congr fun s listed => own b member s.id
      (mem_append_right _ (mem_map_of_mem listed))
  rw [Block.trim, Block.trim, keptParams, keptParams, stmt, kept, left]

/-- The ids of the constants, the block parameters and the statements. -/
def Function.Owns (f : Function D) (x : InstrID) : Prop :=
  x ∈ f.constants.map Constant.id ∨ ∃ b ∈ f.blocks, x ∈ b.ids

theorem Trimmed.owns (T : Trimmed f f' keep) {x : InstrID} (h : f'.Owns x) : keep x = true := by
  rcases h with constant | ⟨b', listed, own⟩
  · rw [T.constants] at constant
    obtain ⟨c, kept, rfl⟩ := mem_map.mp constant
    exact (mem_filter.mp kept).2
  · obtain ⟨b, -, -, rfl⟩ := (T.mem b').mp listed
    rw [trim_ids] at own
    exact (mem_filter.mp own).2

theorem Function.WellFormed.reached_of_needed (h : f.WellFormed) {x : InstrID} (needed : f.Needed x)
    {b : Block D} (member : b ∈ f.blocks) (own : x ∈ b.ids) : f.Reached b.id := by
  obtain ⟨rpo, predecessors, blocks, -, -, -, o⟩ := order_ends h
  have node : x ∈ f.nodes blocks := by
    refine needed.induct (P := fun x => x ∈ f.nodes blocks) (fun x effect => ?_)
      fun x y _ _ uses => uses_node h o uses
    obtain ⟨b, inside, reached, s, listed, -, rfl⟩ := effect
    exact o.mem_nodes.mpr (.inr (.inr
      ⟨b, inside, reached, mem_append_right _ (mem_map_of_mem listed)⟩))
  rcases o.mem_nodes.mp node with param | constant | ⟨c, known, reached, own'⟩
  · exact absurd param (h.own member own).1
  · exact absurd constant (h.own member own).2
  · have all := h.instrIDs
    rw [allInstrs_ids, nodup_append'] at all
    have symm : Std.Symm (Function.onFun List.Disjoint (Block.ids (D := D))) :=
      ⟨fun _ _ disjoint => disjoint.symm⟩
    by_cases same : b = c
    · exact same ▸ reached
    · exact absurd own' ((nodup_flatMap.mp all.2.1).2.forall member known same own)

/-- An instruction is kept just when a chain of uses links it to a side effect. What is left has
every operand defined and passes to each block just the parameters that are left, in order; it
behaves as before, and the pass does not change it again. -/
structure Exact (f f' : Function D) : Prop where
  keeps : ∀ x, f.Owns x → (f'.Owns x ↔ f.Needed x)
  trimmed : ∀ keep : InstrID → Bool, (∀ x, keep x = true ↔ f.Needed x) → Trimmed f f' keep
  wellFormed : f'.WellFormed
  same : ∀ (Val State Result : Type) (m : Machine D Val State Result) (args : List Val)
    (state : State) (blocks : ℕ), (m.after f' args state blocks).seen = (m.after f args state blocks).seen
  again : f'.run = some (f', false)

/-- Every clone that is marked has its object marked, or cloned from a parameter. -/
def Function.ClonesVisited (f : Function D) : Prop :=
  ∀ b ∈ f.blocks, f.Reached b.id → ∀ s ∈ b.instrs, f.Visited s.id → ∀ byteSize value,
    s.kind = .obstackShallowClone byteSize value → value ∈ f.params ∨ f.Visited value

theorem Function.ClonesVisited.step (clones : f.ClonesVisited) {x y : InstrID}
    (visited : f.Visited x) (uses : f.Uses Kind.operands x y) : y ∈ f.params ∨ f.Visited y := by
  cases uses with
  | @operand b s _ member reached listed operand =>
    by_cases seen : y ∈ s.kind.visitNonBlockArgInputs
    · exact .inr (visited.step (.operand member reached listed seen))
    · obtain ⟨id, data, kind⟩ := s
      cases kind with
      | obstackShallowClone byteSize value =>
        have last : y = value := by
          rcases mem_cons.mp operand with rfl | rest
          · exact absurd mem_cons_self seen
          · exact mem_singleton.mp rest
        rw [last]
        exact clones b member reached _ listed visited byteSize value rfl
      | _ => exact absurd operand seen
  | argument member known reached leads target held passed =>
    exact .inr (visited.step (.argument member known reached leads target held passed))

theorem Function.ClonesVisited.needed (h : f.WellFormed) (clones : f.ClonesVisited) {x : InstrID}
    (needed : f.Needed x) : x ∈ f.params ∨ f.Visited x := by
  refine needed.induct (P := fun x => x ∈ f.params ∨ f.Visited x)
    (fun x effect => .inr effect.chained) fun x y _ ih uses => ?_
  rcases ih with param | visited
  · generalize same : x = z at uses
    cases uses with
    | operand member _ listed _ =>
      exact nomatch h.instr_unique (mem_allInstrs_param param) (mem_allInstrs_stmt member listed) same
    | argument member _ _ _ _ held _ =>
      exact nomatch h.instr_unique (mem_allInstrs_param param)
        (mem_allInstrs_blockParam member held) same
  · exact clones.step visited uses

/-- The pass is exact on a well-formed function if and only if the object of every clone that it
marks is marked by another use, or is a parameter of the function. -/
theorem run_exact_iff (h : f.WellFormed) :
    ∃ f' changed, f.run = some (f', changed) ∧ (Exact f f' ↔ f.ClonesVisited) := by
  obtain ⟨f', changed, isLive, ran, live, T, -⟩ := run_trims h
  refine ⟨f', changed, ran, fun exact_ => ?_, fun clones => ?_⟩
  · intro b member reached s listed visited byteSize value clone
    refine or_iff_not_imp_left.mpr fun own => ?_
    have operand : value ∈ s.kind.operands := by
      rw [clone]
      exact mem_cons_of_mem _ mem_cons_self
    have needed : f.Needed value :=
      visited.needed.step (.operand member reached listed operand)
    obtain ⟨rpo, predecessors, blocks, -, -, -, o⟩ := order_ends h
    have owns : f.Owns value :=
      ((o.mem_nodes.mp (h.operand_node o member reached listed operand)).resolve_left own).imp_right
        fun ⟨b, known, _, inside⟩ => ⟨b, known, inside⟩
    exact (live value).mp (T.owns ((exact_.keeps value owns).mpr needed))
  · have closed : f.Closed isLive := ⟨fun x effect => (live x).mpr effect.chained,
      fun x y kept uses => (clones.step ((live x).mp kept) uses).imp_right (live y).mpr⟩
    have same : ∀ x, x ∉ f.params → (isLive x = true ↔ f.Needed x) := fun x own =>
      (live x).trans ⟨fun visited => visited.needed,
        fun needed => (clones.needed h needed).resolve_left own⟩
    refine ⟨fun x owns => ?_, fun keep needed => ?_, T.wellFormed h closed,
      fun _ _ _ m args state blocks => after_same m T h closed args state blocks,
      T.run_again h closed live⟩
    · have own : x ∉ f.params := by
        rcases owns with constant | ⟨b, member, inside⟩
        · obtain ⟨c, listed, rfl⟩ := mem_map.mp constant
          exact fun param => nomatch h.instr_unique (mem_allInstrs_param param)
            (mem_allInstrs_constant listed) rfl
        · exact (h.own member inside).1
      rw [← same x own]
      refine ⟨T.owns, fun kept => ?_⟩
      rcases owns with constant | ⟨b, member, inside⟩
      · obtain ⟨c, listed, rfl⟩ := mem_map.mp constant
        refine .inl ?_
        rw [T.constants]
        exact mem_map_of_mem (mem_filter.mpr ⟨listed, kept⟩)
      · have reached := h.reached_of_needed ((same x own).mp kept) member inside
        refine .inr ⟨_, (T.mem _).mpr ⟨b, member, reached, rfl⟩, ?_⟩
        rw [trim_ids]
        exact mem_filter.mpr ⟨inside, kept⟩
    · have agree : ∀ x, x ∉ f.params → isLive x = keep x := fun x own =>
        Bool.eq_iff_iff.mpr ((same x own).trans (needed x).symm)
      refine ⟨T.params, ?_, ?_, fun b' => (T.mem b').trans ?_, T.blockIDs⟩
      · rw [T.constants]
        refine filter_congr fun c listed => agree c.id fun param => ?_
        exact nomatch h.instr_unique (mem_allInstrs_param param) (mem_allInstrs_constant listed) rfl
      · rw [T.head]
        cases head : f.blocks.head? with
        | none => rfl
        | some entry => exact congrArg some (trim_congr h agree (mem_of_head? head))
      · exact exists_congr fun b => and_congr_right fun member => by rw [trim_congr h agree member]

/-- A function is well formed if its blocks use no more than the parameters, the constants and what
they define themselves. -/
theorem wellFormed_of_local (blocks : f.blocks ≠ []) (blockIDs : (f.blocks.map Block.id).Nodup)
    (instrIDs : (f.allInstrs.map Instr.id).Nodup)
    (targets : ∀ b ∈ f.blocks, ∀ s ∈ b.successors, s.target ∈ f.blocks.map Block.id)
    (ends : ∀ b ∈ f.blocks, b.instrs.getLast?.map (fun t => t.kind.isTerminator) = some true ∧
      ∀ s ∈ b.instrs.dropLast, s.kind.isTerminator = false)
    (indices : ∀ b ∈ f.blocks, b.params.map BlockParam.index = List.range b.params.length)
    (counts : ∀ b ∈ f.blocks, ∀ s ∈ b.successors, ∀ target ∈ f.blocks, target.id = s.target →
      s.args.length = target.params.length)
    (operands : ∀ b ∈ f.blocks, ∀ i : Fin b.instrs.length, ∀ id ∈ b.instrs[i].kind.operands,
      id ∈ f.params ++ f.constants.map Constant.id ++ b.params.map BlockParam.id ++
        (b.instrs.take i).map Stmt.id)
    (arguments : ∀ b ∈ f.blocks, ∀ s ∈ b.successors, ∀ id ∈ s.args,
      id ∈ f.params ++ f.constants.map Constant.id ++ b.params.map BlockParam.id ++
        b.instrs.map Stmt.id) : f.WellFormed := by
  have available : ∀ (b : Block D) (before : List (Stmt D)) (id : InstrID),
      id ∈ f.params ++ f.constants.map Constant.id ++ b.params.map BlockParam.id ++
        before.map Stmt.id → f.Available b before id := by
    intro b before id member
    rw [mem_append, mem_append, mem_append, or_assoc, or_assoc] at member
    exact member.imp_right (Or.imp_right (Or.imp_right .inl))
  refine ⟨blocks, blockIDs, instrIDs, targets, fun b member _ => ?_, fun b member _ i p here => ?_,
    fun b member _ => counts b member, fun b member _ before s after split id operand => ?_,
    fun b member _ s inside id passed => available b _ id (arguments b member s inside id passed)⟩
  · obtain ⟨last, others⟩ := ends b member
    obtain ⟨t, final, terminator⟩ := Option.map_eq_some_iff.mp last
    exact ⟨_, t, (dropLast_append_getLast? t final).symm, terminator, others⟩
  · have numbered := congrArg (fun l => l[i]?) (indices b member)
    simp only [List.getElem?_map, here, Option.map_some] at numbered
    obtain ⟨_, same⟩ := List.getElem?_eq_some_iff.mp numbered.symm
    rw [getElem_range] at same
    exact same.symm
  · have small : before.length < b.instrs.length := by
      rw [split, length_append, length_cons]
      omega
    refine available b before id ?_
    have known := operands b member ⟨before.length, small⟩ id
    simpa [split] using known (by simpa [split] using operand)

def loopFunction : Function Unit :=
  { params := [0]
    constants := [⟨1, ()⟩, ⟨2, ()⟩]
    blocks := [
      ⟨0, [], [⟨3, (), .terminator .jump [⟨1, [0, 1]⟩]⟩]⟩,
      ⟨1, [⟨4, 0⟩, ⟨5, 1⟩], [⟨6, (), .binOp .intMul 4 4⟩, ⟨7, (), .binOp .intAdd 5 2⟩,
        ⟨8, (), .binOp .intCmpLt 7 0⟩, ⟨9, (), .terminator (.ifStmt 8) [⟨1, [6, 7]⟩, ⟨2, [5]⟩]⟩]⟩,
      ⟨2, [⟨10, 0⟩], [⟨11, (), .terminator (.returnStmt [10]) []⟩]⟩] }

theorem loopFunction_wellFormed : loopFunction.WellFormed :=
  wellFormed_of_local (by decide) (by decide) (by decide) (by decide) (by decide) (by decide)
    (by decide) (by decide) (by decide)

example : loopFunction.run = some (
    { loopFunction with
      blocks := [
        ⟨0, [], [⟨3, (), .terminator .jump [⟨1, [1]⟩]⟩]⟩,
        ⟨1, [⟨5, 0⟩], [⟨7, (), .binOp .intAdd 5 2⟩, ⟨8, (), .binOp .intCmpLt 7 0⟩,
          ⟨9, (), .terminator (.ifStmt 8) [⟨1, [7]⟩, ⟨2, [5]⟩]⟩]⟩,
        ⟨2, [⟨10, 0⟩], [⟨11, (), .terminator (.returnStmt [10]) []⟩]⟩] }, true) := by decide

theorem run_exact_iff_loop : ∃ f' changed, loopFunction.run = some (f', changed) ∧
    (Exact loopFunction f' ↔ loopFunction.ClonesVisited) := run_exact_iff loopFunction_wellFormed

def cloneFunction : Function Unit :=
  { params := []
    constants := [⟨0, ()⟩]
    blocks := [⟨0, [], [⟨1, (), .object []⟩, ⟨2, (), .obstackShallowClone 0 1⟩,
      ⟨3, (), .terminator (.returnStmt [2]) []⟩]⟩] }

def clonedFunction : Function Unit :=
  { cloneFunction with
    blocks := [⟨0, [], [⟨2, (), .obstackShallowClone 0 1⟩,
      ⟨3, (), .terminator (.returnStmt [2]) []⟩]⟩] }

/-- It is deleted, and the clone is left with an operand that nothing defines. -/
theorem cloned_deleted : cloneFunction.WellFormed ∧
    ¬ ∃ f' changed, cloneFunction.run = some (f', changed) ∧ Exact cloneFunction f' := by
  refine ⟨wellFormed_of_local (by decide) (by decide) (by decide) (by decide) (by decide) (by decide)
    (by decide) (by decide) (by decide), ?_⟩
  rintro ⟨f', changed, ran, exact_⟩
  have result : cloneFunction.run = some (clonedFunction, true) := by decide
  rw [result] at ran
  cases ran
  have reached : clonedFunction.Reached 0 := ⟨_, rfl, reachable_entry⟩
  have available := exact_.wellFormed.operands _ mem_cons_self reached [] _ _ rfl 1 (by decide)
  rcases available with param | constant | own | own | ⟨d, member, differs, -, -⟩
  · exact absurd param (by decide)
  · exact absurd constant (by decide)
  · exact absurd own (by decide)
  · exact absurd own (by decide)
  · rw [mem_singleton.mp member] at differs
    exact differs rfl

end SkipPlatform.DeadCode
