import SkipPlatform.StoreParallelUpdate

set_option autoImplicit false
set_option linter.unusedSectionVars false

/-! Updates in batches: row by row and batch by batch the parallel path stays beside the
serial one, as long as no row of a batch drops a filter that the hooks of a later row of the
batch were given. -/
namespace SkipPlatform
open List StoreReaders StoreDeps StoreSourceMap ReadContext

variable {D K P F E : Type} [LinearOrder D] [StoreKey K] [DecidableEq P] [DecidableEq F]

theorem interpret_dirs {R : Type} (env : MapEnv D K P F E) (body : RowBody D K P F E R)
    {c c' : ReadContext D K P F} {r : R} (h : body.interpret (request env) c = .ok (r, c')) :
    c'.dirs = c.dirs := by
  induction body generalizing c with
  | done result =>
    unfold Inquiry.interpret at h
    cases result with
    | error ex => cases h
    | ok a =>
      cases h
      rfl
  | ask q next ih =>
    unfold Inquiry.interpret request at h
    cases ha : c.answer env q with
    | error ex =>
      rw [ha] at h
      cases h
    | ok a =>
      rw [ha] at h
      rw [ih a h, track_dirs]

theorem runLambda_dirs (env : MapEnv D K P F E)
    (f : K → List F → RowBody D K P F E (SortedMap K (List F))) (c : ReadContext D K P F) (key : K)
    (values : List F) (x : SortedMap K (List F) × ReadContext D K P F)
    (h : runLambda env f c key values = .ok x) : x.2.dirs = c.dirs :=
  interpret_dirs env (f key values) h

namespace ParallelMapper

variable {env : MapEnv D K P F E} {child : D} {m : ParallelMapper D K P F E}
  {f : K → List F → RowBody D K P F E (SortedMap K (List F))}

theorem outcome_cases {answer : ReadRequest D K P → Except E (List F)} {key : K} {values : List F}
    {x : RowOutcome D K P F} (h : m.outcome answer key values = .ok x) :
    ∃ y, m.preparation answer key values = .ok y ∧
      ((∃ z, (m.lambda key y.1).follow answer = .ok z ∧ x = ⟨z.1, y.2, z.2⟩) ∨
        ∃ ex recover z writes, recover ∈ m.recoverRow ∧
          (recover key values ex).follow answer = .ok z ∧ z.1 = some writes ∧
          x = ⟨writes, y.2 ++ z.2, []⟩) := by
  cases hp : m.preparation answer key values with
  | error ex =>
    unfold outcome at h
    rw [hp] at h
    cases h
  | ok y =>
    refine ⟨y, rfl, ?_⟩
    rw [outcome_eq hp] at h
    unfold recovery at h
    cases hl : (m.lambda key y.1).follow answer with
    | ok z =>
      rw [hl] at h
      cases h
      exact Or.inl ⟨z, rfl, rfl⟩
    | error ex =>
      rw [hl] at h
      simp only at h
      cases hrec : m.recoverRow with
      | none =>
        rw [hrec] at h
        cases h
      | some recover =>
        rw [hrec] at h
        simp only at h
        cases hf : (recover key values ex).follow answer with
        | error ex' =>
          rw [hf] at h
          cases h
        | ok z =>
          rw [hf] at h
          simp only [Except.bind] at h
          cases hz : z.1 with
          | none =>
            rw [hz] at h
            cases h
          | some writes =>
            rw [hz] at h
            cases h
            exact Or.inr ⟨ex, recover, z, writes, rfl, hf, hz, rfl⟩

theorem outcome_apart (hagrees : Agrees env child m f)
    {answer : ReadRequest D K P → Except E (List F)} {key : K} {values : List F}
    {x : RowOutcome D K P F} (h : m.outcome answer key values = .ok x) :
    (∀ q ∈ x.hooks, Apart child q) ∧ ∀ q ∈ x.worker, Apart child q := by
  obtain ⟨y, hy, hx⟩ := outcome_cases h
  have hprep : ∀ q ∈ y.2, Apart child q := by
    intro q hq
    unfold preparation at hy
    cases hp : m.prepareRow with
    | none =>
      rw [hp] at hy
      cases hy
      cases hq
    | some prepare =>
      rw [hp] at hy
      exact (Inquiry.follow_asked (hagrees.prepare prepare hp key values) hy q hq).1
  rcases hx with ⟨z, hz, rfl⟩ | ⟨ex, recover, z, writes, hrec, hz, _, rfl⟩
  · exact ⟨hprep, fun q hq => (Inquiry.follow_asked (hagrees.lambda key y.1) hz q hq).1⟩
  · refine ⟨?_, fun q hq => absurd hq not_mem_nil⟩
    intro q hq
    rcases mem_append.mp hq with hq | hq
    · exact hprep q hq
    · exact (Inquiry.follow_asked (hagrees.recover recover hrec key values ex) hz q hq).1

theorem replay_dirs (env : MapEnv D K P F E) (m : ParallelMapper D K P F E)
    (results : SortedMap K (PreparedParallelRow D K P F)) (c : ReadContext D K P F) (key : K)
    (values : List F) (x : SortedMap K (List F) × ReadContext D K P F)
    (h : m.replay env results c key values = .ok x) : x.2.dirs = c.dirs := by
  unfold replay at h
  cases hrow : results.maybeGet key with
  | none =>
    rw [hrow] at h
    simp only at h
    cases hs : m.serial with
    | none =>
      rw [hs] at h
      cases h
    | some g =>
      rw [hs] at h
      exact runLambda_dirs env g c key values x h
  | some row =>
    rw [hrow] at h
    simp only at h
    cases hr : replayReads env c row with
    | error ex =>
      rw [hr] at h
      cases h
    | ok c' =>
      rw [hr] at h
      cases h
      unfold replayReads at hr
      simp only at hr
      have hfilters := foldl_dirs (fun (c : ReadContext D K P F) (x : ParallelContextFilter D K P F) =>
        (rfl : (c.addFilteredDep env x.path x.project x.value).dirs = c.dirs)) row.filters.reverse
        { c with reads := (c.reads.union row.prepared).union row.contextReads }
      generalize row.filters.reverse.foldl
        (fun c x => c.addFilteredDep env x.path x.project x.value)
        { c with reads := (c.reads.union row.prepared).union row.contextReads } = c₁ at hr hfilters
      refine Eq.trans ?_ hfilters
      clear hfilters hrow
      generalize row.reads.keys = paths at hr
      induction paths generalizing c₁ with
      | nil =>
        cases hr
        rfl
      | cons path paths ih =>
        rw [foldlM_cons] at hr
        split at hr
        · exact ih ((c₁.addRead ⟨path.dirName, .dirTag⟩).addRead path) hr
        · cases hr

end ParallelMapper

namespace MapEdge

variable {env : MapEnv D K P F E} {e : MapEdge D K F} {base s p : ReadContext D K P F}
  {start : Deps D K P F} {m : ParallelMapper D K P F E}
  {f : K → List F → RowBody D K P F E (SortedMap K (List F))}

/-- The old-writes index of these keys was made before this update drew its numbers. -/
def OldUndrawn (env : MapEnv D K P F E) (e : MapEdge D K F) (c : ReadContext D K P F)
    (keys : List K) : Prop :=
  ∀ key ∈ keys, ∀ info, e.getOld c key = some info → ∀ x ∈ info.getReads, ¬env.Drawn x

variable {key : K} {keys : List K}

theorem OldUndrawn.tail {map : RowMap D K P F E}
    (hmap : ∀ c key values x, map c key values = .ok x → x.2.dirs = c.dirs)
    {c c' : ReadContext D K P F} (h : OldUndrawn env e c (key :: keys))
    (hnodup : (key :: keys).Nodup) (hrow : e.updateRow env map c key = .ok c') :
    OldUndrawn env e c' keys := by
  intro key' hkey' info hinfo
  have hne : key' ≠ key := by
    intro heq
    exact (nodup_cons.mp hnodup).1 (heq ▸ hkey')
  rw [(updateRow_frame hmap hrow).1.old key' hne] at hinfo
  exact h key' (mem_cons_of_mem key hkey') info hinfo

/-- The rows of a batch that `results` was prepared for, at `start`. -/
structure Results (env : MapEnv D K P F E) (m : ParallelMapper D K P F E) (e : MapEdge D K F)
    (base : ReadContext D K P F) (start : Deps D K P F) (keys : List K)
    (results : SortedMap K (PreparedParallelRow D K P F)) : Prop where
  selected : ∀ key ∈ keys, m.select key = true → ∃ x row,
    m.outcome (base.answer env) key (e.values key) = .ok x ∧ results.maybeGet key = some row ∧
      ParallelMapper.Prepared env base start x row
  other : ∀ key, m.select key = false → results.maybeGet key = none

theorem hookObserved_selected {x : RowOutcome D K P F} (hsel : m.select key = true)
    (hx : m.outcome (base.answer env) key (e.values key) = .ok x) :
    hookObserved env m e base key = x.hooks.flatMap (observedOf env base) := by
  unfold hookObserved
  rw [if_pos hsel, hx]

theorem hookObserved_other (hsel : m.select key = false) :
    hookObserved env m e base key = [] := by
  unfold hookObserved
  rw [if_neg (by simp [hsel])]

variable {results : SortedMap K (PreparedParallelRow D K P F)}

theorem replayRow_alike (hagrees : m.Agrees env e.childName f)
    {rest : List (Observed D K P F)}
    (hresults : Results env m e base start keys results) (hkey : key ∈ keys)
    (h : Beside env e.childName base start (hookObserved env m e base key ++ rest) s p)
    (hkept : ∀ o ∈ hookObserved env m e base key, env.idOf s.deps o = env.idOf start o) :
    BothOk (MappedAlike env e.childName base start rest)
      (runLambda env f { s with reads := .empty } key (e.values key))
      (m.replay env results { p with reads := .empty } key (e.values key)) := by
  cases hsel : m.select key with
  | true =>
    obtain ⟨x, row, hx, hfound, hprepared⟩ := hresults.selected key hkey hsel
    have hrun := hagrees.rows key hsel (e.values key) base
    rw [hx] at hrun
    rw [hookObserved_selected hsel hx] at h hkept
    exact replay_alike h (hagrees.mapper key (e.values key)) hrun
      (ParallelMapper.outcome_apart hagrees hx).2 hprepared hfound hkept
  | false =>
    obtain ⟨g, hg, hwithin⟩ := hagrees.serial key hsel
    rw [hookObserved_other hsel] at h
    have halike := runLambda_alike h (hagrees.mapper key (e.values key)) (hwithin (e.values key)).1
      ((hwithin (e.values key)).2 base)
    unfold ParallelMapper.replay
    rw [hresults.other key hsel, hg]
    exact halike

theorem runRows_cons (env : MapEnv D K P F E) (e : MapEdge D K F) (map : RowMap D K P F E)
    (c : ReadContext D K P F) (key : K) (keys : List K) :
    e.runRows env map c (key :: keys) =
      (e.updateRow env map c key).bind fun c => e.runRows env map c keys := by
  unfold runRows
  rw [foldlM_cons]
  rfl

theorem runRows_beside (hagrees : m.Agrees env e.childName f) {batch : List K}
    (hresults : Results env m e base start batch results) (keys : List K)
    (hsub : ∀ key ∈ keys, key ∈ batch) (hnodup : keys.Nodup) (hold : OldUndrawn env e s keys)
    (h : Beside env e.childName base start (keys.flatMap (hookObserved env m e base)) s p)
    (hkept : KeptRows env m f e base start s keys) :
    BothOk (Beside env e.childName base start []) (e.runRows env (runLambda env f) s keys)
      (e.runRows env (m.replay env results) p keys) := by
  induction keys generalizing s p with
  | nil => exact h
  | cons key keys ih =>
    rw [runRows_cons, runRows_cons]
    have halike := replayRow_alike hagrees hresults (hsub key mem_cons_self) h hkept.1
    have hrow := updateRow_beside h.dirs halike (hold key mem_cons_self)
    apply hrow.bind_eq
    intro s' p' hs' _ hbeside
    exact ih (fun k hk => hsub k (mem_cons_of_mem key hk)) (nodup_cons.mp hnodup).2
      (hold.tail (runLambda_dirs env f) hnodup hs') hbeside (hkept.2 s' hs')

theorem beside_self (h : Beside env e.childName base start [] s p) :
    Beside env e.childName base s.deps [] s s :=
  ⟨rfl, h.view, .refl h.deps.keyed h.deps.owned⟩

theorem follow_sameRun_self (body : RowBody D K P F E (SortedMap K (List F)))
    (answer : ReadRequest D K P → Except E (List F)) :
    SameRun (body.follow answer) (body.follow answer) := by
  cases body.follow answer with
  | error ex => trivial
  | ok x => exact ⟨rfl, fun _ => Iff.rfl⟩

theorem updateRow_self (hf : ∀ key values, (f key values).Within (Apart e.childName))
    (h : Beside env e.childName base start [] s s)
    (hold : ∀ info, e.getOld s key = some info → ∀ x ∈ info.getReads, ¬env.Drawn x)
    {s' : ReadContext D K P F} (hrow : e.updateRow env (runLambda env f) s key = .ok s') :
    Beside env e.childName base start [] s' s' := by
  have halike := runLambda_alike h (hf key (e.values key)) (hf key (e.values key))
    (follow_sameRun_self (f key (e.values key)) (base.answer env))
  have hbeside := updateRow_beside rfl halike hold
  rw [hrow] at hbeside
  exact hbeside

theorem runRows_fails (hf : ∀ key values, (f key values).Within (Apart e.childName))
    {ex : E} (hfail : (f key (e.values key)).follow (base.answer env) = .error ex) (keys : List K)
    (hkey : key ∈ keys) (hnodup : keys.Nodup) (hold : OldUndrawn env e s keys)
    (h : Beside env e.childName base start [] s s) :
    ∃ ex, e.runRows env (runLambda env f) s keys = .error ex := by
  induction keys generalizing s with
  | nil => cases hkey
  | cons key' keys ih =>
    rw [runRows_cons]
    cases hrow : e.updateRow env (runLambda env f) s key' with
    | error ex' => exact ⟨ex', rfl⟩
    | ok s' =>
      rcases mem_cons.mp hkey with rfl | hmem
      · obtain ⟨_, x, hx, _⟩ := updateRow_frame (runLambda_dirs env f) hrow
        have hrun := interpret_request env (c := { s with reads := .empty }) h.deps.keyed h.view
          (hf key (e.values key))
        rw [hfail] at hrun
        simp only at hrun
        unfold runLambda at hx
        rw [hrun] at hx
        cases hx
      · exact ih hmem (nodup_cons.mp hnodup).2 (hold.tail (runLambda_dirs env f) hnodup hrow)
          (updateRow_self hf h (hold key' mem_cons_self) hrow)

theorem hooked_pending (hagrees : m.Agrees env e.childName f)
    {made : List (ReadRequest D K P)}
    (hmade : ∀ q, q ∈ made ↔
      ParallelMapper.HooksWith (base.answer env) m e.values (keys.filter m.select) q) :
    (∀ o, o ∈ made.flatMap (observedOf env base) ↔
      o ∈ keys.flatMap (hookObserved env m e base)) ∧
    ∀ o ∈ made.flatMap (observedOf env base),
      o.path.dirName ≠ e.childName ∧ ∃ k, o.path.baseName = .key k := by
  refine ⟨?_, ?_⟩
  · intro o
    rw [mem_flatMap, mem_flatMap]
    constructor
    · rintro ⟨q, hq, ho⟩
      obtain ⟨key, hkey, x, hx, hqx⟩ := (hmade q).mp hq
      obtain ⟨hkey, hsel⟩ := mem_filter.mp hkey
      refine ⟨key, hkey, ?_⟩
      rw [hookObserved_selected hsel hx]
      exact mem_flatMap.mpr ⟨q, hqx, ho⟩
    · rintro ⟨key, hkey, ho⟩
      cases hsel : m.select key with
      | false =>
        rw [hookObserved_other hsel] at ho
        cases ho
      | true =>
        cases hx : m.outcome (base.answer env) key (e.values key) with
        | error ex =>
          unfold hookObserved at ho
          rw [if_pos hsel, hx] at ho
          cases ho
        | ok x =>
          rw [hookObserved_selected hsel hx] at ho
          obtain ⟨q, hqx, ho⟩ := mem_flatMap.mp ho
          exact ⟨q, (hmade q).mpr ⟨key, mem_filter.mpr ⟨hkey, hsel⟩, x, hx, hqx⟩, ho⟩
  · intro o ho
    obtain ⟨q, hq, ho⟩ := mem_flatMap.mp ho
    obtain ⟨key, _, x, hx, hqx⟩ := (hmade q).mp hq
    obtain ⟨hdir, hkey⟩ := observedOf_keyed q o ho
    exact ⟨hdir ▸ (ParallelMapper.outcome_apart hagrees hx).1 q hqx, hkey⟩

theorem results_of_prepare (hagrees : m.Agrees env e.childName f)
    (h : Beside env e.childName base start [] s p)
    (hin : ∀ key ∈ keys.filter m.select, ∃ x row,
      m.outcome (base.answer env) key (e.values key) = .ok x ∧ results.maybeGet key = some row ∧
        ParallelMapper.Prepared env base p.deps x row)
    (hout : ∀ key, m.select key = false → results.maybeGet key = none) :
    Results env m e base s.deps keys results := by
  refine ⟨?_, hout⟩
  intro key hkey hsel
  obtain ⟨x, row, hx, hfound, hprepared⟩ := hin key (mem_filter.mpr ⟨hkey, hsel⟩)
  refine ⟨x, row, hx, hfound, hprepared.writes, hprepared.holds, ?_⟩
  intro y
  rw [hprepared.prepared]
  refine exists_congr fun q => and_congr_right fun hq => ?_
  rw [pathsOf_congr]
  intro o ho
  apply h.deps.idOf
  rw [(observedOf_keyed q o ho).1]
  exact (ParallelMapper.outcome_apart hagrees hx).1 q hq

theorem updateBatch_beside (hagrees : m.Agrees env e.childName f) {batch : List K}
    (hne : batch ≠ []) (hnodup : batch.Nodup) (hold : OldUndrawn env e s batch)
    (h : Beside env e.childName base start [] s p)
    (hkept : KeptRows env m f e base s.deps s batch) :
    BothOk (Beside env e.childName base s.deps []) (e.runRows env (runLambda env f) s batch)
      (e.updateBatch env m p batch) := by
  unfold updateBatch
  by_cases hany : batch.any m.select = true
  · rw [if_pos hany]
    rcases ParallelMapper.prepare_spec e.values hagrees h.deps.keyed' h.view' batch hany with
      ⟨⟨ex, hex⟩, key, hkey, ex', hout⟩ | ⟨results, p', made, hrun, hhooked, hmade, hin, hout⟩
    · obtain ⟨hkey, hsel⟩ := mem_filter.mp hkey
      have hsame := hagrees.rows key hsel (e.values key) base
      rw [hout] at hsame
      cases hf : (f key (e.values key)).follow (base.answer env) with
      | ok y =>
        rw [hf] at hsame
        exact hsame.elim
      | error ex'' =>
        obtain ⟨ex₁, hex₁⟩ := runRows_fails hagrees.mapper hf batch hkey hnodup hold (beside_self h)
        rw [hex, hex₁]
        trivial
    · rw [hrun]
      obtain ⟨hmem, hapart⟩ := hooked_pending hagrees hmade
      have hbeside : Beside env e.childName base s.deps
          (batch.flatMap (hookObserved env m e base)) s p' :=
        ⟨hhooked.dirs.trans h.dirs, h.view, h.deps.hooked hhooked.grown hmem hapart⟩
      exact runRows_beside hagrees (results_of_prepare hagrees h hin hout) batch (fun _ hk => hk)
        hnodup hold hbeside hkept
  · rw [if_neg hany]
    have hsel : ∀ key ∈ batch, m.select key = false := by
      intro key hkey
      apply Bool.eq_false_iff.mpr
      intro hsel
      exact hany (any_eq_true.mpr ⟨key, hkey, hsel⟩)
    obtain ⟨key, hkey⟩ := exists_mem_of_ne_nil batch hne
    obtain ⟨g, hg, _⟩ := hagrees.serial key (hsel key hkey)
    rw [hg]
    simp only [orBroken, Except.bind]
    have hempty : Results env m e base s.deps batch .empty := by
      refine ⟨?_, fun _ _ => rfl⟩
      intro key hkey htrue
      rw [hsel key hkey] at htrue
      cases htrue
    have hreplay : m.replay env .empty = runLambda env g := by
      funext c key values
      simp only [ParallelMapper.replay]
      rw [hg]
      rfl
    have hnone : batch.flatMap (hookObserved env m e base) = [] := by
      rw [flatMap_eq_nil_iff]
      intro key hkey
      exact hookObserved_other (hsel key hkey)
    have hbeside : Beside env e.childName base s.deps
        (batch.flatMap (hookObserved env m e base)) s p := by
      rw [hnone]
      exact ⟨h.dirs, h.view, h.deps.restart s.deps⟩
    rw [← hreplay]
    exact runRows_beside hagrees hempty batch (fun _ hk => hk) hnodup hold hbeside hkept

theorem OldUndrawn.rows {map : RowMap D K P F E}
    (hmap : ∀ c key values x, map c key values = .ok x → x.2.dirs = c.dirs)
    {c c' : ReadContext D K P F} (batch : List K) {rest : List K}
    (h : OldUndrawn env e c (batch ++ rest)) (hnodup : (batch ++ rest).Nodup)
    (hrun : e.runRows env map c batch = .ok c') : OldUndrawn env e c' rest := by
  induction batch generalizing c with
  | nil =>
    cases hrun
    exact h
  | cons key keys ih =>
    rw [runRows_cons] at hrun
    cases hrow : e.updateRow env map c key with
    | error ex =>
      rw [hrow] at hrun
      cases hrun
    | ok c₁ =>
      rw [hrow] at hrun
      exact ih (h.tail hmap hnodup hrow) (nodup_cons.mp hnodup).2 hrun

theorem runRows_append (env : MapEnv D K P F E) (e : MapEdge D K F) (map : RowMap D K P F E)
    (c : ReadContext D K P F) (keys keys' : List K) :
    e.runRows env map c (keys ++ keys') =
      (e.runRows env map c keys).bind fun c => e.runRows env map c keys' := by
  unfold runRows
  rw [foldlM_append]
  rfl

theorem updateBatches_beside (hagrees : m.Agrees env e.childName f) (batches : List (List K))
    (hne : ∀ batch ∈ batches, batch ≠ []) (hnodup : batches.flatten.Nodup)
    (hold : OldUndrawn env e s batches.flatten) (h : Beside env e.childName base start [] s p)
    (hkept : Kept env m f e base s batches) :
    BothOk (fun s p => ∃ start, Beside env e.childName base start [] s p)
      (e.runRows env (runLambda env f) s batches.flatten)
      (batches.foldlM (e.updateBatch env m) p) := by
  induction batches generalizing s p start with
  | nil => exact ⟨start, h⟩
  | cons batch rest ih =>
    rw [flatten_cons] at hnodup hold ⊢
    rw [runRows_append, foldlM_cons]
    have hbatch := updateBatch_beside hagrees (hne batch mem_cons_self)
      (List.Nodup.of_append_left hnodup)
      (fun key hkey => hold key (mem_append_left _ hkey)) h hkept.1
    apply hbatch.bind_eq
    intro s' p' hs' _ hbeside
    exact ih (fun b hb => hne b (mem_cons_of_mem batch hb))
      (List.Nodup.of_append_right hnodup)
      (hold.rows (runLambda_dirs env f) batch hnodup hs') hbeside (hkept.2 s' hs')

theorem batchesFuel_flatten {α : Type} (n fuel : ℕ) (hn : 0 < n) (keys : List α)
    (hfuel : keys.length ≤ fuel) : (batchesFuel n fuel keys).flatten = keys := by
  induction fuel generalizing keys with
  | zero =>
    rw [length_eq_zero_iff.mp (Nat.le_zero.mp hfuel)]
    rfl
  | succ fuel ih =>
    cases keys with
    | nil => rfl
    | cons key keys =>
      unfold batchesFuel
      rw [flatten_cons, ih, take_append_drop]
      rw [length_drop]
      simp only [length_cons] at hfuel ⊢
      omega

theorem batchesFuel_ne_nil {α : Type} (n fuel : ℕ) (hn : 0 < n) (keys : List α) :
    ∀ batch ∈ batchesFuel n fuel keys, batch ≠ [] := by
  induction fuel generalizing keys with
  | zero =>
    intro batch hbatch
    cases hbatch
  | succ fuel ih =>
    cases keys with
    | nil =>
      intro batch hbatch
      cases hbatch
    | cons key keys =>
      intro batch hbatch
      unfold batchesFuel at hbatch
      rcases mem_cons.mp hbatch with rfl | hbatch
      · obtain ⟨k, rfl⟩ := Nat.exists_eq_add_of_lt hn
        simp
      · exact ih _ batch hbatch

theorem batches_flatten {α : Type} (keys : List α) : (batches keys).flatten = keys :=
  batchesFuel_flatten 256 keys.length (by omega) keys (Nat.le_refl _)

end MapEdge
end SkipPlatform
