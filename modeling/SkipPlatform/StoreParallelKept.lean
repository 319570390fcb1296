import SkipPlatform.StoreParallelBatches

set_option autoImplicit false
set_option linter.unusedSectionVars false

/-! The other direction: where a row of a batch drops a filter that the hooks of a later row
were given, the later row is recorded with a path that the serial path does not read. -/
namespace SkipPlatform
open List StoreReaders StoreDeps StoreSourceMap ReadContext

variable {D K P F E : Type} [LinearOrder D] [StoreKey K] [DecidableEq P] [DecidableEq F]

theorem runHook_dirs {R : Type} (env : MapEnv D K P F E) {c c' : ReadContext D K P F}
    {reads reads' : SortedSet (Path D K)} {body : RowBody D K P F E R} {r : R}
    (h : c.runHook env reads body = .ok (r, reads', c')) : c'.dirs = c.dirs := by
  unfold runHook at h
  cases hrun : body.interpret (request env) { c with reads := reads } with
  | error ex =>
    rw [hrun] at h
    cases h
  | ok x =>
    rw [hrun] at h
    have hdirs := interpret_dirs env body hrun
    cases h
    exact hdirs

namespace ParallelMapper

variable {env : MapEnv D K P F E} {m : ParallelMapper D K P F E} {values : K → List F}

variable {c c' : ReadContext D K P F}

theorem preparations_dirs (keys : List K)
    {rows : List (K × List F × SortedSet (Path D K))}
    (h : m.preparations env values c keys = .ok (rows, c')) : c'.dirs = c.dirs := by
  induction keys generalizing c rows with
  | nil =>
    cases h
    rfl
  | cons key keys ih =>
    unfold preparations at h
    cases hp : m.prepareRow with
    | none =>
      rw [hp] at h
      simp only at h
      cases hrest : m.preparations env values c keys with
      | error ex =>
        rw [hrest] at h
        cases h
      | ok x =>
        rw [hrest] at h
        cases h
        exact ih hrest
    | some prepare =>
      rw [hp] at h
      simp only at h
      cases hhook : c.runHook env .empty (prepare key (values key)) with
      | error ex =>
        rw [hhook] at h
        cases h
      | ok y =>
        rw [hhook] at h
        simp only [Except.bind] at h
        cases hrest : m.preparations env values y.2.2 keys with
        | error ex =>
          rw [hrest] at h
          cases h
        | ok x =>
          rw [hrest] at h
          cases h
          exact (ih hrest).trans (runHook_dirs env hhook)

theorem settle_dirs {key : K} {prepared : SortedSet (Path D K)}
    {outcome : Except E (SortedMap K (List F) × ParallelReader D K P F)}
    {row : PreparedParallelRow D K P F}
    (h : m.settle env values c key prepared outcome = .ok (row, c')) : c'.dirs = c.dirs := by
  unfold settle at h
  cases outcome with
  | ok x =>
    cases h
    rfl
  | error ex =>
    simp only at h
    cases hrec : m.recoverRow with
    | none =>
      rw [hrec] at h
      cases h
    | some recover =>
      rw [hrec] at h
      simp only at h
      cases hhook : c.runHook env prepared (recover key (values key) ex) with
      | error ex' =>
        rw [hhook] at h
        cases h
      | ok y =>
        rw [hhook] at h
        simp only [Except.bind] at h
        cases hy : y.1 with
        | none =>
          rw [hy] at h
          cases h
        | some writes =>
          rw [hy] at h
          cases h
          exact runHook_dirs env hhook

theorem settleAll_dirs {snapshot : ReadContext D K P F}
    (rows : List (K × List F × SortedSet (Path D K)))
    {results results' : SortedMap K (PreparedParallelRow D K P F)}
    (h : m.settleAll env values snapshot c results rows = .ok (results', c')) :
    c'.dirs = c.dirs := by
  induction rows generalizing c results with
  | nil =>
    cases h
    rfl
  | cons row rows ih =>
    unfold settleAll at h
    cases hs : m.settle env values c row.1 row.2.2 (m.evaluate env snapshot row.1 row.2.1) with
    | error ex =>
      rw [hs] at h
      cases h
    | ok y =>
      rw [hs] at h
      exact (ih h).trans (settle_dirs hs)

theorem prepare_dirs {keys : List K}
    {results : SortedMap K (PreparedParallelRow D K P F)}
    (h : m.prepare env values c keys = .ok (results, c')) : c'.dirs = c.dirs := by
  unfold prepare at h
  simp only at h
  split_ifs at h
  · cases h
    rfl
  · cases hp : m.preparations env values c (keys.filter m.select) with
    | error ex =>
      rw [hp] at h
      cases h
    | ok x =>
      rw [hp] at h
      exact (settleAll_dirs x.1 h).trans (preparations_dirs _ hp)

end ParallelMapper

namespace MapEdge

variable {env : MapEnv D K P F E} {e : MapEdge D K F} {base s p : ReadContext D K P F}
  {start : Deps D K P F} {m : ParallelMapper D K P F E}
  {f : K → List F → RowBody D K P F E (SortedMap K (List F))}

variable {c c' : ReadContext D K P F}

theorem Framed.weaken {changed changed' : K → Prop}
    (h : Framed e changed c c') (hsub : ∀ key, changed key → changed' key) :
    Framed e changed' c c' :=
  ⟨h.view, fun key hkey => h.old key fun hc => hkey (hsub key hc)⟩

theorem runRows_frame {map : RowMap D K P F E}
    (hmap : ∀ c key values x, map c key values = .ok x → x.2.dirs = c.dirs) (keys : List K)
    (h : e.runRows env map c keys = .ok c') :
    Framed e (· ∈ keys) c c' := by
  unfold runRows at h
  refine framed_foldlM keys ?_ h
  intro key hkey c c' hrow
  exact (updateRow_frame hmap hrow).1.weaken fun k hk => hk ▸ hkey

theorem updateBatch_frame {batch : List K}
    (h : e.updateBatch env m c batch = .ok c') : Framed e (· ∈ batch) c c' := by
  unfold updateBatch at h
  split_ifs at h
  · cases hp : m.prepare env e.values c batch with
    | error ex =>
      rw [hp] at h
      cases h
    | ok x =>
      rw [hp] at h
      have hdirs := ParallelMapper.prepare_dirs hp
      have hrows : Framed e (· ∈ batch) x.2 c' := runRows_frame (m.replay_dirs env x.1) batch h
      refine ⟨?_, ?_⟩
      · intro d hd
        rw [hrows.view d hd, hdirs]
      · intro key hkey
        rw [hrows.old key hkey]
        unfold getOld
        rw [hdirs]
  · cases hs : m.serial with
    | none =>
      rw [hs] at h
      cases h
    | some g =>
      rw [hs] at h
      exact runRows_frame (runLambda_dirs env g) batch h

/-- Numbers are drawn once: those of different observations of a path differ, and no filter
has one of them yet, nor do two filters of a path share a number. -/
structure Fresh (env : MapEnv D K P F E) (d : Deps D K P F) : Prop where
  injective : ∀ o o' : Observed D K P F, o.path = o'.path →
    env.hash o.project = env.hash o'.project → env.nameOf o = env.nameOf o' → o = o'
  unused : ∀ path h, ∀ x ∈ d.bucket path h, ¬env.Drawn (filteredPath path h x.id)
  distinct : ∀ path h, ∀ x ∈ d.bucket path h, ∀ y ∈ d.bucket path h, x.id = y.id → x = y

variable {o : Observed D K P F}

theorem mem_matching {d : Deps D K P F} {i : ℤ} :
    i ∈ env.matching d o ↔ ∃ x ∈ d.bucket o.path (env.hash o.project),
      x.project = o.project ∧ x.value = o.value ∧ x.id = i := by
  unfold MapEnv.matching
  simp only [mem_map, mem_filter, decide_eq_true_eq, and_assoc]

theorem Fresh.owner {origin : Deps D K P F} (h : Fresh env origin) {o o' : Observed D K P F} {i : ℤ}
    (hpath : o.path = o'.path) (hhash : env.hash o.project = env.hash o'.project)
    (ho : i ∈ env.matching origin o ∨ i = env.nameOf o)
    (ho' : i ∈ env.matching origin o' ∨ i = env.nameOf o') : o = o' := by
  have hunused : ∀ a b : Observed D K P F, a.path = b.path →
      env.hash a.project = env.hash b.project → i ∈ env.matching origin a → i ≠ env.nameOf b := by
    intro a b hp hh ha hb
    obtain ⟨x, hx, _, _, hid⟩ := mem_matching.mp ha
    apply h.unused _ _ x hx
    exact ⟨b, by rw [hid, hb, hp, hh]⟩
  rcases ho with ho | ho
  · rcases ho' with ho' | ho'
    · obtain ⟨x, hx, hxp, hxv, hxi⟩ := mem_matching.mp ho
      obtain ⟨y, hy, hyp, hyv, hyi⟩ := mem_matching.mp ho'
      rw [← hpath, ← hhash] at hy
      have hxy := h.distinct _ _ x hx y hy (hxi.trans hyi.symm)
      subst hxy
      cases o
      cases o'
      simp only at hpath hxp hxv hyp hyv
      rw [hpath, ← hxp, hyp, ← hxv, hyv]
    · exact absurd ho' (hunused o o' hpath hhash ho)
  · rcases ho' with ho' | ho'
    · exact absurd ho (hunused o' o hpath.symm hhash.symm ho')
    · exact h.injective o o' hpath hhash (ho.symm.trans ho')

theorem owned_idOf {d origin : Deps D K P F}
    (h : ∀ i ∈ env.matching d o, i ∈ env.matching origin o ∨ i = env.nameOf o) :
    env.idOf d o ∈ env.matching origin o ∨ env.idOf d o = env.nameOf o := by
  unfold MapEnv.idOf
  cases hl : env.matching d o with
  | nil => exact Or.inr rfl
  | cons i is => exact h i (by rw [hl]; exact mem_cons_self)

theorem pathsOf_filtered {d d' : Deps D K P F} {q : ReadRequest D K P}
    (h : env.observedPath d o ∈ pathsOf env base d' q) : ∃ o' ∈ observedOf env base q,
      o.path = o'.path ∧ env.hash o.project = env.hash o'.project ∧ env.idOf d o = env.idOf d' o' := by
  cases q with
  | reader dir key =>
    simp only [pathsOf, mem_cons, not_mem_nil, or_false] at h
    rcases h with h | h <;> cases h
  | getArray dir key =>
    simp only [pathsOf, mem_cons, not_mem_nil, or_false] at h
    rcases h with h | h <;> cases h
  | getArrayFilter dir key p =>
    simp only [pathsOf, mem_cons, not_mem_nil, or_false] at h
    rcases h with h | h
    · refine ⟨_, mem_singleton_self _, ?_⟩
      unfold MapEnv.observedPath filteredPath at h
      simp only [StoreDeps.Path.mk.injEq, ReadKey.filteredReadKey.injEq] at h
      refine ⟨?_, h.2.2.1, h.2.2.2⟩
      cases ho : o.path
      rw [ho] at h
      simp only at h
      rw [h.1, h.2.1]
    · cases h

theorem row_not_kept (hagrees : m.Agrees env e.childName f) (hfresh : Fresh env base.deps)
    {keys : List K} {key : K} {rest : List (Observed D K P F)}
    {results : SortedMap K (PreparedParallelRow D K P F)}
    (hresults : Results env m e base start keys results) (hkey : key ∈ keys)
    (h : Beside env e.childName base start (hookObserved env m e base key ++ rest) s p)
    (hstart : ∀ o : Observed D K P F, o.path.dirName ≠ e.childName →
      ∀ i ∈ env.matching start o, i ∈ env.matching base.deps o ∨ i = env.nameOf o)
    (ho : o ∈ hookObserved env m e base key)
    (hne : env.idOf s.deps o ≠ env.idOf start o)
    {x y : SortedMap K (List F) × ReadContext D K P F}
    (hx : runLambda env f { s with reads := .empty } key (e.values key) = .ok x)
    (hy : m.replay env results { p with reads := .empty } key (e.values key) = .ok y) :
    y.2.reads.keys ≠ x.2.reads.keys := by
  have hapart := h.deps.apart o (mem_append_left rest ho)
  have hin : env.observedPath start o ∈ y.2.reads.keys := by
    cases hsel : m.select key with
    | false =>
      rw [hookObserved_other hsel] at ho
      cases ho
    | true =>
      obtain ⟨r, row, hr, hfound, hprepared⟩ := hresults.selected key hkey hsel
      rw [hookObserved_selected hsel hr] at ho
      obtain ⟨q, hq, hoq⟩ := mem_flatMap.mp ho
      obtain ⟨c', hc', _, _, hreads⟩ := ParallelMapper.replayReads_spec
        (c := { p with reads := .empty }) hprepared.holds h.deps.keyed' h.view'
        (ParallelMapper.outcome_apart hagrees hr).2
      unfold ParallelMapper.replay at hy
      rw [hfound] at hy
      simp only at hy
      rw [hc'] at hy
      cases hy
      rw [hreads, hprepared.prepared]
      refine Or.inr (Or.inl ⟨q, hq, ?_⟩)
      cases q with
      | reader dir k => cases hoq
      | getArray dir k => cases hoq
      | getArrayFilter dir k project =>
        rw [mem_singleton.mp hoq]
        exact mem_cons_self
  have hout : env.observedPath start o ∉ x.2.reads.keys := by
    intro hmem
    have hrun := interpret_request env (c := { s with reads := .empty }) h.deps.keyed h.view
      (hagrees.mapper key (e.values key))
    unfold runLambda at hx
    cases hf : (f key (e.values key)).follow (base.answer env) with
    | error ex =>
      rw [hf] at hrun
      rw [hrun] at hx
      cases hx
    | ok z =>
      rw [hf] at hrun
      obtain ⟨s', hs', hnoted, hreq⟩ := hrun
      rw [hs'] at hx
      cases hx
      rcases (hnoted.reads _).mp hmem with hempty | ⟨q, hq, hpath⟩
      · cases hempty
      · obtain ⟨o', ho', hpath, hhash, hid⟩ := pathsOf_filtered hpath
        have hapart' : o'.path.dirName ≠ e.childName := by
          rw [(observedOf_keyed q o' ho').1]
          exact hreq q hq
        have hsame := hfresh.owner hpath hhash (owned_idOf (hstart o hapart))
          (hid ▸ owned_idOf (h.deps.owned o' hapart'))
        subst hsame
        exact hne hid.symm
  intro heq
  rw [heq] at hin
  exact hout hin

theorem runRows_ok_cons {map : RowMap D K P F E} {c c'' : ReadContext D K P F} {key : K}
    {keys : List K} (h : e.runRows env map c (key :: keys) = .ok c'') :
    ∃ c', e.updateRow env map c key = .ok c' ∧ e.runRows env map c' keys = .ok c'' := by
  rw [runRows_cons] at h
  cases hrow : e.updateRow env map c key with
  | error ex =>
    rw [hrow] at h
    cases h
  | ok c' =>
    rw [hrow] at h
    exact ⟨c', rfl, h⟩

variable {s' p' : ReadContext D K P F}

/-- Where the two paths record the same for every row of a batch, its hooks were given what
the serial path finds. -/
theorem runRows_kept (hagrees : m.Agrees env e.childName f) (hfresh : Fresh env base.deps)
    {batch : List K} {results : SortedMap K (PreparedParallelRow D K P F)}
    (hresults : Results env m e base start batch results)
    (hstart : ∀ o : Observed D K P F, o.path.dirName ≠ e.childName →
      ∀ i ∈ env.matching start o, i ∈ env.matching base.deps o ∨ i = env.nameOf o)
    (keys : List K) (hsub : ∀ key ∈ keys, key ∈ batch) (hnodup : keys.Nodup)
    (hold : OldUndrawn env e s keys)
    (h : Beside env e.childName base start (keys.flatMap (hookObserved env m e base)) s p)
    (hs : e.runRows env (runLambda env f) s keys = .ok s')
    (hp : e.runRows env (m.replay env results) p keys = .ok p')
    (hsame : ∀ key ∈ keys, e.getOld p' key = e.getOld s' key) :
    KeptRows env m f e base start s keys := by
  induction keys generalizing s p with
  | nil => trivial
  | cons key keys ih =>
    obtain ⟨s₁, hs₁, hs'⟩ := runRows_ok_cons hs
    obtain ⟨p₁, hp₁, hp'⟩ := runRows_ok_cons hp
    have hkept : ∀ o ∈ hookObserved env m e base key, env.idOf s.deps o = env.idOf start o := by
      intro o ho
      by_contra hne
      obtain ⟨_, x, hx, hsold⟩ := updateRow_frame (runLambda_dirs env f) hs₁
      obtain ⟨_, y, hy, hpold⟩ := updateRow_frame (m.replay_dirs env results) hp₁
      have hnot := (nodup_cons.mp hnodup).1
      have hrecorded := hsame key mem_cons_self
      rw [(runRows_frame (runLambda_dirs env f) keys hs').old key hnot, hsold,
        (runRows_frame (m.replay_dirs env results) keys hp').old key hnot, hpold] at hrecorded
      have hreads := congrArg MInfo.getReads (Option.some.inj hrecorded)
      unfold rowInfo at hreads
      rw [MInfo.getReads_create, MInfo.getReads_create] at hreads
      exact row_not_kept hagrees hfresh hresults (hsub key mem_cons_self) h hstart ho hne hx hy
        hreads
    refine ⟨hkept, ?_⟩
    intro s₂ hs₂
    rw [hs₁] at hs₂
    cases hs₂
    have halike := replayRow_alike hagrees hresults (hsub key mem_cons_self) h hkept
    have hrow := updateRow_beside h.dirs halike (hold key mem_cons_self)
    rw [hs₁, hp₁] at hrow
    exact ih (fun k hk => hsub k (mem_cons_of_mem key hk)) (nodup_cons.mp hnodup).2
      (hold.tail (runLambda_dirs env f) hnodup hs₁) hrow hs' hp'
      fun k hk => hsame k (mem_cons_of_mem key hk)

theorem updateBatch_kept (hagrees : m.Agrees env e.childName f) (hfresh : Fresh env base.deps)
    {batch : List K} (hnodup : batch.Nodup) (hold : OldUndrawn env e s batch)
    (h : Beside env e.childName base start [] s p)
    (hs : e.runRows env (runLambda env f) s batch = .ok s')
    (hp : e.updateBatch env m p batch = .ok p')
    (hsame : ∀ key ∈ batch, e.getOld p' key = e.getOld s' key) :
    KeptRows env m f e base s.deps s batch := by
  unfold updateBatch at hp
  by_cases hany : batch.any m.select = true
  · rw [if_pos hany] at hp
    rcases ParallelMapper.prepare_spec e.values hagrees h.deps.keyed' h.view' batch hany with
      ⟨⟨ex, hex⟩, _⟩ | ⟨results, p₁, made, hrun, hhooked, hmade, hin, hout⟩
    · rw [hex] at hp
      cases hp
    · rw [hrun] at hp
      obtain ⟨hmem, hapart⟩ := hooked_pending hagrees hmade
      have hbeside : Beside env e.childName base s.deps
          (batch.flatMap (hookObserved env m e base)) s p₁ :=
        ⟨hhooked.dirs.trans h.dirs, h.view, h.deps.hooked hhooked.grown hmem hapart⟩
      exact runRows_kept hagrees hfresh (results_of_prepare hagrees h hin hout) h.deps.owned batch
        (fun _ hk => hk) hnodup hold hbeside hs hp hsame
  · have hnone : ∀ (keys : List K) (c : ReadContext D K P F), (∀ key ∈ keys, key ∈ batch) →
        KeptRows env m f e base s.deps c keys := by
      intro keys
      induction keys with
      | nil =>
        intro c _
        trivial
      | cons key keys ih =>
        intro c hsub
        refine ⟨?_, fun c' _ => ih c' fun k hk => hsub k (mem_cons_of_mem key hk)⟩
        intro o ho
        have hsel : m.select key = false := by
          apply Bool.eq_false_iff.mpr
          intro hsel
          exact hany (any_eq_true.mpr ⟨key, hsub key mem_cons_self, hsel⟩)
        rw [hookObserved_other hsel] at ho
        cases ho
    exact hnone batch s fun _ hk => hk

theorem updateBatches_frame (rest : List (List K))
    (h : rest.foldlM (e.updateBatch env m) c = .ok c') : Framed e (· ∈ rest.flatten) c c' := by
  refine framed_foldlM rest ?_ h
  intro batch hbatch c c' hrun
  exact (updateBatch_frame hrun).weaken fun k hk => mem_flatten.mpr ⟨batch, hbatch, hk⟩

theorem updateBatches_kept (hagrees : m.Agrees env e.childName f) (hfresh : Fresh env base.deps)
    (batches : List (List K)) (hne : ∀ batch ∈ batches, batch ≠ [])
    (hnodup : batches.flatten.Nodup) (hold : OldUndrawn env e s batches.flatten)
    (h : Beside env e.childName base start [] s p)
    (hs : e.runRows env (runLambda env f) s batches.flatten = .ok s')
    (hp : batches.foldlM (e.updateBatch env m) p = .ok p')
    (hsame : ∀ key ∈ batches.flatten, e.getOld p' key = e.getOld s' key) :
    Kept env m f e base s batches := by
  induction batches generalizing s p start with
  | nil => trivial
  | cons batch rest ih =>
    rw [flatten_cons] at hnodup hold hs hsame
    rw [runRows_append] at hs
    rw [foldlM_cons] at hp
    cases hs₁ : e.runRows env (runLambda env f) s batch with
    | error ex =>
      rw [hs₁] at hs
      cases hs
    | ok s₁ =>
      cases hp₁ : e.updateBatch env m p batch with
      | error ex =>
        rw [hp₁] at hp
        cases hp
      | ok p₁ =>
        rw [hs₁] at hs
        rw [hp₁] at hp
        have hbatch := List.Nodup.of_append_left hnodup
        have holdBatch : OldUndrawn env e s batch :=
          fun key hkey => hold key (mem_append_left _ hkey)
        have hkept : KeptRows env m f e base s.deps s batch := by
          apply updateBatch_kept hagrees hfresh hbatch holdBatch h hs₁ hp₁
          intro key hkey
          have hnot : key ∉ rest.flatten := disjoint_of_nodup_append hnodup hkey
          rw [← (updateBatches_frame rest hp).old key hnot,
            ← (runRows_frame (runLambda_dirs env f) rest.flatten hs).old key hnot]
          exact hsame key (mem_append_left _ hkey)
        refine ⟨hkept, ?_⟩
        intro s₂ hs₂
        rw [hs₁] at hs₂
        cases hs₂
        have hbeside := updateBatch_beside hagrees (hne batch mem_cons_self) hbatch holdBatch h
          hkept
        rw [hs₁, hp₁] at hbeside
        exact ih (fun b hb => hne b (mem_cons_of_mem batch hb))
          (List.Nodup.of_append_right hnodup)
          (hold.rows (runLambda_dirs env f) batch hnodup hs₁) hbeside hs hp
          fun key hkey => hsame key (mem_append_right _ hkey)

end MapEdge
end SkipPlatform
