import SkipPlatform.StoreParallelReads

set_option autoImplicit false
set_option linter.unusedSectionVars false

/-! The rows of a batch: what the hooks and the worker of a row come to on a context, and
that a prepared row is replayed with the same writes and reads. -/
namespace SkipPlatform
open List StoreReaders StoreDeps StoreSourceMap

variable {D K P F E : Type} [LinearOrder D] [StoreKey K] [DecidableEq P] [DecidableEq F]

/-- A read through the `ParallelReader` is tracked as one through the context. -/
def ReadRequest.tracked : ReadRequest D K P → ReadRequest D K P
  | reader d key => getArray d key
  | q => q

def SameRequests (xs ys : List (ReadRequest D K P)) : Prop :=
  ∀ q, q ∈ xs.map ReadRequest.tracked ↔ q ∈ ys.map ReadRequest.tracked

def BothOk {α β : Type} (r : α → β → Prop) : Except E α → Except E β → Prop
  | .ok x, .ok y => r x y
  | .error _, .error _ => True
  | _, _ => False

theorem BothOk.bind_eq {α β α' β' : Type} {r : α → β → Prop} {r' : α' → β' → Prop} {x : Except E α}
    {y : Except E β} (h : BothOk r x y) {f : α → Except E α'} {g : β → Except E β'}
    (hfg : ∀ a b, x = .ok a → y = .ok b → r a b → BothOk r' (f a) (g b)) :
    BothOk r' (x.bind f) (y.bind g) := by
  cases x with
  | error e =>
    cases y with
    | error e' => trivial
    | ok b => exact h.elim
  | ok a =>
    cases y with
    | error e' => exact h.elim
    | ok b => exact hfg a b rfl rfl h

theorem BothOk.bind {α β α' β' : Type} {r : α → β → Prop} {r' : α' → β' → Prop} {x : Except E α}
    {y : Except E β} (h : BothOk r x y) {f : α → Except E α'} {g : β → Except E β'}
    (hfg : ∀ a b, r a b → BothOk r' (f a) (g b)) : BothOk r' (x.bind f) (y.bind g) :=
  h.bind_eq fun a b _ _ => hfg a b

/-- Both runs of a row fail, or they write the same and make the same requests. -/
def SameRun : Except E (SortedMap K (List F) × List (ReadRequest D K P)) →
    Except E (SortedMap K (List F) × List (ReadRequest D K P)) → Prop :=
  BothOk fun x y => x.1.items = y.1.items ∧ SameRequests x.2 y.2

/-- The writes of a row, the requests of its hooks and those of its worker. -/
structure RowOutcome (D K P F : Type) [LinearOrder K] where
  writes : SortedMap K (List F)
  hooks : List (ReadRequest D K P)
  worker : List (ReadRequest D K P)

namespace ParallelMapper
open ReadContext

def preparation (m : ParallelMapper D K P F E) (answer : ReadRequest D K P → Except E (List F))
    (key : K) (values : List F) : Except E (List F × List (ReadRequest D K P)) :=
  match m.prepareRow with
  | none => .ok (values, [])
  | some prepare => (prepare key values).follow answer

def recovery (m : ParallelMapper D K P F E) (answer : ReadRequest D K P → Except E (List F))
    (key : K) (values : List F) (prepared : List (ReadRequest D K P))
    (outcome : Except E (SortedMap K (List F) × List (ReadRequest D K P))) :
    Except E (RowOutcome D K P F) :=
  match outcome with
  | .ok y => .ok ⟨y.1, prepared, y.2⟩
  | .error ex =>
    match m.recoverRow with
    | none => .error ex
    | some recover =>
      ((recover key values ex).follow answer).bind fun z =>
        match z.1 with
        | none => .error ex
        | some writes => .ok ⟨writes, prepared ++ z.2, []⟩

def outcome (m : ParallelMapper D K P F E) (answer : ReadRequest D K P → Except E (List F))
    (key : K) (values : List F) : Except E (RowOutcome D K P F) :=
  (m.preparation answer key values).bind fun x =>
    m.recovery answer key values x.2 ((m.lambda key x.1).follow answer)

/-- The preparation and the recovery agree with the mapper `f`: on every context a selected
row comes to what `f` does, and the other rows have a serial mapper that does. None of
them reads the child. -/
structure Agrees (env : MapEnv D K P F E) (child : D) (m : ParallelMapper D K P F E)
    (f : K → List F → RowBody D K P F E (SortedMap K (List F))) : Prop where
  mapper : ∀ key values, (f key values).Within (Apart child)
  lambda : ∀ key values, (m.lambda key values).Within (Apart child)
  prepare : ∀ h ∈ m.prepareRow, ∀ key values, (h key values).Within (Apart child)
  recover : ∀ h ∈ m.recoverRow, ∀ key values ex, (h key values ex).Within (Apart child)
  serial : ∀ key, m.select key = false → ∃ g, m.serial = some g ∧
    ∀ values, (g key values).Within (Apart child) ∧ ∀ base : ReadContext D K P F,
      SameRun ((g key values).follow (base.answer env)) ((f key values).follow (base.answer env))
  rows : ∀ key, m.select key = true → ∀ values, ∀ base : ReadContext D K P F,
    SameRun ((m.outcome (base.answer env) key values).map fun x => (x.writes, x.hooks ++ x.worker))
      ((f key values).follow (base.answer env))

end ParallelMapper

namespace ReadContext

variable {env : MapEnv D K P F E} {base c c' c'' : ReadContext D K P F}

structure Hooked (env : MapEnv D K P F E) (base : ReadContext D K P F)
    (requests : List (ReadRequest D K P)) (c c' : ReadContext D K P F) : Prop where
  dirs : c'.dirs = c.dirs
  reads : c'.reads = c.reads
  grown : env.Grown (requests.flatMap (observedOf env base)) c.deps c'.deps
  keyed : Keyed c'.deps

theorem hooked_nil (hk : Keyed c.deps) : Hooked env base [] c c :=
  ⟨rfl, rfl, MapEnv.grown_nil c.deps, hk⟩

theorem Hooked.trans {xs ys : List (ReadRequest D K P)} (h : Hooked env base xs c c')
    (h' : Hooked env base ys c' c'') : Hooked env base (xs ++ ys) c c'' := by
  refine ⟨h'.dirs.trans h.dirs, h'.reads.trans h.reads, ?_, h'.keyed⟩
  rw [flatMap_append]
  exact h.grown.trans h'.grown

theorem Hooked.view {xs : List (ReadRequest D K P)} {child : D} (h : Hooked env base xs c c')
    (hview : SameView child base c) : SameView child base c' := by
  intro d hd
  rw [h.dirs]
  exact hview d hd

theorem runHook_spec {R : Type} {child : D} (env : MapEnv D K P F E) (hk : Keyed c.deps) (hview : SameView child base c)
    (reads : SortedSet (Path D K)) {body : RowBody D K P F E R} (hbody : body.Within (Apart child)) :
    match body.follow (base.answer env) with
    | .error e => c.runHook env reads body = .error e
    | .ok x => ∃ reads' c', c.runHook env reads body = .ok (x.1, reads', c') ∧
        Hooked env base x.2 c c' ∧ ∀ y, y ∈ reads'.keys ↔ y ∈ reads.keys ∨
          ∃ q ∈ x.2, y ∈ pathsOf env base c.deps q := by
  have h := interpret_request env (c := { c with reads := reads }) hk hview hbody
  cases hf : body.follow (base.answer env) with
  | error e =>
    rw [hf] at h
    simp only [runHook]
    rw [h]
    rfl
  | ok x =>
    rw [hf] at h
    obtain ⟨c', hrun, hnoted, _⟩ := h
    simp only [runHook]
    rw [hrun]
    exact ⟨c'.reads, { c' with reads := c.reads }, rfl,
      ⟨hnoted.dirs, rfl, hnoted.grown, hnoted.keyed hk⟩, hnoted.reads⟩

end ReadContext

namespace ReadContext

theorem pathsOf_tracked (env : MapEnv D K P F E) (base : ReadContext D K P F) (d : Deps D K P F)
    (q : ReadRequest D K P) : pathsOf env base d q.tracked = pathsOf env base d q := by
  cases q <;> rfl

theorem observedOf_tracked (env : MapEnv D K P F E) (base : ReadContext D K P F)
    (q : ReadRequest D K P) : observedOf env base q.tracked = observedOf env base q := by
  cases q <;> rfl

variable {xs ys : List (ReadRequest D K P)}

theorem exists_tracked (h : SameRequests xs ys)
    {t : ReadRequest D K P → Prop} (ht : ∀ q, t q.tracked ↔ t q) :
    (∃ q ∈ xs, t q) ↔ ∃ q ∈ ys, t q := by
  have hmap : ∀ zs : List (ReadRequest D K P),
      (∃ q ∈ zs, t q) ↔ ∃ q ∈ zs.map ReadRequest.tracked, t q := by
    intro zs
    simp [ht]
  rw [hmap xs, hmap ys]
  simp only [h _]

theorem sameRequests_paths (h : SameRequests xs ys)
    (env : MapEnv D K P F E) (base : ReadContext D K P F) (d : Deps D K P F) (x : Path D K) :
    (∃ q ∈ xs, x ∈ pathsOf env base d q) ↔ ∃ q ∈ ys, x ∈ pathsOf env base d q := by
  apply exists_tracked h
  intro q
  rw [pathsOf_tracked]

theorem sameRequests_observed (h : SameRequests xs ys)
    (env : MapEnv D K P F E) (base : ReadContext D K P F) (o : Observed D K P F) :
    o ∈ xs.flatMap (observedOf env base) ↔ o ∈ ys.flatMap (observedOf env base) := by
  rw [mem_flatMap, mem_flatMap]
  apply exists_tracked h
  intro q
  rw [observedOf_tracked]

theorem pathsOf_congr {env : MapEnv D K P F E} {base : ReadContext D K P F} {d d' : Deps D K P F}
    {q : ReadRequest D K P} (h : ∀ o ∈ observedOf env base q, env.idOf d' o = env.idOf d o) :
    pathsOf env base d' q = pathsOf env base d q := by
  cases q with
  | reader dir key => rfl
  | getArray dir key => rfl
  | getArrayFilter dir key p =>
    simp only [pathsOf, MapEnv.observedPath]
    rw [h _ (mem_singleton_self _)]

end ReadContext

namespace ParallelMapper
open ReadContext ParallelReader

variable {env : MapEnv D K P F E} {base snapshot c c' : ReadContext D K P F} {child : D}
  {m : ParallelMapper D K P F E} {f : K → List F → RowBody D K P F E (SortedMap K (List F))}

theorem evaluate_spec (env : MapEnv D K P F E) (hview : SameView child base snapshot) (key : K) (inputs : List F)
    (hbody : (m.lambda key inputs).Within (Apart child)) :
    match (m.lambda key inputs).follow (base.answer env) with
    | .error e => m.evaluate env snapshot key inputs = .error e
    | .ok x => ∃ r, m.evaluate env snapshot key inputs = .ok (x.1, r) ∧ Logged env base x.2 r := by
  have hrun : m.evaluate env snapshot key inputs =
      ((m.lambda key inputs).follow (snapshot.answer env)).map fun x =>
        (x.1, x.2.foldl (track env snapshot) create) := by
    have hstep : ∀ (r : ParallelReader D K P F) q, True → request env snapshot r q =
        (snapshot.answer env q).map fun a => (a, r.track env snapshot q) := fun _ _ _ => rfl
    exact Inquiry.interpret_eq_follow hstep (fun _ _ h => h) (m.lambda key inputs) create trivial
  rw [hrun, Inquiry.follow_congr hbody fun q hq => hview.answer q hq]
  cases hf : (m.lambda key inputs).follow (base.answer env) with
  | error e => rfl
  | ok x =>
    refine ⟨_, rfl, ?_⟩
    have hlog := logged_foldl x.2 (logged_create env base) fun q hq k =>
      hview.array (Inquiry.follow_asked hbody hf q hq).1 k
    simpa using hlog


theorem addFilteredDeps_spec (env : MapEnv D K P F E) (filters : List (ParallelContextFilter D K P F))
    (c : ReadContext D K P F) (hk : Keyed c.deps)
    (hkey : ∀ x ∈ filters, ∃ k, x.path.baseName = .key k) :
    ∃ c', filters.foldl (fun c x => c.addFilteredDep env x.path x.project x.value) c = c' ∧
      c'.dirs = c.dirs ∧
      env.Grown (filters.map fun x => ⟨x.path, x.project, x.value⟩) c.deps c'.deps ∧
      ∀ y, y ∈ c'.reads.keys ↔ y ∈ c.reads.keys ∨ ∃ o ∈ filters.map (fun x =>
        (⟨x.path, x.project, x.value⟩ : Observed D K P F)), y = env.observedPath c.deps o := by
  induction filters generalizing c with
  | nil => exact ⟨c, rfl, rfl, MapEnv.grown_nil c.deps, by simp⟩
  | cons x xs ih =>
    obtain ⟨hgrown, hpath⟩ := MapEnv.grown_addFilter env
      (⟨x.path, x.project, x.value⟩ : Observed D K P F) hk
    have hx : ∀ o ∈ [(⟨x.path, x.project, x.value⟩ : Observed D K P F)],
        ∃ k, o.path.baseName = .key k := by
      intro o ho
      rw [mem_singleton.mp ho]
      exact hkey x mem_cons_self
    obtain ⟨c', hc', hdirs, hrest, hreads⟩ := ih (c.addFilteredDep env x.path x.project x.value)
      (hgrown.keyed hx hk) fun z hz => hkey z (mem_cons_of_mem x hz)
    refine ⟨c', hc', hdirs, hgrown.trans hrest, ?_⟩
    intro y
    rw [hreads]
    unfold addFilteredDep
    rw [mem_addRead]
    have hids : ∀ o, env.observedPath (c.deps.addFilter env.hash (env.name x.path x.project x.value)
        x.path x.project x.value).1 o = env.observedPath c.deps o := by
      intro o
      unfold MapEnv.observedPath
      rw [← hgrown.idOf o]
      rfl
    simp only [addRead, hids, map_cons, mem_cons, exists_eq_or_imp]
    simp only [MapEnv.nameOf] at hpath
    rw [hpath]
    tauto

theorem readPaths_spec (env : MapEnv D K P F E) (paths : List (Path D K)) (c : ReadContext D K P F)
    (hdirs : ∀ x ∈ paths, ∃ dir, c.dirs.maybeGet x.dirName = some (.eager dir)) :
    ∃ c' : ReadContext D K P F, (paths.foldlM (fun c path =>
      match c.dirs.maybeGet path.dirName with
      | some (.eager _) => .ok ((c.addRead ⟨path.dirName, .dirTag⟩).addRead path)
      | _ => .error (env.missing path.dirName)) c : Except E (ReadContext D K P F)) = .ok c' ∧
      c'.dirs = c.dirs ∧ c'.deps = c.deps ∧
      ∀ y, y ∈ c'.reads.keys ↔ y ∈ c.reads.keys ∨
        ∃ x ∈ paths, y = ⟨x.dirName, .dirTag⟩ ∨ y = x := by
  induction paths generalizing c with
  | nil => exact ⟨c, rfl, rfl, rfl, by simp⟩
  | cons x xs ih =>
    obtain ⟨dir, hdir⟩ := hdirs x mem_cons_self
    have hrest : ∀ z ∈ xs, ∃ dir, ((c.addRead ⟨x.dirName, .dirTag⟩).addRead x).dirs.maybeGet
        z.dirName = some (.eager dir) := fun z hz => hdirs z (mem_cons_of_mem x hz)
    obtain ⟨c', hc', hd, hdeps, hreads⟩ := ih _ hrest
    refine ⟨c', ?_, hd, hdeps, ?_⟩
    · rw [foldlM_cons, hdir]
      exact hc'
    · intro y
      rw [hreads, mem_addRead, mem_addRead]
      simp only [mem_cons, exists_eq_or_imp, or_assoc, or_comm, or_left_comm]

theorem logged_paths {made : List (ReadRequest D K P)} {r : ParallelReader D K P F}
    (h : Logged env base made r) (d : Deps D K P F) (y : Path D K) :
    (y ∈ r.contextRequests.keys ∨
      (∃ o ∈ made.flatMap (observedOf env base), y = env.observedPath d o) ∨
      ∃ x ∈ r.requests.keys, y = ⟨x.dirName, .dirTag⟩ ∨ y = x) ↔
      ∃ q ∈ made, y ∈ pathsOf env base d q := by
  constructor
  · intro hy
    rcases hy with hy | ⟨o, ho, rfl⟩ | ⟨x, hx, hy⟩
    · rcases (h.context y).mp hy with ⟨d', k, hmem, hy⟩ | ⟨d', k, p, hmem, rfl⟩
      · exact ⟨_, hmem, by rcases hy with rfl | rfl <;> simp [pathsOf]⟩
      · exact ⟨_, hmem, by simp [pathsOf]⟩
    · obtain ⟨q, hmem, hq⟩ := mem_flatMap.mp ho
      refine ⟨q, hmem, ?_⟩
      cases q with
      | reader d' k => cases hq
      | getArray d' k => cases hq
      | getArrayFilter d' k p =>
        rw [mem_singleton.mp hq]
        exact mem_cons_self
    · obtain ⟨d', k, hmem, rfl⟩ := (h.requests x).mp hx
      exact ⟨_, hmem, by rcases hy with rfl | rfl <;> simp [pathsOf]⟩
  · rintro ⟨q, hmem, hy⟩
    cases q with
    | reader d' k =>
      have hx := (h.requests ⟨d', .key k⟩).mpr ⟨d', k, hmem, rfl⟩
      refine Or.inr (Or.inr ⟨_, hx, ?_⟩)
      simpa [pathsOf] using hy
    | getArray d' k =>
      refine Or.inl ((h.context y).mpr (Or.inl ⟨d', k, hmem, ?_⟩))
      simpa [pathsOf] using hy
    | getArrayFilter d' k p =>
      simp only [pathsOf, mem_cons, not_mem_nil, or_false] at hy
      rcases hy with rfl | rfl
      · exact Or.inr (Or.inl ⟨_, mem_flatMap.mpr ⟨_, hmem, mem_singleton_self _⟩, rfl⟩)
      · exact Or.inl ((h.context _).mpr (Or.inr ⟨d', k, p, hmem, rfl⟩))

/-- A prepared row whose worker made the requests `made`. -/
structure Holds (env : MapEnv D K P F E) (base : ReadContext D K P F)
    (made : List (ReadRequest D K P)) (row : PreparedParallelRow D K P F) : Prop where
  logged : Logged env base made ⟨row.reads, row.contextReads, row.filters⟩
  answered : ∀ q ∈ made, ∃ a, base.answer env q = .ok a

theorem eager_of_answer {q : ReadRequest D K P} {a : List F} (h : base.answer env q = .ok a) :
    ∃ dir, base.dirs.maybeGet q.dirName = some (.eager dir) := by
  unfold answer at h
  split at h
  · rename_i dir hdir
    exact ⟨dir, hdir⟩
  · cases h

theorem replayReads_spec {made : List (ReadRequest D K P)} {row : PreparedParallelRow D K P F}
    (hrow : Holds env base made row) (hk : Keyed c.deps) (hview : SameView child base c)
    (hapart : ∀ q ∈ made, Apart child q) :
    ∃ c', replayReads env c row = .ok c' ∧ c'.dirs = c.dirs ∧
      env.Grown (made.flatMap (observedOf env base)) c.deps c'.deps ∧
      ∀ y, y ∈ c'.reads.keys ↔ y ∈ c.reads.keys ∨ y ∈ row.prepared.keys ∨
        ∃ q ∈ made, y ∈ pathsOf env base c.deps q := by
  have hfilters := hrow.logged.filters
  simp only at hfilters
  have hkey : ∀ x ∈ row.filters.reverse, ∃ k, x.path.baseName = .key k := by
    intro x hx
    have hmem : (⟨x.path, x.project, x.value⟩ : Observed D K P F) ∈
        made.flatMap (observedOf env base) := by
      rw [← hfilters]
      exact mem_map.mpr ⟨x, hx, rfl⟩
    obtain ⟨q, _, hq⟩ := mem_flatMap.mp hmem
    exact (observedOf_keyed q _ hq).2
  obtain ⟨c₁, hc₁, hdirs₁, hgrown, hreads₁⟩ := addFilteredDeps_spec env row.filters.reverse
    { c with reads := (c.reads.union row.prepared).union row.contextReads } hk hkey
  have heager : ∀ x ∈ row.reads.keys, ∃ dir, c₁.dirs.maybeGet x.dirName = some (.eager dir) := by
    intro x hx
    obtain ⟨d, k, hmem, rfl⟩ := (hrow.logged.requests x).mp hx
    obtain ⟨a, ha⟩ := hrow.answered _ hmem
    obtain ⟨dir, hdir⟩ := eager_of_answer ha
    refine ⟨dir, ?_⟩
    rw [hdirs₁]
    exact (hview d (hapart _ hmem)).trans hdir
  obtain ⟨c₂, hc₂, hdirs₂, hdeps₂, hreads₂⟩ := readPaths_spec env row.reads.keys c₁ heager
  refine ⟨c₂, ?_, hdirs₂.trans hdirs₁, ?_, ?_⟩
  · unfold replayReads
    simp only
    rw [hc₁]
    exact hc₂
  · rw [hdeps₂, ← hfilters]
    exact hgrown
  · intro y
    rw [hreads₂, hreads₁, hfilters]
    simp only [SortedMap.mem_union]
    rw [← logged_paths hrow.logged c.deps y]
    simp only [or_assoc]

structure Prepared (env : MapEnv D K P F E) (base : ReadContext D K P F) (d : Deps D K P F)
    (x : RowOutcome D K P F) (row : PreparedParallelRow D K P F) : Prop where
  writes : row.writes = x.writes
  holds : Holds env base x.worker row
  prepared : ∀ y, y ∈ row.prepared.keys ↔ ∃ q ∈ x.hooks, y ∈ pathsOf env base d q

theorem settle_spec (hagrees : Agrees env child m f) (hk : Keyed c.deps)
    (hview : SameView child base c) (hsnap : SameView child base snapshot) (values : K → List F)
    (key : K) (inputs : List F) (done : List (ReadRequest D K P)) (prepared : SortedSet (Path D K))
    (hprep : ∀ y, y ∈ prepared.keys ↔ ∃ q ∈ done, y ∈ pathsOf env base c.deps q) :
    match m.recovery (base.answer env) key (values key) done
      ((m.lambda key inputs).follow (base.answer env)) with
    | .error _ => ∃ e, m.settle env values c key prepared (m.evaluate env snapshot key inputs) =
        .error e
    | .ok x => ∃ row c' made, m.settle env values c key prepared
          (m.evaluate env snapshot key inputs) = .ok (row, c') ∧ x.hooks = done ++ made ∧
        Hooked env base made c c' ∧ Prepared env base c.deps x row := by
  have heval := evaluate_spec env hsnap key inputs (hagrees.lambda key inputs)
  cases hl : (m.lambda key inputs).follow (base.answer env) with
  | ok x =>
    rw [hl] at heval
    obtain ⟨r, hr, hlog⟩ := heval
    rw [hr]
    refine ⟨_, c, [], rfl, (append_nil done).symm, hooked_nil hk, rfl, ⟨hlog, ?_⟩, hprep⟩
    intro q hq
    exact (Inquiry.follow_asked (hagrees.lambda key inputs) hl q hq).2
  | error ex =>
    rw [hl] at heval
    rw [heval]
    simp only [recovery, settle]
    cases hrec : m.recoverRow with
    | none => exact ⟨ex, rfl⟩
    | some recover =>
      have hwithin := hagrees.recover recover hrec key (values key) ex
      have hhook := runHook_spec env hk hview prepared hwithin
      simp only
      cases hfol : (recover key (values key) ex).follow (base.answer env) with
      | error e =>
        rw [hfol] at hhook
        rw [hhook]
        exact ⟨e, rfl⟩
      | ok z =>
        rw [hfol] at hhook
        obtain ⟨reads, c', hrun, hhooked, hreads⟩ := hhook
        rw [hrun]
        simp only [Except.bind]
        cases hz : z.1 with
        | none => exact ⟨ex, rfl⟩
        | some writes =>
          refine ⟨_, c', z.2, rfl, rfl, hhooked, rfl, ⟨logged_create env base, ?_⟩, ?_⟩
          · intro q hq
            cases hq
          · intro y
            rw [hreads, hprep]
            simp only [mem_append, or_and_right, exists_or]

/-- A row that is ready for its worker: its key was prepared to these inputs, with these
reads. -/
def ReadyRow (env : MapEnv D K P F E) (base : ReadContext D K P F) (d : Deps D K P F)
    (m : ParallelMapper D K P F E) (values : K → List F)
    (row : K × List F × SortedSet (Path D K)) : Prop :=
  ∃ done, m.preparation (base.answer env) row.1 (values row.1) = .ok (row.2.1, done) ∧
    ∀ y, y ∈ row.2.2.keys ↔ ∃ q ∈ done, y ∈ pathsOf env base d q

variable (values : K → List F)

theorem preparations_cons (hagrees : Agrees env child m f)
    (hk : Keyed c.deps) (hview : SameView child base c) (key : K) (keys : List K) :
    match m.preparation (base.answer env) key (values key) with
    | .error _ => ∃ e, m.preparations env values c (key :: keys) = .error e
    | .ok y => ∃ c' reads, Hooked env base y.2 c c' ∧
        ReadyRow env base c.deps m values (key, y.1, reads) ∧
        m.preparations env values c (key :: keys) =
          (m.preparations env values c' keys).map fun x => ((key, y.1, reads) :: x.1, x.2) := by
  unfold preparation ReadyRow preparation
  simp only [preparations]
  cases hp : m.prepareRow with
  | none =>
    refine ⟨c, .empty, hooked_nil hk, ⟨[], rfl, ?_⟩, rfl⟩
    intro y
    simp [SortedMap.keys]
  | some prepare =>
    have hhook := runHook_spec env hk hview .empty (hagrees.prepare prepare hp key (values key))
    simp only
    cases hf : (prepare key (values key)).follow (base.answer env) with
    | error e =>
      rw [hf] at hhook
      rw [hhook]
      exact ⟨e, rfl⟩
    | ok y =>
      rw [hf] at hhook
      obtain ⟨reads, c', hrun, hhooked, hreads⟩ := hhook
      rw [hrun]
      refine ⟨c', reads, hhooked, ⟨y.2, rfl, ?_⟩, rfl⟩
      intro z
      rw [hreads]
      simp [SortedMap.keys]

variable {xs : List (Observed D K P F)}

theorem ReadyRow.grown {d d' : Deps D K P F} {values : K → List F}
    {row : K × List F × SortedSet (Path D K)} (h : ReadyRow env base d' m values row)
    (hg : env.Grown xs d d') : ReadyRow env base d m values row := by
  obtain ⟨done, hdone, hreads⟩ := h
  refine ⟨done, hdone, ?_⟩
  intro y
  rw [hreads]
  simp only [pathsOf_grown hg]

def PreparesWith (answer : ReadRequest D K P → Except E (List F)) (m : ParallelMapper D K P F E)
    (values : K → List F) (keys : List K) (q : ReadRequest D K P) : Prop :=
  ∃ key ∈ keys, ∃ y, m.preparation answer key (values key) = .ok y ∧ q ∈ y.2

theorem preparations_spec (hagrees : Agrees env child m f) (keys : List K)
    (c : ReadContext D K P F) (hk : Keyed c.deps) (hview : SameView child base c) :
    ((∃ e, m.preparations env values c keys = .error e) ∧
      ∃ key ∈ keys, ∃ e, m.preparation (base.answer env) key (values key) = .error e) ∨
    ∃ rows c' made, m.preparations env values c keys = .ok (rows, c') ∧
      Hooked env base made c c' ∧ rows.map Prod.fst = keys ∧
      (∀ row ∈ rows, ReadyRow env base c.deps m values row) ∧
      ∀ q, q ∈ made ↔ PreparesWith (base.answer env) m values keys q := by
  induction keys generalizing c with
  | nil =>
    right
    exact ⟨[], c, [], rfl, hooked_nil hk, rfl, by simp, by simp [PreparesWith]⟩
  | cons key keys ih =>
    have hcons := preparations_cons values hagrees hk hview key keys
    cases hp : m.preparation (base.answer env) key (values key) with
    | error e =>
      left
      rw [hp] at hcons
      exact ⟨hcons, key, mem_cons_self, e, hp⟩
    | ok y =>
      rw [hp] at hcons
      obtain ⟨c₁, reads, hhooked, hready, heq⟩ := hcons
      rcases ih c₁ hhooked.keyed (hhooked.view hview) with ⟨⟨e, he⟩, key', hkey', herr⟩ |
        ⟨rows, c', made, hrun, hhooked', hkeys, hrows, hmade⟩
      · left
        rw [heq, he]
        exact ⟨⟨e, rfl⟩, key', mem_cons_of_mem key hkey', herr⟩
      · right
        refine ⟨(key, y.1, reads) :: rows, c', y.2 ++ made, ?_, hhooked.trans hhooked', ?_, ?_, ?_⟩
        · rw [heq, hrun]
          rfl
        · rw [map_cons, hkeys]
        · intro row hrow
          rcases mem_cons.mp hrow with rfl | hrow
          · exact hready
          · exact (hrows row hrow).grown hhooked.grown
        · intro q
          rw [mem_append, hmade]
          unfold PreparesWith
          simp only [mem_cons, exists_eq_or_imp]
          rw [hp]
          simp

theorem Prepared.grown {d d' : Deps D K P F}
    {x : RowOutcome D K P F} {row : PreparedParallelRow D K P F}
    (h : Prepared env base d' x row) (hg : env.Grown xs d d') : Prepared env base d x row := by
  refine ⟨h.writes, h.holds, ?_⟩
  intro y
  rw [h.prepared]
  simp only [pathsOf_grown hg]

theorem outcome_eq {answer : ReadRequest D K P → Except E (List F)} {key : K} {values inputs : List F}
    {done : List (ReadRequest D K P)} (h : m.preparation answer key values = .ok (inputs, done)) :
    m.outcome answer key values =
      m.recovery answer key values done ((m.lambda key inputs).follow answer) := by
  unfold outcome
  rw [h]
  rfl

def HooksWith (answer : ReadRequest D K P → Except E (List F)) (m : ParallelMapper D K P F E)
    (values : K → List F) (keys : List K) (q : ReadRequest D K P) : Prop :=
  ∃ key ∈ keys, ∃ x, m.outcome answer key (values key) = .ok x ∧ q ∈ x.hooks

theorem settleAll_spec (hagrees : Agrees env child m f)
    (hsnap : SameView child base snapshot) (d : Deps D K P F)
    (rows : List (K × List F × SortedSet (Path D K))) (c : ReadContext D K P F)
    (results : SortedMap K (PreparedParallelRow D K P F)) (hk : Keyed c.deps)
    (hview : SameView child base c) (hg : env.Grown xs d c.deps)
    (hready : ∀ row ∈ rows, ReadyRow env base d m values row) :
    ((∃ e, m.settleAll env values snapshot c results rows = .error e) ∧
      ∃ row ∈ rows, ∃ e, m.outcome (base.answer env) row.1 (values row.1) = .error e) ∨
    ∃ results' c' made, m.settleAll env values snapshot c results rows = .ok (results', c') ∧
      Hooked env base made c c' ∧
      (∀ q ∈ made, HooksWith (base.answer env) m values (rows.map Prod.fst) q) ∧
      (∀ q, HooksWith (base.answer env) m values (rows.map Prod.fst) q →
        q ∈ made ∨ PreparesWith (base.answer env) m values (rows.map Prod.fst) q) ∧
      (∀ key ∈ rows.map Prod.fst, ∃ x row, m.outcome (base.answer env) key (values key) = .ok x ∧
        results'.maybeGet key = some row ∧ Prepared env base d x row) ∧
      ∀ key, key ∉ rows.map Prod.fst → results'.maybeGet key = results.maybeGet key := by
  induction rows generalizing c results xs with
  | nil =>
    right
    exact ⟨results, c, [], rfl, hooked_nil hk, by simp, by simp [HooksWith], by simp, fun _ _ => rfl⟩
  | cons row rows ih =>
    obtain ⟨key, inputs, prepared⟩ := row
    obtain ⟨done, hdone, hreads⟩ := hready _ mem_cons_self
    simp only at hdone hreads
    have hprep : ∀ y, y ∈ prepared.keys ↔ ∃ q ∈ done, y ∈ pathsOf env base c.deps q := by
      intro y
      rw [hreads]
      simp only [pathsOf_grown hg]
    have hsettle := settle_spec hagrees hk hview hsnap values key inputs done prepared hprep
    rw [← outcome_eq hdone] at hsettle
    simp only [settleAll]
    cases ho : m.outcome (base.answer env) key (values key) with
    | error e =>
      rw [ho] at hsettle
      obtain ⟨e', he'⟩ := hsettle
      left
      rw [he']
      exact ⟨⟨e', rfl⟩, _, mem_cons_self, e, ho⟩
    | ok x =>
      rw [ho] at hsettle
      obtain ⟨r, c₁, made₁, hrun, hmade₁, hhooked, hprepared⟩ := hsettle
      rw [hrun]
      simp only [Except.bind]
      rcases ih c₁ (results.set key r) hhooked.keyed (hhooked.view hview) (hg.trans hhooked.grown)
          (fun row hrow => hready row (mem_cons_of_mem _ hrow)) with
        ⟨he, row, hrow, herr⟩ | ⟨results', c', made, hrest, hhooked', hsound, hcomplete, hin, hout⟩
      · left
        exact ⟨he, row, mem_cons_of_mem _ hrow, herr⟩
      · right
        refine ⟨results', c', made₁ ++ made, hrest, hhooked.trans hhooked', ?_, ?_, ?_, ?_⟩
        · intro q hq
          rcases mem_append.mp hq with hq | hq
          · refine ⟨key, mem_cons_self, x, ho, ?_⟩
            rw [hmade₁]
            exact mem_append_right done hq
          · obtain ⟨key', hkey', hx⟩ := hsound q hq
            exact ⟨key', mem_cons_of_mem _ hkey', hx⟩
        · rintro q ⟨key', hkey', x', hx', hq⟩
          rcases mem_cons.mp hkey' with rfl | hkey'
          · rw [ho] at hx'
            cases hx'
            rw [hmade₁] at hq
            rcases mem_append.mp hq with hq | hq
            · exact Or.inr ⟨_, mem_cons_self, _, hdone, hq⟩
            · exact Or.inl (mem_append_left made hq)
          · rcases hcomplete q ⟨key', hkey', x', hx', hq⟩ with h | ⟨key'', hkey'', h⟩
            · exact Or.inl (mem_append_right made₁ h)
            · exact Or.inr ⟨key'', mem_cons_of_mem _ hkey'', h⟩
        · intro key' hkey'
          by_cases hmem : key' ∈ rows.map Prod.fst
          · exact hin key' hmem
          · rcases mem_cons.mp hkey' with rfl | hkey'
            · refine ⟨x, r, ho, ?_, hprepared.grown hg⟩
              rw [hout _ hmem, SortedMap.maybeGet_set, if_pos rfl]
            · exact absurd hkey' hmem
        · intro key' hkey'
          have hne : key' ≠ key := fun h => hkey' (by rw [h]; exact mem_cons_self)
          rw [hout key' fun h => hkey' (mem_cons_of_mem _ h), SortedMap.maybeGet_set,
            if_neg hne]

theorem hooks_of_preparation {answer : ReadRequest D K P → Except E (List F)} {key : K}
    {values : List F} {y : List F × List (ReadRequest D K P)} {x : RowOutcome D K P F}
    (hy : m.preparation answer key values = .ok y) (hx : m.outcome answer key values = .ok x) :
    ∀ q ∈ y.2, q ∈ x.hooks := by
  intro q hq
  rw [outcome_eq hy] at hx
  unfold recovery at hx
  cases hl : (m.lambda key y.1).follow answer with
  | ok z =>
    rw [hl] at hx
    cases hx
    exact hq
  | error ex =>
    rw [hl] at hx
    simp only at hx
    cases hrec : m.recoverRow with
    | none =>
      rw [hrec] at hx
      cases hx
    | some recover =>
      rw [hrec] at hx
      simp only at hx
      cases hf : (recover key values ex).follow answer with
      | error e =>
        rw [hf] at hx
        cases hx
      | ok z =>
        rw [hf] at hx
        simp only [Except.bind] at hx
        split at hx
        · cases hx
        · cases hx
          exact mem_append_left z.2 hq

theorem prepare_spec (hagrees : Agrees env child m f) (hk : Keyed c.deps)
    (hview : SameView child base c) (keys : List K) (hany : keys.any m.select = true) :
    ((∃ e, m.prepare env values c keys = .error e) ∧ ∃ key ∈ keys.filter m.select,
      ∃ e, m.outcome (base.answer env) key (values key) = .error e) ∨
    ∃ results c' made, m.prepare env values c keys = .ok (results, c') ∧
      Hooked env base made c c' ∧
      (∀ q, q ∈ made ↔ HooksWith (base.answer env) m values (keys.filter m.select) q) ∧
      (∀ key ∈ keys.filter m.select, ∃ x row, m.outcome (base.answer env) key (values key) = .ok x ∧
        results.maybeGet key = some row ∧ Prepared env base c.deps x row) ∧
      ∀ key, m.select key = false → results.maybeGet key = none := by
  have hne : (keys.filter m.select).isEmpty = false := by
    obtain ⟨key, hkey, hsel⟩ := any_eq_true.mp hany
    apply Bool.eq_false_iff.mpr
    intro hemp
    have hmem := mem_filter.mpr ⟨hkey, hsel⟩
    rw [List.isEmpty_iff.mp hemp] at hmem
    cases hmem
  unfold prepare
  simp only [hne, Bool.false_eq_true, if_false]
  rcases preparations_spec values hagrees (keys.filter m.select) c hk hview with
    ⟨⟨e, he⟩, key, hkey, e', he'⟩ | ⟨rows, c₁, made₁, hrun, hhooked, hkeys, hready, hmade₁⟩
  · left
    rw [he]
    refine ⟨⟨e, rfl⟩, key, hkey, e', ?_⟩
    unfold outcome
    rw [he']
    rfl
  · rw [hrun]
    simp only [Except.bind]
    have hview₁ := hhooked.view hview
    rcases settleAll_spec values hagrees hview₁ c.deps rows c₁ .empty hhooked.keyed hview₁
        hhooked.grown hready with
      ⟨he, row, hrow, herr⟩ | ⟨results, c', made, hrest, hhooked', hsound, hcomplete, hin, hout⟩
    · left
      refine ⟨he, row.1, ?_, herr⟩
      rw [← hkeys]
      exact mem_map_of_mem hrow
    · right
      rw [hkeys] at hsound hcomplete hin hout
      refine ⟨results, c', made₁ ++ made, hrest, hhooked.trans hhooked', ?_, hin, ?_⟩
      · intro q
        rw [mem_append, hmade₁]
        constructor
        · rintro (⟨key, hkey, y, hy, hq⟩ | hq)
          · obtain ⟨x, _, hx, _⟩ := hin key hkey
            exact ⟨key, hkey, x, hx, hooks_of_preparation hy hx q hq⟩
          · exact hsound q hq
        · intro hq
          exact (hcomplete q hq).symm
      · intro key hsel
        have hnot : key ∉ keys.filter m.select := by
          intro hmem
          rw [(mem_filter.mp hmem).2] at hsel
          cases hsel
        rw [hout key hnot]
        rfl

end ParallelMapper
end SkipPlatform
