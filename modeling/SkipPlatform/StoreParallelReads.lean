import SkipPlatform.StoreParallelMap

set_option autoImplicit false
set_option linter.unusedSectionVars false

/-! What the reads of a row leave in the context, told by the filters that are registered
and not by the order in which they were. -/
namespace SkipPlatform
open List StoreReaders StoreDeps StoreSourceMap

variable {D K P F E : Type} [LinearOrder D] [StoreKey K] [DecidableEq P] [DecidableEq F]

structure Observed (D K P F : Type) where
  path : Path D K
  project : P
  value : List F

namespace MapEnv

/-- The filters a read that observed `o` may share, the first of which it does. -/
def matching (env : MapEnv D K P F E) (d : Deps D K P F) (o : Observed D K P F) : List ℤ :=
  ((d.bucket o.path (env.hash o.project)).filter fun f =>
    decide (f.project = o.project ∧ f.value = o.value)).map ReadFilter.id

def nameOf (env : MapEnv D K P F E) (o : Observed D K P F) : ℤ := env.name o.path o.project o.value

def idOf (env : MapEnv D K P F E) (d : Deps D K P F) (o : Observed D K P F) : ℤ :=
  (env.matching d o).head?.getD (env.nameOf o)

def observedPath (env : MapEnv D K P F E) (d : Deps D K P F) (o : Observed D K P F) : Path D K :=
  filteredPath o.path (env.hash o.project) (env.idOf d o)

/-- Filters were registered for some of what was observed, and nothing else happened. -/
structure Grown (env : MapEnv D K P F E) (observed : List (Observed D K P F))
    (d d' : Deps D K P F) : Prop where
  data : d'.data = d.data
  idata : d'.idata = d.idata
  compactReaders : d'.compactReaders = d.compactReaders
  blockReaders : d'.blockReaders = d.blockReaders
  matching : ∀ o, (o ∈ observed ∧ env.matching d o = [] ∧ env.matching d' o = [env.nameOf o]) ∨
    ((o ∈ observed → env.matching d o ≠ []) ∧ env.matching d' o = env.matching d o)
  filters : ∀ q, (∀ o ∈ observed, o.path ≠ q) → d'.filters.maybeGet q = d.filters.maybeGet q
  keyed : (∀ o ∈ observed, ∃ k, o.path.baseName = .key k) → ReadContext.Keyed d →
    ReadContext.Keyed d'
  tidy : d.Tidy → d'.Tidy

variable {env : MapEnv D K P F E}

variable (d : Deps D K P F)

theorem grown_nil : env.Grown [] d d :=
  ⟨rfl, rfl, rfl, rfl, fun _ => Or.inr ⟨fun h => absurd h not_mem_nil, rfl⟩, fun _ _ => rfl,
    fun _ h => h, fun h => h⟩

theorem Grown.trans {xs ys : List (Observed D K P F)} {d d' d'' : Deps D K P F}
    (h : env.Grown xs d d') (h' : env.Grown ys d' d'') : env.Grown (xs ++ ys) d d'' := by
  refine ⟨h'.data.trans h.data, h'.idata.trans h.idata,
    h'.compactReaders.trans h.compactReaders, h'.blockReaders.trans h.blockReaders, ?_, ?_, ?_,
    fun hd => h'.tidy (h.tidy hd)⟩
  · intro o
    rcases h.matching o with ⟨hx, hnil, hnew⟩ | ⟨hx, hsame⟩
    · left
      refine ⟨mem_append_left ys hx, hnil, ?_⟩
      rcases h'.matching o with ⟨_, hnil', _⟩ | ⟨_, hsame'⟩
      · rw [hnew] at hnil'
        cases hnil'
      · rw [hsame', hnew]
    · rcases h'.matching o with ⟨hy, hnil', hnew'⟩ | ⟨hy, hsame'⟩
      · left
        rw [hsame] at hnil'
        exact ⟨mem_append_right xs hy, hnil', hnew'⟩
      · right
        refine ⟨?_, hsame'.trans hsame⟩
        intro ho
        rcases mem_append.mp ho with ho | ho
        · exact hx ho
        · rw [← hsame]
          exact hy ho
  · intro q hq
    rw [h'.filters q fun o ho => hq o (mem_append_right xs ho)]
    exact h.filters q fun o ho => hq o (mem_append_left ys ho)
  · intro hk hd
    apply h'.keyed fun o ho => hk o (mem_append_right xs ho)
    exact h.keyed (fun o ho => hk o (mem_append_left ys ho)) hd

theorem Grown.idOf {xs : List (Observed D K P F)} {d d' : Deps D K P F} (h : env.Grown xs d d')
    (o : Observed D K P F) : env.idOf d' o = env.idOf d o := by
  unfold MapEnv.idOf
  rcases h.matching o with ⟨_, hnil, hnew⟩ | ⟨_, hsame⟩
  · rw [hnil, hnew]
    rfl
  · rw [hsame]

theorem find_eq_head (env : MapEnv D K P F E) (d : Deps D K P F) (o : Observed D K P F) :
    ((d.bucket o.path (env.hash o.project)).find? fun f =>
      decide (f.project = o.project ∧ f.value = o.value)).map ReadFilter.id =
      (env.matching d o).head? := by
  unfold MapEnv.matching
  rw [List.head?_map, List.head?_filter]

theorem addFilter_found {d : Deps D K P F} {o : Observed D K P F} {f : ReadFilter P F}
    (h : (d.bucket o.path (env.hash o.project)).find? (fun f =>
      decide (f.project = o.project ∧ f.value = o.value)) = some f) :
    d.addFilter env.hash (env.nameOf o) o.path o.project o.value = (d, f.path o.path) := by
  unfold Deps.bucket at h
  unfold Deps.addFilter
  simp only
  rw [h]

theorem addFilter_new {d : Deps D K P F} {o : Observed D K P F}
    (h : (d.bucket o.path (env.hash o.project)).find? (fun f =>
      decide (f.project = o.project ∧ f.value = o.value)) = none) :
    d.addFilter env.hash (env.nameOf o) o.path o.project o.value =
      ({ d with
          nextFilterID := env.nameOf o
          filters := d.filters.set o.path (((d.filters.maybeGet o.path).getD .empty).set
            (env.hash o.project) (d.bucket o.path (env.hash o.project) ++
              [⟨env.nameOf o, env.hash o.project, o.project, o.value⟩])) },
        filteredPath o.path (env.hash o.project) (env.nameOf o)) := by
  unfold Deps.bucket at h ⊢
  unfold Deps.addFilter
  simp only
  rw [h]
  rfl

theorem bucket_new (o : Observed D K P F) (q : Path D K) (h : ℤ) :
    Deps.bucket { d with
      nextFilterID := env.nameOf o
      filters := d.filters.set o.path (((d.filters.maybeGet o.path).getD .empty).set
        (env.hash o.project) (d.bucket o.path (env.hash o.project) ++
          [⟨env.nameOf o, env.hash o.project, o.project, o.value⟩])) } q h =
      if q = o.path ∧ h = env.hash o.project then
        d.bucket q h ++ [⟨env.nameOf o, env.hash o.project, o.project, o.value⟩]
      else d.bucket q h := by
  rw [Deps.bucket_setFilters]
  by_cases hq : q = o.path
  · subst hq
    rw [if_pos rfl, SortedMap.maybeGet_set]
    by_cases hh : h = env.hash o.project
    · subst hh
      rw [if_pos rfl, if_pos ⟨rfl, rfl⟩]
      rfl
    · rw [if_neg hh, if_neg fun hx => hh hx.2]
      rfl
  · rw [if_neg hq, if_neg fun hx => hq hx.1]

theorem tidy_new (o : Observed D K P F) (hd : d.Tidy) :
    Deps.Tidy { d with
      nextFilterID := env.nameOf o
      filters := d.filters.set o.path (((d.filters.maybeGet o.path).getD .empty).set
        (env.hash o.project) (d.bucket o.path (env.hash o.project) ++
          [⟨env.nameOf o, env.hash o.project, o.project, o.value⟩])) } := by
  refine ⟨hd.readers, hd.inverse, ?_⟩
  intro q groups hq
  simp only [SortedMap.maybeGet_set] at hq
  split_ifs at hq with hqo
  · cases hq
    refine ⟨SortedMap.items_set_ne_nil _ _ _, ?_⟩
    intro h b hb
    rw [SortedMap.maybeGet_set] at hb
    split_ifs at hb
    · cases hb
      simp
    · cases hg : d.filters.maybeGet o.path with
      | none =>
        rw [hg] at hb
        cases hb
      | some groups₀ =>
        rw [hg] at hb
        exact (hd.filters o.path groups₀ hg).2 h b hb
  · exact hd.filters q groups hq

theorem grown_addFilter (env : MapEnv D K P F E) {d : Deps D K P F} (o : Observed D K P F) (h : ReadContext.Keyed d) :
    env.Grown [o] d (d.addFilter env.hash (env.nameOf o) o.path o.project o.value).1 ∧
      (d.addFilter env.hash (env.nameOf o) o.path o.project o.value).2 = env.observedPath d o := by
  have hhead := find_eq_head env d o
  cases hfind : (d.bucket o.path (env.hash o.project)).find? (fun f =>
      decide (f.project = o.project ∧ f.value = o.value)) with
  | some f =>
    rw [hfind] at hhead
    rw [addFilter_found hfind]
    have hhash := h.hash _ _ f (List.mem_of_find?_eq_some hfind)
    refine ⟨⟨rfl, rfl, rfl, rfl, ?_, fun _ _ => rfl, fun _ hk => hk, fun hd => hd⟩, ?_⟩
    · intro o'
      right
      refine ⟨?_, rfl⟩
      intro ho
      rw [mem_singleton.mp ho]
      intro hnil
      rw [hnil] at hhead
      cases hhead
    · unfold observedPath MapEnv.idOf
      rw [← hhead, ReadFilter.path, hhash]
      rfl
  | none =>
    rw [hfind] at hhead
    have hnil : env.matching d o = [] := List.head?_eq_none_iff.mp hhead.symm
    rw [addFilter_new hfind]
    refine ⟨⟨rfl, rfl, rfl, rfl, ?_, ?_, ?_, tidy_new d o⟩, ?_⟩
    · intro o'
      by_cases ho : o' = o
      · subst ho
        left
        refine ⟨mem_singleton_self o', hnil, ?_⟩
        unfold MapEnv.matching at hnil ⊢
        rw [bucket_new, if_pos ⟨rfl, rfl⟩, filter_append, map_append, hnil]
        simp
      · right
        refine ⟨fun hx => absurd (mem_singleton.mp hx) ho, ?_⟩
        unfold MapEnv.matching
        rw [bucket_new]
        split_ifs with hc
        · rw [filter_append, map_append]
          have hne : ¬(o.project = o'.project ∧ o.value = o'.value) := by
            intro hx
            apply ho
            cases o
            cases o'
            cases hx.1
            cases hx.2
            cases hc.1
            rfl
          simp [hne]
        · rfl
    · intro q hq
      have hne := (hq o (mem_singleton_self o)).symm
      simp only
      rw [SortedMap.maybeGet_set, if_neg hne]
    · intro hkey hd
      refine ⟨?_, ?_⟩
      · intro q filters hq
        simp only [SortedMap.maybeGet_set] at hq
        split_ifs at hq with hqo
        · rw [hqo]
          exact hkey o (mem_singleton_self o)
        · exact hd.source q filters hq
      · intro q hash f hf
        rw [bucket_new] at hf
        split_ifs at hf with hc
        · rcases mem_append.mp hf with hf | hf
          · exact hd.hash q hash f hf
          · rw [mem_singleton.mp hf]
            exact hc.2.symm
        · exact hd.hash q hash f hf
    · unfold observedPath MapEnv.idOf
      rw [hnil]
      rfl

end MapEnv

namespace ReadContext

def observedOf (env : MapEnv D K P F E) (c : ReadContext D K P F) :
    ReadRequest D K P → List (Observed D K P F)
  | .getArrayFilter d key p => [⟨⟨d, .key key⟩, p, (c.getArrayRaw d key).map (env.project p)⟩]
  | _ => []

def pathsOf (env : MapEnv D K P F E) (c : ReadContext D K P F) (d : Deps D K P F) :
    ReadRequest D K P → List (Path D K)
  | .reader dir key => [⟨dir, .dirTag⟩, ⟨dir, .key key⟩]
  | .getArray dir key => [⟨dir, .dirTag⟩, ⟨dir, .key key⟩]
  | .getArrayFilter dir key p =>
    [env.observedPath d ⟨⟨dir, .key key⟩, p, (c.getArrayRaw dir key).map (env.project p)⟩,
      ⟨dir, .dirTag⟩]

/-- The requests were tracked: their paths are read, their filters registered. -/
structure Noted (env : MapEnv D K P F E) (base : ReadContext D K P F)
    (requests : List (ReadRequest D K P)) (c c' : ReadContext D K P F) : Prop where
  dirs : c'.dirs = c.dirs
  reads : ∀ x, x ∈ c'.reads.keys ↔
    x ∈ c.reads.keys ∨ ∃ q ∈ requests, x ∈ pathsOf env base c.deps q
  grown : env.Grown (requests.flatMap (observedOf env base)) c.deps c'.deps

variable {env : MapEnv D K P F E} {base c c' c'' : ReadContext D K P F}

theorem noted_nil (c : ReadContext D K P F) : Noted env base [] c c :=
  ⟨rfl, by simp, MapEnv.grown_nil c.deps⟩

theorem pathsOf_grown {xs : List (Observed D K P F)} {d d' : Deps D K P F}
    (h : env.Grown xs d d') (q : ReadRequest D K P) :
    pathsOf env base d' q = pathsOf env base d q := by
  cases q with
  | reader dir key => rfl
  | getArray dir key => rfl
  | getArrayFilter dir key p =>
    simp only [pathsOf, MapEnv.observedPath]
    rw [h.idOf]

theorem Noted.trans {xs ys : List (ReadRequest D K P)} (h : Noted env base xs c c')
    (h' : Noted env base ys c' c'') : Noted env base (xs ++ ys) c c'' := by
  refine ⟨h'.dirs.trans h.dirs, ?_, ?_⟩
  · intro x
    rw [h'.reads, h.reads]
    simp only [pathsOf_grown h.grown, mem_append, or_and_right, exists_or, or_assoc]
  · rw [flatMap_append]
    exact h.grown.trans h'.grown

theorem mem_addRead (c : ReadContext D K P F) (path x : Path D K) :
    x ∈ (c.addRead path).reads.keys ↔ x = path ∨ x ∈ c.reads.keys := by
  unfold addRead
  simp only [SortedMap.mem_keys, SortedMap.maybeGet_set]
  split_ifs with hx
  · simp [hx]
  · simp [hx]

theorem observedOf_keyed (q : ReadRequest D K P) (o : Observed D K P F)
    (ho : o ∈ observedOf env base q) : o.path.dirName = q.dirName ∧ ∃ k, o.path.baseName = .key k := by
  cases q with
  | reader dir key => cases ho
  | getArray dir key => cases ho
  | getArrayFilter dir key p =>
    rw [mem_singleton.mp ho]
    exact ⟨rfl, key, rfl⟩

theorem noted_track (env : MapEnv D K P F E) (hk : Keyed c.deps) (q : ReadRequest D K P)
    (harray : ∀ k, c.getArrayRaw q.dirName k = base.getArrayRaw q.dirName k) :
    Noted env base [q] c (c.track env q) := by
  cases q with
  | reader dir key =>
    refine ⟨rfl, ?_, MapEnv.grown_nil c.deps⟩
    intro x
    unfold track
    rw [mem_addRead, mem_addRead]
    simp only [pathsOf, exists_eq_left, mem_cons, not_mem_nil, or_false]
    tauto
  | getArray dir key =>
    refine ⟨rfl, ?_, MapEnv.grown_nil c.deps⟩
    intro x
    unfold track
    rw [mem_addRead, mem_addRead]
    simp only [pathsOf, exists_eq_left, mem_cons, not_mem_nil, or_false]
    tauto
  | getArrayFilter dir key p =>
    have hraw : c.getArrayRaw dir key = base.getArrayRaw dir key := harray key
    obtain ⟨hgrown, hpath⟩ := MapEnv.grown_addFilter env
      (⟨⟨dir, .key key⟩, p, (base.getArrayRaw dir key).map (env.project p)⟩ : Observed D K P F) hk
    refine ⟨rfl, ?_, ?_⟩
    · intro x
      simp only [track, addFilteredDep]
      rw [hraw, mem_addRead, mem_addRead]
      simp only [pathsOf, exists_eq_left, mem_cons, not_mem_nil,
        or_false]
      simp only [MapEnv.nameOf] at hpath
      rw [hpath]
      tauto
    · simp only [track, addFilteredDep]
      rw [hraw]
      exact hgrown

theorem Noted.keyed {xs : List (ReadRequest D K P)} (h : Noted env base xs c c')
    (hk : Keyed c.deps) : Keyed c'.deps := by
  apply h.grown.keyed _ hk
  intro o ho
  obtain ⟨q, _, hq⟩ := mem_flatMap.mp ho
  exact (observedOf_keyed q o hq).2

theorem noted_foldl (env : MapEnv D K P F E) (xs : List (ReadRequest D K P)) (c : ReadContext D K P F)
    (hk : Keyed c.deps)
    (harray : ∀ q ∈ xs, ∀ k, c.getArrayRaw q.dirName k = base.getArrayRaw q.dirName k) :
    Noted env base xs c (xs.foldl (track env) c) := by
  induction xs generalizing c with
  | nil => exact noted_nil c
  | cons q xs ih =>
    have hq := noted_track env hk q (harray q mem_cons_self)
    have hrest := ih (c.track env q) (hq.keyed hk) (by
      intro q' hq' k
      unfold getArrayRaw
      rw [hq.dirs]
      exact harray q' (mem_cons_of_mem q hq') k)
    exact hq.trans hrest

def SameView (child : D) (base c : ReadContext D K P F) : Prop :=
  ∀ d, d ≠ child → c.dirs.maybeGet d = base.dirs.maybeGet d

theorem SameView.answer {child : D} (h : SameView child base c) (q : ReadRequest D K P)
    (hq : q.dirName ≠ child) : c.answer env q = base.answer env q := by
  unfold ReadContext.answer
  rw [h q.dirName hq]

theorem SameView.array {child : D} (h : SameView child base c) {d : D} (hd : d ≠ child) (k : K) :
    c.getArrayRaw d k = base.getArrayRaw d k := by
  unfold getArrayRaw
  rw [h d hd]

def Apart (child : D) (q : ReadRequest D K P) : Prop := q.dirName ≠ child

theorem track_dirs (env : MapEnv D K P F E) (c : ReadContext D K P F) (q : ReadRequest D K P) :
    (c.track env q).dirs = c.dirs := by
  cases q <;> rfl

theorem interpret_request {R : Type} {child : D} (env : MapEnv D K P F E) (hk : Keyed c.deps) (hview : SameView child base c)
    {body : RowBody D K P F E R} (hbody : body.Within (Apart child)) :
    match body.follow (base.answer env) with
    | .error e => body.interpret (request env) c = .error e
    | .ok x => ∃ c', body.interpret (request env) c = .ok (x.1, c') ∧ Noted env base x.2 c c' ∧
        ∀ q ∈ x.2, Apart child q := by
  have hrun : body.interpret (request env) c =
      (body.follow (c.answer env)).map fun x => (x.1, x.2.foldl (track env) c) := by
    have hstep : ∀ s q, s.dirs = c.dirs →
        request env s q = (c.answer env q).map fun a => (a, s.track env q) := by
      intro s q hs
      unfold request answer
      rw [hs]
    have hnote : ∀ (s : ReadContext D K P F) q, s.dirs = c.dirs → (s.track env q).dirs = c.dirs := by
      intro s q hs
      rw [track_dirs, hs]
    exact Inquiry.interpret_eq_follow hstep hnote body c rfl
  rw [hrun, Inquiry.follow_congr hbody fun q hq => hview.answer q hq]
  cases hf : body.follow (base.answer env) with
  | error e => rfl
  | ok x =>
    have hasked := Inquiry.follow_asked hbody hf
    refine ⟨_, rfl, ?_, fun q hq => (hasked q hq).1⟩
    apply noted_foldl env x.2 c hk
    intro q hq k
    exact hview.array (hasked q hq).1 k

end ReadContext

namespace ParallelReader
open ReadContext

variable {env : MapEnv D K P F E} {base snapshot c c' : ReadContext D K P F}

/-- The log of a worker that made these requests, the latest filter first. -/
structure Logged (env : MapEnv D K P F E) (base : ReadContext D K P F)
    (made : List (ReadRequest D K P)) (r : ParallelReader D K P F) : Prop where
  requests : ∀ x, x ∈ r.requests.keys ↔ ∃ d k, ReadRequest.reader d k ∈ made ∧ x = ⟨d, .key k⟩
  context : ∀ x, x ∈ r.contextRequests.keys ↔
    (∃ d k, ReadRequest.getArray d k ∈ made ∧ (x = ⟨d, .dirTag⟩ ∨ x = ⟨d, .key k⟩)) ∨
      ∃ d k p, ReadRequest.getArrayFilter d k p ∈ made ∧ x = ⟨d, .dirTag⟩
  filters : r.filters.reverse.map (fun f => (⟨f.path, f.project, f.value⟩ : Observed D K P F)) =
    made.flatMap (observedOf env base)

theorem mem_set_keys {α : Type} [LinearOrder α] (s : SortedSet α) (a x : α) :
    x ∈ (s.set a ()).keys ↔ x = a ∨ x ∈ s.keys := by
  simp only [SortedMap.mem_keys, SortedMap.maybeGet_set]
  split_ifs with hx
  · simp [hx]
  · simp [hx]

theorem logged_track {requests : List (ReadRequest D K P)} {r : ParallelReader D K P F}
    (h : Logged env base requests r) (q : ReadRequest D K P)
    (harray : ∀ k, snapshot.getArrayRaw q.dirName k = base.getArrayRaw q.dirName k) :
    Logged env base (requests ++ [q]) (r.track env snapshot q) := by
  cases q with
  | reader d key =>
    refine ⟨?_, ?_, ?_⟩
    · intro x
      simp only [track, mem_set_keys, h.requests, mem_append, mem_singleton,
        ReadRequest.reader.injEq]
      constructor
      · rintro (rfl | ⟨d', k', hmem, rfl⟩)
        · exact ⟨d, key, Or.inr ⟨rfl, rfl⟩, rfl⟩
        · exact ⟨d', k', Or.inl hmem, rfl⟩
      · rintro ⟨d', k', hmem | ⟨rfl, rfl⟩, rfl⟩
        · exact Or.inr ⟨d', k', hmem, rfl⟩
        · exact Or.inl rfl
    · intro x
      simp only [track, h.context, mem_append, mem_singleton, reduceCtorEq, or_false]
    · simp only [track, h.filters, flatMap_append, flatMap_cons, flatMap_nil,
        observedOf, append_nil]
  | getArray d key =>
    refine ⟨?_, ?_, ?_⟩
    · intro x
      simp only [track, h.requests, mem_append, mem_singleton, reduceCtorEq, or_false]
    · intro x
      simp only [track, mem_set_keys, h.context, mem_append, mem_singleton,
        ReadRequest.getArray.injEq, reduceCtorEq, or_false]
      constructor
      · rintro (rfl | rfl | ⟨d', k', hmem, hx⟩ | hx)
        · exact Or.inl ⟨d, key, Or.inr ⟨rfl, rfl⟩, Or.inr rfl⟩
        · exact Or.inl ⟨d, key, Or.inr ⟨rfl, rfl⟩, Or.inl rfl⟩
        · exact Or.inl ⟨d', k', Or.inl hmem, hx⟩
        · exact Or.inr hx
      · rintro (⟨d', k', hmem | ⟨rfl, rfl⟩, hx⟩ | hx)
        · exact Or.inr (Or.inr (Or.inl ⟨d', k', hmem, hx⟩))
        · exact hx.elim (fun hx => Or.inr (Or.inl hx)) Or.inl
        · exact Or.inr (Or.inr (Or.inr hx))
    · simp only [track, h.filters, flatMap_append, flatMap_cons, flatMap_nil,
        observedOf, append_nil]
  | getArrayFilter d key p =>
    refine ⟨?_, ?_, ?_⟩
    · intro x
      simp only [track, h.requests, mem_append, mem_singleton, reduceCtorEq, or_false]
    · intro x
      simp only [track, mem_set_keys, h.context, mem_append, mem_singleton,
        ReadRequest.getArrayFilter.injEq, reduceCtorEq, or_false]
      constructor
      · rintro (rfl | hx | ⟨d', k', p', hmem, hx⟩)
        · exact Or.inr ⟨d, key, p, Or.inr ⟨rfl, rfl, rfl⟩, rfl⟩
        · exact Or.inl hx
        · exact Or.inr ⟨d', k', p', Or.inl hmem, hx⟩
      · rintro (hx | ⟨d', k', p', hmem | ⟨rfl, rfl, rfl⟩, hx⟩)
        · exact Or.inr (Or.inl hx)
        · exact Or.inr (Or.inr ⟨d', k', p', hmem, hx⟩)
        · exact Or.inl hx
    · have hraw := harray key
      simp only [ReadRequest.dirName] at hraw
      simp only [track, reverse_cons, map_append, h.filters, flatMap_append,
        flatMap_cons, flatMap_nil, observedOf, append_nil, map_cons,
        map_nil, hraw]

theorem logged_create (env : MapEnv D K P F E) (base : ReadContext D K P F) :
    Logged env base [] (create : ParallelReader D K P F) := by
  refine ⟨?_, ?_, rfl⟩
  · intro x
    simp [create, SortedMap.keys]
  · intro x
    simp [create, SortedMap.keys]

theorem logged_foldl (xs : List (ReadRequest D K P)) {done : List (ReadRequest D K P)}
    {r : ParallelReader D K P F} (h : Logged env base done r)
    (harray : ∀ q ∈ xs, ∀ k, snapshot.getArrayRaw q.dirName k = base.getArrayRaw q.dirName k) :
    Logged env base (done ++ xs) (xs.foldl (track env snapshot) r) := by
  induction xs generalizing done r with
  | nil => simpa using h
  | cons q xs ih =>
    have hq := logged_track h q (harray q mem_cons_self)
    have hrest := ih hq fun q' hq' => harray q' (mem_cons_of_mem q hq')
    simpa using hrest

end ParallelReader
end SkipPlatform
