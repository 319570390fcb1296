import SkipPlatform.StoreParallelRows

set_option autoImplicit false
set_option linter.unusedSectionVars false

/-! An update in batches beside the serial one. The hooks of a batch register their filters
before its first row is installed, so that in the meantime the two contexts differ by
filters without readers. -/
namespace SkipPlatform
open List StoreReaders StoreDeps StoreSourceMap ReadContext

variable {D K P F E : Type} [LinearOrder D] [StoreKey K] [DecidableEq P] [DecidableEq F]

theorem rel_bind {α β : Type} {r : α → α → Prop} {r' : β → β → Prop} {x y : Option α}
    (h : Option.Rel r x y) {f g : α → Option β} (hfg : ∀ a b, r a b → Option.Rel r' (f a) (g b)) :
    Option.Rel r' (x.bind f) (y.bind g) := by
  cases h with
  | none => exact Option.Rel.none
  | some hab => exact hfg _ _ hab

namespace StoreDeps.Deps

theorem removeFilter_flags (d : Deps D K P F) (path : Path D K) (hash id : ℤ) :
    (d.removeFilter path hash id).compactReaders = d.compactReaders ∧
      (d.removeFilter path hash id).blockReaders = d.blockReaders := by
  unfold removeFilter
  split
  · exact ⟨rfl, rfl⟩
  · split <;> exact ⟨rfl, rfl⟩

theorem maybeGet_removeFilter (d : Deps D K P F) (path q : Path D K) (hash id : ℤ) :
    (d.removeFilter path hash id).filters.maybeGet q =
      if q = path then (d.filters.maybeGet q).bind fun groups =>
        match groups.maybeGet hash with
        | none => some groups
        | some bucket =>
          let remaining := bucket.filter fun f => decide (f.id ≠ id)
          let groups2 :=
            if remaining.isEmpty then groups.remove hash else groups.set hash remaining
          if groups2.isEmpty then none else some groups2
      else d.filters.maybeGet q := by
  unfold removeFilter
  cases hg : d.filters.maybeGet path with
  | none =>
    split_ifs with hq
    · rw [hq, hg]
      rfl
    · rfl
  | some groups =>
    simp only
    cases hb : groups.maybeGet hash with
    | none =>
      split_ifs with hq
      · rw [hq, hg]
        simp only [Option.bind_some, hb]
      · rfl
    | some bucket =>
      simp only
      by_cases hq : q = path
      · rw [if_pos hq, hq, hg]
        simp only [Option.bind_some, hb]
        split_ifs <;> simp_all [SortedMap.maybeGet_remove, SortedMap.maybeGet_set]
      · rw [if_neg hq]
        split_ifs <;> simp [SortedMap.maybeGet_remove, SortedMap.maybeGet_set, hq]

theorem maybeGet_removeFilter_congr {d d' : Deps D K P F} {q : Path D K}
    (h : d'.filters.maybeGet q = d.filters.maybeGet q) (path : Path D K) (hash id : ℤ) :
    (d'.removeFilter path hash id).filters.maybeGet q =
      (d.removeFilter path hash id).filters.maybeGet q := by
  rw [maybeGet_removeFilter, maybeGet_removeFilter, h]

end StoreDeps.Deps

variable {d d' : Deps D K P F}

theorem ReadContext.Keyed.narrows (h : Keyed d) (hn : d.Narrows d') :
    Keyed d' := by
  refine ⟨?_, fun path hash f hf => h.hash path hash f (hn.bucket path hash f hf)⟩
  intro path filters hf
  obtain ⟨filters₀, hf₀⟩ := hn.filters path filters hf
  exact h.source path filters₀ hf₀

theorem ReadContext.Keyed.congr (h : Keyed d) (hf : d'.filters = d.filters) :
    Keyed d' := by
  refine ⟨?_, ?_⟩
  · intro path filters hp
    rw [hf] at hp
    exact h.source path filters hp
  · intro path hash f hmem
    unfold Deps.bucket at hmem
    rw [hf] at hmem
    exact h.hash path hash f hmem

theorem MapEnv.matching_congr (env : MapEnv D K P F E)
    (o : Observed D K P F)
    (hf : d'.filters = d.filters) : env.matching d' o = env.matching d o := by
  unfold MapEnv.matching Deps.bucket
  rw [hf]

theorem MapEnv.matching_removeFilter (env : MapEnv D K P F E) (d : Deps D K P F) (path : Path D K)
    (hash id : ℤ) (o : Observed D K P F) :
    env.matching (d.removeFilter path hash id) o =
      if o.path = path ∧ env.hash o.project = hash then
        (env.matching d o).filter fun i => decide (i ≠ id)
      else env.matching d o := by
  unfold MapEnv.matching
  rw [Deps.bucket_removeFilter]
  split_ifs with hc
  · rw [filter_filter, filter_map, filter_filter]
    congr 1
    apply filter_congr
    intro f _
    simp only [Function.comp]
    exact Bool.and_comm _ _
  · rfl

namespace ReadContext

theorem invalidateReader_dirs (c : ReadContext D K P F) (a : ArrowKey D K) :
    (c.invalidateReader a).dirs = c.dirs := (marks_invalidateReader c a).dirs

theorem foldl_dirs {α : Type} {step : ReadContext D K P F → α → ReadContext D K P F}
    (hstep : ∀ c x, (step c x).dirs = c.dirs) (xs : List α) (c : ReadContext D K P F) :
    (xs.foldl step c).dirs = c.dirs := by
  induction xs generalizing c with
  | nil => rfl
  | cons x xs ih => rw [foldl_cons, ih, hstep]

theorem updateDirtyReadersFuel_dirs (project : P → F → F) (fuel : ℕ) (c : ReadContext D K P F)
    (path : Path D K) (v : Option (List F)) :
    (updateDirtyReadersFuel project fuel c path v).dirs = c.dirs := by
  induction fuel generalizing c path v with
  | zero => rfl
  | succ fuel ih =>
    unfold updateDirtyReadersFuel
    simp only
    split
    · exact foldl_dirs invalidateReader_dirs _ c
    · simp only
      rw [foldl_dirs, foldl_dirs invalidateReader_dirs]
      intro c f
      split_ifs
      · exact ih c (f.path path) none
      · rfl

theorem updateDirtyTags_dirs (project : P → F → F) (c : ReadContext D K P F) (dirName : D)
    (before after : ℤ) : (c.updateDirtyTags project dirName before after).dirs = c.dirs := by
  have h : ∀ (c : ReadContext D K P F) path, (c.updateDirtyReaders project path none).dirs = c.dirs :=
    fun c path => updateDirtyReadersFuel_dirs project _ c path none
  unfold updateDirtyTags
  simp only
  split_ifs <;> simp only [h]

theorem writeEntry_dirs {project : P → F → F} {c c' : ReadContext D K P F} {ctx : WriteContext D K}
    {dirName : D} {origSource writer : Source D K} {k : K} {rvalues : List F}
    (h : c.writeEntry project ctx dirName origSource writer k rvalues = some c') :
    ∃ dir, c.dirs.maybeGet dirName = some (.eager dir) ∧ (c' = c ∨
      c'.dirs = c.dirs.set dirName (.eager (dir.writeEntry ctx origSource writer k rvalues))) := by
  unfold ReadContext.writeEntry at h
  cases hfound : c.dirs.maybeGet dirName with
  | none =>
    rw [hfound] at h
    cases h
  | some found =>
    rw [hfound] at h
    cases found with
    | lazy => cases h
    | deleted => cases h
    | eager dir =>
      refine ⟨dir, rfl, ?_⟩
      simp only at h
      by_cases heq : rvalues = dir.getArraySourceKey origSource k
      · rw [if_pos heq] at h
        exact Or.inl (Option.some.inj h).symm
      · right
        rw [if_neg heq] at h
        rw [← Option.some.inj h]
        simp only
        unfold updateDirtyReaders
        rw [updateDirtyReadersFuel_dirs, updateDirtyTags_dirs]

end ReadContext

def MapEnv.Drawn (env : MapEnv D K P F E) (path : Path D K) : Prop :=
  ∃ o : Observed D K P F, path = filteredPath o.path (env.hash o.project) (env.nameOf o)

/-- The dependencies of the serial path (`s`) and of the parallel one (`p`), when `pending`
is what the hooks of the rows still to be installed observed at `start`. The filters of the
serial path are of `origin` or were registered with a drawn number. -/
structure Linked (env : MapEnv D K P F E) (child : D) (origin start : Deps D K P F)
    (pending : List (Observed D K P F)) (s p : Deps D K P F) : Prop where
  data : p.data = s.data
  idata : p.idata = s.idata
  compactReaders : p.compactReaders = s.compactReaders
  blockReaders : p.blockReaders = s.blockReaders
  filters : ∀ q : Path D K, q.dirName = child → p.filters.maybeGet q = s.filters.maybeGet q
  matching : ∀ o : Observed D K P F, o.path.dirName ≠ child →
    env.matching p o = env.matching s o ∨
      env.matching s o = [] ∧ env.matching p o = [env.nameOf o] ∧ o ∈ pending
  owned : ∀ o : Observed D K P F, o.path.dirName ≠ child → ∀ i ∈ env.matching s o,
    i ∈ env.matching origin o ∨ i = env.nameOf o
  apart : ∀ o ∈ pending, o.path.dirName ≠ child
  held : ∀ o ∈ pending, env.nameOf o ∈ env.matching p o ∨ env.idOf start o ≠ env.nameOf o
  keyed : Keyed s
  keyed' : Keyed p

namespace Linked

variable {env : MapEnv D K P F E} {child : D} {origin start s s' p p' : Deps D K P F}
  {pending : List (Observed D K P F)}

theorem idOf (h : Linked env child origin start pending s p) {o : Observed D K P F}
    (ho : o.path.dirName ≠ child) : env.idOf p o = env.idOf s o := by
  unfold MapEnv.idOf
  rcases h.matching o ho with heq | ⟨hs, hp, _⟩
  · rw [heq]
  · rw [hs, hp]
    rfl

theorem congr (h : Linked env child origin start pending s p) (hs : s'.filters = s.filters)
    (hp : p'.filters = p.filters) (hdata : p'.data = s'.data) (hidata : p'.idata = s'.idata)
    (hcompact : p'.compactReaders = s'.compactReaders)
    (hblock : p'.blockReaders = s'.blockReaders) : Linked env child origin start pending s' p' := by
  have hms := fun o => MapEnv.matching_congr env o hs
  have hmp := fun o => MapEnv.matching_congr env o hp
  refine ⟨hdata, hidata, hcompact, hblock, ?_, ?_, ?_, h.apart, ?_, h.keyed.congr hs,
    h.keyed'.congr hp⟩
  · intro q hq
    rw [hs, hp]
    exact h.filters q hq
  · intro o ho
    rw [hms, hmp]
    exact h.matching o ho
  · intro o ho
    rw [hms]
    exact h.owned o ho
  · intro o ho
    rw [hmp]
    exact h.held o ho

theorem set (h : Linked env child origin start pending s p) (path : Path D K) (a : ArrowKey D K) :
    Option.Rel (Linked env child origin start pending) (s.set path a) (p.set path a) := by
  unfold Deps.set
  rw [h.data, h.compactReaders, h.blockReaders]
  simp only
  cases ((s.data.maybeGet path).getD (.empty s.compactReaders s.blockReaders)).set a
      s.blockReaders with
  | none => exact Option.Rel.none
  | some r =>
    apply Option.Rel.some
    unfold Deps.iset
    simp only
    rw [h.idata]
    exact h.congr rfl rfl rfl rfl rfl rfl

theorem removeFilter (h : Linked env child origin start pending s p) (path : Path D K) (hash id : ℤ)
    (hdrawn : ∀ o : Observed D K P F, o.path = path → env.hash o.project = hash →
      env.nameOf o ≠ id) :
    Linked env child origin start pending (s.removeFilter path hash id) (p.removeFilter path hash id) := by
  have hms := MapEnv.matching_removeFilter env s path hash id
  have hmp := MapEnv.matching_removeFilter env p path hash id
  have hds := Deps.removeFilter_data s path hash id
  have hdp := Deps.removeFilter_data p path hash id
  have hfs := Deps.removeFilter_flags s path hash id
  have hfp := Deps.removeFilter_flags p path hash id
  refine ⟨?_, ?_, ?_, ?_, ?_, ?_, ?_, h.apart, ?_,
    h.keyed.narrows (Deps.narrows_removeFilter s path hash id),
    h.keyed'.narrows (Deps.narrows_removeFilter p path hash id)⟩
  · rw [hds.1, hdp.1, h.data]
  · rw [hds.2, hdp.2, h.idata]
  · rw [hfs.1, hfp.1, h.compactReaders]
  · rw [hfs.2, hfp.2, h.blockReaders]
  · intro q hq
    exact Deps.maybeGet_removeFilter_congr (h.filters q hq) path hash id
  · intro o ho
    rw [hms, hmp]
    rcases h.matching o ho with heq | ⟨hs, hp, hmem⟩
    · left
      rw [heq]
    · right
      rw [hs, hp]
      refine ⟨?_, ?_, hmem⟩
      · split_ifs <;> rfl
      · split_ifs with hc
        · have hne := hdrawn o hc.1 hc.2
          simp [hne]
        · rfl
  · intro o ho i hi
    rw [hms] at hi
    apply h.owned o ho i
    split_ifs at hi
    · exact mem_of_mem_filter hi
    · exact hi
  · intro o ho
    rcases h.held o ho with hname | hne
    · left
      rw [hmp]
      split_ifs with hc
      · exact mem_filter.mpr ⟨hname, by simpa using hdrawn o hc.1 hc.2⟩
      · exact hname
    · exact Or.inr hne

theorem forgetPath (h : Linked env child origin start pending s p) {path : Path D K}
    (hdrawn : ¬env.Drawn path) :
    Linked env child origin start pending (s.forgetPath path) (p.forgetPath path) := by
  have hdata : Linked env child origin start pending { s with data := s.data.remove path }
      { p with data := p.data.remove path } := by
    refine h.congr rfl rfl ?_ h.idata h.compactReaders h.blockReaders
    simp only
    rw [h.data]
  unfold Deps.forgetPath
  cases hb : path.baseName with
  | filteredReadKey source hash id =>
    apply hdata.removeFilter
    intro o ho hhash hname
    apply hdrawn
    refine ⟨o, ?_⟩
    cases path
    simp only at hb
    subst hb
    rw [ho, hhash, hname]
    rfl
  | key k => exact hdata
  | dirTag => exact hdata
  | sizeTag => exact hdata
  | isEmptyTag => exact hdata
  | filesTag => exact hdata

theorem iremove (h : Linked env child origin start pending s p) (dirName : D) (path : Path D K) :
    Linked env child origin start pending (s.iremove dirName path) (p.iremove dirName path) := by
  unfold Deps.iremove
  simp only
  rw [h.idata]
  split_ifs
  · exact h.congr rfl rfl h.data rfl h.compactReaders h.blockReaders
  · exact h.congr rfl rfl h.data rfl h.compactReaders h.blockReaders

theorem remove (h : Linked env child origin start pending s p) {path : Path D K}
    (hdrawn : ¬env.Drawn path) (a : ArrowKey D K) :
    Linked env child origin start pending (s.remove path a) (p.remove path a) := by
  unfold Deps.remove Deps.removeInternal
  simp only
  have hset : ((p.data.maybeGet path).getD (.empty p.compactReaders p.blockReaders)).remove a
      p.compactReaders = ((s.data.maybeGet path).getD
        (.empty s.compactReaders s.blockReaders)).remove a s.compactReaders := by
    rw [h.data, h.compactReaders, h.blockReaders]
  rw [hset]
  generalize ((s.data.maybeGet path).getD (.empty s.compactReaders s.blockReaders)).remove a
    s.compactReaders = r
  have hdata : Linked env child origin start pending
      (if r.isEmpty then s.forgetPath path else { s with data := s.data.set path r })
      (if r.isEmpty then p.forgetPath path else { p with data := p.data.set path r }) := by
    by_cases hr : r.isEmpty = true
    · rw [if_pos hr, if_pos hr]
      exact h.forgetPath hdrawn
    · rw [if_neg hr, if_neg hr]
      refine h.congr rfl rfl ?_ h.idata h.compactReaders h.blockReaders
      simp only
      rw [h.data]
  by_cases hlast : (!false && !r.hasSibling a && !r.hasChild a.childName) = true
  · rw [if_pos hlast, if_pos hlast]
    exact hdata.iremove a.childName path
  · rw [if_neg hlast, if_neg hlast]
    exact hdata

theorem removeDeps (reader : ArrowKey D K) (reads : List (Path D K))
    (h : Linked env child origin start pending s p) (hdrawn : ∀ x ∈ reads, ¬env.Drawn x) :
    Linked env child origin start pending (s.removeDeps reader reads) (p.removeDeps reader reads) := by
  unfold Deps.removeDeps
  induction reads generalizing s p with
  | nil => exact h
  | cons x xs ih =>
    exact ih (h.remove (hdrawn x mem_cons_self) reader)
      fun y hy => hdrawn y (mem_cons_of_mem x hy)

theorem updateNewDeps (reader : ArrowKey D K) (reads : List (Path D K))
    (h : Linked env child origin start pending s p) :
    Option.Rel (Linked env child origin start pending) (s.updateNewDeps reader reads)
      (p.updateNewDeps reader reads) := by
  unfold Deps.updateNewDeps
  induction reads generalizing s p with
  | nil => exact Option.Rel.some h
  | cons x xs ih =>
    rw [foldlM_cons, foldlM_cons]
    exact rel_bind (h.set x reader) fun _ _ hset => ih hset

theorem mergeDeps (reader : ArrowKey D K) (oldReads newReads : List (Path D K))
    (h : Linked env child origin start pending s p) (hdrawn : ∀ x ∈ oldReads, ¬env.Drawn x) :
    Option.Rel (Linked env child origin start pending) (Deps.mergeDeps reader s oldReads newReads)
      (Deps.mergeDeps reader p oldReads newReads) := by
  induction s, oldReads, newReads using Deps.mergeDeps.induct reader generalizing p with
  | case1 s oldReads =>
    rw [Deps.mergeDeps, Deps.mergeDeps]
    exact Option.Rel.some (h.removeDeps reader oldReads hdrawn)
  | case2 s path newReads ih =>
    rw [Deps.mergeDeps, Deps.mergeDeps]
    exact rel_bind (h.set path reader) fun _ _ hset => ih _ hset hdrawn
  | case3 s old oldReads path newReads hlt ih =>
    rw [Deps.mergeDeps, Deps.mergeDeps, if_pos hlt, if_pos hlt]
    exact ih (h.remove (hdrawn old mem_cons_self) reader)
      fun x hx => hdrawn x (mem_cons_of_mem old hx)
  | case4 s oldReads path newReads hlt ih =>
    rw [Deps.mergeDeps, Deps.mergeDeps, if_neg hlt, if_neg hlt, if_pos rfl, if_pos rfl]
    exact ih h fun x hx => hdrawn x (mem_cons_of_mem path hx)
  | case5 s old oldReads path newReads hlt hne ih =>
    rw [Deps.mergeDeps, Deps.mergeDeps, if_neg hlt, if_neg hlt, if_neg hne, if_neg hne]
    exact rel_bind (h.set path reader) fun _ _ hset => ih _ hset hdrawn

theorem replaceDeps (h : Linked env child origin start pending s p) (incremental : Bool)
    (reader : ArrowKey D K) {oldReads : List (Path D K)} (hdrawn : ∀ x ∈ oldReads, ¬env.Drawn x)
    {reads reads' : SortedSet (Path D K)} (hreads : reads'.keys = reads.keys) :
    Option.Rel (Linked env child origin start pending) (s.replaceDeps incremental reader oldReads reads)
      (p.replaceDeps incremental reader oldReads reads') := by
  have hcontains : ∀ x, reads'.containsKey x = reads.containsKey x := by
    intro x
    rw [Bool.eq_iff_iff, SortedMap.containsKey_iff, SortedMap.containsKey_iff, hreads]
  unfold Deps.replaceDeps
  rw [hreads]
  simp only [hcontains]
  by_cases hinc : incremental = true
  · rw [if_pos hinc, if_pos hinc]
    exact h.mergeDeps reader oldReads reads.keys hdrawn
  · rw [if_neg hinc, if_neg hinc]
    rw [Option.map_eq_bind, Option.map_eq_bind]
    apply rel_bind (h.updateNewDeps reader reads.keys)
    intro _ _ hnew
    apply Option.Rel.some
    apply hnew.removeDeps
    intro x hx
    exact hdrawn x (mem_of_mem_filter hx)

/-- The serial row registers what it observed, the parallel one only what its worker did:
the hooks registered theirs before, and still the same filters as long as `hkept`. -/
theorem grown {hooks rest xs ys : List (Observed D K P F)}
    (h : Linked env child origin start (hooks ++ rest) s p) (hx : env.Grown xs s s')
    (hy : env.Grown ys p p') (hmem : ∀ o, o ∈ xs ↔ o ∈ hooks ∨ o ∈ ys)
    (hapart : ∀ o ∈ xs, o.path.dirName ≠ child ∧ ∃ k, o.path.baseName = .key k)
    (hkept : ∀ o ∈ hooks, env.idOf s o = env.idOf start o) : Linked env child origin start rest s' p' := by
  have hapart' : ∀ o ∈ ys, o.path.dirName ≠ child ∧ ∃ k, o.path.baseName = .key k :=
    fun o ho => hapart o ((hmem o).mpr (Or.inr ho))
  refine ⟨?_, ?_, ?_, ?_, ?_, ?_, ?_, fun o ho => h.apart o (mem_append_right hooks ho), ?_,
    hx.keyed (fun o ho => (hapart o ho).2) h.keyed,
    hy.keyed (fun o ho => (hapart' o ho).2) h.keyed'⟩
  · rw [hx.data, hy.data, h.data]
  · rw [hx.idata, hy.idata, h.idata]
  · rw [hx.compactReaders, hy.compactReaders, h.compactReaders]
  · rw [hx.blockReaders, hy.blockReaders, h.blockReaders]
  · intro q hq
    rw [hx.filters q, hy.filters q, h.filters q hq]
    · intro o ho heq
      exact (hapart' o ho).1 (heq ▸ hq)
    · intro o ho heq
      exact (hapart o ho).1 (heq ▸ hq)
  · intro o ho
    rcases h.matching o ho with heq | ⟨hs, hp, hpend⟩
    · left
      rcases hx.matching o with ⟨hox, hnil, hnew⟩ | ⟨hox, hsame⟩
      · rcases hy.matching o with ⟨_, _, hnew'⟩ | ⟨hoy, hsame'⟩
        · rw [hnew, hnew']
        · rcases (hmem o).mp hox with hhook | hoy'
          · have hid : env.idOf start o = env.nameOf o := by
              rw [← hkept o hhook]
              unfold MapEnv.idOf
              rw [hnil]
              rfl
            rcases h.held o (mem_append_left rest hhook) with hname | hne
            · rw [heq, hnil] at hname
              cases hname
            · exact absurd hid hne
          · exact absurd (heq.trans hnil) (hoy hoy')
      · rcases hy.matching o with ⟨hoy, hnil', _⟩ | ⟨_, hsame'⟩
        · exact absurd (heq ▸ hnil') (hox ((hmem o).mpr (Or.inr hoy)))
        · rw [hsame, hsame', heq]
    · have hp' : env.matching p' o = [env.nameOf o] := by
        rcases hy.matching o with ⟨_, hnil', _⟩ | ⟨_, hsame'⟩
        · rw [hp] at hnil'
          cases hnil'
        · rw [hsame', hp]
      rcases hx.matching o with ⟨_, _, hnew⟩ | ⟨hox, hsame⟩
      · left
        rw [hp', hnew]
      · right
        refine ⟨hsame.trans hs, hp', ?_⟩
        rcases mem_append.mp hpend with hhook | hrest
        · exact absurd hs (hox ((hmem o).mpr (Or.inl hhook)))
        · exact hrest
  · intro o ho i hi
    rcases hx.matching o with ⟨_, _, hnew⟩ | ⟨_, hsame⟩
    · rw [hnew] at hi
      exact Or.inr (mem_singleton.mp hi)
    · rw [hsame] at hi
      exact h.owned o ho i hi
  · intro o ho
    rcases h.held o (mem_append_right hooks ho) with hname | hne
    · left
      rcases hy.matching o with ⟨_, hnil', _⟩ | ⟨_, hsame'⟩
      · rw [hnil'] at hname
        cases hname
      · rw [hsame']
        exact hname
    · exact Or.inr hne

theorem hooked {xs : List (Observed D K P F)} (h : Linked env child origin start [] s p)
    (hgrown : env.Grown xs p p') (hmem : ∀ o, o ∈ xs ↔ o ∈ pending)
    (hapart : ∀ o ∈ xs, o.path.dirName ≠ child ∧ ∃ k, o.path.baseName = .key k) :
    Linked env child origin s pending s p' := by
  have hsame : ∀ o : Observed D K P F, o.path.dirName ≠ child →
      env.matching p o = env.matching s o := by
    intro o ho
    rcases h.matching o ho with heq | ⟨_, _, hnil⟩
    · exact heq
    · cases hnil
  refine ⟨hgrown.data.trans h.data, hgrown.idata.trans h.idata,
    hgrown.compactReaders.trans h.compactReaders, hgrown.blockReaders.trans h.blockReaders, ?_, ?_,
    h.owned, fun o ho => (hapart o ((hmem o).mpr ho)).1, ?_, h.keyed,
    hgrown.keyed (fun o ho => (hapart o ho).2) h.keyed'⟩
  · intro q hq
    rw [hgrown.filters q, h.filters q hq]
    intro o ho heq
    exact (hapart o ho).1 (heq ▸ hq)
  · intro o ho
    rcases hgrown.matching o with ⟨hox, hnil, hnew⟩ | ⟨_, hkeep⟩
    · right
      exact ⟨(hsame o ho).symm.trans hnil, hnew, (hmem o).mp hox⟩
    · left
      rw [hkeep, hsame o ho]
  · intro o ho
    have hox := (hmem o).mpr ho
    rcases hgrown.matching o with ⟨_, _, hnew⟩ | ⟨hne, hkeep⟩
    · left
      rw [hnew]
      exact mem_singleton_self _
    · have hs := hsame o (hapart o hox).1
      by_cases hid : env.idOf s o = env.nameOf o
      · left
        rw [hkeep, ← hid]
        unfold MapEnv.idOf
        rw [← hs]
        cases hl : env.matching p o with
        | nil => exact absurd hl (hne hox)
        | cons i is => exact mem_cons_self
      · exact Or.inr hid

theorem restart (h : Linked env child origin start [] s p) (start' : Deps D K P F) :
    Linked env child origin start' [] s p :=
  ⟨h.data, h.idata, h.compactReaders, h.blockReaders, h.filters, h.matching, h.owned,
    h.apart, fun _ ho => absurd ho not_mem_nil, h.keyed, h.keyed'⟩

theorem refl (hk : Keyed s) (howned : ∀ o : Observed D K P F, o.path.dirName ≠ child →
      ∀ i ∈ env.matching s o, i ∈ env.matching origin o ∨ i = env.nameOf o) :
    Linked env child origin start [] s s :=
  ⟨rfl, rfl, rfl, rfl, fun _ _ => rfl, fun _ _ => Or.inl rfl, howned,
    fun _ ho => absurd ho not_mem_nil, fun _ ho => absurd ho not_mem_nil, hk, hk⟩

theorem refreshFilters (h : Linked env child origin start pending s p) (project : P → F → F) {path : Path D K}
    (hpath : path.dirName = child) (v : Option (List F)) :
    Linked env child origin start pending (ReadContext.refreshFilters project s path v)
      (ReadContext.refreshFilters project p path v) := by
  have hkeep : ∀ (d : Deps D K P F) (o : Observed D K P F), o.path.dirName ≠ child →
      env.matching (ReadContext.refreshFilters project d path v) o = env.matching d o := by
    intro d o ho
    unfold MapEnv.matching
    rw [bucket_refreshFilters, if_neg]
    intro heq
    exact ho (heq ▸ hpath)
  have hfields : ∀ d : Deps D K P F,
      (ReadContext.refreshFilters project d path v).data = d.data ∧
      (ReadContext.refreshFilters project d path v).idata = d.idata ∧
      (ReadContext.refreshFilters project d path v).compactReaders = d.compactReaders ∧
      (ReadContext.refreshFilters project d path v).blockReaders = d.blockReaders := by
    intro d
    unfold ReadContext.refreshFilters
    split <;> exact ⟨rfl, rfl, rfl, rfl⟩
  obtain ⟨hs₁, hs₂, hs₃, hs₄⟩ := hfields s
  obtain ⟨hp₁, hp₂, hp₃, hp₄⟩ := hfields p
  refine ⟨?_, ?_, ?_, ?_, ?_, ?_, ?_, h.apart, ?_, keyed_refreshFilters project h.keyed path v,
    keyed_refreshFilters project h.keyed' path v⟩
  · rw [hs₁, hp₁, h.data]
  · rw [hs₂, hp₂, h.idata]
  · rw [hs₃, hp₃, h.compactReaders]
  · rw [hs₄, hp₄, h.blockReaders]
  · intro q hq
    unfold ReadContext.refreshFilters
    rw [h.filters path hpath]
    cases s.filters.maybeGet path with
    | none => exact h.filters q hq
    | some groups =>
      simp only [Deps.setFilters, SortedMap.maybeGet_set]
      rw [h.filters q hq]
  · intro o ho
    rw [hkeep s o ho, hkeep p o ho]
    exact h.matching o ho
  · intro o ho
    rw [hkeep s o ho]
    exact h.owned o ho
  · intro o ho
    rw [hkeep p o (h.apart o ho)]
    exact h.held o ho

end Linked

/-- The contexts of the two paths. But for the child they are as they were when the update
began, in `base`. -/
structure Beside (env : MapEnv D K P F E) (child : D) (base : ReadContext D K P F)
    (start : Deps D K P F) (pending : List (Observed D K P F)) (s p : ReadContext D K P F) :
    Prop where
  dirs : p.dirs = s.dirs
  view : SameView child base s
  deps : Linked env child base.deps start pending s.deps p.deps

namespace Beside

variable {env : MapEnv D K P F E} {child : D} {base s p s' p' : ReadContext D K P F}
  {start : Deps D K P F} {pending : List (Observed D K P F)}

theorem view' (h : Beside env child base start pending s p) : SameView child base p := by
  intro d hd
  rw [h.dirs]
  exact h.view d hd

theorem setChild (h : Beside env child base start pending s p) (dir : Dir D K F)
    (hs : s'.dirs = s.dirs.set child dir) (hp : p'.dirs = p.dirs.set child dir)
    (hdeps : Linked env child base.deps start pending s'.deps p'.deps) :
    Beside env child base start pending s' p' := by
  refine ⟨?_, ?_, hdeps⟩
  · rw [hs, hp, h.dirs]
  · intro d hd
    rw [hs, SortedMap.maybeGet_set, if_neg hd]
    exact h.view d hd

theorem writeEntry (h : Beside env child base start pending s p) (project : P → F → F)
    (ctx : WriteContext D K) (origSource writer : Source D K) (k : K) (rvalues : List F) :
    Option.Rel (Beside env child base start pending)
      (s.writeEntry project ctx child origSource writer k rvalues)
      (p.writeEntry project ctx child origSource writer k rvalues) := by
  have hsource : p.getArraySourceKey child origSource k = s.getArraySourceKey child origSource k := by
    unfold ReadContext.getArraySourceKey
    rw [h.dirs]
  cases hs : s.writeEntry project ctx child origSource writer k rvalues with
  | none =>
    have hp : p.writeEntry project ctx child origSource writer k rvalues = none := by
      unfold ReadContext.writeEntry at hs ⊢
      rw [h.dirs]
      cases hdir : s.dirs.maybeGet child with
      | none => rfl
      | some dir =>
        rw [hdir] at hs
        cases dir with
        | lazy => rfl
        | deleted => rfl
        | eager dir =>
          simp only at hs
          split_ifs at hs
    rw [hp]
    exact Option.Rel.none
  | some s' =>
    cases hp : p.writeEntry project ctx child origSource writer k rvalues with
    | none =>
      unfold ReadContext.writeEntry at hs hp
      rw [h.dirs] at hp
      cases hdir : s.dirs.maybeGet child with
      | none =>
        rw [hdir] at hs
        cases hs
      | some dir =>
        rw [hdir] at hs hp
        cases dir with
        | lazy => cases hs
        | deleted => cases hs
        | eager dir =>
          simp only at hp
          split_ifs at hp
    | some p' =>
      apply Option.Rel.some
      by_cases hne : rvalues = s.getArraySourceKey child origSource k
      · rw [writeEntry_unchanged project hs hne,
          writeEntry_unchanged project hp (hne.trans hsource.symm)]
        exact h
      · obtain ⟨dir, hws⟩ := written_writeEntry project h.deps.keyed hs hne
        obtain ⟨dir', hwp⟩ := written_writeEntry project h.deps.keyed' hp (hsource ▸ hne)
        have hsame : dir' = dir := by
          have hfound := hwp.found
          rw [h.dirs, hws.found] at hfound
          cases hfound
          rfl
        subst hsame
        have harray : p'.getArrayRaw child k = s'.getArrayRaw child k := by
          unfold ReadContext.getArrayRaw
          rw [hws.dirs, hwp.dirs, h.dirs]
        apply h.setChild _ hws.dirs hwp.dirs
        rw [hws.deps, hwp.deps, harray]
        exact h.deps.refreshFilters project rfl _

end Beside

namespace MapEdge

variable {env : MapEnv D K P F E} {e : MapEdge D K F} {base s p : ReadContext D K P F}
  {start : Deps D K P F} {pending : List (Observed D K P F)}

variable {α : Type}

theorem bothOk_orBroken {r : α → α → Prop} {x y : Option α} (h : Option.Rel r x y) :
    BothOk r (orBroken env x) (orBroken env y) := by
  cases h with
  | none => trivial
  | some hab => exact hab

variable {writes writes' : SortedMap K (List F)}

theorem rowWrites_congr (h : writes'.items = writes.items)
    (oldKeys : List K) : rowWrites oldKeys writes' = rowWrites oldKeys writes := by
  have hcontains : ∀ k, writes'.containsKey k = writes.containsKey k := by
    intro k
    rw [Bool.eq_iff_iff, SortedMap.containsKey_iff, SortedMap.containsKey_iff, SortedMap.keys,
      SortedMap.keys, h]
  unfold rowWrites
  rw [h]
  simp only [hcontains]

theorem rowInfo_congr {reads reads' : SortedSet (Path D K)}
    (hwrites : writes'.items = writes.items) (hreads : reads'.keys = reads.keys) :
    rowInfo writes' reads' = rowInfo writes reads := by
  have hkeys : writes'.keys = writes.keys := by
    unfold SortedMap.keys
    rw [hwrites]
  unfold rowInfo
  rw [hreads, hkeys]

theorem foldlM_beside {step : ReadContext D K P F → α → Option (ReadContext D K P F)}
    (hstep : ∀ s p x, Beside env e.childName base start pending s p →
      Option.Rel (Beside env e.childName base start pending) (step s x) (step p x)) (xs : List α)
    (h : Beside env e.childName base start pending s p) :
    BothOk (Beside env e.childName base start pending)
      (xs.foldlM (fun c x => orBroken env (step c x)) s)
      (xs.foldlM (fun c x => orBroken env (step c x)) p) := by
  induction xs generalizing s p with
  | nil => exact h
  | cons x xs ih =>
    rw [foldlM_cons, foldlM_cons]
    exact (bothOk_orBroken (hstep s p x h)).bind fun _ _ hab => ih hab

theorem writeRow_beside (h : Beside env e.childName base start pending s p) (key : K)
    (oldKeys : List K)
    (hwrites : writes'.items = writes.items) :
    BothOk (Beside env e.childName base start pending) (e.writeRow env s key oldKeys writes)
      (e.writeRow env p key oldKeys writes') := by
  unfold writeRow
  rw [rowWrites_congr hwrites]
  apply foldlM_beside _ _ h
  intro s p w hsp
  exact hsp.writeEntry env.project _ _ _ _ _

theorem setOld_beside (h : Beside env e.childName base start pending s p) (key : K)
    (info : MInfo D K) :
    Option.Rel (Beside env e.childName base start pending) (e.setOld s key info)
      (e.setOld p key info) := by
  unfold setOld
  rw [h.dirs]
  cases hdir : s.dirs.maybeGet e.childName with
  | none => exact Option.Rel.none
  | some dir =>
    cases dir with
    | lazy => exact Option.Rel.none
    | deleted => exact Option.Rel.none
    | eager child =>
      apply Option.Rel.some
      refine h.setChild _ rfl ?_ h.deps
      simp only
      rw [h.dirs]

def MappedAlike (env : MapEnv D K P F E) (child : D) (base : ReadContext D K P F)
    (start : Deps D K P F) (pending : List (Observed D K P F))
    (x y : SortedMap K (List F) × ReadContext D K P F) : Prop :=
  y.1.items = x.1.items ∧ y.2.reads.keys = x.2.reads.keys ∧
    Beside env child base start pending x.2 y.2

variable {key : K}

theorem updateRow_beside {map map' : RowMap D K P F E}
    (hdirs : p.dirs = s.dirs)
    (hmap : BothOk (MappedAlike env e.childName base start pending)
      (map { s with reads := .empty } key (e.values key))
      (map' { p with reads := .empty } key (e.values key)))
    (hdrawn : ∀ info, e.getOld s key = some info → ∀ x ∈ info.getReads, ¬env.Drawn x) :
    BothOk (Beside env e.childName base start pending) (e.updateRow env map s key)
      (e.updateRow env map' p key) := by
  have hold : e.getOld p key = e.getOld s key := by
    unfold getOld
    rw [hdirs]
  unfold updateRow
  rw [hold]
  cases hinfo : e.getOld s key with
  | none => trivial
  | some info =>
    simp only [orBroken, Except.bind]
    apply hmap.bind
    intro x y hxy
    have hreplace := hxy.2.2.deps.replaceDeps e.incremental (e.arrow key) (hdrawn info hinfo)
      hxy.2.1
    apply (bothOk_orBroken hreplace).bind
    intro d d' hd
    have hbeside : Beside env e.childName base start pending
        { x.2 with deps := d, reads := s.reads } { y.2 with deps := d', reads := p.reads } :=
      ⟨hxy.2.2.dirs, hxy.2.2.view, hd⟩
    apply (writeRow_beside hbeside key info.getKeys hxy.1).bind
    intro c c' hc
    rw [rowInfo_congr hxy.1 hxy.2.1]
    exact bothOk_orBroken (setOld_beside hc key (rowInfo x.1 x.2.reads))

/-- The reads and filters of a row whose requests are those of `hooks`, registered at
`start`, and of `worker`, registered now. -/
theorem mappedAlike {child : D} (hooks worker : List (ReadRequest D K P))
    {requests : List (ReadRequest D K P)}
    {rest : List (Observed D K P F)} {x y : SortedMap K (List F) × ReadContext D K P F}
    (h : Beside env child base start (hooks.flatMap (observedOf env base) ++ rest) s p)
    (hsame : SameRequests (hooks ++ worker) requests)
    (hapart : ∀ q ∈ requests, Apart child q)
    (hkept : ∀ o ∈ hooks.flatMap (observedOf env base), env.idOf s.deps o = env.idOf start o)
    (hx : Noted env base requests { s with reads := .empty } x.2)
    (hwrites : y.1.items = x.1.items) (hydirs : y.2.dirs = p.dirs)
    (hygrown : env.Grown (worker.flatMap (observedOf env base)) p.deps y.2.deps)
    (hyreads : ∀ z, z ∈ y.2.reads.keys ↔ (∃ q ∈ hooks, z ∈ pathsOf env base start q) ∨
      ∃ q ∈ worker, z ∈ pathsOf env base p.deps q) :
    MappedAlike env child base start rest x y := by
  have hobserved : ∀ o, o ∈ requests.flatMap (observedOf env base) ↔
      o ∈ hooks.flatMap (observedOf env base) ∨ o ∈ worker.flatMap (observedOf env base) := by
    intro o
    rw [← sameRequests_observed hsame env base o, flatMap_append, mem_append]
  have hkeyed : ∀ o ∈ requests.flatMap (observedOf env base),
      o.path.dirName ≠ child ∧ ∃ k, o.path.baseName = .key k := by
    intro o ho
    obtain ⟨q, hq, hoq⟩ := mem_flatMap.mp ho
    obtain ⟨hdir, hkey⟩ := observedOf_keyed q o hoq
    exact ⟨hdir ▸ hapart q hq, hkey⟩
  refine ⟨hwrites, ?_, ?_⟩
  · refine SortedMerge.eq_of_mem_iff id y.2.reads.keys_sorted x.2.reads.keys_sorted ?_
    intro z
    have hempty : z ∉ (SortedMap.empty : SortedSet (Path D K)).keys := by
      intro hz
      cases hz
    rw [hx.reads, hyreads]
    simp only [hempty, false_or]
    rw [← sameRequests_paths hsame env base s.deps z]
    simp only [mem_append, or_and_right, exists_or]
    refine or_congr (exists_congr fun q => and_congr_right fun hq => ?_)
      (exists_congr fun q => and_congr_right fun hq => ?_)
    · rw [pathsOf_congr fun o ho => (hkept o (mem_flatMap.mpr ⟨q, hq, ho⟩)).symm]
    · rw [pathsOf_congr fun o ho => h.deps.idOf
        (hkeyed o ((hobserved o).mpr (Or.inr (mem_flatMap.mpr ⟨q, hq, ho⟩)))).1]
  · refine ⟨?_, ?_, h.deps.grown hx.grown hygrown hobserved hkeyed hkept⟩
    · rw [hydirs, hx.dirs, h.dirs]
    · intro d hd
      rw [hx.dirs]
      exact h.view d hd

variable {m : ParallelMapper D K P F E} {f g : K → List F → RowBody D K P F E (SortedMap K (List F))}

theorem runLambda_alike (h : Beside env e.childName base start pending s p)
    {values : List F} (hf : (f key values).Within (Apart e.childName))
    (hg : (g key values).Within (Apart e.childName))
    (hsame : SameRun ((g key values).follow (base.answer env))
      ((f key values).follow (base.answer env))) :
    BothOk (MappedAlike env e.childName base start pending)
      (runLambda env f { s with reads := .empty } key values)
      (runLambda env g { p with reads := .empty } key values) := by
  have hs := interpret_request env (c := { s with reads := .empty }) h.deps.keyed h.view hf
  have hp := interpret_request env (c := { p with reads := .empty }) h.deps.keyed' h.view' hg
  unfold runLambda
  cases hff : (f key values).follow (base.answer env) with
  | error ex =>
    rw [hff] at hs hsame
    rw [hs]
    cases hgf : (g key values).follow (base.answer env) with
    | error ex' =>
      rw [hgf] at hp
      rw [hp]
      trivial
    | ok y =>
      rw [hgf] at hsame
      exact hsame.elim
  | ok x =>
    rw [hff] at hs hsame
    cases hgf : (g key values).follow (base.answer env) with
    | error ex' =>
      rw [hgf] at hsame
      exact hsame.elim
    | ok y =>
      rw [hgf] at hp hsame
      obtain ⟨s', hs', hnoted, hapart⟩ := hs
      obtain ⟨p', hp', hnoted', _⟩ := hp
      rw [hs', hp']
      refine mappedAlike [] y.2 h hsame.2 hapart ?_ hnoted hsame.1
        hnoted'.dirs hnoted'.grown ?_
      · intro o ho
        cases ho
      · intro z
        have hempty : z ∉ (SortedMap.empty : SortedSet (Path D K)).keys := by
          intro hz
          cases hz
        rw [hnoted'.reads]
        simp [hempty]

theorem replay_alike {x : RowOutcome D K P F} {row : PreparedParallelRow D K P F}
    {results : SortedMap K (PreparedParallelRow D K P F)} {values : List F}
    (h : Beside env e.childName base start (x.hooks.flatMap (observedOf env base) ++ pending) s p)
    (hf : (f key values).Within (Apart e.childName))
    (hsame : SameRun (.ok (x.writes, x.hooks ++ x.worker))
      ((f key values).follow (base.answer env)))
    (hworker : ∀ q ∈ x.worker, Apart e.childName q)
    (hrow : ParallelMapper.Prepared env base start x row) (hfound : results.maybeGet key = some row)
    (hkept : ∀ o ∈ x.hooks.flatMap (observedOf env base), env.idOf s.deps o = env.idOf start o) :
    BothOk (MappedAlike env e.childName base start pending)
      (runLambda env f { s with reads := .empty } key values)
      (m.replay env results { p with reads := .empty } key values) := by
  have hs := interpret_request env (c := { s with reads := .empty }) h.deps.keyed h.view hf
  unfold runLambda
  cases hff : (f key values).follow (base.answer env) with
  | error ex =>
    rw [hff] at hsame
    exact hsame.elim
  | ok y =>
    rw [hff] at hs hsame
    obtain ⟨s', hs', hnoted, hapart⟩ := hs
    obtain ⟨p', hp', hdirs, hgrown, hreads⟩ := ParallelMapper.replayReads_spec
      (c := { p with reads := .empty }) hrow.holds h.deps.keyed' h.view' hworker
    rw [hs']
    unfold ParallelMapper.replay
    rw [hfound]
    simp only
    rw [hp']
    refine mappedAlike x.hooks x.worker h hsame.2 hapart hkept hnoted ?_ hdirs hgrown ?_
    · rw [← hsame.1, hrow.writes]
    · intro z
      have hempty : z ∉ (SortedMap.empty : SortedSet (Path D K)).keys := by
        intro hz
        cases hz
      rw [hreads, hrow.prepared]
      simp [hempty]

def hookObserved (env : MapEnv D K P F E) (m : ParallelMapper D K P F E) (e : MapEdge D K F)
    (base : ReadContext D K P F) (key : K) : List (Observed D K P F) :=
  if m.select key then
    match m.outcome (base.answer env) key (e.values key) with
    | .ok x => x.hooks.flatMap (observedOf env base)
    | .error _ => []
  else []

/-- On the serial path, each row of a batch finds registered what its hooks would have found
when the batch began, in `start`. -/
def KeptRows (env : MapEnv D K P F E) (m : ParallelMapper D K P F E)
    (f : K → List F → RowBody D K P F E (SortedMap K (List F))) (e : MapEdge D K F)
    (base : ReadContext D K P F) (start : Deps D K P F) : ReadContext D K P F → List K → Prop
  | _, [] => True
  | c, key :: keys =>
    (∀ o ∈ hookObserved env m e base key, env.idOf c.deps o = env.idOf start o) ∧
      ∀ c', e.updateRow env (runLambda env f) c key = .ok c' → KeptRows env m f e base start c' keys

def Kept (env : MapEnv D K P F E) (m : ParallelMapper D K P F E)
    (f : K → List F → RowBody D K P F E (SortedMap K (List F))) (e : MapEdge D K F)
    (base : ReadContext D K P F) : ReadContext D K P F → List (List K) → Prop
  | _, [] => True
  | c, batch :: rest =>
    KeptRows env m f e base c.deps c batch ∧
      ∀ c', e.runRows env (runLambda env f) c batch = .ok c' → Kept env m f e base c' rest

/-- The child may have been written, and its old-writes index is the same but for `changed`. -/
structure Framed (e : MapEdge D K F) (changed : K → Prop) (c c' : ReadContext D K P F) : Prop where
  view : SameView e.childName c c'
  old : ∀ key, ¬changed key → e.getOld c' key = e.getOld c key

theorem framed_refl (e : MapEdge D K F) (changed : K → Prop) (c : ReadContext D K P F) :
    Framed e changed c c :=
  ⟨fun _ _ => rfl, fun _ _ => rfl⟩

variable {changed : K → Prop}

theorem Framed.trans {c c' c'' : ReadContext D K P F}
    (h : Framed e changed c c') (h' : Framed e changed c' c'') : Framed e changed c c'' := by
  refine ⟨?_, ?_⟩
  · intro d hd
    rw [h'.view d hd, h.view d hd]
  · intro key hkey
    rw [h'.old key hkey, h.old key hkey]

variable {c c' : ReadContext D K P F}

theorem framed_foldlM
    {step : ReadContext D K P F → α → Except E (ReadContext D K P F)} (xs : List α)
    (hstep : ∀ x ∈ xs, ∀ c c', step c x = .ok c' → Framed e changed c c')
    (h : xs.foldlM step c = .ok c') : Framed e changed c c' := by
  induction xs generalizing c with
  | nil =>
    cases h
    exact framed_refl e changed c'
  | cons x xs ih =>
    rw [foldlM_cons] at h
    cases hx : step c x with
    | error ex =>
      rw [hx] at h
      cases h
    | ok c₁ =>
      rw [hx] at h
      exact (hstep x mem_cons_self c c₁ hx).trans
        (ih (fun y hy => hstep y (mem_cons_of_mem x hy)) h)

theorem orBroken_ok {x : Option α} {a : α} (h : orBroken env x = .ok a) : x = some a := by
  cases x with
  | none => cases h
  | some b =>
    cases h
    rfl

theorem framed_writeRow
    {oldKeys : List K} {writes : SortedMap K (List F)}
    (h : e.writeRow env c key oldKeys writes = .ok c') : Framed e changed c c' := by
  unfold writeRow at h
  refine framed_foldlM _ ?_ h
  intro w _ c c' hw
  obtain ⟨dir, hfound, hdirs⟩ := writeEntry_dirs (orBroken_ok hw)
  rcases hdirs with hsame | hdirs
  · rw [hsame]
    exact framed_refl e changed c
  · refine ⟨?_, ?_⟩
    · intro d hd
      rw [hdirs, SortedMap.maybeGet_set, if_neg hd]
    · intro key' _
      unfold getOld
      rw [hdirs, SortedMap.maybeGet_set, if_pos rfl, hfound]
      exact EagerDir.getOld_writeEntry dir _ _ _ _ _ _

theorem framed_setOld {info : MInfo D K}
    (h : e.setOld c key info = some c') :
    Framed e (fun k => k = key) c c' ∧ e.getOld c' key = some info := by
  unfold setOld at h
  cases hfound : c.dirs.maybeGet e.childName with
  | none =>
    rw [hfound] at h
    cases h
  | some found =>
    rw [hfound] at h
    cases found with
    | lazy => cases h
    | deleted => cases h
    | eager child =>
      have hc := Option.some.inj h
      subst hc
      refine ⟨⟨?_, ?_⟩, ?_⟩
      · intro d hd
        simp only [SortedMap.maybeGet_set]
        rw [if_neg hd]
      · intro key' hne
        unfold getOld
        simp only [SortedMap.maybeGet_set, if_true, hfound]
        rw [EagerDir.getOld_setOld, if_neg]
        intro heq
        exact hne (congrArg Source.baseName heq)
      · unfold getOld
        simp only [SortedMap.maybeGet_set, if_true]
        rw [EagerDir.getOld_setOld, if_pos rfl]

theorem updateRow_frame {map : RowMap D K P F E}
    (hmap : ∀ c key values x, map c key values = .ok x → x.2.dirs = c.dirs)
    (h : e.updateRow env map c key = .ok c') :
    Framed e (fun k => k = key) c c' ∧ ∃ x, map { c with reads := .empty } key
    (e.values key) = .ok x ∧
      e.getOld c' key = some (rowInfo x.1 x.2.reads) := by
  unfold updateRow at h
  cases hold : e.getOld c key with
  | none =>
    rw [hold] at h
    cases h
  | some info =>
    rw [hold] at h
    simp only [orBroken, Except.bind] at h
    cases hx : map { c with reads := .empty } key (e.values key) with
    | error ex =>
      rw [hx] at h
      cases h
    | ok x =>
      rw [hx] at h
      simp only at h
      cases hd : x.2.deps.replaceDeps e.incremental (e.arrow key) info.getReads x.2.reads with
      | none =>
        rw [hd] at h
        cases h
      | some d =>
        rw [hd] at h
        simp only at h
        cases hw : e.writeRow env { x.2 with deps := d, reads := c.reads } key info.getKeys x.1 with
        | error ex =>
          rw [hw] at h
          cases h
        | ok c₁ =>
          rw [hw] at h
          simp only at h
          obtain ⟨hset, hgot⟩ := framed_setOld (orBroken_ok h)
          have hwrite : Framed e (fun k => k = key) { x.2 with deps := d, reads := c.reads } c₁ :=
            framed_writeRow hw
          have hdirs := hmap _ _ _ _ hx
          have hstart : Framed e (fun k => k = key) c { x.2 with deps := d, reads := c.reads } := by
            refine ⟨?_, ?_⟩
            · intro d' _
              simp only
              rw [hdirs]
            · intro key' _
              unfold getOld
              simp only
              rw [hdirs]
          exact ⟨(hstart.trans hwrite).trans hset, x, rfl, hgot⟩

end MapEdge
end SkipPlatform
