import SkipPlatform.StoreReadFilters
import SkipPlatform.StoreContextRuns

set_option autoImplicit false
set_option linter.unusedSectionVars false

/-! Runs of writes, filtered reads and updates: the projection stored with a filter is that
of the current array until the directory itself is replaced, and a write invalidates
exactly the readers whose projection changed. -/
namespace SkipPlatform
open List StoreReaders StoreDeps StoreSourceMap

namespace StoreDeps.Deps
variable {D K P F : Type} [LinearOrder D] [LinearOrder K]

/-- `d'` has some of the filters of `d`. -/
structure Narrows (d d' : Deps D K P F) : Prop where
  filters : ∀ path filters, d'.filters.maybeGet path = some filters →
    ∃ filters₀, d.filters.maybeGet path = some filters₀
  bucket : ∀ path h f, f ∈ d'.bucket path h → f ∈ d.bucket path h
  next : d'.nextFilterID = d.nextFilterID

theorem narrows_same {d d' : Deps D K P F} (hf : d'.filters = d.filters)
    (hn : d'.nextFilterID = d.nextFilterID) : Narrows d d' := by
  refine ⟨?_, ?_, hn⟩
  · intro path filters h
    rw [hf] at h
    exact ⟨filters, h⟩
  · intro path h f hmem
    unfold Deps.bucket at hmem ⊢
    rw [hf] at hmem
    exact hmem

theorem Narrows.trans {d d' d'' : Deps D K P F} (h : Narrows d d') (h' : Narrows d' d'') :
    Narrows d d'' := by
  refine ⟨?_, fun path hash f hf => h.bucket path hash f (h'.bucket path hash f hf),
    h'.next.trans h.next⟩
  intro path filters hf
  obtain ⟨filters', hf'⟩ := h'.filters path filters hf
  exact h.filters path filters' hf'

variable (d : Deps D K P F)

variable (path : Path D K)

theorem narrows_removeFilter (hash id : ℤ) :
    Narrows d (d.removeFilter path hash id) := by
  refine ⟨?_, ?_, ?_⟩
  · intro p filters hp
    unfold removeFilter at hp
    cases hg : d.filters.maybeGet path with
    | none =>
      rw [hg] at hp
      exact ⟨filters, hp⟩
    | some groups =>
      by_cases hpp : p = path
      · subst hpp
        exact ⟨groups, hg⟩
      · cases hb : groups.maybeGet hash with
        | none =>
          simp only [hg, hb] at hp
          exact ⟨filters, hp⟩
        | some bucket =>
          simp only [hg, hb] at hp
          split_ifs at hp
          all_goals
            first
            | rw [SortedMap.maybeGet_remove, if_neg hpp] at hp
            | rw [SortedMap.maybeGet_set, if_neg hpp] at hp
            exact ⟨filters, hp⟩
  · intro p h f hf
    rw [bucket_removeFilter] at hf
    split_ifs at hf
    · exact mem_of_mem_filter hf
    · exact hf
  · unfold removeFilter
    split
    · rfl
    · split <;> rfl

theorem narrows_forgetPath : Narrows d (d.forgetPath path) := by
  unfold forgetPath
  have h : Narrows d { d with data := d.data.remove path } := narrows_same rfl rfl
  simp only
  split
  · exact h.trans (narrows_removeFilter _ _ _ _)
  · exact h

theorem narrows_iremove (dirName : D) (path : Path D K) :
    Narrows d (d.iremove dirName path) := by
  unfold iremove
  simp only
  split <;> exact narrows_same rfl rfl

theorem narrows_removeInternal (arrowKey : ArrowKey D K)
    (skip : Bool) : Narrows d (d.removeInternal path arrowKey skip) := by
  unfold removeInternal
  simp only
  have h : ∀ set : DependencyReaders D K,
      Narrows d (if set.isEmpty then d.forgetPath path else { d with data := d.data.set path set }) := by
    intro set
    split
    · exact narrows_forgetPath d path
    · exact narrows_same rfl rfl
  split
  · exact (h _).trans (narrows_iremove _ _ _)
  · exact h _

theorem narrows_foldl {α : Type} {f : Deps D K P F → α → Deps D K P F}
    (hf : ∀ d x, Narrows d (f d x)) (xs : List α) (d : Deps D K P F) : Narrows d (xs.foldl f d) := by
  induction xs generalizing d with
  | nil => exact narrows_same rfl rfl
  | cons x xs ih => exact (hf d x).trans (ih _)

variable (reader : ArrowKey D K)

theorem narrows_removeDeps (reads : List (Path D K)) :
    Narrows d (d.removeDeps reader reads) :=
  narrows_foldl (fun d path => narrows_removeInternal d path reader false) reads d

theorem narrows_removeDir (dirName : D) : Narrows d (d.removeDir dirName) := by
  have hpath : ∀ (d : Deps D K P F) (path : Path D K), Narrows d (removeDirPath dirName d path) := by
    intro d path
    apply narrows_foldl
    intro d reader
    split
    · exact narrows_removeInternal d path reader _
    · exact narrows_same rfl rfl
  unfold removeDir
  exact (narrows_foldl hpath _ d).trans (narrows_same rfl rfl)

theorem narrows_set {d d' : Deps D K P F} {path : Path D K} {arrowKey : ArrowKey D K}
    (h : d.set path arrowKey = some d') : Narrows d d' := by
  unfold Deps.set at h
  obtain ⟨set, _, rfl⟩ := Option.map_eq_some_iff.mp h
  exact narrows_same rfl rfl

theorem narrows_updateNewDeps (reads : List (Path D K))
    {d d' : Deps D K P F} (h : d.updateNewDeps reader reads = some d') : Narrows d d' := by
  unfold updateNewDeps at h
  induction reads generalizing d with
  | nil =>
    cases h
    exact narrows_same rfl rfl
  | cons path reads ih =>
    rw [foldlM_cons] at h
    obtain ⟨d₁, h₁, h₂⟩ := Option.bind_eq_some_iff.mp h
    exact (narrows_set h₁).trans (ih h₂)

theorem narrows_mergeDeps (oldReads newReads : List (Path D K))
    {d d' : Deps D K P F} (h : mergeDeps reader d oldReads newReads = some d') : Narrows d d' := by
  fun_induction mergeDeps reader d oldReads newReads with
  | case1 d oldReads =>
    cases h
    exact narrows_removeDeps d reader oldReads
  | case2 d path newReads ih =>
    obtain ⟨d₁, h₁, h₂⟩ := Option.bind_eq_some_iff.mp h
    exact (narrows_set h₁).trans (ih d₁ h₂)
  | case3 d old oldReads path newReads hlt ih =>
    exact (narrows_removeInternal d old reader false).trans (ih h)
  | case4 d oldReads path newReads hlt ih => exact ih h
  | case5 d old oldReads path newReads hlt hne ih =>
    obtain ⟨d₁, h₁, h₂⟩ := Option.bind_eq_some_iff.mp h
    exact (narrows_set h₁).trans (ih d₁ h₂)

theorem narrows_replaceDeps {d d' : Deps D K P F} {incremental : Bool} {reader : ArrowKey D K}
    {oldReads : List (Path D K)} {newReads : SortedSet (Path D K)}
    (h : d.replaceDeps incremental reader oldReads newReads = some d') : Narrows d d' := by
  unfold replaceDeps at h
  split at h
  · exact narrows_mergeDeps reader oldReads newReads.keys h
  · obtain ⟨d₁, h₁, rfl⟩ := Option.map_eq_some_iff.mp h
    exact (narrows_updateNewDeps reader newReads.keys h₁).trans (narrows_removeDeps _ _ _)

end StoreDeps.Deps

namespace ReadContext
variable {D K P F : Type} [LinearOrder D] [StoreKey K]

/-- Every filter that is not `stale` holds the projection of the current array. -/
structure Inv (project : P → F → F) (stale : Path D K → ℤ → ℤ → Prop) (c : ReadContext D K P F) :
    Prop where
  keyed : Keyed c.deps
  ids : ∀ path h f, f ∈ c.deps.bucket path h → f.id ≤ c.deps.nextFilterID
  unique : ∀ path h f g, f ∈ c.deps.bucket path h → g ∈ c.deps.bucket path h → f.id = g.id → f = g
  current : ∀ n k h f, f ∈ c.deps.bucket ⟨n, .key k⟩ h → ¬stale ⟨n, .key k⟩ h f.id →
    f.value = (c.getArrayRaw n k).map (project f.project)

section Inv
variable {project : P → F → F} {stale stale' : Path D K → ℤ → ℤ → Prop} {c c' : ReadContext D K P F}

theorem Inv.narrows (h : Inv project stale c) (hn : c.deps.Narrows c'.deps)
    (harray : ∀ n k hash id, ¬stale' ⟨n, .key k⟩ hash id →
      ¬stale ⟨n, .key k⟩ hash id ∧ c'.getArrayRaw n k = c.getArrayRaw n k) :
    Inv project stale' c' := by
  refine ⟨⟨?_, ?_⟩, ?_, ?_, ?_⟩
  · intro path filters hf
    obtain ⟨filters₀, hf₀⟩ := hn.filters path filters hf
    exact h.keyed.source path filters₀ hf₀
  · intro path hash f hf
    exact h.keyed.hash path hash f (hn.bucket path hash f hf)
  · intro path hash f hf
    rw [hn.next]
    exact h.ids path hash f (hn.bucket path hash f hf)
  · intro path hash f g hf hg
    exact h.unique path hash f g (hn.bucket path hash f hf) (hn.bucket path hash g hg)
  · intro n k hash f hf hs
    obtain ⟨hs₀, ha⟩ := harray n k hash f.id hs
    rw [ha]
    exact h.current n k hash f (hn.bucket _ hash f hf) hs₀

theorem Inv.same (h : Inv project stale c) (hd : c'.deps = c.deps) (hdirs : c'.dirs = c.dirs) :
    Inv project stale c' := by
  refine h.narrows (Deps.narrows_same (by rw [hd]) (by rw [hd])) ?_
  intro n k hash id hs
  refine ⟨hs, ?_⟩
  unfold getArrayRaw
  rw [hdirs]

theorem getArrayRaw_setDir (c : ReadContext D K P F) (dirName n : D) (dir : Dir D K F) (k : K)
    (hn : n ≠ dirName) :
    getArrayRaw { c with dirs := c.dirs.set dirName dir } n k = c.getArrayRaw n k := by
  unfold getArrayRaw
  simp only [SortedMap.maybeGet_set, if_neg hn]

theorem inv_start (dirs : SortedMap D (Dir D K F)) (compact blocks : Bool) :
    Inv project (fun _ _ _ => False) ⟨dirs, .empty compact blocks, .empty, .empty⟩ := by
  have hb : ∀ path h, (Deps.empty compact blocks : Deps D K P F).bucket path h = [] := by
    intro path h
    rfl
  refine ⟨⟨?_, ?_⟩, ?_, ?_, ?_⟩
  · intro path filters hf
    cases hf
  · intro path h f hf
    rw [hb] at hf
    cases hf
  · intro path h f hf
    rw [hb] at hf
    cases hf
  · intro path h f g hf
    rw [hb] at hf
    cases hf
  · intro n k h f hf
    rw [hb] at hf
    cases hf

end Inv

section Write
variable [DecidableEq P] [DecidableEq F] (project : P → F → F)

/-- The readers of what a write changes of the directory as a whole. -/
def Tagged (d : Deps D K P F) (dirName : D) (a : ArrowKey D K) : Prop :=
  a ∈ d.readers ⟨dirName, .sizeTag⟩ ∨ a ∈ d.readers ⟨dirName, .isEmptyTag⟩ ∨
    a ∈ d.readers ⟨dirName, .filesTag⟩

theorem updateDirtyTag_marks {c : ReadContext D K P F} (h : Keyed c.deps) (path : Path D K)
    (hpath : ∀ k, path.baseName ≠ .key k) :
    Marks (fun a => a ∈ c.deps.readers path) c (c.updateDirtyReaders project path none) :=
  marks_plain project (h.no_filters hpath) _ none

theorem updateDirtyTags_marks {c : ReadContext D K P F} (h : Keyed c.deps) (dirName : D)
    (before after : ℤ) :
    ∃ marked, Marks marked c (c.updateDirtyTags project dirName before after) ∧
      ∀ a, marked a → Tagged c.deps dirName a := by
  have hsize := updateDirtyTag_marks project h ⟨dirName, .sizeTag⟩ (by simp)
  have hsizes : ∃ (c₁ : ReadContext D K P F) (marked : ArrowKey D K → Prop), Marks marked c c₁ ∧
      (∀ a, marked a → Tagged c.deps dirName a) ∧
      c.updateDirtyTags project dirName before after =
        c₁.updateDirtyReaders project ⟨dirName, .filesTag⟩ none := by
    unfold updateDirtyTags
    simp only
    by_cases hne : before ≠ after
    · rw [if_pos hne]
      by_cases hz : decide (before = 0) ≠ decide (after = 0)
      · rw [if_pos hz]
        have hk : Keyed (c.updateDirtyReaders project ⟨dirName, .sizeTag⟩ none).deps := by
          rw [hsize.deps]
          exact h
        have hempty := updateDirtyTag_marks project hk ⟨dirName, .isEmptyTag⟩ (by simp)
        refine ⟨_, _, hsize.trans hempty, ?_, rfl⟩
        intro a ha
        rw [hsize.deps] at ha
        exact ha.elim Or.inl fun hb => Or.inr (Or.inl hb)
      · rw [if_neg hz]
        exact ⟨_, _, hsize, fun a ha => Or.inl ha, rfl⟩
    · rw [if_neg hne]
      exact ⟨c, _, marks_self c, fun a ha => ha.elim, rfl⟩
  obtain ⟨c₁, marked, hm, hsub, heq⟩ := hsizes
  have hk : Keyed c₁.deps := by
    rw [hm.deps]
    exact h
  have hfiles := updateDirtyTag_marks project hk ⟨dirName, .filesTag⟩ (by simp)
  rw [heq]
  refine ⟨_, hm.trans hfiles, ?_⟩
  intro a ha
  rw [hm.deps] at ha
  exact ha.elim (hsub a) fun hb => Or.inr (Or.inr hb)

variable {d : Deps D K P F}

theorem touched_congr {path : Path D K} (hno : d.filters.maybeGet path = none)
    (v v' : Option (List F)) (a : ArrowKey D K) :
    Touched project d path v a ↔ Touched project d path v' a := by
  unfold Touched Deps.bucket
  simp [hno]

structure Written (c : ReadContext D K P F) (ctx : WriteContext D K) (dirName : D)
    (origSource writer : Source D K) (k : K) (rvalues : List F) (dir : EagerDir D K F)
    (c' : ReadContext D K P F) : Prop where
  found : c.dirs.maybeGet dirName = some (.eager dir)
  dirs : c'.dirs = c.dirs.set dirName (.eager (dir.writeEntry ctx origSource writer k rvalues))
  deps : c'.deps = refreshFilters project c.deps ⟨dirName, .key k⟩ (some (c'.getArrayRaw dirName k))
  dirty : ∃ tagged : ArrowKey D K → Prop, (∀ a, tagged a → Tagged c.deps dirName a) ∧
    ∀ a, c'.IsDirty a ↔ c.IsDirty a ∨ (tagged a ∨
      Touched project c.deps ⟨dirName, .key k⟩ (some (c'.getArrayRaw dirName k)) a) ∧ c.Present a

theorem written_writeEntry {c c' : ReadContext D K P F} (h : Keyed c.deps) {ctx : WriteContext D K}
    {dirName : D} {origSource writer : Source D K} {k : K} {rvalues : List F}
    (hw : c.writeEntry project ctx dirName origSource writer k rvalues = some c')
    (hne : rvalues ≠ c.getArraySourceKey dirName origSource k) :
    ∃ dir, Written project c ctx dirName origSource writer k rvalues dir c' := by
  unfold writeEntry at hw
  unfold getArraySourceKey at hne
  cases hfound : c.dirs.maybeGet dirName with
  | none =>
    rw [hfound] at hw
    cases hw
  | some found =>
    rw [hfound] at hw hne
    cases found with
    | lazy => cases hw
    | deleted => cases hw
    | eager dir =>
      simp only at hw hne
      rw [if_neg hne] at hw
      have hw' := Option.some.inj hw
      clear hw
      obtain ⟨tagged, htags, hsub⟩ := updateDirtyTags_marks project h dirName dir.totalSize
        (dir.writeEntry ctx origSource writer k rvalues).totalSize
      generalize c.updateDirtyTags project dirName dir.totalSize
        (dir.writeEntry ctx origSource writer k rvalues).totalSize = c₁ at htags hw'
      have hk₁ : Keyed c₁.deps := by
        rw [htags.deps]
        exact h
      generalize hv : (if c₁.hasReadFilters ⟨dirName, .key k⟩ = true then
        some ((dir.writeEntry ctx origSource writer k rvalues).getArrayRaw k) else none) = v at hw'
      obtain ⟨c₂, hm, heq⟩ := updateDirtyReaders_spec project hk₁ ⟨dirName, .key k⟩ v
      have hboth := htags.trans hm
      rw [heq] at hw'
      have harray : c'.getArrayRaw dirName k =
          (dir.writeEntry ctx origSource writer k rvalues).getArrayRaw k := by
        rw [← hw']
        simp [getArrayRaw, SortedMap.maybeGet_set]
      have hsome : v = some (c'.getArrayRaw dirName k) ∨
          c.deps.filters.maybeGet ⟨dirName, .key k⟩ = none := by
        rw [harray, ← hv]
        by_cases hr : c₁.hasReadFilters ⟨dirName, .key k⟩ = true
        · rw [if_pos hr]
          exact Or.inl rfl
        · right
          unfold hasReadFilters at hr
          rw [htags.deps, SortedMap.containsKey_eq] at hr
          simpa using hr
      refine ⟨dir, hfound, ?_, ?_, tagged, hsub, ?_⟩
      · rw [← hw']
        simp only
        rw [hboth.dirs]
      · have hdeps : c'.deps = refreshFilters project c.deps ⟨dirName, .key k⟩ v := by
          rw [← hw', ← htags.deps]
        rw [hdeps]
        rcases hsome with hsome | hno
        · rw [hsome]
        · unfold refreshFilters
          rw [hno]
      · intro a
        have hdirty : c'.IsDirty a ↔ c₂.IsDirty a := by
          rw [← hw']
          exact Iff.rfl
        rw [hdirty, hboth.dirty, htags.deps]
        rcases hsome with hsome | hno
        · rw [hsome]
        · rw [touched_congr project hno v (some (c'.getArrayRaw dirName k))]

theorem refresh_id (v : Option (List F)) (f : ReadFilter P F) :
    (refresh project v f).id = f.id ∧ (refresh project v f).project = f.project ∧
      (refresh project v f).projectionHash = f.projectionHash := by
  unfold refresh
  split <;> exact ⟨rfl, rfl, rfl⟩

theorem mem_refreshFilters {path p : Path D K} {v : Option (List F)} {h : ℤ}
    {f : ReadFilter P F} (hf : f ∈ (refreshFilters project d path v).bucket p h) :
    ∃ g ∈ d.bucket p h, f = if p = path then refresh project v g else g := by
  rw [bucket_refreshFilters] at hf
  split_ifs at hf with hp
  · obtain ⟨g, hg, rfl⟩ := mem_map.mp hf
    exact ⟨g, hg, by rw [if_pos hp]⟩
  · exact ⟨f, hf, by rw [if_neg hp]⟩

theorem keyed_refreshFilters (h : Keyed d) (path : Path D K)
    (v : Option (List F)) : Keyed (refreshFilters project d path v) := by
  refine ⟨?_, ?_⟩
  · intro p filters hp
    unfold refreshFilters at hp
    cases hf : d.filters.maybeGet path with
    | none =>
      rw [hf] at hp
      exact h.source p filters hp
    | some groups =>
      by_cases hpp : p = path
      · subst hpp
        exact h.source p groups hf
      · rw [hf] at hp
        simp only [Deps.setFilters] at hp
        rw [SortedMap.maybeGet_set, if_neg hpp] at hp
        exact h.source p filters hp
  · intro p hash f hf
    obtain ⟨g, hg, rfl⟩ := mem_refreshFilters project hf
    have hgh := h.hash p hash g hg
    split_ifs
    · rw [(refresh_id project v g).2.2]
      exact hgh
    · exact hgh

variable {stale : Path D K → ℤ → ℤ → Prop} {c c' : ReadContext D K P F}

theorem writeEntry_unchanged {ctx : WriteContext D K} {dirName : D}
    {origSource writer : Source D K} {k : K} {rvalues : List F}
    (hw : c.writeEntry project ctx dirName origSource writer k rvalues = some c')
    (heq : rvalues = c.getArraySourceKey dirName origSource k) : c' = c := by
  unfold ReadContext.writeEntry at hw
  unfold getArraySourceKey at heq
  cases hfound : c.dirs.maybeGet dirName with
  | none =>
    rw [hfound] at hw
    cases hw
  | some found =>
    rw [hfound] at hw heq
    cases found with
    | lazy => cases hw
    | deleted => cases hw
    | eager dir =>
      simp only at hw heq
      rw [if_pos heq] at hw
      exact (Option.some.inj hw).symm

theorem Inv.writeEntry (h : Inv project stale c) {ctx : WriteContext D K} {dirName : D}
    {origSource writer : Source D K} {k : K} {rvalues : List F}
    (hw : c.writeEntry project ctx dirName origSource writer k rvalues = some c') :
    Inv project (fun p hash id => stale p hash id ∧ ¬(p = ⟨dirName, .key k⟩ ∧
      rvalues ≠ c.getArraySourceKey dirName origSource k)) c' := by
  by_cases hne : rvalues = c.getArraySourceKey dirName origSource k
  · have hsame := writeEntry_unchanged project hw hne
    rw [hsame]
    refine h.narrows (Deps.narrows_same rfl rfl) ?_
    intro n k' hash id hs
    refine ⟨?_, rfl⟩
    intro hstale
    exact hs ⟨hstale, fun hx => hx.2 hne⟩
  · obtain ⟨dir, hwritten⟩ := written_writeEntry project h.keyed hw hne
    have hmem : ∀ p hash f, f ∈ c'.deps.bucket p hash → ∃ g ∈ c.deps.bucket p hash,
        f = if p = ⟨dirName, .key k⟩ then
          refresh project (some (c'.getArrayRaw dirName k)) g else g := by
      intro p hash f hf
      rw [hwritten.deps] at hf
      exact mem_refreshFilters project hf
    have hnext : c'.deps.nextFilterID = c.deps.nextFilterID := by
      rw [hwritten.deps]
      unfold refreshFilters
      split <;> rfl
    have hid : ∀ p (g : ReadFilter P F), (if p = (⟨dirName, .key k⟩ : Path D K) then
        refresh project (some (c'.getArrayRaw dirName k)) g else g).id = g.id := by
      intro p g
      split_ifs
      · exact (refresh_id project _ g).1
      · rfl
    refine ⟨?_, ?_, ?_, ?_⟩
    · rw [hwritten.deps]
      exact keyed_refreshFilters project h.keyed _ _
    · intro p hash f hf
      obtain ⟨g, hg, rfl⟩ := hmem p hash f hf
      rw [hid, hnext]
      exact h.ids p hash g hg
    · intro p hash f f' hf hf' heq
      obtain ⟨g, hg, rfl⟩ := hmem p hash f hf
      obtain ⟨g', hg', rfl⟩ := hmem p hash f' hf'
      rw [hid, hid] at heq
      rw [h.unique p hash g g' hg hg' heq]
    · intro n k' hash f hf hs
      obtain ⟨g, hg, hfg⟩ := hmem _ hash f hf
      by_cases hp : (⟨n, .key k'⟩ : Path D K) = ⟨dirName, .key k⟩
      · rw [if_pos hp] at hfg
        cases hp
        rw [hfg]
        rfl
      · rw [if_neg hp] at hfg
        subst hfg
        have hs₀ : ¬stale ⟨n, .key k'⟩ hash f.id := fun hx => hs ⟨hx, fun hy => hp hy.1⟩
        rw [h.current n k' hash f hg hs₀]
        congr 1
        by_cases hn : n = dirName
        · subst hn
          have hk : k' ≠ k := fun hx => hp (by rw [hx])
          unfold getArrayRaw
          rw [hwritten.dirs, SortedMap.maybeGet_set, if_pos rfl, hwritten.found]
          exact (EagerDir.getArrayRaw_writeEntry_ne dir ctx origSource writer rvalues hk).symm
        · unfold getArrayRaw
          rw [hwritten.dirs, SortedMap.maybeGet_set, if_neg hn]

theorem addFilter_cases (hash : P → ℤ) (fresh : ℤ) (d : Deps D K P F) (path : Path D K) (p : P)
    (value : List F) :
    (∃ f ∈ d.bucket path (hash p), f.project = p ∧ f.value = value ∧
      d.addFilter hash fresh path p value = (d, f.path path)) ∨
    ((d.addFilter hash fresh path p value).2 = filteredPath path (hash p) fresh ∧
      (d.addFilter hash fresh path p value).1.nextFilterID = fresh ∧
      (∀ q, (d.addFilter hash fresh path p value).1.filters.maybeGet q =
        if q = path then some (((d.filters.maybeGet path).getD .empty).set (hash p)
          (d.bucket path (hash p) ++ [⟨fresh, hash p, p, value⟩])) else d.filters.maybeGet q) ∧
      ∀ q h, (d.addFilter hash fresh path p value).1.bucket q h =
        if q = path ∧ h = hash p then d.bucket q h ++ [⟨fresh, hash p, p, value⟩]
        else d.bucket q h) := by
  have hbucket : (((d.filters.maybeGet path).getD .empty).maybeGet (hash p)).getD [] =
    d.bucket path (hash p) := rfl
  unfold Deps.addFilter
  simp only
  rw [hbucket]
  cases hfind : (d.bucket path (hash p)).find? (fun f => decide (f.project = p ∧ f.value = value)) with
  | some f =>
    left
    have hf := List.find?_some hfind
    have hf' : f.project = p ∧ f.value = value := by simpa using hf
    exact ⟨f, List.mem_of_find?_eq_some hfind, hf'.1, hf'.2, rfl⟩
  | none =>
    right
    refine ⟨rfl, rfl, ?_, ?_⟩
    · intro q
      simp only
      rw [SortedMap.maybeGet_set]
      split_ifs <;> rfl
    · intro q h
      simp only
      rw [Deps.bucket_setFilters]
      by_cases hq : q = path
      · subst hq
        rw [if_pos rfl, SortedMap.maybeGet_set]
        by_cases hh : h = hash p
        · subst hh
          rw [if_pos rfl, if_pos ⟨rfl, rfl⟩]
          rfl
        · rw [if_neg hh, if_neg (fun hx => hh hx.2)]
          rfl
      · rw [if_neg hq, if_neg (fun hx => hq hx.1)]

structure Appended (path : Path D K) (hash : ℤ) (filter : ReadFilter P F) (d d' : Deps D K P F) :
    Prop where
  filters : ∀ q filters, d'.filters.maybeGet q = some filters →
    q = path ∨ ∃ filters₀, d.filters.maybeGet q = some filters₀
  bucket : ∀ q h f, f ∈ d'.bucket q h → f ∈ d.bucket q h ∨ q = path ∧ h = hash ∧ f = filter
  fresh : ∀ f ∈ d.bucket path hash, f.id ≠ filter.id
  next : d.nextFilterID ≤ d'.nextFilterID ∧ filter.id ≤ d'.nextFilterID

theorem Inv.appended {stale' : Path D K → ℤ → ℤ → Prop} (h : Inv project stale c) {n : D} {k : K}
    {filter : ReadFilter P F} {hash₀ : ℤ} (hhash : filter.projectionHash = hash₀)
    (ha : Appended ⟨n, .key k⟩ hash₀ filter c.deps c'.deps) (hdirs : c'.dirs = c.dirs)
    (hold : ∀ q h f, f ∈ c.deps.bucket q h → ¬stale' q h f.id → ¬stale q h f.id)
    (hnew : ¬stale' ⟨n, .key k⟩ hash₀ filter.id →
      filter.value = (c.getArrayRaw n k).map (project filter.project)) :
    Inv project stale' c' := by
  have harray : ∀ n k, c'.getArrayRaw n k = c.getArrayRaw n k := by
    intro n k
    unfold getArrayRaw
    rw [hdirs]
  refine ⟨⟨?_, ?_⟩, ?_, ?_, ?_⟩
  · intro q filters hq
    rcases ha.filters q filters hq with rfl | ⟨filters₀, hf₀⟩
    · exact ⟨k, rfl⟩
    · exact h.keyed.source q filters₀ hf₀
  · intro q hash f hf
    rcases ha.bucket q hash f hf with hf | ⟨_, rfl, rfl⟩
    · exact h.keyed.hash q hash f hf
    · exact hhash
  · intro q hash f hf
    rcases ha.bucket q hash f hf with hf | ⟨_, _, rfl⟩
    · exact (h.ids q hash f hf).trans ha.next.1
    · exact ha.next.2
  · intro q hash f g hf hg hid
    rcases ha.bucket q hash f hf with hf | ⟨hqf, hhf, rfl⟩
    · rcases ha.bucket q hash g hg with hg | ⟨rfl, rfl, rfl⟩
      · exact h.unique q hash f g hf hg hid
      · exact absurd hid (ha.fresh f hf)
    · subst hqf hhf
      rcases ha.bucket _ _ g hg with hg | ⟨_, _, rfl⟩
      · exact absurd hid.symm (ha.fresh g hg)
      · rfl
  · intro m k' hash f hf hs
    rw [harray]
    rcases ha.bucket _ hash f hf with hf | ⟨hq, hh, rfl⟩
    · exact h.current m k' hash f hf (hold _ hash f hf hs)
    · cases hq
      subst hh
      exact hnew hs

theorem getArrayFilter_eq {hash : P → ℤ} {fresh : ℤ} {dirName : D} {key : K} {p : P}
    {values : List F} (hr : c.getArrayFilter project hash fresh dirName key p = some (values, c')) :
    values = (c.getArrayRaw dirName key).map (project p) ∧
      c' = { c with
        deps := (c.deps.addFilter hash fresh ⟨dirName, .key key⟩ p values).1
        reads := (c.reads.set (c.deps.addFilter hash fresh ⟨dirName, .key key⟩ p values).2
          ()).set ⟨dirName, .dirTag⟩ () } := by
  unfold ReadContext.getArrayFilter at hr
  unfold getArrayRaw
  cases hfound : c.dirs.maybeGet dirName with
  | none =>
    rw [hfound] at hr
    cases hr
  | some found =>
    rw [hfound] at hr
    cases found with
    | lazy => cases hr
    | deleted => cases hr
    | eager dir =>
      simp only at hr
      obtain ⟨hvalues, hc'⟩ := Prod.ext_iff.mp (Option.some.inj hr)
      simp only at hvalues hc'
      subst hvalues
      exact ⟨rfl, hc'.symm⟩

theorem Inv.getArrayFilter (h : Inv project stale c) {hash : P → ℤ} {fresh : ℤ} {dirName : D}
    {key : K} {p : P} {values : List F} (hfresh : c.deps.nextFilterID < fresh)
    (hr : c.getArrayFilter project hash fresh dirName key p = some (values, c')) :
    Inv project (fun q h id => stale q h id ∧ filteredPath q h id ≠
      (c.deps.addFilter hash fresh ⟨dirName, .key key⟩ p values).2) c' := by
  obtain ⟨harray, hc'⟩ := getArrayFilter_eq project hr
  rcases addFilter_cases hash fresh c.deps ⟨dirName, .key key⟩ p values with
    ⟨f, hf, hproj, hvalue, heq⟩ | ⟨hpath, hnext, hfilters, hbucket⟩
  · rw [heq] at hc' ⊢
    have hdeps : c'.deps = c.deps := by rw [hc']
    have hdirs : c'.dirs = c.dirs := by rw [hc']
    refine ⟨by rw [hdeps]; exact h.keyed, by rw [hdeps]; exact h.ids,
      by rw [hdeps]; exact h.unique, ?_⟩
    intro n k hash' g hg hs
    rw [hdeps] at hg
    have hraw : c'.getArrayRaw n k = c.getArrayRaw n k := by
      unfold getArrayRaw
      rw [hdirs]
    rw [hraw]
    by_cases hst : stale ⟨n, .key k⟩ hash' g.id
    · have hsame : filteredPath ⟨n, .key k⟩ hash' g.id = f.path ⟨dirName, .key key⟩ := by
        by_contra hne
        exact hs ⟨hst, hne⟩
      have hhash := h.keyed.hash _ _ f hf
      unfold filteredPath ReadFilter.path at hsame
      simp only [StoreDeps.Path.mk.injEq, ReadKey.filteredReadKey.injEq, ReadKey.key.injEq] at hsame
      obtain ⟨rfl, rfl, rfl, hid⟩ := hsame
      rw [hhash] at hg
      have hgf := h.unique _ _ g f hg hf hid
      rw [hgf, hvalue, hproj, harray]
    · exact h.current n k hash' g hg hst
  · have ha : Appended ⟨dirName, .key key⟩ (hash p)
        ⟨fresh, hash p, p, values⟩ c.deps c'.deps := by
      rw [hc']
      refine ⟨?_, ?_, ?_, ?_⟩
      · intro q filters hq
        rw [hfilters] at hq
        split_ifs at hq with hqp
        · exact Or.inl hqp
        · exact Or.inr ⟨filters, hq⟩
      · intro q h' f hf
        rw [hbucket] at hf
        split_ifs at hf with hc
        · rcases mem_append.mp hf with hf | hf
          · exact Or.inl hf
          · exact Or.inr ⟨hc.1, hc.2, mem_singleton.mp hf⟩
        · exact Or.inl hf
      · intro f hf hid
        have hle := h.ids _ _ f hf
        simp only at hid
        omega
      · simp only
        rw [hnext]
        exact ⟨hfresh.le, le_refl _⟩
    have hhash : (⟨fresh, hash p, p, values⟩ :
        ReadFilter P F).projectionHash = hash p := rfl
    refine h.appended project hhash ha (by rw [hc']) ?_ ?_
    · intro q h' f hf hs hst
      apply hs
      refine ⟨hst, ?_⟩
      rw [hpath]
      intro heq
      have hid : f.id = fresh := by
        unfold filteredPath at heq
        simp only [StoreDeps.Path.mk.injEq, ReadKey.filteredReadKey.injEq] at heq
        exact heq.2.2.2
      have hle := h.ids q h' f hf
      omega
    · intro _
      exact harray

theorem importFilter_cases {d source d' : Deps D K P F} {read : Path D K}
    (h : d.importFilter source read = some d') :
    d' = d ∨ ∃ path hash filter, filter ∈ source.bucket path hash ∧
      read = filteredPath path hash filter.id ∧
      (d.Registered path hash filter.id ∧
        d' = { d with nextFilterID := max d.nextFilterID filter.id } ∨
      ¬d.Registered path hash filter.id ∧ Appended path hash filter d d') := by
  obtain ⟨dir, base⟩ := read
  unfold Deps.importFilter at h
  cases base with
  | filteredReadKey key hash id =>
    simp only at h
    cases hlookup : ((source.filters.maybeGet ⟨dir, key⟩).bind (·.maybeGet hash)).bind
        (·.find? fun f => decide (f.id = id)) with
    | none =>
      rw [hlookup] at h
      cases h
    | some filter =>
      rw [hlookup] at h
      have hd' := Option.some.inj h
      clear h
      obtain ⟨bucket, hbucket, hfind⟩ := Option.bind_eq_some_iff.mp hlookup
      obtain ⟨filters, hfilters, hget⟩ := Option.bind_eq_some_iff.mp hbucket
      have hmem : filter ∈ source.bucket ⟨dir, key⟩ hash := by
        unfold Deps.bucket
        rw [hfilters, Option.getD_some, hget, Option.getD_some]
        exact List.mem_of_find?_eq_some hfind
      have hid : filter.id = id := by simpa using List.find?_some hfind
      subst hid
      refine Or.inr ⟨⟨dir, key⟩, hash, filter, hmem, rfl, ?_⟩
      have hany : ((((d.filters.maybeGet ⟨dir, key⟩).getD .empty).maybeGet hash).getD []).any
          (fun f => decide (f.id = filter.id)) = true ↔ d.Registered ⟨dir, key⟩ hash filter.id := by
        rw [any_eq_true]
        simp only [decide_eq_true_eq]
        rfl
      by_cases hreg : d.Registered ⟨dir, key⟩ hash filter.id
      · left
        refine ⟨hreg, ?_⟩
        rw [if_pos (hany.mpr hreg)] at hd'
        exact hd'.symm
      · right
        refine ⟨hreg, ?_⟩
        rw [if_neg (fun hx => hreg (hany.mp hx))] at hd'
        subst hd'
        refine ⟨?_, ?_, ?_, le_max_left _ _, le_max_right _ _⟩
        · intro q filters hq
          simp only [SortedMap.maybeGet_set] at hq
          split_ifs at hq with hqp
          · exact Or.inl hqp
          · exact Or.inr ⟨filters, hq⟩
        · intro q h f hf
          rw [Deps.bucket_setFilters] at hf
          split_ifs at hf with hqp
          · subst hqp
            rw [SortedMap.maybeGet_set] at hf
            split_ifs at hf with hh
            · subst hh
              rcases mem_append.mp hf with hf | hf
              · exact Or.inl hf
              · exact Or.inr ⟨rfl, rfl, mem_singleton.mp hf⟩
            · exact Or.inl hf
          · exact Or.inl hf
        · intro f hf hid
          exact hreg ⟨f, hf, hid⟩
  | _ => exact Or.inl (Option.some.inj h).symm

theorem Inv.importDep {stale₀ : Path D K → ℤ → ℤ → Prop} {source : ReadContext D K P F}
    (h : Inv project stale c) (hs : Inv project stale₀ source) {reader : ArrowKey D K}
    {read : Path D K} {deps : Deps D K P F}
    (hi : c.deps.importDep source.deps reader read = some deps) :
    Inv project (fun q hash id => stale q hash id ∨
      filteredPath q hash id = read ∧ ¬c.deps.Registered q hash id) { c with deps := deps } := by
  obtain ⟨d₁, h₁, h₂⟩ := Option.bind_eq_some_iff.mp hi
  have hset := Deps.narrows_set h₂
  have himported : Inv project (fun q hash id => stale q hash id ∨
      filteredPath q hash id = read ∧ ¬c.deps.Registered q hash id) { c with deps := d₁ } := by
    rcases importFilter_cases h₁ with rfl | ⟨path, hash, filter, hmem, hread, hcase⟩
    · refine h.narrows (Deps.narrows_same rfl rfl) ?_
      intro n k hash id hst
      exact ⟨fun hx => hst (Or.inl hx), rfl⟩
    · have hhash := hs.keyed.hash path hash filter hmem
      rcases hcase with ⟨_, rfl⟩ | ⟨hreg, happ⟩
      · refine ⟨⟨h.keyed.source, h.keyed.hash⟩, ?_, h.unique, ?_⟩
        · intro q hash f hf
          exact (h.ids q hash f hf).trans (le_max_left _ _)
        · intro n k hash f hf hst
          exact h.current n k hash f hf fun hx => hst (Or.inl hx)
      · have hkey : ∃ k, path.baseName = .key k := by
          unfold Deps.bucket at hmem
          cases hf : source.deps.filters.maybeGet path with
          | none => simp [hf] at hmem
          | some filters => exact hs.keyed.source path filters hf
        obtain ⟨n, base⟩ := path
        obtain ⟨k, rfl⟩ := hkey
        have hdirs : ({ c with deps := d₁ } : ReadContext D K P F).dirs = c.dirs := rfl
        refine h.appended project hhash happ hdirs ?_ ?_
        · intro q h' f _ hst hx
          exact hst (Or.inl hx)
        · intro hst
          exact absurd (Or.inr ⟨hread.symm, hreg⟩) hst
  refine himported.narrows hset ?_
  intro n k hash id hst
  exact ⟨hst, rfl⟩

theorem Inv.replaceDir (h : Inv project stale c) (dirName : D) (dir : EagerDir D K F) :
    Inv project (fun q hash id => stale q hash id ∨ q.dirName = dirName)
      (c.replaceDir project dirName dir) := by
  have hm := updateDirtyTag_marks project h.keyed ⟨dirName, .dirTag⟩ (by simp)
  refine h.narrows (Deps.narrows_same ?_ ?_) ?_
  · unfold ReadContext.replaceDir
    simp only
    rw [hm.deps]
  · unfold ReadContext.replaceDir
    simp only
    rw [hm.deps]
  · intro n k hash id hst
    refine ⟨fun hx => hst (Or.inl hx), ?_⟩
    unfold ReadContext.replaceDir
    simp only
    rw [getArrayRaw_setDir _ _ _ _ _ fun hx => hst (Or.inr hx)]
    unfold getArrayRaw
    rw [hm.dirs]

end Write

section Runs
variable [DecidableEq P] [DecidableEq F]

/-- The contexts a run can reach, with the filters that what happened since they were
registered has left behind. `reads` stands for entering and leaving arrows and for all
other reads, `settle` for records, edges and purges that keep the arrays. -/
inductive Run (project : P → F → F) (hash : P → ℤ) :
    ReadContext D K P F → (Path D K → ℤ → ℤ → Prop) → Prop
  | start (dirs : SortedMap D (Dir D K F)) (compact blocks : Bool) :
      Run project hash ⟨dirs, .empty compact blocks, .empty, .empty⟩ fun _ _ _ => False
  | write {c c' : ReadContext D K P F} {stale : Path D K → ℤ → ℤ → Prop}
      (run : Run project hash c stale) (ctx : WriteContext D K) (dirName : D)
      (origSource writer : Source D K) (k : K) (rvalues : List F)
      (written : c.writeEntry project ctx dirName origSource writer k rvalues = some c') :
      Run project hash c' fun q h id => stale q h id ∧ ¬(q = ⟨dirName, .key k⟩ ∧
        rvalues ≠ c.getArraySourceKey dirName origSource k)
  | filteredRead {c c' : ReadContext D K P F} {stale : Path D K → ℤ → ℤ → Prop}
      (run : Run project hash c stale) (fresh : ℤ) (dirName : D) (key : K) (p : P) (values : List F)
      (drawn : c.deps.nextFilterID < fresh)
      (read : c.getArrayFilter project hash fresh dirName key p = some (values, c')) :
      Run project hash c' fun q h id => stale q h id ∧
        filteredPath q h id ≠ (c.deps.addFilter hash fresh ⟨dirName, .key key⟩ p values).2
  | reads {c : ReadContext D K P F} {stale : Path D K → ℤ → ℤ → Prop}
      (run : Run project hash c stale) (reads : SortedSet (Path D K)) :
      Run project hash { c with reads := reads } stale
  | replaceDeps {c : ReadContext D K P F} {stale : Path D K → ℤ → ℤ → Prop}
      (run : Run project hash c stale) (incremental : Bool) (reader : ArrowKey D K)
      (oldReads : List (Path D K)) (newReads : SortedSet (Path D K)) (deps : Deps D K P F)
      (replaced : c.deps.replaceDeps incremental reader oldReads newReads = some deps) :
      Run project hash { c with deps := deps } stale
  | takeDirty {c : ReadContext D K P F} {stale : Path D K → ℤ → ℤ → Prop}
      (run : Run project hash c stale) (parentName childName : D) :
      Run project hash (c.takeDirty parentName childName) stale
  | settle {c : ReadContext D K P F} {stale : Path D K → ℤ → ℤ → Prop}
      (run : Run project hash c stale) (dirName : D) (dir dir' : EagerDir D K F)
      (found : c.dirs.maybeGet dirName = some (.eager dir))
      (same : ∀ k, dir'.getArrayRaw k = dir.getArrayRaw k) :
      Run project hash { c with dirs := c.dirs.set dirName (.eager dir') } stale
  | setDir {c : ReadContext D K P F} {stale : Path D K → ℤ → ℤ → Prop}
      (run : Run project hash c stale) (dirName : D) (dir : Dir D K F) :
      Run project hash { c with dirs := c.dirs.set dirName dir } fun q h id =>
        stale q h id ∨ q.dirName = dirName
  | replaceDir {c : ReadContext D K P F} {stale : Path D K → ℤ → ℤ → Prop}
      (run : Run project hash c stale) (dirName : D) (dir : EagerDir D K F) :
      Run project hash (c.replaceDir project dirName dir) fun q h id =>
        stale q h id ∨ q.dirName = dirName
  | removeDir {c : ReadContext D K P F} {stale : Path D K → ℤ → ℤ → Prop}
      (run : Run project hash c stale) (dirName : D) :
      Run project hash (c.removeDir dirName) fun q h id => stale q h id ∨ q.dirName = dirName
  | importDep {c source : ReadContext D K P F} {stale stale₀ : Path D K → ℤ → ℤ → Prop}
      (run : Run project hash c stale) (other : Run project hash source stale₀)
      (reader : ArrowKey D K) (read : Path D K) (deps : Deps D K P F)
      (imported : c.deps.importDep source.deps reader read = some deps) :
      Run project hash { c with deps := deps } fun q h id =>
        stale q h id ∨ filteredPath q h id = read ∧ ¬c.deps.Registered q h id

variable {project : P → F → F} {hash : P → ℤ} {c : ReadContext D K P F}
  {stale : Path D K → ℤ → ℤ → Prop}

theorem inv_run (run : Run project hash c stale) : Inv project stale c := by
  induction run with
  | start dirs compact blocks => exact inv_start dirs compact blocks
  | write _ ctx dirName origSource writer k rvalues written ih => exact ih.writeEntry project written
  | filteredRead _ fresh dirName key p values drawn read ih =>
    exact ih.getArrayFilter project drawn read
  | reads _ reads ih => exact ih.same rfl rfl
  | replaceDeps _ incremental reader oldReads newReads deps replaced ih =>
    exact ih.narrows (Deps.narrows_replaceDeps replaced) fun n k h id hs => ⟨hs, rfl⟩
  | takeDirty _ parentName childName ih => exact ih.same rfl rfl
  | @settle c stale _ dirName dir dir' found same ih =>
    refine ih.narrows (Deps.narrows_same rfl rfl) ?_
    intro n k h id hs
    refine ⟨hs, ?_⟩
    by_cases hn : n = dirName
    · subst hn
      unfold getArrayRaw
      simp only [SortedMap.maybeGet_set, if_true, found]
      exact same k
    · exact getArrayRaw_setDir c dirName n _ k hn
  | @setDir c stale _ dirName dir ih =>
    refine ih.narrows (Deps.narrows_same rfl rfl) ?_
    intro n k h id hs
    exact ⟨fun hx => hs (Or.inl hx),
      getArrayRaw_setDir c dirName n dir k fun hx => hs (Or.inr hx)⟩
  | replaceDir _ dirName dir ih => exact ih.replaceDir project dirName dir
  | @removeDir c stale _ dirName ih =>
    refine ih.narrows (Deps.narrows_removeDir c.deps dirName) ?_
    intro n k h id hs
    exact ⟨fun hx => hs (Or.inl hx),
      getArrayRaw_setDir c dirName n _ k fun hx => hs (Or.inr hx)⟩
  | importDep _ _ reader read deps imported ih₁ ih₂ => exact ih₁.importDep project ih₂ imported

/-- Nothing of the directory is read by `a` for this key but projections that are up to
date. -/
structure OnlyProjects (c : ReadContext D K P F) (stale : Path D K → ℤ → ℤ → Prop) (dirName : D)
    (k : K) (a : ArrowKey D K) : Prop where
  present : c.Present a
  key : a ∉ c.deps.readers ⟨dirName, .key k⟩
  tags : ¬Tagged c.deps dirName a
  current : ∀ h f, f ∈ c.deps.bucket ⟨dirName, .key k⟩ h →
    a ∈ c.deps.readers (filteredPath ⟨dirName, .key k⟩ h f.id) → ¬stale ⟨dirName, .key k⟩ h f.id

theorem changed_iff (v : List F) (f : ReadFilter P F) :
    changed project (some v) f = true ↔ v.map (project f.project) ≠ f.value := by
  unfold changed projected
  simp

/-- In every run the files stored with a filter are the projection of the current array,
unless the filter was imported or its directory made anew or removed since; a write
marks a reader that only sees projections exactly when one of them changes; and a
directory that is made anew marks every reader of the directory as such, which a
filtered read always is. -/
theorem run_filters (run : Run project hash c stale) :
    (∀ dirName k h f, f ∈ c.deps.bucket ⟨dirName, .key k⟩ h → ¬stale ⟨dirName, .key k⟩ h f.id →
      f.value = (c.getArrayRaw dirName k).map (project f.project)) ∧
    (∀ ctx dirName origSource writer k rvalues c',
      c.writeEntry project ctx dirName origSource writer k rvalues = some c' →
      ∀ a, OnlyProjects c stale dirName k a →
        (c'.IsDirty a ↔ c.IsDirty a ∨ ∃ h f, f ∈ c.deps.bucket ⟨dirName, .key k⟩ h ∧
          a ∈ c.deps.readers (filteredPath ⟨dirName, .key k⟩ h f.id) ∧
          (c.getArrayRaw dirName k).map (project f.project) ≠
            (c'.getArrayRaw dirName k).map (project f.project))) ∧
    (∀ dirName dir a, c.Present a → a ∈ c.deps.readers ⟨dirName, .dirTag⟩ →
      (c.replaceDir project dirName dir).IsDirty a) ∧
    ∀ fresh dirName key p values c',
      c.getArrayFilter project hash fresh dirName key p = some (values, c') →
      values = (c.getArrayRaw dirName key).map (project p) ∧
        (⟨dirName, .dirTag⟩ : Path D K) ∈ c'.reads.keys := by
  have hinv := inv_run run
  refine ⟨hinv.current, ?_, ?_, ?_⟩
  · intro ctx dirName origSource writer k rvalues c' hw a ha
    by_cases heq : rvalues = c.getArraySourceKey dirName origSource k
    · have hsame := writeEntry_unchanged project hw heq
      rw [hsame]
      simp
    · obtain ⟨dir, hwritten⟩ := written_writeEntry project hinv.keyed hw heq
      obtain ⟨tagged, hsub, hdirty⟩ := hwritten.dirty
      rw [hdirty]
      refine or_congr Iff.rfl ?_
      constructor
      · rintro ⟨htag | hkey | ⟨h, f, hf, hch, hr⟩, _⟩
        · exact absurd (hsub a htag) ha.tags
        · exact absurd hkey ha.key
        · have hread : a ∈ c.deps.readers (filteredPath ⟨dirName, .key k⟩ h f.id) := by
            rw [← hinv.keyed.hash _ h f hf]
            exact hr
          refine ⟨h, f, hf, hread, ?_⟩
          rw [← hinv.current dirName k h f hf (ha.current h f hf hread)]
          exact ((changed_iff _ f).mp hch).symm
      · rintro ⟨h, f, hf, hread, hne⟩
        refine ⟨Or.inr (Or.inr ⟨h, f, hf, ?_, ?_⟩), ha.present⟩
        · rw [changed_iff, hinv.current dirName k h f hf (ha.current h f hf hread)]
          exact hne.symm
        · unfold ReadFilter.path
          rw [hinv.keyed.hash _ h f hf]
          exact hread
  · intro dirName dir a hp hr
    have hm := updateDirtyTag_marks project hinv.keyed ⟨dirName, .dirTag⟩ (by simp)
    exact (hm.dirty a).mpr (Or.inr ⟨hr, hp⟩)
  · intro fresh dirName key p values c' hr
    obtain ⟨hvalues, hc'⟩ := getArrayFilter_eq project hr
    refine ⟨hvalues, ?_⟩
    rw [hc', SortedMap.mem_keys]
    exact ⟨(), by simp [SortedMap.maybeGet_set]⟩

end Runs

section Samples
open EagerDir

theorem exists_emptyDir : ∃ d : EagerDir ℕ PlainKey ℕ, d.Ready ⟨1, none⟩ ∧
    ∀ key, d.getArrayRaw key = [] := by
  have hdistinct : (inputCreation 0 1 none [] : Creation ℕ PlainKey ℕ).Distinct :=
    ⟨StoreContext.contentRows_nodup 0 [], nodup_nil, rfl⟩
  obtain ⟨s, hs, hinv⟩ := make_inv hdistinct
  exact ⟨s.dir, make_nil hs hinv⟩

def sampleKey : PlainKey := .iid 1

def sampleArrow : ArrowKey ℕ PlainKey := ⟨0, 2, .iid 7⟩

def sampleDirs (d : EagerDir ℕ PlainKey ℕ) : SortedMap ℕ (Dir ℕ PlainKey ℕ) :=
  (SortedMap.empty.set 0 (.eager d)).set 2 (.eager d)

theorem sampleDirs_found (d : EagerDir ℕ PlainKey ℕ) :
    (sampleDirs d).maybeGet 0 = some (.eager d) ∧ (sampleDirs d).maybeGet 2 = some (.eager d) := by
  unfold sampleDirs
  simp [SortedMap.maybeGet_set]

def sampleContext (d : EagerDir ℕ PlainKey ℕ) : ReadContext ℕ PlainKey ℕ ℕ :=
  ⟨sampleDirs d, .empty false false, .empty, .empty⟩

def remainder (p x : ℕ) : ℕ := x % p

def sampleHash (p : ℕ) : ℤ := p

theorem first_filter (d : EagerDir ℕ PlainKey ℕ) :
    ∃ c' stale, Run remainder sampleHash c' stale ∧ c'.dirs = sampleDirs d ∧
      c'.deps.bucket ⟨0, .key sampleKey⟩ 10 =
        [⟨1, 10, 10, (d.getArrayRaw sampleKey).map (remainder 10)⟩] ∧
      c'.deps.data = .empty ∧ c'.dirtyReaders = .empty ∧ c'.deps.Tidy ∧
      ¬stale ⟨0, .key sampleKey⟩ 10 1 := by
  have hstart : Run remainder sampleHash (sampleContext d) fun _ _ _ => False := Run.start _ false false
  have hread : ∃ c', (sampleContext d).getArrayFilter remainder sampleHash 1 0 sampleKey 10 =
        some ((d.getArrayRaw sampleKey).map (remainder 10), c') ∧ c'.dirs = sampleDirs d ∧
      c'.deps.bucket ⟨0, .key sampleKey⟩ 10 =
        [⟨1, 10, 10, (d.getArrayRaw sampleKey).map (remainder 10)⟩] ∧
      c'.deps.data = .empty ∧ c'.dirtyReaders = .empty ∧ c'.deps.Tidy := by
    unfold ReadContext.getArrayFilter sampleContext
    rw [(sampleDirs_found d).1]
    refine ⟨_, rfl, rfl, rfl, rfl, rfl, ?_, ?_, ?_⟩
    · intro path r hr
      cases hr
    · intro child s hs
      cases hs
    · intro path groups hg
      simp only [Deps.addFilter, Deps.empty, SortedMap.maybeGet_empty, Option.getD_none,
        List.find?_nil, nil_append, SortedMap.maybeGet_set] at hg
      split_ifs at hg
      cases hg
      refine ⟨SortedMap.items_set_ne_nil _ _ _, ?_⟩
      intro h b hb
      rw [SortedMap.maybeGet_set] at hb
      split_ifs at hb
      · cases hb
        simp
      · cases hb
  obtain ⟨c', hr, hdirs, hbucket, hdata, hdirty, htidy⟩ := hread
  have hdrawn : (sampleContext d).deps.nextFilterID < 1 := Int.one_pos
  have hrun := hstart.filteredRead 1 0 sampleKey 10 _ hdrawn hr
  exact ⟨c', _, hrun, hdirs, hbucket, hdata, hdirty, htidy, fun hx => hx.1⟩

/-- A directory made anew leaves the old projection stored with its filter. -/
theorem replacedDir_stale : ∃ (c : ReadContext ℕ PlainKey ℕ ℕ)
    (stale : Path ℕ PlainKey → ℤ → ℤ → Prop) (f : ReadFilter ℕ ℕ), Run remainder sampleHash c stale ∧
      f ∈ c.deps.bucket ⟨0, .key sampleKey⟩ 10 ∧
      f.value ≠ (c.getArrayRaw 0 sampleKey).map (remainder f.project) := by
  obtain ⟨d, hready, hnil⟩ := exists_emptyDir
  obtain ⟨c, stale, hrun, hdirs, hbucket, _, _⟩ := first_filter
    (d.writeEntry ⟨1, none⟩ (sampleSource 1) (sampleSource 1) sampleKey [5])
  have hne := getArrayRaw_write_ne hready (sampleSource 1) sampleKey 5
  have hm := updateDirtyTag_marks remainder (inv_run hrun).keyed ⟨0, .dirTag⟩ (by simp)
  have hdeps : (c.replaceDir remainder 0 d).deps = c.deps := hm.deps
  have harray : (c.replaceDir remainder 0 d).getArrayRaw 0 sampleKey = [] := by
    unfold ReadContext.replaceDir getArrayRaw
    simp only [SortedMap.maybeGet_set, if_true]
    exact hnil sampleKey
  have hfilter : ∃ f ∈ c.deps.bucket ⟨0, .key sampleKey⟩ 10, f.value ≠ [] := by
    rw [hbucket]
    exact ⟨_, mem_singleton_self _, by simpa using hne⟩
  obtain ⟨f, hf, hvalue⟩ := hfilter
  refine ⟨_, _, f, hrun.replaceDir 0 d, ?_, ?_⟩
  · rw [hdeps]
    exact hf
  · rw [harray]
    exact hvalue

/-- A reader of a projection is marked by the first write to an empty key. -/
theorem run_filters_firstWrite : ∃ (c c' : ReadContext ℕ PlainKey ℕ ℕ)
    (stale : Path ℕ PlainKey → ℤ → ℤ → Prop), Run remainder sampleHash c stale ∧
      c.writeEntry remainder ⟨1, none⟩ 0 (sampleSource 1) (sampleSource 1) sampleKey [5] = some c' ∧
      ¬c.IsDirty sampleArrow ∧ c'.IsDirty sampleArrow := by
  obtain ⟨d, hready, hnil⟩ := exists_emptyDir
  obtain ⟨c, stale, hrun, hdirs, hbucket, hdata, hdirty, htidy, hfresh⟩ := first_filter d
  obtain ⟨deps, hset, _, hfilters, hread, _⟩ := Deps.set_spec htidy
    (filteredPath ⟨0, .key sampleKey⟩ 10 1) sampleArrow
  have hreplaced : c.deps.replaceDeps false sampleArrow []
      (SortedMap.empty.set (filteredPath ⟨0, .key sampleKey⟩ 10 1) ()) = some deps := by
    have hnew : c.deps.updateNewDeps sampleArrow
        (SortedMap.empty.set (filteredPath ⟨0, .key sampleKey⟩ 10 1) ()).keys = some deps := by
      change (c.deps.set _ sampleArrow).bind (fun d => some d) = some deps
      rw [hset]
      rfl
    unfold Deps.replaceDeps
    rw [hnew]
    rfl
  have hrun₁ := hrun.replaceDeps false sampleArrow [] _ deps hreplaced
  have hnone : ∀ p a, a ∈ deps.readers p → p = filteredPath ⟨0, .key sampleKey⟩ 10 1 := by
    intro p a ha
    rcases (hread p a).mp ha with hx | hx
    · exact hx.1
    · unfold Deps.readers at hx
      rw [hdata] at hx
      cases hx
  have hbucket₁ : deps.bucket ⟨0, .key sampleKey⟩ 10 =
      [⟨1, 10, 10, (d.getArrayRaw sampleKey).map (remainder 10)⟩] := by
    rw [← hbucket]
    unfold Deps.bucket
    rw [hfilters]
  have hfound := sampleDirs_found d
  rw [← hdirs] at hfound
  have honly : OnlyProjects { c with deps := deps } stale 0 sampleKey sampleArrow := by
    refine ⟨⟨?_, ?_⟩, ?_, ?_, ?_⟩
    · exact Option.isSome_of_mem hfound.2
    · exact Option.isSome_of_mem hfound.1
    · intro hx
      cases hnone _ _ hx
    · intro hx
      rcases hx with hx | hx | hx <;> cases hnone _ _ hx
    · intro h f hf ha
      have hp := hnone _ _ ha
      unfold filteredPath at hp
      simp only [StoreDeps.Path.mk.injEq, ReadKey.filteredReadKey.injEq, true_and] at hp
      rw [hp.1, hp.2]
      exact hfresh
  have hwrite : ∃ c', ({ c with deps := deps } : ReadContext ℕ PlainKey ℕ ℕ).writeEntry remainder
      ⟨1, none⟩ 0 (sampleSource 1) (sampleSource 1) sampleKey [5] = some c' := by
    unfold ReadContext.writeEntry
    simp only [hfound.1]
    split
    · exact ⟨_, rfl⟩
    · exact ⟨_, rfl⟩
  obtain ⟨c', hw⟩ := hwrite
  have hclean : ¬({ c with deps := deps } : ReadContext ℕ PlainKey ℕ ℕ).IsDirty sampleArrow := by
    unfold IsDirty
    rw [hdirty]
    exact not_mem_nil
  refine ⟨_, c', stale, hrun₁, hw, hclean, ?_⟩
  have hiff := (run_filters hrun₁).2.1 ⟨1, none⟩ 0 (sampleSource 1) (sampleSource 1) sampleKey [5] c'
    hw sampleArrow honly
  refine hiff.mpr (Or.inr ⟨10, _, by rw [hbucket₁]; exact mem_singleton_self _, ?_, ?_⟩)
  · exact (hread _ _).mpr (Or.inl ⟨rfl, rfl⟩)
  · have hbefore : ({ c with deps := deps } : ReadContext ℕ PlainKey ℕ ℕ).getArrayRaw 0 sampleKey =
        [] := by
      unfold getArrayRaw
      simp only [hfound.1]
      exact hnil sampleKey
    have hsource : ({ c with deps := deps } : ReadContext ℕ PlainKey ℕ ℕ).getArraySourceKey 0
        (sampleSource 1) sampleKey = d.getArraySourceKey (sampleSource 1) sampleKey := by
      unfold getArraySourceKey
      simp only [hfound.1]
    have hafter : c'.getArrayRaw 0 sampleKey ≠ [] := by
      have hne := getArrayRaw_write_ne hready (sampleSource 1) sampleKey 5
      by_cases heq : [5] = d.getArraySourceKey (sampleSource 1) sampleKey
      · rw [EagerDir.writeEntry_same heq] at hne
        exact absurd (hnil sampleKey) hne
      · obtain ⟨dir, hwritten⟩ := written_writeEntry remainder (inv_run hrun₁).keyed hw
          (by rw [hsource]; exact heq)
        have hdir : dir = d := by
          have hboth := hwritten.found.symm.trans hfound.1
          cases hboth
          rfl
        unfold getArrayRaw
        rw [hwritten.dirs, SortedMap.maybeGet_set, if_pos rfl, hdir]
        exact hne
    rw [hbefore]
    simpa using hafter.symm

end Samples

end ReadContext
end SkipPlatform
