import SkipPlatform.StoreDepsRuns
import SkipPlatform.StoreContext

set_option autoImplicit false
set_option linter.unusedSectionVars false

/-! Filtered reads: a reader that only uses a projection of a key registers the projected
files it saw, and a write to the key invalidates it when they change. -/
namespace SkipPlatform
open StoreReaders StoreDeps StoreSourceMap

structure ReadContext (D K P F : Type) [LinearOrder D] [StoreKey K] where
  dirs : SortedMap D (Dir D K F)
  deps : Deps D K P F
  reads : SortedSet (Path D K)
  dirtyReaders : SortedMap D (SortedMap D (SortedSet K))

namespace StoreDeps.Deps
variable {D K P F : Type} [LinearOrder D] [LinearOrder K]

def setFilters (d : Deps D K P F) (path : Path D K) (filters : SortedMap ℤ (List (ReadFilter P F))) :
    Deps D K P F :=
  { d with filters := d.filters.set path filters }

end StoreDeps.Deps

namespace ReadContext
variable {D K P F : Type} [LinearOrder D] [StoreKey K]

def getArrayRaw (c : ReadContext D K P F) (dirName : D) (key : K) : List F :=
  match c.dirs.maybeGet dirName with
  | some (.eager dir) => dir.getArrayRaw key
  | _ => []

def getArraySourceKey (c : ReadContext D K P F) (dirName : D) (source : Source D K) (key : K) :
    List F :=
  match c.dirs.maybeGet dirName with
  | some (.eager dir) => dir.getArraySourceKey source key
  | _ => []

def hasReadFilters (c : ReadContext D K P F) (path : Path D K) : Bool :=
  c.deps.filters.containsKey path

/-- A reader with a directory that is not there any more is not marked. -/
def invalidateReader (c : ReadContext D K P F) (reader : ArrowKey D K) : ReadContext D K P F :=
  match c.dirs.maybeGet reader.childName with
  | none => c
  | some _ =>
    match c.dirs.maybeGet reader.parentName with
    | none => c
    | some _ =>
      let map := (c.dirtyReaders.maybeGet reader.parentName).getD .empty
      let keys := (map.maybeGet reader.childName).getD .empty
      { c with dirtyReaders :=
          c.dirtyReaders.set reader.parentName (map.set reader.childName (keys.set reader.key ())) }

section Projections
variable [DecidableEq P] [DecidableEq F] (project : P → F → F)

def projected (newValues : Option (List F)) (filter : ReadFilter P F) : Option (List F) :=
  newValues.map fun values => values.map (project filter.project)

def changed (newValues : Option (List F)) (filter : ReadFilter P F) : Bool :=
  match projected project newValues filter with
  | none => true
  | some v => decide (v ≠ filter.value)

def refresh (newValues : Option (List F)) (filter : ReadFilter P F) : ReadFilter P F :=
  match projected project newValues filter with
  | none => filter
  | some v => { filter with value := v }

/-- The readers of a path, then those of its filters that see a change. A nested call is
for a longer base name, so that it is nested at most as deep as there are filters. -/
def updateDirtyReadersFuel : ℕ → ReadContext D K P F → Path D K → Option (List F) →
    ReadContext D K P F
  | 0, c, _, _ => c
  | fuel + 1, c, path, newValues =>
    let c := (c.deps.readers path).foldl invalidateReader c
    match c.deps.filters.maybeGet path with
    | none => c
    | some filters =>
      let c := filters.values.flatten.foldl (fun c filter =>
        if changed project newValues filter then
          updateDirtyReadersFuel fuel c (filter.path path) none
        else c) c
      { c with
        deps := c.deps.setFilters path
          (filters.map fun _ bucket => bucket.map (refresh project newValues)) }

def updateDirtyReaders (c : ReadContext D K P F) (path : Path D K) (newValues : Option (List F)) :
    ReadContext D K P F :=
  updateDirtyReadersFuel project (c.deps.filters.size + 1) c path newValues

def updateDirtyTags (c : ReadContext D K P F) (dirName : D) (before after : ℤ) :
    ReadContext D K P F :=
  let c :=
    if before ≠ after then
      let c := c.updateDirtyReaders project ⟨dirName, .sizeTag⟩ none
      if decide (before = 0) ≠ decide (after = 0) then
        c.updateDirtyReaders project ⟨dirName, .isEmptyTag⟩ none
      else c
    else c
  c.updateDirtyReaders project ⟨dirName, .filesTag⟩ none

/-- `writeEntry` and the `setDir` of its caller; `none` when there is no such directory. -/
def writeEntry (c : ReadContext D K P F) (ctx : WriteContext D K) (dirName : D)
    (origSource writer : Source D K) (k : K) (rvalues : List F) : Option (ReadContext D K P F) :=
  match c.dirs.maybeGet dirName with
  | some (.eager dir) =>
    if rvalues = dir.getArraySourceKey origSource k then some c
    else
      let written := dir.writeEntry ctx origSource writer k rvalues
      let path : Path D K := ⟨dirName, .key k⟩
      let c := c.updateDirtyTags project dirName dir.totalSize written.totalSize
      let projectedValues := if c.hasReadFilters path then some (written.getArrayRaw k) else none
      let c := c.updateDirtyReaders project path projectedValues
      some { c with dirs := c.dirs.set dirName (.eager written) }
  | _ => none

/-- `fresh` is the number drawn for a new filter. -/
def getArrayFilter (hash : P → ℤ) (c : ReadContext D K P F) (fresh : ℤ) (dirName : D) (key : K)
    (p : P) : Option (List F × ReadContext D K P F) :=
  match c.dirs.maybeGet dirName with
  | some (.eager dir) =>
    let values := (dir.getArrayRaw key).map (project p)
    let r := c.deps.addFilter hash fresh ⟨dirName, .key key⟩ p values
    some (values, { c with
      deps := r.1
      reads := (c.reads.set r.2 ()).set ⟨dirName, .dirTag⟩ () })
  | _ => none

/-- A directory made again under its name, by `mkdirMulti` or by a mapper. -/
def replaceDir (c : ReadContext D K P F) (dirName : D) (dir : EagerDir D K F) :
    ReadContext D K P F :=
  let c := c.updateDirtyReaders project ⟨dirName, .dirTag⟩ none
  { c with dirs := c.dirs.set dirName (.eager dir) }

end Projections

def removeDir (c : ReadContext D K P F) (dirName : D) : ReadContext D K P F :=
  { c with deps := c.deps.removeDir dirName, dirs := c.dirs.set dirName .deleted }

def takeDirty (c : ReadContext D K P F) (parentName childName : D) : ReadContext D K P F :=
  { c with
    dirtyReaders := c.dirtyReaders.set parentName
      (((c.dirtyReaders.maybeGet parentName).getD .empty).remove childName) }

def IsDirty (c : ReadContext D K P F) (reader : ArrowKey D K) : Prop :=
  reader.key ∈ ((((c.dirtyReaders.maybeGet reader.parentName).getD .empty).maybeGet
    reader.childName).getD .empty).keys

def Present (c : ReadContext D K P F) (reader : ArrowKey D K) : Prop :=
  (c.dirs.maybeGet reader.childName).isSome = true ∧
    (c.dirs.maybeGet reader.parentName).isSome = true

variable (c : ReadContext D K P F)

theorem isDirty_invalidateReader (reader a : ArrowKey D K) :
    (c.invalidateReader reader).IsDirty a ↔ c.IsDirty a ∨ a = reader ∧ c.Present a := by
  unfold invalidateReader
  cases hchild : c.dirs.maybeGet reader.childName with
  | none =>
    refine ⟨Or.inl, fun h => h.resolve_right ?_⟩
    intro hr
    have hp := hr.2.1
    rw [hr.1, hchild] at hp
    cases hp
  | some child =>
    simp only
    cases hparent : c.dirs.maybeGet reader.parentName with
    | none =>
      refine ⟨Or.inl, fun h => h.resolve_right ?_⟩
      intro hr
      have hp := hr.2.2
      rw [hr.1, hparent] at hp
      cases hp
    | some parent =>
      have hpresent : a = reader → c.Present a := by
        intro h
        subst h
        exact ⟨by rw [hchild]; rfl, by rw [hparent]; rfl⟩
      have hiff : (a = reader ∧ c.Present a) ↔ a = reader := ⟨And.left, fun h => ⟨h, hpresent h⟩⟩
      rw [hiff]
      unfold IsDirty
      simp only [SortedMap.maybeGet_set]
      by_cases hn : a.parentName = reader.parentName
      · rw [if_pos hn, Option.getD_some, SortedMap.maybeGet_set]
        by_cases hc : a.childName = reader.childName
        · rw [if_pos hc, Option.getD_some, SortedMap.mem_keys]
          simp only [SortedMap.maybeGet_set]
          rw [hn, hc, SortedMap.mem_keys]
          by_cases hk : a.key = reader.key
          · have ha : a = reader := by
              cases a
              cases reader
              cases hn
              cases hc
              cases hk
              rfl
            simp [ha]
          · have ha : a ≠ reader := fun h => hk (by rw [h])
            simp [hk, ha]
        · have ha : a ≠ reader := fun h => hc (by rw [h])
          rw [if_neg hc, hn]
          simp [ha]
      · have ha : a ≠ reader := fun h => hn (by rw [h])
        rw [if_neg hn]
        simp [ha]

/-- From `c` to `c'` exactly the readers in `marked` became dirty, and nothing else
happened. -/
structure Marks (marked : ArrowKey D K → Prop) (c c' : ReadContext D K P F) : Prop where
  dirs : c'.dirs = c.dirs
  deps : c'.deps = c.deps
  reads : c'.reads = c.reads
  dirty : ∀ a, c'.IsDirty a ↔ c.IsDirty a ∨ marked a ∧ c.Present a

theorem marks_self : Marks (fun _ => False) c c :=
  ⟨rfl, rfl, rfl, by simp⟩

theorem Marks.congr {marked marked' : ArrowKey D K → Prop} {c c' : ReadContext D K P F}
    (h : Marks marked c c') (hiff : ∀ a, marked a ↔ marked' a) : Marks marked' c c' := by
  refine ⟨h.dirs, h.deps, h.reads, ?_⟩
  intro a
  rw [h.dirty, hiff]

theorem Marks.trans {marked marked' : ArrowKey D K → Prop} {c c' c'' : ReadContext D K P F}
    (h : Marks marked c c') (h' : Marks marked' c' c'') :
    Marks (fun a => marked a ∨ marked' a) c c'' := by
  refine ⟨h'.dirs.trans h.dirs, h'.deps.trans h.deps, h'.reads.trans h.reads, ?_⟩
  intro a
  have hpresent : c'.Present a ↔ c.Present a := by
    unfold Present
    rw [h.dirs]
  rw [h'.dirty, h.dirty, hpresent, or_and_right, or_assoc]

theorem marks_invalidateReader (reader : ArrowKey D K) :
    Marks (fun a => a = reader) c (c.invalidateReader reader) := by
  refine ⟨?_, ?_, ?_, isDirty_invalidateReader c reader⟩
  all_goals
    unfold invalidateReader
    split
    · rfl
    · split <;> rfl

theorem marks_invalidateReaders (readers : List (ArrowKey D K)) (c : ReadContext D K P F) :
    Marks (fun a => a ∈ readers) c (readers.foldl invalidateReader c) := by
  induction readers generalizing c with
  | nil => exact (marks_self c).congr (by simp)
  | cons r rs ih =>
    have h := (marks_invalidateReader c r).trans (ih (c.invalidateReader r))
    exact h.congr (by simp)

/-- Filters are registered for keys of directories, under the hash of their projection. -/
structure Keyed (d : Deps D K P F) : Prop where
  source : ∀ path filters, d.filters.maybeGet path = some filters →
    ∃ k, path.baseName = .key k
  hash : ∀ path h f, f ∈ d.bucket path h → f.projectionHash = h

theorem Keyed.no_filters {d : Deps D K P F} (h : Keyed d) {path : Path D K}
    (hpath : ∀ k, path.baseName ≠ .key k) : d.filters.maybeGet path = none := by
  cases hf : d.filters.maybeGet path with
  | none => rfl
  | some filters =>
    obtain ⟨k, hk⟩ := h.source path filters hf
    exact absurd hk (hpath k)

theorem mem_filters_flatten {d : Deps D K P F} {path : Path D K}
    {filters : SortedMap ℤ (List (ReadFilter P F))} (h : d.filters.maybeGet path = some filters)
    (f : ReadFilter P F) : f ∈ filters.values.flatten ↔ ∃ hash, f ∈ d.bucket path hash := by
  have hbucket : ∀ hash, d.bucket path hash = (filters.maybeGet hash).getD [] := by
    intro hash
    simp [Deps.bucket, h]
  unfold SortedMap.values
  simp only [List.mem_flatten, List.mem_map, hbucket]
  constructor
  · rintro ⟨bucket, ⟨x, hx, rfl⟩, hf⟩
    have hget := SortedMap.maybeGet_eq_some.mpr hx
    exact ⟨x.1, by rw [hget]; exact hf⟩
  · rintro ⟨hash, hf⟩
    cases hget : filters.maybeGet hash with
    | none =>
      rw [hget] at hf
      cases hf
    | some bucket =>
      rw [hget] at hf
      exact ⟨bucket, ⟨(hash, bucket), SortedMap.maybeGet_eq_some.mp hget, rfl⟩, hf⟩

section Spec
variable [DecidableEq P] [DecidableEq F] (project : P → F → F)

theorem marks_plain {c : ReadContext D K P F} {path : Path D K}
    (hno : c.deps.filters.maybeGet path = none) (fuel : ℕ) (newValues : Option (List F)) :
    Marks (fun a => a ∈ c.deps.readers path) c
      (updateDirtyReadersFuel project (fuel + 1) c path newValues) := by
  have h := marks_invalidateReaders (c.deps.readers path) c
  unfold updateDirtyReadersFuel
  simp only
  rw [h.deps, hno]
  exact h

theorem marks_filters (path : Path D K) (newValues : Option (List F)) (fuel : ℕ)
    (filters : List (ReadFilter P F)) (c : ReadContext D K P F)
    (hno : ∀ f ∈ filters, c.deps.filters.maybeGet (f.path path) = none) :
    Marks (fun a => ∃ f ∈ filters, changed project newValues f = true ∧
        a ∈ c.deps.readers (f.path path)) c
      (filters.foldl (fun c filter =>
        if changed project newValues filter then
          updateDirtyReadersFuel project (fuel + 1) c (filter.path path) none
        else c) c) := by
  induction filters generalizing c with
  | nil => exact (marks_self c).congr (by simp)
  | cons f fs ih =>
    rw [List.foldl_cons]
    by_cases hch : changed project newValues f = true
    · rw [if_pos hch]
      have h := marks_plain project (hno f List.mem_cons_self) fuel none
      have hrest := ih _ (fun g hg => by rw [h.deps]; exact hno g (List.mem_cons_of_mem _ hg))
      refine (h.trans hrest).congr ?_
      intro a
      rw [h.deps]
      simp [hch]
    · rw [if_neg hch]
      have hrest := ih c (fun g hg => hno g (List.mem_cons_of_mem _ hg))
      refine hrest.congr ?_
      intro a
      simp [hch]

def refreshFilters (d : Deps D K P F) (path : Path D K)
    (newValues : Option (List F)) : Deps D K P F :=
  match d.filters.maybeGet path with
  | none => d
  | some filters =>
    d.setFilters path (filters.map fun _ bucket => bucket.map (refresh project newValues))

theorem bucket_refreshFilters (d : Deps D K P F) (path p : Path D K)
    (newValues : Option (List F)) (h : ℤ) :
    (refreshFilters project d path newValues).bucket p h =
      if p = path then (d.bucket p h).map (refresh project newValues) else d.bucket p h := by
  unfold refreshFilters
  cases hf : d.filters.maybeGet path with
  | none =>
    split_ifs with hp
    · subst hp
      simp [Deps.bucket, hf]
    · rfl
  | some filters =>
    unfold Deps.setFilters Deps.bucket
    simp only [SortedMap.maybeGet_set]
    split_ifs with hp
    · subst hp
      rw [Option.getD_some, SortedMap.maybeGet_map, hf, Option.getD_some]
      cases filters.maybeGet h <;> rfl
    · rfl

/-- The readers that a call for `path` marks: those of the path, and those of its filters
that see a change. -/
def Touched (d : Deps D K P F) (path : Path D K)
    (newValues : Option (List F)) (a : ArrowKey D K) : Prop :=
  a ∈ d.readers path ∨ ∃ h f, f ∈ d.bucket path h ∧ changed project newValues f = true ∧
    a ∈ d.readers (f.path path)

theorem updateDirtyReaders_spec {c : ReadContext D K P F} (h : Keyed c.deps) (path : Path D K)
    (newValues : Option (List F)) :
    ∃ c₁, Marks (Touched project c.deps path newValues) c c₁ ∧
      c.updateDirtyReaders project path newValues =
        { c₁ with deps := refreshFilters project c.deps path newValues } := by
  unfold updateDirtyReaders refreshFilters
  cases hf : c.deps.filters.maybeGet path with
  | none =>
    have hm := marks_plain project hf c.deps.filters.size newValues
    refine ⟨_, hm.congr ?_, ?_⟩
    · intro a
      unfold Touched Deps.bucket
      simp [hf]
    · have hd := hm.deps
      generalize updateDirtyReadersFuel project (c.deps.filters.size + 1) c path newValues = c' at hd
      cases c'
      cases hd
      rfl
  | some filters =>
    have hpos : ∃ n, c.deps.filters.size = n + 1 := by
      have hmem := SortedMap.maybeGet_eq_some.mp hf
      have hlen := List.length_pos_of_mem hmem
      rw [SortedMap.size_eq_length]
      exact ⟨c.deps.filters.items.length - 1, by omega⟩
    obtain ⟨n, hn⟩ := hpos
    have h₁ := marks_invalidateReaders (c.deps.readers path) c
    have hno : ∀ f ∈ filters.values.flatten, ((c.deps.readers path).foldl invalidateReader c
        ).deps.filters.maybeGet (f.path path) = none := by
      intro f _
      rw [h₁.deps]
      apply h.no_filters
      intro k hk
      cases hk
    have h₂ := marks_filters project path newValues n filters.values.flatten _ hno
    refine ⟨_, (h₁.trans h₂).congr ?_, ?_⟩
    · intro a
      unfold Touched
      rw [h₁.deps]
      refine or_congr Iff.rfl ?_
      constructor
      · rintro ⟨f, hmem, hch, ha⟩
        obtain ⟨hash, hb⟩ := (mem_filters_flatten hf f).mp hmem
        exact ⟨hash, f, hb, hch, ha⟩
      · rintro ⟨hash, f, hb, hch, ha⟩
        exact ⟨f, (mem_filters_flatten hf f).mpr ⟨hash, hb⟩, hch, ha⟩
    · rw [hn]
      conv_lhs => unfold updateDirtyReadersFuel
      simp only
      rw [h₁.deps, hf]
      simp only
      rw [h₂.deps, h₁.deps]

end Spec

end ReadContext
end SkipPlatform
