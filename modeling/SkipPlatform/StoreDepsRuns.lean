import SkipPlatform.StoreDepsIndex

set_option autoImplicit false

/-! Runs of the dependency index: the inverse index is exact after any operations, and
the filter table is exact when filtered paths are only read with their filter. -/
namespace SkipPlatform.StoreDeps
open List StoreReaders
variable {D K P F : Type} [LinearOrder D] [LinearOrder K]

namespace Deps

/-- The inverse index lists, for the children in `on`, exactly the paths they read. -/
def InverseOn (on : D → Prop) (d : Deps D K P F) : Prop :=
  ∀ c, on c → ∀ p, p ∈ d.inverse c ↔ ∃ a ∈ d.readers p, a.childName = c

/-- A filter is registered exactly for the filtered paths that have readers. -/
def FiltersExact (d : Deps D K P F) : Prop :=
  ∀ q hash id, d.Registered q hash id ↔ d.readers (filteredPath q hash id) ≠ []

/-- If `path` is the path of a filtered read, its filter is registered. -/
def Ready (d : Deps D K P F) (path : Path D K) : Prop :=
  ∀ q hash id, path = filteredPath q hash id → d.Registered q hash id

structure Indexed (d : Deps D K P F) : Prop where
  tidy : d.Tidy
  inverse : d.InverseOn fun _ => True

theorem indexed_empty (compact blocks : Bool) : (empty compact blocks : Deps D K P F).Indexed := by
  refine ⟨tidy_empty compact blocks, ?_⟩
  intro c _ p
  refine iff_of_false not_mem_nil ?_
  rintro ⟨a, ha, _⟩
  cases ha

theorem filtersExact_empty (compact blocks : Bool) :
    (empty compact blocks : Deps D K P F).FiltersExact := by
  intro q hash id
  refine iff_of_false ?_ (fun h => h rfl)
  rintro ⟨f, hf, _⟩
  cases hf

theorem nonempty_congr {α : Type} {xs ys : List α} (h : ∀ x, x ∈ xs ↔ x ∈ ys) :
    xs ≠ [] ↔ ys ≠ [] := by
  have hx : ∀ zs : List α, zs ≠ [] ↔ ∃ z, z ∈ zs := by
    intro zs
    cases zs <;> simp
  rw [hx, hx]
  exact exists_congr h

variable {d : Deps D K P F}

theorem set_indexed (h : d.Indexed) (path : Path D K) (key : ArrowKey D K) :
    ∃ d', d.set path key = some d' ∧ d'.Indexed ∧ (∀ p, d.Ready p → d'.Ready p) ∧
      (d.FiltersExact → d.Ready path → d'.FiltersExact) := by
  obtain ⟨d', hd', ht, hf, hread, hinv⟩ := set_spec h.tidy path key
  have hreg : ∀ q hash id, d'.Registered q hash id ↔ d.Registered q hash id := by
    intro q hash id
    unfold Registered bucket
    rw [hf]
  refine ⟨d', hd', ⟨ht, ?_⟩, ?_, ?_⟩
  · intro c _ p
    rw [hinv, h.inverse c trivial]
    constructor
    · rintro (⟨rfl, rfl⟩ | ⟨a, ha, hc⟩)
      · exact ⟨key, (hread p key).mpr (Or.inl ⟨rfl, rfl⟩), rfl⟩
      · exact ⟨a, (hread p a).mpr (Or.inr ha), hc⟩
    · rintro ⟨a, ha, hc⟩
      rcases (hread p a).mp ha with ⟨rfl, rfl⟩ | ha
      · exact Or.inl ⟨hc.symm, rfl⟩
      · exact Or.inr ⟨a, ha, hc⟩
  · intro p hp q hash id he
    exact (hreg q hash id).mpr (hp q hash id he)
  · intro hexact hready q hash id
    rw [hreg]
    by_cases hp : filteredPath q hash id = path
    · refine iff_of_true (hready q hash id hp.symm) ?_
      exact ne_nil_of_mem ((hread _ key).mpr (Or.inl ⟨hp, rfl⟩))
    · rw [hexact]
      refine nonempty_congr ?_
      intro a
      rw [hread]
      simp [hp]

theorem removeInternal_filtersExact (h : d.Tidy) (hexact : d.FiltersExact)
    (path : Path D K) (key : ArrowKey D K) (skip : Bool) :
    (d.removeInternal path key skip).FiltersExact := by
  obtain ⟨_, hread, _, hreg⟩ := removeInternal_spec h path key skip
  intro q hash id
  rw [hreg, hexact]
  by_cases hp : filteredPath q hash id = path
  · rw [hp]
    have hsub : (d.removeInternal path key skip).readers path ≠ [] → d.readers path ≠ [] := by
      intro hne
      obtain ⟨a, ha⟩ := exists_mem_of_ne_nil _ hne
      exact ne_nil_of_mem ((hread path a).mp ha).1
    constructor
    · exact fun hx hnil => hx.2 ⟨rfl, hnil⟩
    · exact fun hne => ⟨hsub hne, fun hx => hne hx.2⟩
  · have hsame : d.readers (filteredPath q hash id) ≠ [] ↔
        (d.removeInternal path key skip).readers (filteredPath q hash id) ≠ [] := by
      refine nonempty_congr ?_
      intro a
      rw [hread]
      simp [hp]
    rw [← hsame]
    exact ⟨And.left, fun hne => ⟨hne, fun hx => hp hx.1⟩⟩

theorem removeInternal_inverseOn (h : d.Tidy) (on : D → Prop)
    (hinv : d.InverseOn on) (path : Path D K) (key : ArrowKey D K) (skip : Bool)
    (hskip : skip = true → ¬on key.childName) :
    (d.removeInternal path key skip).InverseOn on := by
  obtain ⟨_, hread, hinverse, _⟩ := removeInternal_spec h path key skip
  intro c hc p
  rw [hinverse, hinv c hc]
  constructor
  · rintro ⟨⟨a, ha, hac⟩, hno⟩
    by_cases hak : p = path ∧ a = key
    · obtain ⟨rfl, rfl⟩ := hak
      have hfalse : skip = false := by
        cases hs : skip with
        | false => rfl
        | true => exact absurd hc (hac ▸ hskip hs)
      by_contra hnone
      refine hno ⟨hac.symm, rfl, hfalse, ?_⟩
      intro b hb hbc
      exact hnone ⟨b, hb, hbc⟩
    · exact ⟨a, (hread p a).mpr ⟨ha, hak⟩, hac⟩
  · rintro ⟨a, ha, hac⟩
    refine ⟨⟨a, ((hread p a).mp ha).1, hac⟩, ?_⟩
    rintro ⟨_, rfl, _, hnone⟩
    exact hnone a ha hac

theorem remove_indexed (h : d.Indexed) (path : Path D K)
    (key : ArrowKey D K) :
    (d.remove path key).Indexed ∧ (∀ p, p ≠ path → d.Ready p → (d.remove path key).Ready p) ∧
      (d.FiltersExact → (d.remove path key).FiltersExact) := by
  obtain ⟨ht, _, _, hreg⟩ := removeInternal_spec h.tidy path key false
  refine ⟨⟨ht, ?_⟩, ?_, ?_⟩
  · exact removeInternal_inverseOn h.tidy _ h.inverse path key false (fun hs => nomatch hs)
  · intro p hne hp q hash id he
    exact (hreg q hash id).mpr ⟨hp q hash id he, fun hx => hne (he.trans hx.1)⟩
  · exact fun hexact => removeInternal_filtersExact h.tidy hexact path key false

section RemoveDir
variable (dirName : D)

/-- What holds while `removeDir` runs: the inverse index still lists the paths of the
removed child as they were. -/
structure Removing (paths : List (Path D K)) (d : Deps D K P F) : Prop where
  tidy : d.Tidy
  others : d.InverseOn fun c => c ≠ dirName
  same : d.inverse dirName = paths

def removeReader (path : Path D K) (d : Deps D K P F) (reader : ArrowKey D K) : Deps D K P F :=
  if reader.parentName = dirName ∨ reader.childName = dirName then
    d.removeInternal path reader (decide (reader.childName = dirName))
  else d

theorem removeInternal_skip_idata (d : Deps D K P F) (path : Path D K) (key : ArrowKey D K)
    (h : d.Tidy) : (d.removeInternal path key true).idata = d.idata := by
  unfold removeInternal
  simp only [Bool.not_true, Bool.false_and, Bool.false_eq_true, if_false]
  split_ifs
  · exact (forgetPath_spec h path).2.1
  · rfl

theorem removeInternal_other_idata (d : Deps D K P F) (path : Path D K) (key : ArrowKey D K)
    (skip : Bool) (h : d.Tidy) (c : D) (hc : c ≠ key.childName) :
    (d.removeInternal path key skip).idata.maybeGet c = d.idata.maybeGet c := by
  have hiremove : ∀ d₁ : Deps D K P F, (d₁.iremove key.childName path).idata.maybeGet c =
      d₁.idata.maybeGet c := by
    intro d₁
    unfold iremove
    simp only
    split_ifs
    · rw [SortedMap.maybeGet_remove, if_neg hc]
    · rw [SortedMap.maybeGet_set, if_neg hc]
  unfold removeInternal
  simp only
  split_ifs
  · rw [hiremove, (forgetPath_spec h path).2.1]
  · rw [hiremove]
  · rw [(forgetPath_spec h path).2.1]
  · rfl

variable {d : Deps D K P F}

theorem removeReader_spec {paths : List (Path D K)}
    (h : d.Removing dirName paths) (path : Path D K) (reader : ArrowKey D K) :
    (d.removeReader dirName path reader).Removing dirName paths ∧
      (d.FiltersExact → (d.removeReader dirName path reader).FiltersExact) ∧
      ∀ p a, a ∈ (d.removeReader dirName path reader).readers p ↔
        a ∈ d.readers p ∧ ¬(p = path ∧ a = reader ∧
          (reader.parentName = dirName ∨ reader.childName = dirName)) := by
  unfold removeReader
  by_cases hc : reader.parentName = dirName ∨ reader.childName = dirName
  · rw [if_pos hc]
    obtain ⟨ht, hread, _, _⟩ :=
      removeInternal_spec h.tidy path reader (decide (reader.childName = dirName))
    refine ⟨⟨ht, ?_, ?_⟩, ?_, ?_⟩
    · refine removeInternal_inverseOn h.tidy _ h.others path reader _ ?_
      intro hs hne
      exact hne (of_decide_eq_true hs)
    · rw [← h.same]
      unfold inverse
      by_cases hchild : reader.childName = dirName
      · rw [decide_eq_true hchild, removeInternal_skip_idata d path reader h.tidy]
      · rw [removeInternal_other_idata d path reader _ h.tidy dirName (fun he => hchild he.symm)]
    · exact fun hexact => removeInternal_filtersExact h.tidy hexact path reader _
    · intro p a
      rw [hread]
      simp [hc]
  · rw [if_neg hc]
    refine ⟨h, id, ?_⟩
    intro p a
    simp [hc]

theorem foldl_removeReader_spec {paths : List (Path D K)} (path : Path D K)
    (rs : List (ArrowKey D K)) (h : d.Removing dirName paths) :
    (rs.foldl (removeReader dirName path) d).Removing dirName paths ∧
      (d.FiltersExact → (rs.foldl (removeReader dirName path) d).FiltersExact) ∧
      ∀ p a, a ∈ (rs.foldl (removeReader dirName path) d).readers p ↔
        a ∈ d.readers p ∧ ¬(p = path ∧ a ∈ rs ∧
          (a.parentName = dirName ∨ a.childName = dirName)) := by
  induction rs generalizing d with
  | nil => exact ⟨h, id, by simp⟩
  | cons r rs ih =>
    obtain ⟨h₁, hf₁, hr₁⟩ := removeReader_spec dirName h path r
    obtain ⟨h₂, hf₂, hr₂⟩ := ih h₁
    refine ⟨h₂, fun hf => hf₂ (hf₁ hf), ?_⟩
    intro p a
    rw [foldl_cons, hr₂, hr₁]
    constructor
    · rintro ⟨⟨ha, hno⟩, hrest⟩
      refine ⟨ha, ?_⟩
      rintro ⟨hp, hmem, htouch⟩
      rcases mem_cons.mp hmem with rfl | hmem
      · exact hno ⟨hp, rfl, htouch⟩
      · exact hrest ⟨hp, hmem, htouch⟩
    · rintro ⟨ha, hno⟩
      refine ⟨⟨ha, ?_⟩, fun hx => hno ⟨hx.1, mem_cons_of_mem _ hx.2.1, hx.2.2⟩⟩
      rintro ⟨hp, rfl, htouch⟩
      exact hno ⟨hp, mem_cons_self, htouch⟩

theorem foldl_removeDirPath_spec (paths rest : List (Path D K))
    (h : d.Removing dirName paths) :
    (rest.foldl (removeDirPath dirName) d).Removing dirName paths ∧
      (d.FiltersExact → (rest.foldl (removeDirPath dirName) d).FiltersExact) ∧
      ∀ p a, a ∈ (rest.foldl (removeDirPath dirName) d).readers p ↔
        a ∈ d.readers p ∧ ¬(p ∈ rest ∧ (a.parentName = dirName ∨ a.childName = dirName)) := by
  induction rest generalizing d with
  | nil => exact ⟨h, id, by simp⟩
  | cons path rest ih =>
    obtain ⟨h₁, hf₁, hr₁⟩ := foldl_removeReader_spec dirName path (d.readers path) h
    obtain ⟨h₂, hf₂, hr₂⟩ := ih h₁
    refine ⟨h₂, fun hf => hf₂ (hf₁ hf), ?_⟩
    intro p a
    rw [foldl_cons]
    refine (hr₂ p a).trans ?_
    rw [hr₁]
    constructor
    · rintro ⟨⟨ha, hno⟩, hrest⟩
      refine ⟨ha, ?_⟩
      rintro ⟨hmem, htouch⟩
      rcases mem_cons.mp hmem with rfl | hmem
      · exact hno ⟨rfl, ha, htouch⟩
      · exact hrest ⟨hmem, htouch⟩
    · rintro ⟨ha, hno⟩
      refine ⟨⟨ha, ?_⟩, fun hx => hno ⟨mem_cons_of_mem _ hx.1, hx.2⟩⟩
      rintro ⟨rfl, _, htouch⟩
      exact hno ⟨mem_cons_self, htouch⟩

theorem removeDir_indexed (h : d.Indexed) :
    (d.removeDir dirName).Indexed ∧ (d.FiltersExact → (d.removeDir dirName).FiltersExact) := by
  have hstart : d.Removing dirName (d.inverse dirName) :=
    ⟨h.tidy, fun c _ => h.inverse c trivial, rfl⟩
  obtain ⟨hr, hf, hread⟩ := foldl_removeDirPath_spec dirName (d.inverse dirName)
    (d.inverse dirName) hstart
  have hgone : ∀ p, ∀ a ∈ ((d.inverse dirName).foldl (removeDirPath dirName) d).readers p,
      a.childName ≠ dirName := by
    intro p a ha hc
    obtain ⟨ha', hno⟩ := (hread p a).mp ha
    exact hno ⟨(h.inverse dirName trivial p).mpr ⟨a, ha', hc⟩, Or.inr hc⟩
  refine ⟨⟨⟨hr.tidy.readers, ?_, hr.tidy.filters⟩, ?_⟩, hf⟩
  · intro c s hs
    unfold removeDir at hs
    simp only [SortedMap.maybeGet_remove] at hs
    split_ifs at hs
    exact hr.tidy.inverse c s hs
  · intro c _ p
    change p ∈ (((((d.inverse dirName).foldl (removeDirPath dirName) d).idata.remove
      dirName).maybeGet c).getD .empty).keys ↔
        ∃ a ∈ ((d.inverse dirName).foldl (removeDirPath dirName) d).readers p, _
    rw [SortedMap.maybeGet_remove]
    by_cases hc : c = dirName
    · rw [if_pos hc]
      refine iff_of_false (by simp [SortedMap.keys]) ?_
      rintro ⟨a, ha, hac⟩
      exact hgone p a ha (hac.trans hc)
    · rw [if_neg hc]
      exact hr.others c hc p

end RemoveDir

variable (reader : ArrowKey D K)

theorem removeDeps_indexed (reads : List (Path D K)) (h : d.Indexed) :
    (d.removeDeps reader reads).Indexed ∧
      (d.FiltersExact → (d.removeDeps reader reads).FiltersExact) := by
  induction reads generalizing d with
  | nil => exact ⟨h, id⟩
  | cons path reads ih =>
    obtain ⟨h₁, _, hf₁⟩ := remove_indexed h path reader
    obtain ⟨h₂, hf₂⟩ := ih h₁
    exact ⟨h₂, fun hf => hf₂ (hf₁ hf)⟩

theorem updateNewDeps_indexed (reads : List (Path D K)) (h : d.Indexed) :
    ∃ d', d.updateNewDeps reader reads = some d' ∧ d'.Indexed ∧
      (d.FiltersExact → (∀ p ∈ reads, d.Ready p) → d'.FiltersExact) := by
  induction reads generalizing d with
  | nil => exact ⟨d, rfl, h, fun hf _ => hf⟩
  | cons path reads ih =>
    obtain ⟨d₁, hd₁, h₁, hready₁, hf₁⟩ := set_indexed h path reader
    obtain ⟨d₂, hd₂, h₂, hf₂⟩ := ih h₁
    refine ⟨d₂, ?_, h₂, ?_⟩
    · unfold updateNewDeps at hd₂ ⊢
      rw [foldlM_cons, hd₁]
      exact hd₂
    · intro hf hready
      refine hf₂ (hf₁ hf (hready path mem_cons_self)) ?_
      exact fun p hp => hready₁ p (hready p (mem_cons_of_mem _ hp))

theorem mergeDeps_indexed (oldReads newReads : List (Path D K)) (h : d.Indexed)
    (hs : newReads.Pairwise (· < ·)) :
    ∃ d', mergeDeps reader d oldReads newReads = some d' ∧ d'.Indexed ∧
      (d.FiltersExact → (∀ p ∈ newReads, d.Ready p) → d'.FiltersExact) := by
  fun_induction mergeDeps reader d oldReads newReads with
  | case1 d oldReads =>
    obtain ⟨h₁, hf₁⟩ := removeDeps_indexed reader oldReads h
    exact ⟨_, rfl, h₁, fun hf _ => hf₁ hf⟩
  | case2 d path newReads ih =>
    obtain ⟨d₁, hd₁, h₁, hready₁, hf₁⟩ := set_indexed h path reader
    obtain ⟨d₂, hd₂, h₂, hf₂⟩ := ih d₁ h₁ (pairwise_cons.mp hs).2
    refine ⟨d₂, by rw [hd₁]; exact hd₂, h₂, ?_⟩
    intro hf hready
    refine hf₂ (hf₁ hf (hready path mem_cons_self)) ?_
    exact fun p hp => hready₁ p (hready p (mem_cons_of_mem _ hp))
  | case3 d old oldReads path newReads hlt ih =>
    obtain ⟨h₁, hready₁, hf₁⟩ := remove_indexed h old reader
    obtain ⟨d₂, hd₂, h₂, hf₂⟩ := ih h₁ hs
    refine ⟨d₂, hd₂, h₂, ?_⟩
    intro hf hready
    refine hf₂ (hf₁ hf) ?_
    intro p hp
    refine hready₁ p ?_ (hready p hp)
    rcases mem_cons.mp hp with rfl | hp
    · exact hlt.ne'
    · exact (hlt.trans ((pairwise_cons.mp hs).1 p hp)).ne'
  | case4 d oldReads path newReads hlt ih =>
    obtain ⟨d₂, hd₂, h₂, hf₂⟩ := ih h (pairwise_cons.mp hs).2
    exact ⟨d₂, hd₂, h₂, fun hf hready =>
      hf₂ hf fun p hp => hready p (mem_cons_of_mem _ hp)⟩
  | case5 d old oldReads path newReads hlt hne ih =>
    obtain ⟨d₁, hd₁, h₁, hready₁, hf₁⟩ := set_indexed h path reader
    obtain ⟨d₂, hd₂, h₂, hf₂⟩ := ih d₁ h₁ (pairwise_cons.mp hs).2
    refine ⟨d₂, by rw [hd₁]; exact hd₂, h₂, ?_⟩
    intro hf hready
    refine hf₂ (hf₁ hf (hready path mem_cons_self)) ?_
    exact fun p hp => hready₁ p (hready p (mem_cons_of_mem _ hp))

theorem replaceDeps_indexed (incremental : Bool) (reader : ArrowKey D K)
    (oldReads : List (Path D K)) (newReads : SortedSet (Path D K))
    (h : d.Indexed) :
    ∃ d', d.replaceDeps incremental reader oldReads newReads = some d' ∧ d'.Indexed ∧
      (d.FiltersExact → (∀ p ∈ newReads.keys, d.Ready p) → d'.FiltersExact) := by
  cases incremental with
  | true => exact mergeDeps_indexed reader oldReads newReads.keys h newReads.keys_sorted
  | false =>
    obtain ⟨d₁, hd₁, h₁, hf₁⟩ := updateNewDeps_indexed reader newReads.keys h
    obtain ⟨h₂, hf₂⟩ := removeDeps_indexed reader
      (oldReads.filter fun path => !newReads.containsKey path) h₁
    refine ⟨_, ?_, h₂, fun hf hready => hf₂ (hf₁ hf hready)⟩
    unfold replaceDeps
    simp [hd₁]

/-- `source` holds the filter of `read`, if `read` is filtered. -/
def Importable (source : Deps D K P F) (read : Path D K) : Prop := source.Ready read

theorem importFilter_spec {d source : Deps D K P F} (h : d.Tidy) (read : Path D K)
    (himp : source.Importable read) :
    ∃ d', d.importFilter source read = some d' ∧ d'.Tidy ∧ d'.data = d.data ∧
      d'.idata = d.idata ∧ ∀ q hash id, d'.Registered q hash id ↔
        d.Registered q hash id ∨ filteredPath q hash id = read := by
  obtain ⟨dir, base⟩ := read
  unfold importFilter
  cases base with
  | filteredReadKey key hash₀ id₀ =>
    simp only
    obtain ⟨f, hf, hid⟩ := himp ⟨dir, key⟩ hash₀ id₀ rfl
    have hlookup : ∃ g, ((source.filters.maybeGet ⟨dir, key⟩).bind
        (·.maybeGet hash₀)).bind (·.find? fun f => f.id = id₀) = some g ∧ g.id = id₀ := by
      unfold bucket at hf
      cases hg : source.filters.maybeGet ⟨dir, key⟩ with
      | none => simp [hg] at hf
      | some groups =>
        cases hb : groups.maybeGet hash₀ with
        | none => simp [hg, hb] at hf
        | some b =>
          simp only [hg, hb, Option.getD_some] at hf
          have hsome : (b.find? fun f => f.id = id₀).isSome := by
            rw [List.find?_isSome]
            exact ⟨f, hf, by simpa using hid⟩
          obtain ⟨g, hg'⟩ := Option.isSome_iff_exists.mp hsome
          refine ⟨g, by simp [hb, hg'], ?_⟩
          simpa using List.find?_some hg'
    obtain ⟨g, hg, hgid⟩ := hlookup
    rw [hg]
    simp only
    have hcurrent : ∀ h', d.bucket ⟨dir, key⟩ h' =
      (((d.filters.maybeGet ⟨dir, key⟩).getD .empty).maybeGet h').getD [] := fun _ => rfl
    have hpath : ∀ q hash id, filteredPath q hash id = ⟨dir, .filteredReadKey key hash₀ id₀⟩ ↔
        q = ⟨dir, key⟩ ∧ hash = hash₀ ∧ id = id₀ := by
      intro q hash id
      obtain ⟨qd, qb⟩ := q
      simp [filteredPath, and_assoc]
    by_cases hany : ((((d.filters.maybeGet ⟨dir, key⟩).getD .empty).maybeGet hash₀).getD []).any
        (fun f => decide (f.id = id₀)) = true
    · rw [if_pos hany]
      refine ⟨_, rfl, ⟨h.readers, h.inverse, h.filters⟩, rfl, rfl, ?_⟩
      intro q hash id
      change d.Registered q hash id ↔ _
      refine ⟨Or.inl, ?_⟩
      rintro (hr | he)
      · exact hr
      · obtain ⟨rfl, rfl, rfl⟩ := (hpath q hash id).mp he
        obtain ⟨f', hf', hid'⟩ := any_eq_true.mp hany
        exact ⟨f', hf', by simpa using hid'⟩
    · rw [if_neg hany]
      refine ⟨_, rfl, ⟨h.readers, h.inverse, ?_⟩, rfl, rfl, ?_⟩
      · intro p groups hp
        simp only [SortedMap.maybeGet_set] at hp
        split_ifs at hp with hc
        · cases hp
          refine ⟨SortedMap.items_set_ne_nil _ _ _, ?_⟩
          intro h' b hb
          rw [SortedMap.maybeGet_set] at hb
          split_ifs at hb
          · cases hb
            simp
          · cases hd : d.filters.maybeGet ⟨dir, key⟩ with
            | none =>
              rw [hd] at hb
              cases hb
            | some groups' =>
              rw [hd] at hb
              exact (h.filters _ _ hd).2 h' b hb
        · exact h.filters p groups hp
      · intro q hash id
        rw [hpath]
        unfold Registered
        rw [bucket_setFilters]
        by_cases hq : q = ⟨dir, key⟩
        · subst hq
          rw [if_pos rfl, SortedMap.maybeGet_set]
          by_cases hh : hash = hash₀
          · subst hh
            rw [if_pos rfl, Option.getD_some, ← hcurrent]
            simp only [mem_append, mem_singleton, true_and]
            constructor
            · rintro ⟨f', hf' | rfl, hid'⟩
              · exact Or.inl ⟨f', hf', hid'⟩
              · exact Or.inr (hid'.symm.trans hgid)
            · rintro (⟨f', hf', hid'⟩ | rfl)
              · exact ⟨f', Or.inl hf', hid'⟩
              · exact ⟨g, Or.inr rfl, hgid⟩
          · rw [if_neg hh, ← hcurrent]
            simp [hh]
        · rw [if_neg hq]
          simp [hq]
  | _ =>
    refine ⟨d, rfl, h, rfl, rfl, ?_⟩
    intro q hash id
    simp [filteredPath]

theorem importFilter_indexed {d source : Deps D K P F} (h : d.Indexed) (read : Path D K)
    (himp : source.Importable read) :
    ∃ d', d.importFilter source read = some d' ∧ d'.Indexed := by
  obtain ⟨d', hd', ht, hdata, hidata, _⟩ := importFilter_spec h.tidy read himp
  refine ⟨d', hd', ht, ?_⟩
  intro c hc p
  have hinv := h.inverse c hc p
  unfold inverse readers at hinv ⊢
  rw [hdata, hidata]
  exact hinv

theorem importDep_filtersExact {d source d₁ d₂ : Deps D K P F} (h : d.Tidy)
    (hexact : d.FiltersExact) (read : Path D K) (key : ArrowKey D K)
    (himp : source.Importable read) (h₁ : d.importFilter source read = some d₁)
    (h₂ : d₁.set read key = some d₂) : d₂.FiltersExact := by
  obtain ⟨d', hd', ht', hdata, _, hreg⟩ := importFilter_spec h read himp
  rw [h₁] at hd'
  cases hd'
  obtain ⟨d', hd', _, hf, hread, _⟩ := set_spec ht' read key
  rw [h₂] at hd'
  cases hd'
  have hsame : ∀ p, d₁.readers p = d.readers p := by
    intro p
    unfold readers
    rw [hdata]
  intro q hash id
  have hreg₂ : d₂.Registered q hash id ↔ d₁.Registered q hash id := by
    unfold Registered bucket
    rw [hf]
  rw [hreg₂, hreg, hexact]
  by_cases hp : filteredPath q hash id = read
  · refine iff_of_true (Or.inr hp) ?_
    exact ne_nil_of_mem ((hread _ key).mpr (Or.inl ⟨hp, rfl⟩))
  · have hne : d.readers (filteredPath q hash id) ≠ [] ↔
        d₂.readers (filteredPath q hash id) ≠ [] := by
      refine nonempty_congr ?_
      intro a
      rw [hread, hsame]
      simp [hp]
    rw [← hne]
    simp [hp]

inductive Op (D K P F : Type) [LinearOrder D] [LinearOrder K] where
  | set (path : Path D K) (reader : ArrowKey D K)
  | remove (path : Path D K) (reader : ArrowKey D K)
  | removeDir (dirName : D)
  | importFilter (source : Deps D K P F) (read : Path D K)
  | replaceDeps (incremental : Bool) (reader : ArrowKey D K) (oldReads : List (Path D K))
      (newReads : SortedSet (Path D K))

def Op.apply (d : Deps D K P F) : Op D K P F → Option (Deps D K P F)
  | .set path reader => d.set path reader
  | .remove path reader => some (d.remove path reader)
  | .removeDir dirName => some (d.removeDir dirName)
  | .importFilter source read => d.importFilter source read
  | .replaceDeps incremental reader oldReads newReads =>
    d.replaceDeps incremental reader oldReads newReads

def Op.Defined : Op D K P F → Prop
  | .importFilter source read => source.Importable read
  | _ => True

def run (d : Deps D K P F) (ops : List (Op D K P F)) : Option (Deps D K P F) :=
  ops.foldlM Op.apply d

theorem apply_indexed (h : d.Indexed) (op : Op D K P F) (hop : op.Defined) :
    ∃ d', op.apply d = some d' ∧ d'.Indexed := by
  cases op with
  | set path reader =>
    obtain ⟨d', hd', h', _⟩ := set_indexed h path reader
    exact ⟨d', hd', h'⟩
  | remove path reader => exact ⟨_, rfl, (remove_indexed h path reader).1⟩
  | removeDir dirName => exact ⟨_, rfl, (removeDir_indexed dirName h).1⟩
  | importFilter source read => exact importFilter_indexed h read hop
  | replaceDeps incremental reader oldReads newReads =>
    obtain ⟨d', hd', h', _⟩ := replaceDeps_indexed incremental reader oldReads newReads h
    exact ⟨d', hd', h'⟩

theorem run_indexed (h : d.Indexed) (ops : List (Op D K P F))
    (hops : ∀ op ∈ ops, op.Defined) : ∃ d', d.run ops = some d' ∧ d'.Indexed := by
  induction ops generalizing d with
  | nil => exact ⟨d, rfl, h⟩
  | cons op ops ih =>
    obtain ⟨d₁, hd₁, h₁⟩ := apply_indexed h op (hops op mem_cons_self)
    obtain ⟨d₂, hd₂, h₂⟩ := ih h₁ fun op' hop' => hops op' (mem_cons_of_mem _ hop')
    refine ⟨d₂, ?_, h₂⟩
    unfold run at hd₂ ⊢
    rw [foldlM_cons, hd₁]
    exact hd₂

/-- How a context uses the index: a filtered path is read only while its filter is
registered, and a filter is imported for a reader that is set next. -/
inductive Disciplined : Deps D K P F → List (Op D K P F) → Prop
  | nil (d : Deps D K P F) : Disciplined d []
  | importDep (d source : Deps D K P F) (read : Path D K) (reader : ArrowKey D K)
      (ops : List (Op D K P F))
      (rest : ∀ d₁ d₂, d.importFilter source read = some d₁ → d₁.set read reader = some d₂ →
        Disciplined d₂ ops) :
      Disciplined d (.importFilter source read :: .set read reader :: ops)
  | set (d : Deps D K P F) (path : Path D K) (reader : ArrowKey D K) (ops : List (Op D K P F))
      (ready : d.Ready path) (rest : ∀ d', d.set path reader = some d' → Disciplined d' ops) :
      Disciplined d (.set path reader :: ops)
  | remove (d : Deps D K P F) (path : Path D K) (reader : ArrowKey D K) (ops : List (Op D K P F))
      (rest : Disciplined (d.remove path reader) ops) : Disciplined d (.remove path reader :: ops)
  | removeDir (d : Deps D K P F) (dirName : D) (ops : List (Op D K P F))
      (rest : Disciplined (d.removeDir dirName) ops) : Disciplined d (.removeDir dirName :: ops)
  | replaceDeps (d : Deps D K P F) (incremental : Bool) (reader : ArrowKey D K)
      (oldReads : List (Path D K)) (newReads : SortedSet (Path D K)) (ops : List (Op D K P F))
      (ready : ∀ p ∈ newReads.keys, d.Ready p)
      (rest : ∀ d', d.replaceDeps incremental reader oldReads newReads = some d' →
        Disciplined d' ops) :
      Disciplined d (.replaceDeps incremental reader oldReads newReads :: ops)

theorem run_filtersExact {ops : List (Op D K P F)} (hdis : Disciplined d ops)
    (h : d.Indexed) (hexact : d.FiltersExact) (hops : ∀ op ∈ ops, op.Defined) {d' : Deps D K P F}
    (hrun : d.run ops = some d') : d'.FiltersExact := by
  unfold run at hrun
  induction hdis generalizing d' with
  | nil d =>
    cases hrun
    exact hexact
  | importDep d source read reader ops _ ih =>
    have himp : source.Importable read := hops _ mem_cons_self
    obtain ⟨d₁, hd₁, h₁⟩ := importFilter_indexed h read himp
    obtain ⟨d₂, hd₂, h₂, _⟩ := set_indexed h₁ read reader
    have hexact₂ := importDep_filtersExact h.tidy hexact read reader himp hd₁ hd₂
    simp only [foldlM_cons, Op.apply, hd₁, hd₂, Option.bind_eq_bind, Option.bind_some] at hrun
    refine ih d₁ d₂ hd₁ hd₂ h₂ hexact₂ ?_ hrun
    exact fun op hop => hops op (mem_cons_of_mem _ (mem_cons_of_mem _ hop))
  | set d path reader ops ready _ ih =>
    obtain ⟨d₁, hd₁, h₁, _, hf₁⟩ := set_indexed h path reader
    simp only [foldlM_cons, Op.apply, hd₁, Option.bind_eq_bind, Option.bind_some] at hrun
    exact ih d₁ hd₁ h₁ (hf₁ hexact ready)
      (fun op hop => hops op (mem_cons_of_mem _ hop)) hrun
  | remove d path reader ops _ ih =>
    obtain ⟨h₁, _, hf₁⟩ := remove_indexed h path reader
    exact ih h₁ (hf₁ hexact) (fun op hop => hops op (mem_cons_of_mem _ hop)) hrun
  | removeDir d dirName ops _ ih =>
    obtain ⟨h₁, hf₁⟩ := removeDir_indexed dirName h
    exact ih h₁ (hf₁ hexact) (fun op hop => hops op (mem_cons_of_mem _ hop)) hrun
  | replaceDeps d incremental reader oldReads newReads ops ready _ ih =>
    obtain ⟨d₁, hd₁, h₁, hf₁⟩ := replaceDeps_indexed incremental reader oldReads newReads h
    simp only [foldlM_cons, Op.apply, hd₁, Option.bind_eq_bind, Option.bind_some] at hrun
    exact ih d₁ hd₁ h₁ (hf₁ hexact ready)
      (fun op hop => hops op (mem_cons_of_mem _ hop)) hrun

/-- After any operations from the empty index, the inverse index lists for each child
exactly the paths it reads, and no table keeps an empty entry; if filtered paths
are read under their filters, the filter table is exact too. -/
theorem run_consistent (compact blocks : Bool) (ops : List (Op D K P F))
    (hops : ∀ op ∈ ops, op.Defined) :
    ∃ d', (empty compact blocks).run ops = some d' ∧
      (∀ child path, path ∈ d'.inverse child ↔ ∃ a ∈ d'.readers path, a.childName = child) ∧
      (∀ child s, d'.idata.maybeGet child = some s → s.keys ≠ []) ∧
      (∀ path r, d'.data.maybeGet path = some r → r.values ≠ []) ∧
      (Disciplined (empty compact blocks) ops →
        ∀ path hash id, d'.Registered path hash id ↔
          (d'.data.maybeGet (filteredPath path hash id)).isSome = true) := by
  obtain ⟨d', hrun, h⟩ := run_indexed (indexed_empty compact blocks) ops hops
  refine ⟨d', hrun, fun c p => h.inverse c trivial p, h.tidy.inverse,
    fun p r hr => (h.tidy.readers p r hr).2, ?_⟩
  intro hdis path hash id
  have hexact := run_filtersExact hdis (indexed_empty compact blocks)
    (filtersExact_empty compact blocks) hops hrun
  rw [hexact path hash id]
  unfold readers
  cases hd : d'.data.maybeGet (filteredPath path hash id) with
  | none => simp
  | some r => simpa using (h.tidy.readers _ r hd).2

/-- A reader of row 2 of directory 0 while it is mapped into directory 1. -/
def sampleReader : ArrowKey ℕ ℕ := ⟨0, 1, 2⟩

def samplePath : Path ℕ ℕ := ⟨5, .key 7⟩

def sampleFork : Deps ℕ ℕ ℕ ℕ :=
  { (empty false false : Deps ℕ ℕ ℕ ℕ) with
    filters := .singleton samplePath (.singleton 9 [⟨1, 9, 0, []⟩]) }

theorem sampleFork_registered : sampleFork.Registered samplePath 9 1 :=
  ⟨⟨1, 9, 0, []⟩, by simp [bucket, sampleFork, SortedMap.maybeGet_singleton], rfl⟩

theorem sampleFork_importable : sampleFork.Importable (filteredPath samplePath 9 1) := by
  intro q hash id he
  obtain ⟨qd, qb⟩ := q
  simp only [filteredPath, samplePath, Path.mk.injEq, ReadKey.filteredReadKey.injEq] at he
  obtain ⟨rfl, rfl, rfl, rfl⟩ := he
  exact sampleFork_registered

theorem run_consistent_import :
    ∃ d', (empty true true).run [.importFilter sampleFork (filteredPath samplePath 9 1),
        .set (filteredPath samplePath 9 1) sampleReader, .removeDir 3] = some d' ∧
      (∀ path hash id, d'.Registered path hash id ↔
        (d'.data.maybeGet (filteredPath path hash id)).isSome = true) := by
  obtain ⟨d', hrun, _, _, _, hf⟩ := run_consistent true true
    [.importFilter sampleFork (filteredPath samplePath 9 1),
      .set (filteredPath samplePath 9 1) sampleReader, .removeDir 3] (by
    intro op hop
    simp only [mem_cons, not_mem_nil, or_false] at hop
    rcases hop with rfl | rfl | rfl
    · exact sampleFork_importable
    · trivial
    · trivial)
  refine ⟨d', hrun, hf ?_⟩
  refine .importDep _ _ _ _ _ ?_
  intro d₁ d₂ _ _
  exact .removeDir _ _ _ (.nil _)

/-- Outside that use the filter table can drift: a filtered path set without a filter,
and a filter imported without a reader. -/
theorem filters_drift :
    (∃ d' : Deps ℕ ℕ ℕ ℕ, (empty false false).run
        [.set (filteredPath samplePath 9 1) sampleReader] = some d' ∧
      (d'.data.maybeGet (filteredPath samplePath 9 1)).isSome = true ∧
      ¬d'.Registered samplePath 9 1) ∧
    ∃ d' : Deps ℕ ℕ ℕ ℕ, (empty false false).run
        [.importFilter sampleFork (filteredPath samplePath 9 1)] = some d' ∧
      d'.Registered samplePath 9 1 ∧
      d'.data.maybeGet (filteredPath samplePath 9 1) = none := by
  constructor
  · refine ⟨_, rfl, ?_, ?_⟩
    · rfl
    · rintro ⟨f, hf, _⟩
      cases hf
  · obtain ⟨d', hd', _, hdata, _, hreg⟩ := importFilter_spec (tidy_empty false false)
      (filteredPath samplePath 9 1) sampleFork_importable
    refine ⟨d', ?_, (hreg _ _ _).mpr (Or.inr rfl), by rw [hdata]; rfl⟩
    simp [run, Op.apply, hd']

end Deps
end SkipPlatform.StoreDeps
