import SkipPlatform.StoreDeps

set_option autoImplicit false

/-! Each operation of `Deps`, described by what it does to the readers of a path, to
the paths of a child and to the registered filters. -/
namespace SkipPlatform.StoreReaders.DependencyReaders
variable {D K : Type} [LinearOrder D] [LinearOrder K]

def Valid (r : DependencyReaders D K) : Prop := r.Represents {x | x ∈ r.values}

variable {r : DependencyReaders D K}

theorem Represents.valid {s : Set (ArrowKey D K)}
    (h : r.Represents s) : r.Valid :=
  ⟨h.ascending, fun _ => Iff.rfl, h.size, h.short, h.blocks⟩

theorem valid_empty (compact blocks : Bool) :
    (empty compact blocks : DependencyReaders D K).Valid := (empty_represents compact blocks).valid

theorem values_empty (compact blocks : Bool) :
    (empty compact blocks : DependencyReaders D K).values = [] := by
  cases compact <;> cases blocks <;> rfl

theorem Valid.set {r : DependencyReaders D K} (h : r.Valid) (key : ArrowKey D K) (blocks : Bool) :
    ∃ r', r.set key blocks = some r' ∧ r'.Valid ∧
      ∀ x, x ∈ r'.values ↔ x = key ∨ x ∈ r.values := by
  obtain ⟨r', hr', hrep⟩ := set_represents h key blocks
  exact ⟨r', hr', hrep.valid, hrep.mem⟩

theorem Valid.remove {r : DependencyReaders D K} (h : r.Valid) (key : ArrowKey D K)
    (compact : Bool) : (r.remove key compact).Valid ∧
      ∀ x, x ∈ (r.remove key compact).values ↔ x ∈ r.values ∧ x ≠ key := by
  have hrep := remove_represents h key compact
  exact ⟨hrep.valid, hrep.mem⟩

theorem Valid.isEmpty_iff (h : r.Valid) :
    r.isEmpty = true ↔ r.values = [] := by
  unfold isEmpty
  rw [beq_iff_eq, h.size, List.length_eq_zero_iff]

theorem hasChild_iff {child : D} :
    r.hasChild child = true ↔ ∃ x ∈ r.values, x.childName = child := by
  simp [hasChild]

theorem Valid.hasChild_of_hasSibling (h : r.Valid)
    {a : ArrowKey D K} (hs : r.hasSibling a = true) : r.hasChild a.childName = true := by
  rw [h.hasSibling_eq, List.any_eq_true] at hs
  obtain ⟨x, hx, ha⟩ := hs
  rw [decide_eq_true_iff, ArrowKey.arrow_eq_iff] at ha
  exact hasChild_iff.mpr ⟨x, hx, ha.2.symm⟩

end SkipPlatform.StoreReaders.DependencyReaders

namespace SkipPlatform.StoreDeps
open StoreReaders
variable {D K P F : Type} [LinearOrder D] [LinearOrder K]

/-- The path under which a filtered read of `path` is indexed. -/
def filteredPath (path : Path D K) (projectionHash id : ℤ) : Path D K :=
  ⟨path.dirName, .filteredReadKey path.baseName projectionHash id⟩

namespace Deps

def inverse (d : Deps D K P F) (child : D) : List (Path D K) :=
  ((d.idata.maybeGet child).getD .empty).keys

def bucket (d : Deps D K P F) (path : Path D K) (projectionHash : ℤ) : List (ReadFilter P F) :=
  (((d.filters.maybeGet path).getD .empty).maybeGet projectionHash).getD []

def Registered (d : Deps D K P F) (path : Path D K) (projectionHash id : ℤ) : Prop :=
  ∃ f ∈ d.bucket path projectionHash, f.id = id

structure Tidy (d : Deps D K P F) : Prop where
  readers : ∀ path r, d.data.maybeGet path = some r → r.Valid ∧ r.values ≠ []
  inverse : ∀ child s, d.idata.maybeGet child = some s → s.keys ≠ []
  filters : ∀ path groups, d.filters.maybeGet path = some groups →
    groups.items ≠ [] ∧ ∀ h b, groups.maybeGet h = some b → b ≠ []

theorem tidy_empty (compact blocks : Bool) : (empty compact blocks : Deps D K P F).Tidy :=
  ⟨(fun _ _ h => nomatch h), (fun _ _ h => nomatch h), fun _ _ h => nomatch h⟩

variable (d : Deps D K P F)

theorem mem_inverse_iset (n c : D) (a p : Path D K) :
    p ∈ (d.iset n a).inverse c ↔ c = n ∧ p = a ∨ p ∈ d.inverse c := by
  unfold inverse iset
  rw [SortedMap.maybeGet_set]
  by_cases hc : c = n
  · subst hc
    simp only [if_true, Option.getD_some, SortedMap.mem_keys, SortedMap.maybeGet_set]
    by_cases hp : p = a <;> simp [hp]
  · simp [hc]

theorem mem_inverse_iremove (n c : D) (a p : Path D K) :
    p ∈ (d.iremove n a).inverse c ↔ p ∈ d.inverse c ∧ ¬(c = n ∧ p = a) := by
  unfold inverse iremove
  simp only
  have hremove : ∀ s : SortedSet (Path D K), p ∈ (s.remove a).keys ↔ p ∈ s.keys ∧ ¬p = a := by
    intro s
    simp only [SortedMap.mem_keys, SortedMap.maybeGet_remove]
    by_cases hp : p = a <;> simp [hp]
  by_cases hc : c = n
  · subst hc
    by_cases he : (((d.idata.maybeGet c).getD .empty).remove a).isEmpty = true
    · have hnil : (((d.idata.maybeGet c).getD .empty).remove a).keys = [] := by
        rw [SortedMap.keys, SortedMap.isEmpty_iff.mp he]
        rfl
      have hno : ¬(p ∈ ((d.idata.maybeGet c).getD .empty).keys ∧ ¬p = a) := by
        rw [← hremove, hnil]
        exact List.not_mem_nil
      rw [if_pos he, SortedMap.maybeGet_remove, if_pos rfl]
      refine iff_of_false (by simp [SortedMap.keys]) ?_
      intro h
      exact hno ⟨h.1, fun hp => h.2 ⟨rfl, hp⟩⟩
    · rw [if_neg he, SortedMap.maybeGet_set, if_pos rfl, Option.getD_some, hremove]
      simp
  · by_cases he : (((d.idata.maybeGet n).getD .empty).remove a).isEmpty = true
    · rw [if_pos he, SortedMap.maybeGet_remove, if_neg hc]
      simp [hc]
    · rw [if_neg he, SortedMap.maybeGet_set, if_neg hc]
      simp [hc]

theorem tidy_iset {d : Deps D K P F} (h : d.Tidy) (n : D) (a : Path D K) : (d.iset n a).Tidy := by
  refine ⟨h.readers, ?_, h.filters⟩
  intro c s hs
  unfold iset at hs
  rw [SortedMap.maybeGet_set] at hs
  split_ifs at hs with hc
  · cases hs
    have hmem : a ∈ (((d.idata.maybeGet n).getD .empty).set a ()).keys := by
      rw [SortedMap.mem_keys, SortedMap.maybeGet_set, if_pos rfl]
      exact ⟨(), rfl⟩
    exact List.ne_nil_of_mem hmem
  · exact h.inverse c s hs

theorem tidy_iremove {d : Deps D K P F} (h : d.Tidy) (n : D) (a : Path D K) :
    (d.iremove n a).Tidy := by
  unfold iremove
  simp only
  split_ifs with he
  · refine ⟨h.readers, ?_, h.filters⟩
    intro c s hs
    simp only [SortedMap.maybeGet_remove] at hs
    split_ifs at hs with hc
    exact h.inverse c s hs
  · refine ⟨h.readers, ?_, h.filters⟩
    intro c s hs
    simp only [SortedMap.maybeGet_set] at hs
    split_ifs at hs with hc
    · cases hs
      intro hnil
      rw [SortedMap.keys, List.map_eq_nil_iff] at hnil
      exact he (SortedMap.isEmpty_iff.mpr hnil)
    · exact h.inverse c s hs

@[simp] theorem readers_iset (n : D) (a p : Path D K) :
    (d.iset n a).readers p = d.readers p := rfl

@[simp] theorem readers_iremove (n : D) (a p : Path D K) :
    (d.iremove n a).readers p = d.readers p := by
  unfold iremove
  simp only
  split_ifs <;> rfl

@[simp] theorem filters_iremove (n : D) (a : Path D K) :
    (d.iremove n a).filters = d.filters := by
  unfold iremove
  simp only
  split_ifs <;> rfl

theorem Tidy.start {d : Deps D K P F} (h : d.Tidy) (path : Path D K) :
    ((d.data.maybeGet path).getD (.empty d.compactReaders d.blockReaders)).Valid ∧
      ((d.data.maybeGet path).getD (.empty d.compactReaders d.blockReaders)).values =
        d.readers path := by
  unfold Deps.readers
  cases hd : d.data.maybeGet path with
  | none => exact ⟨DependencyReaders.valid_empty _ _, DependencyReaders.values_empty _ _⟩
  | some r => exact ⟨(h.readers path r hd).1, rfl⟩

variable (path p : Path D K)

theorem readers_setData (r : DependencyReaders D K) :
    readers { d with data := d.data.set path r } p =
      if p = path then r.values else d.readers p := by
  unfold readers
  simp only [SortedMap.maybeGet_set]
  split_ifs <;> rfl

theorem tidy_setData {d : Deps D K P F} (h : d.Tidy) (path : Path D K)
    (r : DependencyReaders D K) (hr : r.Valid) (hne : r.values ≠ []) :
    Tidy { d with data := d.data.set path r } := by
  refine ⟨?_, h.inverse, h.filters⟩
  intro p r' hr'
  simp only [SortedMap.maybeGet_set] at hr'
  split_ifs at hr' with hp
  · cases hr'
    exact ⟨hr, hne⟩
  · exact h.readers p r' hr'

theorem set_spec {d : Deps D K P F} (h : d.Tidy) (path : Path D K) (key : ArrowKey D K) :
    ∃ d', d.set path key = some d' ∧ d'.Tidy ∧ d'.filters = d.filters ∧
      (∀ p a, a ∈ d'.readers p ↔ p = path ∧ a = key ∨ a ∈ d.readers p) ∧
      ∀ c p, p ∈ d'.inverse c ↔ c = key.childName ∧ p = path ∨ p ∈ d.inverse c := by
  obtain ⟨hvalid, hvalues⟩ := h.start path
  obtain ⟨r, hr, hvalid', hmem⟩ := hvalid.set key d.blockReaders
  rw [hvalues] at hmem
  have hne : r.values ≠ [] := List.ne_nil_of_mem ((hmem key).mpr (Or.inl rfl))
  refine ⟨iset { d with data := d.data.set path r } key.childName path, ?_,
    tidy_iset (tidy_setData h path r hvalid' hne) _ _, rfl, ?_, ?_⟩
  · unfold set
    simp only [hr, Option.map_some]
  · intro p a
    rw [readers_iset, readers_setData]
    by_cases hp : p = path
    · simp [hp, hmem]
    · simp [hp]
  · intro c p
    rw [mem_inverse_iset]
    rfl

theorem bucket_setFilters
    (groups : SortedMap ℤ (List (ReadFilter P F))) (n h : ℤ) :
    bucket { d with filters := d.filters.set path groups, nextFilterID := n } p h =
      if p = path then (groups.maybeGet h).getD [] else d.bucket p h := by
  unfold bucket
  simp only [SortedMap.maybeGet_set]
  split_ifs <;> rfl

theorem bucket_removeFilter (hash id h : ℤ) :
    (d.removeFilter path hash id).bucket p h =
      if p = path ∧ h = hash then (d.bucket p h).filter fun f => decide (f.id ≠ id)
      else d.bucket p h := by
  unfold removeFilter
  cases hg : d.filters.maybeGet path with
  | none =>
    split_ifs with hc
    · obtain ⟨rfl, rfl⟩ := hc
      simp [bucket, hg]
    · rfl
  | some groups =>
    simp only
    cases hb : groups.maybeGet hash with
    | none =>
      split_ifs with hc
      · obtain ⟨rfl, rfl⟩ := hc
        simp [bucket, hg, hb]
      · simp
    | some b =>
      simp only
      have hold : ∀ h', d.bucket path h' = (groups.maybeGet h').getD [] := by
        intro h'
        simp [bucket, hg]
      have hgroups : ∀ g2 : SortedMap ℤ (List (ReadFilter P F)), ∀ h',
          bucket { d with filters :=
            if g2.isEmpty then d.filters.remove path else d.filters.set path g2 } path h' =
          (g2.maybeGet h').getD [] := by
        intro g2 h'
        unfold bucket
        by_cases he : g2.isEmpty = true
        · have : g2.maybeGet h' = none := by
            rw [SortedMap.maybeGet_eq_none, SortedMap.isEmpty_iff.mp he]
            simp
          simp [he, SortedMap.maybeGet_remove, this]
        · simp [he, SortedMap.maybeGet_set]
      by_cases hp : p = path
      · subst hp
        rw [hgroups, hold]
        by_cases hh : h = hash
        · subst hh
          have hc : p = p ∧ h = h := ⟨rfl, rfl⟩
          rw [if_pos hc, hb, Option.getD_some]
          split_ifs with he
          · rw [SortedMap.maybeGet_remove, if_pos rfl]
            exact (List.isEmpty_iff.mp he).symm
          · rw [SortedMap.maybeGet_set, if_pos rfl]
            rfl
        · have hc : ¬(p = p ∧ h = hash) := fun hc => hh hc.2
          rw [if_neg hc]
          split_ifs with he
          · rw [SortedMap.maybeGet_remove, if_neg hh]
          · rw [SortedMap.maybeGet_set, if_neg hh]
      · have hc : ¬(p = path ∧ h = hash) := fun hc => hp hc.1
        rw [if_neg hc]
        unfold bucket
        split_ifs <;> simp [SortedMap.maybeGet_remove, SortedMap.maybeGet_set, hp]

theorem tidy_removeFilter {d : Deps D K P F} (h : d.Tidy) (path : Path D K) (hash id : ℤ) :
    (d.removeFilter path hash id).Tidy := by
  unfold removeFilter
  cases hg : d.filters.maybeGet path with
  | none => exact h
  | some groups =>
    simp only
    cases hb : groups.maybeGet hash with
    | none => exact h
    | some b =>
      refine ⟨h.readers, h.inverse, ?_⟩
      intro p g hp
      simp only at hp
      have hgroups := h.filters path groups hg
      split_ifs at hp with h1 h2 h2
      · rw [SortedMap.maybeGet_remove] at hp
        split_ifs at hp
        exact h.filters p g hp
      · rw [SortedMap.maybeGet_set] at hp
        split_ifs at hp
        · cases hp
          refine ⟨fun hnil => h2 (SortedMap.isEmpty_iff.mpr hnil), ?_⟩
          intro h' b' hb'
          rw [SortedMap.maybeGet_remove] at hb'
          split_ifs at hb'
          exact hgroups.2 h' b' hb'
        · exact h.filters p g hp
      · rw [SortedMap.maybeGet_remove] at hp
        split_ifs at hp
        exact h.filters p g hp
      · rw [SortedMap.maybeGet_set] at hp
        split_ifs at hp
        · cases hp
          refine ⟨fun hnil => h2 (SortedMap.isEmpty_iff.mpr hnil), ?_⟩
          intro h' b' hb'
          rw [SortedMap.maybeGet_set] at hb'
          split_ifs at hb'
          · cases hb'
            exact fun hnil => h1 (List.isEmpty_iff.mpr hnil)
          · exact hgroups.2 h' b' hb'
        · exact h.filters p g hp

theorem removeFilter_data (path : Path D K) (hash id : ℤ) :
    (d.removeFilter path hash id).data = d.data ∧
      (d.removeFilter path hash id).idata = d.idata := by
  unfold removeFilter
  split
  · exact ⟨rfl, rfl⟩
  · split <;> exact ⟨rfl, rfl⟩

theorem readers_removeData :
    readers { d with data := d.data.remove path } p = if p = path then [] else d.readers p := by
  unfold readers
  simp only [SortedMap.maybeGet_remove]
  split_ifs <;> rfl

theorem tidy_removeData {d : Deps D K P F} (h : d.Tidy) (path : Path D K) :
    Tidy { d with data := d.data.remove path } := by
  refine ⟨?_, h.inverse, h.filters⟩
  intro p r hr
  simp only [SortedMap.maybeGet_remove] at hr
  split_ifs at hr
  exact h.readers p r hr

theorem forgetPath_spec {d : Deps D K P F} (h : d.Tidy) (path : Path D K) :
    (d.forgetPath path).Tidy ∧ (d.forgetPath path).idata = d.idata ∧
      (∀ p, (d.forgetPath path).readers p = if p = path then [] else d.readers p) ∧
      ∀ q hash id, (d.forgetPath path).Registered q hash id ↔
        d.Registered q hash id ∧ filteredPath q hash id ≠ path := by
  obtain ⟨dir, base⟩ := path
  unfold forgetPath
  have hdata := tidy_removeData h ⟨dir, base⟩
  have hreaders := readers_removeData d ⟨dir, base⟩
  cases base with
  | filteredReadKey source hash₀ id₀ =>
    obtain ⟨h1, h2⟩ := removeFilter_data
      { d with data := d.data.remove ⟨dir, .filteredReadKey source hash₀ id₀⟩ }
      ⟨dir, source⟩ hash₀ id₀
    refine ⟨tidy_removeFilter hdata _ _ _, h2, ?_, ?_⟩
    · intro p
      rw [← hreaders p]
      unfold readers
      simp only [h1]
    · intro q hash id
      unfold Registered
      rw [bucket_removeFilter]
      have hb : bucket { d with data := d.data.remove ⟨dir, .filteredReadKey source hash₀ id₀⟩ }
          q hash = d.bucket q hash := rfl
      rw [hb]
      split_ifs with hc
      · obtain ⟨rfl, rfl⟩ := hc
        simp only [List.mem_filter, decide_eq_true_eq, filteredPath, ne_eq, Path.mk.injEq,
          ReadKey.filteredReadKey.injEq, true_and]
        constructor
        · rintro ⟨f, ⟨hf, hne⟩, rfl⟩
          exact ⟨⟨f, hf, rfl⟩, hne⟩
        · rintro ⟨⟨f, hf, rfl⟩, hne⟩
          exact ⟨f, ⟨hf, hne⟩, rfl⟩
      · refine ⟨fun hr => ⟨hr, ?_⟩, And.left⟩
        intro he
        simp only [filteredPath, Path.mk.injEq, ReadKey.filteredReadKey.injEq] at he
        exact hc ⟨by rw [← he.1, ← he.2.1], he.2.2.1⟩
  | _ =>
    refine ⟨hdata, rfl, hreaders, ?_⟩
    intro q hash id
    refine ⟨fun hr => ⟨hr, ?_⟩, And.left⟩
    intro he
    simp [filteredPath] at he

theorem removeInternal_spec {d : Deps D K P F} (h : d.Tidy) (path : Path D K)
    (key : ArrowKey D K) (skip : Bool) :
    (d.removeInternal path key skip).Tidy ∧
      (∀ p a, a ∈ (d.removeInternal path key skip).readers p ↔
        a ∈ d.readers p ∧ ¬(p = path ∧ a = key)) ∧
      (∀ c p, p ∈ (d.removeInternal path key skip).inverse c ↔
        p ∈ d.inverse c ∧ ¬(c = key.childName ∧ p = path ∧ skip = false ∧
          ∀ a ∈ (d.removeInternal path key skip).readers path, a.childName ≠ c)) ∧
      ∀ q hash id, (d.removeInternal path key skip).Registered q hash id ↔
        d.Registered q hash id ∧ ¬(filteredPath q hash id = path ∧
          (d.removeInternal path key skip).readers path = []) := by
  obtain ⟨hvalid, hvalues⟩ := h.start path
  obtain ⟨hvalid', hmem⟩ := hvalid.remove key d.compactReaders
  rw [hvalues] at hmem
  unfold removeInternal
  simp only
  generalize hset : ((d.data.maybeGet path).getD (.empty d.compactReaders d.blockReaders)).remove
    key d.compactReaders = set at hvalid' hmem
  have hmid : ∃ d₁ : Deps D K P F,
      (if set.isEmpty = true then d.forgetPath path else { d with data := d.data.set path set }) = d₁ ∧
      d₁.Tidy ∧ d₁.idata = d.idata ∧
      (∀ p, d₁.readers p = if p = path then set.values else d.readers p) ∧
      ∀ q hash id, d₁.Registered q hash id ↔
        d.Registered q hash id ∧ ¬(filteredPath q hash id = path ∧ set.values = []) := by
    by_cases he : set.isEmpty = true
    · have hnil := hvalid'.isEmpty_iff.mp he
      obtain ⟨h1, h2, h3, h4⟩ := forgetPath_spec h path
      refine ⟨_, if_pos he, h1, h2, ?_, ?_⟩
      · rw [hnil]
        exact h3
      · intro q hash id
        rw [h4, hnil]
        simp
    · have hne : set.values ≠ [] := fun hnil => he (hvalid'.isEmpty_iff.mpr hnil)
      refine ⟨_, if_neg he, tidy_setData h path set hvalid' hne, rfl,
        fun p => readers_setData d path p set, ?_⟩
      intro q hash id
      change d.Registered q hash id ↔ _
      simp [hne]
  obtain ⟨d₁, hd₁, ht, hidata, hreaders, hreg⟩ := hmid
  rw [hd₁]
  have hinv : ∀ c, d₁.inverse c = d.inverse c := by
    intro c
    unfold inverse
    rw [hidata]
  have hpath : d₁.readers path = set.values := by rw [hreaders, if_pos rfl]
  have hread : ∀ p a, a ∈ d₁.readers p ↔ a ∈ d.readers p ∧ ¬(p = path ∧ a = key) := by
    intro p a
    rw [hreaders]
    by_cases hp : p = path
    · subst hp
      rw [if_pos rfl, hmem]
      simp
    · simp [hp]
  by_cases hc : (!skip && !set.hasSibling key && !set.hasChild key.childName) = true
  · rw [if_pos hc]
    simp only [Bool.and_eq_true, Bool.not_eq_true'] at hc
    have hnone : ∀ a ∈ set.values, a.childName ≠ key.childName := by
      intro a ha hchild
      have := DependencyReaders.hasChild_iff.mpr ⟨a, ha, hchild⟩
      rw [hc.2] at this
      cases this
    refine ⟨tidy_iremove ht _ _, ?_, ?_, ?_⟩
    · intro p a
      rw [readers_iremove]
      exact hread p a
    · intro c p
      rw [mem_inverse_iremove, hinv, readers_iremove, hpath]
      refine and_congr_right fun _ => not_congr ?_
      constructor
      · rintro ⟨rfl, rfl⟩
        exact ⟨rfl, rfl, hc.1.1, hnone⟩
      · exact fun hx => ⟨hx.1, hx.2.1⟩
    · intro q hash id
      rw [readers_iremove, hpath]
      unfold Registered bucket at hreg ⊢
      rw [filters_iremove]
      exact hreg q hash id
  · rw [if_neg hc]
    refine ⟨ht, hread, ?_, ?_⟩
    · intro c p
      rw [hinv, hpath]
      refine ⟨fun hp => ⟨hp, ?_⟩, And.left⟩
      rintro ⟨rfl, rfl, hskip, hnone⟩
      have hchild : set.hasChild key.childName = false := by
        rw [Bool.eq_false_iff]
        intro hx
        obtain ⟨a, ha, hac⟩ := DependencyReaders.hasChild_iff.mp hx
        exact hnone a ha hac
      have hsib : set.hasSibling key = false := by
        rw [Bool.eq_false_iff]
        intro hx
        have := hvalid'.hasChild_of_hasSibling hx
        rw [hchild] at this
        cases this
      exact hc (by simp [hskip, hchild, hsib])
    · rw [hpath]
      exact hreg

end Deps
end SkipPlatform.StoreDeps
