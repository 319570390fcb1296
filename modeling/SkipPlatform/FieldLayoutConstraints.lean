import Mathlib.Data.Finset.Card
import Mathlib.Data.Finset.SDiff
import SkipPlatform.FieldLayout
import SkipPlatform.Fuel

set_option autoImplicit false

/-! The constraints of the classes that are connected by fields: every field of a class is in one
constraint, with all classes that have it from the same place. -/
namespace SkipPlatform.FieldLayout
open List

variable {ID N : Type} [LinearOrder ID] [DecidableEq N]

/-- Classes with their subtype relation. A subtype has all fields of its supertypes, and a class
with a fixed layout has no other super- and subtypes. `ids` are the classes that are laid out:
with each of them those that it shares a field with. -/
structure ClassGraph (ID N : Type) [LinearOrder ID] [DecidableEq N] where
  sp : Specializer ID N
  ids : Finset ID
  own : ∀ id, (sp.sclass id).id = id
  names : ∀ id, ((sp.sclass id).fields.map SField.name).Nodup
  closed : ∀ a ∈ ids, ∀ b, b ∈ sp.supertypes a ∨ b ∈ sp.subtypes a →
    ∀ name, hasField sp a name = true → hasField sp b name = true → b ∈ ids
  inverse : ∀ a b, b ∈ sp.supertypes a ↔ a ∈ sp.subtypes b
  inherits : ∀ a, ∀ b ∈ sp.supertypes a, ∀ f ∈ (sp.sclass b).fields,
    ∃ f' ∈ (sp.sclass a).fields, f'.name = f.name ∧ fieldType sp f' = fieldType sp f
  fixed : ∀ a b, (sp.sclass a).cppExport = true → b ∈ sp.supertypes a ∨ b ∈ sp.subtypes a → b = a

namespace ClassGraph

variable (g : ClassGraph ID N)

def Has (id : ID) (name : N) (typ : ScalarType) : Prop :=
  ∃ f ∈ (g.sp.sclass id).fields, f.name = name ∧ fieldType g.sp f = typ

/-- A class above or below another one that has a field of the name, too. -/
def Adjacent (name : N) (a b : ID) : Prop :=
  (b ∈ g.sp.supertypes a ∨ b ∈ g.sp.subtypes a) ∧ hasField g.sp b name = true

variable {g}

theorem hasField_iff {id : ID} {name : N} :
    hasField g.sp id name = true ↔ ∃ f ∈ (g.sp.sclass id).fields, f.name = name := by
  unfold hasField SClass.maybeGetField
  rw [List.find?_isSome]
  simp only [decide_eq_true_iff]

theorem Has.hasField {id : ID} {name : N} {typ : ScalarType} (h : g.Has id name typ) :
    hasField g.sp id name = true := by
  obtain ⟨f, hf, hname, _⟩ := h
  exact hasField_iff.mpr ⟨f, hf, hname⟩

theorem Adjacent.has {name : N} {a b : ID} {typ : ScalarType} (h : g.Adjacent name a b)
    (ha : g.Has a name typ) : g.Has b name typ := by
  obtain ⟨hor, hb⟩ := h
  obtain ⟨f, hf, hname, htyp⟩ := ha
  cases hor with
  | inl hsuper =>
    obtain ⟨fb, hfb, hnameb⟩ := hasField_iff.mp hb
    obtain ⟨f', hf', hname', htyp'⟩ := g.inherits a b hsuper fb hfb
    have heq : f' = f := inj_on_of_nodup_map (g.names a) hf' hf
      (hname'.trans (hnameb.trans hname.symm))
    refine ⟨fb, hfb, hnameb, ?_⟩
    rw [← htyp', heq, htyp]
  | inr hsub =>
    obtain ⟨f', hf', hname', htyp'⟩ := g.inherits b a ((g.inverse b a).mpr hsub) f hf
    exact ⟨f', hf', hname'.trans hname, htyp'.trans htyp⟩

theorem Adjacent.symm {name : N} {a b : ID} (h : g.Adjacent name a b)
    (ha : hasField g.sp a name = true) : g.Adjacent name b a := by
  refine ⟨?_, ha⟩
  cases h.1 with
  | inl hsuper => exact .inr ((g.inverse a b).mp hsuper)
  | inr hsub => exact .inl ((g.inverse b a).mpr hsub)

theorem Adjacent.mem {name : N} {a b : ID} (h : g.Adjacent name a b) (ha : a ∈ g.ids)
    (hfield : FieldLayout.hasField g.sp a name = true) : b ∈ g.ids :=
  g.closed a ha b h.1 name hfield h.2

theorem Adjacent.fixed {name : N} {a b : ID} (h : g.Adjacent name a b)
    (ha : (g.sp.sclass a).cppExport = false) : (g.sp.sclass b).cppExport = false := by
  by_contra hb
  have hb' : (g.sp.sclass b).cppExport = true := by
    cases hcpp : (g.sp.sclass b).cppExport with
    | true => rfl
    | false => exact absurd hcpp hb
  have heq : a = b := by
    apply g.fixed b a hb'
    cases h.1 with
    | inl hsuper => exact .inr ((g.inverse a b).mp hsuper)
    | inr hsub => exact .inl ((g.inverse b a).mpr hsub)
  rw [heq, hb'] at ha
  exact absurd ha (by simp)

end ClassGraph

variable {g : ClassGraph ID N}

/-- The classes of a list that have the field were added, unless they were done. -/
structure Visited (g : ClassGraph ID N) (name : N) (classes : List ID) (s s' : Reached ID N) :
    Prop where
  done : ∀ k, k ∈ s'.fieldsDone ↔ k ∈ s.fieldsDone ∨ k.2 = name ∧ k.1 ∈ classes
  types : ∃ new, s'.types = s.types ++ new ∧ new.Nodup ∧
    ∀ x, x ∈ new ↔ x ∈ classes ∧ hasField g.sp x name = true ∧ (x, name) ∉ s.fieldsDone

theorem Visited.nil (name : N) (s : Reached ID N) : Visited g name [] s s :=
  ⟨fun k => by simp, [], by simp, nodup_nil, fun x => by simp⟩

variable {name : N}

theorem Visited.append {classes classes' : List ID} {s s' s'' : Reached ID N}
    (h : Visited g name classes s s') (h' : Visited g name classes' s' s'') :
    Visited g name (classes ++ classes') s s'' := by
  obtain ⟨new, hnew, hnodup, hmem⟩ := h.types
  obtain ⟨new', hnew', hnodup', hmem'⟩ := h'.types
  constructor
  · intro k
    rw [h'.done, h.done, mem_append]
    constructor
    · intro hk
      rcases hk with (hk | hk) | hk
      · exact .inl hk
      · exact .inr ⟨hk.1, .inl hk.2⟩
      · exact .inr ⟨hk.1, .inr hk.2⟩
    · intro hk
      rcases hk with hk | ⟨hname, hk | hk⟩
      · exact .inl (.inl hk)
      · exact .inl (.inr ⟨hname, hk⟩)
      · exact .inr ⟨hname, hk⟩
  · refine ⟨new ++ new', ?_, ?_, ?_⟩
    · rw [hnew', hnew, append_assoc]
    · rw [nodup_append]
      refine ⟨hnodup, hnodup', ?_⟩
      intro x hx y hy heq
      rw [heq] at hx
      exact ((hmem' y).mp hy).2.2 ((h.done _).mpr (.inr ⟨rfl, ((hmem y).mp hx).1⟩))
    · intro x
      rw [mem_append, mem_append, hmem, hmem', h.done]
      constructor
      · intro hor
        rcases hor with hx | hx
        · exact ⟨.inl hx.1, hx.2⟩
        · exact ⟨.inr hx.1, hx.2.1, fun hin => hx.2.2 (.inl hin)⟩
      · intro hx
        by_cases hin : x ∈ classes
        · exact .inl ⟨hin, hx.2⟩
        · have hin' : x ∈ classes' := hx.1.resolve_left hin
          refine .inr ⟨hin', hx.2.1, ?_⟩
          intro hor
          rcases hor with hdone | hdone
          · exact hx.2.2 hdone
          · exact hin hdone.2

theorem Visited.single {s : Reached ID N} {x : ID} {types : List ID}
    (hnot : (x, name) ∉ s.fieldsDone)
    (htypes : types = if hasField g.sp x name then s.types ++ [x] else s.types) :
    Visited g name [x] s ⟨insert (x, name) s.fieldsDone, types⟩ := by
  constructor
  · intro k
    rw [Finset.mem_insert, mem_singleton]
    constructor
    · intro hk
      rcases hk with hk | hk
      · exact .inr ⟨congrArg Prod.snd hk, congrArg Prod.fst hk⟩
      · exact .inl hk
    · intro hk
      rcases hk with hk | hk
      · exact .inr hk
      · exact .inl (Prod.ext hk.2 hk.1)
  · by_cases hfield : hasField g.sp x name = true
    · refine ⟨[x], by rw [htypes, if_pos hfield], nodup_singleton x, ?_⟩
      intro y
      rw [mem_singleton]
      constructor
      · intro heq
        rw [heq]
        exact ⟨rfl, hfield, hnot⟩
      · exact fun hy => hy.1
    · refine ⟨[], by rw [htypes, if_neg hfield, append_nil], nodup_nil, ?_⟩
      intro y
      rw [mem_singleton]
      constructor
      · exact fun hy => absurd hy (by simp)
      · intro hy
        rw [hy.1] at hy
        exact absurd hy.2.1 hfield

theorem Visited.same {s : Reached ID N} {x : ID} (hdone : (x, name) ∈ s.fieldsDone) :
    Visited g name [x] s s := by
  constructor
  · intro k
    rw [mem_singleton]
    constructor
    · exact .inl
    · intro hk
      rcases hk with hk | hk
      · exact hk
      · have heq : k = (x, name) := Prod.ext hk.2 hk.1
        rw [heq]
        exact hdone
  · refine ⟨[], by simp, nodup_nil, ?_⟩
    intro y
    rw [mem_singleton]
    constructor
    · exact fun hy => absurd hy (by simp)
    · intro hy
      exact absurd (hy.1 ▸ hdone) hy.2.2

theorem visitSuper_visited (name : N) (s : Reached ID N) (superID : ID) :
    Visited g name [superID] s (visitSuper g.sp name s superID) := by
  unfold visitSuper
  split_ifs with hdone
  · exact Visited.same hdone
  · exact Visited.single hdone (by rw [if_pos ‹_›])
  · exact Visited.single hdone (by rw [if_neg ‹_›])

theorem visitSupers_visited (name : N) (classes : List ID) (s : Reached ID N) :
    Visited g name classes s (classes.foldl (visitSuper g.sp name) s) := by
  induction classes generalizing s with
  | nil => exact Visited.nil name s
  | cons x rest ih => exact (visitSuper_visited name s x).append (ih _)

theorem visitSubs_visited (name : N) (classes : List ID)
    (hall : ∀ x ∈ classes, hasField g.sp x name = true) (s : Reached ID N) :
    ∃ s', classes.foldlM (visitSub g.sp name) s = some s' ∧ Visited g name classes s s' := by
  induction classes generalizing s with
  | nil => exact ⟨s, rfl, Visited.nil name s⟩
  | cons x rest ih =>
    have hstep : ∃ s₁, visitSub g.sp name s x = some s₁ ∧ Visited g name [x] s s₁ := by
      unfold visitSub
      split_ifs with hdone hfield
      · exact ⟨s, rfl, Visited.same hdone⟩
      · exact ⟨_, rfl, Visited.single hdone (by rw [if_pos hfield])⟩
      · exact absurd (hall x mem_cons_self) hfield
    obtain ⟨s₁, hs₁, hv⟩ := hstep
    obtain ⟨s', hs', hv'⟩ := ih (fun y hy => hall y (mem_cons_of_mem x hy)) s₁
    refine ⟨s', ?_, hv.append hv'⟩
    rw [foldlM_cons, hs₁]
    exact hs'

theorem visit_visited {sid : ID} (hsid : hasField g.sp sid name = true)
    (s : Reached ID N) : ∃ s', visit g.sp name s sid = some s' ∧
      Visited g name (g.sp.supertypes sid ++ g.sp.subtypes sid) s s' := by
  have hsubs : ∀ x ∈ g.sp.subtypes sid, hasField g.sp x name = true := by
    intro x hx
    obtain ⟨f, hf, hname⟩ := ClassGraph.hasField_iff.mp hsid
    obtain ⟨f', hf', hname', _⟩ := g.inherits x sid ((g.inverse x sid).mpr hx) f hf
    exact ClassGraph.hasField_iff.mpr ⟨f', hf', hname'.trans hname⟩
  obtain ⟨s', hs', hv⟩ := visitSubs_visited name (g.sp.subtypes sid) hsubs
    ((g.sp.supertypes sid).foldl (visitSuper g.sp name) s)
  exact ⟨s', hs', (visitSupers_visited name _ s).append hv⟩

def Real (g : ClassGraph ID N) (k : ID × N) : Prop := hasField g.sp k.1 k.2 = true

/-- Fields that are done are done in all classes that have them from the same place. -/
def Closed (g : ClassGraph ID N) (done : Finset (ID × N)) : Prop :=
  ∀ a name b, hasField g.sp a name = true → (a, name) ∈ done → g.Adjacent name a b → (b, name) ∈ done

/-- The classes that `start` is connected to by a field, so far; the first `i` of them were
visited. -/
structure Flooding (g : ClassGraph ID N) (before : Finset (ID × N)) (name : N) (typ : ScalarType)
    (i : ℕ) (s : Reached ID N) : Prop where
  nodup : s.types.Nodup
  mem : ∀ t ∈ s.types, t ∈ g.ids ∧ g.Has t name typ ∧ (g.sp.sclass t).cppExport = false ∧
    (t, name) ∉ before
  done : ∀ k, Real g k → (k ∈ s.fieldsDone ↔ k ∈ before ∨ k.2 = name ∧ k.1 ∈ s.types)
  visited : ∀ t ∈ s.types.take i, ∀ b, g.Adjacent name t b → (b, name) ∈ s.fieldsDone
  bounded : i ≤ s.types.length

theorem Flooding.step {before : Finset (ID × N)} {name : N} {typ : ScalarType} {i : ℕ}
    {s : Reached ID N} (h : Flooding g before name typ i s) {sid : ID}
    (hsid : s.types[i]? = some sid) :
    ∃ s', visit g.sp name s sid = some s' ∧ Flooding g before name typ (i + 1) s' := by
  obtain ⟨hlt, hget⟩ := List.getElem?_eq_some_iff.mp hsid
  have hin : sid ∈ s.types := hget ▸ getElem_mem hlt
  obtain ⟨hids, hhas, hcpp, hnot⟩ := h.mem sid hin
  obtain ⟨s', hs', hv⟩ := visit_visited hhas.hasField s
  obtain ⟨new, hnew, hnodup, hmem⟩ := hv.types
  have hadjacent : ∀ x ∈ new, g.Adjacent name sid x ∧ (x, name) ∉ s.fieldsDone := by
    intro x hx
    obtain ⟨hor, hfield, hdone⟩ := (hmem x).mp hx
    exact ⟨⟨mem_append.mp hor, hfield⟩, hdone⟩
  refine ⟨s', hs', ?_, ?_, ?_, ?_, ?_⟩
  · rw [hnew, nodup_append]
    refine ⟨h.nodup, hnodup, ?_⟩
    intro x hx y hy heq
    rw [heq] at hx
    have hreal : Real g (y, name) := (hadjacent y hy).1.2
    exact (hadjacent y hy).2 ((h.done _ hreal).mpr (.inr ⟨rfl, hx⟩))
  · intro t ht
    rw [hnew] at ht
    cases mem_append.mp ht with
    | inl hold => exact h.mem t hold
    | inr hnewt =>
      obtain ⟨hadj, hdone⟩ := hadjacent t hnewt
      refine ⟨hadj.mem hids hhas.hasField, hadj.has hhas, hadj.fixed hcpp, ?_⟩
      intro hb
      exact hdone ((h.done (t, name) hadj.2).mpr (.inl hb))
  · intro k hk
    have hmemnew : k.1 ∈ s'.types ↔ k.1 ∈ s.types ∨ k.1 ∈ new := by
      rw [hnew, mem_append]
    rw [hv.done, h.done k hk, hmemnew]
    constructor
    · intro hor
      rcases hor with (hb | ht) | hc
      · exact .inl hb
      · exact .inr ⟨ht.1, .inl ht.2⟩
      · by_cases hdone : k ∈ s.fieldsDone
        · rcases (h.done k hk).mp hdone with hb | ht
          · exact .inl hb
          · exact .inr ⟨ht.1, .inl ht.2⟩
        · have heq : k = (k.1, name) := Prod.ext rfl hc.1
          refine .inr ⟨hc.1, .inr ((hmem k.1).mpr ⟨hc.2, ?_, ?_⟩)⟩
          · rw [← hc.1]
            exact hk
          · rw [← heq]
            exact hdone
    · intro hor
      rcases hor with hb | ⟨hname, ht | ht⟩
      · exact .inl (.inl hb)
      · exact .inl (.inr ⟨hname, ht⟩)
      · exact .inr ⟨hname, ((hmem k.1).mp ht).1⟩
  · intro t ht b hadj
    rw [hnew, take_append_of_le_length (by omega), take_add_one, hsid] at ht
    cases mem_append.mp ht with
    | inl hold => exact (hv.done _).mpr (.inl (h.visited t hold b hadj))
    | inr hlast =>
      have heq : t = sid := by simpa using hlast
      rw [heq] at hadj
      exact (hv.done _).mpr (.inr ⟨rfl, mem_append.mpr hadj.1⟩)
  · rw [hnew, length_append]
    omega

structure Flooded (g : ClassGraph ID N) (before after : Finset (ID × N))
    (c : FieldLayoutConstraint ID N) : Prop where
  nodup : c.types.Nodup
  mem : ∀ t ∈ c.types, t ∈ g.ids ∧ g.Has t c.name c.typ ∧ (g.sp.sclass t).cppExport = false ∧
    (t, c.name) ∉ before
  adjacent : ∀ t ∈ c.types, ∀ b, g.Adjacent c.name t b → b ∈ c.types
  done : ∀ k, Real g k → (k ∈ after ↔ k ∈ before ∨ k.2 = c.name ∧ k.1 ∈ c.types)

theorem Flooded.closed {before after : Finset (ID × N)} {c : FieldLayoutConstraint ID N}
    (hbefore : Closed g before) (h : Flooded g before after c) : Closed g after := by
  intro a name b ha hin hadj
  have hb : Real g (b, name) := hadj.2
  rw [h.done _ hb]
  rcases (h.done (a, name) ha).mp hin with hold | hnew
  · exact .inl (hbefore a name b ha hold hadj)
  · have hname : name = c.name := hnew.1
    rw [hname] at hadj
    exact .inr ⟨hname, h.adjacent a hnew.2 b hadj⟩

variable {before : Finset (ID × N)}

theorem constrainLoop_ends {typ : ScalarType} (size : ℕ)
    {i : ℕ} {s : Reached ID N} (h : Flooding g before name typ i s)
    (hsize : g.ids.card - i < size) :
    ∃ s', Fuel.Ends (fun fuel => constrainLoop g.sp name fuel i s) s' ∧
      Flooding g before name typ s'.types.length s' ∧ s.types <+: s'.types := by
  induction size generalizing i s with
  | zero => exact absurd hsize (by omega)
  | succ size ih =>
    cases hget : s.types[i]? with
    | none =>
      have hlen : s.types.length ≤ i := List.getElem?_eq_none_iff.mp hget
      have heq : i = s.types.length := le_antisymm h.bounded hlen
      refine ⟨s, ⟨1, ?_⟩, heq ▸ h, prefix_refl _⟩
      intro fuel hle
      cases fuel with
      | zero => exact absurd hle (by omega)
      | succ fuel =>
        change constrainLoop g.sp name (fuel + 1) i s = some s
        rw [constrainLoop, hget]
    | some sid =>
      obtain ⟨hlt, _⟩ := List.getElem?_eq_some_iff.mp hget
      obtain ⟨s₁, hs₁, hstep⟩ := h.step hget
      have hcard : s.types.length ≤ g.ids.card := by
        rw [← toFinset_card_of_nodup h.nodup]
        apply Finset.card_le_card
        intro t ht
        exact (h.mem t (mem_toFinset.mp ht)).1
      obtain ⟨s', hends, hflood, hprefix⟩ := ih hstep (by omega)
      have hgrow : s.types <+: s₁.types := by
        obtain ⟨_, hhas, _⟩ := h.mem sid (mem_of_getElem? hget)
        obtain ⟨s₂, hs₂, hv⟩ := visit_visited hhas.hasField s
        rw [hs₁] at hs₂
        obtain ⟨new, hnew, _⟩ := hv.types
        rw [Option.some.inj hs₂, hnew]
        exact prefix_append _ _
      refine ⟨s', Fuel.Ends.succ ?_ hends, hflood, hgrow.trans hprefix⟩
      intro fuel
      rw [constrainLoop, hget]
      simp only [hs₁, Option.bind_some]

theorem constrain_ends (hbefore : Closed g before) {start : ID}
    (hstart : start ∈ g.ids) (hcpp : (g.sp.sclass start).cppExport = false) {field : SField ID N}
    (hfield : field ∈ (g.sp.sclass start).fields) (hnot : (start, field.name) ∉ before) :
    ∃ after c, Fuel.Ends (fun fuel => constrainConnectedClassesWithField g.sp fuel
        (insert (start, field.name) before) (g.sp.sclass start) field) (after, c) ∧
      Flooded g before after c ∧ c.name = field.name ∧ start ∈ c.types := by
  have hfirst : Flooding g before field.name (fieldType g.sp field) 0
      ⟨insert (start, field.name) before, [(g.sp.sclass start).id]⟩ := by
    rw [g.own]
    refine ⟨nodup_singleton _, ?_, ?_, fun t ht => absurd ht (by simp), Nat.zero_le _⟩
    · intro t ht
      rw [mem_singleton.mp ht]
      exact ⟨hstart, ⟨field, hfield, rfl, rfl⟩, hcpp, hnot⟩
    · intro k _
      rw [Finset.mem_insert, mem_singleton]
      constructor
      · intro hor
        rcases hor with hk | hk
        · exact .inr ⟨congrArg Prod.snd hk, congrArg Prod.fst hk⟩
        · exact .inl hk
      · intro hor
        rcases hor with hk | hk
        · exact .inr hk
        · exact .inl (Prod.ext hk.2 hk.1)
  obtain ⟨s, hends, hflood, hprefix⟩ := constrainLoop_ends (g.ids.card + 1) hfirst (by omega)
  refine ⟨s.fieldsDone, ⟨field.name, fieldType g.sp field, s.types⟩,
    hends.map fun s : Reached ID N => (s.fieldsDone,
      (⟨field.name, fieldType g.sp field, s.types⟩ : FieldLayoutConstraint ID N)), ?_, rfl, ?_⟩
  · refine ⟨hflood.nodup, hflood.mem, ?_, hflood.done⟩
    intro t ht b hadj
    have htake : t ∈ s.types.take s.types.length := by
      rw [take_length]
      exact ht
    obtain ⟨_, hhas, _, hnott⟩ := hflood.mem t ht
    rcases (hflood.done (b, field.name) hadj.2).mp (hflood.visited t htake b hadj) with hb | hb
    · exact absurd (hbefore b field.name t hadj.2 hb (hadj.symm hhas.hasField)) hnott
    · exact hb.2
  · apply hprefix.subset
    rw [g.own]
    exact mem_singleton.mpr rfl

/-- A constraint of all classes that have a field from the same place. -/
structure Grouped (g : ClassGraph ID N) (c : FieldLayoutConstraint ID N) : Prop where
  nodup : c.types.Nodup
  mem : ∀ t ∈ c.types, t ∈ g.ids ∧ g.Has t c.name c.typ ∧ (g.sp.sclass t).cppExport = false
  adjacent : ∀ t ∈ c.types, ∀ b, g.Adjacent c.name t b → b ∈ c.types

def Separate (constraints : List (FieldLayoutConstraint ID N)) : Prop :=
  constraints.Pairwise fun c c' => c.name = c'.name → ∀ t ∈ c.types, t ∉ c'.types

def AllDone (g : ClassGraph ID N) (done : Finset (ID × N)) (id : ID) : Prop :=
  ∀ f ∈ (g.sp.sclass id).fields, (id, f.name) ∈ done

/-- The classes that are connected to the first one so far. Those in `current` and on the stack may
have fields that are not done. -/
structure Connected (g : ClassGraph ID N) (before : Finset (ID × N)) (processed marked : Finset ID)
    (current : List ID) (s : Connecting ID N) : Prop where
  closed : Closed g s.fieldsDone
  done : ∀ k, Real g k → (k ∈ s.fieldsDone ↔ k ∈ before ∨
    ∃ c ∈ s.constraints, k.2 = c.name ∧ k.1 ∈ c.types)
  grouped : ∀ c ∈ s.constraints, Grouped g c
  fresh : ∀ c ∈ s.constraints, ∀ t ∈ c.types, (t, c.name) ∉ before
  separate : Separate s.constraints
  marked : ∀ x ∈ marked, x ∈ s.classAlreadyProcessed
  reached : ∀ c ∈ s.constraints, ∀ t ∈ c.types, t ∈ s.classAlreadyProcessed
  pending : ∀ x ∈ s.classAlreadyProcessed, x ∉ processed →
    x ∈ current ∨ x ∈ s.connectedClassesStack ∨ AllDone g s.fieldsDone x
  stack : ∀ x ∈ s.connectedClassesStack, x ∈ g.ids ∧ (g.sp.sclass x).cppExport = false
  member : ∀ x ∈ s.classAlreadyProcessed, x ∉ processed →
    x ∈ g.ids ∧ (g.sp.sclass x).cppExport = false

def remaining (g : ClassGraph ID N) (s : Connecting ID N) : ℕ :=
  (g.ids \ s.classAlreadyProcessed).card + s.connectedClassesStack.length

structure Pushed (g : ClassGraph ID N) (types : List ID) (s s' : Connecting ID N) : Prop where
  fieldsDone : s'.fieldsDone = s.fieldsDone
  constraints : s'.constraints = s.constraints
  processed : ∀ x, x ∈ s'.classAlreadyProcessed ↔ x ∈ s.classAlreadyProcessed ∨ x ∈ types
  stack : ∀ x, x ∈ s'.connectedClassesStack ↔
    x ∈ s.connectedClassesStack ∨ x ∈ types ∧ x ∉ s.classAlreadyProcessed
  remaining : remaining g s' = remaining g s

variable {s : Connecting ID N}

theorem pushClass_pushed {csid : ID} (hin : csid ∈ g.ids) :
    Pushed g [csid] s (pushClass s csid) := by
  unfold pushClass
  split_ifs with hdone
  · refine ⟨rfl, rfl, ?_, ?_, rfl⟩
    · intro x
      rw [mem_singleton]
      constructor
      · exact .inl
      · intro hor
        rcases hor with hx | hx
        · exact hx
        · exact hx ▸ hdone
    · intro x
      rw [mem_singleton]
      constructor
      · exact .inl
      · intro hor
        rcases hor with hx | hx
        · exact hx
        · exact absurd (hx.1 ▸ hdone) hx.2
  · refine ⟨rfl, rfl, ?_, ?_, ?_⟩
    · intro x
      rw [Finset.mem_insert, mem_singleton, or_comm]
    · intro x
      rw [mem_cons, mem_singleton]
      constructor
      · intro hor
        rcases hor with hx | hx
        · exact .inr ⟨hx, hx ▸ hdone⟩
        · exact .inl hx
      · intro hor
        rcases hor with hx | hx
        · exact .inr hx
        · exact .inl hx.1
    · unfold FieldLayout.remaining
      have hmem : csid ∈ g.ids \ s.classAlreadyProcessed := Finset.mem_sdiff.mpr ⟨hin, hdone⟩
      have hpos : 0 < (g.ids \ s.classAlreadyProcessed).card := Finset.card_pos.mpr ⟨csid, hmem⟩
      simp only [Finset.sdiff_insert, Finset.card_erase_of_mem hmem, length_cons]
      omega

theorem push_pushed (types : List ID) (hids : ∀ t ∈ types, t ∈ g.ids) (s : Connecting ID N) :
    Pushed g types s (types.foldl pushClass s) := by
  induction types generalizing s with
  | nil => exact ⟨rfl, rfl, fun x => by simp, fun x => by simp, rfl⟩
  | cons t rest ih =>
    have hone := pushClass_pushed (s := s) (hids t mem_cons_self)
    have hrest := ih (fun t' ht' => hids t' (mem_cons_of_mem t ht')) (pushClass s t)
    refine ⟨hrest.fieldsDone.trans hone.fieldsDone, hrest.constraints.trans hone.constraints, ?_, ?_,
      hrest.remaining.trans hone.remaining⟩
    · intro x
      have h1 := hone.processed x
      have h2 := hrest.processed x
      simp only [mem_singleton] at h1
      simp only [foldl_cons, mem_cons]
      rw [h2, h1, or_assoc]
    · intro x
      have h1 := hone.stack x
      have h2 := hrest.stack x
      have h3 := hone.processed x
      simp only [mem_singleton] at h1 h3
      simp only [foldl_cons, mem_cons]
      rw [h2, h1, h3]
      by_cases hdone : x ∈ s.classAlreadyProcessed
      · simp only [hdone, not_true_eq_false, and_false, or_false, true_or]
      · by_cases hx : x = t
        · simp only [hx, true_or, true_and, or_true, not_true_eq_false, and_false, or_false]
        · simp only [hx, false_and, or_false, false_or]

variable {processed marked : Finset ID}

theorem connectField_ends {sid : ID}
    (hsid : sid ∈ g.ids) (hcpp : (g.sp.sclass sid).cppExport = false)
    (h : Connected g before processed marked [sid] s) {field : SField ID N}
    (hfield : field ∈ (g.sp.sclass sid).fields) :
    ∃ s', Fuel.Ends (fun fuel => connectField g.sp fuel (g.sp.sclass sid) s field) s' ∧
      Connected g before processed marked [sid] s' ∧ (sid, field.name) ∈ s'.fieldsDone ∧
      (∀ k, Real g k → k ∈ s.fieldsDone → k ∈ s'.fieldsDone) ∧ remaining g s' = remaining g s := by
  by_cases hdone : (sid, field.name) ∈ s.fieldsDone
  · refine ⟨s, ?_, h, hdone, fun _ _ hk => hk, rfl⟩
    have hsame : (fun fuel => connectField g.sp fuel (g.sp.sclass sid) s field) =
        fun _ => some s := by
      funext fuel
      unfold connectField
      rw [g.own, if_pos hdone]
    rw [hsame]
    exact Fuel.Ends.pure s
  · obtain ⟨after, c, hends, hflood, hname, hstart⟩ := constrain_ends h.closed hsid hcpp hfield hdone
    set s₁ : Connecting ID N :=
      { s with fieldsDone := after, constraints := s.constraints ++ [c] } with hs₁
    have hpush := push_pushed c.types (fun t ht => (hflood.mem t ht).1) s₁
    set s' := c.types.foldl pushClass s₁ with hs'
    have hreal : ∀ t ∈ c.types, Real g (t, c.name) := fun t ht => (hflood.mem t ht).2.1.hasField
    have hmono : ∀ k, Real g k → k ∈ s.fieldsDone → k ∈ after :=
      fun k hk hin => (hflood.done k hk).mpr (.inl hin)
    have hsub : ∀ t ∈ c.types, (t, c.name) ∉ before := by
      intro t ht hin
      exact (hflood.mem t ht).2.2.2 ((h.done _ (hreal t ht)).mpr (.inl hin))
    refine ⟨s', ?_, ⟨?_, ?_, ?_, ?_, ?_, ?_, ?_, ?_, ?_, ?_⟩, ?_, ?_, hpush.remaining⟩
    · have hmap := hends.map fun r : Finset (ID × N) × FieldLayoutConstraint ID N =>
        r.2.types.foldl pushClass
          { s with fieldsDone := r.1, constraints := s.constraints ++ [r.2] }
      have hsame : (fun fuel => connectField g.sp fuel (g.sp.sclass sid) s field) = fun fuel =>
          (constrainConnectedClassesWithField g.sp fuel (insert (sid, field.name) s.fieldsDone)
            (g.sp.sclass sid) field).map fun r => r.2.types.foldl pushClass
              { s with fieldsDone := r.1, constraints := s.constraints ++ [r.2] } := by
        funext fuel
        unfold connectField
        rw [g.own, if_neg hdone]
      rw [hsame]
      exact hmap
    · rw [hpush.fieldsDone]
      exact hflood.closed h.closed
    · intro k hk
      rw [hpush.fieldsDone, hpush.constraints, hflood.done k hk, h.done k hk]
      simp only [hs₁, mem_append, mem_singleton]
      constructor
      · intro hor
        rcases hor with (hb | ⟨c', hc', hk'⟩) | hnew
        · exact .inl hb
        · exact .inr ⟨c', .inl hc', hk'⟩
        · exact .inr ⟨c, .inr rfl, hnew⟩
      · intro hor
        rcases hor with hb | ⟨c', hc' | hc', hk'⟩
        · exact .inl (.inl hb)
        · exact .inl (.inr ⟨c', hc', hk'⟩)
        · exact .inr (hc' ▸ hk')
    · intro c' hc'
      rw [hpush.constraints] at hc'
      cases mem_append.mp hc' with
      | inl hold => exact h.grouped c' hold
      | inr hnew =>
        rw [mem_singleton.mp hnew]
        exact ⟨hflood.nodup, fun t ht => ⟨(hflood.mem t ht).1, (hflood.mem t ht).2.1,
          (hflood.mem t ht).2.2.1⟩, hflood.adjacent⟩
    · intro c' hc'
      rw [hpush.constraints] at hc'
      cases mem_append.mp hc' with
      | inl hold => exact h.fresh c' hold
      | inr hnew =>
        rw [mem_singleton.mp hnew]
        exact hsub
    · rw [hpush.constraints]
      apply pairwise_append.mpr
      refine ⟨h.separate, pairwise_singleton _ _, ?_⟩
      intro c' hc' c'' hc'' heq t ht ht'
      rw [mem_singleton.mp hc''] at heq ht'
      apply (hflood.mem t ht').2.2.2
      rw [h.done _ (hreal t ht')]
      exact .inr ⟨c', hc', heq.symm, ht⟩
    · intro x hx
      exact (hpush.processed x).mpr (.inl (h.marked x hx))
    · intro c' hc' t ht
      rw [hpush.constraints] at hc'
      cases mem_append.mp hc' with
      | inl hold => exact (hpush.processed t).mpr (.inl (h.reached c' hold t ht))
      | inr hnew =>
        rw [mem_singleton.mp hnew] at ht
        exact (hpush.processed t).mpr (.inr ht)
    · intro x hx hnot
      rw [hpush.fieldsDone]
      by_cases hold : x ∈ s.classAlreadyProcessed
      · rcases h.pending x hold hnot with hc | hs | hall
        · exact .inl hc
        · exact .inr (.inl ((hpush.stack x).mpr (.inl hs)))
        · refine .inr (.inr ?_)
          intro f hf
          exact hmono _ (ClassGraph.hasField_iff.mpr ⟨f, hf, rfl⟩) (hall f hf)
      · have hin : x ∈ c.types := ((hpush.processed x).mp hx).resolve_left hold
        exact .inr (.inl ((hpush.stack x).mpr (.inr ⟨hin, hold⟩)))
    · intro x hx
      rcases (hpush.stack x).mp hx with hs | hnew
      · exact h.stack x hs
      · exact ⟨(hflood.mem x hnew.1).1, (hflood.mem x hnew.1).2.2.1⟩
    · intro x hx hnot
      rcases (hpush.processed x).mp hx with hold | hnew
      · exact h.member x hold hnot
      · exact ⟨(hflood.mem x hnew).1, (hflood.mem x hnew).2.2.1⟩
    · rw [hpush.fieldsDone]
      have hkey : Real g (sid, field.name) := ClassGraph.hasField_iff.mpr ⟨field, hfield, rfl⟩
      exact (hflood.done _ hkey).mpr (.inr ⟨hname.symm, hstart⟩)
    · rw [hpush.fieldsDone]
      exact hmono

theorem connectFields_ends {sid : ID}
    (hsid : sid ∈ g.ids) (hcpp : (g.sp.sclass sid).cppExport = false)
    (h : Connected g before processed marked [sid] s) :
    ∃ s', Fuel.Ends (fun fuel => (g.sp.sclass sid).fields.foldlM
        (connectField g.sp fuel (g.sp.sclass sid)) s) s' ∧
      Connected g before processed marked [] s' ∧ remaining g s' = remaining g s := by
  have hloop := Fuel.Ends.foldlM (fun fuel => connectField g.sp fuel (g.sp.sclass sid))
    (fun visited s' => Connected g before processed marked [sid] s' ∧
      (∀ f ∈ visited, (sid, f.name) ∈ s'.fieldsDone) ∧ remaining g s' = remaining g s)
    (g.sp.sclass sid).fields
    (by
      intro visited field rest s₁ hsplit hinv
      have hfield : field ∈ (g.sp.sclass sid).fields := by
        rw [hsplit]
        exact mem_append_right _ mem_cons_self
      obtain ⟨s₂, hends, hconn, hdone, hmono, hrem⟩ := connectField_ends hsid hcpp hinv.1 hfield
      refine ⟨s₂, hends, hconn, ?_, hrem.trans hinv.2.2⟩
      intro f hf
      cases mem_append.mp hf with
      | inl hold =>
        have hin : f ∈ (g.sp.sclass sid).fields := by
          rw [hsplit]
          exact mem_append_left _ hold
        exact hmono _ (ClassGraph.hasField_iff.mpr ⟨f, hin, rfl⟩) (hinv.2.1 f hold)
      | inr hlast =>
        rw [mem_singleton.mp hlast]
        exact hdone)
    (s := s) ⟨h, fun _ hf => absurd hf (by simp), rfl⟩
  obtain ⟨s', hends, hconn, hall, hrem⟩ := hloop
  refine ⟨s', hends, ⟨hconn.closed, hconn.done, hconn.grouped, hconn.fresh, hconn.separate,
    hconn.marked, hconn.reached, ?_, hconn.stack, hconn.member⟩, hrem⟩
  intro x hx hnot
  rcases hconn.pending x hx hnot with hc | hor
  · rw [mem_singleton.mp hc]
    exact .inr (.inr hall)
  · exact .inr hor

theorem connectLoop_ends (size : ℕ) (h : Connected g before processed marked [] s)
    (hsize : remaining g s < size) :
    ∃ s' inner outer, (∀ fuel ≥ inner, ∀ fuel' ≥ outer, connectLoop g.sp fuel fuel' s = some s') ∧
      Connected g before processed marked [] s' ∧ s'.connectedClassesStack = [] := by
  induction size generalizing s with
  | zero => exact absurd hsize (by omega)
  | succ size ih =>
    cases hstack : s.connectedClassesStack with
    | nil =>
      refine ⟨s, 0, 1, ?_, h, hstack⟩
      intro fuel _ fuel' hle
      cases fuel' with
      | zero => exact absurd hle (by omega)
      | succ fuel' => rw [connectLoop, hstack]
    | cons sid rest =>
      obtain ⟨hsid, hcpp⟩ := h.stack sid (hstack ▸ mem_cons_self)
      have hpopped : Connected g before processed marked [sid] { s with connectedClassesStack := rest } := by
        refine ⟨h.closed, h.done, h.grouped, h.fresh, h.separate, h.marked, h.reached, ?_, ?_,
          h.member⟩
        · intro x hx hnot
          rcases h.pending x hx hnot with hc | hs | hall
          · exact absurd hc (by simp)
          · rw [hstack] at hs
            cases mem_cons.mp hs with
            | inl heq => exact .inl (mem_singleton.mpr heq)
            | inr hin => exact .inr (.inl hin)
          · exact .inr (.inr hall)
        · intro x hx
          exact h.stack x (hstack ▸ mem_cons_of_mem sid hx)
      obtain ⟨s₁, ⟨n, hn⟩, hconn, hrem⟩ := connectFields_ends hsid hcpp hpopped
      have hless : remaining g s₁ < size := by
        rw [hrem]
        unfold remaining at hsize ⊢
        rw [hstack, length_cons] at hsize
        simp only
        omega
      obtain ⟨s', inner, outer, hends, hdone⟩ := ih hconn hless
      refine ⟨s', max n inner, outer + 1, ?_, hdone⟩
      intro fuel hle fuel' hle'
      cases fuel' with
      | zero => exact absurd hle' (by omega)
      | succ fuel' =>
        rw [connectLoop, hstack]
        simp only
        have hfields : (g.sp.sclass sid).fields.foldlM (connectField g.sp fuel (g.sp.sclass sid))
            { s with connectedClassesStack := rest } = some s₁ := hn fuel (by omega)
        rw [hfields, Option.bind_some]
        exact hends fuel (by omega) fuel' (by omega)

theorem build_ends {flc : FieldLayoutChooser ID N} {start : ID} (hstart : start ∈ g.ids)
    (hcpp : (g.sp.sclass start).cppExport = false) (hclosed : Closed g flc.fieldsDone) :
    ∃ s, Fuel.Ends (fun fuel => buildConstraintsForConnectedClasses g.sp fuel
        { flc with classAlreadyProcessed := insert start flc.classAlreadyProcessed }
        (g.sp.sclass start))
        (⟨flc.layouts, s.classAlreadyProcessed, s.fieldsDone⟩, s.constraints) ∧
      Connected g flc.fieldsDone flc.classAlreadyProcessed
        (insert start flc.classAlreadyProcessed) [] s ∧ s.connectedClassesStack = [] := by
  have hfirst : Connected g flc.fieldsDone flc.classAlreadyProcessed
      (insert start flc.classAlreadyProcessed) []
      (⟨flc.fieldsDone, insert start flc.classAlreadyProcessed, [], [(g.sp.sclass start).id]⟩ :
        Connecting ID N) := by
    rw [g.own]
    refine ⟨hclosed, fun k _ => by simp, fun c hc => absurd hc (by simp),
      fun c hc => absurd hc (by simp), List.Pairwise.nil, fun x hx => hx,
      fun c hc => absurd hc (by simp), ?_, ?_, ?_⟩
    · intro x hx hold
      cases Finset.mem_insert.mp hx with
      | inl heq => exact .inr (.inl (mem_singleton.mpr heq))
      | inr hin => exact absurd hin hold
    · intro x hx
      rw [mem_singleton.mp hx]
      exact ⟨hstart, hcpp⟩
    · intro x hx hold
      cases Finset.mem_insert.mp hx with
      | inl heq => exact heq ▸ ⟨hstart, hcpp⟩
      | inr hin => exact absurd hin hold
  obtain ⟨s, inner, outer, hends, hconn, hnil⟩ := connectLoop_ends _ hfirst (Nat.lt_succ_self _)
  refine ⟨s, ?_, hconn, hnil⟩
  · have hboth : Fuel.Ends (fun fuel => connectLoop g.sp fuel fuel
        ⟨flc.fieldsDone, insert start flc.classAlreadyProcessed, [], [(g.sp.sclass start).id]⟩) s :=
      ⟨max inner outer, fun fuel hle => hends fuel (by omega) fuel (by omega)⟩
    exact hboth.map fun s : Connecting ID N =>
      ((⟨flc.layouts, s.classAlreadyProcessed, s.fieldsDone⟩ : FieldLayoutChooser ID N),
        s.constraints)

end SkipPlatform.FieldLayout
