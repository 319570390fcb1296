import Mathlib.Data.Finset.Sort
import Mathlib.Data.List.Perm.Basic
import SkipPlatform.FieldLayoutConstraints
import SkipPlatform.FieldLayoutPacking

set_option autoImplicit false
set_option linter.unusedSectionVars false

/-! The layouts of the classes of a program after the chooser ran. -/
namespace SkipPlatform.FieldLayout
open List

variable {ID N : Type} [LinearOrder ID] [DecidableEq N] {g : ClassGraph ID N}

/-- A slot for every field, and no two slots in each other's place. -/
structure LaidOut (g : ClassGraph ID N) (id : ID) (slots : List (LayoutSlot N)) : Prop where
  names : (slots.map LayoutSlot.name).Perm ((g.sp.sclass id).fields.map SField.name)
  types : ∀ slot ∈ slots, g.Has id slot.name slot.typ
  packed : Packed slots

def slotOf (p : FieldLayoutConstraint ID N × ℤ) : LayoutSlot N := ⟨p.1.name, p.2, p.1.typ⟩

/-- The slots of a class are those of the constraints that it was in so far. -/
structure Assigning (before : List (FieldLayoutConstraint ID N)) (builders : ID → LayoutBuilder N)
    (offsets : List (FieldLayoutConstraint ID N × ℤ)) : Prop where
  sound : ∀ sid, Sound (builders sid)
  before : offsets.map Prod.fst = before
  slots : ∀ sid, (builders sid).fields.Perm ((offsets.filter fun p => sid ∈ p.1.types).map slotOf)

theorem Assigning.step {before : List (FieldLayoutConstraint ID N)}
    {builders builders' : ID → LayoutBuilder N} {offsets : List (FieldLayoutConstraint ID N × ℤ)}
    (h : Assigning before builders offsets) {constraint : FieldLayoutConstraint ID N} {offset : ℤ}
    (hnext : Assigned constraint offset builders builders') :
    Assigning (before ++ [constraint]) builders' (offsets ++ [(constraint, offset)]) := by
  refine ⟨hnext.sound, by rw [map_append, h.before]; rfl, ?_⟩
  intro sid
  rw [filter_append, map_append]
  by_cases hin : sid ∈ constraint.types
  · have hlast : ([(constraint, offset)].filter fun p => sid ∈ p.1.types) = [(constraint, offset)] := by
      simp [hin]
    rw [hlast]
    have hperm := (hnext.slots sid hin).trans (List.Perm.cons _ (h.slots sid))
    exact hperm.trans (perm_append_singleton _ _).symm
  · have hlast : ([(constraint, offset)].filter fun p => sid ∈ p.1.types) = [] := by
      simp [hin]
    rw [hlast, hnext.others sid hin]
    simpa using h.slots sid

theorem assignConstraints_ends (start : LayoutBuilder N) (hstart : Sound start)
    (hempty : start.fields = []) (constraints : List (FieldLayoutConstraint ID N))
    (hnodup : ∀ c ∈ constraints, c.types.Nodup) :
    ∃ builders, Fuel.Ends (fun fuel => constraints.foldlM (assignConstraint fuel) fun _ => start)
      builders ∧ ∃ offsets, Assigning constraints builders offsets := by
  apply Fuel.Ends.foldlM (fun fuel => assignConstraint fuel)
    (fun before builders => ∃ offsets, Assigning before builders offsets) constraints
  · intro before c after builders hsplit hinv
    obtain ⟨offsets, hassigning⟩ := hinv
    have hin : c ∈ constraints := by
      rw [hsplit]
      exact mem_append_right _ mem_cons_self
    obtain ⟨builders', offset, hends, hassigned⟩ :=
      assignConstraint_ends hassigning.sound (hnodup c hin)
    exact ⟨builders', hends, _, hassigning.step hassigned⟩
  · refine ⟨[], fun _ => hstart, rfl, ?_⟩
    intro sid
    rw [hempty]
    exact List.Perm.nil

theorem Separate.perm {constraints constraints' : List (FieldLayoutConstraint ID N)}
    (h : Separate constraints) (hperm : constraints.Perm constraints') : Separate constraints' := by
  apply hperm.pairwise h
  intro c c' hc heq t ht ht'
  exact hc heq.symm t ht' ht

/-- All fields of the classes of the constraints have a constraint. -/
def Complete (g : ClassGraph ID N) (constraints : List (FieldLayoutConstraint ID N)) : Prop :=
  ∀ c ∈ constraints, ∀ t ∈ c.types, ∀ name, hasField g.sp t name = true →
    ∃ c' ∈ constraints, c'.name = name ∧ t ∈ c'.types

theorem Assigning.laidOut {constraints : List (FieldLayoutConstraint ID N)}
    {builders : ID → LayoutBuilder N} {offsets : List (FieldLayoutConstraint ID N × ℤ)}
    (h : Assigning constraints builders offsets) (hgrouped : ∀ c ∈ constraints, Grouped g c)
    (hseparate : Separate constraints) (hcomplete : Complete g constraints)
    {c : FieldLayoutConstraint ID N} (hc : c ∈ constraints) {sid : ID} (hsid : sid ∈ c.types) :
    LaidOut g sid (builders sid).fields := by
  have hmem : ∀ p ∈ offsets.filter fun p => sid ∈ p.1.types, p.1 ∈ constraints ∧ sid ∈ p.1.types := by
    intro p hp
    obtain ⟨hin, htypes⟩ := mem_filter.mp hp
    exact ⟨h.before ▸ mem_map_of_mem hin, by simpa using htypes⟩
  have hnodup : (((offsets.filter fun p => sid ∈ p.1.types).map slotOf).map
      LayoutSlot.name).Nodup := by
    rw [map_map]
    apply pairwise_map.mpr
    have hpairs := hseparate
    rw [← h.before] at hpairs
    have hfiltered := (pairwise_map.mp hpairs).filter fun p => decide (sid ∈ p.1.types)
    apply hfiltered.imp_of_mem
    intro p p' hp hp' happart heq
    exact happart heq sid (hmem p hp).2 (hmem p' hp').2
  refine ⟨?_, ?_, (h.sound sid).packed⟩
  · apply ((h.slots sid).map LayoutSlot.name).trans
    rw [perm_ext_iff_of_nodup hnodup (g.names sid)]
    intro name
    rw [map_map, mem_map, mem_map]
    constructor
    · intro hname
      obtain ⟨p, hp, heq⟩ := hname
      obtain ⟨hin, htypes⟩ := hmem p hp
      obtain ⟨f, hf, hfname, _⟩ := ((hgrouped p.1 hin).mem sid htypes).2.1
      exact ⟨f, hf, hfname.trans heq⟩
    · intro hname
      obtain ⟨c', hc', heq, htypes⟩ := hcomplete c hc sid hsid name (ClassGraph.hasField_iff.mpr hname)
      rw [← h.before] at hc'
      obtain ⟨p, hp, hpc⟩ := mem_map.mp hc'
      refine ⟨p, mem_filter.mpr ⟨hp, ?_⟩, ?_⟩
      · rw [hpc]
        exact decide_eq_true htypes
      · rw [← heq, ← hpc]
        rfl
  · intro slot hslot
    obtain ⟨p, hp, heq⟩ := mem_map.mp ((h.slots sid).mem_iff.mp hslot)
    obtain ⟨hin, htypes⟩ := hmem p hp
    rw [← heq]
    exact ((hgrouped p.1 hin).mem sid htypes).2.1

/-- The classes of the constraints get their layouts, and agree on the offset of every
constraint. -/
structure Chosen (g : ClassGraph ID N) (constraints : List (FieldLayoutConstraint ID N))
    (before after : ID → Option (List (LayoutSlot N))) : Prop where
  others : ∀ sid, (∀ c ∈ constraints, sid ∉ c.types) → after sid = before sid
  laidOut : ∀ c ∈ constraints, ∀ sid ∈ c.types, ∃ slots, after sid = some slots ∧ LaidOut g sid slots
  agreed : ∀ c ∈ constraints, ∃ offset, ∀ sid ∈ c.types, ∀ slots, after sid = some slots →
    (⟨c.name, offset, c.typ⟩ : LayoutSlot N) ∈ slots

theorem assign_ends (flc : FieldLayoutChooser ID N)
    {constraints : List (FieldLayoutConstraint ID N)} (hgrouped : ∀ c ∈ constraints, Grouped g c)
    (hseparate : Separate constraints) (hcomplete : Complete g constraints) :
    ∃ layouts, Fuel.Ends (fun fuel => assignFieldOffsets g.sp fuel flc constraints)
        { flc with layouts := layouts } ∧ Chosen g constraints flc.layouts layouts := by
  set sorted := constraints.mergeSort fun c1 c2 => (c1.compare c2).isLE with hsorted
  have hperm : sorted.Perm constraints := mergeSort_perm _ _
  have hmem : ∀ c, c ∈ sorted ↔ c ∈ constraints := fun c => hperm.mem_iff
  have hgrouped' : ∀ c ∈ sorted, Grouped g c := fun c hc => hgrouped c ((hmem c).mp hc)
  have hcomplete' : Complete g sorted := by
    intro c hc t ht name hname
    obtain ⟨c', hc', hrest⟩ := hcomplete c ((hmem c).mp hc) t ht name hname
    exact ⟨c', (hmem c').mpr hc', hrest⟩
  have hstart : Sound (LayoutBuilder.mcreate g.sp.config [] : LayoutBuilder N) :=
    ⟨⟨List.Pairwise.nil, fun s hs => absurd hs (by simp [LayoutBuilder.mcreate]),
      fun s hs => absurd hs (by simp [LayoutBuilder.mcreate])⟩, le_refl _⟩
  obtain ⟨builders, hends, offsets, hassigning⟩ := assignConstraints_ends _ hstart rfl sorted
    fun c hc => (hgrouped' c hc).nodup
  have hlaid : ∀ c ∈ sorted, ∀ sid ∈ c.types, LaidOut g sid (builders sid).fields :=
    fun c hc sid hsid =>
      hassigning.laidOut hgrouped' (hseparate.perm hperm.symm) hcomplete' hc hsid
  have hall : (sorted.flatMap FieldLayoutConstraint.types).all
      (fun sid => decide ((g.sp.sclass sid).fields.length = (builders sid).fields.length)) = true := by
    rw [all_eq_true]
    intro sid hsid
    obtain ⟨c, hc, hin⟩ := mem_flatMap.mp hsid
    have hlength := (hlaid c hc sid hin).names.length_eq
    rw [length_map, length_map] at hlength
    exact decide_eq_true hlength.symm
  have hin : ∀ c ∈ constraints, ∀ sid ∈ c.types, sid ∈ sorted.flatMap FieldLayoutConstraint.types :=
    fun c hc sid hsid => mem_flatMap.mpr ⟨c, (hmem c).mpr hc, hsid⟩
  refine ⟨fun sid => if sid ∈ sorted.flatMap FieldLayoutConstraint.types then
    some (builders sid).fields else flc.layouts sid, ?_, ?_, ?_, ?_⟩
  · apply Fuel.Ends.bind hends
    rw [if_pos hall]
    exact Fuel.Ends.pure _
  · intro sid hout
    rw [if_neg]
    intro hsid
    obtain ⟨c, hc, htypes⟩ := mem_flatMap.mp hsid
    exact hout c ((hmem c).mp hc) htypes
  · intro c hc sid hsid
    exact ⟨_, if_pos (hin c hc sid hsid), hlaid c ((hmem c).mpr hc) sid hsid⟩
  · intro c hc
    have hc' : c ∈ offsets.map Prod.fst := by
      rw [hassigning.before]
      exact (hmem c).mpr hc
    obtain ⟨p, hp, hpc⟩ := mem_map.mp hc'
    refine ⟨p.2, ?_⟩
    intro sid hsid slots hslots
    rw [if_pos (hin c hc sid hsid)] at hslots
    rw [← Option.some.inj hslots]
    apply (hassigning.slots sid).mem_iff.mpr
    refine mem_map.mpr ⟨p, mem_filter.mpr ⟨hp, ?_⟩, ?_⟩
    · rw [hpc]
      exact decide_eq_true hsid
    · rw [← hpc]
      rfl

def exported (typ : ScalarType) : ScalarType where
  bitSize := typ.bitSize
  bitAlignment := if typ.bitAlignment < 8 then 8 else typ.bitAlignment
  llvmTypeName := typ.llvmTypeName
  kind := typ.kind
  nonneg := typ.nonneg
  aligned := by
    split_ifs
    · exact ⟨3, by omega, rfl⟩
    · exact typ.aligned

theorem alignField_exported (offset : ℤ) (typ : ScalarType) :
    alignField offset typ true = alignField offset (exported typ) false := by
  unfold alignField exported
  simp only [true_and, Bool.false_eq_true, false_and, if_false]

theorem dvd_exported (typ : ScalarType) : typ.bitAlignment ∣ (exported typ).bitAlignment := by
  obtain ⟨k, _, hk⟩ := typ.aligned
  unfold exported
  simp only
  split_ifs with hlt
  · have height : (8 : ℤ) = 2 ^ 3 := by norm_num
    rw [hk, height] at hlt ⊢
    have hle : k < 3 := (pow_lt_pow_iff_right₀ (by norm_num)).mp hlt
    exact pow_dvd_pow 2 hle.le
  · exact dvd_refl _

theorem le_alignField {offset : ℤ} (ho : 0 ≤ offset) (typ : ScalarType) :
    offset ≤ alignField offset typ false := by
  obtain ⟨k, _, hk⟩ := typ.aligned
  have hle := le_roundUp ho k
  rw [← hk] at hle
  have hup := le_roundUp (ho.trans hle) 6
  unfold alignField
  simp only [Bool.false_eq_true, false_and, if_false]
  split_ifs
  · exact hle.trans hup
  · exact hle

theorem alignField_export {offset : ℤ} (ho : 0 ≤ offset) (typ : ScalarType) :
    offset ≤ alignField offset typ true ∧
      (typ.bitSize ≠ 0 → Placed typ (alignField offset typ true)) := by
  rw [alignField_exported]
  refine ⟨le_alignField ho _, ?_⟩
  intro hsize
  have hpos : 0 < (exported typ).bitSize := lt_of_le_of_ne typ.nonneg (Ne.symm hsize)
  have hplaced := (alignField_placed hpos ho).2
  exact ⟨hplaced.nonneg, (dvd_exported typ).trans hplaced.aligned, hplaced.word⟩

theorem cppExport_packed (sp : Specializer ID N) (fields : List (SField ID N))
    {s : ℤ × List (LayoutSlot N)} (hnonneg : 0 ≤ s.1) (hpacked : Packed s.2)
    (hend : ∀ slot ∈ s.2, slot.endBitOffset ≤ s.1) :
    Packed (fields.foldl (cppExportSlot sp) s).2 ∧
      (fields.foldl (cppExportSlot sp) s).2.map (fun slot => (slot.name, slot.typ)) =
        s.2.map (fun slot => (slot.name, slot.typ)) ++
          fields.map fun f => (f.name, fieldType sp f) := by
  induction fields generalizing s with
  | nil => exact ⟨hpacked, by simp⟩
  | cons f rest ih =>
    obtain ⟨hle, hplaced⟩ := alignField_export hnonneg (fieldType sp f)
    set slot : LayoutSlot N := ⟨f.name, alignField s.1 (fieldType sp f) true, fieldType sp f⟩
      with hslot
    have hstep : cppExportSlot sp s f = (slot.endBitOffset, s.2 ++ [slot]) := rfl
    have hstart : s.1 ≤ slot.bitOffset := hle
    have hnext : slot.bitOffset ≤ slot.endBitOffset := le_endBitOffset slot
    rw [foldl_cons, hstep]
    have hrest := ih (s := (slot.endBitOffset, s.2 ++ [slot])) (by simp only; omega)
      (by
        refine ⟨?_, ?_, ?_⟩
        · apply pairwise_append.mpr
          refine ⟨hpacked.apart, pairwise_singleton _ _, ?_⟩
          intro a ha b hb
          rw [mem_singleton.mp hb]
          exact (hend a ha).trans hstart
        · intro a ha
          cases mem_append.mp ha with
          | inl hold => exact hpacked.nonneg a hold
          | inr hnew =>
            rw [mem_singleton.mp hnew]
            exact hnonneg.trans hstart
        · intro a ha
          cases mem_append.mp ha with
          | inl hold => exact hpacked.placed a hold
          | inr hnew =>
            rw [mem_singleton.mp hnew]
            exact hplaced)
      (by
        intro a ha
        cases mem_append.mp ha with
        | inl hold => exact (hend a hold).trans (hstart.trans hnext)
        | inr hnew => rw [mem_singleton.mp hnew])
    refine ⟨hrest.1, ?_⟩
    rw [hrest.2, map_append, append_assoc]
    rfl

theorem cppExport_laidOut (id : ID) :
    LaidOut g id (layoutCppExportClass g.sp (g.sp.sclass id).fields) := by
  set sorted := (g.sp.sclass id).fields.mergeSort fun f f' => decide (f.index ≤ f'.index) with hsorted
  have hperm : sorted.Perm (g.sp.sclass id).fields := mergeSort_perm _ _
  obtain ⟨hpacked, hmap⟩ := cppExport_packed g.sp sorted (s := (0, [])) (le_refl 0)
    ⟨List.Pairwise.nil, fun s hs => absurd hs (by simp), fun s hs => absurd hs (by simp)⟩
    (fun s hs => absurd hs (by simp))
  have hlayout : layoutCppExportClass g.sp (g.sp.sclass id).fields =
      (sorted.foldl (cppExportSlot g.sp) (0, [])).2 := rfl
  rw [hlayout]
  rw [map_nil, nil_append] at hmap
  refine ⟨?_, ?_, hpacked⟩
  · have hnames := congrArg (List.map Prod.fst) hmap
    rw [map_map, map_map] at hnames
    exact (List.Perm.of_eq hnames).trans (hperm.map SField.name)
  · intro slot hslot
    have hin := mem_map_of_mem (f := fun slot : LayoutSlot N => (slot.name, slot.typ)) hslot
    rw [hmap] at hin
    obtain ⟨f, hf, heq⟩ := mem_map.mp hin
    exact ⟨f, hperm.mem_iff.mp hf, congrArg Prod.fst heq, congrArg Prod.snd heq⟩

def SameSlot (layouts : ID → Option (List (LayoutSlot N))) (name : N) (x y : ID) : Prop :=
  ∃ slots slots' slot, layouts x = some slots ∧ layouts y = some slots' ∧ slot ∈ slots ∧
    slot ∈ slots' ∧ slot.name = name

/-- What holds of the classes of `g` when those in `before` are done. -/
structure Laid (g : ClassGraph ID N) (before : List ID) (flc : FieldLayoutChooser ID N) : Prop where
  closed : Closed g flc.fieldsDone
  real : ∀ k ∈ flc.fieldsDone, Real g k → k.1 ∈ g.ids → k.1 ∈ flc.classAlreadyProcessed
  processed : ∀ x ∈ g.ids, x ∈ flc.classAlreadyProcessed → (g.sp.sclass x).cppExport = false →
    AllDone g flc.fieldsDone x
  fixed : ∀ x ∈ g.ids, (g.sp.sclass x).cppExport = true → x ∈ flc.classAlreadyProcessed
  layouts : ∀ x ∈ g.ids, ∀ slots, flc.layouts x = some slots → LaidOut g x slots
  laid : ∀ x ∈ g.ids, x ∈ flc.classAlreadyProcessed → (g.sp.sclass x).fields ≠ [] →
    flc.layouts x ≠ none
  only : ∀ x ∈ g.ids, flc.layouts x ≠ none →
    x ∈ flc.classAlreadyProcessed ∨ (g.sp.sclass x).fields = []
  agreed : ∀ x ∈ g.ids, ∀ name y, hasField g.sp x name = true → (x, name) ∈ flc.fieldsDone →
    g.Adjacent name x y → SameSlot flc.layouts name x y
  done : ∀ x ∈ before, (g.sp.sclass x).isArray = false → (g.sp.sclass x).isValueClass = false →
    flc.layouts x ≠ none

/-- Nothing changed for the classes that are not in `g`. -/
structure Outside (g : ClassGraph ID N) (flc flc' : FieldLayoutChooser ID N) : Prop where
  layouts : ∀ x, x ∉ g.ids → flc'.layouts x = flc.layouts x
  processed : ∀ x, x ∉ g.ids → (x ∈ flc'.classAlreadyProcessed ↔ x ∈ flc.classAlreadyProcessed)
  done : ∀ k, Real g k → k.1 ∉ g.ids → (k ∈ flc'.fieldsDone ↔ k ∈ flc.fieldsDone)

theorem Outside.refl (flc : FieldLayoutChooser ID N) : Outside g flc flc :=
  ⟨fun _ _ => rfl, fun _ _ => Iff.rfl, fun _ _ _ => Iff.rfl⟩

theorem fixed_spec (sp : Specializer ID N) (classes : List ID) (flc : FieldLayoutChooser ID N) :
    (classes.foldl (layoutFixed sp) flc).fieldsDone = flc.fieldsDone ∧
    (∀ x, x ∈ (classes.foldl (layoutFixed sp) flc).classAlreadyProcessed ↔
      x ∈ flc.classAlreadyProcessed ∨ x ∈ classes ∧ (sp.sclass x).cppExport = true) ∧
    ∀ x, (classes.foldl (layoutFixed sp) flc).layouts x =
      if x ∈ classes ∧ (sp.sclass x).cppExport = true then
        some (layoutCppExportClass sp (sp.sclass x).fields)
      else flc.layouts x := by
  induction classes generalizing flc with
  | nil => exact ⟨rfl, fun x => by simp, fun x => by simp⟩
  | cons id rest ih =>
    obtain ⟨hdone, hprocessed, hlayouts⟩ := ih (layoutFixed sp flc id)
    have hstep : (layoutFixed sp flc id).fieldsDone = flc.fieldsDone ∧
        (∀ x, x ∈ (layoutFixed sp flc id).classAlreadyProcessed ↔
          x ∈ flc.classAlreadyProcessed ∨ x = id ∧ (sp.sclass x).cppExport = true) ∧
        ∀ x, (layoutFixed sp flc id).layouts x =
          if x = id ∧ (sp.sclass x).cppExport = true then
            some (layoutCppExportClass sp (sp.sclass x).fields)
          else flc.layouts x := by
      unfold layoutFixed setLayout
      split_ifs with hcpp
      · refine ⟨rfl, ?_, ?_⟩
        · intro x
          simp only [Finset.mem_insert]
          constructor
          · intro hx
            cases hx with
            | inl heq => exact .inr ⟨heq, heq ▸ hcpp⟩
            | inr hin => exact .inl hin
          · intro hx
            cases hx with
            | inl hin => exact .inr hin
            | inr heq => exact .inl heq.1
        · intro x
          by_cases heq : x = id
          · rw [heq, if_pos ⟨rfl, hcpp⟩]
            exact Function.update_self ..
          · rw [if_neg fun h => heq h.1]
            exact Function.update_of_ne heq _ _
      · refine ⟨rfl, ?_, ?_⟩
        · intro x
          constructor
          · exact .inl
          · intro hx
            cases hx with
            | inl hin => exact hin
            | inr heq => exact absurd (heq.1 ▸ heq.2) hcpp
        · intro x
          rw [if_neg]
          intro h
          exact hcpp (h.1 ▸ h.2)
    rw [foldl_cons]
    refine ⟨hdone.trans hstep.1, ?_, ?_⟩
    · intro x
      rw [hprocessed, hstep.2.1, mem_cons, or_and_right, or_assoc]
    · intro x
      rw [hlayouts, hstep.2.2]
      by_cases hrest : x ∈ rest ∧ (sp.sclass x).cppExport = true
      · rw [if_pos hrest, if_pos ⟨mem_cons_of_mem id hrest.1, hrest.2⟩]
      · rw [if_neg hrest]
        apply if_congr _ rfl rfl
        rw [mem_cons]
        constructor
        · exact fun h => ⟨.inl h.1, h.2⟩
        · intro h
          exact ⟨h.1.resolve_right fun hin => hrest ⟨hin, h.2⟩, h.2⟩

theorem fixed_laid (layouts : ID → Option (List (LayoutSlot N)))
    (hnone : ∀ x ∈ g.ids, layouts x = none) (classes : List ID) (hall : ∀ x ∈ g.ids, x ∈ classes) :
    Laid g [] (classes.foldl (layoutFixed g.sp) ⟨layouts, ∅, ∅⟩) := by
  obtain ⟨hdone, hprocessed, hlayouts⟩ := fixed_spec g.sp classes ⟨layouts, ∅, ∅⟩
  have hempty : ∀ k, k ∉ (classes.foldl (layoutFixed g.sp) ⟨layouts, ∅, ∅⟩).fieldsDone := by
    intro k
    rw [hdone]
    exact Finset.notMem_empty k
  have hcpp : ∀ x, x ∈ (classes.foldl (layoutFixed g.sp) ⟨layouts, ∅, ∅⟩).classAlreadyProcessed ↔
      x ∈ classes ∧ (g.sp.sclass x).cppExport = true := by
    intro x
    rw [hprocessed]
    simp only [Finset.notMem_empty, false_or]
  refine ⟨fun a name b _ hin => absurd hin (hempty _), fun k hk => absurd hk (hempty k), ?_,
    fun x hx h => (hcpp x).mpr ⟨hall x hx, h⟩, ?_, ?_, ?_,
    fun x _ name y _ hin => absurd hin (hempty _), fun x hx => absurd hx (by simp)⟩
  · intro x _ hin hno
    rw [((hcpp x).mp hin).2] at hno
    exact absurd hno (by simp)
  · intro x hx slots hslots
    rw [hlayouts] at hslots
    split_ifs at hslots with h
    · rw [← Option.some.inj hslots]
      exact cppExport_laidOut x
    · have hsome : layouts x = some slots := hslots
      rw [hnone x hx] at hsome
      exact absurd hsome (by simp)
  · intro x _ hin _
    rw [hlayouts, if_pos ((hcpp x).mp hin)]
    simp
  · intro x hx hsome
    rw [hlayouts] at hsome
    split_ifs at hsome with h
    · exact .inl ((hcpp x).mpr h)
    · exact absurd (hnone x hx) hsome

variable {flc : FieldLayoutChooser ID N} {before : List ID}

theorem Laid.append (h : Laid g before flc)
    {id : ID} (hdone : (g.sp.sclass id).isArray = false → (g.sp.sclass id).isValueClass = false →
      flc.layouts id ≠ none) : Laid g (before ++ [id]) flc := by
  refine { h with done := ?_ }
  intro x hx
  cases mem_append.mp hx with
  | inl hold => exact h.done x hold
  | inr hlast =>
    rw [mem_singleton.mp hlast]
    exact hdone

theorem Laid.empty (h : Laid g before flc)
    {id : ID} (hid : id ∈ g.ids) (hfields : (g.sp.sclass id).fields = []) :
    Laid g (before ++ [id]) (setLayout flc id []) ∧ Outside g flc (setLayout flc id []) := by
  have hself : (setLayout flc id []).layouts id = some [] := Function.update_self ..
  have hother : ∀ x, x ≠ id → (setLayout flc id []).layouts x = flc.layouts x :=
    fun x hne => Function.update_of_ne hne _ _
  have hnot : ∀ x name, hasField g.sp x name = true → x ≠ id := by
    intro x name hx heq
    obtain ⟨f, hf, _⟩ := ClassGraph.hasField_iff.mp hx
    rw [heq, hfields] at hf
    exact absurd hf (by simp)
  constructor
  · apply Laid.append
    · refine ⟨h.closed, h.real, h.processed, h.fixed, ?_, ?_, ?_, ?_, ?_⟩
      · intro x hx slots hslots
        by_cases heq : x = id
        · rw [heq, hself] at hslots
          rw [heq, ← Option.some.inj hslots]
          refine ⟨?_, fun s hs => absurd hs (by simp), List.Pairwise.nil,
            fun s hs => absurd hs (by simp), fun s hs => absurd hs (by simp)⟩
          rw [hfields]
          exact List.Perm.nil
        · rw [hother x heq] at hslots
          exact h.layouts x hx slots hslots
      · intro x hx hin hne
        have heq : x ≠ id := fun heq => hne (heq ▸ hfields)
        rw [hother x heq]
        exact h.laid x hx hin hne
      · intro x hx hsome
        by_cases heq : x = id
        · exact .inr (heq ▸ hfields)
        · rw [hother x heq] at hsome
          exact h.only x hx hsome
      · intro x hx name y hfield hin hadj
        obtain ⟨slots, slots', slot, h1, h2, hrest⟩ := h.agreed x hx name y hfield hin hadj
        exact ⟨slots, slots', slot, (hother x (hnot x name hfield)).trans h1,
          (hother y (hnot y name hadj.2)).trans h2, hrest⟩
      · intro x hx harray hvalue
        by_cases heq : x = id
        · rw [heq, hself]
          simp
        · rw [hother x heq]
          exact h.done x hx harray hvalue
    · intro _ _
      rw [hself]
      simp
  · refine ⟨?_, fun _ _ => Iff.rfl, fun _ _ _ => Iff.rfl⟩
    intro x hx
    exact hother x fun heq => hx (heq ▸ hid)

/-- The constraints of a class that is not done have all fields of their classes, and none of
these classes was done. -/
theorem Laid.component (h : Laid g before flc)
    {id : ID} {s : Connecting ID N} (hs : Connected g flc.fieldsDone flc.classAlreadyProcessed
      (insert id flc.classAlreadyProcessed) [] s) (hnil : s.connectedClassesStack = []) :
    (∀ c ∈ s.constraints, ∀ t ∈ c.types, t ∉ flc.classAlreadyProcessed) ∧
    (∀ x ∈ s.classAlreadyProcessed, x ∉ flc.classAlreadyProcessed →
      AllDone g s.fieldsDone x ∧ ∀ name, hasField g.sp x name = true →
        ∃ c ∈ s.constraints, c.name = name ∧ x ∈ c.types) := by
  constructor
  · intro c hc t ht hin
    obtain ⟨hids, ⟨f, hf, hname, _⟩, hcpp⟩ := (hs.grouped c hc).mem t ht
    apply hs.fresh c hc t ht
    rw [← hname]
    exact h.processed t hids hin hcpp f hf
  · intro x hx hold
    have hdone : AllDone g s.fieldsDone x := by
      rcases hs.pending x hx hold with hc | hstack | hdone
      · exact absurd hc (by simp)
      · rw [hnil] at hstack
        exact absurd hstack (by simp)
      · exact hdone
    refine ⟨hdone, ?_⟩
    intro name hname
    obtain ⟨f, hf, hfname⟩ := ClassGraph.hasField_iff.mp hname
    have hreal : Real g (x, f.name) := ClassGraph.hasField_iff.mpr ⟨f, hf, rfl⟩
    rcases (hs.done _ hreal).mp (hdone f hf) with hb | ⟨c, hc, hcname, hin⟩
    · exact absurd (h.real _ hb hreal (hs.member x hx hold).1) hold
    · exact ⟨c, hc, hcname.symm.trans hfname, hin⟩

theorem Laid.chosen (h : Laid g before flc)
    {id : ID} (hid : id ∈ g.ids) {s : Connecting ID N}
    (hs : Connected g flc.fieldsDone flc.classAlreadyProcessed
      (insert id flc.classAlreadyProcessed) [] s) (hnil : s.connectedClassesStack = [])
    (hfields : (g.sp.sclass id).fields ≠ [])
    {layouts : ID → Option (List (LayoutSlot N))}
    (hchosen : Chosen g s.constraints flc.layouts layouts) :
    Laid g (before ++ [id]) ⟨layouts, s.classAlreadyProcessed, s.fieldsDone⟩ ∧
      Outside g flc ⟨layouts, s.classAlreadyProcessed, s.fieldsDone⟩ := by
  obtain ⟨hnew, hall⟩ := h.component hs hnil
  have hold : ∀ x, x ∈ flc.classAlreadyProcessed → layouts x = flc.layouts x := by
    intro x hx
    apply hchosen.others
    intro c hc hin
    exact hnew c hc x hin hx
  have hmono : ∀ x, x ∈ flc.classAlreadyProcessed → x ∈ s.classAlreadyProcessed := by
    intro x hx
    exact hs.marked x (Finset.mem_insert_of_mem hx)
  have hlaid : ∀ x ∈ g.ids, x ∈ s.classAlreadyProcessed → (g.sp.sclass x).fields ≠ [] →
      layouts x ≠ none := by
    intro x hx hin hne
    by_cases hproc : x ∈ flc.classAlreadyProcessed
    · rw [hold x hproc]
      exact h.laid x hx hproc hne
    · obtain ⟨f, hf⟩ := exists_mem_of_ne_nil _ hne
      obtain ⟨c, hc, _, hxc⟩ := (hall x hin hproc).2 f.name (ClassGraph.hasField_iff.mpr ⟨f, hf, rfl⟩)
      obtain ⟨slots, hslots, _⟩ := hchosen.laidOut c hc x hxc
      rw [hslots]
      simp
  have hself : id ∈ s.classAlreadyProcessed := hs.marked id (Finset.mem_insert_self _ _)
  constructor
  · apply Laid.append
    · refine ⟨hs.closed, ?_, ?_, fun x hx hcpp => hmono x (h.fixed x hx hcpp), ?_, hlaid, ?_, ?_, ?_⟩
      · intro k hk hreal hin
        rcases (hs.done k hreal).mp hk with hb | ⟨c, hc, _, hkc⟩
        · exact hmono _ (h.real k hb hreal hin)
        · exact hs.reached c hc _ hkc
      · intro x hx hin hcpp
        by_cases hproc : x ∈ flc.classAlreadyProcessed
        · intro f hf
          have hreal : Real g (x, f.name) := ClassGraph.hasField_iff.mpr ⟨f, hf, rfl⟩
          exact (hs.done _ hreal).mpr (.inl (h.processed x hx hproc hcpp f hf))
        · exact (hall x hin hproc).1
      · intro x hx slots hslots
        by_cases hc : ∃ c ∈ s.constraints, x ∈ c.types
        · obtain ⟨c, hc, hxc⟩ := hc
          obtain ⟨slots', hslots', hlaidOut⟩ := hchosen.laidOut c hc x hxc
          have hsame : layouts x = some slots := hslots
          rw [hslots'] at hsame
          rw [← Option.some.inj hsame]
          exact hlaidOut
        · apply h.layouts x hx slots
          rw [← hchosen.others x fun c hcc hxc => hc ⟨c, hcc, hxc⟩]
          exact hslots
      · intro x hx hsome
        by_cases hc : ∃ c ∈ s.constraints, x ∈ c.types
        · obtain ⟨c, hc, hxc⟩ := hc
          exact .inl (hs.reached c hc x hxc)
        · have hsame := hchosen.others x fun c hcc hxc => hc ⟨c, hcc, hxc⟩
          have hbefore : flc.layouts x ≠ none := hsame ▸ hsome
          rcases h.only x hx hbefore with hin | hempty
          · exact .inl (hmono x hin)
          · exact .inr hempty
      · intro x hx name y hfield hin hadj
        rcases (hs.done (x, name) hfield).mp hin with hb | ⟨c, hc, hname, hxc⟩
        · have hy : (y, name) ∈ flc.fieldsDone := h.closed x name y hfield hb hadj
          have hyids : y ∈ g.ids := hadj.mem hx hfield
          obtain ⟨slots, slots', slot, h1, h2, hrest⟩ := h.agreed x hx name y hfield hb hadj
          exact ⟨slots, slots', slot, (hold x (h.real _ hb hfield hx)).trans h1,
            (hold y (h.real _ hy hadj.2 hyids)).trans h2, hrest⟩
        · have hcname : name = c.name := hname
          have hyc : y ∈ c.types := (hs.grouped c hc).adjacent x hxc y (hcname ▸ hadj)
          obtain ⟨offset, hoffset⟩ := hchosen.agreed c hc
          obtain ⟨slots, hslots, _⟩ := hchosen.laidOut c hc x hxc
          obtain ⟨slots', hslots', _⟩ := hchosen.laidOut c hc y hyc
          exact ⟨slots, slots', ⟨c.name, offset, c.typ⟩, hslots, hslots', hoffset x hxc slots hslots,
            hoffset y hyc slots' hslots', hcname.symm⟩
      · intro x hx harray hvalue
        by_cases hc : ∃ c ∈ s.constraints, x ∈ c.types
        · obtain ⟨c, hc, hxc⟩ := hc
          obtain ⟨slots, hslots, _⟩ := hchosen.laidOut c hc x hxc
          intro hno
          have hsame : layouts x = none := hno
          rw [hslots] at hsame
          exact absurd hsame (by simp)
        · have hsame := hchosen.others x fun c hcc hxc => hc ⟨c, hcc, hxc⟩
          intro hno
          exact h.done x hx harray hvalue (hsame.symm.trans hno)
    · intro _ _
      exact hlaid id hid hself hfields
  · refine ⟨?_, ?_, ?_⟩
    · intro x hx
      apply hchosen.others
      intro c hc hin
      exact hx ((hs.grouped c hc).mem x hin).1
    · intro x hx
      refine ⟨?_, hmono x⟩
      intro hin
      by_contra hno
      exact hx (hs.member x hin hno).1
    · intro k hreal hk
      rw [hs.done k hreal]
      constructor
      · intro hor
        rcases hor with hb | ⟨c, hc, _, hkc⟩
        · exact hb
        · exact absurd ((hs.grouped c hc).mem _ hkc).1 hk
      · exact .inl

theorem layoutClass_ends (h : Laid g before flc)
    {id : ID} (hid : id ∈ g.ids) :
    ∃ flc', Fuel.Ends (fun fuel => layoutClass g.sp fuel flc id) flc' ∧
      Laid g (before ++ [id]) flc' ∧ Outside g flc flc' := by
  by_cases hguard : (g.sp.sclass id).isArray = true ∨ (g.sp.sclass id).isValueClass = true
  · refine ⟨flc, ?_, h.append ?_, Outside.refl flc⟩
    · unfold layoutClass
      simp only [if_pos hguard]
      exact Fuel.Ends.pure flc
    · intro harray hvalue
      rw [harray, hvalue] at hguard
      exact absurd hguard (by simp)
  by_cases hfields : (g.sp.sclass id).fields = []
  · refine ⟨setLayout flc id [], ?_, h.empty hid hfields⟩
    unfold layoutClass
    simp only [if_neg hguard, if_pos hfields]
    exact Fuel.Ends.pure _
  by_cases hin : id ∈ flc.classAlreadyProcessed
  · refine ⟨flc, ?_, h.append fun _ _ => h.laid id hid hin hfields, Outside.refl flc⟩
    unfold layoutClass
    simp only [if_neg hguard, if_neg hfields, if_pos hin]
    exact Fuel.Ends.pure flc
  have hcpp : (g.sp.sclass id).cppExport = false := by
    by_contra hcpp
    exact hin (h.fixed id hid (by simpa using hcpp))
  obtain ⟨s, hends, hs, hnil⟩ := build_ends hid hcpp h.closed
  obtain ⟨hnew, hall⟩ := h.component hs hnil
  have hself := hs.marked id (Finset.mem_insert_self _ _)
  have hsome : s.constraints ≠ [] := by
    obtain ⟨f, hf⟩ := exists_mem_of_ne_nil _ hfields
    obtain ⟨c, hc, _⟩ := (hall id hself hin).2 f.name (ClassGraph.hasField_iff.mpr ⟨f, hf, rfl⟩)
    exact ne_nil_of_mem hc
  have hcomplete : Complete g s.constraints :=
    fun c hc t ht name hname => (hall t (hs.reached c hc t ht) (hnew c hc t ht)).2 name hname
  obtain ⟨layouts, hassign, hchosen⟩ := assign_ends
    ⟨flc.layouts, s.classAlreadyProcessed, s.fieldsDone⟩ hs.grouped hs.separate hcomplete
  refine ⟨⟨layouts, s.classAlreadyProcessed, s.fieldsDone⟩, ?_,
    h.chosen hid hs hnil hfields hchosen⟩
  unfold layoutClass
  simp only [if_neg hguard, if_neg hfields, if_neg hin]
  apply Fuel.Ends.bind hends
  simp only [if_neg hsome]
  exact hassign

theorem runClasses_ends (layouts : ID → Option (List (LayoutSlot N)))
    (hnone : ∀ x ∈ g.ids, layouts x = none) :
    ∃ flc, Fuel.Ends (fun fuel => runClasses g.sp fuel layouts g.ids.sort) flc ∧
      Laid g g.ids.sort flc := by
  have hstep : ∀ before x after flc, g.ids.sort = before ++ x :: after → Laid g before flc →
      ∃ flc', Fuel.Ends (fun fuel => layoutClass g.sp fuel flc x) flc' ∧
        Laid g (before ++ [x]) flc' := by
    intro before x after flc hsplit h
    have hx : x ∈ g.ids := by
      apply (Finset.mem_sort (· ≤ ·)).mp
      rw [hsplit]
      exact mem_append_right _ mem_cons_self
    obtain ⟨flc', hends, hlaid, _⟩ := layoutClass_ends h hx
    exact ⟨flc', hends, hlaid⟩
  exact Fuel.Ends.foldlM (fun fuel => layoutClass g.sp fuel) (Laid g) g.ids.sort hstep
    (fixed_laid layouts hnone _ fun x hx => (Finset.mem_sort (· ≤ ·)).mpr hx)

end SkipPlatform.FieldLayout
