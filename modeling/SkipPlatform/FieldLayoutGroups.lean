import Mathlib.Data.Finset.Filter
import SkipPlatform.FieldLayoutOffsets

set_option autoImplicit false
set_option linter.unusedSectionVars false

/-! The groups of classes that are laid out apart from each other. -/
namespace SkipPlatform.FieldLayout
open List

variable {ID N : Type} [LinearOrder ID] [DecidableEq N]

structure Forest (ids : Finset ID) (parents : ID → ID) : Prop where
  le : ∀ x, parents x ≤ x
  mem : ∀ x ∈ ids, parents x ∈ ids

inductive Root (parents : ID → ID) : ID → ID → Prop where
  | self {r : ID} (h : parents r = r) : Root parents r r
  | step {x r : ID} (hne : parents x ≠ x) (h : Root parents (parents x) r) : Root parents x r

def Same (parents : ID → ID) (a b : ID) : Prop := ∃ r, Root parents a r ∧ Root parents b r

namespace Root
variable {parents : ID → ID}

theorem root {x r : ID} (h : Root parents x r) : parents r = r := by
  induction h with
  | self h => exact h
  | step _ _ ih => exact ih

theorem unique {x r r' : ID} (h : Root parents x r) (h' : Root parents x r') : r = r' := by
  induction h with
  | self hself =>
    cases h' with
    | self _ => rfl
    | step hne _ => exact absurd hself hne
  | step hne _ ih =>
    cases h' with
    | self hself => exact absurd hself hne
    | step _ h => exact ih h

theorem le {ids : Finset ID} (hforest : Forest ids parents) {x r : ID} (h : Root parents x r) :
    r ≤ x := by
  induction h with
  | self _ => exact le_refl _
  | step _ _ ih => exact ih.trans (hforest.le _)

theorem mem {ids : Finset ID} (hforest : Forest ids parents) {x r : ID} (h : Root parents x r)
    (hx : x ∈ ids) : r ∈ ids := by
  induction h with
  | self _ => exact hx
  | step _ _ ih => exact ih (hforest.mem _ hx)

end Root

/-- The classes before one of them, by which the loops over parents end. -/
def smaller (ids : Finset ID) (x : ID) : ℕ := (ids.filter fun y => y < x).card

theorem smaller_lt {ids : Finset ID} {x y : ID} (hy : y ∈ ids) (hlt : y < x) :
    smaller ids y < smaller ids x := by
  apply Finset.card_lt_card
  rw [Finset.ssubset_iff_of_subset]
  · exact ⟨y, Finset.mem_filter.mpr ⟨hy, hlt⟩, fun hin => lt_irrefl y (Finset.mem_filter.mp hin).2⟩
  · intro z hz
    obtain ⟨hin, hless⟩ := Finset.mem_filter.mp hz
    exact Finset.mem_filter.mpr ⟨hin, hless.trans hlt⟩

variable {ids : Finset ID} {parents : ID → ID}

variable {x : ID}

theorem Forest.smaller_parent (h : Forest ids parents) (hx : x ∈ ids)
    (hne : parents x ≠ x) : smaller ids (parents x) < smaller ids x :=
  smaller_lt (h.mem x hx) (lt_of_le_of_ne (h.le x) hne)

theorem Forest.exists_root (h : Forest ids parents) (size : ℕ) (hx : x ∈ ids)
    (hsize : smaller ids x < size) : ∃ r, Root parents x r := by
  induction size generalizing x with
  | zero => exact absurd hsize (by omega)
  | succ size ih =>
    by_cases hself : parents x = x
    · exact ⟨x, .self hself⟩
    · have hless := h.smaller_parent hx hself
      obtain ⟨r, hr⟩ := ih (h.mem x hx) (by omega)
      exact ⟨r, .step hself hr⟩

theorem Forest.root (h : Forest ids parents) (hx : x ∈ ids) : ∃ r, Root parents x r :=
  h.exists_root _ hx (Nat.lt_succ_self _)

theorem Forest.update (h : Forest ids parents) {x r : ID} (hle : r ≤ x) (hr : x ∈ ids → r ∈ ids) :
    Forest ids (Function.update parents x r) := by
  constructor
  · intro y
    by_cases heq : y = x
    · rw [heq, Function.update_self]
      exact hle
    · rw [Function.update_of_ne heq]
      exact h.le y
  · intro y hy
    by_cases heq : y = x
    · rw [heq, Function.update_self]
      exact hr (heq ▸ hy)
    · rw [Function.update_of_ne heq]
      exact h.mem y hy

theorem Root.shorten {x r : ID} (hx : Root parents x r) (hne : parents x ≠ x) {y r' : ID}
    (h : Root parents y r') : Root (Function.update parents x r) y r' := by
  have hxr : r ≠ x := by
    intro heq
    exact hne (heq ▸ hx.root)
  have hroot : ∀ z, parents z = z → Function.update parents x r z = z := by
    intro z hz
    rw [Function.update_of_ne]
    · exact hz
    · intro heq
      exact hne (heq ▸ hz)
  induction h with
  | self hself => exact .self (hroot _ hself)
  | @step y r' hney hy ih =>
    by_cases heq : y = x
    · have hsame : r' = r := (Root.step hney hy).unique (heq ▸ hx)
      rw [heq, hsame]
      apply Root.step
      · rw [Function.update_self]
        exact hxr
      · rw [Function.update_self]
        exact .self (hroot r hx.root)
    · apply Root.step
      · rw [Function.update_of_ne heq]
        exact hney
      · rw [Function.update_of_ne heq]
        exact ih

theorem Root.join {big small : ID} (hbig : parents big = big) (hsmall : parents small = small)
    {y r : ID} (h : Root parents y r) :
    Root (Function.update parents big small) y (if r = big then small else r) := by
  have hself : Root (Function.update parents big small) small small := by
    apply Root.self
    by_cases heq : small = big
    · rw [heq, Function.update_self]
    · rw [Function.update_of_ne heq]
      exact hsmall
  induction h with
  | @self r hr =>
    by_cases heq : r = big
    · rw [if_pos heq, heq]
      by_cases hsame : small = big
      · rw [← hsame] at hself ⊢
        exact hself
      · apply Root.step
        · rw [Function.update_self]
          exact hsame
        · rw [Function.update_self]
          exact hself
    · rw [if_neg heq]
      apply Root.self
      rw [Function.update_of_ne heq]
      exact hr
  | @step y r hne _ ih =>
    have heq : y ≠ big := by
      intro heq
      exact hne (heq ▸ hbig)
    apply Root.step
    · rw [Function.update_of_ne heq]
      exact hne
    · rw [Function.update_of_ne heq]
      exact ih

theorem Same.join {big small : ID} (hbig : parents big = big) (hsmall : parents small = small)
    {a b : ID} (h : Same parents a b) : Same (Function.update parents big small) a b := by
  obtain ⟨r, ha, hb⟩ := h
  exact ⟨_, ha.join hbig hsmall, hb.join hbig hsmall⟩

theorem findRoot_ends {x r : ID} (h : Root parents x r) :
    Fuel.Ends (fun fuel => findRoot parents fuel x) r := by
  induction h with
  | self hself =>
    refine Fuel.Ends.succ ?_ (Fuel.Ends.pure _)
    intro fuel
    rw [findRoot, if_pos hself]
  | step hne _ ih =>
    refine Fuel.Ends.succ ?_ ih
    intro fuel
    rw [findRoot, if_neg hne]

def Kept (parents parents' : ID → ID) : Prop := ∀ x r, Root parents x r → Root parents' x r

theorem Kept.same {parents' : ID → ID} (h : Kept parents parents') {a b : ID}
    (hsame : Same parents a b) : Same parents' a b := by
  obtain ⟨r, ha, hb⟩ := hsame
  exact ⟨r, h a r ha, h b r hb⟩

theorem compressPath_ends (size : ℕ) {parents : ID → ID} (hforest : Forest ids parents) {x r : ID}
    (h : Root parents x r) (hx : x ∈ ids) (hsize : smaller ids x < size) :
    ∃ parents', Fuel.Ends (fun fuel => compressPath r fuel parents x) parents' ∧
      Forest ids parents' ∧ Kept parents parents' := by
  induction size generalizing parents x with
  | zero => exact absurd hsize (by omega)
  | succ size ih =>
    by_cases hself : parents x = x
    · refine ⟨parents, Fuel.Ends.succ ?_ (Fuel.Ends.pure _), hforest, fun _ _ hr => hr⟩
      intro fuel
      rw [compressPath, if_pos hself]
    · have hless := hforest.smaller_parent hx hself
      have hnext : Root parents (parents x) r := by
        cases h with
        | self hr => exact absurd hr hself
        | step _ hr => exact hr
      have hforest' := hforest.update (x := x) (h.le hforest) fun _ => h.mem hforest hx
      obtain ⟨parents', hends, hforest'', hkept⟩ := ih hforest' (h.shorten hself hnext)
        (hforest.mem x hx) (by omega)
      refine ⟨parents', Fuel.Ends.succ ?_ hends, hforest'', ?_⟩
      · intro fuel
        rw [compressPath, if_neg hself]
      · intro y r' hy
        exact hkept y r' (h.shorten hself hy)

theorem fieldLayoutRoot_ends (hforest : Forest ids parents) (hx : x ∈ ids) :
    ∃ root parents', Fuel.Ends (fun fuel => fieldLayoutRoot fuel parents x) (root, parents') ∧
      Root parents x root ∧ Forest ids parents' ∧ Kept parents parents' := by
  obtain ⟨root, hroot⟩ := hforest.root hx
  obtain ⟨parents', hends, hforest', hkept⟩ := compressPath_ends _ hforest hroot hx (Nat.lt_succ_self _)
  refine ⟨root, parents', ?_, hroot, hforest', hkept⟩
  exact (findRoot_ends hroot).bind (hends.map fun parents => (root, parents))

structure Program (ID N : Type) [LinearOrder ID] [DecidableEq N] extends ClassGraph ID N where
  subtypes_mem : ∀ id ∈ ids, ∀ sub ∈ sp.subtypes id, sub ∈ ids

def Program.shapes (p : Program ID N) : List (FieldLayoutShapeFile ID N) :=
  p.ids.sort.map (shapeOf p.sp)

def Sharing (sp : Specializer ID N) (a b : ID) : Prop :=
  ∃ name, hasField sp a name = true ∧ hasField sp b name = true

theorem sharing_iff (g : ClassGraph ID N) {a b : ID} :
    ((shapeOf g.sp a).fields.any fun name => name ∈ (shapeOf g.sp b).fields) = true ↔
      Sharing g.sp a b := by
  have hfield : ∀ x name, name ∈ (shapeOf g.sp x).fields ↔ hasField g.sp x name = true := by
    intro x name
    rw [ClassGraph.hasField_iff]
    exact mem_map
  rw [any_eq_true]
  constructor
  · intro h
    obtain ⟨name, ha, hb⟩ := h
    exact ⟨name, (hfield a name).mp ha, (hfield b name).mp (of_decide_eq_true hb)⟩
  · intro h
    obtain ⟨name, ha, hb⟩ := h
    exact ⟨name, (hfield a name).mpr ha, decide_eq_true ((hfield b name).mpr hb)⟩

theorem find_shape (sp : Specializer ID N) (classes : List ID) (hx : x ∈ classes) :
    ((classes.map (shapeOf sp)).find? fun other => other.id = x) = some (shapeOf sp x) := by
  induction classes with
  | nil => exact absurd hx (by simp)
  | cons y rest ih =>
    rw [map_cons, List.find?_cons]
    by_cases heq : y = x
    · have hid : (shapeOf sp y).id = x := heq
      simp only [hid, decide_true]
      rw [heq]
    · have hid : (shapeOf sp y).id ≠ x := heq
      simp only [hid, decide_false]
      exact ih ((mem_cons.mp hx).resolve_left fun h => heq h.symm)

section Plan

variable (p : Program ID N)

theorem joinSubtype_ends {parents : ID → ID} (hforest : Forest p.ids parents) {id sub : ID}
    (hid : id ∈ p.ids) (hsub : sub ∈ p.ids) :
    ∃ parents', Fuel.Ends (fun fuel =>
        joinSubtype fuel p.shapes (shapeOf p.sp id) parents sub) parents' ∧
      Forest p.ids parents' ∧ (∀ a b, Same parents a b → Same parents' a b) ∧
      (Sharing p.sp id sub → Same parents' id sub) := by
  have hfind : (p.shapes.find? fun other => other.id = sub) = some (shapeOf p.sp sub) :=
    find_shape p.sp _ ((Finset.mem_sort (· ≤ ·)).mpr hsub)
  have hown : (shapeOf p.sp id).id = id := rfl
  by_cases hself : sub = id
  · refine ⟨parents, ?_, hforest, fun a b h => h, ?_⟩
    · unfold joinSubtype
      simp only [hown, if_pos hself]
      exact Fuel.Ends.pure _
    · intro _
      obtain ⟨r, hr⟩ := hforest.root hid
      exact ⟨r, hr, hself ▸ hr⟩
  by_cases hshare : Sharing p.sp id sub
  · obtain ⟨left, parents₁, hleft, hrootl, hforest₁, hkept₁⟩ := fieldLayoutRoot_ends hforest hid
    obtain ⟨right, parents₂, hright, hrootr, hforest₂, hkept₂⟩ := fieldLayoutRoot_ends hforest₁ hsub
    have hl : Root parents₂ id left := hkept₂ _ _ (hkept₁ _ _ hrootl)
    have hr : Root parents₂ sub right := hkept₂ _ _ hrootr
    have hlids := hl.mem hforest₂ hid
    have hrids := hr.mem hforest₂ hsub
    have hends : Fuel.Ends (fun fuel => joinSubtype fuel p.shapes (shapeOf p.sp id) parents sub)
        (if left < right then Function.update parents₂ right left
          else Function.update parents₂ left right) := by
      unfold joinSubtype
      simp only [hown, if_neg hself, hfind, Option.bind_some, (sharing_iff p.toClassGraph).mpr hshare,
        if_true]
      exact hleft.bind (hright.map fun right : ID × (ID → ID) =>
        if left < right.1 then Function.update right.2 right.1 left
        else Function.update right.2 left right.1)
    refine ⟨_, hends, ?_⟩
    have hsame : ∀ a b, Same parents a b → Same parents₂ a b :=
      fun a b h => hkept₂.same (hkept₁.same h)
    split_ifs with hlt
    · refine ⟨hforest₂.update hlt.le fun _ => hlids,
        fun a b h => (hsame a b h).join hr.root hl.root, fun _ => ?_⟩
      refine ⟨left, ?_, ?_⟩
      · have hjoin := hl.join hr.root hl.root
        rw [if_neg (ne_of_lt hlt)] at hjoin
        exact hjoin
      · have hjoin := hr.join hr.root hl.root
        rw [if_pos rfl] at hjoin
        exact hjoin
    · refine ⟨hforest₂.update (not_lt.mp hlt) fun _ => hrids,
        fun a b h => (hsame a b h).join hl.root hr.root, fun _ => ?_⟩
      refine ⟨right, ?_, ?_⟩
      · have hjoin := hl.join hl.root hr.root
        rw [if_pos rfl] at hjoin
        exact hjoin
      · have hjoin := hr.join hl.root hr.root
        rw [ite_self] at hjoin
        exact hjoin
  · have hno : ((shapeOf p.sp id).fields.any fun name => name ∈ (shapeOf p.sp sub).fields) = false := by
      rw [← Bool.not_eq_true]
      exact fun h => hshare ((sharing_iff p.toClassGraph).mp h)
    refine ⟨parents, ?_, hforest, fun a b h => h, fun h => absurd h hshare⟩
    unfold joinSubtype
    simp only [hown, if_neg hself, hfind, Option.bind_some, hno, Bool.false_eq_true, if_false]
    exact Fuel.Ends.pure _

theorem joinShape_ends {parents : ID → ID} (hforest : Forest p.ids parents) {id : ID}
    (hid : id ∈ p.ids) :
    ∃ parents', Fuel.Ends (fun fuel => joinShape fuel p.shapes parents (shapeOf p.sp id)) parents' ∧
      Forest p.ids parents' ∧ (∀ a b, Same parents a b → Same parents' a b) ∧
      ∀ sub ∈ p.sp.subtypes id, Sharing p.sp id sub → Same parents' id sub := by
  have hstep : ∀ before sub after parents₁, p.sp.subtypes id = before ++ sub :: after →
      (Forest p.ids parents₁ ∧ (∀ a b, Same parents a b → Same parents₁ a b) ∧
        ∀ sub ∈ before, Sharing p.sp id sub → Same parents₁ id sub) →
      ∃ parents₂, Fuel.Ends (fun fuel =>
          joinSubtype fuel p.shapes (shapeOf p.sp id) parents₁ sub) parents₂ ∧
        (Forest p.ids parents₂ ∧ (∀ a b, Same parents a b → Same parents₂ a b) ∧
          ∀ sub' ∈ before ++ [sub], Sharing p.sp id sub' → Same parents₂ id sub') := by
    intro before sub after parents₁ hsplit hinv
    obtain ⟨hforest₁, hsame, hdone⟩ := hinv
    have hsub : sub ∈ p.ids := by
      apply p.subtypes_mem id hid
      rw [hsplit]
      exact mem_append_right _ mem_cons_self
    obtain ⟨parents₂, hends, hforest₂, hkept, hnew⟩ := joinSubtype_ends p hforest₁ hid hsub
    refine ⟨parents₂, hends, hforest₂, fun a b h => hkept a b (hsame a b h), ?_⟩
    intro sub' hin hshare
    cases mem_append.mp hin with
    | inl hold => exact hkept _ _ (hdone sub' hold hshare)
    | inr hlast =>
      rw [mem_singleton.mp hlast] at hshare ⊢
      exact hnew hshare
  exact Fuel.Ends.foldlM (fun fuel => joinSubtype fuel p.shapes (shapeOf p.sp id)) _
    (p.sp.subtypes id) hstep ⟨hforest, fun a b h => h, fun sub hin => absurd hin (by simp)⟩

theorem joinShapes_ends :
    ∃ parents, Fuel.Ends (fun fuel => p.shapes.foldlM (joinShape fuel p.shapes) id) parents ∧
      Forest p.ids parents ∧
      ∀ a ∈ p.ids, ∀ sub ∈ p.sp.subtypes a, Sharing p.sp a sub → Same parents a sub := by
  have hstep : ∀ before shape after parents, p.shapes = before ++ shape :: after →
      (Forest p.ids parents ∧ ∀ a, shapeOf p.sp a ∈ before → ∀ sub ∈ p.sp.subtypes a,
        Sharing p.sp a sub → Same parents a sub) →
      ∃ parents', Fuel.Ends (fun fuel => joinShape fuel p.shapes parents shape) parents' ∧
        (Forest p.ids parents' ∧ ∀ a, shapeOf p.sp a ∈ before ++ [shape] →
          ∀ sub ∈ p.sp.subtypes a, Sharing p.sp a sub → Same parents' a sub) := by
    intro before shape after parents hsplit hinv
    have hshape : shape ∈ p.shapes := by
      rw [hsplit]
      exact mem_append_right _ mem_cons_self
    obtain ⟨id, hid, heq⟩ := mem_map.mp hshape
    obtain ⟨parents', hends, hforest, hkept, hnew⟩ :=
      joinShape_ends p hinv.1 ((Finset.mem_sort (· ≤ ·)).mp hid)
    rw [← heq]
    refine ⟨parents', hends, hforest, ?_⟩
    intro a hin sub hsub hshare
    cases mem_append.mp hin with
    | inl hold => exact hkept _ _ (hinv.2 a hold sub hsub hshare)
    | inr hlast =>
      have hsame : a = id := congrArg FieldLayoutShapeFile.id (mem_singleton.mp hlast)
      rw [hsame] at hsub hshare ⊢
      exact hnew sub hsub hshare
  obtain ⟨parents, hends, hforest, hall⟩ := Fuel.Ends.foldlM
    (fun fuel => joinShape fuel p.shapes) _ p.shapes hstep
    (s := id) ⟨⟨fun x => le_refl x, fun x hx => hx⟩, fun a hin => absurd hin (by simp)⟩
  refine ⟨parents, hends, hforest, ?_⟩
  intro a ha
  exact hall a (mem_map_of_mem ((Finset.mem_sort (· ≤ ·)).mpr ha))

structure Members (parents : ID → ID) (before : List ID) (groups : SortedMap ID (SortedSet ID)) :
    Prop where
  found : ∀ r set, groups.maybeGet r = some set → ∀ x, x ∈ set.keys ↔ x ∈ before ∧ Root parents x r
  all : ∀ x ∈ before, ∀ r, Root parents x r → ∃ set, groups.maybeGet r = some set

theorem Members.add {before : List ID} {parents : ID → ID} {groups : SortedMap ID (SortedSet ID)}
    (h : Members parents before groups) {x root : ID} (hx : Root parents x root) :
    Members parents (before ++ [x])
      (groups.set root (((groups.maybeGet root).getD .empty).set x ())) := by
  have hold : ∀ y, y ∈ ((groups.maybeGet root).getD .empty).keys ↔
      y ∈ before ∧ Root parents y root := by
    intro y
    cases hget : groups.maybeGet root with
    | some set => exact h.found root set hget y
    | none =>
      constructor
      · exact fun hin => absurd hin (by simp [SortedMap.keys, SortedMap.items, SortedMap.empty,
          SortedTree.items])
      · intro hy
        obtain ⟨set, hset⟩ := h.all y hy.1 root hy.2
        rw [hget] at hset
        exact absurd hset (by simp)
  have hset : ∀ y, y ∈ (((groups.maybeGet root).getD .empty).set x ()).keys ↔
      y = x ∨ y ∈ before ∧ Root parents y root := by
    intro y
    rw [← hold, SortedMap.mem_keys, SortedMap.mem_keys]
    simp only [SortedMap.maybeGet_set]
    by_cases heq : y = x
    · simp [heq]
    · simp [heq]
  constructor
  · intro r set hget y
    rw [SortedMap.maybeGet_set] at hget
    by_cases hr : r = root
    · rw [if_pos hr] at hget
      rw [← Option.some.inj hget, hset, hr, mem_append, mem_singleton]
      constructor
      · intro hy
        rcases hy with hy | hy
        · exact ⟨.inr hy, hy ▸ hx⟩
        · exact ⟨.inl hy.1, hy.2⟩
      · intro hy
        rcases hy with ⟨hy | hy, hroot⟩
        · exact .inr ⟨hy, hroot⟩
        · exact .inl hy
    · rw [if_neg hr] at hget
      rw [h.found r set hget, mem_append, mem_singleton]
      constructor
      · exact fun hy => ⟨.inl hy.1, hy.2⟩
      · intro hy
        rcases hy with ⟨hy | hy, hroot⟩
        · exact ⟨hy, hroot⟩
        · exact absurd (hroot.unique (hy ▸ hx)) hr
  · intro y hy r hroot
    rw [SortedMap.maybeGet_set]
    by_cases hr : r = root
    · rw [if_pos hr]
      exact ⟨_, rfl⟩
    · rw [if_neg hr]
      cases mem_append.mp hy with
      | inl hin => exact h.all y hin r hroot
      | inr hlast => exact absurd (hroot.unique (mem_singleton.mp hlast ▸ hx)) hr

theorem addMembers_ends {parents : ID → ID} (hforest : Forest p.ids parents) :
    ∃ s, Fuel.Ends (fun fuel => p.shapes.foldlM (addMember fuel) (parents, .empty)) s ∧
      Members parents (p.shapes.map FieldLayoutShapeFile.id) s.2 := by
  have hstep : ∀ before shape after s, p.shapes = before ++ shape :: after →
      ((Forest p.ids s.1 ∧ Kept parents s.1) ∧
        Members parents (before.map FieldLayoutShapeFile.id) s.2) →
      ∃ s', Fuel.Ends (fun fuel => addMember fuel s shape) s' ∧
        ((Forest p.ids s'.1 ∧ Kept parents s'.1) ∧
          Members parents ((before ++ [shape]).map FieldLayoutShapeFile.id) s'.2) := by
    intro before shape after s hsplit hinv
    obtain ⟨⟨hforest', hkept⟩, hmembers⟩ := hinv
    have hshape : shape ∈ p.shapes := by
      rw [hsplit]
      exact mem_append_right _ mem_cons_self
    obtain ⟨id, hid, heq⟩ := mem_map.mp hshape
    have hin : shape.id ∈ p.ids := by
      rw [← heq]
      exact (Finset.mem_sort (· ≤ ·)).mp hid
    obtain ⟨root, parents', hends, hroot, hforest'', hkept'⟩ := fieldLayoutRoot_ends hforest' hin
    obtain ⟨r, hr⟩ := hforest.root hin
    have hsame : r = root := (hkept _ _ hr).unique hroot
    refine ⟨_, hends.map fun root : ID × (ID → ID) =>
      (root.2, s.2.set root.1 (((s.2.maybeGet root.1).getD .empty).set shape.id ())), ?_, ?_⟩
    · exact ⟨hforest'', fun x r hx => hkept' x r (hkept x r hx)⟩
    · rw [map_append]
      exact hmembers.add (hsame ▸ hr)
  obtain ⟨s, hends, _, hmembers⟩ := Fuel.Ends.foldlM (fun fuel => addMember fuel) _ p.shapes hstep
    (s := (parents, .empty)) ⟨⟨hforest, fun _ _ h => h⟩,
      ⟨fun r set h => absurd h (by simp [SortedMap.maybeGet, SortedMap.maybeGetItem,
        SortedMap.empty, SortedTree.maybeGetItem]), fun x hx => absurd hx (by simp)⟩⟩
  exact ⟨s, hends, hmembers⟩

/-- The groups are the classes of one root; classes that share a field with a subtype have one. -/
structure Planned (parents : ID → ID) (groups : SortedMap ID (List ID)) : Prop where
  forest : Forest p.ids parents
  joined : ∀ a ∈ p.ids, ∀ sub ∈ p.sp.subtypes a, Sharing p.sp a sub → Same parents a sub
  sorted : ∀ r group, groups.maybeGet r = some group → group.Pairwise (· < ·)
  found : ∀ r group, groups.maybeGet r = some group → ∀ x, x ∈ group ↔ x ∈ p.ids ∧ Root parents x r
  all : ∀ x ∈ p.ids, ∀ r, Root parents x r → ∃ group, groups.maybeGet r = some group

theorem planFieldLayoutGroups_ends :
    ∃ groups, Fuel.Ends (fun fuel => planFieldLayoutGroups fuel p.shapes) groups ∧
      ∃ parents, Planned p parents groups := by
  obtain ⟨parents, hjoin, hforest, hall⟩ := joinShapes_ends p
  obtain ⟨s, hends, hmembers⟩ := addMembers_ends p hforest
  have hids : ∀ x, x ∈ p.shapes.map FieldLayoutShapeFile.id ↔ x ∈ p.ids := by
    intro x
    have hmap : p.shapes.map FieldLayoutShapeFile.id = p.ids.sort := by
      unfold Program.shapes
      rw [map_map]
      exact map_id _
    rw [hmap]
    exact Finset.mem_sort (· ≤ ·)
  have hgroup : ∀ r group, (s.2.map fun _ ids => ids.keys).maybeGet r = some group →
      ∃ set, s.2.maybeGet r = some set ∧ group = set.keys := by
    intro r group hget
    rw [SortedMap.maybeGet_map] at hget
    obtain ⟨set, hset, heq⟩ := Option.map_eq_some_iff.mp hget
    exact ⟨set, hset, heq.symm⟩
  refine ⟨s.2.map fun _ ids => ids.keys, ?_, parents, hforest, hall, ?_, ?_, ?_⟩
  · exact hjoin.bind (hends.map fun s : (ID → ID) × SortedMap ID (SortedSet ID) =>
      s.2.map fun _ ids => ids.keys)
  · intro r group hget
    obtain ⟨set, _, heq⟩ := hgroup r group hget
    rw [heq]
    exact set.keys_sorted
  · intro r group hget x
    obtain ⟨set, hset, heq⟩ := hgroup r group hget
    rw [heq, hmembers.found r set hset, hids]
  · intro x hx r hroot
    obtain ⟨set, hset⟩ := hmembers.all x ((hids x).mpr hx) r hroot
    refine ⟨set.keys, ?_⟩
    rw [SortedMap.maybeGet_map, hset]
    rfl

end Plan

/-- The classes of `part` on their own. -/
def ClassGraph.part (g : ClassGraph ID N) (part : Finset ID)
    (hclosed : ∀ a ∈ part, ∀ b, b ∈ g.sp.supertypes a ∨ b ∈ g.sp.subtypes a →
      ∀ name, hasField g.sp a name = true → hasField g.sp b name = true → b ∈ part) :
    ClassGraph ID N :=
  { g with ids := part, closed := hclosed }

variable {g : ClassGraph ID N}

theorem Laid.part {part : Finset ID} (hsub : part ⊆ g.ids)
    (hclosed : ∀ a ∈ part, ∀ b, b ∈ g.sp.supertypes a ∨ b ∈ g.sp.subtypes a →
      ∀ name, hasField g.sp a name = true → hasField g.sp b name = true → b ∈ part)
    {before : List ID} {flc : FieldLayoutChooser ID N} (h : Laid g before flc) :
    Laid (g.part part hclosed) before flc := by
  refine ⟨h.closed, fun k hk hreal hin => h.real k hk hreal (hsub hin),
    fun x hx => h.processed x (hsub hx), fun x hx => h.fixed x (hsub hx), ?_,
    fun x hx => h.laid x (hsub hx), fun x hx => h.only x (hsub hx),
    fun x hx => h.agreed x (hsub hx), h.done⟩
  intro x hx slots hslots
  obtain ⟨hnames, htypes, hpacked⟩ := h.layouts x (hsub hx) slots hslots
  exact ⟨hnames, htypes, hpacked⟩

/-- The fields of the classes of `g` that are done. -/
def SameDone (g : ClassGraph ID N) (done done' : Finset (ID × N)) : Prop :=
  ∀ k, Real g k → k.1 ∈ g.ids → (k ∈ done' ↔ k ∈ done)

/-- Two choosers have done the same with the classes of `g`. -/
structure Agree (g : ClassGraph ID N) (flc flc' : FieldLayoutChooser ID N) : Prop where
  layouts : ∀ x ∈ g.ids, flc'.layouts x = flc.layouts x
  processed : ∀ x ∈ g.ids, (x ∈ flc'.classAlreadyProcessed ↔ x ∈ flc.classAlreadyProcessed)
  done : SameDone g flc.fieldsDone flc'.fieldsDone

theorem SameDone.insert {done done' : Finset (ID × N)} (h : SameDone g done done') (k : ID × N) :
    SameDone g (insert k done) (insert k done') := by
  intro k' hreal hin
  rw [Finset.mem_insert, Finset.mem_insert, h k' hreal hin]

theorem SameDone.not_real {done done' : Finset (ID × N)} (h : SameDone g done done') {k : ID × N}
    (hk : ¬ Real g k) : SameDone g (Insert.insert k done) done' ∧
      SameDone g done (Insert.insert k done') := by
  have hne : ∀ k', Real g k' → k' ≠ k := fun k' hreal heq => hk (heq ▸ hreal)
  constructor
  · intro k' hreal hin
    rw [Finset.mem_insert, h k' hreal hin]
    exact ⟨.inr, fun hor => hor.resolve_left (hne k' hreal)⟩
  · intro k' hreal hin
    rw [Finset.mem_insert, h k' hreal hin]
    exact ⟨fun hor => hor.resolve_left (hne k' hreal), .inr⟩

structure SameReached (g : ClassGraph ID N) (name : N) (s s' : Reached ID N) : Prop where
  types : s'.types = s.types
  mem : ∀ t ∈ s.types, t ∈ g.ids ∧ hasField g.sp t name = true
  done : SameDone g s.fieldsDone s'.fieldsDone

variable {s s' : Reached ID N} {name : N}

theorem SameReached.push (h : SameReached g name s s')
    (hx : x ∈ g.ids) (hfield : hasField g.sp x name = true) :
    SameReached g name ⟨insert (x, name) s.fieldsDone, s.types ++ [x]⟩
      ⟨insert (x, name) s'.fieldsDone, s'.types ++ [x]⟩ := by
  refine ⟨by simp only [h.types], ?_, h.done.insert _⟩
  intro t ht
  cases mem_append.mp ht with
  | inl hold => exact h.mem t hold
  | inr hlast =>
    rw [mem_singleton.mp hlast]
    exact ⟨hx, hfield⟩

theorem visitSuper_same (h : SameReached g name s s')
    (hx : hasField g.sp x name = true → x ∈ g.ids) :
    SameReached g name (visitSuper g.sp name s x) (visitSuper g.sp name s' x) := by
  unfold visitSuper
  by_cases hfield : hasField g.sp x name = true
  · simp only [if_pos hfield, h.done (x, name) hfield (hx hfield)]
    split_ifs
    · exact h
    · exact h.push (hx hfield) hfield
  · have hreal : ¬ Real g (x, name) := hfield
    simp only [if_neg hfield]
    split_ifs
    · exact h
    · exact ⟨h.types, h.mem, (h.done.not_real hreal).2⟩
    · exact ⟨h.types, h.mem, (h.done.not_real hreal).1⟩
    · exact ⟨h.types, h.mem, h.done.insert _⟩

theorem visitSub_same (h : SameReached g name s s')
    (hx : hasField g.sp x name = true → x ∈ g.ids) (hfield : hasField g.sp x name = true) :
    Option.Rel (SameReached g name) (visitSub g.sp name s x) (visitSub g.sp name s' x) := by
  unfold visitSub
  simp only [if_pos hfield, h.done (x, name) hfield (hx hfield)]
  split_ifs
  · exact .some h
  · exact .some (h.push (hx hfield) hfield)

theorem visit_same (h : SameReached g name s s') {sid : ID}
    (hsid : sid ∈ s.types) :
    Option.Rel (SameReached g name) (visit g.sp name s sid) (visit g.sp name s' sid) := by
  obtain ⟨hin, hfield⟩ := h.mem sid hsid
  have hsupers : ∀ classes : List ID, (∀ x ∈ classes, hasField g.sp x name = true → x ∈ g.ids) →
      ∀ s s', SameReached g name s s' → SameReached g name
        (classes.foldl (visitSuper g.sp name) s) (classes.foldl (visitSuper g.sp name) s') := by
    intro classes
    induction classes with
    | nil => exact fun _ _ _ h => h
    | cons x rest ih =>
      intro hall s s' h
      exact ih (fun y hy => hall y (mem_cons_of_mem x hy)) _ _
        (visitSuper_same h (hall x mem_cons_self))
  apply Fuel.rel_foldlM (R := SameReached g name)
  · intro x hx s s' h
    have hsub : hasField g.sp x name = true := by
      obtain ⟨f, hf, hname⟩ := ClassGraph.hasField_iff.mp hfield
      obtain ⟨f', hf', hname', _⟩ := g.inherits x sid ((g.inverse x sid).mpr hx) f hf
      exact ClassGraph.hasField_iff.mpr ⟨f', hf', hname'.trans hname⟩
    exact visitSub_same h (g.closed sid hin x (.inr hx) name hfield) hsub
  · exact hsupers _ (fun x hx => g.closed sid hin x (.inl hx) name hfield) s s' h

theorem constrainLoop_same (name : N) (fuel i : ℕ)
    (h : SameReached g name s s') :
    Option.Rel (SameReached g name) (constrainLoop g.sp name fuel i s)
      (constrainLoop g.sp name fuel i s') := by
  induction fuel generalizing i s s' with
  | zero => exact .none
  | succ fuel ih =>
    rw [constrainLoop, constrainLoop, h.types]
    cases hget : s.types[i]? with
    | none => exact .some h
    | some sid =>
      exact Fuel.rel_bind (visit_same h (mem_of_getElem? hget)) fun a b hab => ih (i + 1) hab

structure SameConnecting (g : ClassGraph ID N) (s s' : Connecting ID N) : Prop where
  constraints : s'.constraints = s.constraints
  stack : s'.connectedClassesStack = s.connectedClassesStack
  mem : ∀ x ∈ s.connectedClassesStack, x ∈ g.ids
  processed : ∀ x ∈ g.ids, (x ∈ s'.classAlreadyProcessed ↔ x ∈ s.classAlreadyProcessed)
  done : SameDone g s.fieldsDone s'.fieldsDone

theorem pushClasses_same (types : List ID) (htypes : ∀ t ∈ types, t ∈ g.ids)
    {s s' : Connecting ID N} (h : SameConnecting g s s') :
    SameConnecting g (types.foldl pushClass s) (types.foldl pushClass s') := by
  induction types generalizing s s' with
  | nil => exact h
  | cons t rest ih =>
    have hin := htypes t mem_cons_self
    apply ih fun t' ht' => htypes t' (mem_cons_of_mem t ht')
    unfold pushClass
    simp only [h.processed t hin]
    split_ifs
    · exact h
    · refine ⟨h.constraints, by simp only [h.stack], ?_, ?_, h.done⟩
      · intro x hx
        cases mem_cons.mp hx with
        | inl heq => exact heq ▸ hin
        | inr hold => exact h.mem x hold
      · intro x hx
        rw [Finset.mem_insert, Finset.mem_insert, h.processed x hx]

theorem connectField_same (fuel : ℕ) {sid : ID} (hsid : sid ∈ g.ids) {s s' : Connecting ID N}
    (h : SameConnecting g s s') {field : SField ID N} (hfield : field ∈ (g.sp.sclass sid).fields) :
    Option.Rel (SameConnecting g) (connectField g.sp fuel (g.sp.sclass sid) s field)
      (connectField g.sp fuel (g.sp.sclass sid) s' field) := by
  have hreal : Real g (sid, field.name) := ClassGraph.hasField_iff.mpr ⟨field, hfield, rfl⟩
  unfold connectField
  simp only [g.own, h.done _ hreal hsid]
  split_ifs
  · exact .some h
  · have hstart : SameReached g field.name
        ⟨insert (sid, field.name) s.fieldsDone, [(g.sp.sclass sid).id]⟩
        ⟨insert (sid, field.name) s'.fieldsDone, [(g.sp.sclass sid).id]⟩ := by
      refine ⟨rfl, ?_, h.done.insert _⟩
      intro t ht
      rw [mem_singleton.mp ht, g.own]
      exact ⟨hsid, hreal⟩
    apply Fuel.rel_map (R := fun r r' : Finset (ID × N) × FieldLayoutConstraint ID N =>
      r'.2 = r.2 ∧ (∀ t ∈ r.2.types, t ∈ g.ids) ∧ SameDone g r.1 r'.1)
    · apply Fuel.rel_map (constrainLoop_same field.name fuel 0 hstart)
      intro a b hab
      exact ⟨by rw [hab.types], fun t ht => (hab.mem t ht).1, hab.done⟩
    · intro r r' hr
      rw [hr.1]
      apply pushClasses_same _ hr.2.1
      exact ⟨by rw [h.constraints], h.stack, h.mem, h.processed, hr.2.2⟩

theorem connectLoop_same (inner fuel : ℕ) {s s' : Connecting ID N} (h : SameConnecting g s s') :
    Option.Rel (SameConnecting g) (connectLoop g.sp inner fuel s)
      (connectLoop g.sp inner fuel s') := by
  induction fuel generalizing s s' with
  | zero => exact .none
  | succ fuel ih =>
    rw [connectLoop, connectLoop, h.stack]
    cases hstack : s.connectedClassesStack with
    | nil => exact .some h
    | cons sid rest =>
      have hsid : sid ∈ g.ids := h.mem sid (hstack ▸ mem_cons_self)
      have hpopped : SameConnecting g { s with connectedClassesStack := rest }
          { s' with connectedClassesStack := rest } :=
        ⟨h.constraints, rfl, fun x hx => h.mem x (hstack ▸ mem_cons_of_mem sid hx),
          h.processed, h.done⟩
      have hfields := Fuel.rel_foldlM (R := SameConnecting g) (g.sp.sclass sid).fields
        (f := connectField g.sp inner (g.sp.sclass sid))
        (g := connectField g.sp inner (g.sp.sclass sid))
        (fun field hfield s s' h => connectField_same inner hsid h hfield) hpopped
      exact Fuel.rel_bind hfields fun a b hab => ih hab

variable {flc flc' : FieldLayoutChooser ID N}

theorem assign_agree (fuel : ℕ) (h : Agree g flc flc')
    (constraints : List (FieldLayoutConstraint ID N)) :
    Option.Rel (Agree g) (assignFieldOffsets g.sp fuel flc constraints)
      (assignFieldOffsets g.sp fuel flc' constraints) := by
  unfold assignFieldOffsets
  apply Fuel.rel_bind (R := fun builders builders' => builders = builders')
  · cases (constraints.mergeSort fun c1 c2 => (c1.compare c2).isLE).foldlM (assignConstraint fuel)
        fun _ => LayoutBuilder.mcreate g.sp.config [] with
    | none => exact .none
    | some builders => exact .some rfl
  · intro builders builders' heq
    rw [heq]
    split_ifs
    · refine .some ⟨?_, h.processed, h.done⟩
      intro x hx
      simp only [h.layouts x hx]
    · exact .none

theorem Agree.set (h : Agree g flc flc') (id : ID)
    (layout : List (LayoutSlot N)) : Agree g (setLayout flc id layout)
    (setLayout flc' id layout) := by
  refine ⟨?_, h.processed, h.done⟩
  intro x hx
  unfold setLayout
  by_cases heq : x = id
  · simp only [heq, Function.update_self]
  · simp only [Function.update_of_ne heq]
    exact h.layouts x hx

theorem layoutClass_agree (fuel : ℕ) (h : Agree g flc flc')
    {id : ID} (hid : id ∈ g.ids) :
    Option.Rel (Agree g) (layoutClass g.sp fuel flc id) (layoutClass g.sp fuel flc' id) := by
  unfold layoutClass
  simp only [h.processed id hid]
  split_ifs
  · exact .some h
  · exact .some (h.set id [])
  · exact .some h
  · apply Fuel.rel_bind (R := fun r r' : FieldLayoutChooser ID N × List (FieldLayoutConstraint ID N) =>
      Agree g r.1 r'.1 ∧ r'.2 = r.2)
    · unfold buildConstraintsForConnectedClasses
      have hstart : SameConnecting g
          ⟨flc.fieldsDone, insert id flc.classAlreadyProcessed, [], [(g.sp.sclass id).id]⟩
          ⟨flc'.fieldsDone, insert id flc'.classAlreadyProcessed, [], [(g.sp.sclass id).id]⟩ := by
        refine ⟨rfl, rfl, ?_, ?_, h.done⟩
        · intro x hx
          rw [mem_singleton.mp hx, g.own]
          exact hid
        · intro x hx
          rw [Finset.mem_insert, Finset.mem_insert, h.processed x hx]
      apply Fuel.rel_map (connectLoop_same fuel fuel hstart)
      intro s s' hs
      exact ⟨⟨h.layouts, hs.processed, hs.done⟩, hs.constraints⟩
    · intro r r' hr
      rw [hr.2]
      split_ifs
      · exact .some (hr.1.set id [])
      · exact assign_agree fuel hr.1 r.2

theorem fixed_agree (layouts : ID → Option (List (LayoutSlot N))) {classes classes' : List ID}
    (hin : ∀ x ∈ g.ids, (x ∈ classes' ↔ x ∈ classes)) :
    Agree g (classes.foldl (layoutFixed g.sp) ⟨layouts, ∅, ∅⟩)
      (classes'.foldl (layoutFixed g.sp) ⟨layouts, ∅, ∅⟩) := by
  obtain ⟨hdone, hproc, hset⟩ := fixed_spec g.sp classes ⟨layouts, ∅, ∅⟩
  obtain ⟨hdone', hproc', hset'⟩ := fixed_spec g.sp classes' ⟨layouts, ∅, ∅⟩
  refine ⟨?_, ?_, ?_⟩
  · intro x hx
    rw [hset, hset']
    simp only [hin x hx]
  · intro x hx
    rw [hproc, hproc', hin x hx]
  · intro k _ _
    rw [hdone, hdone']

theorem sort_filter (ids part : Finset ID) (hsub : part ⊆ ids) :
    ids.sort.filter (fun x => x ∈ part) = part.sort := by
  apply List.Perm.eq_of_pairwise' (r := (· ≤ ·))
  · exact (ids.pairwise_sort (· ≤ ·)).filter _
  · exact part.pairwise_sort (· ≤ ·)
  · rw [perm_ext_iff_of_nodup]
    · intro x
      rw [mem_filter, Finset.mem_sort, Finset.mem_sort, decide_eq_true_iff]
      exact ⟨fun h => h.2, fun h => ⟨hsub h, h⟩⟩
    · exact (ids.sort_nodup (· ≤ ·)).filter _
    · exact part.sort_nodup (· ≤ ·)

/-- The program and one part of it have done their classes of `before`. -/
structure Following (g inner : ClassGraph ID N) (start : FieldLayoutChooser ID N) (before : List ID)
    (flc : FieldLayoutChooser ID N) : Prop where
  laid : Laid g before flc
  part : ∃ flc', Fuel.Ends (fun fuel => (before.filter fun x => x ∈ inner.ids).foldlM
      (layoutClass g.sp fuel) start) flc' ∧
    Laid inner (before.filter fun x => x ∈ inner.ids) flc' ∧ Agree inner flc flc'

section Part

variable {part : Finset ID} (hsub : part ⊆ g.ids)
  (hclosed : ∀ a ∈ part, ∀ b, b ∈ g.sp.supertypes a ∨ b ∈ g.sp.subtypes a →
    ∀ name, hasField g.sp a name = true → hasField g.sp b name = true → b ∈ part)

include hclosed in
theorem rest_closed : ∀ a ∈ g.ids \ part, ∀ b, b ∈ g.sp.supertypes a ∨ b ∈ g.sp.subtypes a →
    ∀ name, hasField g.sp a name = true → hasField g.sp b name = true → b ∈ g.ids \ part := by
  intro a ha b hor name hfa hfb
  obtain ⟨hin, hout⟩ := Finset.mem_sdiff.mp ha
  refine Finset.mem_sdiff.mpr ⟨g.closed a hin b hor name hfa hfb, ?_⟩
  intro hb
  have hback := ClassGraph.Adjacent.symm (g := g) ⟨hor, hfb⟩ hfa
  exact hout (hclosed b hb a hback.1 name hfb hfa)

theorem Following.step {start : FieldLayoutChooser ID N} {before : List ID}
    {flc : FieldLayoutChooser ID N} (h : Following g (g.part part hclosed) start before flc) {x : ID}
    (hx : x ∈ g.ids) :
    ∃ next, Fuel.Ends (fun fuel => layoutClass g.sp fuel flc x) next ∧
      Following g (g.part part hclosed) start (before ++ [x]) next := by
  obtain ⟨hlaid, flc', hends', hlaid', hagree⟩ := h
  obtain ⟨next, hends, hnext, _⟩ := layoutClass_ends hlaid hx
  refine ⟨next, hends, hnext, ?_⟩
  rw [filter_append]
  by_cases hpart : x ∈ part
  · have hone : ([x].filter fun x => x ∈ (g.part part hclosed).ids) = [x] :=
      filter_cons_of_pos (decide_eq_true hpart)
    rw [hone]
    obtain ⟨next', hends₁, hnext', _⟩ := layoutClass_ends (g := g.part part hclosed) hlaid' hpart
    refine ⟨next', ?_, hnext', ?_⟩
    · simp only [foldlM_append]
      exact hends'.bind (hends₁.bind (Fuel.Ends.pure next'))
    · exact Fuel.Ends.rel hends hends₁ fun fuel =>
        layoutClass_agree (g := g.part part hclosed) fuel hagree hpart
  · have hnone : ([x].filter fun x => x ∈ (g.part part hclosed).ids) = [] :=
      filter_cons_of_neg fun hin => hpart (of_decide_eq_true hin)
    rw [hnone, append_nil]
    obtain ⟨next₁, hends₁, _, houtside⟩ := layoutClass_ends
      (hlaid.part Finset.sdiff_subset (rest_closed hclosed)) (Finset.mem_sdiff.mpr ⟨hx, hpart⟩)
    have hsame : next = next₁ := hends.unique hends₁
    have hnot : ∀ y ∈ part, y ∉ g.ids \ part := fun y hy hin => (Finset.mem_sdiff.mp hin).2 hy
    refine ⟨flc', hends', hlaid', ?_, ?_, ?_⟩
    · intro y hy
      rw [hsame, houtside.layouts y (hnot y hy)]
      exact hagree.layouts y hy
    · intro y hy
      rw [hsame, houtside.processed y (hnot y hy)]
      exact hagree.processed y hy
    · intro k hreal hk
      rw [hsame, houtside.done k hreal (hnot k.1 hk)]
      exact hagree.done k hreal hk

include hsub in
theorem part_agrees :
    ∃ flc flc', Fuel.Ends (fun fuel => runClasses g.sp fuel (fun _ => none) g.ids.sort) flc ∧
      Fuel.Ends (fun fuel => runClasses g.sp fuel (fun _ => none) part.sort) flc' ∧
      Agree (g.part part hclosed) flc flc' := by
  set start := part.sort.foldl (layoutFixed g.sp) (⟨fun _ => none, ∅, ∅⟩ : FieldLayoutChooser ID N)
    with hstart
  have hsort : ∀ x ∈ part, (x ∈ part.sort ↔ x ∈ g.ids.sort) := by
    intro x hx
    rw [Finset.mem_sort, Finset.mem_sort]
    exact ⟨fun h => hsub h, fun _ => hx⟩
  have hfirst : Following g (g.part part hclosed) start []
      (g.ids.sort.foldl (layoutFixed g.sp) ⟨fun _ => none, ∅, ∅⟩) := by
    refine ⟨fixed_laid _ (fun _ _ => rfl) _ fun x hx => (Finset.mem_sort (· ≤ ·)).mpr hx, start,
      Fuel.Ends.pure start, ?_, fixed_agree (g := g.part part hclosed) _ hsort⟩
    exact fixed_laid (g := g.part part hclosed) _ (fun _ _ => rfl) _
      fun x hx => (Finset.mem_sort (· ≤ ·)).mpr hx
  obtain ⟨flc, hends, _, flc', hends', _, hagree⟩ := Fuel.Ends.foldlM
    (fun fuel => layoutClass g.sp fuel) (Following g (g.part part hclosed) start) g.ids.sort
    (fun before x after flc hsplit h => h.step hclosed <| by
      apply (Finset.mem_sort (· ≤ ·)).mp
      rw [hsplit]
      exact mem_append_right _ mem_cons_self) hfirst
  have hfilter : (g.ids.sort.filter fun x => x ∈ (g.part part hclosed).ids) = part.sort :=
    sort_filter g.ids part hsub
  rw [hfilter] at hends'
  exact ⟨flc, flc', hends, hends', hagree⟩

end Part

theorem Laid.agrees {before : List ID} {flc : FieldLayoutChooser ID N} (h : Laid g before flc)
    {id superID : ID} (hid : id ∈ g.ids) (hsuper : superID ∈ g.sp.supertypes id)
    (hname : hasField g.sp superID name = true) :
    flc.layouts id = none ∧ flc.layouts superID = none ∨ SameSlot flc.layouts name id superID := by
  have hfield : hasField g.sp id name = true := by
    obtain ⟨f, hf, heq⟩ := ClassGraph.hasField_iff.mp hname
    obtain ⟨f', hf', heq', _⟩ := g.inherits id superID hsuper f hf
    exact ClassGraph.hasField_iff.mpr ⟨f', hf', heq'.trans heq⟩
  have hadj : g.Adjacent name id superID := ⟨.inl hsuper, hname⟩
  have hsid : superID ∈ g.ids := hadj.mem hid hfield
  have hsome : ∀ x y, x ∈ g.ids → hasField g.sp x name = true → g.Adjacent name x y →
      (g.sp.sclass x).cppExport = false → flc.layouts x ≠ none → SameSlot flc.layouts name x y := by
    intro x y hx hfx hxy hcpp hlayout
    obtain ⟨f, hf, heq⟩ := ClassGraph.hasField_iff.mp hfx
    have hin : x ∈ flc.classAlreadyProcessed := by
      apply (h.only x hx hlayout).resolve_right
      exact ne_nil_of_mem hf
    exact h.agreed x hx name y hfx (heq ▸ h.processed x hx hin hcpp f hf) hxy
  cases hcpp : (g.sp.sclass id).cppExport with
  | true =>
    have heq : superID = id := g.fixed id superID hcpp (.inl hsuper)
    obtain ⟨f, hf, hfname⟩ := ClassGraph.hasField_iff.mp hfield
    have hlayout := h.laid id hid (h.fixed id hid hcpp) (ne_nil_of_mem hf)
    obtain ⟨slots, hslots⟩ := Option.ne_none_iff_exists'.mp hlayout
    have hmem : name ∈ slots.map LayoutSlot.name := by
      rw [(h.layouts id hid slots hslots).names.mem_iff, ← hfname]
      exact mem_map_of_mem hf
    obtain ⟨slot, hslot, hslotname⟩ := mem_map.mp hmem
    exact .inr ⟨slots, slots, slot, hslots, heq ▸ hslots, hslot, hslot, hslotname⟩
  | false =>
    by_cases hlayout : flc.layouts id = none
    · refine .inl ⟨hlayout, ?_⟩
      by_contra hno
      obtain ⟨_, slots, _, _, hslots, _⟩ :=
        hsome superID id hsid hname (hadj.symm hfield) (hadj.fixed hcpp) hno
      rw [hlayout] at hslots
      exact absurd hslots (by simp)
    · exact .inr (hsome id superID hid hfield hadj hcpp hlayout)

theorem Planned.closed {p : Program ID N} {parents : ID → ID} {groups : SortedMap ID (List ID)}
    (h : Planned p parents groups) (root : ID) {part : Finset ID}
    (hpart : ∀ x, x ∈ part ↔ x ∈ p.ids ∧ Root parents x root) :
    ∀ a ∈ part, ∀ b, b ∈ p.sp.supertypes a ∨ b ∈ p.sp.subtypes a →
      ∀ name, hasField p.sp a name = true → hasField p.sp b name = true → b ∈ part := by
  intro a ha b hor name hfa hfb
  obtain ⟨hin, hroot⟩ := (hpart a).mp ha
  have hb : b ∈ p.ids := p.closed a hin b hor name hfa hfb
  refine (hpart b).mpr ⟨hb, ?_⟩
  have hsame : Same parents a b := by
    cases hor with
    | inl hsuper =>
      obtain ⟨r, hrb, hra⟩ := h.joined b hb a ((p.inverse a b).mp hsuper) ⟨name, hfb, hfa⟩
      exact ⟨r, hra, hrb⟩
    | inr hsub => exact h.joined a hin b hsub ⟨name, hfa, hfb⟩
  obtain ⟨r, hra, hrb⟩ := hsame
  rw [hroot.unique hra]
  exact hrb

/-- All classes but arrays and value classes are laid out, as all classes that share fields agree,
and a group of classes is laid out as the whole program lays it out. -/
theorem runClasses_sound (p : Program ID N) :
    ∃ flc, Fuel.Ends (fun fuel => runClasses p.sp fuel (fun _ => none) p.ids.sort) flc ∧
      (∀ id ∈ p.ids, (p.sp.sclass id).isArray = false → (p.sp.sclass id).isValueClass = false →
        flc.layouts id ≠ none) ∧
      (∀ id ∈ p.ids, ∀ slots, flc.layouts id = some slots → LaidOut p.toClassGraph id slots) ∧
      (∀ id ∈ p.ids, ∀ superID ∈ p.sp.supertypes id, ∀ name, hasField p.sp superID name = true →
        flc.layouts id = none ∧ flc.layouts superID = none ∨
          SameSlot flc.layouts name id superID) ∧
      ∃ groups, Fuel.Ends (fun fuel => planFieldLayoutGroups fuel p.shapes) groups ∧
        (∀ id ∈ p.ids, ∃! root, ∃ group, groups.maybeGet root = some group ∧ id ∈ group) ∧
        ∀ root group, groups.maybeGet root = some group →
          ∃ flc', Fuel.Ends (fun fuel => layoutSpecializerGroup p.sp fuel (fun _ => none) group)
              flc' ∧ ∀ id ∈ group, flc'.layouts id = flc.layouts id := by
  obtain ⟨flc, hends, hlaid⟩ := runClasses_ends (g := p.toClassGraph) (fun _ => none)
    fun _ _ => rfl
  obtain ⟨groups, hgroups, parents, hplanned⟩ := planFieldLayoutGroups_ends p
  refine ⟨flc, hends, fun id hid => hlaid.done id ((Finset.mem_sort (· ≤ ·)).mpr hid), hlaid.layouts,
    fun id hid superID hsuper name hname => hlaid.agrees hid hsuper hname, groups, hgroups, ?_, ?_⟩
  · intro id hid
    obtain ⟨root, hroot⟩ := hplanned.forest.root hid
    obtain ⟨group, hgroup⟩ := hplanned.all id hid root hroot
    refine ⟨root, ⟨group, hgroup, (hplanned.found root group hgroup id).mpr ⟨hid, hroot⟩⟩, ?_⟩
    intro root' hother
    obtain ⟨group', hgroup', hin⟩ := hother
    exact ((hplanned.found root' group' hgroup' id).mp hin).2.unique hroot
  · intro root group hgroup
    have hmem := hplanned.found root group hgroup
    have hpart : ∀ x, x ∈ group.toFinset ↔ x ∈ p.ids ∧ Root parents x root := by
      intro x
      rw [mem_toFinset, hmem]
    have hsub : group.toFinset ⊆ p.ids := fun x hx => ((hpart x).mp hx).1
    have hsort : group.toFinset.sort = group := by
      have hlt := hplanned.sorted root group hgroup
      apply List.Perm.eq_of_pairwise' (r := (· ≤ ·))
      · exact Finset.pairwise_sort _ (· ≤ ·)
      · exact hlt.imp le_of_lt
      · rw [perm_ext_iff_of_nodup (Finset.sort_nodup _ (· ≤ ·)) (hlt.imp ne_of_lt)]
        intro x
        rw [Finset.mem_sort, mem_toFinset]
    obtain ⟨flc₁, flc', hends₁, hends', hagree⟩ := part_agrees hsub (hplanned.closed root hpart)
    have hsame : flc = flc₁ := hends.unique hends₁
    rw [hsort] at hends'
    refine ⟨flc', hends', ?_⟩
    intro id hid
    rw [hsame]
    exact hagree.layouts id (mem_toFinset.mpr hid)

def familyFields : ℕ → List (SField ℕ ℕ)
  | 0 => [⟨0, 3, 0⟩]
  | 1 => [⟨0, 3, 0⟩, ⟨1, 4, 1⟩]
  | 2 => [⟨0, 3, 0⟩, ⟨2, 4, 1⟩]
  | _ => []

/-- A class with a pointer and two subtypes of it, each with a field of eight bits of its own. -/
def familySpecializer : Specializer ℕ ℕ where
  sclass id := ⟨id, familyFields id, false, decide (id = 4), false,
    if id = 4 then ⟨8, 8, "i8", .integer, by omega, ⟨3, by omega, rfl⟩⟩
    else .gcPointer ⟨64, .inr rfl⟩⟩
  supertypes id := if id = 1 ∨ id = 2 then [0] else []
  subtypes id := if id = 0 then [1, 2] else []
  config := ⟨64, .inr rfl⟩

def familyProgram : Program ℕ ℕ where
  sp := familySpecializer
  ids := {0, 1, 2}
  own _ := rfl
  names id := by
    match id with
    | 0 => decide
    | 1 => decide
    | 2 => decide
    | n + 3 => exact nodup_nil
  closed a ha b hb _ _ _ := by
    simp only [familySpecializer] at hb
    split_ifs at hb <;> simp_all
  inverse a b := by
    simp only [familySpecializer]
    split_ifs <;> simp_all
  inherits a b hb f hf := by
    simp only [familySpecializer] at hb
    split_ifs at hb with ha
    · rw [mem_singleton.mp hb] at hf
      rw [mem_singleton.mp hf]
      rcases ha with rfl | rfl <;> exact ⟨⟨0, 3, 0⟩, mem_cons_self, rfl, rfl⟩
    · cases hb
  fixed _ _ h := absurd h (by simp [familySpecializer])
  subtypes_mem a _ sub hsub := by
    simp only [familySpecializer] at hsub
    split_ifs at hsub <;> simp_all

theorem runClasses_sound_family : ∃ flc,
    Fuel.Ends (fun fuel => runClasses familyProgram.sp fuel (fun _ => none) familyProgram.ids.sort)
      flc ∧ SameSlot flc.layouts 0 1 0 ∧ SameSlot flc.layouts 0 2 0 := by
  obtain ⟨flc, hends, hdone, -, hsame, -⟩ := runClasses_sound familyProgram
  refine ⟨flc, hends, ?_, ?_⟩
  · exact (hsame 1 (by decide) 0 mem_cons_self 0 rfl).resolve_left
      fun h => hdone 1 (by decide) rfl rfl h.1
  · exact (hsame 2 (by decide) 0 mem_cons_self 0 rfl).resolve_left
      fun h => hdone 2 (by decide) rfl rfl h.1

def valueSpecializer : Specializer ℕ ℕ where
  sclass id := ⟨id, [⟨0, 1, 0⟩], false, true, false, .gcPointer ⟨64, .inr rfl⟩⟩
  supertypes _ := []
  subtypes _ := []
  config := ⟨64, .inr rfl⟩

def valueProgram : Program ℕ ℕ where
  sp := valueSpecializer
  ids := {0}
  own _ := rfl
  names _ := nodup_singleton _
  closed _ _ _ h := absurd h (by simp [valueSpecializer])
  inverse _ _ := by simp [valueSpecializer]
  inherits _ _ h := absurd h (by simp [valueSpecializer])
  fixed _ _ h := absurd h (by simp [valueSpecializer])
  subtypes_mem _ _ _ h := absurd h (by simp [valueSpecializer])

theorem valueProgram_not_laid :
    ¬ ∀ p : Program ℕ ℕ, ∃ flc,
      Fuel.Ends (fun fuel => runClasses p.sp fuel (fun _ => none) p.ids.sort) flc ∧
        ∀ id ∈ p.ids, ∃ slots, flc.layouts id = some slots ∧ LaidOut p.toClassGraph id slots := by
  intro h
  obtain ⟨flc, hends, hall⟩ := h valueProgram
  have hin : 0 ∈ valueProgram.ids := by
    unfold valueProgram
    exact Finset.mem_singleton_self 0
  obtain ⟨slots, hslots, _⟩ := hall 0 hin
  have hrun : (fun fuel => runClasses valueProgram.sp fuel (fun _ => none) valueProgram.ids.sort) =
      fun _ => some ⟨fun _ => none, ∅, ∅⟩ := by
    funext fuel
    have hsort : valueProgram.ids.sort = [0] := Finset.sort_singleton (· ≤ ·) 0
    rw [hsort]
    rfl
  rw [hrun] at hends
  rw [hends.unique (Fuel.Ends.pure _)] at hslots
  exact absurd hslots (by simp)

end SkipPlatform.FieldLayout
