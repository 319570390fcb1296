import SkipPlatform.SortedMerge
import SkipPlatform.FixedDir

set_option autoImplicit false
set_option linter.unusedSectionVars false

/-! The three layers of an eager directory's data: the values written since the last
purge, their tombstones, and the fixed rows. Keys have one value array per source. -/
namespace SkipPlatform
open List SortedMerge

structure Entry (S F : Type) where
  tick : ℕ
  source : S
  writer : S
  files : List F

structure DataMapValue (S F : Type) [LinearOrder S] where
  map : DMap S (S × List F)
  tombs : DMap S S

namespace DataMapValue
variable {S F : Type} [LinearOrder S]

def empty : DataMapValue S F := ⟨.empty, .empty⟩

def isEmpty (v : DataMapValue S F) : Bool := v.map.isEmpty && v.tombs.isEmpty

def discard {V : Type} (m : DMap S V) (source : S) : DMap S V :=
  match m.maybeGet source with
  | none => m
  | some _ => m.remove source

/-- An empty array is a tombstone; it also masks a fixed row, for readers that skip
tombstones. -/
def set (v : DataMapValue S F) (tick : ℕ) (isMasking : Bool) (origSource writer : S)
    (files : List F) : DataMapValue S F :=
  match files with
  | [] =>
    ⟨if isMasking then v.map.set tick origSource (writer, []) else discard v.map origSource,
      v.tombs.set tick origSource writer⟩
  | _ :: _ =>
    ⟨v.map.set tick origSource (origSource, files),
      if v.tombs.containsKey origSource then v.tombs.remove origSource else v.tombs⟩

def mapEntry (x : S × (S × List F) × ℕ) : Entry S F := ⟨x.2.2, x.1, x.2.1.1, x.2.1.2⟩

def tombEntry (x : S × S × ℕ) : Entry S F := ⟨x.2.2, x.1, x.2.1, []⟩

def items (v : DataMapValue S F) : List (Entry S F) :=
  mergeBy (fun x y => compare x.1 y.1) mapEntry tombEntry (fun x _ => mapEntry x)
    v.map.itemsWithTick v.tombs.itemsWithTick

/-- Equal sources with different ticks are not merged: the tombstone comes first. -/
def itemsAfter (v : DataMapValue S F) (limit : ℕ) : List (Entry S F) :=
  mergeBy
    (fun x y =>
      if x.1 < y.1 then .lt else if x.1 = y.1 ∧ x.2.2 = y.2.2 then .eq else .gt)
    mapEntry tombEntry (fun _ y => tombEntry y)
    (v.map.getChangesAfterIter limit) (v.tombs.getChangesAfterIter limit)

def maybeGet (v : DataMapValue S F) (source : S) : Option (List F) :=
  match v.map.maybeGet source with
  | none => if v.tombs.containsKey source then some [] else none
  | some x => some x.2

/-- A source with an empty array is also a tombstone of the same write; a source with
values has no tombstone. -/
structure Coherent (v : DataMapValue S F) : Prop where
  masked : ∀ {s w t}, (s, (w, []), t) ∈ v.map.itemsWithTick → (s, w, t) ∈ v.tombs.itemsWithTick
  written : ∀ {s w f fs t}, (s, (w, f :: fs), t) ∈ v.map.itemsWithTick →
    w = s ∧ ∀ w' t', (s, w', t') ∉ v.tombs.itemsWithTick

theorem coherent_empty : (empty : DataMapValue S F).Coherent := by
  constructor
  · intro s w t h
    cases h
  · intro s w f fs t h
    cases h

theorem mem_discard {V : Type} (m : DMap S V) (s : S) (x : S × V × ℕ) :
    x ∈ (discard m s).itemsWithTick ↔ x.1 ≠ s ∧ x ∈ m.itemsWithTick := by
  unfold discard
  cases h : m.maybeGet s with
  | some v => exact m.mem_remove s x
  | none =>
    constructor
    · intro hx
      refine ⟨?_, hx⟩
      intro he
      have hsome : m.maybeGet s = some x.2.1 := DMap.maybeGet_eq_some.mpr ⟨x.2.2, he ▸ hx⟩
      rw [h] at hsome
      cases hsome
    · exact And.right

theorem mem_removeContained {V : Type} (m : DMap S V) (s : S) (x : S × V × ℕ) :
    x ∈ (if m.containsKey s then m.remove s else m).itemsWithTick ↔
      x.1 ≠ s ∧ x ∈ m.itemsWithTick := by
  rw [← mem_discard m s x]
  unfold DMap.containsKey discard
  cases m.maybeGet s <;> rfl

theorem mem_map_set_nil (v : DataMapValue S F) (tick : ℕ) (isMasking : Bool) (s w : S)
    (x : S × (S × List F) × ℕ) :
    x ∈ (v.set tick isMasking s w []).map.itemsWithTick ↔
      isMasking = true ∧ x = (s, (w, []), tick) ∨ x.1 ≠ s ∧ x ∈ v.map.itemsWithTick := by
  cases isMasking with
  | true =>
    change x ∈ (v.map.set tick s (w, [])).itemsWithTick ↔ _
    rw [DMap.mem_set]
    simp
  | false =>
    change x ∈ (discard v.map s).itemsWithTick ↔ _
    rw [mem_discard]
    simp

theorem mem_tombs_set_nil (v : DataMapValue S F) (tick : ℕ) (isMasking : Bool) (s w : S)
    (x : S × S × ℕ) :
    x ∈ (v.set tick isMasking s w []).tombs.itemsWithTick ↔
      x = (s, w, tick) ∨ x.1 ≠ s ∧ x ∈ v.tombs.itemsWithTick := v.tombs.mem_set tick s w x

theorem mem_map_set_cons (v : DataMapValue S F) (tick : ℕ) (isMasking : Bool) (s w : S) (f : F)
    (fs : List F) (x : S × (S × List F) × ℕ) :
    x ∈ (v.set tick isMasking s w (f :: fs)).map.itemsWithTick ↔
      x = (s, (s, f :: fs), tick) ∨ x.1 ≠ s ∧ x ∈ v.map.itemsWithTick :=
  v.map.mem_set tick s (s, f :: fs) x

theorem mem_tombs_set_cons (v : DataMapValue S F) (tick : ℕ) (isMasking : Bool) (s w : S) (f : F)
    (fs : List F) (x : S × S × ℕ) :
    x ∈ (v.set tick isMasking s w (f :: fs)).tombs.itemsWithTick ↔
      x.1 ≠ s ∧ x ∈ v.tombs.itemsWithTick := mem_removeContained v.tombs s x

variable {v : DataMapValue S F}

theorem coherent_set (h : v.Coherent) (tick : ℕ) (isMasking : Bool)
    (s w : S) (files : List F) : (v.set tick isMasking s w files).Coherent := by
  cases files with
  | nil =>
    constructor
    · intro s' w' t' hx
      rw [mem_tombs_set_nil]
      rcases (mem_map_set_nil v tick isMasking s w _).mp hx with ⟨_, hx⟩ | ⟨hne, hx⟩
      · simp only [Prod.mk.injEq, and_true] at hx
        exact Or.inl (by rw [hx.1, hx.2.1, hx.2.2])
      · exact Or.inr ⟨hne, h.masked hx⟩
    · intro s' w' f fs t' hx
      rcases (mem_map_set_nil v tick isMasking s w _).mp hx with ⟨_, hx⟩ | ⟨hne, hx⟩
      · simp at hx
      · refine ⟨(h.written hx).1, ?_⟩
        intro w'' t'' hy
        rcases (mem_tombs_set_nil v tick isMasking s w _).mp hy with hy | ⟨_, hy⟩
        · exact hne (congrArg Prod.fst hy)
        · exact (h.written hx).2 _ _ hy
  | cons f fs =>
    constructor
    · intro s' w' t' hx
      rw [mem_tombs_set_cons]
      rcases (mem_map_set_cons v tick isMasking s w f fs _).mp hx with hx | ⟨hne, hx⟩
      · simp at hx
      · exact ⟨hne, h.masked hx⟩
    · intro s' w' f' fs' t' hx
      rcases (mem_map_set_cons v tick isMasking s w f fs _).mp hx with hx | ⟨hne, hx⟩
      · simp only [Prod.mk.injEq] at hx
        refine ⟨by rw [hx.1, hx.2.1.1], ?_⟩
        intro w'' t'' hy
        exact ((mem_tombs_set_cons v tick isMasking s w f fs _).mp hy).1 hx.1
      · refine ⟨(h.written hx).1, ?_⟩
        intro w'' t'' hy
        exact (h.written hx).2 _ _ ((mem_tombs_set_cons v tick isMasking s w f fs _).mp hy).2

theorem mem_merge {as : List (S × (S × List F) × ℕ)} {bs : List (S × S × ℕ)}
    (ha : as.Pairwise fun a b => a.1 < b.1) (hb : bs.Pairwise fun a b => a.1 < b.1)
    (h : ∀ x ∈ as, ∀ y ∈ bs, x.1 = y.1 → mapEntry x = tombEntry y) (e : Entry S F) :
    e ∈ mergeBy (fun x y => compare x.1 y.1) mapEntry tombEntry (fun x _ => mapEntry x) as bs ↔
      e ∈ as.map mapEntry ∨ e ∈ bs.map tombEntry := by
  rw [mem_mergeBy Prod.fst Prod.fst mapEntry tombEntry _ ha hb, mem_map, mem_map]
  constructor
  · rintro (⟨x, hx, _, he⟩ | ⟨y, hy, _, he⟩ | ⟨x, hx, y, _, _, he⟩)
    · exact Or.inl ⟨x, hx, he⟩
    · exact Or.inr ⟨y, hy, he⟩
    · exact Or.inl ⟨x, hx, he⟩
  · rintro (⟨x, hx, he⟩ | ⟨y, hy, he⟩)
    · by_cases hn : ∀ y ∈ bs, y.1 ≠ x.1
      · exact Or.inl ⟨x, hx, hn, he⟩
      · push Not at hn
        obtain ⟨y, hy, hk⟩ := hn
        exact Or.inr (Or.inr ⟨x, hx, y, hy, hk.symm, he⟩)
    · by_cases hn : ∀ x ∈ as, x.1 ≠ y.1
      · exact Or.inr (Or.inl ⟨y, hy, hn, he⟩)
      · push Not at hn
        obtain ⟨x, hx, hk⟩ := hn
        exact Or.inr (Or.inr ⟨x, hx, y, hy, hk, (h x hx y hy hk).trans he⟩)

theorem Coherent.mapEntry_eq (h : v.Coherent)
    {x : S × (S × List F) × ℕ} {y : S × S × ℕ} (hx : x ∈ v.map.itemsWithTick)
    (hy : y ∈ v.tombs.itemsWithTick) (he : x.1 = y.1) : mapEntry x = tombEntry y := by
  obtain ⟨s, ⟨w, fs⟩, t⟩ := x
  obtain ⟨s', w', t'⟩ := y
  change s = s' at he
  subst he
  cases fs with
  | cons f fs => exact absurd hy ((h.written hx).2 _ _)
  | nil =>
    obtain ⟨hw, ht⟩ := DMap.items_unique (h.masked hx) hy
    rw [hw, ht]
    rfl

theorem mem_items (h : v.Coherent) (e : Entry S F) :
    e ∈ v.items ↔
      e ∈ v.map.itemsWithTick.map mapEntry ∨ e ∈ v.tombs.itemsWithTick.map tombEntry :=
  mem_merge v.map.items_sorted v.tombs.items_sorted
    (fun _ hx _ hy he => h.mapEntry_eq hx hy he) e

theorem items_sorted (v : DataMapValue S F) :
    v.items.Pairwise fun a b => a.source < b.source :=
  mergeBy_pairwise Prod.fst Prod.fst Entry.source (fun _ => rfl) (fun _ => rfl) (fun _ _ _ => rfl) (· < ·) lt_trans id
    v.map.items_sorted v.tombs.items_sorted

theorem itemsAfter_eq (h : v.Coherent) (limit : ℕ) :
    v.itemsAfter limit = v.items.filter fun e => decide (limit ≤ e.tick) := by
  unfold itemsAfter
  rw [DMap.getChangesAfterIter_eq, DMap.getChangesAfterIter_eq]
  set as := v.map.itemsWithTick.filter fun x => decide (limit ≤ x.2.2) with has
  set bs := v.tombs.itemsWithTick.filter fun x => decide (limit ≤ x.2.2) with hbs
  have hmap : as.Pairwise fun a b => a.1 < b.1 := v.map.items_sorted.filter _
  have htombs : bs.Pairwise fun a b => a.1 < b.1 := v.tombs.items_sorted.filter _
  have hsame : ∀ x ∈ as, ∀ y ∈ bs, x.1 = y.1 → mapEntry x = tombEntry y := by
    intro x hx y hy he
    exact h.mapEntry_eq (mem_filter.mp hx).1 (mem_filter.mp hy).1 he
  have hcongr : mergeBy
      (fun (x : S × (S × List F) × ℕ) (y : S × S × ℕ) =>
        if x.1 < y.1 then Ordering.lt else if x.1 = y.1 ∧ x.2.2 = y.2.2 then .eq else .gt)
      mapEntry tombEntry (fun _ y => tombEntry y) as bs =
      mergeBy (fun x y => compare x.1 y.1) mapEntry tombEntry (fun x _ => mapEntry x) as bs := by
    apply mergeBy_congr
    intro x hx y hy
    by_cases hlt : x.1 < y.1
    · rw [if_pos hlt, compare_lt_iff_lt.mpr hlt]
      exact ⟨rfl, nofun⟩
    · rw [if_neg hlt]
      by_cases he : x.1 = y.1
      · have hxy := hsame x hx y hy he
        rw [if_pos ⟨he, congrArg Entry.tick hxy⟩, compare_eq_iff_eq.mpr he]
        exact ⟨rfl, fun _ => hxy.symm⟩
      · have hgt : y.1 < x.1 := lt_of_le_of_ne (not_lt.mp hlt) fun h => he h.symm
        rw [if_neg fun hp => he hp.1, compare_gt_iff_gt.mpr hgt]
        exact ⟨rfl, nofun⟩
  rw [hcongr]
  apply eq_of_mem_iff Entry.source
  · exact mergeBy_pairwise Prod.fst Prod.fst Entry.source (fun _ => rfl) (fun _ => rfl)
      (fun _ _ _ => rfl) (· < ·) lt_trans id hmap htombs
  · exact v.items_sorted.filter _
  · intro e
    rw [mem_merge hmap htombs hsame, mem_filter, mem_items h, has, hbs]
    have hleft : e ∈ (v.map.itemsWithTick.filter fun x => decide (limit ≤ x.2.2)).map mapEntry ↔
        e ∈ v.map.itemsWithTick.map mapEntry ∧ limit ≤ e.tick := by
      simp only [mem_map, mem_filter, decide_eq_true_eq]
      constructor
      · rintro ⟨x, ⟨hx, hl⟩, rfl⟩
        exact ⟨⟨x, hx, rfl⟩, hl⟩
      · rintro ⟨⟨x, hx, rfl⟩, hl⟩
        exact ⟨x, ⟨hx, hl⟩, rfl⟩
    have hright : e ∈ (v.tombs.itemsWithTick.filter fun x => decide (limit ≤ x.2.2)).map tombEntry ↔
        e ∈ v.tombs.itemsWithTick.map tombEntry ∧ limit ≤ e.tick := by
      simp only [mem_map, mem_filter, decide_eq_true_eq]
      constructor
      · rintro ⟨x, ⟨hx, hl⟩, rfl⟩
        exact ⟨⟨x, hx, rfl⟩, hl⟩
      · rintro ⟨⟨x, hx, rfl⟩, hl⟩
        exact ⟨x, ⟨hx, hl⟩, rfl⟩
    rw [hleft, hright, decide_eq_true_iff, or_and_right]

def entryOf (tick : ℕ) (s w : S) (files : List F) : Entry S F :=
  match files with
  | [] => ⟨tick, s, w, []⟩
  | _ :: _ => ⟨tick, s, s, files⟩

@[simp] theorem entryOf_source (tick : ℕ) (s w : S) (files : List F) :
    (entryOf tick s w files).source = s := by
  cases files <;> rfl

@[simp] theorem entryOf_tick (tick : ℕ) (s w : S) (files : List F) :
    (entryOf tick s w files).tick = tick := by
  cases files <;> rfl

@[simp] theorem entryOf_files (tick : ℕ) (s w : S) (files : List F) :
    (entryOf tick s w files).files = files := by
  cases files <;> rfl

theorem mem_items_set (h : v.Coherent) (tick : ℕ) (isMasking : Bool)
    (s w : S) (files : List F) (e : Entry S F) :
    e ∈ (v.set tick isMasking s w files).items ↔
      e = entryOf tick s w files ∨ e.source ≠ s ∧ e ∈ v.items := by
  rw [mem_items (coherent_set h tick isMasking s w files), mem_items h]
  simp only [mem_map]
  cases files with
  | nil =>
    constructor
    · rintro (⟨x, hx, rfl⟩ | ⟨y, hy, rfl⟩)
      · rcases (mem_map_set_nil v tick isMasking s w x).mp hx with ⟨_, rfl⟩ | ⟨hne, hx⟩
        · exact Or.inl rfl
        · exact Or.inr ⟨hne, Or.inl ⟨x, hx, rfl⟩⟩
      · rcases (mem_tombs_set_nil v tick isMasking s w y).mp hy with rfl | ⟨hne, hy⟩
        · exact Or.inl rfl
        · exact Or.inr ⟨hne, Or.inr ⟨y, hy, rfl⟩⟩
    · rintro (rfl | ⟨hne, ⟨x, hx, rfl⟩ | ⟨y, hy, rfl⟩⟩)
      · exact Or.inr ⟨(s, w, tick), (mem_tombs_set_nil v tick isMasking s w _).mpr (Or.inl rfl), rfl⟩
      · exact Or.inl ⟨x, (mem_map_set_nil v tick isMasking s w x).mpr (Or.inr ⟨hne, hx⟩), rfl⟩
      · exact Or.inr ⟨y, (mem_tombs_set_nil v tick isMasking s w y).mpr (Or.inr ⟨hne, hy⟩), rfl⟩
  | cons f fs =>
    constructor
    · rintro (⟨x, hx, rfl⟩ | ⟨y, hy, rfl⟩)
      · rcases (mem_map_set_cons v tick isMasking s w f fs x).mp hx with rfl | ⟨hne, hx⟩
        · exact Or.inl rfl
        · exact Or.inr ⟨hne, Or.inl ⟨x, hx, rfl⟩⟩
      · have hy := (mem_tombs_set_cons v tick isMasking s w f fs y).mp hy
        exact Or.inr ⟨hy.1, Or.inr ⟨y, hy.2, rfl⟩⟩
    · rintro (rfl | ⟨hne, ⟨x, hx, rfl⟩ | ⟨y, hy, rfl⟩⟩)
      · exact Or.inl ⟨(s, (s, f :: fs), tick),
          (mem_map_set_cons v tick isMasking s w f fs _).mpr (Or.inl rfl), rfl⟩
      · exact Or.inl ⟨x, (mem_map_set_cons v tick isMasking s w f fs x).mpr (Or.inr ⟨hne, hx⟩), rfl⟩
      · exact Or.inr ⟨y, (mem_tombs_set_cons v tick isMasking s w f fs y).mpr ⟨hne, hy⟩, rfl⟩

theorem maybeGet_eq_some {v : DataMapValue S F} (h : v.Coherent) {s : S} {files : List F} :
    v.maybeGet s = some files ↔ ∃ e ∈ v.items, e.source = s ∧ e.files = files := by
  unfold maybeGet
  cases hm : v.map.maybeGet s with
  | some x =>
    obtain ⟨c, hx⟩ := DMap.maybeGet_eq_some.mp hm
    have hmem : mapEntry (s, x, c) ∈ v.items :=
      (mem_items h _).mpr (Or.inl (mem_map_of_mem hx))
    constructor
    · intro hf
      exact ⟨_, hmem, rfl, Option.some.inj hf⟩
    · rintro ⟨e, he, hes, hef⟩
      have : e = mapEntry (s, x, c) := unique_of_sorted v.items_sorted he hmem hes
      rw [← hef, this]
      rfl
  | none =>
    have hno : ∀ e ∈ v.items, e.source = s → e ∈ v.tombs.itemsWithTick.map tombEntry := by
      intro e he hes
      rcases (mem_items h e).mp he with hx | hy
      · obtain ⟨x, hmem, rfl⟩ := mem_map.mp hx
        have hsome : v.map.maybeGet s = some x.2.1 :=
          DMap.maybeGet_eq_some.mpr ⟨x.2.2, hes ▸ hmem⟩
        rw [hm] at hsome
        cases hsome
      · exact hy
    unfold DMap.containsKey
    cases ht : v.tombs.maybeGet s with
    | some w =>
      obtain ⟨c, hy⟩ := DMap.maybeGet_eq_some.mp ht
      constructor
      · intro hf
        refine ⟨tombEntry (s, w, c), (mem_items h _).mpr (Or.inr (mem_map_of_mem hy)), rfl, ?_⟩
        exact Option.some.inj hf
      · rintro ⟨e, he, hes, hef⟩
        obtain ⟨y, _, rfl⟩ := mem_map.mp (hno e he hes)
        rw [← hef]
        rfl
    | none =>
      constructor
      · intro hf
        cases hf
      · rintro ⟨e, he, hes, _⟩
        obtain ⟨y, hy, rfl⟩ := mem_map.mp (hno e he hes)
        have hsome : v.tombs.maybeGet s = some y.2.1 :=
          DMap.maybeGet_eq_some.mpr ⟨y.2.2, hes ▸ hy⟩
        rw [ht] at hsome
        cases hsome

theorem maybeGet_set (h : v.Coherent) (tick : ℕ) (isMasking : Bool)
    (s w : S) (files : List F) (s' : S) :
    (v.set tick isMasking s w files).maybeGet s' =
      if s' = s then some files else v.maybeGet s' := by
  have hset := coherent_set h tick isMasking s w files
  split_ifs with hs
  · rw [maybeGet_eq_some hset]
    refine ⟨entryOf tick s w files, (mem_items_set h ..).mpr (Or.inl rfl), ?_, entryOf_files ..⟩
    rw [entryOf_source, hs]
  · ext found
    rw [maybeGet_eq_some hset, maybeGet_eq_some h]
    constructor
    · rintro ⟨e, he, hes, hf⟩
      rcases (mem_items_set h ..).mp he with hn | ⟨_, he⟩
      · rw [hn, entryOf_source] at hes
        exact absurd hes.symm hs
      · exact ⟨e, he, hes, hf⟩
    · rintro ⟨e, he, hes, hf⟩
      exact ⟨e, (mem_items_set h ..).mpr (Or.inr ⟨hes ▸ hs, he⟩), hes, hf⟩

@[simp] theorem items_empty : (empty : DataMapValue S F).items = [] :=
  mergeBy_nil _ _ _ _ []

@[simp] theorem itemsAfter_empty (limit : ℕ) :
    (empty : DataMapValue S F).itemsAfter limit = [] := mergeBy_nil _ _ _ _ []

theorem isEmpty_map_iff (h : v.Coherent) :
    v.isEmpty = true ↔ v.items = [] := by
  unfold isEmpty
  rw [Bool.and_eq_true, DMap.isEmpty_iff, DMap.isEmpty_iff,
    eq_nil_iff_forall_not_mem (l := v.items)]
  simp only [mem_items h]
  constructor
  · rintro ⟨hm, ht⟩ e he
    rw [hm, ht] at he
    simp at he
  · intro hn
    constructor
    · rw [eq_nil_iff_forall_not_mem]
      intro x hx
      exact hn (mapEntry x) (Or.inl (mem_map_of_mem hx))
    · rw [eq_nil_iff_forall_not_mem]
      intro y hy
      exact hn (tombEntry y) (Or.inr (mem_map_of_mem hy))

end DataMapValue

structure DataMap (K S F : Type) [LinearOrder K] [LinearOrder S] where
  data : DMap K (DMap S (S × List F))
  tombs : DMap K (DMap S S)
  nbrEntries : ℕ

namespace DataMap
variable {K S F : Type} [LinearOrder K] [LinearOrder S]

def empty : DataMap K S F := ⟨.empty, .empty, 0⟩

/-- One layer of `set`: the layer and whether it got a new key. -/
def setLayer {V : Type} (layer : DMap K V) (tick : ℕ) (key : K) (value : V) (isEmpty : Bool) :
    DMap K V × Bool :=
  if isEmpty then (if layer.containsKey key then layer.remove key else layer, false)
  else (layer.set tick key value, !layer.containsKey key)

def set (m : DataMap K S F) (tick : ℕ) (key : K) (value : DataMapValue S F) : DataMap K S F :=
  let data := setLayer m.data tick key value.map value.map.isEmpty
  let tombs := setLayer m.tombs tick key value.tombs value.tombs.isEmpty
  ⟨data.1, tombs.1, m.nbrEntries + (if data.2 then 1 else 0) + if tombs.2 then 1 else 0⟩

def maybeGet (m : DataMap K S F) (k : K) : Option (DataMapValue S F) :=
  match m.data.maybeGet k, m.tombs.maybeGet k with
  | none, none => none
  | some map, none => some ⟨map, .empty⟩
  | none, some tombs => some ⟨.empty, tombs⟩
  | some map, some tombs => some ⟨map, tombs⟩

def items (m : DataMap K S F) : List (K × DataMapValue S F) :=
  mergeBy (fun x y => compare x.1 y.1) (fun x => (x.1, ⟨x.2.1, .empty⟩))
    (fun y => (y.1, ⟨.empty, y.2.1⟩)) (fun x y => (x.1, ⟨x.2.1, y.2.1⟩))
    m.data.itemsWithTick m.tombs.itemsWithTick

def getChangesAfter (m : DataMap K S F) (tick : ℕ) : SortedSet K :=
  (m.data.getChangesAfter tick).union (m.tombs.getChangesAfter tick)

/-- What is recorded for `k`. -/
def value (m : DataMap K S F) (k : K) : DataMapValue S F := (m.maybeGet k).getD .empty

/-- The youngest tick recorded for `k` is the tick of its key in both layers. -/
structure Stamped (m : DataMap K S F) (k : K) (tick : ℕ) : Prop where
  data : ∀ {v t}, (k, v, t) ∈ m.data.itemsWithTick → t = tick
  tombs : ∀ {v t}, (k, v, t) ∈ m.tombs.itemsWithTick → t = tick
  le : ∀ e ∈ (m.value k).items, e.tick ≤ tick
  attained : ∃ e ∈ (m.value k).items, e.tick = tick

structure Valid (m : DataMap K S F) : Prop where
  coherent : ∀ k, (m.value k).Coherent
  stamped : ∀ k, m.maybeGet k ≠ none → ∃ tick, m.Stamped k tick

theorem maybeGet_empty (k : K) : (empty : DataMap K S F).maybeGet k = none := rfl

theorem valid_empty : (empty : DataMap K S F).Valid :=
  ⟨fun _ => DataMapValue.coherent_empty, fun k h => absurd (maybeGet_empty k) h⟩

variable {m : DataMap K S F}

theorem mem_items {x : K × DataMapValue S F} :
    x ∈ m.items ↔ m.maybeGet x.1 = some x.2 := by
  unfold items
  rw [mem_mergeBy Prod.fst Prod.fst _ _ _ m.data.items_sorted m.tombs.items_sorted]
  obtain ⟨k, v⟩ := x
  constructor
  · rintro (⟨a, ha, hn, he⟩ | ⟨b, hb, hn, he⟩ | ⟨a, ha, b, hb, hk, he⟩)
    · cases he
      have hd : m.data.maybeGet a.1 = some a.2.1 := DMap.maybeGet_eq_some.mpr ⟨_, ha⟩
      simp only [maybeGet, hd, DMap.maybeGet_eq_none.mpr hn]
    · cases he
      have ht : m.tombs.maybeGet b.1 = some b.2.1 := DMap.maybeGet_eq_some.mpr ⟨_, hb⟩
      simp only [maybeGet, ht, DMap.maybeGet_eq_none.mpr hn]
    · cases he
      have hd : m.data.maybeGet a.1 = some a.2.1 := DMap.maybeGet_eq_some.mpr ⟨_, ha⟩
      have ht : m.tombs.maybeGet a.1 = some b.2.1 := DMap.maybeGet_eq_some.mpr ⟨b.2.2, hk ▸ hb⟩
      simp only [maybeGet, hd, ht]
  · intro h
    simp only [maybeGet] at h
    cases hd : m.data.maybeGet k with
    | none =>
      cases ht : m.tombs.maybeGet k with
      | none => simp [hd, ht] at h
      | some tombs =>
        simp only [hd, ht, Option.some.injEq] at h
        obtain ⟨c, hc⟩ := DMap.maybeGet_eq_some.mp ht
        exact Or.inr (Or.inl ⟨_, hc, DMap.maybeGet_eq_none.mp hd, by rw [← h]⟩)
    | some map =>
      obtain ⟨c, hc⟩ := DMap.maybeGet_eq_some.mp hd
      cases ht : m.tombs.maybeGet k with
      | none =>
        simp only [hd, ht, Option.some.injEq] at h
        exact Or.inl ⟨_, hc, DMap.maybeGet_eq_none.mp ht, by rw [← h]⟩
      | some tombs =>
        simp only [hd, ht, Option.some.injEq] at h
        obtain ⟨c', hc'⟩ := DMap.maybeGet_eq_some.mp ht
        exact Or.inr (Or.inr ⟨_, hc, _, hc', rfl, by rw [← h]⟩)

theorem items_sorted (m : DataMap K S F) : m.items.Pairwise fun a b => a.1 < b.1 := by
  unfold items
  apply mergeBy_pairwise Prod.fst Prod.fst Prod.fst _ _ _ (· < ·) lt_trans id
    m.data.items_sorted m.tombs.items_sorted
  · intro a
    rfl
  · intro b
    rfl
  · intro a b _
    rfl

theorem mem_setLayer {V : Type} (layer : DMap K V) (tick : ℕ) (key : K) (v : V) (isEmpty : Bool)
    (x : K × V × ℕ) :
    x ∈ (setLayer layer tick key v isEmpty).1.itemsWithTick ↔
      isEmpty = false ∧ x = (key, v, tick) ∨ x.1 ≠ key ∧ x ∈ layer.itemsWithTick := by
  unfold setLayer
  cases isEmpty with
  | true =>
    rw [if_pos rfl]
    change x ∈ (if layer.containsKey key then layer.remove key else layer).itemsWithTick ↔ _
    rw [DataMapValue.mem_removeContained]
    simp
  | false =>
    rw [if_neg (by simp)]
    change x ∈ (layer.set tick key v).itemsWithTick ↔ _
    rw [DMap.mem_set]
    simp

theorem maybeGet_setLayer {V : Type} (layer : DMap K V) (tick : ℕ) (key k : K) (v : V)
    (isEmpty : Bool) :
    (setLayer layer tick key v isEmpty).1.maybeGet k =
      if k = key then (if isEmpty then none else some v) else layer.maybeGet k := by
  by_cases hk : k = key
  · rw [if_pos hk]
    cases isEmpty with
    | true =>
      rw [if_pos rfl]
      apply DMap.maybeGet_eq_none.mpr
      intro x hx he
      rcases (mem_setLayer layer tick key v true x).mp hx with ⟨hf, _⟩ | ⟨hne, _⟩
      · cases hf
      · exact hne (he.trans hk)
    | false =>
      rw [if_neg (by simp)]
      exact DMap.maybeGet_eq_some.mpr
        ⟨tick, (mem_setLayer layer tick key v false _).mpr (Or.inl ⟨rfl, by rw [hk]⟩)⟩
  · rw [if_neg hk]
    apply DMap.maybeGet_congr
    intro v' c
    rw [mem_setLayer]
    simp [hk]

theorem eq_empty_of_isEmpty {V : Type} {d : DMap S V} (h : d.isEmpty = true) : d = .empty := by
  obtain ⟨t, ho, ht⟩ := d
  cases t with
  | nil => rfl
  | node => cases h

theorem maybeGet_set (m : DataMap K S F) (tick : ℕ) (key k : K) (v : DataMapValue S F) :
    (m.set tick key v).maybeGet k =
      if k = key then (if v.isEmpty then none else some v) else m.maybeGet k := by
  simp only [maybeGet, set, maybeGet_setLayer]
  by_cases hk : k = key
  · simp only [if_pos hk, DataMapValue.isEmpty]
    obtain ⟨map, tombs⟩ := v
    by_cases hm : map.isEmpty = true
    · by_cases ht : tombs.isEmpty = true
      · simp [hm, ht]
      · simp only [hm, ht]
        rw [eq_empty_of_isEmpty hm]
        rfl
    · by_cases ht : tombs.isEmpty = true
      · simp only [hm, ht]
        rw [eq_empty_of_isEmpty ht]
        rfl
      · simp [hm, ht]
  · simp only [if_neg hk]

theorem value_set (m : DataMap K S F) (tick : ℕ) (key k : K) (v : DataMapValue S F) :
    (m.set tick key v).value k = if k = key then v else m.value k := by
  unfold value
  rw [maybeGet_set]
  by_cases hk : k = key
  · rw [if_pos hk, if_pos hk]
    by_cases hv : v.isEmpty = true
    · rw [if_pos hv]
      have hv' := Bool.and_eq_true_iff.mp hv
      obtain ⟨map, tombs⟩ := v
      have hm : map = .empty := eq_empty_of_isEmpty hv'.1
      have ht : tombs = .empty := eq_empty_of_isEmpty hv'.2
      rw [hm, ht]
      rfl
    · rw [if_neg hv]
      rfl
  · rw [if_neg hk, if_neg hk]

theorem valid_set (h : m.Valid) (tick : ℕ)
    (hle : ∀ k, ∀ e ∈ (m.value k).items, e.tick ≤ tick) (key : K) (isMasking : Bool) (s w : S)
    (files : List F) :
    (m.set tick key ((m.value key).set tick isMasking s w files)).Valid := by
  set v := (m.value key).set tick isMasking s w files with hv
  have hcoherent : v.Coherent := DataMapValue.coherent_set (h.coherent key) tick isMasking s w files
  constructor
  · intro k
    rw [value_set]
    by_cases hk : k = key
    · rw [if_pos hk]
      exact hcoherent
    · rw [if_neg hk]
      exact h.coherent k
  · intro k hget
    by_cases hk : k = key
    · subst hk
      refine ⟨tick, ?_, ?_, ?_, ?_⟩
      · intro v' t hx
        rcases (mem_setLayer m.data tick k v.map v.map.isEmpty _).mp hx with ⟨_, hx⟩ | ⟨hne, _⟩
        · exact (Prod.mk.inj (Prod.mk.inj hx).2).2
        · exact absurd rfl hne
      · intro v' t hx
        rcases (mem_setLayer m.tombs tick k v.tombs v.tombs.isEmpty _).mp hx with ⟨_, hx⟩ | ⟨hne, _⟩
        · exact (Prod.mk.inj (Prod.mk.inj hx).2).2
        · exact absurd rfl hne
      · intro e he
        rw [value_set, if_pos rfl] at he
        rcases (DataMapValue.mem_items_set (h.coherent k) tick isMasking s w files e).mp he with
          he | ⟨_, he⟩
        · rw [he, DataMapValue.entryOf_tick]
        · exact hle k e he
      · refine ⟨DataMapValue.entryOf tick s w files, ?_, DataMapValue.entryOf_tick ..⟩
        rw [value_set, if_pos rfl]
        exact (DataMapValue.mem_items_set (h.coherent k) tick isMasking s w files _).mpr
          (Or.inl rfl)
    · rw [maybeGet_set, if_neg hk] at hget
      obtain ⟨tick', hdata, htombs, hle', hattained⟩ := h.stamped k hget
      refine ⟨tick', ?_, ?_, ?_, ?_⟩
      · intro v' t hx
        rcases (mem_setLayer m.data tick key v.map v.map.isEmpty _).mp hx with ⟨_, hx⟩ | ⟨_, hx⟩
        · exact absurd (Prod.mk.inj hx).1 hk
        · exact hdata hx
      · intro v' t hx
        rcases (mem_setLayer m.tombs tick key v.tombs v.tombs.isEmpty _).mp hx with
          ⟨_, hx⟩ | ⟨_, hx⟩
        · exact absurd (Prod.mk.inj hx).1 hk
        · exact htombs hx
      · intro e he
        rw [value_set, if_neg hk] at he
        exact hle' e he
      · rw [value_set, if_neg hk]
        exact hattained

theorem maybeGet_eq_none {k : K} :
    m.maybeGet k = none ↔ m.data.maybeGet k = none ∧ m.tombs.maybeGet k = none := by
  unfold maybeGet
  cases m.data.maybeGet k <;> cases m.tombs.maybeGet k <;> simp

theorem value_of_none {k : K} (h : m.maybeGet k = none) :
    (m.value k).items = [] := by
  unfold value
  rw [h]
  exact DataMapValue.items_empty

theorem mem_getChangesAfter {m : DataMap K S F} (h : m.Valid) {tick : ℕ} {k : K} :
    k ∈ (m.getChangesAfter tick).keys ↔ ∃ e ∈ (m.value k).items, tick ≤ e.tick := by
  unfold getChangesAfter
  rw [SortedMap.mem_union, DMap.mem_getChangesAfter, DMap.mem_getChangesAfter]
  constructor
  · intro hx
    have hsome : m.maybeGet k ≠ none := by
      intro hnone
      obtain ⟨hd, ht⟩ := maybeGet_eq_none.mp hnone
      rcases hx with ⟨x, hx, hk, _⟩ | ⟨x, hx, hk, _⟩
      · exact DMap.maybeGet_eq_none.mp hd x hx hk
      · exact DMap.maybeGet_eq_none.mp ht x hx hk
    obtain ⟨c, hc⟩ := h.stamped k hsome
    obtain ⟨e, he, het⟩ := hc.attained
    refine ⟨e, he, ?_⟩
    rw [het]
    rcases hx with ⟨⟨k', v, t⟩, hx, rfl, hle⟩ | ⟨⟨k', v, t⟩, hx, rfl, hle⟩
    · exact (hc.data hx) ▸ hle
    · exact (hc.tombs hx) ▸ hle
  · rintro ⟨e, he, hle⟩
    have hsome : m.maybeGet k ≠ none := by
      intro hnone
      rw [value_of_none hnone] at he
      cases he
    obtain ⟨c, hc⟩ := h.stamped k hsome
    have hec := hc.le e he
    rw [ne_eq, maybeGet_eq_none, not_and_or] at hsome
    rcases hsome with hd | ht
    · obtain ⟨v, hv⟩ := Option.ne_none_iff_exists'.mp hd
      obtain ⟨t, hx⟩ := DMap.maybeGet_eq_some.mp hv
      have hle' : tick ≤ t := by
        have := hc.data hx
        omega
      exact Or.inl ⟨_, hx, rfl, hle'⟩
    · obtain ⟨v, hv⟩ := Option.ne_none_iff_exists'.mp ht
      obtain ⟨t, hx⟩ := DMap.maybeGet_eq_some.mp hv
      have hle' : tick ≤ t := by
        have := hc.tombs hx
        omega
      exact Or.inr ⟨_, hx, rfl, hle'⟩

end DataMap
end SkipPlatform
