import SkipPlatform.EagerData

set_option autoImplicit false

/-! The fixed rows of an eager directory: values, and tombstones that outlived a purge. -/
namespace SkipPlatform
open List SortedMerge

/-- A row and a tombstone of the same key and source would be a violated invariant. -/
structure FixedDataMap (K S F : Type) [LinearOrder K] [LinearOrder S] where
  data : FixedDir K S (List F)
  tombs : FixedDir K S S
  apart : ∀ x ∈ data.rows, ∀ y ∈ tombs.rows, x.place ≠ y.place

namespace FixedDataMap
variable {K S F : Type} [LinearOrder K] [LinearOrder S]

def create (vec : List (FixedRow K S (List F))) (tombs : List (FixedRow K S S))
    (apart : ∀ x ∈ vec, ∀ y ∈ tombs, x.place ≠ y.place) : FixedDataMap K S F :=
  ⟨.create vec, .create tombs, fun x hx y hy =>
    apart x (FixedDir.mem_rows_create.mp hx) y (FixedDir.mem_rows_create.mp hy)⟩

def ofRows (vec : List (FixedRow K S (List F))) : FixedDataMap K S F :=
  create vec [] fun _ _ _ hy => absurd hy not_mem_nil

def getChangesAfter (m : FixedDataMap K S F) (tick : ℕ) : SortedSet K :=
  (m.data.getChangesAfter tick).union (m.tombs.getChangesAfter tick)

def rowEntry (r : FixedRow K S (List F)) : Entry S F := ⟨r.tick, r.source, r.source, r.value⟩

def tombEntry (r : FixedRow K S S) : Entry S F := ⟨r.tick, r.source, r.value, []⟩

/-- Equal places are excluded by `apart`, here and in the next two merges. -/
def getIterAll (m : FixedDataMap K S F) : List (K × Entry S F) :=
  mergeBy (fun x y => compare x.place y.place) (fun x => (x.key, rowEntry x))
    (fun y => (y.key, tombEntry y)) (fun x _ => (x.key, rowEntry x)) m.data.rows m.tombs.rows

def mergeKey (rows : List (ℕ × S × List F)) (tombs : List (ℕ × S × S)) : List (Entry S F) :=
  mergeBy (fun x y => compare x.2.1 y.2.1) (fun x => ⟨x.1, x.2.1, x.2.1, x.2.2⟩)
    (fun y => ⟨y.1, y.2.1, y.2.2, []⟩) (fun x _ => ⟨x.1, x.2.1, x.2.1, x.2.2⟩) rows tombs

def getIter (m : FixedDataMap K S F) (key : K) : List (Entry S F) :=
  mergeKey (m.data.getIter key) (m.tombs.getIter key)

def getIterAfter (m : FixedDataMap K S F) (tick : ℕ) (key : K) : List (Entry S F) :=
  mergeKey (m.data.getIterAfter tick key) (m.tombs.getIterAfter tick key)

structure Distinct (m : FixedDataMap K S F) : Prop where
  data : m.data.rows.Pairwise fun a b => a.place < b.place
  tombs : m.tombs.rows.Pairwise fun a b => a.place < b.place

def placeOf (x : K × Entry S F) : K ×ₗ S := toLex (x.1, x.2.source)

variable {m : FixedDataMap K S F}

theorem mem_getIterAll {x : K × Entry S F} :
    x ∈ m.getIterAll ↔ (∃ r ∈ m.data.rows, (r.key, rowEntry r) = x) ∨
      ∃ r ∈ m.tombs.rows, (r.key, tombEntry r) = x := by
  unfold getIterAll
  rw [mem_mergeBy_apart, mem_map, mem_map]
  intro a ha b hb he
  exact m.apart a ha b hb (compare_eq_iff_eq.mp he)

theorem getIterAll_sorted (m : FixedDataMap K S F) :
    m.getIterAll.Pairwise fun a b => placeOf a ≤ placeOf b := by
  unfold getIterAll
  apply mergeBy_pairwise FixedRow.place FixedRow.place placeOf _ _ _ (· ≤ ·) le_trans le_of_lt
    m.data.rows_sorted m.tombs.rows_sorted
  · intro a
    rfl
  · intro b
    rfl
  · intro a b _
    rfl

theorem getIterAll_strict (h : m.Distinct) :
    m.getIterAll.Pairwise fun a b => placeOf a < placeOf b := by
  unfold getIterAll
  apply mergeBy_pairwise FixedRow.place FixedRow.place placeOf _ _ _ (· < ·) lt_trans id
    h.data h.tombs
  · intro a
    rfl
  · intro b
    rfl
  · intro a b _
    rfl

variable {key : K}

theorem mem_getIter_fixed {T : Type} {d : FixedDir K S T} {x : ℕ × S × T} :
    x ∈ d.getIter key ↔ ∃ r ∈ d.rows, r.key = key ∧ (r.tick, r.source, r.value) = x := by
  unfold FixedDir.getIter
  rw [FixedDir.getAll_eq]
  simp only [mem_map, mem_filter, decide_eq_true_eq, and_assoc]

theorem getIter_fixed_sorted {T : Type} {d : FixedDir K S T} (R : K ×ₗ S → K ×ₗ S → Prop)
    (h : d.rows.Pairwise fun a b => R a.place b.place) :
    (d.getIter key).Pairwise fun a b => R (toLex (key, a.2.1)) (toLex (key, b.2.1)) := by
  unfold FixedDir.getIter
  rw [FixedDir.getAll_eq, pairwise_map]
  apply List.Pairwise.imp_of_mem _ (h.filter _)
  intro a b ha hb hab
  have hka : a.key = key := of_decide_eq_true (mem_filter.mp ha).2
  have hkb : b.key = key := of_decide_eq_true (mem_filter.mp hb).2
  unfold FixedRow.place at hab
  rwa [hka, hkb] at hab

theorem source_le {a b : S} :
    (toLex (key, a) : K ×ₗ S) ≤ toLex (key, b) ↔ a ≤ b := by
  rw [Prod.Lex.toLex_le_toLex]
  simp

theorem source_lt {a b : S} :
    (toLex (key, a) : K ×ₗ S) < toLex (key, b) ↔ a < b := by
  rw [Prod.Lex.toLex_lt_toLex]
  simp

theorem mem_mergeKey {rows : List (ℕ × S × List F)} {tombs : List (ℕ × S × S)}
    (h : ∀ a ∈ rows, ∀ b ∈ tombs, a.2.1 ≠ b.2.1) {e : Entry S F} :
    e ∈ mergeKey rows tombs ↔ (∃ x ∈ rows, ⟨x.1, x.2.1, x.2.1, x.2.2⟩ = e) ∨
      ∃ y ∈ tombs, ⟨y.1, y.2.1, y.2.2, []⟩ = e := by
  unfold mergeKey
  rw [mem_mergeBy_apart, mem_map, mem_map]
  intro a ha b hb he
  exact h a ha b hb (compare_eq_iff_eq.mp he)

theorem apart_getIter (m : FixedDataMap K S F) (key : K) :
    ∀ a ∈ m.data.getIter key, ∀ b ∈ m.tombs.getIter key, a.2.1 ≠ b.2.1 := by
  intro a ha b hb he
  obtain ⟨x, hx, hxk, rfl⟩ := mem_getIter_fixed.mp ha
  obtain ⟨y, hy, hyk, rfl⟩ := mem_getIter_fixed.mp hb
  apply m.apart x hx y hy
  unfold FixedRow.place
  rw [hxk, hyk, show x.source = y.source from he]

theorem mem_getIter {e : Entry S F} :
    e ∈ m.getIter key ↔ (key, e) ∈ m.getIterAll := by
  unfold getIter
  rw [mem_mergeKey (m.apart_getIter key), mem_getIterAll]
  simp only [mem_getIter_fixed]
  constructor
  · rintro (⟨x, ⟨r, hr, rfl, rfl⟩, rfl⟩ | ⟨x, ⟨r, hr, rfl, rfl⟩, rfl⟩)
    · exact Or.inl ⟨r, hr, rfl⟩
    · exact Or.inr ⟨r, hr, rfl⟩
  · rintro (⟨r, hr, he⟩ | ⟨r, hr, he⟩)
    · cases he
      exact Or.inl ⟨_, ⟨r, hr, rfl, rfl⟩, rfl⟩
    · cases he
      exact Or.inr ⟨_, ⟨r, hr, rfl, rfl⟩, rfl⟩

theorem mergeKey_sorted (R : S → S → Prop) (htrans : ∀ {a b c}, R a b → R b c → R a c)
    (hlt : ∀ {a b}, a < b → R a b) {rows : List (ℕ × S × List F)} {tombs : List (ℕ × S × S)}
    (hr : rows.Pairwise fun a b => R a.2.1 b.2.1) (ht : tombs.Pairwise fun a b => R a.2.1 b.2.1) :
    (mergeKey rows tombs).Pairwise fun a b => R a.source b.source := by
  unfold mergeKey
  apply mergeBy_pairwise (fun x : ℕ × S × List F => x.2.1) (fun y : ℕ × S × S => y.2.1) Entry.source _ _ _ R htrans hlt hr ht
  · intro a
    rfl
  · intro b
    rfl
  · intro a b _
    rfl

theorem getIter_sorted (m : FixedDataMap K S F) (key : K) :
    (m.getIter key).Pairwise fun a b => a.source ≤ b.source := by
  apply mergeKey_sorted (· ≤ ·) le_trans le_of_lt
  · exact (getIter_fixed_sorted (· ≤ ·) m.data.rows_sorted).imp source_le.mp
  · exact (getIter_fixed_sorted (· ≤ ·) m.tombs.rows_sorted).imp source_le.mp

theorem getIter_strict (h : m.Distinct) (key : K) :
    (m.getIter key).Pairwise fun a b => a.source < b.source := by
  apply mergeKey_sorted (· < ·) lt_trans id
  · exact (getIter_fixed_sorted (· < ·) h.data).imp source_lt.mp
  · exact (getIter_fixed_sorted (· < ·) h.tombs).imp source_lt.mp

theorem recent_eq {T : Type} (d : FixedDir K S T) (tick : ℕ) (key : K) :
    d.getIterAfter tick key = (d.getIter key).filter fun x => decide (tick ≤ x.1) := by
  rw [FixedDir.getIterAfter_eq]
  unfold FixedDir.recent FixedDir.getIter
  rw [FixedDir.getAll_eq, filter_map, filter_filter]
  congr 1
  apply filter_congr
  intro r _
  simp [Bool.and_comm]

theorem getIterAfter_eq (h : m.Distinct) (tick : ℕ) (key : K) :
    m.getIterAfter tick key = (m.getIter key).filter fun e => decide (tick ≤ e.tick) := by
  unfold getIterAfter
  rw [recent_eq, recent_eq]
  set rows := (m.data.getIter key).filter fun x => decide (tick ≤ x.1) with hrows
  set tombs := (m.tombs.getIter key).filter fun x => decide (tick ≤ x.1) with htombs
  have hapart : ∀ a ∈ rows, ∀ b ∈ tombs, a.2.1 ≠ b.2.1 := by
    intro a ha b hb
    exact m.apart_getIter key a (mem_filter.mp ha).1 b (mem_filter.mp hb).1
  apply eq_of_mem_iff Entry.source
  · apply mergeKey_sorted (· < ·) lt_trans id
    · exact ((getIter_fixed_sorted (· < ·) h.data).imp source_lt.mp).filter _
    · exact ((getIter_fixed_sorted (· < ·) h.tombs).imp source_lt.mp).filter _
  · exact (getIter_strict h key).filter _
  · intro e
    rw [mem_mergeKey hapart, mem_filter, getIter, mem_mergeKey (m.apart_getIter key), hrows,
      htombs]
    simp only [mem_filter, decide_eq_true_eq]
    constructor
    · rintro (⟨x, ⟨hx, hle⟩, rfl⟩ | ⟨x, ⟨hx, hle⟩, rfl⟩)
      · exact ⟨Or.inl ⟨x, hx, rfl⟩, hle⟩
      · exact ⟨Or.inr ⟨x, hx, rfl⟩, hle⟩
    · rintro ⟨⟨x, hx, rfl⟩ | ⟨x, hx, rfl⟩, hle⟩
      · exact Or.inl ⟨x, ⟨hx, hle⟩, rfl⟩
      · exact Or.inr ⟨x, ⟨hx, hle⟩, rfl⟩

theorem mem_getChangesAfter {m : FixedDataMap K S F} {tick : ℕ} {k : K} :
    k ∈ (m.getChangesAfter tick).keys ↔ ∃ e ∈ m.getIter k, tick ≤ e.tick := by
  unfold getChangesAfter
  rw [SortedMap.mem_union, FixedDir.mem_getChangesAfter, FixedDir.mem_getChangesAfter]
  simp only [mem_getIter, mem_getIterAll]
  constructor
  · rintro (⟨r, hr, rfl, hle⟩ | ⟨r, hr, rfl, hle⟩)
    · exact ⟨rowEntry r, Or.inl ⟨r, hr, rfl⟩, hle⟩
    · exact ⟨tombEntry r, Or.inr ⟨r, hr, rfl⟩, hle⟩
  · rintro ⟨e, ⟨r, hr, he⟩ | ⟨r, hr, he⟩, hle⟩
    · cases he
      exact Or.inl ⟨r, hr, rfl, hle⟩
    · cases he
      exact Or.inr ⟨r, hr, rfl, hle⟩

theorem getArraySourceKey_of_mem (h : m.Distinct)
    {r : FixedRow K S (List F)} (hr : r ∈ m.data.rows) :
    m.data.getArraySourceKey r.source r.key = [r.value] := by
  unfold FixedDir.getArraySourceKey
  rw [FixedDir.getAllSourceKey_eq]
  have hone : (m.data.rows.filter fun r' => decide (r'.key = r.key ∧ r'.source = r.source)) =
      [r] := by
    apply eq_of_mem_iff FixedRow.place (h.data.filter _) (pairwise_singleton _ _)
    intro r'
    rw [mem_filter, decide_eq_true_iff, mem_singleton]
    constructor
    · rintro ⟨hr', hk, hs⟩
      apply unique_of_sorted h.data hr' hr
      unfold FixedRow.place
      rw [hk, hs]
    · intro he
      rw [he]
      exact ⟨hr, rfl, rfl⟩
  rw [hone]
  rfl

theorem getArraySourceKey_eq_nil {source : S} :
    m.data.getArraySourceKey source key = [] ↔
      ∀ r ∈ m.data.rows, r.key = key → r.source ≠ source := by
  unfold FixedDir.getArraySourceKey
  rw [FixedDir.getAllSourceKey_eq, map_eq_nil_iff, filter_eq_nil_iff]
  simp only [decide_eq_true_eq, not_and]

end FixedDataMap
end SkipPlatform
