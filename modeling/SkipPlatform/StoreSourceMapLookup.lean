import SkipPlatform.SortedMerge
import SkipPlatform.StoreSourceMapFaithful

set_option autoImplicit false
set_option linter.unusedSectionVars false

/-! Source maps over keys whose comparison is a linear order: a map that is not compact
is the finite map of its rows. -/
namespace SkipPlatform

class StoreKey (K : Type) extends LinearOrder K, StoreSourceMap.Key K

namespace StoreSourceMap
open SortedSearch SortedMerge

namespace Source
variable {D K : Type}

def toLexPair (s : Source D K) : D ×ₗ K := toLex (s.dirName, s.baseName)

theorem toLexPair_injective : Function.Injective (toLexPair (D := D) (K := K)) := by
  intro p q h
  cases p
  cases q
  simpa [toLexPair] using h

instance [LinearOrder D] [StoreKey K] : LinearOrder (Source D K) :=
  LinearOrder.lift' toLexPair toLexPair_injective

theorem lt_iff [LinearOrder D] [StoreKey K] {p q : Source D K} :
    p < q ↔ p.dirName < q.dirName ∨ p.dirName = q.dirName ∧ p.baseName < q.baseName :=
  Prod.Lex.toLex_lt_toLex

theorem compare_eq [LinearOrder D] [StoreKey K] (p q : Source D K) :
    p.compare q = Ord.compare p q := by
  unfold Source.compare
  cases hd : Ord.compare p.dirName q.dirName with
  | lt => exact (compare_lt_iff_lt.mpr (lt_iff.mpr (Or.inl (compare_lt_iff_lt.mp hd)))).symm
  | gt => exact (compare_gt_iff_gt.mpr (lt_iff.mpr (Or.inl (compare_gt_iff_gt.mp hd)))).symm
  | eq =>
    have hde := compare_eq_iff_eq.mp hd
    change Ord.compare p.baseName q.baseName = _
    cases hk : Ord.compare p.baseName q.baseName with
    | lt =>
      exact (compare_lt_iff_lt.mpr (lt_iff.mpr (Or.inr ⟨hde, compare_lt_iff_lt.mp hk⟩))).symm
    | gt =>
      exact (compare_gt_iff_gt.mpr (lt_iff.mpr (Or.inr ⟨hde.symm, compare_gt_iff_gt.mp hk⟩))).symm
    | eq =>
      have hke := compare_eq_iff_eq.mp hk
      have : p = q := by
        cases p
        cases q
        cases hde
        cases hke
        rfl
      exact (compare_eq_iff_eq.mpr this).symm

end Source

variable {D K : Type} [LinearOrder D] [StoreKey K]

theorem MInfo.Same.eq {m m' : MInfo D K} (h : m.Same m') : m = m' := by
  cases h with
  | refl => rfl
  | single k k' hk => rw [show k = k' from compare_eq_iff_eq.mp hk]

def lookup (rows : List (Row D K)) (source : Source D K) : Option (MInfo D K) :=
  (rows.find? fun row => decide (row.1 = source)).map Prod.snd

theorem lookup_eq_some {rows : List (Row D K)} (h : rows.Pairwise fun a b => a.1 < b.1)
    {source : Source D K} {minfo : MInfo D K} :
    lookup rows source = some minfo ↔ (source, minfo) ∈ rows := by
  unfold lookup
  constructor
  · intro hl
    obtain ⟨row, hrow, hm⟩ := Option.map_eq_some_iff.mp hl
    have hfound := List.find?_some hrow
    have hs := of_decide_eq_true hfound
    have hmem := List.mem_of_find?_eq_some hrow
    rw [← hs, ← hm]
    exact hmem
  · intro hmem
    cases hf : rows.find? fun row => decide (row.1 = source) with
    | none =>
      have := List.find?_eq_none.mp hf _ hmem
      simp at this
    | some row =>
      have hfound := List.find?_some hf
      have hs := of_decide_eq_true hfound
      have : row = (source, minfo) :=
        unique_of_sorted h (List.mem_of_find?_eq_some hf) hmem hs
      rw [this]
      rfl

theorem lookup_eq_none {rows : List (Row D K)} {source : Source D K} :
    lookup rows source = none ↔ ∀ row ∈ rows, row.1 ≠ source := by
  unfold lookup
  rw [Option.map_eq_none_iff, List.find?_eq_none]
  simp

namespace FixedSourceMap

structure Holds (m : FixedSourceMap D K) (rows : List (Row D K)) : Prop where
  sorted : rows.Pairwise fun a b => a.1 < b.1
  items : m.items = some rows
  maybeGet : ∀ source, m.maybeGet source = some (lookup rows source)

theorem sortBy_sorted (data : List (Row D K)) : (sortBy data).Pairwise fun a b => a.1 ≤ b.1 := by
  have hle : ∀ a b : Row D K, (a.1.compare b.1).isLE = true ↔ a.1 ≤ b.1 := by
    intro a b
    rw [Source.compare_eq, Ordering.isLE_iff_ne_gt, compare_gt_iff_gt, not_lt]
  have h : (sortBy data).Pairwise fun a b => (a.1.compare b.1).isLE = true := by
    apply List.pairwise_mergeSort
    · intro a b c hab hbc
      rw [hle] at hab hbc ⊢
      exact hab.trans hbc
    · intro a b
      rw [Bool.or_eq_true, hle, hle]
      exact le_total _ _
  exact h.imp fun hab => (hle _ _).mp hab

theorem sortBy_strict {data : List (Row D K)} (h : (data.map Prod.fst).Nodup) :
    (sortBy data).Pairwise fun a b => a.1 < b.1 := by
  have hperm : ((sortBy data).map Prod.fst).Perm (data.map Prod.fst) :=
    (List.mergeSort_perm data _).map Prod.fst
  have hnodup : (sortBy data).Pairwise fun a b => a.1 ≠ b.1 := by
    rw [← List.pairwise_map]
    exact hperm.nodup_iff.mpr h
  exact ((sortBy_sorted data).and hnodup).imp fun hab => lt_of_le_of_ne hab.1 hab.2

variable {rows : List (Row D K)}

theorem assertUnique_of_sorted (h : rows.Pairwise fun a b => a.1 < b.1) :
    assertUnique (fun a b => a.1.compare b.1 == .eq) rows = true := by
  induction rows with
  | nil => rfl
  | cons a rows ih =>
    obtain ⟨ha, hrows⟩ := List.pairwise_cons.mp h
    cases rows with
    | nil => rfl
    | cons b rows =>
      have hne : (a.1.compare b.1 == .eq) = false := by
        rw [Source.compare_eq, compare_lt_iff_lt.mpr (ha b List.mem_cons_self)]
        rfl
      rw [assertUnique, hne, ih hrows]
      rfl

theorem fsm_holds (h : rows.Pairwise fun a b => a.1 < b.1) :
    (fsm rows).Holds rows := by
  refine ⟨h, rfl, ?_⟩
  intro source
  have hfind := getElem?_findFirst_compare rows Prod.fst source (h.imp le_of_lt)
  unfold maybeGet lookup
  rw [← hfind]
  simp only [Source.compare_eq]
  cases rows[findFirst rows fun row => Ord.compare source row.1]? with
  | none => rfl
  | some row =>
    simp only [Option.bind_some, Option.filter_some]
    by_cases hr : row.1 = source
    · rw [if_pos (compare_eq_iff_eq.mpr hr), if_pos (decide_eq_true hr)]
      rfl
    · rw [if_neg fun hc => hr (compare_eq_iff_eq.mp hc), if_neg (by simpa using hr)]
      rfl

theorem Holds.of_agrees {m plain : FixedSourceMap D K}
    (ha : m.Agrees plain) (h : plain.Holds rows) : m.Holds rows := by
  refine ⟨h.sorted, ?_, ?_⟩
  · have hitems := ha.items
    rw [h.items] at hitems
    cases hm : m.items with
    | none =>
      rw [hm] at hitems
      cases hitems
    | some rows' =>
      rw [hm] at hitems
      cases hitems with
      | some hrel =>
        congr 1
        clear hm h
        induction hrel with
        | nil => rfl
        | cons hab _ ih => rw [Prod.ext hab.1 hab.2.eq, ih]
  · intro source
    have hget := ha.maybeGet source
    rw [h.maybeGet source] at hget
    cases hm : m.maybeGet source with
    | none =>
      rw [hm] at hget
      cases hget
    | some found =>
      rw [hm] at hget
      cases hget with
      | some hrel =>
        congr 1
        generalize lookup rows source = answer at hrel
        cases hrel with
        | none => rfl
        | some hsame => rw [hsame.eq]

theorem create_holds {data : List (Row D K)} (hd : (data.map Prod.fst).Nodup)
    (hm : getMetadata data = none) (allowDuplicates : Bool) :
    ∃ m, create data allowDuplicates = some m ∧ m.Holds (sortBy data) := by
  have hstrict := sortBy_strict hd
  have hu : (allowDuplicates || assertUnique (fun a b => a.1.compare b.1 == .eq)
      (sortBy data)) = true := by
    rw [assertUnique_of_sorted hstrict, Bool.or_true]
  have hplain : FSMImpl.create data allowDuplicates = some (.fsm (sortBy data)) := by
    unfold FSMImpl.create
    rw [if_pos hu]
  have hsome : ∃ m, create data allowDuplicates = some m := by
    unfold create
    rw [hm]
    cases data with
    | nil => exact ⟨_, hplain⟩
    | cons first rest =>
      simp only [IdentityFSMImpl.create]
      by_cases hid : identityRows first.1.dirName (first :: rest) = true
      · rw [if_pos hid, if_pos hu]
        exact ⟨_, rfl⟩
      · rw [if_neg hid]
        exact ⟨_, hplain⟩
  obtain ⟨m, hcreate⟩ := hsome
  obtain ⟨plain, hp, hagrees⟩ := faithful_of_no_metadata data allowDuplicates hcreate hm
  rw [hplain] at hp
  cases hp
  exact ⟨m, hcreate, .of_agrees hagrees (fsm_holds hstrict)⟩

end FixedSourceMap
end StoreSourceMap
end SkipPlatform
