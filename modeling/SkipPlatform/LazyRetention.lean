import SkipPlatform.LazyDir

set_option autoImplicit false
set_option linter.unusedSectionVars false

/-! The two ways of updating the counts and the rows of a lazy directory at the end of a batch give
the same counts and rows. -/
namespace SkipPlatform
open List

namespace TLazyDir
variable {D K F T : Type} [LinearOrder K]

def decrement : Option ℤ → Option ℤ
  | none => none
  | some count => if count = 1 then none else some (count - 1)

def countAfter (refCountOpt : Option ℤ) (new dead : Bool) : Option ℤ :=
  match new, dead with
  | false, false => refCountOpt
  | true, true => refCountOpt
  | true, false => some (refCountOpt.getD 0 + 1)
  | false, true => decrement refCountOpt

theorem get_merge (refCounts : FiniteMap K ℤ) (newKeys deadKeys : Finset K) (key : K) :
    (refCounts.mergeWith2 (FiniteMap.ofSet newKeys) (FiniteMap.ofSet deadKeys) mergeCount).get key =
      countAfter (refCounts.get key) (decide (key ∈ newKeys)) (decide (key ∈ deadKeys)) := by
  rw [FiniteMap.get_mergeWith2 _ _ _ _ _ rfl, FiniteMap.get_ofSet, FiniteMap.get_ofSet]
  by_cases new : key ∈ newKeys
  · by_cases dead : key ∈ deadKeys
    · simp only [new, dead, if_true, decide_true, countAfter]
      cases refCounts.get key <;> rfl
    · simp only [new, dead, if_true, if_false, decide_true, decide_false, countAfter]
      cases refCounts.get key <;> simp [mergeCount]
  · by_cases dead : key ∈ deadKeys
    · simp only [new, dead, if_true, if_false, decide_true, decide_false, countAfter]
      cases refCounts.get key with
      | none => rfl
      | some count =>
        by_cases one : count = 1
        · simp [one, mergeCount, decrement]
        · simp [one, mergeCount, decrement]
    · simp only [new, dead, if_false, decide_false, countAfter]
      cases refCounts.get key <;> rfl

theorem get_enterKeys (deadKeys : Finset K) (keys : List K) (distinct : keys.Nodup)
    (refCounts : FiniteMap K ℤ) (key : K) :
    (keys.foldl (enterKey deadKeys) refCounts).get key =
      if key ∈ keys ∧ key ∉ deadKeys then some ((refCounts.get key).getD 0 + 1)
      else refCounts.get key := by
  induction keys generalizing refCounts with
  | nil => simp
  | cons first rest ih =>
    obtain ⟨apart, distinct⟩ := nodup_cons.mp distinct
    rw [foldl_cons, ih distinct, enterKey]
    by_cases here : key = first
    · subst here
      by_cases dead : key ∈ deadKeys <;> simp [apart, dead]
    · by_cases dead : first ∈ deadKeys <;> simp [here, dead]

theorem leaveKey_spec (newKeys : Finset K) (state : FiniteMap K ℤ × List K) (key : K) :
    (∀ k, (leaveKey newKeys state key).1.get k =
      if k = key ∧ k ∉ newKeys then decrement (state.1.get k) else state.1.get k) ∧
    (leaveKey newKeys state key).2 = state.2 ++
      if key ∉ newKeys ∧ state.1.get key = some 1 then [key] else [] := by
  unfold leaveKey
  split
  · next new =>
    refine ⟨fun k => ?_, by simp [new]⟩
    rw [if_neg]
    rintro ⟨rfl, notNew⟩
    exact notNew new
  · next notNew =>
    split
    · next absent =>
      refine ⟨fun k => ?_, by simp [absent]⟩
      by_cases here : k = key
      · simp [here, absent, decrement]
      · simp [here]
    · next one =>
      refine ⟨fun k => ?_, by simp [notNew, one]⟩
      by_cases here : k = key
      · simp [here, notNew, one, decrement]
      · simp [here]
    · next count notOne found =>
      have several : count ≠ 1 := notOne
      refine ⟨fun k => ?_, by simp [found, several]⟩
      by_cases here : k = key
      · simp [here, notNew, found, several, decrement]
      · simp [here]

theorem leaveKeys (newKeys : Finset K) (keys : List K) (distinct : keys.Nodup)
    (state : FiniteMap K ℤ × List K) :
    (∀ k, (keys.foldl (leaveKey newKeys) state).1.get k =
      if k ∈ keys ∧ k ∉ newKeys then decrement (state.1.get k) else state.1.get k) ∧
    (keys.foldl (leaveKey newKeys) state).2 = state.2 ++ keys.filter fun k =>
      decide (k ∉ newKeys ∧ state.1.get k = some 1) := by
  induction keys generalizing state with
  | nil => simp
  | cons first rest ih =>
    obtain ⟨apart, distinct⟩ := nodup_cons.mp distinct
    obtain ⟨counts, removed⟩ := leaveKey_spec newKeys state first
    obtain ⟨laterCounts, laterRemoved⟩ := ih distinct (leaveKey newKeys state first)
    refine ⟨fun k => ?_, ?_⟩
    · rw [foldl_cons, laterCounts, counts]
      by_cases here : k = first
      · subst here
        simp [apart]
      · simp [here]
    · have same : ∀ k ∈ rest, decide (k ∉ newKeys ∧ (leaveKey newKeys state first).1.get k =
          some 1) = decide (k ∉ newKeys ∧ state.1.get k = some 1) := by
        intro k hk
        have other : k ≠ first := fun eq => apart (eq ▸ hk)
        rw [counts, if_neg fun both => other both.1]
      rw [foldl_cons, laterRemoved, removed, filter_congr same, append_assoc]
      by_cases gone : first ∉ newKeys ∧ state.1.get first = some 1
      · rw [if_pos gone, filter_cons_of_pos (by simpa using gone)]
        rfl
      · rw [if_neg gone, filter_cons_of_neg (by simpa using gone)]
        rfl

theorem updateRefCounts_eq (this : TLazyDir D K F T) (refCounts : FiniteMap K ℤ)
    (newKeys deadKeys : Finset K) :
    this.updateRefCounts refCounts newKeys deadKeys =
      (refCounts.mergeWith2 (FiniteMap.ofSet newKeys) (FiniteMap.ofSet deadKeys) mergeCount,
        (deadKeys.sort (· ≤ ·)).filter (expires refCounts newKeys deadKeys)) := by
  unfold updateRefCounts
  split
  · have entered := get_enterKeys deadKeys (newKeys.sort (· ≤ ·)) (Finset.sort_nodup _ _) refCounts
    obtain ⟨counts, removed⟩ := leaveKeys newKeys (deadKeys.sort (· ≤ ·)) (Finset.sort_nodup _ _)
      ((newKeys.sort (· ≤ ·)).foldl (enterKey deadKeys) refCounts, [])
    simp only [Finset.mem_sort] at entered counts
    refine Prod.ext (FiniteMap.ext fun key => ?_) ?_
    · rw [counts, entered, get_merge]
      by_cases new : key ∈ newKeys
      · by_cases dead : key ∈ deadKeys <;> simp [new, dead, countAfter]
      · by_cases dead : key ∈ deadKeys <;> simp [new, dead, countAfter]
    · rw [removed, nil_append]
      refine filter_congr fun key mem => ?_
      have dead : key ∈ deadKeys := (Finset.mem_sort _).mp mem
      rw [entered, expires]
      by_cases new : key ∈ newKeys <;> simp [new, dead]
  · rfl

theorem removeResult_idem (value : LazyResult D K F) :
    removeResult (removeResult value) = removeResult value := by
  cases value <;> rfl

theorem get_removeKey (data : FiniteMap K (LazyResult D K F)) (key k : K) :
    (removeKey data key).get k = if k = key then (data.get k).map removeResult else data.get k := by
  unfold removeKey
  split
  · next values reads found =>
    by_cases here : k = key
    · simp [here, found, removeResult]
    · simp [here]
  · next other =>
    by_cases here : k = key
    · subst here
      rw [if_pos rfl]
      cases found : data.get k with
      | none => rfl
      | some value =>
        cases value with
        | lDefined values reads => exact absurd found (other values reads)
        | _ => rfl
    · rw [if_neg here]

theorem get_removeKeys (keys : List K) (data : FiniteMap K (LazyResult D K F)) (k : K) :
    (keys.foldl removeKey data).get k =
      if k ∈ keys then (data.get k).map removeResult else data.get k := by
  induction keys generalizing data with
  | nil => simp
  | cons first rest ih =>
    rw [foldl_cons, ih, get_removeKey]
    by_cases here : k = first
    · subst here
      by_cases later : k ∈ rest
      · simp [later, Function.comp_def, removeResult_idem]
      · simp [later]
    · simp [here]

theorem get_retire (data : FiniteMap K (LazyResult D K F)) (refCounts : FiniteMap K ℤ)
    (newKeys deadKeys : Finset K) (k : K) :
    (retire data refCounts newKeys deadKeys).get k =
      if expires refCounts newKeys deadKeys k then (data.get k).map removeResult
      else data.get k := by
  unfold retire
  rw [FiniteMap.get_mergeWith2 _ _ _ _ _ (by simp), FiniteMap.get_ofSet, expires]
  by_cases dead : k ∈ deadKeys <;> simp [dead]

theorem updateLazyGets_eq (this : TLazyDir D K F T) (refCountsOpt : Option (FiniteMap K ℤ))
    (newKeysOpt deadKeysOpt : Option (Finset K)) :
    this.updateLazyGets refCountsOpt newKeysOpt deadKeysOpt =
      let refCounts := refCountsOpt.getD .empty
      let newKeys := newKeysOpt.getD ∅
      let deadKeys := deadKeysOpt.getD ∅
      let merged := refCounts.mergeWith2 (FiniteMap.ofSet newKeys) (FiniteMap.ofSet deadKeys)
        mergeCount
      (if merged.isEmpty then none else some merged,
        if ((deadKeys.sort (· ≤ ·)).filter (expires refCounts newKeys deadKeys)).isEmpty then none
        else some { this with data := retire this.data refCounts newKeys deadKeys }) := by
  unfold updateLazyGets
  dsimp only
  rw [updateRefCounts_eq]
  dsimp only
  refine Prod.ext rfl ?_
  dsimp only
  split
  · rfl
  · split
    · rfl
    · have rows : ∀ (refCounts : FiniteMap K ℤ) (newKeys deadKeys : Finset K),
          ((deadKeys.sort (· ≤ ·)).filter (expires refCounts newKeys deadKeys)).foldl removeKey
            this.data = retire this.data refCounts newKeys deadKeys := by
        intro refCounts newKeys deadKeys
        refine FiniteMap.ext fun k => ?_
        rw [get_removeKeys, get_retire]
        refine if_congr ?_ rfl rfl
        rw [mem_filter, Finset.mem_sort, and_iff_right_iff_imp]
        intro gone
        exact (of_decide_eq_true gone).2.1
      rw [removeKeys, rows]

end TLazyDir
end SkipPlatform
