import SkipPlatform.SqlJoin

set_option autoImplicit false
set_option linter.unusedSectionVars false

/-! When the shards of a join cannot be seen in its result. -/
namespace SkipPlatform
open List

section JoinRows

variable {A B : Type} [DecidableEq A] [DecidableEq B] {joinKind : JoinKind}

theorem count_map_pair (l l' : A) (r : B) (rightRows : List B) :
    (rightRows.map fun right => JoinOutput.pair l' right).count (.pair l r) =
      if l' = l then rightRows.count r else 0 := by
  induction rightRows with
  | nil => simp
  | cons right rightRows ih =>
    rw [map_cons, count_cons, ih, count_cons]
    by_cases hl : l' = l
    · subst hl
      by_cases hr : right = r
      · simp [hr]
      · simp [hr]
    · simp [hl]

theorem count_joinRows_pair (l : A) (r : B) (leftRows : List A) (rightRows : List B) :
    (joinRows joinKind leftRows rightRows).count (.pair l r) =
      leftRows.count l * rightRows.count r := by
  have hlast : (if joinKind.keepsRight && leftRows.isEmpty then
      rightRows.map (JoinOutput.onlyRight (A := A)) else []).count (.pair l r) = 0 := by
    rw [count_eq_zero]
    intro hmem
    split_ifs at hmem
    · obtain ⟨x, -, hx⟩ := mem_map.mp hmem
      cases hx
    · cases hmem
  have hfirst : ∀ left : A,
      (if rightRows.isEmpty && joinKind.keepsLeft then [JoinOutput.onlyLeft (B := B) left]
        else []).count (.pair l r) = 0 := by
    intro left
    rw [count_eq_zero]
    intro hmem
    split_ifs at hmem
    · cases mem_singleton.mp hmem
    · cases hmem
  unfold joinRows
  rw [count_append, hlast, Nat.add_zero]
  clear hlast
  induction leftRows with
  | nil => simp
  | cons left leftRows ih =>
    rw [flatMap_cons, count_append, ih, count_append, hfirst, Nat.zero_add,
      count_map_pair, count_cons]
    by_cases hl : left = l
    · simp [hl]
      ring
    · simp [hl]

theorem count_joinRows_onlyLeft (l : A) (leftRows : List A) (rightRows : List B) :
    (joinRows joinKind leftRows rightRows).count (.onlyLeft l) =
      if rightRows.isEmpty && joinKind.keepsLeft then leftRows.count l else 0 := by
  have hlast : (if joinKind.keepsRight && leftRows.isEmpty then
      rightRows.map (JoinOutput.onlyRight (A := A)) else []).count (.onlyLeft l) = 0 := by
    rw [count_eq_zero]
    intro hmem
    split_ifs at hmem
    · obtain ⟨x, -, hx⟩ := mem_map.mp hmem
      cases hx
    · cases hmem
  have hpairs : ∀ left : A,
      (rightRows.map fun right => JoinOutput.pair left right).count (.onlyLeft l) = 0 := by
    intro left
    rw [count_eq_zero]
    intro hmem
    obtain ⟨x, -, hx⟩ := mem_map.mp hmem
    cases hx
  unfold joinRows
  rw [count_append, hlast, Nat.add_zero]
  clear hlast
  induction leftRows with
  | nil => simp
  | cons left leftRows ih =>
    rw [flatMap_cons, count_append, ih, count_append, hpairs, Nat.add_zero,
      count_cons]
    cases hkeep : rightRows.isEmpty && joinKind.keepsLeft with
    | false => simp
    | true =>
      by_cases hl : left = l
      · simp [hl]
        ring
      · simp [hl]

theorem count_joinRows_onlyRight (r : B) (leftRows : List A) (rightRows : List B) :
    (joinRows joinKind leftRows rightRows).count (.onlyRight r) =
      if joinKind.keepsRight && leftRows.isEmpty then rightRows.count r else 0 := by
  have hfirst : (leftRows.flatMap fun left =>
      (if rightRows.isEmpty && joinKind.keepsLeft then [JoinOutput.onlyLeft left] else []) ++
        rightRows.map fun right => JoinOutput.pair left right).count (.onlyRight r) = 0 := by
    rw [count_eq_zero]
    intro hmem
    obtain ⟨left, -, hmem⟩ := mem_flatMap.mp hmem
    rcases mem_append.mp hmem with hmem | hmem
    · split_ifs at hmem
      · cases mem_singleton.mp hmem
      · cases hmem
    · obtain ⟨x, -, hx⟩ := mem_map.mp hmem
      cases hx
  unfold joinRows
  rw [count_append, hfirst, Nat.zero_add]
  split_ifs
  · exact count_map_of_injective _ _ (fun _ _ h => JoinOutput.onlyRight.inj h) _
  · rfl

end JoinRows

namespace SubMerge

variable {V : Type} [DecidableEq V] (j : SubMerge)

variable {l : LeftShardedFile V} {k : ProjKey V}

theorem mem_leftKeys : k ∈ j.leftKeys l ↔
    k.value = j.leftValue l ∧ k.leftShard = l.leftShardID ∧ k.rightShard < l.rightShard := by
  simp only [leftKeys, mem_map, mem_range]
  constructor
  · intro h
    obtain ⟨i, hi, rfl⟩ := h
    exact ⟨rfl, rfl, hi⟩
  · intro h
    obtain ⟨hv, hl, hr⟩ := h
    exact ⟨k.rightShard, hr, by rw [← hv, ← hl]⟩

variable {r : RightShardedFile V}

theorem mem_rightKeys : k ∈ j.rightKeys r ↔
    k.value = j.rightValue r ∧ k.rightShard = r.rightShardID ∧ k.leftShard < r.leftShard := by
  simp only [rightKeys, mem_map, mem_range]
  constructor
  · intro h
    obtain ⟨i, hi, rfl⟩ := h
    exact ⟨rfl, rfl, hi⟩
  · intro h
    obtain ⟨hv, hl, hr⟩ := h
    exact ⟨k.leftShard, hr, by rw [← hv, ← hl]⟩

/-- The rows have the same join value, and each is written to the other's shard. -/
def Meet (l : LeftShardedFile V) (r : RightShardedFile V) : Prop :=
  j.leftValue l = j.rightValue r ∧ l.leftShardID < r.leftShard ∧ r.rightShardID < l.rightShard

instance (l : LeftShardedFile V) (r : RightShardedFile V) : Decidable (j.Meet l r) :=
  inferInstanceAs (Decidable (_ ∧ _))

theorem mem_keys_iff (l : LeftShardedFile V) (r : RightShardedFile V) (k : ProjKey V) :
    k ∈ j.leftKeys l ∧ k ∈ j.rightKeys r ↔
      k = ⟨j.leftValue l, l.leftShardID, r.rightShardID⟩ ∧ j.Meet l r := by
  rw [mem_leftKeys, mem_rightKeys]
  constructor
  · intro h
    obtain ⟨⟨hv, hl, hr⟩, hv', hr', hl'⟩ := h
    refine ⟨?_, hv.symm.trans hv', by omega, by omega⟩
    cases k
    simp only at hv hl hr'
    rw [hv, hl, hr']
  · intro h
    obtain ⟨rfl, hv, hl, hr⟩ := h
    exact ⟨⟨rfl, rfl, hr⟩, hv, rfl, hl⟩

variable {j} {s : JoinState V}

theorem nodup_projKeys : (j.projKeys s).Nodup := nodup_dedup _

theorem mem_projKeys_left (hl : l ∈ s.left)
    (hk : k ∈ j.leftKeys l) : k ∈ j.projKeys s :=
  mem_dedup.mpr (mem_append_left _ (mem_flatMap.mpr ⟨l, hl, hk⟩))

theorem mem_projKeys_right (hr : r ∈ s.right)
    (hk : k ∈ j.rightKeys r) : k ∈ j.projKeys s :=
  mem_dedup.mpr (mem_append_right _ (mem_flatMap.mpr ⟨r, hr, hk⟩))

theorem count_leftGroup (hs : s.left.Nodup) (hl : l ∈ s.left)
    (k : ProjKey V) : (j.leftGroup s k).count l = if k ∈ j.leftKeys l then 1 else 0 := by
  split_ifs with hk
  · exact count_eq_one_of_mem (hs.filter _) (mem_filter.mpr ⟨hl, by simpa using hk⟩)
  · refine count_eq_zero.mpr fun hmem => hk ?_
    simpa using (mem_filter.mp hmem).2

theorem count_rightGroup (hs : s.right.Nodup) (hr : r ∈ s.right)
    (k : ProjKey V) : (j.rightGroup s k).count r = if k ∈ j.rightKeys r then 1 else 0 := by
  split_ifs with hk
  · exact count_eq_one_of_mem (hs.filter _) (mem_filter.mpr ⟨hr, by simpa using hk⟩)
  · refine count_eq_zero.mpr fun hmem => hk ?_
    simpa using (mem_filter.mp hmem).2

theorem rightGroup_eq_nil (k : ProjKey V) :
    j.rightGroup s k = [] ↔ ∀ r ∈ s.right, k ∉ j.rightKeys r := by
  simp [rightGroup, filter_eq_nil_iff]

theorem leftGroup_eq_nil (k : ProjKey V) :
    j.leftGroup s k = [] ↔ ∀ l ∈ s.left, k ∉ j.leftKeys l := by
  simp [leftGroup, filter_eq_nil_iff]

theorem sum_map_ite (l : List (ProjKey V)) (p : ProjKey V → Bool) :
    (l.map fun k => if p k then 1 else 0).sum = l.countP p := by
  induction l with
  | nil => rfl
  | cons k l ih =>
    rw [map_cons, sum_cons, ih, countP_cons]
    omega

theorem count_outputs_pair (hleft : s.left.Nodup) (hright : s.right.Nodup) (hl : l ∈ s.left)
    (hr : r ∈ s.right) :
    (j.outputs s).count (.pair l r) = if j.Meet l r then 1 else 0 := by
  unfold outputs
  rw [count_flatMap]
  have hterm : ∀ k, (joinRows j.joinKind (j.leftGroup s k) (j.rightGroup s k)).count (.pair l r) =
      if k = ⟨j.leftValue l, l.leftShardID, r.rightShardID⟩ ∧ j.Meet l r then 1 else 0 := by
    intro k
    rw [count_joinRows_pair, count_leftGroup hleft hl, count_rightGroup hright hr]
    simp only [← mem_keys_iff]
    by_cases hkl : k ∈ j.leftKeys l
    · simp [hkl]
    · simp [hkl]
  have hmap : ((j.projKeys s).map (List.count (.pair l r) ∘ fun k =>
      joinRows j.joinKind (j.leftGroup s k) (j.rightGroup s k))) =
      (j.projKeys s).map fun k => if decide (k = ⟨j.leftValue l, l.leftShardID, r.rightShardID⟩ ∧
        j.Meet l r) then 1 else 0 := by
    refine map_congr_left fun k _ => ?_
    simp only [Function.comp_apply, hterm, decide_eq_true_eq]
  rw [hmap, sum_map_ite]
  by_cases hmeet : j.Meet l r
  · have hk : (⟨j.leftValue l, l.leftShardID, r.rightShardID⟩ : ProjKey V) ∈ j.leftKeys l :=
      ((j.mem_keys_iff l r _).mpr ⟨rfl, hmeet⟩).1
    simp only [hmeet, and_true, if_true]
    exact count_eq_one_of_mem nodup_projKeys (mem_projKeys_left hl hk)
  · simp only [hmeet, and_false, decide_false, if_false]
    simp

theorem count_outputs_onlyLeft (hleft : s.left.Nodup) (hl : l ∈ s.left)
    (hkeep : j.joinKind.keepsLeft = true) : (j.outputs s).count (.onlyLeft l) =
      (j.projKeys s).countP fun k => k ∈ j.leftKeys l ∧ ∀ r ∈ s.right, k ∉ j.rightKeys r := by
  unfold outputs
  rw [count_flatMap, ← sum_map_ite]
  refine congrArg List.sum (map_congr_left fun k _ => ?_)
  rw [Function.comp_apply, count_joinRows_onlyLeft, count_leftGroup hleft hl, hkeep]
  simp only [Bool.and_true, List.isEmpty_iff, rightGroup_eq_nil, decide_eq_true_eq]
  by_cases hempty : ∀ r ∈ s.right, k ∉ j.rightKeys r
  · rw [if_pos hempty]
    exact if_congr (and_iff_left hempty).symm rfl rfl
  · rw [if_neg hempty, if_neg fun h => hempty h.2]

theorem count_outputs_onlyRight (hright : s.right.Nodup)
    (hr : r ∈ s.right) (hkeep : j.joinKind.keepsRight = true) :
    (j.outputs s).count (.onlyRight r) =
      (j.projKeys s).countP fun k => k ∈ j.rightKeys r ∧ ∀ l ∈ s.left, k ∉ j.leftKeys l := by
  unfold outputs
  rw [count_flatMap, ← sum_map_ite]
  refine congrArg List.sum (map_congr_left fun k _ => ?_)
  rw [Function.comp_apply, count_joinRows_onlyRight, count_rightGroup hright hr, hkeep]
  simp only [Bool.true_and, List.isEmpty_iff, leftGroup_eq_nil, decide_eq_true_eq]
  by_cases hempty : ∀ l ∈ s.left, k ∉ j.leftKeys l
  · rw [if_pos hempty]
    exact if_congr (and_iff_left hempty).symm rfl rfl
  · rw [if_neg hempty, if_neg fun h => hempty h.2]

theorem nodup_leftKeys (l : LeftShardedFile V) : (j.leftKeys l).Nodup :=
  nodup_range.map fun _ _ h => (ProjKey.mk.inj h).2.2

theorem nodup_rightKeys (r : RightShardedFile V) : (j.rightKeys r).Nodup :=
  nodup_range.map fun _ _ h => (ProjKey.mk.inj h).2.1

variable (j s)

/-- The tables have each row once, and every row is written somewhere. -/
structure WellPlaced : Prop where
  left_nodup : (s.left.map (·.value.values)).Nodup
  right_nodup : (s.right.map (·.value.values)).Nodup
  left_pos : ∀ l ∈ s.left, 0 < l.rightShard
  right_pos : ∀ r ∈ s.right, 0 < r.leftShard

variable {j s}

variable {rows : List (RowValues V)} {values : List (Option V)} {sym : ℕ}

theorem projLeftFun_mem
    {stats : Option ShardStats}
    (h : projLeftFun (rows.filter (·.values = values)) stats sym = some l) :
    l.value.values = values ∧ 0 < l.rightShard := by
  unfold projLeftFun normalizeValueIter at h
  cases hrows : rows.filter (·.values = values) with
  | nil => simp [hrows] at h
  | cons v others =>
    have hv : v ∈ rows.filter (·.values = values) := hrows ▸ mem_cons_self
    have hvalues : v.values = values := by simpa using (mem_filter.mp hv).2
    rw [hrows] at h
    simp only at h
    split_ifs at h
    · cases h
    · cases h
      exact ⟨hvalues, (computeShardSizes_pos _).2⟩

theorem projRightFun_mem
    {stats : Option ShardStats}
    (h : projRightFun (rows.filter (·.values = values)) stats sym = some r) :
    r.value.values = values ∧ 0 < r.leftShard := by
  unfold projRightFun normalizeValueIter at h
  cases hrows : rows.filter (·.values = values) with
  | nil => simp [hrows] at h
  | cons v others =>
    have hv : v ∈ rows.filter (·.values = values) := hrows ▸ mem_cons_self
    have hvalues : v.values = values := by simpa using (mem_filter.mp hv).2
    rw [hrows] at h
    simp only at h
    split_ifs at h
    · cases h
    · cases h
      exact ⟨hvalues, (computeShardSizes_pos _).1⟩

theorem nodup_replaced {F : Type} {f : F → List (Option V)} {l : List F}
    {new : Option F} (hl : (l.map f).Nodup) (hnew : ∀ x, new = some x → f x = values) :
    ((l.filter (f · ≠ values) ++ new.toList).map f).Nodup := by
  rw [map_append]
  have hkept : ((l.filter (f · ≠ values)).map f).Nodup := hl.sublist (List.filter_sublist.map f)
  cases new with
  | none => simpa using hkept
  | some x =>
    refine nodup_append.mpr ⟨hkept, nodup_singleton _, ?_⟩
    intro a ha b hb
    obtain ⟨y, hy, rfl⟩ := mem_map.mp ha
    have hne : f y ≠ values := by simpa using (mem_filter.mp hy).2
    rw [mem_singleton.mp hb, hnew x rfl]
    exact hne

theorem wellPlaced_step (h : WellPlaced s) (action : Action V) : WellPlaced (j.step s action) := by
  cases action with
  | writeLeft values rows sym =>
    refine ⟨nodup_replaced h.left_nodup fun x hx => (projLeftFun_mem hx).1, h.right_nodup, ?_,
      h.right_pos⟩
    intro l hl
    rcases mem_append.mp hl with hl | hl
    · exact h.left_pos l (mem_filter.mp hl).1
    · exact (projLeftFun_mem (Option.mem_toList.mp hl)).2
  | writeRight values rows sym =>
    refine ⟨h.left_nodup, nodup_replaced h.right_nodup fun x hx => (projRightFun_mem hx).1,
      h.left_pos, ?_⟩
    intro r hr
    rcases mem_append.mp hr with hr | hr
    · exact h.right_pos r (mem_filter.mp hr).1
    · exact (projRightFun_mem (Option.mem_toList.mp hr)).2
  | reduce k =>
    simp only [step, reduce]
    split
    · exact h
    · exact ⟨h.left_nodup, h.right_nodup, h.left_pos, h.right_pos⟩
  | projectLeft values sym =>
    refine ⟨?_, h.right_nodup, ?_, h.right_pos⟩
    · have hsame : (j.step s (.projectLeft values sym)).left.map (·.value.values) =
          s.left.map (·.value.values) := by
        simp only [step, projectLeft, map_map]
        refine map_congr_left fun l _ => ?_
        simp only [Function.comp_apply]
        split_ifs <;> rfl
      rw [hsame]
      exact h.left_nodup
    · intro l hl
      obtain ⟨l', hl', rfl⟩ := mem_map.mp hl
      split_ifs
      · exact (computeShardSizes_pos _).2
      · exact h.left_pos l' hl'
  | projectRight values sym =>
    refine ⟨h.left_nodup, ?_, h.left_pos, ?_⟩
    · have hsame : (j.step s (.projectRight values sym)).right.map (·.value.values) =
          s.right.map (·.value.values) := by
        simp only [step, projectRight, map_map]
        refine map_congr_left fun l _ => ?_
        simp only [Function.comp_apply]
        split_ifs <;> rfl
      rw [hsame]
      exact h.right_nodup
    · intro r hr
      obtain ⟨r', hr', rfl⟩ := mem_map.mp hr
      split_ifs
      · exact (computeShardSizes_pos _).1
      · exact h.right_pos r' hr'
  | nextTick => exact ⟨h.left_nodup, h.right_nodup, h.left_pos, h.right_pos⟩

theorem wellPlaced_run (h : WellPlaced s) (actions : List (Action V)) :
    WellPlaced (j.run s actions) := by
  induction actions generalizing s with
  | nil => exact h
  | cons action actions ih => exact ih (wellPlaced_step h action)

theorem wellPlaced_start (tick : ℕ) {left right : List (RowValues V)}
    (hleft : (left.map (·.values)).Nodup) (hright : (right.map (·.values)).Nodup) :
    WellPlaced (JoinState.start tick left right) := by
  refine ⟨?_, ?_, ?_, ?_⟩
  · simpa [JoinState.start, projLeft, Function.comp_def] using hleft
  · simpa [JoinState.start, projRight, Function.comp_def] using hright
  · intro l hl
    obtain ⟨row, -, rfl⟩ := mem_map.mp hl
    exact (computeShardSizes_pos none).2
  · intro r hr
    obtain ⟨row, -, rfl⟩ := mem_map.mp hr
    exact (computeShardSizes_pos none).1

section Skewed

/-- The skew is noticed, all rows are projected again, and then another right row is inserted. -/
def sampleActions : List (Action ℕ) :=
  [.reduce ⟨some 0, 0, 0⟩] ++ (List.range 129).map (fun i => .projectLeft [some 0, some i] i) ++
    [.projectRight [some 0] 0, .writeRight [some 0, some 1] [⟨[some 0, some 1], 1⟩] 0]

end Skewed
end SubMerge
end SkipPlatform
