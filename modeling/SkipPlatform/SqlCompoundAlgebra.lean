import SkipPlatform.SqlCompound

set_option autoImplicit false
set_option linter.unusedSectionVars false

/-! When a compound select is what its operators say from left to right. The pass over the
entries of a row counts an entry once however often its row is repeated in it, and gives the
repeat of the first entry to all; and it finds a row before an INTERSECT only in the operand
right before. -/
namespace SkipPlatform
open List QueryKind

namespace UnionState

variable {i c : ℕ} {s : UnionState}

theorem iterate_of_fixed {f : UnionState → UnionState} (h : f (f s) = f s) (hc : 0 < c) :
    f^[c] s = f s := by
  induction c with
  | zero => omega
  | succ c ih =>
    rw [Function.iterate_succ_apply']
    cases c with
    | zero => rfl
    | succ c => rw [ih (by omega), h]

theorem iterate_all : (step i (.union .all))^[c] s = ⟨s.count + c, s.intersectOrder⟩ := by
  induction c with
  | zero => rfl
  | succ c ih =>
    rw [Function.iterate_succ_apply', ih]
    rfl

theorem iterate_single (hc : 0 < c) :
    (step i (.union .single))^[c] s = ⟨1, s.intersectOrder⟩ :=
  iterate_of_fixed rfl hc

theorem iterate_except (hc : 0 < c) : (step i .except)^[c] s = ⟨0, s.intersectOrder⟩ :=
  iterate_of_fixed rfl hc

theorem iterate_unionIntersect (h : s.intersectOrder < i) (hc : 0 < c) :
    (step i (.union .intersect))^[c] s = ⟨s.count, i⟩ := by
  have hstep : step i (.union .intersect) s = ⟨s.count, i⟩ := by
    simp [step, h]
  rw [iterate_of_fixed (by rw [hstep]; simp [step]) hc, hstep]

theorem step_intersect_reset (next : Bool) (hi : 0 < i) (h : s.intersectOrder + 1 ≠ i)
    (hc : 0 < c) : (step i (.intersect next))^[c] s = ⟨0, -1⟩ := by
  have hstep : step i (.intersect next) s = ⟨0, -1⟩ := by
    simp [step, h]
  have hne : (-1 : ℤ) + 1 ≠ i := by omega
  rw [iterate_of_fixed (by rw [hstep]; simp only [step, hne, if_false]) hc, hstep]

theorem iterate_intersect_last (h : s.intersectOrder + 1 = i) (hc : 0 < c) :
    (step i (.intersect false))^[c] s = ⟨1, s.intersectOrder⟩ := by
  have hstep : step i (.intersect false) s = ⟨1, s.intersectOrder⟩ := by
    simp [step, h]
  rw [iterate_of_fixed (by rw [hstep]; simp [step, h]) hc, hstep]

theorem iterate_intersect_next (h : s.intersectOrder + 1 = i) (hi : 0 < i) (hc : 0 < c) :
    (step i (.intersect true))^[c] s = if c = 1 then ⟨0, i⟩ else ⟨0, -1⟩ := by
  have hstep : step i (.intersect true) s = ⟨0, i⟩ := by
    simp [step, h]
  obtain ⟨c, rfl⟩ : ∃ n, c = n + 1 := ⟨c - 1, by omega⟩
  rw [Function.iterate_succ_apply, hstep]
  by_cases hzero : c = 0
  · simp [hzero]
  · have hne : ((i : ℤ) + 1) ≠ i := by omega
    rw [step_intersect_reset true hi hne (by omega)]
    simp [hzero]

end UnionState

/-- An operator with the repeats of the entries of a row in the operand after it. -/
abbrev RowSteps := List (CompoundOperator × List ℕ)

namespace RowSteps

def onlyUnionAll (l : RowSteps) : Bool := l.all (·.1 = .unionAll)

def hasIntersect (l : RowSteps) : Bool := l.any (·.1 = .intersect)

def leading : RowSteps → RowSteps
  | [] => []
  | p :: l => if onlyUnionAll (p :: l) then [] else p :: leading l

def trailing : RowSteps → RowSteps
  | [] => []
  | p :: l => if onlyUnionAll (p :: l) then p :: l else trailing l

def survives (b : Bool) : RowSteps → Bool
  | [] => b
  | (.union, entries) :: l => survives (b || !entries.isEmpty) l
  | (.unionAll, entries) :: l => survives (b || !entries.isEmpty) l
  | (.except, entries) :: l => survives (b && entries.isEmpty) l
  | (.intersect, entries) :: l => survives (b && !entries.isEmpty) l

/-- The same, but an INTERSECT asks whether the row was in the operand right before: in a
united operand, or in exactly one entry of an intersected operand that passed the same
question. -/
def survivesChained (chained b : Bool) : RowSteps → Bool
  | [] => b
  | (.union, entries) :: l => survivesChained (!entries.isEmpty) (b || !entries.isEmpty) l
  | (.unionAll, entries) :: l => survivesChained (!entries.isEmpty) (b || !entries.isEmpty) l
  | (.except, entries) :: l => survivesChained false (b && entries.isEmpty) l
  | (.intersect, entries) :: l =>
    survivesChained (chained && entries.length = 1) (chained && !entries.isEmpty) l

def entryCount (l : RowSteps) : ℕ := (l.map fun p => p.2.length).sum

def repeatCount (l : RowSteps) : ℕ := (l.map fun p => p.2.sum).sum

def pass : ℕ → RowSteps → UnionState → UnionState
  | _, [], s => s
  | i, (op, entries) :: l, s =>
    pass (i + 1) l
      ((UnionState.step i (makeQueryKind (compile op) (l.map fun p => compile p.1)))^[entries.length] s)

theorem compile_all (l : RowSteps) :
    (l.map fun p => compile p.1).all (· = .union .all) = onlyUnionAll l := by
  induction l with
  | nil => rfl
  | cons p l ih =>
    simp only [map_cons, all_cons, onlyUnionAll] at ih ⊢
    rw [ih]
    cases p.1 <;> simp [compile]

theorem compile_any (l : RowSteps) :
    (l.map fun p => compile p.1).any isIntersect = hasIntersect l := by
  induction l with
  | nil => rfl
  | cons p l ih =>
    simp only [map_cons, any_cons, hasIntersect] at ih ⊢
    rw [ih]
    cases p.1 <;> simp [compile, isIntersect]

variable {l : RowSteps}

theorem hasIntersect_of_onlyUnionAll (h : onlyUnionAll l = true) :
    hasIntersect l = false := by
  simp only [onlyUnionAll, all_eq_true, decide_eq_true_eq, hasIntersect] at *
  rw [Bool.eq_false_iff]
  intro hany
  simp only [any_eq_true, decide_eq_true_eq] at hany
  obtain ⟨p, hp, heq⟩ := hany
  rw [h p hp] at heq
  cases heq

theorem makeQueryKind_eq (op : CompoundOperator) (l : RowSteps) :
    makeQueryKind (compile op) (l.map fun p => compile p.1) =
      match op with
      | .union => if hasIntersect l then .union .intersect else .union .single
      | .unionAll =>
        if onlyUnionAll l then .union .all
        else if hasIntersect l then .union .intersect else .union .single
      | .except => .except
      | .intersect => .intersect (hasIntersect l) := by
  unfold makeQueryKind
  simp only [compile_all, compile_any]
  cases op <;> simp [compile]

theorem pass_onlyUnionAll (h : onlyUnionAll l = true) (i : ℕ) (s : UnionState) :
    (pass i l s).count = s.count + entryCount l := by
  induction l generalizing i s with
  | nil => rfl
  | cons p l ih =>
    obtain ⟨op, entries⟩ := p
    simp only [onlyUnionAll, all_cons, Bool.and_eq_true, decide_eq_true_eq] at h
    obtain ⟨rfl, hl⟩ := h
    have hl : onlyUnionAll l = true := hl
    simp only [pass, makeQueryKind_eq, hl, if_true, UnionState.iterate_all]
    rw [ih hl]
    simp only [entryCount, map_cons, sum_cons]
    omega

theorem leading_of_onlyUnionAll (h : onlyUnionAll l = true) : leading l = [] := by
  cases l with
  | nil => rfl
  | cons p l => simp [leading, h]

theorem trailing_of_onlyUnionAll (h : onlyUnionAll l = true) :
    trailing l = l := by
  cases l with
  | nil => rfl
  | cons p l => simp [trailing, h]

theorem pass_noIntersect (h : hasIntersect l = false) (i : ℕ) (s : UnionState)
    (chained b : Bool) (hs : s.count = b.toNat) :
    (pass i l s).count = (survivesChained chained b (leading l)).toNat + entryCount
    (trailing l) := by
  induction l generalizing i s chained b with
  | nil => simp [pass, leading, trailing, survivesChained, entryCount, hs]
  | cons p l ih =>
    by_cases hall : onlyUnionAll (p :: l) = true
    · rw [pass_onlyUnionAll hall, leading_of_onlyUnionAll hall, trailing_of_onlyUnionAll hall, hs]
      rfl
    · obtain ⟨op, entries⟩ := p
      have hl : hasIntersect l = false := by
        simp only [hasIntersect, any_cons, Bool.or_eq_false_iff] at h
        exact h.2
      have hlead : leading ((op, entries) :: l) = (op, entries) :: leading l := by
        simp [leading, hall]
      have htrail : trailing ((op, entries) :: l) = trailing l := by
        simp [trailing, hall]
      rw [hlead, htrail]
      simp only [pass, makeQueryKind_eq, hl]
      by_cases hempty : entries = []
      · subst hempty
        simp only [length_nil, Function.iterate_zero, id_eq]
        cases op with
        | intersect => simp [hasIntersect] at h
        | union => exact ih hl (i + 1) s _ _ (by simpa using hs)
        | unionAll => exact ih hl (i + 1) s _ _ (by simpa using hs)
        | except => exact ih hl (i + 1) s _ _ (by simpa using hs)
      · have hpos : 0 < entries.length := length_pos_iff.mpr hempty
        have hne : entries.isEmpty = false := by simpa using hempty
        cases op with
        | intersect => simp [hasIntersect] at h
        | union =>
          simp only [Bool.false_eq_true, if_false]
          rw [UnionState.iterate_single hpos]
          exact ih hl (i + 1) _ _ _ (by simp [hne])
        | unionAll =>
          have hnot : onlyUnionAll l = false := by
            simpa [onlyUnionAll] using hall
          simp only [hnot, Bool.false_eq_true, if_false]
          rw [UnionState.iterate_single hpos]
          exact ih hl (i + 1) _ _ _ (by simp [hne])
        | except =>
          simp only []
          rw [UnionState.iterate_except hpos]
          exact ih hl (i + 1) _ _ _ (by simp [hne])

theorem onlyUnionAll_of_hasIntersect (h : hasIntersect l = true) :
    onlyUnionAll l = false := by
  rw [Bool.eq_false_iff]
  intro hall
  rw [hasIntersect_of_onlyUnionAll hall] at h
  cases h

theorem pass_hasIntersect (h : hasIntersect l = true) (i : ℕ) (hi : 0 < i)
    (s : UnionState) (chained b : Bool) (hcount : s.count = 0) (hlt : s.intersectOrder < i)
    (hchained : chained = true ↔ s.intersectOrder + 1 = i) :
    (pass i l s).count = (survivesChained chained b (leading l)).toNat + entryCount
    (trailing l) := by
  induction l generalizing i s chained b with
  | nil => cases h
  | cons p l ih =>
    have hall := onlyUnionAll_of_hasIntersect h
    obtain ⟨op, entries⟩ := p
    have hlead : leading ((op, entries) :: l) = (op, entries) :: leading l := by
      simp [leading, hall]
    have htrail : trailing ((op, entries) :: l) = trailing l := by
      simp [trailing, hall]
    rw [hlead, htrail]
    have hunion : op = .union ∨ op = .unionAll →
        (pass (i + 1) l ((UnionState.step i (.union .intersect))^[entries.length] s)).count =
          (survivesChained (!entries.isEmpty) (b || !entries.isEmpty) (leading l)).toNat +
            entryCount (trailing l) := by
      intro hop
      have hl : hasIntersect l = true := by
        rcases hop with rfl | rfl <;> simpa [hasIntersect] using h
      by_cases hempty : entries = []
      · subst hempty
        exact ih hl (i + 1) (by omega) s _ _ hcount (by push_cast; omega)
          (by push_cast; simp; omega)
      · have hpos : 0 < entries.length := length_pos_iff.mpr hempty
        have hne : entries.isEmpty = false := by simpa using hempty
        rw [UnionState.iterate_unionIntersect hlt hpos]
        exact ih hl (i + 1) (by omega) _ _ _ hcount (by push_cast; simp) (by simp [hne])
    simp only [pass, makeQueryKind_eq]
    cases op with
    | union =>
      have hl : hasIntersect l = true := by simpa [hasIntersect] using h
      simp only [hl, if_true]
      exact hunion (Or.inl rfl)
    | unionAll =>
      have hl : hasIntersect l = true := by simpa [hasIntersect] using h
      simp only [hl, onlyUnionAll_of_hasIntersect hl, if_true, Bool.false_eq_true, if_false]
      exact hunion (Or.inr rfl)
    | except =>
      have hl : hasIntersect l = true := by simpa [hasIntersect] using h
      have hstate : ∃ s', (UnionState.step i .except)^[entries.length] s = s' ∧ s'.count = 0 ∧
          s'.intersectOrder = s.intersectOrder := by
        by_cases hempty : entries = []
        · subst hempty
          exact ⟨s, rfl, hcount, rfl⟩
        · exact ⟨_, UnionState.iterate_except (length_pos_iff.mpr hempty), rfl, rfl⟩
      obtain ⟨s', heq, hzero, horder⟩ := hstate
      simp only [heq]
      exact ih hl (i + 1) (by omega) s' _ _ hzero (by push_cast; omega)
        (by push_cast; simp; omega)
    | intersect =>
      by_cases hempty : entries = []
      · subst hempty
        simp only [length_nil, Function.iterate_zero, id_eq, survivesChained]
        by_cases hl : hasIntersect l = true
        · exact ih hl (i + 1) (by omega) s _ _ hcount (by push_cast; omega)
            (by push_cast; simp; omega)
        · exact pass_noIntersect (by simpa using hl) (i + 1) s _ _ (by simp [hcount])
      · have hpos : 0 < entries.length := length_pos_iff.mpr hempty
        have hne : entries.isEmpty = false := by simpa using hempty
        simp only [survivesChained]
        by_cases hc : s.intersectOrder + 1 = i
        · have htrue := hchained.mpr hc
          subst htrue
          by_cases hl : hasIntersect l = true
          · simp only [hl]
            rw [UnionState.iterate_intersect_next hc hi hpos]
            by_cases hone : entries.length = 1
            · simp only [hone, if_true]
              exact ih hl (i + 1) (by omega) _ _ _ rfl (by push_cast; simp) (by simp)
            · simp only [hone, if_false]
              exact ih hl (i + 1) (by omega) _ _ _ rfl (by push_cast; simp)
                (by simp; omega)
          · simp only [Bool.not_eq_true] at hl
            simp only [hl]
            rw [UnionState.iterate_intersect_last hc hpos]
            exact pass_noIntersect hl (i + 1) _ _ _ (by simp [hne])
        · have hfalse : chained = false := by
            rw [Bool.eq_false_iff]
            exact fun htrue => hc (hchained.mp htrue)
          subst hfalse
          rw [UnionState.step_intersect_reset _ hi hc hpos]
          by_cases hl : hasIntersect l = true
          · exact ih hl (i + 1) (by omega) _ _ _ rfl (by push_cast; simp)
              (by simp; omega)
          · exact pass_noIntersect (by simpa using hl) (i + 1) _ _ _ (by simp)

theorem pass_start {op : CompoundOperator} (hop : op = .union ∨ op = .unionAll) (entries : List ℕ)
    (l : RowSteps) : (pass 0 ((op, entries) :: l) .start).count =
      (survivesChained false false (leading ((op, entries) :: l))).toNat +
        entryCount (trailing ((op, entries) :: l)) := by
  by_cases hl : hasIntersect ((op, entries) :: l) = true
  · have hrest : hasIntersect l = true := by
      rcases hop with rfl | rfl <;> simpa [hasIntersect] using hl
    have hall := onlyUnionAll_of_hasIntersect hl
    have hkind : makeQueryKind (compile op) (l.map fun p => compile p.1) = .union .intersect := by
      rw [makeQueryKind_eq]
      rcases hop with rfl | rfl <;> simp [hrest, onlyUnionAll_of_hasIntersect hrest]
    have hlead : leading ((op, entries) :: l) = (op, entries) :: leading l := by
      simp [leading, hall]
    have htrail : trailing ((op, entries) :: l) = trailing l := by
      simp [trailing, hall]
    have hchain : survivesChained false false ((op, entries) :: leading l) =
        survivesChained (!entries.isEmpty) (false || !entries.isEmpty) (leading l) := by
      rcases hop with rfl | rfl <;> rfl
    rw [hlead, htrail, hchain]
    simp only [pass, hkind]
    by_cases hempty : entries = []
    · subst hempty
      exact pass_hasIntersect hrest 1 (by omega) _ _ _ rfl (by decide) (by decide)
    · have hpos : 0 < entries.length := length_pos_iff.mpr hempty
      have hne : entries.isEmpty = false := by simpa using hempty
      rw [UnionState.iterate_unionIntersect (by decide) hpos]
      exact pass_hasIntersect hrest 1 (by omega) _ _ _ rfl (by simp) (by simp [hne])
  · exact pass_noIntersect (by simpa using hl) 0 _ false false rfl

def applyCounts : ℕ → RowSteps → ℕ
  | m, [] => m
  | m, (.union, entries) :: l => applyCounts (min 1 (m + entries.sum)) l
  | m, (.unionAll, entries) :: l => applyCounts (m + entries.sum) l
  | m, (.except, entries) :: l => applyCounts (if entries.sum = 0 then min 1 m else 0) l
  | m, (.intersect, entries) :: l => applyCounts (min 1 (min m entries.sum)) l

theorem applyCounts_onlyUnionAll (h : onlyUnionAll l = true) (m : ℕ) :
    applyCounts m l = m + repeatCount l := by
  induction l generalizing m with
  | nil => rfl
  | cons p l ih =>
    obtain ⟨op, entries⟩ := p
    simp only [onlyUnionAll, all_cons, Bool.and_eq_true, decide_eq_true_eq] at h
    obtain ⟨rfl, hl⟩ := h
    simp only [applyCounts]
    rw [ih hl]
    simp only [repeatCount, map_cons, sum_cons]
    omega

theorem sum_eq_zero_iff_isEmpty {entries : List ℕ} (h : ∀ n ∈ entries, 0 < n) :
    entries.sum = 0 ↔ entries.isEmpty = true := by
  cases entries with
  | nil => simp
  | cons n entries =>
    have hn := h n mem_cons_self
    simp only [sum_cons, isEmpty_cons, Bool.false_eq_true, iff_false]
    omega

theorem applyCounts_eq (hpos : ∀ p ∈ l, ∀ n ∈ p.2, 0 < n) (m : ℕ) (b : Bool)
    (hb : b = true ↔ 0 < m) (hone : onlyUnionAll l = true → m = b.toNat) :
    applyCounts m l = (survives b (leading l)).toNat + repeatCount (trailing l) := by
  induction l generalizing m b with
  | nil => simpa [applyCounts, leading, trailing, survives, repeatCount] using hone rfl
  | cons p l ih =>
    by_cases hall : onlyUnionAll (p :: l) = true
    · rw [applyCounts_onlyUnionAll hall, leading_of_onlyUnionAll hall,
        trailing_of_onlyUnionAll hall, hone hall]
      rfl
    · obtain ⟨op, entries⟩ := p
      have hlead : leading ((op, entries) :: l) = (op, entries) :: leading l := by
        simp [leading, hall]
      have htrail : trailing ((op, entries) :: l) = trailing l := by
        simp [trailing, hall]
      rw [hlead, htrail]
      have hrest : ∀ p ∈ l, ∀ n ∈ p.2, 0 < n := fun p hp => hpos p (mem_cons_of_mem _ hp)
      have hsum := sum_eq_zero_iff_isEmpty (hpos (op, entries) mem_cons_self)
      cases hempty : entries.isEmpty with
      | true =>
        have hzero := hsum.mpr hempty
        cases op with
        | union =>
          simp only [applyCounts, survives, hempty, hzero]
          cases b <;> exact ih hrest _ _ (by simp at hb ⊢; omega) fun _ => by simp at hb ⊢; omega
        | unionAll =>
          have hnot : onlyUnionAll l = false := by simpa [onlyUnionAll] using hall
          simp only [applyCounts, survives, hempty, hzero]
          refine ih hrest _ _ (by simpa using hb) ?_
          intro h
          rw [hnot] at h
          cases h
        | except =>
          simp only [applyCounts, survives, hempty, hzero]
          cases b <;> exact ih hrest _ _ (by simp at hb ⊢; omega) fun _ => by simp at hb ⊢; omega
        | intersect =>
          simp only [applyCounts, survives, hempty, hzero]
          exact ih hrest _ _ (by simp) fun _ => by simp
      | false =>
        have hzero : entries.sum ≠ 0 := by
          intro h
          rw [hsum.mp h] at hempty
          cases hempty
        cases op with
        | union =>
          simp only [applyCounts, survives, hempty]
          exact ih hrest _ _ (by simp; omega) fun _ => by simp; omega
        | unionAll =>
          have hnot : onlyUnionAll l = false := by simpa [onlyUnionAll] using hall
          simp only [applyCounts, survives, hempty]
          refine ih hrest _ _ (by simp; omega) ?_
          intro h
          rw [hnot] at h
          cases h
        | except =>
          simp only [applyCounts, survives, hempty, hzero, if_false]
          exact ih hrest _ _ (by simp) fun _ => by simp
        | intersect =>
          simp only [applyCounts, survives, hempty]
          cases b <;> exact ih hrest _ _ (by simp at hb ⊢; omega) fun _ => by simp at hb ⊢; omega

theorem applyCounts_min_one {op : CompoundOperator} (hop : op ≠ .unionAll) (entries : List ℕ)
    (l : RowSteps) (m : ℕ) :
    applyCounts (min 1 m) ((op, entries) :: l) = applyCounts m ((op, entries) :: l) := by
  cases op with
  | unionAll => exact absurd rfl hop
  | union =>
    have h : min 1 (min 1 m + entries.sum) = min 1 (m + entries.sum) := by omega
    simp only [applyCounts, h]
  | except =>
    have h : min 1 (min 1 m) = min 1 m := by omega
    simp only [applyCounts, h]
  | intersect =>
    have h : min 1 (min (min 1 m) entries.sum) = min 1 (min m entries.sum) := by omega
    simp only [applyCounts, h]

end RowSteps

namespace CompoundSelect
open RowSteps

variable {V : Type} [DecidableEq V]

def entries (q : CompoundSelect V) (x : List (Option V)) (i : ℕ) : List ℕ :=
  (q.written.filter fun w => w.1 = i ∧ w.2.values = x).map (·.2.repeatCount)

def stepsFrom (q : CompoundSelect V) (x : List (Option V)) : ℕ → List CompoundOperator → RowSteps
  | _, [] => []
  | i, op :: ops => (op, q.entries x i) :: q.stepsFrom x (i + 1) ops

def firstOperator : List CompoundOperator → CompoundOperator
  | .unionAll :: _ => .unionAll
  | _ => .union

def steps (q : CompoundSelect V) (x : List (Option V)) : RowSteps :=
  q.stepsFrom x 0 (firstOperator q.rest :: q.rest)

/-- The repeat of the first entry of a row in the first operand that has it. -/
def firstRepeat (q : CompoundSelect V) (x : List (Option V)) : ℕ :=
  match sortedRows (q.files x) with
  | [] => 0
  | first :: _ => first.row.repeatCount

theorem firstOperator_cases (rest : List CompoundOperator) :
    firstOperator rest = .union ∨ firstOperator rest = .unionAll := by
  unfold firstOperator
  split
  · exact Or.inr rfl
  · exact Or.inl rfl

variable (q : CompoundSelect V)

variable (x : List (Option V))

theorem count_operand (i : ℕ) :
    (q.operand i).count x = (q.entries x i).sum := by
  unfold operand entries
  induction q.written with
  | nil => rfl
  | cons w l ih =>
    simp only [Multiset.coe_count] at ih ⊢
    by_cases hi : w.1 = i
    · by_cases hx : w.2.values = x
      · simp [hi, hx, ih, RowValues.count_copies]
      · simp [hi, hx, ih, RowValues.count_copies]
    · simp [hi, ih]

theorem count_apply {R : Type} [DecidableEq R] (op : CompoundOperator) (a b : Multiset R) (x : R)
    (n : List ℕ) (l : RowSteps) (hb : b.count x = n.sum) :
    applyCounts (a.count x) ((op, n) :: l) = applyCounts ((op.apply a b).count x) l := by
  have hmem : ∀ s : Multiset R, (s.dedup).count x = min 1 (s.count x) := by
    intro s
    rw [Multiset.count_dedup]
    by_cases hx : x ∈ s
    · have hpos := Multiset.count_pos.mpr hx
      simp only [hx, if_true]
      omega
    · have hzero := Multiset.count_eq_zero.mpr hx
      simp only [hx, if_false, hzero]
      rfl
  cases op with
  | union =>
    simp only [applyCounts, CompoundOperator.apply, hmem, Multiset.count_add, hb]
  | unionAll =>
    simp only [applyCounts, CompoundOperator.apply, Multiset.count_add, hb]
  | intersect =>
    simp only [applyCounts, CompoundOperator.apply, hmem, Multiset.count_inter, hb]
  | except =>
    simp only [applyCounts, CompoundOperator.apply, Multiset.count_filter, hmem, ← hb,
      Multiset.count_eq_zero]

theorem count_applyFrom (i : ℕ)
    (ops : List CompoundOperator) (acc : Multiset (List (Option V))) :
    (q.applyFrom i ops acc).count x = applyCounts (acc.count x) (q.stepsFrom x i ops) := by
  induction ops generalizing i acc with
  | nil => rfl
  | cons op ops ih =>
    rw [applyFrom, ih, stepsFrom, count_apply op acc (q.operand i) x _ _ (q.count_operand x i)]

theorem stepsFrom_pos (i : ℕ)
    (ops : List CompoundOperator) : ∀ p ∈ q.stepsFrom x i ops, ∀ n ∈ p.2, 0 < n := by
  induction ops generalizing i with
  | nil => simp [stepsFrom]
  | cons op ops ih =>
    intro p hp n hn
    rcases mem_cons.mp hp with rfl | hp
    · obtain ⟨w, hw, rfl⟩ := mem_map.mp hn
      exact q.repeatCount_pos w (mem_of_mem_filter hw)
    · exact ih (i + 1) p hp n hn

theorem count_leftToRight :
    q.leftToRight.count x =
      (survives false (leading (q.steps x))).toNat + repeatCount (trailing (q.steps x)) := by
  unfold leftToRight steps
  rw [← applyCounts_eq (q.stepsFrom_pos x 0 _) 0 false (by simp) fun _ => rfl]
  rw [count_applyFrom, count_operand]
  cases hrest : q.rest with
  | nil => exact absurd hrest q.rest_ne_nil
  | cons op ops =>
    by_cases hop : op = .unionAll
    · subst hop
      simp only [firstOperator, stepsFrom, applyCounts, Nat.zero_add]
    · have hfirst : firstOperator (op :: ops) = .union := by
        cases op <;> first | rfl | exact absurd rfl hop
      rw [hfirst]
      simp only [stepsFrom]
      rw [applyCounts, Nat.zero_add, applyCounts_min_one hop]

theorem makeParents_eq (rest : List CompoundOperator) :
    makeParents (rest.map compile) = restKinds ((firstOperator rest :: rest).map compile) := by
  cases rest with
  | nil => rfl
  | cons op ops => cases op <;> rfl

/-- The entries of a row by their operand, when there are so many of them in each. -/
def ordersFrom (q : CompoundSelect V) (x : List (Option V)) (i n : ℕ) : List ℕ :=
  (List.range' i n).flatMap fun j => List.replicate (q.entries x j).length j

theorem foldl_ordersFrom (i : ℕ)
    (ops : List CompoundOperator) (before : List QueryKind) (hbefore : before.length = i)
    (s : UnionState) :
    (q.ordersFrom x i ops.length).foldl (fun s j =>
      UnionState.step j ((before ++ restKinds (ops.map compile)).getD j .except) s) s =
      RowSteps.pass i (q.stepsFrom x i ops) s := by
  induction ops generalizing i before s with
  | nil => rfl
  | cons op ops ih =>
    have hkinds : before ++ restKinds ((op :: ops).map compile) =
        (before ++ [makeQueryKind (compile op) (ops.map compile)]) ++
          restKinds (ops.map compile) := by
      simp [restKinds]
    have hops : ∀ j, (q.stepsFrom x j ops).map (fun p => compile p.1) = ops.map compile := by
      intro j
      clear ih hkinds
      induction ops generalizing j with
      | nil => rfl
      | cons op ops ih => simp [stepsFrom, ih]
    have hblock : ∀ (f : UnionState → UnionState) (n : ℕ) (t : UnionState) (g : UnionState → ℕ → UnionState),
        (∀ u, g u i = f u) → (List.replicate n i).foldl g t = f^[n] t := by
      intro f n t g hg
      induction n generalizing t with
      | zero => rfl
      | succ n ih => simp only [replicate_succ, foldl_cons, hg, ih, Function.iterate_succ_apply]
    simp only [ordersFrom, length_cons, range'_succ, flatMap_cons,
      foldl_append, stepsFrom, RowSteps.pass]
    rw [hops, hblock (UnionState.step i (makeQueryKind (compile op) (ops.map compile)))]
    · rw [hkinds]
      exact ih (i + 1) _ (by simp [hbefore]) _
    · intro u
      rw [hkinds]
      simp [← hbefore]

theorem count_ordersFrom (i n j : ℕ) :
    (q.ordersFrom x i n).count j = if i ≤ j ∧ j < i + n then (q.entries x j).length else 0 := by
  induction n generalizing i with
  | zero =>
    simp [ordersFrom]
  | succ n ih =>
    have hsplit : q.ordersFrom x i (n + 1) =
        List.replicate (q.entries x i).length i ++ q.ordersFrom x (i + 1) n := by
      simp [ordersFrom, range'_succ]
    rw [hsplit, count_append, ih, count_replicate]
    by_cases hij : i = j
    · subst hij
      simp
    · have hiff : (i + 1 ≤ j ∧ j < i + 1 + n) ↔ (i ≤ j ∧ j < i + (n + 1)) := by omega
      have hbeq : (i == j) = false := by simpa using hij
      rw [if_congr hiff rfl rfl, hbeq]
      simp

theorem pairwise_ordersFrom (i n : ℕ) :
    (q.ordersFrom x i n).Pairwise (· ≤ ·) := by
  refine pairwise_flatMap.mpr ⟨?_, ?_⟩
  · intro j _
    exact pairwise_replicate.mpr (Or.inr le_rfl)
  · refine (pairwise_lt_range' 1).imp ?_
    intro a b hab y hy z hz
    rw [eq_of_mem_replicate hy, eq_of_mem_replicate hz]
    exact hab.le

theorem length_entries (j : ℕ) :
    (q.entries x j).length = ((q.files x).map RowKind.order).count j := by
  have horder : (q.files x).map RowKind.order =
      (q.written.filter (·.2.values = x)).map Prod.fst := by
    unfold files
    rw [map_map]
    rfl
  rw [horder, count_eq_countP, countP_map, countP_filter, entries, length_map,
    ← countP_eq_length_filter]
  apply countP_congr
  intro w _
  simp

theorem sortedRows_orders :
    (sortedRows (q.files x)).map RowKind.order = q.ordersFrom x 0 (q.rest.length + 1) := by
  have hsorted : ((sortedRows (q.files x)).map RowKind.order).Pairwise (· ≤ ·) :=
    pairwise_map.mpr (sortedRows_pairwise _)
  refine List.Perm.eq_of_pairwise' hsorted (q.pairwise_ordersFrom x 0 _) ?_
  refine ((sortedRows_perm (q.files x)).map RowKind.order).trans (perm_iff_count.mpr ?_)
  intro j
  rw [count_ordersFrom, ← length_entries]
  by_cases hj : j ≤ q.rest.length
  · have hin : 0 ≤ j ∧ j < 0 + (q.rest.length + 1) := by omega
    simp only [hin, and_self, if_true]
  · have hout : ¬(0 ≤ j ∧ j < 0 + (q.rest.length + 1)) := by omega
    have hnone : q.entries x j = [] := by
      unfold entries
      rw [map_eq_nil_iff, filter_eq_nil_iff]
      intro w hw
      have hle := q.order_le w hw
      simp only [decide_eq_true_eq, not_and]
      omega
    simp only [hout, if_false, hnone, length_nil]

theorem foldl_orders (K : ℕ → QueryKind) (rows : List (RowKind V))
    (h : ∀ r ∈ rows, r.kind = K r.order) (s : UnionState) :
    rows.foldl (fun s row => UnionState.step row.order row.kind s) s =
      (rows.map RowKind.order).foldl (fun s j => UnionState.step j (K j) s) s := by
  induction rows generalizing s with
  | nil => rfl
  | cons r rows ih =>
    simp only [foldl_cons, map_cons]
    rw [h r mem_cons_self, ih fun r' hr' => h r' (mem_cons_of_mem _ hr')]

theorem countRows_sortedRows :
    countRows (sortedRows (q.files x)) =
      (survivesChained false false (leading (q.steps x))).toNat +
        entryCount (trailing (q.steps x)) := by
  have hkind : ∀ r ∈ sortedRows (q.files x), r.kind = q.kinds.getD r.order .except := by
    intro r hr
    obtain ⟨w, _, rfl⟩ := mem_map.mp ((sortedRows_perm _).mem_iff.mp hr)
    rfl
  have hlength : q.rest.length + 1 = (firstOperator q.rest :: q.rest).length := by simp
  have hfold := q.foldl_ordersFrom x 0 (firstOperator q.rest :: q.rest) [] rfl .start
  simp only [nil_append, ← makeParents_eq] at hfold
  unfold countRows
  rw [foldl_orders (fun j => q.kinds.getD j .except) _ hkind, sortedRows_orders, hlength]
  unfold kinds
  rw [hfold]
  exact pass_start (firstOperator_cases q.rest) _ _

theorem initUnion_eq (rows : List (RowKind V)) {first : RowKind V} {others : List (RowKind V)}
    (h : sortedRows rows = first :: others) :
    initUnion rows = List.replicate (countRows (sortedRows rows)) first.row := by
  unfold initUnion
  rw [h]
  simp only
  split_ifs with hzero hone
  · rw [hzero]
    rfl
  · rw [hone]
    rfl
  · rfl

theorem values_of_mem_files {q : CompoundSelect V} {x : List (Option V)} {r : RowKind V}
    (h : r ∈ q.files x) : r.row.values = x := by
  obtain ⟨w, hw, rfl⟩ := mem_map.mp h
  simpa using (mem_filter.mp hw).2

theorem count_initUnion [BEq (List (Option V))] [LawfulBEq (List (Option V))] (x y : List
    (Option V)) :
    ((initUnion (q.files x)).flatMap RowValues.copies).count y =
      if x = y then q.firstRepeat x * countRows (sortedRows (q.files x)) else 0 := by
  unfold firstRepeat
  cases hs : sortedRows (q.files x) with
  | nil => simp [initUnion, hs]
  | cons first others =>
    have hfirst : first.row.values = x :=
      values_of_mem_files ((sortedRows_perm _).mem_iff.mp (hs ▸ mem_cons_self))
    rw [initUnion_eq _ hs, hs]
    have hcopies : ∀ n, ((List.replicate n first.row).flatMap RowValues.copies).count y =
        if x = y then first.row.repeatCount * n else 0 := by
      intro n
      induction n with
      | zero => simp
      | succ n ih =>
        rw [replicate_succ, flatMap_cons, count_append, ih,
          RowValues.count_copies, hfirst]
        split_ifs
        · ring
        · rfl
    exact hcopies _

theorem count_flatMap_initUnion [BEq (List (Option V))] [LawfulBEq (List (Option V))]
    (q : CompoundSelect V) (x : List (Option V)) {l : List (List (Option V))} (hl : l.Nodup) :
    (l.flatMap fun y => (initUnion (q.files y)).flatMap RowValues.copies).count x =
      if x ∈ l then q.firstRepeat x * countRows (sortedRows (q.files x)) else 0 := by
  induction l with
  | nil => rfl
  | cons y l ih =>
    have hnodup := nodup_cons.mp hl
    rw [flatMap_cons, count_append, count_initUnion, ih hnodup.2]
    by_cases hyx : y = x
    · subst hyx
      simp [hnodup.1]
    · have hxy : x ≠ y := fun h => hyx h.symm
      simp [hyx, hxy]

theorem count_result :
    q.result.count x = q.firstRepeat x * countRows (sortedRows (q.files x)) := by
  unfold result keys
  rw [Multiset.coe_count,
    @count_flatMap_initUnion V _ instBEqOfDecidableEq inferInstance q x _ (nodup_dedup _)]
  split_ifs with hmem
  · rfl
  · have hnone : q.files x = [] := by
      unfold files
      rw [map_eq_nil_iff, filter_eq_nil_iff]
      intro w hw hx
      apply hmem
      rw [mem_dedup]
      exact mem_map.mpr ⟨w, hw, by simpa using hx⟩
    simp [firstRepeat, hnone, sortedRows]

/-- The result is what the operators make from left to right exactly when every row meets this:
its first entry's repeat, given to each of its entries in the UNION ALL operands at the end
and to the row itself if it passed the operators before, makes up for the repeats of those
entries and the row. -/
theorem result_eq_leftToRight_iff (q : CompoundSelect V) :
    q.result = q.leftToRight ↔ ∀ x,
      q.firstRepeat x * ((survivesChained false false (leading (q.steps x))).toNat +
          entryCount (trailing (q.steps x))) =
        (survives false (leading (q.steps x))).toNat + repeatCount (trailing (q.steps x)) := by
  rw [Multiset.ext]
  refine forall_congr' fun x => ?_
  rw [count_result, countRows_sortedRows, count_leftToRight]

def repeatedUnion : CompoundSelect ℕ where
  rest := [.union]
  written := [(0, ⟨[some 1], 2⟩), (1, ⟨[some 2], 1⟩)]
  rest_ne_nil := by decide
  order_le := by decide
  repeatCount_pos := by decide

theorem repeatedUnion_result : repeatedUnion.result ≠ repeatedUnion.leftToRight := by
  intro h
  have hcount := congrArg (Multiset.count [some 1]) h
  rw [count_result, count_leftToRight] at hcount
  revert hcount
  decide

end CompoundSelect
end SkipPlatform
