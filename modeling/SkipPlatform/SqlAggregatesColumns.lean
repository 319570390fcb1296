import Mathlib.Data.BitVec
import SkipPlatform.SqlAggregates

set_option autoImplicit false

/-! The reducer column by column: what a pass does to the value of one aggregate. -/
namespace SkipPlatform
open List
namespace Aggregates

abbrev Column := List (Option CValue × ℕ)

section Passes

variable {n : ℕ}

def column (rows : List (AggrRow n)) (i : Fin n) : Column :=
  rows.map fun r => (r.values i, r.repeatCount)

def passColumn (adding : Bool) (kind : AggrKind) :
    Option (Option CValue) → Column → Option CValue → Except Interruption (Option CValue)
  | _, [], s => .ok s
  | last, (v, r) :: l, s => do
    let s ← updateCell adding kind last v r s
    passColumn adding kind (some v) l s

theorem foldlM_update_ok {α ε : Type} (f : Fin n → α → Except ε α) {l : List (Fin n)}
    (hl : l.Nodup) (s s' : Fin n → α) :
    l.foldlM (fun s i => do let x ← f i (s i); return Function.update s i x) s = .ok s' ↔
      (∀ i ∈ l, f i (s i) = .ok (s' i)) ∧ ∀ i, i ∉ l → s' i = s i := by
  induction l generalizing s with
  | nil =>
    simp only [foldlM_nil, pure, Except.pure, Except.ok.injEq, not_mem_nil,
      IsEmpty.forall_iff, implies_true, not_false_eq_true, true_and, forall_const]
    exact ⟨fun h i => congrFun h.symm i, fun h => funext fun i => (h i).symm⟩
  | cons j l ih =>
    have hnodup := nodup_cons.mp hl
    rw [foldlM_cons]
    cases hj : f j (s j) with
    | error e =>
      simp only [bind, Except.bind, reduceCtorEq, false_iff, not_and]
      intro h
      have hbad := h j mem_cons_self
      rw [hj] at hbad
      cases hbad
    | ok x =>
      simp only [bind, Except.bind, pure, Except.pure] at ih ⊢
      rw [ih hnodup.2]
      constructor
      · intro h
        refine ⟨?_, ?_⟩
        · intro i hi
          rcases mem_cons.mp hi with rfl | hi
          · rw [h.2 i hnodup.1, Function.update_self, hj]
          · have hne : i ≠ j := fun heq => hnodup.1 (heq ▸ hi)
            rw [← h.1 i hi, Function.update_of_ne hne]
        · intro i hi
          have hne : i ≠ j := fun heq => hi (heq ▸ mem_cons_self)
          rw [h.2 i fun hmem => hi (mem_cons_of_mem _ hmem), Function.update_of_ne hne]
      · intro h
        refine ⟨?_, ?_⟩
        · intro i hi
          have hne : i ≠ j := fun heq => hnodup.1 (heq ▸ hi)
          rw [Function.update_of_ne hne]
          exact h.1 i (mem_cons_of_mem _ hi)
        · intro i hi
          by_cases hij : i = j
          · subst hij
            have hx := h.1 i mem_cons_self
            rw [hj] at hx
            rw [Function.update_self]
            exact (Except.ok.inj hx).symm
          · rw [Function.update_of_ne hij]
            exact h.2 i fun hmem => (mem_cons.mp hmem).elim hij hi

theorem foldlM_update_error {α ε : Type} (f : Fin n → α → Except ε α) {l : List (Fin n)}
    (hl : l.Nodup) (s : Fin n → α) {e : ε}
    (h : l.foldlM (fun s i => do let x ← f i (s i); return Function.update s i x) s = .error e) :
    ∃ i ∈ l, f i (s i) = .error e := by
  induction l generalizing s with
  | nil => cases h
  | cons j l ih =>
    have hnodup := nodup_cons.mp hl
    rw [foldlM_cons] at h
    cases hj : f j (s j) with
    | error e' =>
      rw [hj] at h
      cases h
      exact ⟨j, mem_cons_self, hj⟩
    | ok x =>
      rw [hj] at h
      obtain ⟨i, hi, herr⟩ := ih hnodup.2 _ h
      have hne : i ≠ j := fun heq => hnodup.1 (heq ▸ hi)
      rw [Function.update_of_ne hne] at herr
      exact ⟨i, mem_cons_of_mem _ hi, herr⟩

variable {adding : Bool} {aggrKinds : Fin n → AggrKind}

theorem updateRow_ok_iff (last : Option (AggrRow n)) (row : AggrRow n) (s s' : AggrState n) :
    updateRow adding aggrKinds last row s = .ok s' ↔
      ∀ i, updateCell adding (aggrKinds i) (last.map (·.values i)) (row.values i)
        row.repeatCount (s i) = .ok (s' i) := by
  refine (foldlM_update_ok (fun i => updateCell adding (aggrKinds i) (last.map (·.values i))
    (row.values i) row.repeatCount) (nodup_finRange n) s s').trans ?_
  exact ⟨fun h i => h.1 i (mem_finRange i),
    fun h => ⟨fun i _ => h i, fun i hi => absurd (mem_finRange i) hi⟩⟩

theorem updateRow_error {last : Option (AggrRow n)} {row : AggrRow n} {s : AggrState n}
    {e : Interruption} (h : updateRow adding aggrKinds last row s = .error e) :
    ∃ i, updateCell adding (aggrKinds i) (last.map (·.values i)) (row.values i)
      row.repeatCount (s i) = .error e := by
  obtain ⟨i, -, hi⟩ := foldlM_update_error (fun i => updateCell adding (aggrKinds i)
    (last.map fun r : AggrRow n => r.values i) (row.values i) row.repeatCount)
    (nodup_finRange n) s h
  exact ⟨i, hi⟩

theorem updateState_ok_iff (last : Option (AggrRow n)) (rows : List (AggrRow n))
    (s s' : AggrState n) : updateState adding aggrKinds last rows s = .ok s' ↔
      ∀ i, passColumn adding (aggrKinds i) (last.map (·.values i)) (column rows i) (s i) =
        .ok (s' i) := by
  induction rows generalizing last s with
  | nil =>
    simp only [updateState, column, map_nil, passColumn, Except.ok.injEq]
    exact ⟨fun h i => congrFun h i, fun h => funext h⟩
  | cons row rows ih =>
    simp only [updateState]
    cases hr : updateRow adding aggrKinds last row s with
    | error e =>
      obtain ⟨i, hi⟩ := updateRow_error hr
      simp only [bind, Except.bind, reduceCtorEq, false_iff, not_forall]
      refine ⟨i, ?_⟩
      simp only [column, map_cons, passColumn, hi, bind, Except.bind, reduceCtorEq,
        not_false_eq_true]
    | ok t =>
      have ht := (updateRow_ok_iff last row s t).mp hr
      simp only [bind, Except.bind, ih]
      refine forall_congr' fun i => ?_
      simp only [column, map_cons, passColumn, ht i, bind, Except.bind, Option.map_some]

theorem updateState_error {last : Option (AggrRow n)} {rows : List (AggrRow n)}
    {s : AggrState n} {e : Interruption} (h : updateState adding aggrKinds last rows s = .error e) :
    ∃ i, passColumn adding (aggrKinds i) (last.map (·.values i)) (column rows i) (s i) =
      .error e := by
  induction rows generalizing last s with
  | nil => cases h
  | cons row rows ih =>
    simp only [updateState] at h
    cases hr : updateRow adding aggrKinds last row s with
    | error e' =>
      rw [hr] at h
      cases h
      obtain ⟨i, hi⟩ := updateRow_error hr
      exact ⟨i, by simp only [column, map_cons, passColumn, hi, bind, Except.bind]⟩
    | ok t =>
      rw [hr] at h
      have ht := (updateRow_ok_iff last row s t).mp hr
      obtain ⟨i, hi⟩ := ih h
      refine ⟨i, ?_⟩
      simpa only [column, map_cons, passColumn, ht i, bind, Except.bind,
        Option.map_some] using hi

end Passes

def hasValue (l : Column) : Bool := l.any (·.1.isSome)

def values (l : Column) : List CValue := l.filterMap Prod.fst

/-- Whether the row before has the same integer, when it has no text. -/
def repeats (last : Option (Option CValue)) (v : CValue) : Bool :=
  match last with
  | none => false
  | some lrow => lrow.bind CValue.getInt = v.getInt

def amount (kind : AggrKind) (last : Option (Option CValue)) (v : Option CValue) (r : ℕ) :
    BitVec 64 :=
  match kind, v with
  | .sum distinct, some (.int n) =>
    if distinct && repeats last (.int n) then 0 else n * BitVec.ofNat 64 r
  | .count distinct, some x => if distinct && repeats last x then 0 else BitVec.ofNat 64 r
  | _, _ => 0

def total (kind : AggrKind) : Option (Option CValue) → Column → BitVec 64
  | _, [] => 0
  | last, (v, r) :: l => amount kind last v r + total kind (some v) l

/-- A DISTINCT count compares the row before as an integer, and so fails after a text. -/
def clashes (kind : AggrKind) (last : Option (Option CValue)) (v : Option CValue) : Bool :=
  match kind, last, v with
  | .count true, some (some (.string _)), some _ => true
  | _, _, _ => false

def noClash (kind : AggrKind) : Option (Option CValue) → Column → Bool
  | _, [] => true
  | last, (v, _) :: l => !clashes kind last v && noClash kind (some v) l

def wellTyped (kind : AggrKind) (l : Column) : Prop :=
  ∀ distinct, kind = .sum distinct → ∀ p ∈ l, ∀ s, p.1 ≠ some (.string s)

def startValue (kind : AggrKind) : Option CValue :=
  match kind with
  | .count _ => some (.int 0)
  | _ => none

def columnValue (kind : AggrKind) (l : Column) : Option CValue :=
  match kind with
  | .noop => l.getLast?.bind Prod.fst
  | .sum _ => if hasValue l then some (.int (total kind none l)) else none
  | .count _ => some (.int (total kind none l))
  | .min => (values l).min?
  | .max => (values l).max?

section Tallies

variable {adding : Bool} {last : Option (Option CValue)} {s : Option CValue} {d : Bool}

def signed (adding : Bool) (m x : BitVec 64) : BitVec 64 := if adding then m + x else m - x

theorem signed_signed (m x y : BitVec 64) :
    signed adding (signed adding m x) y = signed adding m (x + y) := by
  cases adding with
  | false => simp only [signed, Bool.false_eq_true, if_false]; ring
  | true => simp only [signed, if_true]; ring

@[simp] theorem signed_zero (m : BitVec 64) : signed adding m 0#64 = m := by
  cases adding <;> simp [signed]

theorem repeatsLast_eq {v : CValue} (h : clashes (.count d) last (some v) = false) :
    repeatsLast d last (some v) = .ok (d && repeats last v) := by
  cases d with
  | false => rfl
  | true =>
    match last with
    | none => rfl
    | some none => rfl
    | some (some (.int m)) => rfl
    | some (some (.string t)) => cases h

theorem updateCell_count {m : BitVec 64} {v : Option CValue} {r : ℕ}
    (h : clashes (.count d) last v = false) :
    updateCell adding (.count d) last v r (some (.int m)) =
      .ok (some (.int (signed adding m (amount (.count d) last v r)))) := by
  cases v with
  | none =>
    cases d <;> cases last <;> simp [updateCell, repeatsLast, amount, bind, Except.bind,
      pure, Except.pure]
  | some x =>
    simp only [updateCell, repeatsLast_eq h, bind, Except.bind]
    cases hskip : d && repeats last x with
    | true => simp [amount, hskip, pure, Except.pure]
    | false => simp [amount, hskip, combine, signed, pure, Except.pure]

variable {l : Column}

theorem passColumn_count {m : BitVec 64} (h : noClash (.count d) last l = true) :
    passColumn adding (.count d) last l (some (.int m)) =
      .ok (some (.int (signed adding m (total (.count d) last l)))) := by
  induction l generalizing last m with
  | nil => simp [passColumn, total]
  | cons p l ih =>
    obtain ⟨v, r⟩ := p
    simp only [noClash, Bool.and_eq_true, Bool.not_eq_true'] at h
    simp only [passColumn, updateCell_count h.1, bind, Except.bind, ih h.2, total, signed_signed]

theorem passColumn_count_clash {m : BitVec 64}
    (h : noClash (.count d) last l = false) :
    passColumn adding (.count d) last l (some (.int m)) = .error
    (.violation "Expected an int") := by
  induction l generalizing last m with
  | nil => cases h
  | cons p l ih =>
    obtain ⟨v, r⟩ := p
    cases hc : clashes (.count d) last v with
    | false =>
      simp only [noClash, hc, Bool.not_false, Bool.true_and] at h
      simp only [passColumn, updateCell_count hc, bind, Except.bind, ih h]
    | true =>
      match d, last, v with
      | true, some (some (.string t)), some x =>
        simp [passColumn, updateCell, repeatsLast, rowGetInt, bind, Except.bind]

def tally (s : Option CValue) : BitVec 64 :=
  match s with
  | some (.int m) => m
  | _ => 0

theorem total_of_not_hasValue {kind : AggrKind} (h : hasValue l = false) :
    total kind last l = 0 := by
  induction l generalizing last with
  | nil => rfl
  | cons p l ih =>
    obtain ⟨v, r⟩ := p
    simp only [hasValue, any_cons, Bool.or_eq_false_iff] at h
    have hv : v = none := by simpa using h.1
    subst hv
    have hamount : amount kind last none r = 0 := by
      cases kind <;> rfl
    rw [total, hamount, ih h.2]
    rfl

theorem updateCell_sum {n : BitVec 64} {r : ℕ} (hl : ∀ t, last ≠ some (some (.string t)))
    (hs : s = none ∨ ∃ m, s = some (.int m)) :
    updateCell adding (.sum d) last (some (.int n)) r s = .ok (if d && repeats last (.int n) then s
      else some (.int (signed adding (tally s) (amount (.sum d) last (some (.int n)) r)))) := by
  have hclash : clashes (.count d) last (some (.int n)) = false := by
    match d, last with
    | false, _ => rfl
    | true, none => rfl
    | true, some none => rfl
    | true, some (some (.int m)) => rfl
    | true, some (some (.string t)) => exact absurd rfl (hl t)
  simp only [updateCell, repeatsLast_eq hclash, bind, Except.bind]
  cases hskip : d && repeats last (.int n) with
  | true => simp [pure, Except.pure]
  | false =>
    rcases hs with rfl | ⟨m, rfl⟩
    · simp [amount, hskip, combine, signed, tally, pure, Except.pure]
    · simp [amount, hskip, combine, signed, tally, pure, Except.pure]

theorem passColumn_sum (hs : s = none ∨ ∃ m, s = some (.int m))
    (hlast : ∀ x, last = some (some x) → s ≠ none)
    (ht : ∀ p ∈ l, ∀ t, p.1 ≠ some (.string t)) (hl : ∀ t, last ≠ some (some (.string t))) :
    passColumn adding (.sum d) last l s = .ok (if hasValue l then
      some (.int (signed adding (tally s) (total (.sum d) last l))) else s) := by
  induction l generalizing last s with
  | nil => simp [passColumn, hasValue]
  | cons p l ih =>
    obtain ⟨v, r⟩ := p
    have hrest : ∀ p ∈ l, ∀ t, p.1 ≠ some (.string t) := fun p hp => ht p (mem_cons_of_mem _ hp)
    have hv := ht (v, r) mem_cons_self
    match v with
    | none =>
      have hcell : updateCell adding (.sum d) last none r s = .ok s := by
        cases d <;> cases last <;> rfl
      have hany : hasValue ((none, r) :: l) = hasValue l := by
        simp [hasValue]
      have htotal : total (.sum d) last ((none, r) :: l) = total (.sum d) (some none) l := by
        simp [total, amount]
      have hnext := @ih (some none) s hs (by simp) hrest (by simp)
      simp only [passColumn, hcell, bind, Except.bind, hnext, hany, htotal]
    | some (.string t) => exact absurd rfl (hv t)
    | some (.int n) =>
      have hany : hasValue ((some (.int n), r) :: l) = true := by
        simp [hasValue]
      simp only [passColumn, updateCell_sum hl hs, bind, Except.bind, hany, if_true, total]
      cases hskip : d && repeats last (.int n) with
      | true =>
        have hsome : s ≠ none := by
          match last with
          | none => simp [repeats] at hskip
          | some none => simp [repeats, CValue.getInt] at hskip
          | some (some x) => exact hlast x rfl
        obtain ⟨m, rfl⟩ := hs.resolve_left hsome
        have hamount : amount (.sum d) last (some (.int n)) r = 0 := by
          simp [amount, hskip]
        have hnext := @ih (some (some (.int n))) (some (.int m)) hs (by simp) hrest (by simp)
        simp only [if_true, hnext, hamount, zero_add]
        cases hvalue : hasValue l with
        | true => simp
        | false => simp [total_of_not_hasValue hvalue, tally]
      | false =>
        have hnext := @ih (some (some (.int n)))
          (some (.int (signed adding (tally s) (amount (.sum d) last (some (.int n)) r))))
          (Or.inr ⟨_, rfl⟩) (by simp) hrest (by simp)
        simp only [Bool.false_eq_true, if_false, hnext]
        cases hvalue : hasValue l with
        | true => simp [tally, signed_signed]
        | false => simp [total_of_not_hasValue hvalue]

end Tallies
section Extrema

variable {α : Type} [LinearOrder α]

theorem min?_congr {l l' : List α} (h : ∀ x, x ∈ l ↔ x ∈ l') : l.min? = l'.min? := by
  cases hm : l'.min? with
  | none =>
    have hnil : l' = [] := List.min?_eq_none_iff.mp hm
    subst hnil
    refine List.min?_eq_none_iff.mpr (eq_nil_iff_forall_not_mem.mpr ?_)
    intro x hx
    cases (h x).mp hx
  | some m =>
    have hleast := List.min?_eq_some_iff.mp hm
    exact List.min?_eq_some_iff.mpr ⟨(h m).mpr hleast.1, fun x hx => hleast.2 x ((h x).mp hx)⟩

theorem foldl_merge_min (l : List α) (s : Option α) :
    l.foldl (fun s x => s.merge min (some x)) s = (s.toList ++ l).min? := by
  induction l generalizing s with
  | nil => cases s <;> rfl
  | cons x l ih =>
    rw [foldl_cons, ih]
    cases s with
    | none => rfl
    | some a =>
      simp only [Option.merge, Option.toList_some, cons_append, nil_append]
      rw [List.min?_cons', List.min?_cons', foldl_cons]

theorem toList_min?_append (l l' : List α) : (l.min?.toList ++ l').min? = (l ++ l').min? := by
  cases hm : l.min? with
  | none =>
    rw [List.min?_eq_none_iff.mp hm]
    rfl
  | some m =>
    have hleast := List.min?_eq_some_iff.mp hm
    cases hr : (l ++ l').min? with
    | none =>
      have hnil := append_eq_nil_iff.mp (List.min?_eq_none_iff.mp hr)
      rw [hnil.1] at hm
      cases hm
    | some r =>
      have hleast' := List.min?_eq_some_iff.mp hr
      refine List.min?_eq_some_iff.mpr ⟨?_, ?_⟩
      · rcases mem_append.mp hleast'.1 with hin | hin
        · have heq : r = m := le_antisymm (hleast'.2 m (mem_append_left _ hleast.1))
            (hleast.2 r hin)
          simp [heq]
        · exact mem_append_right _ hin
      · intro b hb
        rcases mem_append.mp hb with hin | hin
        · have heq : b = m := by simpa using hin
          rw [heq]
          exact hleast'.2 m (mem_append_left _ hleast.1)
        · exact hleast'.2 b (mem_append_right _ hin)

theorem min?_replace {vp vo vq : List α} (h : ∀ x ∈ vo, (vp ++ vo ++ vq).min? ≠ some x)
    (vn : List α) : ((vp ++ vo ++ vq).min?.toList ++ vn).min? = (vp ++ vn ++ vq).min? := by
  have hkept : (vp ++ vo ++ vq).min? = (vp ++ vq).min? := by
    cases hm : (vp ++ vo ++ vq).min? with
    | none =>
      have hnil := List.min?_eq_none_iff.mp hm
      simp only [append_eq_nil_iff] at hnil
      rw [hnil.1.1, hnil.2]
      rfl
    | some m =>
      have hleast := List.min?_eq_some_iff.mp hm
      have hnot : m ∉ vo := fun hin => h m hin hm
      refine (List.min?_eq_some_iff.mpr ⟨?_, ?_⟩).symm
      · have hin := hleast.1
        simp only [mem_append] at hin ⊢
        rcases hin with (hin | hin) | hin
        · exact Or.inl hin
        · exact absurd hin hnot
        · exact Or.inr hin
      · intro x hx
        apply hleast.2
        simp only [mem_append] at hx ⊢
        rcases hx with hx | hx
        · exact Or.inl (Or.inl hx)
        · exact Or.inr hx
  rw [hkept, toList_min?_append]
  apply min?_congr
  intro x
  simp only [mem_append]
  exact or_right_comm

end Extrema

section ExtremumPasses

variable {kind : AggrKind} {last : Option (Option CValue)}

theorem passColumn_adding (pick : CValue → CValue → CValue)
    (hcell : ∀ last x r s, updateCell true kind last (some x) r s = .ok (s.merge pick (some x)))
    (hnull : ∀ last r s, updateCell true kind last none r s = .ok s) (l : Column)
    (s : Option CValue) : passColumn true kind last l s =
      .ok ((values l).foldl (fun s x => s.merge pick (some x)) s) := by
  induction l generalizing last s with
  | nil => rfl
  | cons p l ih =>
    obtain ⟨v, r⟩ := p
    cases v with
    | none => simp only [passColumn, hnull, bind, Except.bind, ih, values, filterMap_cons]
    | some x =>
      simp only [passColumn, hcell, bind, Except.bind, ih, values, filterMap_cons,
        foldl_cons]

theorem passColumn_removing {keeps : Option CValue → CValue → Bool} {s : Option CValue}
    (hkeep : ∀ last x r, keeps s x = true → updateCell false kind last (some x) r s = .ok s)
    (hreset : ∀ last x r, keeps s x = false →
      updateCell false kind last (some x) r s = .error .reset)
    (hnull : ∀ last r, updateCell false kind last none r s = .ok s) (l : Column) :
    ((∀ x ∈ values l, keeps s x = true) → passColumn false kind last l s = .ok s) ∧
      ((∃ x ∈ values l, keeps s x = false) → passColumn false kind last l s = .error .reset) := by
  induction l generalizing last with
  | nil => simp [passColumn, values]
  | cons p l ih =>
    obtain ⟨v, r⟩ := p
    cases v with
    | none =>
      have hvalues : values ((none, r) :: l) = values l := rfl
      simp only [passColumn, hnull, bind, Except.bind, hvalues]
      exact ih
    | some x =>
      have hvalues : values ((some x, r) :: l) = x :: values l := rfl
      simp only [passColumn, hvalues, forall_mem_cons, exists_mem_cons_iff]
      cases hx : keeps s x with
      | true =>
        simp only [hkeep last x r hx, bind, Except.bind, true_and, Bool.true_eq_false, false_or]
        exact ih
      | false =>
        simp only [hreset last x r hx, bind, Except.bind, Bool.false_eq_true, false_and,
          false_implies, implies_true, and_self]

variable (l : Column)

variable (s : Option CValue)

theorem passColumn_min_adding :
    passColumn true .min last l s = .ok (s.toList ++ values l).min? := by
  rw [passColumn_adding min ?_ (fun _ _ _ => rfl), foldl_merge_min]
  intro last x r s
  cases s with
  | none => simp [updateCell, below, Option.merge]
  | some a =>
    by_cases hlt : a < x
    · simp [updateCell, below, Option.merge, hlt, min_eq_left hlt.le]
    · simp [updateCell, below, Option.merge, hlt, min_eq_right (not_lt.mp hlt)]

theorem passColumn_max_adding :
    passColumn true .max last l s = .ok (s.toList ++ values l).max? := by
  rw [passColumn_adding max ?_ (fun _ _ _ => rfl)]
  · exact congrArg Except.ok (foldl_merge_min (α := CValueᵒᵈ) (values l) s)
  · intro last x r s
    cases s with
    | none => simp [updateCell, above, Option.merge]
    | some a =>
      by_cases hlt : x < a
      · simp [updateCell, above, Option.merge, hlt, max_eq_left hlt.le]
      · simp [updateCell, above, Option.merge, hlt, max_eq_right (not_lt.mp hlt)]

theorem passColumn_min_removing :
    ((∀ x ∈ values l, below s x = true) → passColumn false .min last l s = .ok s) ∧
      ((∃ x ∈ values l, below s x = false) → passColumn false .min last l s = .error .reset) := by
  apply passColumn_removing
  · intro last x r h
    simp [updateCell, h]
  · intro last x r h
    simp [updateCell, h]
  · intro last r
    rfl

theorem passColumn_max_removing :
    ((∀ x ∈ values l, above s x = true) → passColumn false .max last l s = .ok s) ∧
      ((∃ x ∈ values l, above s x = false) → passColumn false .max last l s = .error .reset) := by
  apply passColumn_removing
  · intro last x r h
    simp [updateCell, h]
  · intro last x r h
    simp [updateCell, h]
  · intro last r
    rfl

theorem passColumn_noop (adding : Bool) (l : Column) (s : Option CValue) :
    passColumn adding .noop last l s = .ok (match l.getLast? with
      | none => s
      | some p => p.1) := by
  induction l generalizing last s with
  | nil => rfl
  | cons p l ih =>
    obtain ⟨v, r⟩ := p
    simp only [passColumn, updateCell, bind, Except.bind, ih]
    cases l with
    | nil => rfl
    | cons q l =>
      rw [List.getLast?_cons_cons]
      cases h : (q :: l).getLast? with
      | none => simp at h
      | some p => rfl

end ExtremumPasses
end Aggregates
end SkipPlatform
