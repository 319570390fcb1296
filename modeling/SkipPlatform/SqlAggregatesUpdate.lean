import SkipPlatform.SqlAggregatesColumns

set_option autoImplicit false

/-! When an aggregate that is brought up to date is the one that would be computed anew. -/
namespace SkipPlatform
open List
namespace Aggregates

section Column

variable {kind : AggrKind} {last : Option (Option CValue)}

/-- What a row after `l` finds as the row before. -/
def lastOf (last : Option (Option CValue)) (l : Column) : Option (Option CValue) :=
  match l.getLast? with
  | none => last
  | some p => some p.1

/-- What the first row of `l'` does not add to a DISTINCT aggregate when it comes after `l`. -/
def overlap (kind : AggrKind) (l l' : Column) : BitVec 64 :=
  match l' with
  | [] => 0
  | (v, r) :: _ => amount kind none v r - amount kind (lastOf none l) v r

theorem lastOf_cons (p : Option CValue × ℕ) (l : Column) :
    lastOf last (p :: l) = lastOf (some p.1) l := by
  cases l with
  | nil => rfl
  | cons q l =>
    simp only [lastOf, List.getLast?_cons_cons]
    cases h : (q :: l).getLast? with
    | none => simp at h
    | some p => rfl

variable (l l' : Column)

theorem total_append :
    total kind last (l ++ l') = total kind last l + total kind (lastOf last l) l' := by
  induction l generalizing last with
  | nil => simp [total, lastOf]
  | cons p l ih =>
    rw [cons_append, total, ih, total, lastOf_cons, add_assoc]

theorem total_none_append :
    total kind none (l ++ l') = total kind none l + total kind none l' - overlap kind l l' := by
  rw [total_append]
  cases l' with
  | nil => simp [total, overlap]
  | cons p l' =>
    obtain ⟨v, r⟩ := p
    simp only [total, overlap]
    ring

theorem noClash_append :
    noClash kind last (l ++ l') = (noClash kind last l && noClash kind (lastOf last l) l') := by
  induction l generalizing last with
  | nil => simp [noClash, lastOf]
  | cons p l ih => rw [cons_append, noClash, ih, noClash, lastOf_cons, Bool.and_assoc]

theorem noClash_none (l : Column) (h : noClash kind last l = true) : noClash kind none l = true := by
  cases l with
  | nil => rfl
  | cons p l =>
    obtain ⟨v, r⟩ := p
    simp only [noClash, Bool.and_eq_true] at h
    have hnone : clashes kind none v = false := by
      cases kind with
      | count d => cases d <;> rfl
      | _ => rfl
    simp only [noClash, hnone, h.2, Bool.not_false, Bool.and_self]

variable {p o q : Column}

theorem noClash_middle (h : noClash kind none (p ++ o ++ q) = true) :
    noClash kind none o = true := by
  simp only [noClash_append, Bool.and_eq_true] at h
  exact noClash_none o h.1.2

theorem hasValue_append : hasValue (l ++ l') = (hasValue l || hasValue l') := by
  simp [hasValue]

theorem values_append : values (l ++ l') = values l ++ values l' := by
  simp [values]

def takesExtremum (kind : AggrKind) (p o q : Column) : Prop :=
  match kind with
  | .min => ∃ x ∈ values o, (values (p ++ o ++ q)).min? = some x
  | .max => ∃ x ∈ values o, (values (p ++ o ++ q)).max? = some x
  | _ => False

/-- The value once `o` is taken back and `m` is added. -/
def keptValue (kind : AggrKind) (p o m q : Column) : Option CValue :=
  match kind with
  | .noop => (p ++ o ++ q ++ o ++ m).getLast?.bind Prod.fst
  | .sum _ =>
    if hasValue (p ++ o ++ q) || hasValue m then
      some (.int (total kind none (p ++ o ++ q) - total kind none o + total kind none m))
    else none
  | .count _ => some (.int (total kind none (p ++ o ++ q) - total kind none o + total kind none m))
  | .min => ((values (p ++ o ++ q)).min?.toList ++ values m).min?
  | .max => ((values (p ++ o ++ q)).max?.toList ++ values m).max?

/-- A SUM keeps a value if it had one, the rows that are replaced repeat as much of their
neighbours in a DISTINCT aggregate as those in their place, and a plain column ends with the
row that was written last. -/
def columnAgrees (kind : AggrKind) (p o m q : Column) : Prop :=
  match kind with
  | .noop => (p ++ o ++ q ++ o ++ m).getLast?.bind Prod.fst = (p ++ m ++ q).getLast?.bind Prod.fst
  | .sum _ => (hasValue (p ++ o ++ q) = true → hasValue (p ++ m ++ q) = true) ∧
    overlap kind p o + overlap kind (p ++ o) q = overlap kind p m + overlap kind (p ++ m) q
  | .count _ => overlap kind p o + overlap kind (p ++ o) q =
    overlap kind p m + overlap kind (p ++ m) q
  | .min => True
  | .max => True

theorem overlap_of_not_hasValue {l l' : Column} (h : hasValue l' = false) :
    overlap kind l l' = 0 := by
  cases l' with
  | nil => rfl
  | cons p l' =>
    obtain ⟨v, r⟩ := p
    simp only [hasValue, any_cons, Bool.or_eq_false_iff] at h
    have hv : v = none := by simpa using h.1
    subst hv
    have hamount : ∀ last, amount kind last none r = 0 := by
      intro last
      cases kind <;> rfl
    simp [overlap, hamount]

theorem total_replace_iff (p o m q : Column) :
    total kind none (p ++ o ++ q) - total kind none o + total kind none m =
        total kind none (p ++ m ++ q) ↔
      overlap kind p o + overlap kind (p ++ o) q = overlap kind p m + overlap kind (p ++ m) q := by
  simp only [total_none_append]
  constructor
  · intro h
    linear_combination -h
  · intro h
    linear_combination -h

theorem keptValue_eq_iff {p o m q : Column} (hext : ¬takesExtremum kind p o q) :
    keptValue kind p o m q = columnValue kind (p ++ m ++ q) ↔ columnAgrees kind p o m q := by
  cases kind with
  | noop => exact Iff.rfl
  | count d =>
    simp only [keptValue, columnValue, columnAgrees, Option.some.injEq, CValue.int.injEq]
    exact total_replace_iff p o m q
  | sum d =>
    simp only [keptValue, columnValue, columnAgrees]
    cases hafter : hasValue (p ++ m ++ q) with
    | true =>
      have hbefore : (hasValue (p ++ o ++ q) || hasValue m) = true := by
        simp only [hasValue_append, Bool.or_eq_true] at hafter ⊢
        rcases hafter with (h | h) | h
        · exact Or.inl (Or.inl (Or.inl h))
        · exact Or.inr h
        · exact Or.inl (Or.inr h)
      simp only [hbefore, if_true, Option.some.injEq, CValue.int.injEq, implies_true, true_and]
      exact total_replace_iff p o m q
    | false =>
      have hnone : hasValue p = false ∧ hasValue m = false ∧ hasValue q = false := by
        simp only [hasValue_append, Bool.or_eq_false_iff] at hafter
        exact ⟨hafter.1.1, hafter.1.2, hafter.2⟩
      cases hbefore : hasValue (p ++ o ++ q) with
      | true => simp
      | false =>
        have ho : hasValue o = false := by
          simp only [hasValue_append, Bool.or_eq_false_iff] at hbefore
          exact hbefore.1.2
        simp [hnone.2.1, overlap_of_not_hasValue ho, overlap_of_not_hasValue hnone.2.1,
          overlap_of_not_hasValue hnone.2.2]
  | min =>
    simp only [keptValue, columnValue, columnAgrees, iff_true, values_append]
    apply min?_replace
    intro x hx heq
    exact hext ⟨x, hx, by simpa only [values_append] using heq⟩
  | max =>
    simp only [keptValue, columnValue, columnAgrees, iff_true, values_append]
    have hnot : ∀ x ∈ values o, (values p ++ values o ++ values q).max? ≠ some x := by
      intro x hx heq
      exact hext ⟨x, hx, by simpa only [values_append] using heq⟩
    exact min?_replace (α := CValueᵒᵈ) hnot (values m)

theorem wellTyped_sum {d : Bool} {l : Column} (h : wellTyped (.sum d) l) :
    ∀ p ∈ l, ∀ s, p.1 ≠ some (.string s) :=
  h d rfl

theorem passColumn_start {l : Column} (ht : wellTyped kind l) (hc : noClash kind none l = true) :
    passColumn true kind none l (startValue kind) = .ok (columnValue kind l) := by
  cases kind with
  | noop =>
    simp only [startValue, columnValue, passColumn_noop]
    cases l.getLast? <;> rfl
  | sum d =>
    have hstart : startValue (.sum d) = none := rfl
    rw [hstart, passColumn_sum (Or.inl rfl) (by simp) (wellTyped_sum ht) (by simp)]
    simp [columnValue, tally, signed]
  | count d =>
    rw [startValue, passColumn_count hc]
    simp [columnValue, signed]
  | min => simp only [startValue, columnValue, passColumn_min_adding, Option.toList_none, nil_append]
  | max => simp only [startValue, columnValue, passColumn_max_adding, Option.toList_none, nil_append]

theorem passColumn_clash {l : Column} (hc : noClash kind none l = false) {s : Option CValue}
    (hs : ∀ d, kind = .count d → ∃ m, s = some (.int m)) :
    passColumn true kind none l s = .error (.violation "Expected an int") := by
  have hno : ∀ k last (l : Column), (∀ d, k ≠ AggrKind.count d) → noClash k last l = true := by
    intro k last l hk
    induction l generalizing last with
    | nil => rfl
    | cons p l ih =>
      have hclash : clashes k last p.1 = false := by
        cases k with
        | count d => exact absurd rfl (hk d)
        | _ => rfl
      simp only [noClash, hclash, ih, Bool.not_false, Bool.and_self]
  by_cases hk : ∃ d, kind = .count d
  · obtain ⟨d, rfl⟩ := hk
    obtain ⟨m, rfl⟩ := hs d rfl
    exact passColumn_count_clash hc
  · rw [hno kind none l fun d hd => hk ⟨d, hd⟩] at hc
    cases hc

theorem below_min {l : List CValue} {x : CValue} (hx : x ∈ l) :
    below l.min? x = true ↔ l.min? ≠ some x := by
  cases hm : l.min? with
  | none =>
    rw [List.min?_eq_none_iff.mp hm] at hx
    cases hx
  | some m =>
    have hle := (List.min?_eq_some_iff.mp hm).2 x hx
    simp only [below, decide_eq_true_eq, ne_eq, Option.some.injEq]
    exact ⟨fun h => h.ne, fun h => lt_of_le_of_ne hle h⟩

theorem above_max {l : List CValue} {x : CValue} (hx : x ∈ l) :
    above l.max? x = true ↔ l.max? ≠ some x := by
  cases hm : l.max? with
  | none =>
    rw [List.max?_eq_none_iff.mp hm] at hx
    cases hx
  | some m =>
    have hle := (List.max?_eq_some_iff.mp hm).2 x hx
    simp only [above, decide_eq_true_eq, ne_eq, Option.some.injEq]
    exact ⟨fun h => h.ne', fun h => lt_of_le_of_ne hle fun heq => h heq.symm⟩

theorem mem_values_middle {x : CValue} (hx : x ∈ values o) :
    x ∈ values (p ++ o ++ q) := by
  simp only [values_append, mem_append]
  exact Or.inl (Or.inr hx)

theorem passColumn_extremum (h : takesExtremum kind p o q) :
    passColumn false kind none o (columnValue kind (p ++ o ++ q)) = .error .reset := by
  cases kind with
  | min =>
    obtain ⟨x, hx, heq⟩ := h
    refine (passColumn_min_removing o _).2 ⟨x, hx, ?_⟩
    rw [Bool.eq_false_iff, ne_eq, columnValue, below_min (mem_values_middle hx), not_not]
    exact heq
  | max =>
    obtain ⟨x, hx, heq⟩ := h
    refine (passColumn_max_removing o _).2 ⟨x, hx, ?_⟩
    rw [Bool.eq_false_iff, ne_eq, columnValue, above_max (mem_values_middle hx), not_not]
    exact heq
  | noop => exact h.elim
  | sum d => exact h.elim
  | count d => exact h.elim

theorem passColumn_removed (ht : wellTyped kind (p ++ o ++ q))
    (hc : noClash kind none (p ++ o ++ q) = true) (h : ¬takesExtremum kind p o q) :
    passColumn false kind none o (columnValue kind (p ++ o ++ q)) =
      .ok (keptValue kind p o [] q) := by
  cases kind with
  | noop =>
    simp only [columnValue, keptValue, passColumn_noop, append_nil, List.getLast?_append]
    cases o.getLast? <;> simp
  | sum d =>
    have hto : ∀ r ∈ o, ∀ s, r.1 ≠ some (.string s) := fun r hr =>
      wellTyped_sum ht r (mem_append_left _ (mem_append_right _ hr))
    have hs : columnValue (.sum d) (p ++ o ++ q) = none ∨
        ∃ m, columnValue (.sum d) (p ++ o ++ q) = some (.int m) := by
      simp only [columnValue]
      split_ifs
      · exact Or.inr ⟨_, rfl⟩
      · exact Or.inl rfl
    rw [passColumn_sum hs (by simp) hto (by simp)]
    have hsub : hasValue o = true → hasValue (p ++ o ++ q) = true := by
      intro ho
      simp only [hasValue_append, ho, Bool.or_true, Bool.true_or]
    have hnil : hasValue [] = false := rfl
    simp only [columnValue, keptValue, hnil, Bool.or_false]
    generalize p ++ o ++ q = b at hsub
    cases ho : hasValue o with
    | true => simp [hsub ho, tally, signed, total]
    | false => cases hb : hasValue b <;> simp [total_of_not_hasValue ho, total]
  | count d =>
    rw [columnValue, passColumn_count (noClash_middle hc)]
    simp [keptValue, signed, total]
  | min =>
    refine ((passColumn_min_removing o _).1 fun x hx => ?_).trans ?_
    · rw [columnValue, below_min (mem_values_middle hx)]
      exact fun heq => h ⟨x, hx, heq⟩
    · simp only [columnValue, keptValue, values, filterMap_nil, append_nil]
      cases ((p ++ o ++ q).filterMap Prod.fst).min? <;> rfl
  | max =>
    refine ((passColumn_max_removing o _).1 fun x hx => ?_).trans ?_
    · rw [columnValue, above_max (mem_values_middle hx)]
      exact fun heq => h ⟨x, hx, heq⟩
    · simp only [columnValue, keptValue, values, filterMap_nil, append_nil]
      cases ((p ++ o ++ q).filterMap Prod.fst).max? <;> rfl

theorem passColumn_added {p o m q : Column} (ht : wellTyped kind m)
    (hc : noClash kind none m = true) :
    passColumn true kind none m (keptValue kind p o [] q) = .ok (keptValue kind p o m q) := by
  cases kind with
  | noop =>
    simp only [keptValue, passColumn_noop, append_nil, List.getLast?_append]
    cases m.getLast? <;> simp
  | sum d =>
    have hs : keptValue (.sum d) p o [] q = none ∨
        ∃ x, keptValue (.sum d) p o [] q = some (.int x) := by
      simp only [keptValue]
      split_ifs
      · exact Or.inr ⟨_, rfl⟩
      · exact Or.inl rfl
    rw [passColumn_sum hs (by simp) (wellTyped_sum ht) (by simp)]
    have hnil : hasValue [] = false := rfl
    have hsub : hasValue (p ++ o ++ q) = false → hasValue o = false := by
      intro hb
      simp only [hasValue_append, Bool.or_eq_false_iff] at hb
      exact hb.1.2
    simp only [keptValue, hnil, Bool.or_false]
    generalize p ++ o ++ q = b at hsub
    cases hm : hasValue m with
    | true =>
      cases hb : hasValue b with
      | true => simp [tally, signed, total]
      | false => simp [tally, signed, total_of_not_hasValue hb, total_of_not_hasValue (hsub hb)]
    | false => simp [total_of_not_hasValue hm, total]
  | count d =>
    simp only [keptValue]
    rw [passColumn_count hc]
    simp [signed, total]
  | min =>
    simp only [keptValue, passColumn_min_adding, values, filterMap_nil, append_nil]
    cases ((p ++ o ++ q).filterMap Prod.fst).min? <;> rfl
  | max =>
    simp only [keptValue, passColumn_max_adding, values, filterMap_nil, append_nil]
    cases ((p ++ o ++ q).filterMap Prod.fst).max? <;> rfl

end Column
end Aggregates

open Aggregates

/-- A source of a group replaces its rows, those of the other sources come before and after. A
SUM has no texts, as the compiler sees to. -/
structure AggrChange (n : ℕ) where
  aggrKinds : Fin n → AggrKind
  pre : List (AggrRow n)
  oldRows : List (AggrRow n)
  newRows : List (AggrRow n)
  post : List (AggrRow n)
  typed : ∀ i, wellTyped (aggrKinds i) (column (pre ++ oldRows ++ newRows ++ post) i)

namespace AggrChange

variable {n : ℕ} (c : AggrChange n)

def before : List (AggrRow n) := c.pre ++ c.oldRows ++ c.post

def after : List (AggrRow n) := c.pre ++ c.newRows ++ c.post

def Clean (rows : List (AggrRow n)) : Prop :=
  ∀ i, noClash (c.aggrKinds i) none (column rows i) = true

def TakesExtremum : Prop :=
  ∃ i, takesExtremum (c.aggrKinds i) (column c.pre i) (column c.oldRows i) (column c.post i)

def Agrees : Prop :=
  ∀ i, columnAgrees (c.aggrKinds i) (column c.pre i) (column c.oldRows i) (column c.newRows i)
    (column c.post i)

def left : AggrState n := fun i =>
  keptValue (c.aggrKinds i) (column c.pre i) (column c.oldRows i) [] (column c.post i)

def ZeroLeft (i : Fin n) : Prop := c.aggrKinds i = .noop ∨ c.left i = some (.int 0)

def IntegerLeft : Prop :=
  ∃ i, (∀ j < i, c.ZeroLeft j) ∧ c.aggrKinds i ≠ .noop ∧ ∃ m, m ≠ 0 ∧ c.left i = some (.int m)

/-- The reducer asks for the group to be read again, or has what this would give. -/
def Exact (state : AggrState n) : Prop :=
  reducerUpdate c.aggrKinds state c.oldRows c.newRows = .ok none ∨
    ∃ s, reducerUpdate c.aggrKinds state c.oldRows c.newRows = .ok (some s) ∧
      reducerInit c.aggrKinds c.after = .ok (some s)

theorem column_append (a b : List (AggrRow n)) (i : Fin n) :
    column (a ++ b) i = column a i ++ column b i := by
  simp [column]

theorem wellTyped_of_subset {kind : AggrKind} {l l' : Column} (h : wellTyped kind l')
    (hsub : ∀ p ∈ l, p ∈ l') : wellTyped kind l :=
  fun d hd p hp => h d hd p (hsub p hp)

variable {rows : List (AggrRow n)}

theorem typed_of_subset
    (h : ∀ r ∈ rows, r ∈ c.pre ++ c.oldRows ++ c.newRows ++ c.post) (i : Fin n) :
    wellTyped (c.aggrKinds i) (column rows i) := by
  refine wellTyped_of_subset (c.typed i) ?_
  intro p hp
  obtain ⟨r, hr, rfl⟩ := mem_map.mp hp
  exact mem_map.mpr ⟨r, h r hr, rfl⟩

theorem typed_before (i : Fin n) : wellTyped (c.aggrKinds i) (column c.before i) := by
  apply c.typed_of_subset
  intro r hr
  simp only [before, mem_append] at hr ⊢
  rcases hr with (h | h) | h
  · exact Or.inl (Or.inl (Or.inl h))
  · exact Or.inl (Or.inl (Or.inr h))
  · exact Or.inr h

theorem typed_after (i : Fin n) : wellTyped (c.aggrKinds i) (column c.after i) := by
  apply c.typed_of_subset
  intro r hr
  simp only [after, mem_append] at hr ⊢
  rcases hr with (h | h) | h
  · exact Or.inl (Or.inl (Or.inl h))
  · exact Or.inl (Or.inr h)
  · exact Or.inr h

theorem typed_newRows (i : Fin n) : wellTyped (c.aggrKinds i) (column c.newRows i) := by
  apply c.typed_of_subset
  intro r hr
  simp only [mem_append]
  exact Or.inl (Or.inr hr)

theorem startState_eq (kinds : Fin n → AggrKind) (i : Fin n) :
    startState kinds i = startValue (kinds i) := rfl

theorem reducerInit_ok_iff {s : AggrState n}
    (ht : ∀ i, wellTyped (c.aggrKinds i) (column rows i)) :
    reducerInit c.aggrKinds rows = .ok (some s) ↔
      rows ≠ [] ∧ c.Clean rows ∧ ∀ i, s i = columnValue (c.aggrKinds i) (column rows i) := by
  have hstate : ∀ t, updateState true c.aggrKinds none rows (startState c.aggrKinds) = .ok t ↔
      c.Clean rows ∧ ∀ i, t i = columnValue (c.aggrKinds i) (column rows i) := by
    intro t
    rw [updateState_ok_iff]
    simp only [Option.map_none, startState_eq]
    constructor
    · intro h
      have hclean : c.Clean rows := by
        intro i
        by_contra hno
        have hi := h i
        rw [passColumn_clash (by simpa using hno)] at hi
        · cases hi
        · intro d hd
          rw [hd]
          exact ⟨0, rfl⟩
      refine ⟨hclean, fun i => ?_⟩
      have hi := h i
      rw [passColumn_start (ht i) (hclean i)] at hi
      exact (Except.ok.inj hi).symm
    · intro h i
      rw [passColumn_start (ht i) (h.1 i), h.2 i]
  unfold reducerInit
  cases hu : updateState true c.aggrKinds none rows (startState c.aggrKinds) with
  | error e =>
    simp only [bind, Except.bind, reduceCtorEq, false_iff, not_and]
    intro _ hclean hs
    have hok := (hstate s).mpr ⟨hclean, hs⟩
    rw [hu] at hok
    cases hok
  | ok t =>
    have hvalues := (hstate t).mp hu
    cases rows with
    | nil => simp [bind, Except.bind, pure, Except.pure]
    | cons r rows =>
      simp only [bind, Except.bind, pure, Except.pure, isEmpty_cons, Bool.false_eq_true,
        if_false, Except.ok.injEq, Option.some.injEq, ne_eq, reduceCtorEq, not_false_eq_true,
        true_and, hvalues.1]
      constructor
      · intro h i
        rw [← h]
        exact hvalues.2 i
      · intro h
        funext i
        rw [hvalues.2 i, h i]

theorem updateState_interrupted {adding : Bool} {s : AggrState n}
    {e : Interruption} {i : Fin n}
    (hi : passColumn adding (c.aggrKinds i) none (column rows i) (s i) = .error e)
    (hall : ∀ j e', passColumn adding (c.aggrKinds j) none (column rows j) (s j) = .error e' →
      e' = e) : updateState adding c.aggrKinds none rows s = .error e := by
  cases hu : updateState adding c.aggrKinds none rows s with
  | ok t =>
    have hok := (updateState_ok_iff none rows s t).mp hu i
    simp only [Option.map_none] at hok
    rw [hi] at hok
    cases hok
  | error e' =>
    obtain ⟨j, hj⟩ := updateState_error hu
    rw [hall j e' hj]

section Update

variable {c} {state : AggrState n}

theorem state_before (h : reducerInit c.aggrKinds c.before = .ok (some state)) (i : Fin n) :
    state i = columnValue (c.aggrKinds i)
      (column c.pre i ++ column c.oldRows i ++ column c.post i) := by
  rw [((c.reducerInit_ok_iff c.typed_before).mp h).2.2 i]
  simp only [before, column_append]

theorem clean_before (h : reducerInit c.aggrKinds c.before = .ok (some state)) (i : Fin n) :
    noClash (c.aggrKinds i) none
      (column c.pre i ++ column c.oldRows i ++ column c.post i) = true := by
  have hclean := ((c.reducerInit_ok_iff c.typed_before).mp h).2.1 i
  simpa only [before, column_append] using hclean

theorem removed_column (h : reducerInit c.aggrKinds c.before = .ok (some state)) (i : Fin n)
    (hext : ¬takesExtremum (c.aggrKinds i) (column c.pre i) (column c.oldRows i) (column c.post i)) :
    passColumn false (c.aggrKinds i) none (column c.oldRows i) (state i) = .ok (c.left i) := by
  rw [state_before h i]
  have ht := c.typed_before i
  simp only [before, column_append] at ht
  exact passColumn_removed ht (clean_before h i) hext

theorem reducerUpdate_of_takesExtremum (h : reducerInit c.aggrKinds c.before = .ok (some state))
    (hext : c.TakesExtremum) :
    reducerUpdate c.aggrKinds state c.oldRows c.newRows = .ok none := by
  obtain ⟨i, hi⟩ := hext
  have hreset : updateState false c.aggrKinds none c.oldRows state = .error .reset := by
    refine c.updateState_interrupted (i := i) ?_ ?_
    · rw [state_before h i]
      exact passColumn_extremum hi
    · intro j e hj
      by_cases hext : takesExtremum (c.aggrKinds j) (column c.pre j) (column c.oldRows j)
          (column c.post j)
      · rw [state_before h j, passColumn_extremum hext] at hj
        exact (Except.error.inj hj).symm
      · rw [removed_column h j hext] at hj
        cases hj
  simp only [reducerUpdate, hreset]

theorem reducerUpdate_eq (h : reducerInit c.aggrKinds c.before = .ok (some state))
    (hext : ¬c.TakesExtremum) : reducerUpdate c.aggrKinds state c.oldRows c.newRows = (do
      let s ← updateState true c.aggrKinds none c.newRows c.left
      if c.newRows.isEmpty then
        if ← isPotentiallyEmpty c.aggrKinds s (List.finRange n) then return none
      return some s) := by
  have hremoved : updateState false c.aggrKinds none c.oldRows state = .ok c.left := by
    rw [updateState_ok_iff]
    intro i
    exact removed_column h i fun hi => hext ⟨i, hi⟩
  simp only [reducerUpdate, hremoved]

theorem left_count {i : Fin n} {d : Bool} (hk : c.aggrKinds i = .count d) :
    ∃ m, c.left i = some (.int m) := by
  unfold left
  rw [hk]
  exact ⟨_, rfl⟩

def kept (c : AggrChange n) : AggrState n := fun i =>
  keptValue (c.aggrKinds i) (column c.pre i) (column c.oldRows i) (column c.newRows i)
    (column c.post i)

theorem added (hclean : c.Clean c.newRows) :
    updateState true c.aggrKinds none c.newRows c.left = .ok c.kept := by
  rw [updateState_ok_iff]
  intro i
  exact passColumn_added (c.typed_newRows i) (hclean i)

theorem not_added (hclean : ¬c.Clean c.newRows) :
    updateState true c.aggrKinds none c.newRows c.left =
      .error (.violation "Expected an int") := by
  obtain ⟨i, hi⟩ := not_forall.mp hclean
  refine c.updateState_interrupted (i := i) (passColumn_clash (by simpa using hi) fun d hd =>
    left_count hd) ?_
  intro j e hj
  by_cases hc : noClash (c.aggrKinds j) none (column c.newRows j) = true
  · rw [left, passColumn_added (c.typed_newRows j) hc] at hj
    cases hj
  · rw [passColumn_clash (by simpa using hc) fun d hd => left_count hd] at hj
    exact (Except.error.inj hj).symm

theorem clean_newRows (h : c.Clean c.after) : c.Clean c.newRows := by
  intro i
  have hi := h i
  simp only [after, column_append] at hi
  exact noClash_middle hi

theorem reducerInit_kept_iff (hext : ¬c.TakesExtremum) :
    reducerInit c.aggrKinds c.after = .ok (some c.kept) ↔
      c.after ≠ [] ∧ c.Clean c.after ∧ c.Agrees := by
  rw [c.reducerInit_ok_iff c.typed_after]
  have hvalues : (∀ i, c.kept i = columnValue (c.aggrKinds i) (column c.after i)) ↔ c.Agrees := by
    refine forall_congr' fun i => ?_
    simp only [after, column_append]
    exact keptValue_eq_iff fun hi => hext ⟨i, hi⟩
  rw [hvalues]

theorem isPotentiallyEmpty_true_iff (s : AggrState n) (l : List (Fin n)) :
    isPotentiallyEmpty c.aggrKinds s l = .ok true ↔
      ∀ i ∈ l, c.aggrKinds i = .noop ∨ s i = some (.int 0) := by
  induction l with
  | nil => simp [isPotentiallyEmpty]
  | cons i l ih =>
    rw [forall_mem_cons, ← ih]
    by_cases hk : c.aggrKinds i = .noop
    · simp [isPotentiallyEmpty, hk]
    · simp only [isPotentiallyEmpty, hk, if_false, false_or]
      match s i with
      | none => simp
      | some (.string t) => simp
      | some (.int m) =>
        by_cases hm : m = 0
        · simp [hm]
        · simp only [ne_eq, hm, not_false_eq_true, if_true, Except.ok.injEq, Bool.false_eq_true,
            Option.some.injEq, CValue.int.injEq, false_and]

theorem isPotentiallyEmpty_false_iff (s : AggrState n) (l : List (Fin n)) :
    isPotentiallyEmpty c.aggrKinds s l = .ok false ↔
      ∃ l₁ i l₂, l = l₁ ++ i :: l₂ ∧ (∀ j ∈ l₁, c.aggrKinds j = .noop ∨ s j = some (.int 0)) ∧
        c.aggrKinds i ≠ .noop ∧ ∃ m, m ≠ 0 ∧ s i = some (.int m) := by
  induction l with
  | nil => simp [isPotentiallyEmpty]
  | cons i l ih =>
    by_cases hzero : c.aggrKinds i = .noop ∨ s i = some (.int 0)
    · have hstep : isPotentiallyEmpty c.aggrKinds s (i :: l) =
          isPotentiallyEmpty c.aggrKinds s l := by
        by_cases hk : c.aggrKinds i = .noop
        · simp [isPotentiallyEmpty, hk]
        · simp [isPotentiallyEmpty, hk, hzero.resolve_left hk]
      rw [hstep, ih]
      constructor
      · intro h
        obtain ⟨l₁, j, l₂, rfl, hbefore, hj⟩ := h
        exact ⟨i :: l₁, j, l₂, rfl, forall_mem_cons.mpr ⟨hzero, hbefore⟩, hj⟩
      · intro h
        obtain ⟨l₁, j, l₂, heq, hbefore, hk, m, hm, hj⟩ := h
        cases l₁ with
        | nil =>
          obtain ⟨rfl, rfl⟩ := cons_eq_cons.mp heq
          rcases hzero with hz | hz
          · exact absurd hz hk
          · rw [hj] at hz
            exact absurd (CValue.int.inj (Option.some.inj hz)) hm
        | cons a l₁ =>
          obtain ⟨rfl, rfl⟩ := cons_eq_cons.mp heq
          exact ⟨l₁, j, l₂, rfl, (forall_mem_cons.mp hbefore).2, hk, m, hm, hj⟩
    · have hk : c.aggrKinds i ≠ .noop := fun h => hzero (Or.inl h)
      have hfirst : ∀ l₁ j l₂, i :: l = l₁ ++ j :: l₂ →
          (∀ a ∈ l₁, c.aggrKinds a = .noop ∨ s a = some (.int 0)) → j = i := by
        intro l₁ j l₂ heq hbefore
        cases l₁ with
        | nil => exact (cons_eq_cons.mp heq).1.symm
        | cons a l₁ =>
          have ha := (cons_eq_cons.mp heq).1
          subst ha
          exact absurd ((forall_mem_cons.mp hbefore).1) hzero
      simp only [isPotentiallyEmpty, hk, if_false]
      constructor
      · intro h
        match hs : s i with
        | none => rw [hs] at h; cases h
        | some (.string t) => rw [hs] at h; cases h
        | some (.int m) =>
          have hm : m ≠ 0 := fun hm => hzero (Or.inr (by rw [hs, hm]))
          exact ⟨[], i, l, rfl, by simp, hk, m, hm, hs⟩
      · intro h
        obtain ⟨l₁, j, l₂, heq, hbefore, _, m, hm, hj⟩ := h
        rw [hfirst l₁ j l₂ heq hbefore] at hj
        rw [hj]
        exact if_pos hm

theorem integerLeft_iff : isPotentiallyEmpty c.aggrKinds c.left (List.finRange n) = .ok false ↔
    c.IntegerLeft := by
  rw [isPotentiallyEmpty_false_iff]
  constructor
  · intro h
    obtain ⟨l₁, i, l₂, heq, hbefore, hi⟩ := h
    have hsorted : (l₁ ++ i :: l₂).Pairwise (· < ·) := heq ▸ pairwise_lt_finRange n
    refine ⟨i, ?_, hi⟩
    intro j hj
    have hmem : j ∈ l₁ ++ i :: l₂ := heq ▸ mem_finRange j
    rcases mem_append.mp hmem with hin | hin
    · exact hbefore j hin
    · rcases mem_cons.mp hin with rfl | hin
      · exact absurd hj (lt_irrefl _)
      · have hlt := (pairwise_cons.mp (pairwise_append.mp hsorted).2.1).1 j hin
        exact absurd hj hlt.not_gt
  · intro h
    obtain ⟨i, hbefore, hi⟩ := h
    obtain ⟨l₁, l₂, heq⟩ := append_of_mem (mem_finRange i)
    have hsorted : (l₁ ++ i :: l₂).Pairwise (· < ·) := heq ▸ pairwise_lt_finRange n
    refine ⟨l₁, i, l₂, heq, ?_, hi⟩
    intro j hj
    exact hbefore j ((pairwise_append.mp hsorted).2.2 j hj i mem_cons_self)

/-- The reducer is exact when a removed row has the extremum of a MIN or MAX; otherwise, when
rows are added, exactly if every aggregate agrees and no text of a DISTINCT count comes after
another; and when none are added, exactly if all aggregates are 0 then, or the first that is
not is an integer and they agree. -/
theorem exact_iff (h : reducerInit c.aggrKinds c.before = .ok (some state)) :
    c.Exact state ↔ c.TakesExtremum ∨
      (c.newRows ≠ [] ∧ c.Clean c.after ∧ c.Agrees) ∨
      (c.newRows = [] ∧ ((∀ i, c.ZeroLeft i) ∨
        (c.IntegerLeft ∧ c.after ≠ [] ∧ c.Clean c.after ∧ c.Agrees))) := by
  unfold Exact
  by_cases hext : c.TakesExtremum
  · exact iff_of_true (Or.inl (reducerUpdate_of_takesExtremum h hext)) (Or.inl hext)
  · have hinit := reducerInit_kept_iff hext
    simp only [hext, false_or, reducerUpdate_eq h hext]
    by_cases hnew : c.newRows = []
    · have hclean : c.Clean c.newRows := by
        intro i
        rw [hnew]
        rfl
      have hkept : c.kept = c.left := by
        unfold kept left
        rw [hnew]
        rfl
      have hempty := isPotentiallyEmpty_true_iff (c := c) c.left (List.finRange n)
      have hint := integerLeft_iff (c := c)
      have hall : (∀ i ∈ List.finRange n, c.aggrKinds i = .noop ∨ c.left i = some (.int 0)) ↔
          ∀ i, c.ZeroLeft i :=
        ⟨fun hz i => hz i (mem_finRange i), fun hz i _ => hz i⟩
      rw [hall] at hempty
      rw [added hclean]
      simp only [hnew, isEmpty_nil, if_true, bind, Except.bind, hkept, ne_eq, not_true,
        false_and, false_or, true_and]
      rw [hkept] at hinit
      rw [← hempty, ← hint, ← hinit]
      cases hp : isPotentiallyEmpty c.aggrKinds c.left (List.finRange n) with
      | error e => simp
      | ok b => cases b <;> simp [pure, Except.pure]
    · have hafter : c.after ≠ [] := by
        intro hnil
        simp only [after, append_eq_nil_iff] at hnil
        exact hnew hnil.1.2
      have hisEmpty : c.newRows.isEmpty = false := by simpa using hnew
      simp only [hisEmpty, Bool.false_eq_true, if_false, hnew, false_and, or_false, ne_eq,
        not_false_eq_true, true_and]
      simp only [ne_eq, hafter, not_false_eq_true, true_and] at hinit
      rw [← hinit]
      by_cases hclean : c.Clean c.newRows
      · simp [added hclean, bind, Except.bind, pure, Except.pure]
      · have hno : ¬c.Clean c.after := fun hc => hclean (clean_newRows hc)
        rw [hinit]
        simp [not_added hclean, bind, Except.bind, hno]

end Update

/-- The only row with a value of the SUM is deleted, and a row with NULL remains. -/
def lostSum : AggrChange 2 where
  aggrKinds i := if i = 0 then .sum false else .count false
  pre := [⟨fun i => if i = 0 then none else some (.int 1), 1⟩]
  oldRows := [⟨fun i => if i = 0 then some (.int 5) else some (.int 1), 1⟩]
  newRows := []
  post := []
  typed := by
    intro i d _ p hp s
    simp only [column, append_nil, singleton_append, map_cons, map_nil,
      mem_cons, not_mem_nil, or_false] at hp
    rcases hp with rfl | rfl
    · split_ifs <;> simp
    · split_ifs <;> simp

def lostSumState : AggrState 2 := fun i => if i = 0 then some (.int 5) else some (.int 2)

theorem lostSum_init : reducerInit lostSum.aggrKinds lostSum.before = .ok (some lostSumState) := by
  rw [reducerInit_ok_iff lostSum lostSum.typed_before]
  refine ⟨by simp [before, lostSum], ?_, ?_⟩
  · intro i
    fin_cases i <;> rfl
  · intro i
    fin_cases i <;> rfl

theorem exact_iff_lostSum : reducerInit lostSum.aggrKinds lostSum.before = .ok (some lostSumState) ∧
    (lostSum.Exact lostSumState ↔ lostSum.TakesExtremum ∨
      (lostSum.newRows ≠ [] ∧ lostSum.Clean lostSum.after ∧ lostSum.Agrees) ∨
      (lostSum.newRows = [] ∧ ((∀ i, lostSum.ZeroLeft i) ∨
        (lostSum.IntegerLeft ∧ lostSum.after ≠ [] ∧ lostSum.Clean lostSum.after ∧
          lostSum.Agrees)))) :=
  ⟨lostSum_init, exact_iff lostSum_init⟩

/-- The reducer returns 0 where the group computed anew has NULL. -/
theorem lostSum_not_exact : reducerInit lostSum.aggrKinds lostSum.before = .ok (some lostSumState) ∧
    ¬lostSum.Exact lostSumState := by
  refine ⟨lostSum_init, ?_⟩
  have hext : ¬lostSum.TakesExtremum := by
    rintro ⟨i, hi⟩
    fin_cases i <;> exact hi
  have hkept : reducerUpdate lostSum.aggrKinds lostSumState lostSum.oldRows lostSum.newRows =
      .ok (some lostSum.kept) := by
    rw [reducerUpdate_eq lostSum_init hext, added (by intro i; fin_cases i <;> rfl)]
    rfl
  rintro (h | ⟨s, hs, hinit⟩)
  · rw [hkept] at h
    cases h
  · rw [hkept] at hs
    cases hs
    have hagrees := ((reducerInit_kept_iff hext).mp hinit).2.2 0
    exact absurd (hagrees.1 rfl) (by decide)

end AggrChange
end SkipPlatform
