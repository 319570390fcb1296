import SkipPlatform.SqlMerge
import SkipPlatform.SqlJoinShards

set_option autoImplicit false

/-! What a condition keeps with and without the equality that is taken out of it, and the rows that
two tables are merged to. -/
namespace SkipPlatform
open List

namespace Expr

variable {I V : Type} [DecidableEq V]

variable {env : I → AValue V}

theorem evalCIExpr_ne_aUndefined (henv : ∀ name, env name ≠ .aUndefined)
    (e : Expr I V) : e.evalCIExpr env ≠ .aUndefined := by
  induction e with
  | vInt n => simp [evalCIExpr]
  | eq name1 name2 =>
    have h1 := henv name1
    have h2 := henv name2
    cases he1 : env name1 with
    | aUndefined => exact absurd he1 h1
    | aNull => simp [evalCIExpr, he1, AValue.flatMap]
    | aDef n1 =>
      cases he2 : env name2 with
      | aUndefined => exact absurd he2 h2
      | aNull => simp [evalCIExpr, he1, he2, AValue.flatMap]
      | aDef n2 => simp [evalCIExpr, he1, he2, AValue.flatMap]
  | and e1 e2 ih1 ih2 =>
    simp only [evalCIExpr]
    cases he1 : e1.evalCIExpr env with
    | aUndefined => exact absurd he1 ih1
    | aNull => simp
    | aDef n =>
      simp only
      split_ifs
      · simp
      · cases he2 : e2.evalCIExpr env with
        | aUndefined => exact absurd he2 ih2
        | aNull => simp [AValue.flatMap]
        | aDef n2 => simp [AValue.flatMap]
  | on kind e ih => exact ih
  | other c => exact c.total env henv

theorem kept_and (henv : ∀ name, env name ≠ .aUndefined) (e1 e2 : Expr I V) :
    ((Expr.and e1 e2).evalCIExpr env).kept =
      ((e1.evalCIExpr env).kept && (e2.evalCIExpr env).kept) := by
  simp only [evalCIExpr]
  cases he1 : e1.evalCIExpr env with
  | aUndefined => exact absurd he1 (evalCIExpr_ne_aUndefined henv e1)
  | aNull => rfl
  | aDef n =>
    simp only
    by_cases hn : n = 0
    · subst hn
      rfl
    · rw [if_neg hn]
      cases he2 : e2.evalCIExpr env with
      | aUndefined => exact absurd he2 (evalCIExpr_ne_aUndefined henv e2)
      | aNull => simp [AValue.flatMap, AValue.kept]
      | aDef n2 =>
        by_cases hn2 : n2 = 0
        · simp [AValue.flatMap, AValue.kept, btoi, hn2]
        · simp [AValue.flatMap, AValue.kept, btoi, hn, hn2]

theorem kept_eq (henv : ∀ name, env name ≠ .aUndefined) (name1 name2 : I) :
    ((Expr.eq name1 name2).evalCIExpr env).kept = true ↔
      ∃ v, env name1 = .aDef v ∧ env name2 = .aDef v := by
  simp only [evalCIExpr]
  cases h1 : env name1 with
  | aUndefined => exact absurd h1 (henv name1)
  | aNull => simp [AValue.flatMap, AValue.kept]
  | aDef n1 =>
    cases h2 : env name2 with
    | aUndefined => exact absurd h2 (henv name2)
    | aNull => simp [AValue.flatMap, AValue.kept]
    | aDef n2 =>
      by_cases h : n1 = n2
      · simp [AValue.flatMap, AValue.kept, btoi, h]
      · simp [AValue.flatMap, AValue.kept, btoi, h, Ne.symm h]

omit [DecidableEq V] in
theorem eq_vInt_of_isOne {e : Expr I V} (h : e.isOne = true) : e = .vInt 1 := by
  cases e with
  | vInt n => simpa [isOne] using h
  | eq name1 name2 => cases h
  | and e1 e2 => cases h
  | on kind e => cases h
  | other c => cases h

theorem kept_dropOne (one e conj : Expr I V) (hconj : (conj.evalCIExpr env).kept =
      ((one.evalCIExpr env).kept && (e.evalCIExpr env).kept)) :
    ((if one.isOne then e else conj).evalCIExpr env).kept =
      ((one.evalCIExpr env).kept && (e.evalCIExpr env).kept) := by
  split_ifs with h
  · rw [eq_vInt_of_isOne h]
    simp [evalCIExpr, AValue.kept]
  · exact hconj

end Expr

section FindJoin

variable {I V : Type} {live : ℕ → Bool} {subst : I → Column}

variable {join : EqJoin}

theorem findJoin_and {e1 e1' e2 : Expr I V} {k : JoinKind}
    (h : findJoin live subst e1 = .ok (e1', k, some join)) :
    findJoin live subst (.and e1 e2) =
      .ok (if e1'.isOne then e2 else .and e1' e2, k, some join) := by
  rw [findJoin, h]
  rfl

variable [DecidableEq V]

/-- What the equality that is found and the rest of the condition say together. -/
structure JoinFound (live : ℕ → Bool) (subst : I → Column) (e rest : Expr I V) (join : EqJoin) :
    Prop where
  plain : rest.plain = true
  lt : join.left.tableNbr < join.right.tableNbr
  live_left : live join.left.tableNbr = true
  live_right : live join.right.tableNbr = true
  names : ∃ name1 name2, subst name1 = join.left ∧ subst name2 = join.right ∧
    ∀ env : I → AValue V, (∀ name, env name ≠ .aUndefined) →
      ((e.evalCIExpr env).kept = true ↔ (∃ v, env name1 = .aDef v ∧ env name2 = .aDef v) ∧
        (rest.evalCIExpr env).kept = true)

variable {e rest : Expr I V}

theorem JoinFound.and_left
    (h : JoinFound live subst e rest join) {e2 : Expr I V} (he2 : e2.plain = true) :
    JoinFound live subst (.and e e2) (if rest.isOne then e2 else .and rest e2) join := by
  refine ⟨?_, h.lt, h.live_left, h.live_right, ?_⟩
  · split_ifs
    · exact he2
    · simp [Expr.plain, h.plain, he2]
  · obtain ⟨name1, name2, h1, h2, hkept⟩ := h.names
    refine ⟨name1, name2, h1, h2, fun env henv => ?_⟩
    rw [Expr.kept_dropOne _ _ _ (Expr.kept_and henv rest e2), Expr.kept_and henv,
      Bool.and_eq_true, Bool.and_eq_true, hkept env henv, and_assoc]

theorem JoinFound.and_right
    (h : JoinFound live subst e rest join) {e1 : Expr I V} (he1 : e1.plain = true) :
    JoinFound live subst (.and e1 e) (if rest.isOne then e1 else .and e1 rest) join := by
  refine ⟨?_, h.lt, h.live_left, h.live_right, ?_⟩
  · split_ifs
    · exact he1
    · simp [Expr.plain, h.plain, he1]
  · obtain ⟨name1, name2, h1, h2, hkept⟩ := h.names
    refine ⟨name1, name2, h1, h2, fun env henv => ?_⟩
    have hrest : ((Expr.and e1 rest).evalCIExpr env).kept =
        ((rest.evalCIExpr env).kept && (e1.evalCIExpr env).kept) :=
      (Expr.kept_and henv e1 rest).trans (Bool.and_comm _ _)
    rw [Expr.kept_dropOne _ _ _ hrest, Expr.kept_and henv, Bool.and_eq_true,
      Bool.and_eq_true, hkept env henv]
    tauto

theorem findJoin_cases {e : Expr I V} (he : e.plain = true) :
    (∃ k, findJoin live subst e = .ok (e, k, none)) ∨
      ∃ rest k join, findJoin live subst e = .ok (rest, k, some join) ∧
        JoinFound live subst e rest join := by
  induction e with
  | vInt n => exact .inl ⟨_, rfl⟩
  | eq name1 name2 =>
    by_cases h : (live (subst name1).tableNbr && live (subst name2).tableNbr &&
        decide ((subst name1).tableNbr ≠ (subst name2).tableNbr)) = true
    · have hkept : ∀ env : I → AValue V, (∀ name, env name ≠ .aUndefined) →
          (((Expr.eq name1 name2).evalCIExpr env).kept = true ↔
            (∃ v, env name1 = .aDef v ∧ env name2 = .aDef v) ∧
              ((Expr.vInt 1 : Expr I V).evalCIExpr env).kept = true) := by
        intro env henv
        rw [Expr.kept_eq henv]
        simp [Expr.evalCIExpr, AValue.kept]
      have hparts := h
      simp only [Bool.and_eq_true, decide_eq_true_eq] at hparts
      right
      by_cases hlt : (subst name2).tableNbr < (subst name1).tableNbr
      · refine ⟨.vInt 1, .inner, ⟨subst name2, subst name1⟩, ?_, rfl, hlt, hparts.1.2, hparts.1.1,
          name2, name1, rfl, rfl, fun env henv => ?_⟩
        · simp only [findJoin]
          rw [if_pos h, if_pos hlt]
        · rw [hkept env henv]
          simp only [and_comm]
      · refine ⟨.vInt 1, .inner, ⟨subst name1, subst name2⟩, ?_, rfl, ?_, hparts.1.1, hparts.1.2,
          name1, name2, rfl, rfl, hkept⟩
        · simp only [findJoin]
          rw [if_pos h, if_neg hlt]
        · have hne := hparts.2
          show (subst name1).tableNbr < (subst name2).tableNbr
          omega
    · left
      refine ⟨.inner, ?_⟩
      simp only [findJoin]
      rw [if_neg h]
  | and e1 e2 ih1 ih2 =>
    simp only [Expr.plain, Bool.and_eq_true] at he
    rcases ih1 he.1 with h1 | h1
    · obtain ⟨k1, h1⟩ := h1
      rcases ih2 he.2 with h2 | h2
      · obtain ⟨k2, h2⟩ := h2
        left
        refine ⟨.inner, ?_⟩
        simp only [findJoin, h1, h2]
        rfl
      · obtain ⟨rest, k2, join, h2, hfound⟩ := h2
        right
        refine ⟨_, k2, join, ?_, hfound.and_right he.1⟩
        simp only [findJoin, h1, h2]
        rfl
    · obtain ⟨rest, k1, join, h1, hfound⟩ := h1
      exact .inr ⟨_, k1, join, findJoin_and h1, hfound.and_left he.2⟩
  | on kind e => cases he
  | other c => exact .inl ⟨_, rfl⟩

theorem findJoin_eq_none (subst : I → Column) {n : ℕ} (hlive : ∀ tableNbr, live tableNbr = true → tableNbr = n)
    {e : Expr I V} (he : e.plain = true) : ∃ k, findJoin live subst e = .ok (e, k, none) := by
  rcases findJoin_cases he with hnone | hsome
  · exact hnone
  · obtain ⟨rest, k, join, -, hfound⟩ := hsome
    have hleft := hlive _ hfound.live_left
    have hright := hlive _ hfound.live_right
    have hlt := hfound.lt
    omega

theorem findJoin_found {k : JoinKind} (he : e.plain = true)
    (h : findJoin live subst e = .ok (rest, k, some join)) :
    JoinFound live subst e rest join := by
  rcases findJoin_cases he with hnone | hsome
  · obtain ⟨k', hnone⟩ := hnone
    rw [hnone] at h
    cases h
  · obtain ⟨rest', k', join', hsome, hfound⟩ := hsome
    rw [hsome] at h
    cases h
    exact hfound

end FindJoin

section JoinBy

variable {A B : Type}

/-- The pairs that match, and the rows of the sides that are kept that match nothing. -/
def joinBy (p : A → B → Bool) (joinKind : JoinKind) (leftRows : List A) (rightRows : List B) :
    List (JoinOutput A B) :=
  (leftRows.flatMap fun left => (rightRows.filter (p left)).map (.pair left)) ++
  (if joinKind.keepsLeft then
    (leftRows.filter fun left => rightRows.all fun right => !p left right).map .onlyLeft else []) ++
  (if joinKind.keepsRight then
    (rightRows.filter fun right => leftRows.all fun left => !p left right).map .onlyRight else [])

variable {p : A → B → Bool} {joinKind : JoinKind} {leftRows : List A} {rightRows : List B}

theorem pair_mem_joinBy {l : A} {r : B} : .pair l r ∈ joinBy p joinKind leftRows rightRows ↔
    l ∈ leftRows ∧ r ∈ rightRows ∧ p l r = true := by
  simp only [joinBy, mem_append, mem_flatMap, mem_map, mem_filter]
  constructor
  · intro h
    rcases h with (h | h) | h
    · obtain ⟨left, hleft, right, hright, heq⟩ := h
      cases heq
      exact ⟨hleft, hright.1, hright.2⟩
    · split_ifs at h
      · simp at h
      · cases h
    · split_ifs at h
      · simp at h
      · cases h
  · intro h
    exact .inl (.inl ⟨l, h.1, r, ⟨h.2.1, h.2.2⟩, rfl⟩)

theorem onlyLeft_mem_joinBy {l : A} : .onlyLeft l ∈ joinBy p joinKind leftRows rightRows ↔
    joinKind.keepsLeft = true ∧ l ∈ leftRows ∧ ∀ r ∈ rightRows, p l r = false := by
  simp only [joinBy, mem_append, mem_flatMap, mem_map, mem_filter]
  by_cases hkeep : joinKind.keepsLeft = true
  · simp only [hkeep, if_true]
    constructor
    · intro h
      rcases h with (h | h) | h
      · obtain ⟨left, -, right, -, heq⟩ := h
        cases heq
      · simpa using h
      · split_ifs at h
        · simp at h
        · cases h
    · intro h
      exact .inl (.inr (by simpa using h))
  · simp only [hkeep]
    constructor
    · intro h
      rcases h with (h | h) | h
      · obtain ⟨left, -, right, -, heq⟩ := h
        cases heq
      · cases h
      · split_ifs at h
        · simp at h
        · cases h
    · intro h
      cases h.1

theorem onlyRight_mem_joinBy {r : B} : .onlyRight r ∈ joinBy p joinKind leftRows rightRows ↔
    joinKind.keepsRight = true ∧ r ∈ rightRows ∧ ∀ l ∈ leftRows, p l r = false := by
  simp only [joinBy, mem_append, mem_flatMap, mem_map, mem_filter]
  by_cases hkeep : joinKind.keepsRight = true
  · simp only [hkeep, if_true]
    constructor
    · intro h
      rcases h with (h | h) | h
      · obtain ⟨left, -, right, -, heq⟩ := h
        cases heq
      · split_ifs at h
        · simp at h
        · cases h
      · simpa using h
    · intro h
      exact .inr (by simpa using h)
  · simp only [hkeep]
    constructor
    · intro h
      rcases h with (h | h) | h
      · obtain ⟨left, -, right, -, heq⟩ := h
        cases heq
      · split_ifs at h
        · simp at h
        · cases h
      · cases h
    · intro h
      cases h.1

theorem nodup_joinBy (p : A → B → Bool) (joinKind : JoinKind) (hleft : leftRows.Nodup)
    (hright : rightRows.Nodup) : (joinBy p joinKind leftRows rightRows).Nodup := by
  have hpairs : (leftRows.flatMap fun left =>
      (rightRows.filter (p left)).map (JoinOutput.pair left)).Nodup := by
    refine nodup_flatMap.mpr ⟨fun left _ => ?_, hleft.imp fun hne => ?_⟩
    · exact (hright.filter _).map fun _ _ h => (JoinOutput.pair.inj h).2
    · intro o h1 h2
      obtain ⟨r1, -, rfl⟩ := mem_map.mp h1
      obtain ⟨r2, -, heq⟩ := mem_map.mp h2
      exact hne (JoinOutput.pair.inj heq).1.symm
  have honlyLeft : (if joinKind.keepsLeft then
      (leftRows.filter fun left => rightRows.all fun right => !p left right).map
        (JoinOutput.onlyLeft (B := B)) else []).Nodup := by
    split_ifs
    · exact (hleft.filter _).map fun _ _ h => JoinOutput.onlyLeft.inj h
    · exact nodup_nil
  have honlyRight : (if joinKind.keepsRight then
      (rightRows.filter fun right => leftRows.all fun left => !p left right).map
        (JoinOutput.onlyRight (A := A)) else []).Nodup := by
    split_ifs
    · exact (hright.filter _).map fun _ _ h => JoinOutput.onlyRight.inj h
    · exact nodup_nil
  unfold joinBy
  refine nodup_append.mpr ⟨nodup_append.mpr ⟨hpairs, honlyLeft, ?_⟩, honlyRight, ?_⟩
  · intro o ho o' ho' heq
    subst heq
    obtain ⟨left, -, hmem⟩ := mem_flatMap.mp ho
    obtain ⟨r, -, rfl⟩ := mem_map.mp hmem
    split_ifs at ho'
    · simp at ho'
    · cases ho'
  · intro o ho o' ho' heq
    subst heq
    split_ifs at ho'
    · obtain ⟨r, -, rfl⟩ := mem_map.mp ho'
      rcases mem_append.mp ho with ho | ho
      · simp at ho
      · split_ifs at ho
        · simp at ho
        · cases ho
    · cases ho'

end JoinBy

section Outputs

variable {V : Type} [DecidableEq V] {j : SubMerge} {s : JoinState V}

/-- The rows of an output without their shards. -/
def JoinOutput.rows : JoinOutput (LeftShardedFile V) (RightShardedFile V) →
    JoinOutput (RowValues V) (RowValues V)
  | .pair l r => .pair l.value r.value
  | .onlyLeft l => .onlyLeft l.value
  | .onlyRight r => .onlyRight r.value

namespace SubMerge

/-- How many of the shards that a row is written to have no row of the other side. -/
def freeLeft (j : SubMerge) (s : JoinState V) (l : LeftShardedFile V) : ℕ :=
  (j.leftKeys l).countP fun k => s.right.all fun r => !(j.rightKeys r).contains k

def freeRight (j : SubMerge) (s : JoinState V) (r : RightShardedFile V) : ℕ :=
  (j.rightKeys r).countP fun k => s.left.all fun l => !(j.leftKeys l).contains k

theorem freeLeft_eq (l : LeftShardedFile V) :
    j.freeLeft s l = (j.leftKeys l).countP fun k => ∀ r ∈ s.right, k ∉ j.rightKeys r :=
  countP_congr fun k _ => by simp

theorem freeRight_eq (r : RightShardedFile V) :
    j.freeRight s r = (j.rightKeys r).countP fun k => ∀ l ∈ s.left, k ∉ j.leftKeys l :=
  countP_congr fun k _ => by simp

theorem countP_projKeys {keys : List (ProjKey V)} (hkeys : keys.Nodup)
    (hsub : ∀ k ∈ keys, k ∈ j.projKeys s) (p : ProjKey V → Prop) [DecidablePred p] :
    (j.projKeys s).countP (fun k => k ∈ keys ∧ p k) = keys.countP fun k => p k := by
  rw [countP_eq_length_filter, countP_eq_length_filter]
  refine ((perm_ext_iff_of_nodup (nodup_projKeys.filter _) (hkeys.filter _)).mpr fun k => ?_).length_eq
  simp only [mem_filter, decide_eq_true_eq]
  exact ⟨fun h => h.2, fun h => ⟨hsub k h.1, h⟩⟩

theorem pair_mem_left {l : LeftShardedFile V} {r : RightShardedFile V}
    (h : .pair l r ∈ j.outputs s) : l ∈ s.left ∧ r ∈ s.right := by
  obtain ⟨k, -, hk⟩ := mem_flatMap.mp h
  rw [← count_pos_iff, count_joinRows_pair] at hk
  exact ⟨(mem_filter.mp (count_pos_iff.mp (Nat.pos_of_mul_pos_right hk))).1,
    (mem_filter.mp (count_pos_iff.mp (Nat.pos_of_mul_pos_left hk))).1⟩

theorem onlyLeft_mem {l : LeftShardedFile V} (h : .onlyLeft l ∈ j.outputs s) :
    j.joinKind.keepsLeft = true ∧ l ∈ s.left := by
  obtain ⟨k, -, hk⟩ := mem_flatMap.mp h
  rw [← count_pos_iff, count_joinRows_onlyLeft] at hk
  split_ifs at hk with hkeep
  · rw [Bool.and_eq_true] at hkeep
    exact ⟨hkeep.2, (mem_filter.mp (count_pos_iff.mp hk)).1⟩
  · cases hk

theorem onlyRight_mem {r : RightShardedFile V} (h : .onlyRight r ∈ j.outputs s) :
    j.joinKind.keepsRight = true ∧ r ∈ s.right := by
  obtain ⟨k, -, hk⟩ := mem_flatMap.mp h
  rw [← count_pos_iff, count_joinRows_onlyRight] at hk
  split_ifs at hk with hkeep
  · rw [Bool.and_eq_true] at hkeep
    exact ⟨hkeep.1, (mem_filter.mp (count_pos_iff.mp hk)).1⟩
  · cases hk

end SubMerge

theorem count_map_of_mem {A B : Type} [DecidableEq A] [DecidableEq B] {f : A → B} {l : List A} {a : A}
    (h : ∀ x ∈ l, f x = f a → x = a) : (l.map f).count (f a) = l.count a := by
  rw [count, count, countP_map]
  refine countP_congr fun x hx => ?_
  simp only [Function.comp_apply, beq_iff_eq]
  exact ⟨h x hx, fun heq => by rw [heq]⟩

section Placed

variable (hplaced : SubMerge.WellPlaced s)

include hplaced

omit [DecidableEq V] in
theorem left_eq {l l' : LeftShardedFile V} (hl : l ∈ s.left) (hl' : l' ∈ s.left)
    (h : l.value = l'.value) : l = l' :=
  inj_on_of_nodup_map hplaced.left_nodup hl hl' (congrArg RowValues.values h)

omit [DecidableEq V] in
theorem right_eq {r r' : RightShardedFile V} (hr : r ∈ s.right) (hr' : r' ∈ s.right)
    (h : r.value = r'.value) : r = r' :=
  inj_on_of_nodup_map hplaced.right_nodup hr hr' (congrArg RowValues.values h)

theorem count_rows_pair {l : LeftShardedFile V} {r : RightShardedFile V} (hl : l ∈ s.left)
    (hr : r ∈ s.right) : ((j.outputs s).map JoinOutput.rows).count (.pair l.value r.value) =
      if j.Meet l r then 1 else 0 := by
  rw [← SubMerge.count_outputs_pair hplaced.left_nodup.of_map hplaced.right_nodup.of_map hl hr]
  refine count_map_of_mem (f := JoinOutput.rows) (a := .pair l r) fun o ho heq => ?_
  cases o with
  | pair l' r' =>
    obtain ⟨hl', hr'⟩ := SubMerge.pair_mem_left ho
    obtain ⟨hleft, hright⟩ := JoinOutput.pair.inj heq
    rw [left_eq hplaced hl' hl hleft, right_eq hplaced hr' hr hright]
  | onlyLeft l' => cases heq
  | onlyRight r' => cases heq

theorem count_rows_onlyLeft {l : LeftShardedFile V} (hl : l ∈ s.left)
    (hkeep : j.joinKind.keepsLeft = true) :
    ((j.outputs s).map JoinOutput.rows).count (.onlyLeft l.value) = j.freeLeft s l := by
  rw [SubMerge.freeLeft_eq, ← SubMerge.countP_projKeys (j := j) (s := s) (SubMerge.nodup_leftKeys l)
      fun k hk => SubMerge.mem_projKeys_left hl hk,
    ← SubMerge.count_outputs_onlyLeft hplaced.left_nodup.of_map hl hkeep]
  refine count_map_of_mem (f := JoinOutput.rows) (a := .onlyLeft l) fun o ho heq => ?_
  cases o with
  | pair l' r' => cases heq
  | onlyLeft l' =>
    rw [left_eq hplaced (SubMerge.onlyLeft_mem ho).2 hl (JoinOutput.onlyLeft.inj heq)]
  | onlyRight r' => cases heq

theorem count_rows_onlyRight {r : RightShardedFile V} (hr : r ∈ s.right)
    (hkeep : j.joinKind.keepsRight = true) :
    ((j.outputs s).map JoinOutput.rows).count (.onlyRight r.value) = j.freeRight s r := by
  rw [SubMerge.freeRight_eq, ← SubMerge.countP_projKeys (j := j) (s := s) (SubMerge.nodup_rightKeys r)
      fun k hk => SubMerge.mem_projKeys_right hr hk,
    ← SubMerge.count_outputs_onlyRight hplaced.right_nodup.of_map hr hkeep]
  refine count_map_of_mem (f := JoinOutput.rows) (a := .onlyRight r) fun o ho heq => ?_
  cases o with
  | pair l' r' => cases heq
  | onlyLeft l' => cases heq
  | onlyRight r' =>
    rw [right_eq hplaced (SubMerge.onlyRight_mem ho).2 hr (JoinOutput.onlyRight.inj heq)]

end Placed

section Resharding

/-- Shards are not part of the rows that a side has. -/
theorem values_reshard {action : SubMerge.Action V} (h : action.reshards = true) :
    (j.step s action).left.map (·.value) = s.left.map (·.value) ∧
      (j.step s action).right.map (·.value) = s.right.map (·.value) := by
  cases action with
  | writeLeft values rows sym => cases h
  | writeRight values rows sym => cases h
  | nextTick => cases h
  | reduce k =>
    simp only [SubMerge.step, SubMerge.reduce]
    split
    · exact ⟨rfl, rfl⟩
    · exact ⟨rfl, rfl⟩
  | projectLeft values sym =>
    refine ⟨?_, rfl⟩
    simp only [SubMerge.step, SubMerge.projectLeft, map_map]
    refine map_congr_left fun l _ => ?_
    simp only [Function.comp_apply]
    split_ifs <;> rfl
  | projectRight values sym =>
    refine ⟨rfl, ?_⟩
    simp only [SubMerge.step, SubMerge.projectRight, map_map]
    refine map_congr_left fun r _ => ?_
    simp only [Function.comp_apply]
    split_ifs <;> rfl

theorem values_run {actions : List (SubMerge.Action V)} (h : ∀ action ∈ actions, action.reshards = true) :
    (j.run s actions).left.map (·.value) = s.left.map (·.value) ∧
      (j.run s actions).right.map (·.value) = s.right.map (·.value) := by
  induction actions generalizing s with
  | nil => exact ⟨rfl, rfl⟩
  | cons action actions ih =>
    have hstep := values_reshard (j := j) (s := s) (h action mem_cons_self)
    have hrest := ih (s := j.step s action) fun a ha => h a (mem_cons_of_mem action ha)
    exact ⟨hrest.1.trans hstep.1, hrest.2.trans hstep.2⟩

variable (resharding : Resharding V) (j) {left right : List (RowValues V)}

theorem settle_left : ((resharding.settle j (.start 0 left right)).left.map (·.value)) = left := by
  obtain ⟨actions, hactions, hsettle⟩ := resharding.reached j (.start 0 left right)
  rw [hsettle, (values_run hactions).1]
  simp [JoinState.start, projLeft, Function.comp_def]

theorem settle_right : ((resharding.settle j (.start 0 left right)).right.map (·.value)) = right := by
  obtain ⟨actions, hactions, hsettle⟩ := resharding.reached j (.start 0 left right)
  rw [hsettle, (values_run hactions).2]
  simp [JoinState.start, projRight, Function.comp_def]

theorem wellPlaced_settle (hleft : (left.map (·.values)).Nodup)
    (hright : (right.map (·.values)).Nodup) :
    SubMerge.WellPlaced (resharding.settle j (.start 0 left right)) := by
  obtain ⟨actions, -, hsettle⟩ := resharding.reached j (.start 0 left right)
  rw [hsettle]
  exact SubMerge.wellPlaced_run (SubMerge.wellPlaced_start 0 hleft hright) actions

end Resharding

end Outputs
end SkipPlatform
