import SkipPlatform.SqlMergeRows

set_option autoImplicit false
set_option linter.unusedSectionVars false

/-! Outer joins of two tables, beside their definition. -/
namespace SkipPlatform
open List

/-- Every row has a value for each column, and no row is there twice or not at all. -/
structure JTable.WellFormed {V : Type} (t : JTable V) : Prop where
  length : ∀ row ∈ t.rows, row.values.length = t.schemaSize
  nodup : (t.rows.map (·.values)).Nodup
  pos : ∀ row ∈ t.rows, 0 < row.repeatCount

/-- A LEFT, RIGHT or FULL JOIN of two tables. The ON condition is an equality `join` of columns of
the two tables, among others that make the condition `rest`. -/
structure OuterJoin (I V : Type) [DecidableEq V] where
  resharding : Resharding V
  kind : JoinKind
  outer : kind = .left ∨ kind = .right ∨ kind = .full
  left : JTable V
  right : JTable V
  left_wf : left.WellFormed
  right_wf : right.WellFormed
  subst : I → Column
  subst_bound : ∀ name, (subst name).tableNbr = 0 ∧ (subst name).colNbr < left.schemaSize ∨
    (subst name).tableNbr = 1 ∧ (subst name).colNbr < right.schemaSize
  onClause : Expr I V
  onClause_plain : onClause.plain = true
  rest : Expr I V
  join : EqJoin
  onClause_join : ∃ k, findJoin (fun tableNbr => tableNbr < 2) subst onClause = .ok (rest, k, some join)
  where_ : Option (Expr I V)
  where_plain : ∀ e, where_ = some e → e.plain = true

namespace OuterJoin

variable {I V : Type} [DecidableEq V] (q : OuterJoin I V)

def select : Except String (List (RowValues V)) :=
  selectRows q.resharding (.join q.kind (.source q.left) (.source q.right) (some q.onClause)) q.subst q.where_

def holds (e : Expr I V) (l r : List (Option V)) : Bool :=
  (e.evalCIExpr (getFrom q.subst [l, r])).kept

def whereHolds (l r : List (Option V)) : Bool :=
  match q.where_ with
  | none => true
  | some e => q.holds e l r

def leftNulls : List (Option V) := List.replicate q.left.schemaSize none

def rightNulls : List (Option V) := List.replicate q.right.schemaSize none

def cells : JoinOutput (RowValues V) (RowValues V) → List (Option V) × List (Option V)
  | .pair l r => (l.values, r.values)
  | .onlyLeft l => (l.values, q.rightNulls)
  | .onlyRight r => (q.leftNulls, r.values)

def times : JoinOutput (RowValues V) (RowValues V) → ℕ
  | .pair l r => l.repeatCount * r.repeatCount
  | .onlyLeft l => l.repeatCount
  | .onlyRight r => r.repeatCount

def row (o : JoinOutput (RowValues V) (RowValues V)) : RowValues V :=
  ⟨(q.cells o).1 ++ (q.cells o).2, times o⟩

/-- The definition of the join: the pairs for which all of ON is true, and the rows of the sides
that are kept for which there is no such pair; WHERE comes after that. -/
def definition : List (JoinOutput (RowValues V) (RowValues V)) :=
  (joinBy (fun l r => q.holds q.onClause l.values r.values) q.kind q.left.rows q.right.rows).filter
    fun o => q.whereHolds (q.cells o).1 (q.cells o).2

def definitionRows : List (RowValues V) := q.definition.map q.row

def leftKey (l : List (Option V)) : Option V := l.getD q.join.left.colNbr none

def rightKey (r : List (Option V)) : Option V := r.getD q.join.right.colNbr none

def subMerge : SubMerge := Merge.subMerge q.join q.kind q.left q.right

/-- The two tables in their shards, when the join is read. -/
def settled : JoinState V :=
  q.resharding.settle q.subMerge (.start 0 q.left.rows q.right.rows)

/-- The join is searched by the key only, and the rest of ON is a condition on the result. -/
def compiled : List (JoinOutput (RowValues V) (RowValues V)) :=
  ((q.subMerge.outputs q.settled).map JoinOutput.rows).filter fun o =>
    q.holds q.rest (q.cells o).1 (q.cells o).2 && q.whereHolds (q.cells o).1 (q.cells o).2

variable (l r : List (Option V))

theorem getFrom_ne_aUndefined (name : I) :
    getFrom q.subst [l, r] name ≠ .aUndefined := by
  unfold getFrom
  rcases q.subst_bound name with h | h
  · rw [h.1]
    simp only [List.getElem?_cons_zero]
    cases l.getD (q.subst name).colNbr none with
    | none => simp
    | some v => simp
  · rw [h.1]
    simp only [List.getElem?_cons_succ, List.getElem?_cons_zero]
    cases r.getD (q.subst name).colNbr none with
    | none => simp
    | some v => simp

theorem found : JoinFound (fun tableNbr => tableNbr < 2) q.subst q.onClause q.rest q.join := by
  obtain ⟨k, h⟩ := q.onClause_join
  exact findJoin_found q.onClause_plain h

theorem join_left : q.join.left.tableNbr = 0 := by
  have hlt := q.found.lt
  have hright : q.join.right.tableNbr < 2 := by simpa using q.found.live_right
  omega

theorem join_right : q.join.right.tableNbr = 1 := by
  have hlt := q.found.lt
  have hright : q.join.right.tableNbr < 2 := by simpa using q.found.live_right
  omega

theorem holds_onClause : q.holds q.onClause l r = true ↔
    (q.leftKey l = q.rightKey r ∧ q.leftKey l ≠ none) ∧ q.holds q.rest l r = true := by
  obtain ⟨name1, name2, h1, h2, hkept⟩ := q.found.names
  unfold holds
  rw [hkept _ (q.getFrom_ne_aUndefined l r)]
  refine and_congr_left fun _ => ?_
  have hleft : getFrom q.subst [l, r] name1 =
      (q.leftKey l).elim .aNull .aDef := by
    unfold getFrom leftKey
    rw [h1, q.join_left]
    have hrow : [l, r][0]? = some l := rfl
    rw [hrow]
    dsimp only
    cases l.getD q.join.left.colNbr none <;> rfl
  have hright : getFrom q.subst [l, r] name2 =
      (q.rightKey r).elim .aNull .aDef := by
    unfold getFrom rightKey
    rw [h2, q.join_right]
    have hrow : [l, r][1]? = some r := rfl
    rw [hrow]
    dsimp only
    cases r.getD q.join.right.colNbr none <;> rfl
  rw [hleft, hright]
  cases hl : q.leftKey l with
  | none => simp
  | some v =>
    cases hr : q.rightKey r with
    | none => simp
    | some v' =>
      simp only [Option.elim_some, AValue.aDef.injEq, Option.some.injEq]
      constructor
      · intro h
        obtain ⟨x, hx, hx'⟩ := h
        exact ⟨hx.trans hx'.symm, by simp⟩
      · intro h
        exact ⟨v, rfl, h.1.symm⟩

def cond : Expr I V :=
  match q.where_ with
  | none => q.rest
  | some e => if q.rest.isOne then e else .and q.rest e

theorem cond_plain : q.cond.plain = true := by
  unfold cond
  have hrest := q.found.plain
  cases hw : q.where_ with
  | none => exact hrest
  | some e =>
    have he := q.where_plain e hw
    simp only
    split_ifs
    · exact he
    · simp [Expr.plain, hrest, he]

theorem holds_cond :
    q.holds q.cond l r = (q.holds q.rest l r && q.whereHolds l r) := by
  unfold cond whereHolds
  cases q.where_ with
  | none => simp
  | some e =>
    exact Expr.kept_dropOne _ _ _ (Expr.kept_and (q.getFrom_ne_aUndefined l r) q.rest e)

theorem live_eq (cond : Expr I V) :
    (Merge.mk [some q.left, some q.right] q.subst cond).live = fun tableNbr => tableNbr < 2 := by
  funext n
  match n with
  | 0 => rfl
  | 1 => rfl
  | n + 2 => simp [Merge.live]

theorem findJoin_where (live : ℕ → Bool) (hlive : live = fun tableNbr => decide (tableNbr < 2)) :
    findJoin live q.subst ((mergeConds (some (.on q.kind q.onClause)) q.where_).getD (.vInt 1)) =
      .ok (q.cond, q.kind, some q.join) := by
  subst hlive
  obtain ⟨k, hjoin⟩ := q.onClause_join
  have hon : findJoin (fun tableNbr => tableNbr < 2) q.subst (.on q.kind q.onClause) =
      .ok (q.rest, q.kind, some q.join) := by
    simp only [findJoin, hjoin]
    rcases q.outer with h | h | h <;> rw [h] <;> rfl
  unfold cond
  cases hw : q.where_ with
  | none => exact hon
  | some e =>
    exact findJoin_and hon

def merged : JTable V := Merge.joinTables q.resharding q.join q.kind q.left q.right

def mergedSubst (name : I) : Column :=
  if (q.subst name).tableNbr = 1 then ⟨0, q.left.schemaSize + (q.subst name).colNbr⟩
  else q.subst name

theorem mergedSubst_tableNbr (name : I) : (q.mergedSubst name).tableNbr = 0 := by
  unfold mergedSubst
  rcases q.subst_bound name with h | h
  · rw [if_neg (by omega)]
    exact h.1
  · rw [if_pos h.1]

theorem compileMerge_eq : Merge.compileMerge q.resharding 2 ⟨[some q.left, some q.right], q.subst,
    (mergeConds (some (.on q.kind q.onClause)) q.where_).getD (.vInt 1)⟩ =
      .ok ⟨[some q.merged], q.mergedSubst, q.cond⟩ := by
  have hone : ∀ tableNbr, (Merge.mk [some q.merged, none] q.mergedSubst q.cond).live tableNbr =
      true → tableNbr = 0 := by
    intro n hn
    match n with
    | 0 => rfl
    | 1 => cases hn
    | n + 2 => simp [Merge.live] at hn
  obtain ⟨k, hnone⟩ := findJoin_eq_none q.mergedSubst hone q.cond_plain
  have hmerge : Merge.merge q.resharding ⟨[some q.left, some q.right], q.subst, q.cond⟩ q.join q.kind =
      .ok ⟨[some q.merged, none], q.mergedSubst, q.cond⟩ := by
    simp only [Merge.merge, q.join_left, q.join_right]
    rfl
  have hmove : (Merge.mk [some q.merged, none] q.mergedSubst q.cond).move =
      ⟨[some q.merged], q.mergedSubst, q.cond⟩ := by
    unfold Merge.move
    simp only [Merge.mk.injEq]
    refine ⟨rfl, ?_, trivial⟩
    funext name
    have hlive : (Merge.mk [some q.merged, none] q.mergedSubst q.cond).live
        (q.mergedSubst name).tableNbr = true := by
      rw [q.mergedSubst_tableNbr name]
      rfl
    rw [if_pos hlive, q.mergedSubst_tableNbr name]
    show (⟨0, (q.mergedSubst name).colNbr⟩ : Column) = q.mergedSubst name
    rw [← q.mergedSubst_tableNbr name]
  rw [Merge.compileMerge, q.findJoin_where _ (q.live_eq _)]
  simp only [bind, Except.bind, hmerge]
  rw [Merge.compileMerge, hnone]
  simp only [bind, Except.bind, hmove]

theorem getFrom_merged {l r : List (Option V)} (hl : l.length = q.left.schemaSize) :
    getFrom q.mergedSubst [l ++ r] = getFrom q.subst [l, r] := by
  funext name
  unfold getFrom
  rw [q.mergedSubst_tableNbr name]
  unfold mergedSubst
  rcases q.subst_bound name with h | h
  · rw [if_neg (by omega), h.1]
    simp only [List.getElem?_cons_zero]
    rw [getD_eq_getElem?_getD, getD_eq_getElem?_getD,
      List.getElem?_append_left (by omega)]
  · rw [if_pos h.1, h.1]
    simp only [List.getElem?_cons_succ, List.getElem?_cons_zero]
    rw [getD_eq_getElem?_getD, getD_eq_getElem?_getD,
      List.getElem?_append_right (by omega), hl, Nat.add_sub_cancel_left]

variable {o : JoinOutput (RowValues V) (RowValues V)}
  {x : JoinOutput (LeftShardedFile V) (RightShardedFile V)}

theorem settled_left : q.settled.left.map (·.value) = q.left.rows := settle_left _ _

theorem settled_right : q.settled.right.map (·.value) = q.right.rows := settle_right _ _

theorem settled_placed : SubMerge.WellPlaced q.settled :=
  wellPlaced_settle _ _ q.left_wf.nodup q.right_wf.nodup

theorem left_mem {l : LeftShardedFile V} (hl : l ∈ q.settled.left) : l.value ∈ q.left.rows := by
  rw [← q.settled_left]
  exact mem_map_of_mem hl

theorem right_mem {r : RightShardedFile V} (hr : r ∈ q.settled.right) : r.value ∈ q.right.rows := by
  rw [← q.settled_right]
  exact mem_map_of_mem hr

theorem exists_left {l : RowValues V} (hl : l ∈ q.left.rows) : ∃ x ∈ q.settled.left, x.value = l := by
  rw [← q.settled_left] at hl
  exact mem_map.mp hl

theorem exists_right {r : RowValues V} (hr : r ∈ q.right.rows) :
    ∃ x ∈ q.settled.right, x.value = r := by
  rw [← q.settled_right] at hr
  exact mem_map.mp hr

/-- The rows that an output is made of are rows of the two tables. -/
def Of (o : JoinOutput (RowValues V) (RowValues V)) : Prop :=
  match o with
  | .pair l r => l ∈ q.left.rows ∧ r ∈ q.right.rows
  | .onlyLeft l => l ∈ q.left.rows
  | .onlyRight r => r ∈ q.right.rows

theorem of_outputs (hx : x ∈ q.subMerge.outputs q.settled) : q.Of x.rows := by
  cases x with
  | pair l r =>
    have h := SubMerge.pair_mem_left hx
    exact ⟨q.left_mem h.1, q.right_mem h.2⟩
  | onlyLeft l => exact q.left_mem (SubMerge.onlyLeft_mem hx).2
  | onlyRight r => exact q.right_mem (SubMerge.onlyRight_mem hx).2

theorem of_compiled (ho : o ∈ q.compiled) : q.Of o := by
  obtain ⟨x, hx, rfl⟩ := mem_map.mp (mem_filter.mp ho).1
  exact q.of_outputs hx

theorem of_definition (ho : o ∈ q.definition) : q.Of o := by
  have ho := (mem_filter.mp ho).1
  cases o with
  | pair l r =>
    have h := pair_mem_joinBy.mp ho
    exact ⟨h.1, h.2.1⟩
  | onlyLeft l => exact (onlyLeft_mem_joinBy.mp ho).2.1
  | onlyRight r => exact (onlyRight_mem_joinBy.mp ho).2.1

theorem cells_length (ho : q.Of o) :
    (q.cells o).1.length = q.left.schemaSize ∧ (q.cells o).2.length = q.right.schemaSize := by
  cases o with
  | pair l r => exact ⟨q.left_wf.length l ho.1, q.right_wf.length r ho.2⟩
  | onlyLeft l => exact ⟨q.left_wf.length l ho, length_replicate⟩
  | onlyRight r => exact ⟨length_replicate, q.right_wf.length r ho⟩

theorem row_rows (hx : q.Of x.rows) :
    x.row (q.left.schemaSize + q.right.schemaSize) = q.row x.rows := by
  cases x with
  | pair l r => rfl
  | onlyLeft l =>
    have hlen := q.left_wf.length l.value hx
    simp only [JoinOutput.rows, JoinOutput.row, row, cells, times, rightNulls, hlen,
      Nat.add_sub_cancel_left]
  | onlyRight r =>
    have hlen := q.right_wf.length r.value hx
    simp only [JoinOutput.rows, JoinOutput.row, row, cells, times, leftNulls, hlen,
      Nat.add_sub_cancel]

theorem evalSelectTables_singleton (subst : I → Column) (e : Expr I V) (t : JTable V) :
    (evalSelectTables subst e [t] [] 1).map (fun row => (⟨row.1.flatten, row.2⟩ : RowValues V)) =
      t.rows.filter fun row => (e.evalCIExpr (getFrom subst [row.values])).kept := by
  simp only [evalSelectTables, nil_append]
  induction t.rows with
  | nil => rfl
  | cons row rows ih =>
    rw [flatMap_cons, map_append, ih, filter_cons]
    split_ifs
    · simp
    · simp

theorem select_eq : q.select = .ok (q.compiled.map q.row) := by
  have hexpand : expandJoins (.join q.kind (.source q.left) (.source q.right) (some q.onClause)) =
      .ok ([q.left, q.right], some (.on q.kind q.onClause)) := by
    rcases q.outer with h | h | h <;> rw [h] <;> rfl
  have hselect : q.select = .ok (q.merged.rows.filter fun row =>
      (q.cond.evalCIExpr (getFrom q.mergedSubst [row.values])).kept) := by
    unfold select selectRows
    rw [hexpand]
    simp only [bind, Except.bind, pure, Except.pure, map_cons, map_nil, length_cons,
      length_nil, q.compileMerge_eq]
    rw [← evalSelectTables_singleton]
    rfl
  have hmerged : q.merged.rows = ((q.subMerge.outputs q.settled).map JoinOutput.rows).map q.row := by
    rw [map_map]
    exact map_congr_left fun x hx => q.row_rows (q.of_outputs hx)
  rw [hselect, hmerged, filter_map]
  refine congrArg (fun l => Except.ok (List.map q.row l)) (filter_congr fun o ho => ?_)
  obtain ⟨x, hx, rfl⟩ := mem_map.mp ho
  show (q.cond.evalCIExpr (getFrom q.mergedSubst [(q.cells x.rows).1 ++ (q.cells x.rows).2])).kept = _
  rw [q.getFrom_merged (q.cells_length (q.of_outputs hx)).1]
  exact q.holds_cond _ _

/-- Rows with one key that pass the rest of ON and WHERE are in each other's shards, unless the key
is NULL. A row of a side that is kept, unless WHERE drops it, passes the rest of ON with NULLs on
the other side and is alone in one shard, if it matches nothing; and if it matches something, it
does not pass or is alone in no shard. -/
structure OnAgrees : Prop where
  pairs : ∀ l ∈ q.settled.left, ∀ r ∈ q.settled.right,
    q.leftKey l.value.values = q.rightKey r.value.values →
    (q.holds q.rest l.value.values r.value.values &&
      q.whereHolds l.value.values r.value.values) = true →
      (q.subMerge.Meet l r ↔ q.leftKey l.value.values ≠ none)
  left : q.kind.keepsLeft = true → ∀ l ∈ q.settled.left, q.whereHolds l.value.values q.rightNulls = true →
    if ∀ r ∈ q.right.rows, q.holds q.onClause l.value.values r.values = false then
      q.holds q.rest l.value.values q.rightNulls = true ∧ q.subMerge.freeLeft q.settled l = 1
    else q.holds q.rest l.value.values q.rightNulls = true → q.subMerge.freeLeft q.settled l = 0
  right : q.kind.keepsRight = true → ∀ r ∈ q.settled.right, q.whereHolds q.leftNulls r.value.values = true →
    if ∀ l ∈ q.left.rows, q.holds q.onClause l.values r.value.values = false then
      q.holds q.rest q.leftNulls r.value.values = true ∧ q.subMerge.freeRight q.settled r = 1
    else q.holds q.rest q.leftNulls r.value.values = true → q.subMerge.freeRight q.settled r = 0

theorem pair_mem_definition {l r : RowValues V} : .pair l r ∈ q.definition ↔
    l ∈ q.left.rows ∧ r ∈ q.right.rows ∧ q.holds q.onClause l.values r.values = true ∧
      q.whereHolds l.values r.values = true := by
  unfold definition
  rw [mem_filter, pair_mem_joinBy]
  simp only [and_assoc]
  rfl

theorem onlyLeft_mem_definition {l : RowValues V} : .onlyLeft l ∈ q.definition ↔
    q.kind.keepsLeft = true ∧ l ∈ q.left.rows ∧
      (∀ r ∈ q.right.rows, q.holds q.onClause l.values r.values = false) ∧
        q.whereHolds l.values q.rightNulls = true := by
  unfold definition
  rw [mem_filter, onlyLeft_mem_joinBy]
  simp only [and_assoc]
  rfl

theorem onlyRight_mem_definition {r : RowValues V} : .onlyRight r ∈ q.definition ↔
    q.kind.keepsRight = true ∧ r ∈ q.right.rows ∧
      (∀ l ∈ q.left.rows, q.holds q.onClause l.values r.values = false) ∧
        q.whereHolds q.leftNulls r.values = true := by
  unfold definition
  rw [mem_filter, onlyRight_mem_joinBy]
  simp only [and_assoc]
  rfl

theorem nodup_definition : q.definition.Nodup :=
  (nodup_joinBy _ q.kind q.left_wf.nodup.of_map q.right_wf.nodup.of_map).filter _

theorem count_definition (o : JoinOutput (RowValues V) (RowValues V)) [Decidable (o ∈ q.definition)] :
    q.definition.count o = if o ∈ q.definition then 1 else 0 := by
  split_ifs with h
  · exact count_eq_one_of_mem q.nodup_definition h
  · exact count_eq_zero.mpr h

theorem count_compiled (o : JoinOutput (RowValues V) (RowValues V)) : q.compiled.count o =
    if (q.holds q.rest (q.cells o).1 (q.cells o).2 && q.whereHolds (q.cells o).1 (q.cells o).2) = true
      then ((q.subMerge.outputs q.settled).map JoinOutput.rows).count o else 0 := by
  unfold compiled
  split_ifs with h
  · exact count_filter h
  · exact count_eq_zero.mpr fun hmem => h (mem_filter.mp hmem).2

theorem pair_count_iff {l : LeftShardedFile V} {r : RightShardedFile V} (hl : l ∈ q.settled.left)
    (hr : r ∈ q.settled.right) : q.compiled.count (.pair l.value r.value) =
      q.definition.count (.pair l.value r.value) ↔
    (q.leftKey l.value.values = q.rightKey r.value.values →
      (q.holds q.rest l.value.values r.value.values &&
        q.whereHolds l.value.values r.value.values) = true →
        (q.subMerge.Meet l r ↔ q.leftKey l.value.values ≠ none)) := by
  have hmeet : q.subMerge.Meet l r → q.leftKey l.value.values = q.rightKey r.value.values :=
    fun h => h.1
  have hon := q.holds_onClause l.value.values r.value.values
  rw [q.count_compiled, count_rows_pair q.settled_placed hl hr, q.count_definition]
  simp only [q.pair_mem_definition, hon, cells, q.left_mem hl, q.right_mem hr, true_and,
    Bool.and_eq_true]
  grind

theorem onlyLeft_count_iff {l : LeftShardedFile V} (hl : l ∈ q.settled.left)
    (hkeep : q.kind.keepsLeft = true) : q.compiled.count (.onlyLeft l.value) =
      q.definition.count (.onlyLeft l.value) ↔
    (q.whereHolds l.value.values q.rightNulls = true →
      if ∀ r ∈ q.right.rows, q.holds q.onClause l.value.values r.values = false then
        q.holds q.rest l.value.values q.rightNulls = true ∧ q.subMerge.freeLeft q.settled l = 1
      else q.holds q.rest l.value.values q.rightNulls = true →
        q.subMerge.freeLeft q.settled l = 0) := by
  rw [q.count_compiled, count_rows_onlyLeft q.settled_placed hl hkeep, q.count_definition]
  simp only [q.onlyLeft_mem_definition, cells, q.left_mem hl, hkeep, true_and, Bool.and_eq_true]
  split_ifs <;> grind

theorem onlyRight_count_iff {r : RightShardedFile V} (hr : r ∈ q.settled.right)
    (hkeep : q.kind.keepsRight = true) : q.compiled.count (.onlyRight r.value) =
      q.definition.count (.onlyRight r.value) ↔
    (q.whereHolds q.leftNulls r.value.values = true →
      if ∀ l ∈ q.left.rows, q.holds q.onClause l.values r.value.values = false then
        q.holds q.rest q.leftNulls r.value.values = true ∧ q.subMerge.freeRight q.settled r = 1
      else q.holds q.rest q.leftNulls r.value.values = true →
        q.subMerge.freeRight q.settled r = 0) := by
  rw [q.count_compiled, count_rows_onlyRight q.settled_placed hr hkeep, q.count_definition]
  simp only [q.onlyRight_mem_definition, cells, q.right_mem hr, hkeep, true_and, Bool.and_eq_true]
  split_ifs <;> grind

theorem onlyLeft_count_eq {l : RowValues V} (hkeep : q.kind.keepsLeft = false) :
    q.compiled.count (.onlyLeft l) = q.definition.count (.onlyLeft l) := by
  have hcompiled : .onlyLeft l ∉ q.compiled := fun h => by
    obtain ⟨x, hx, hrows⟩ := mem_map.mp (mem_filter.mp h).1
    cases x with
    | pair l' r' => cases hrows
    | onlyRight r' => cases hrows
    | onlyLeft l' => exact absurd ((SubMerge.onlyLeft_mem hx).1.symm.trans hkeep) (by decide)
  have hdefinition : .onlyLeft l ∉ q.definition := fun h =>
    absurd ((q.onlyLeft_mem_definition.mp h).1.symm.trans hkeep) (by decide)
  rw [count_eq_zero.mpr hcompiled, count_eq_zero.mpr hdefinition]

theorem onlyRight_count_eq {r : RowValues V} (hkeep : q.kind.keepsRight = false) :
    q.compiled.count (.onlyRight r) = q.definition.count (.onlyRight r) := by
  have hcompiled : .onlyRight r ∉ q.compiled := fun h => by
    obtain ⟨x, hx, hrows⟩ := mem_map.mp (mem_filter.mp h).1
    cases x with
    | pair l' r' => cases hrows
    | onlyLeft l' => cases hrows
    | onlyRight r' => exact absurd ((SubMerge.onlyRight_mem hx).1.symm.trans hkeep) (by decide)
  have hdefinition : .onlyRight r ∉ q.definition := fun h =>
    absurd ((q.onlyRight_mem_definition.mp h).1.symm.trans hkeep) (by decide)
  rw [count_eq_zero.mpr hcompiled, count_eq_zero.mpr hdefinition]

theorem count_eq_of_not_of (h : ¬q.Of o) : q.compiled.count o = q.definition.count o := by
  rw [count_eq_zero.mpr fun hmem => h (q.of_compiled hmem),
    count_eq_zero.mpr fun hmem => h (q.of_definition hmem)]

theorem count_iff_onAgrees :
    (∀ o, q.compiled.count o = q.definition.count o) ↔ q.OnAgrees := by
  constructor
  · intro h
    exact ⟨fun l hl r hr => (q.pair_count_iff hl hr).mp (h _),
      fun hkeep l hl => (q.onlyLeft_count_iff hl hkeep).mp (h _),
      fun hkeep r hr => (q.onlyRight_count_iff hr hkeep).mp (h _)⟩
  · intro h o
    by_cases hof : q.Of o
    · cases o with
      | pair l r =>
        obtain ⟨l, hl, rfl⟩ := q.exists_left hof.1
        obtain ⟨r, hr, rfl⟩ := q.exists_right hof.2
        exact (q.pair_count_iff hl hr).mpr (h.pairs l hl r hr)
      | onlyLeft l =>
        obtain ⟨l, hl, rfl⟩ := q.exists_left hof
        cases hkeep : q.kind.keepsLeft with
        | true => exact (q.onlyLeft_count_iff hl hkeep).mpr (h.left hkeep l hl)
        | false => exact q.onlyLeft_count_eq hkeep
      | onlyRight r =>
        obtain ⟨r, hr, rfl⟩ := q.exists_right hof
        cases hkeep : q.kind.keepsRight with
        | true => exact (q.onlyRight_count_iff hr hkeep).mpr (h.right hkeep r hr)
        | false => exact q.onlyRight_count_eq hkeep
    · exact q.count_eq_of_not_of hof

/-- The query has the rows of the definition, each as often as the definition has it. -/
def Defined : Prop :=
  ∃ rows, q.select = .ok rows ∧
    (rows.flatMap RowValues.copies).Perm (q.definitionRows.flatMap RowValues.copies)

theorem defined_iff_perm : q.Defined ↔ ((q.compiled.map q.row).flatMap RowValues.copies).Perm
    ((q.definition.map q.row).flatMap RowValues.copies) := by
  unfold Defined
  rw [q.select_eq]
  constructor
  · intro h
    obtain ⟨rows, hrows, hperm⟩ := h
    rw [Except.ok.inj hrows]
    exact hperm
  · intro h
    exact ⟨_, rfl, h⟩

theorem defined_of_onAgrees (h : q.OnAgrees) : q.Defined := by
  rw [defined_iff_perm]
  exact ((perm_iff_count.mpr (q.count_iff_onAgrees.mpr h)).map q.row).flatMap_right RowValues.copies

structure NoNullRow : Prop where
  left : ∀ l ∈ q.left.rows, l.values ≠ q.leftNulls
  right : ∀ r ∈ q.right.rows, r.values ≠ q.rightNulls

variable {o' : JoinOutput (RowValues V) (RowValues V)}

theorem row_injective (h : q.NoNullRow) (ho : q.Of o) (ho' : q.Of o')
    (heq : (q.row o).values = (q.row o').values) : o = o' := by
  have hlen := (q.cells_length ho).1.trans (q.cells_length ho').1.symm
  have hcells := append_inj heq hlen
  have hleft : ∀ l ∈ q.left.rows, ∀ l' ∈ q.left.rows, l.values = l'.values → l = l' :=
    fun l hl l' hl' => inj_on_of_nodup_map q.left_wf.nodup hl hl'
  have hright : ∀ r ∈ q.right.rows, ∀ r' ∈ q.right.rows, r.values = r'.values → r = r' :=
    fun r hr r' hr' => inj_on_of_nodup_map q.right_wf.nodup hr hr'
  cases o with
  | pair l r =>
    cases o' with
    | pair l' r' => rw [hleft l ho.1 l' ho'.1 hcells.1, hright r ho.2 r' ho'.2 hcells.2]
    | onlyLeft l' => exact absurd hcells.2 (h.right r ho.2)
    | onlyRight r' => exact absurd hcells.1 (h.left l ho.1)
  | onlyLeft l =>
    cases o' with
    | pair l' r' => exact absurd hcells.2.symm (h.right r' ho'.2)
    | onlyLeft l' => rw [hleft l ho l' ho' hcells.1]
    | onlyRight r' => exact absurd hcells.1 (h.left l ho)
  | onlyRight r =>
    cases o' with
    | pair l' r' => exact absurd hcells.1.symm (h.left l' ho'.1)
    | onlyLeft l' => exact absurd hcells.1.symm (h.left l' ho')
    | onlyRight r' => rw [hright r ho r' ho' hcells.2]

theorem times_pos (ho : q.Of o) : 0 < times o := by
  cases o with
  | pair l r => exact Nat.mul_pos (q.left_wf.pos l ho.1) (q.right_wf.pos r ho.2)
  | onlyLeft l => exact q.left_wf.pos l ho
  | onlyRight r => exact q.right_wf.pos r ho

/-- A row of the result is there as often as its output, times its repetitions. -/
theorem count_copies (h : q.NoNullRow) (ho : q.Of o)
    {outputs : List (JoinOutput (RowValues V) (RowValues V))} (hall : ∀ x ∈ outputs, q.Of x) :
    ((outputs.map q.row).flatMap RowValues.copies).count (q.row o).values =
      outputs.count o * times o := by
  induction outputs with
  | nil => simp
  | cons x outputs ih =>
    have hcopies : (q.row x).copies.count (q.row o).values = if x = o then times o else 0 := by
      unfold RowValues.copies
      rw [count_replicate]
      by_cases hsame : x = o
      · subst hsame
        simp [row]
      · rw [if_neg hsame, if_neg]
        rw [beq_iff_eq]
        exact fun heq => hsame (q.row_injective h (hall x mem_cons_self) ho heq)
    rw [map_cons, flatMap_cons, count_append, ih fun y hy => hall y (mem_cons_of_mem x hy), hcopies,
      count_cons]
    by_cases hsame : x = o
    · simp only [hsame, if_pos, beq_self_eq_true]
      ring
    · simp [hsame]

theorem onAgrees_of_defined (hnull : q.NoNullRow) (h : q.Defined) : q.OnAgrees := by
  rw [defined_iff_perm] at h
  refine q.count_iff_onAgrees.mp fun o => ?_
  by_cases ho : q.Of o
  · have hcount := h.count_eq (q.row o).values
    rw [q.count_copies hnull ho fun x hx => q.of_compiled hx,
      q.count_copies hnull ho fun x hx => q.of_definition hx] at hcount
    exact Nat.eq_of_mul_eq_mul_right (q.times_pos ho) hcount
  · exact q.count_eq_of_not_of ho

/-- The query has the rows of the definition when ON agrees with the key and the shards; and only
then, when no row is all NULL, so that no row of the result can be taken for another. -/
theorem defined_iff_onAgrees (q : OuterJoin I V) :
    (q.OnAgrees → q.Defined) ∧ (q.NoNullRow → (q.Defined ↔ q.OnAgrees)) :=
  ⟨q.defined_of_onAgrees, fun hnull => ⟨q.onAgrees_of_defined hnull, q.defined_of_onAgrees⟩⟩

def sampleCondition : Condition (Fin 3) ℕ where
  eval env := (env 2).flatMap fun n => .aDef (btoi (n = 7))
  total := by
    intro env henv
    have h := henv 2
    cases he : env 2 with
    | aUndefined => exact absurd he h
    | aNull => simp [AValue.flatMap]
    | aDef n => simp [AValue.flatMap]

/-- The names `x`, `y` and `z`; the left table has the column `x`. -/
def sampleSubst : Fin 3 → Column
  | 0 => ⟨0, 0⟩
  | 1 => ⟨1, 0⟩
  | 2 => ⟨1, 1⟩

/-- A LEFT JOIN ON `x = y AND z = 7`. The left table has the row (1), the right one (1, 5). -/
def sampleQuery : OuterJoin (Fin 3) ℕ where
  resharding := ⟨fun _ s => s, fun _ _ => ⟨[], by simp, rfl⟩⟩
  kind := .left
  outer := .inl rfl
  left := ⟨1, [⟨[some 1], 1⟩]⟩
  right := ⟨2, [⟨[some 1, some 5], 1⟩]⟩
  left_wf := ⟨by simp, by simp, by simp⟩
  right_wf := ⟨by simp, by simp, by simp⟩
  subst := sampleSubst
  subst_bound := by decide
  onClause := .and (.eq 0 1) (.other sampleCondition)
  onClause_plain := rfl
  rest := .other sampleCondition
  join := ⟨⟨0, 0⟩, ⟨1, 0⟩⟩
  onClause_join := ⟨.inner, rfl⟩
  where_ := none
  where_plain := by simp

theorem sampleQuery_noNullRow : sampleQuery.NoNullRow := by
  refine ⟨?_, ?_⟩
  · intro l hl
    have h : l = ⟨[some 1], 1⟩ := mem_singleton.mp hl
    rw [h]
    decide
  · intro r hr
    have h : r = ⟨[some 1, some 5], 1⟩ := mem_singleton.mp hr
    rw [h]
    decide

theorem defined_iff_onAgrees_sample : sampleQuery.Defined ↔ sampleQuery.OnAgrees :=
  (defined_iff_onAgrees sampleQuery).2 sampleQuery_noNullRow

/-- The left row is lost: it has a row with the same key, whose `z` is another. -/
theorem sampleQuery_not_defined : ¬sampleQuery.Defined := by
  intro h
  have hagree := sampleQuery.onAgrees_of_defined sampleQuery_noNullRow h
  have hleft := hagree.left rfl ⟨0, 1, [some 1], 1⟩ (by decide) rfl
  rw [if_pos (by decide)] at hleft
  exact absurd hleft.2 (by decide)

end OuterJoin
end SkipPlatform
