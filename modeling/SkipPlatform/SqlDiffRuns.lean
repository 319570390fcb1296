import SkipPlatform.SqlDiffTables

set_option autoImplicit false
set_option linter.unusedSectionVars false

/-! What all rows of a diff together do to a table. -/
namespace SkipPlatform
open List

namespace TableDir

variable {V : Type} [DecidableEq V]

def sources (t : TableDir V) (values : Row V) : List (ℕ × ℕ) :=
  (t.live.filter (·.values = values)).map fun e => (e.source, e.repeatCount)

theorem mem_sources {t : TableDir V} {values : Row V} {source n : ℕ} :
    (source, n) ∈ t.sources values ↔ 0 < n ∧ t.repeatAt values source = n := by
  unfold sources
  simp only [mem_map, mem_filter, decide_eq_true_eq, Prod.mk.injEq]
  constructor
  · intro h
    obtain ⟨e, ⟨he, hvalues⟩, hsource, hrepeat⟩ := h
    have hmem := mem_live.mp he
    have hat := repeatAt_of_mem hmem.1
    rw [hvalues, hsource] at hat
    exact ⟨by omega, by omega⟩
  · intro h
    have hpos : 0 < t.repeatAt values source := by omega
    obtain ⟨e, he, hpath⟩ := repeatAt_pos.mp hpos
    have hvalues : e.values = values := congrArg Prod.fst hpath
    have hsource : e.source = source := congrArg Prod.snd hpath
    have hat := repeatAt_of_mem (mem_live.mp he).1
    rw [hvalues, hsource] at hat
    exact ⟨e, ⟨he, hvalues⟩, hsource, by omega⟩

theorem nodup_sources (t : TableDir V) (values : Row V) : (t.sources values).Nodup := by
  unfold sources
  have hlive : (t.live.map RowEntry.path).Nodup := t.nodup.sublist (List.filter_sublist.map _)
  have hentries : t.live.Nodup := hlive.of_map _
  refine (nodup_map_iff_inj_on (hentries.filter _)).mpr fun e he e' he' hsame => ?_
  have hval : e.values = values := by simpa using (mem_filter.mp he).2
  have hval' : e'.values = values := by simpa using (mem_filter.mp he').2
  have hsource : e.source = e'.source := congrArg Prod.fst hsame
  refine eq_of_path_eq (mem_live.mp (mem_filter.mp he).1).1
    (mem_live.mp (mem_filter.mp he').1).1 ?_
  unfold RowEntry.path
  rw [hval, hval', hsource]

theorem count_eq_sources (t : TableDir V) (values : Row V) :
    t.count values = ((t.sources values).map Prod.snd).sum := by
  unfold count sources live
  rw [map_map]
  induction t.entries with
  | nil => rfl
  | cons e entries ih =>
    by_cases hvalues : e.values = values
    · by_cases hlive : e.live = true
      · rw [filter_cons_of_pos (by simpa using hvalues), filter_cons_of_pos hlive,
          filter_cons_of_pos (by simpa using hvalues), map_cons, map_cons,
          sum_cons, sum_cons, ih]
        rfl
      · have hzero : e.repeatCount = 0 := by
          have hnot : ¬0 < e.repeatCount := by simpa [RowEntry.live] using hlive
          omega
        rw [filter_cons_of_pos (by simpa using hvalues), filter_cons_of_neg hlive,
          map_cons, sum_cons, ih, hzero, Nat.zero_add]
    · by_cases hlive : e.live = true
      · rw [filter_cons_of_neg (by simpa using hvalues), filter_cons_of_pos hlive,
          filter_cons_of_neg (by simpa using hvalues), ih]
      · rw [filter_cons_of_neg (by simpa using hvalues), filter_cons_of_neg hlive, ih]

theorem count_congr {t t' : TableDir V} {values : Row V}
    (h : ∀ source, t.repeatAt values source = t'.repeatAt values source) :
    t.count values = t'.count values := by
  have hperm : (t.sources values).Perm (t'.sources values) := by
    refine (perm_ext_iff_of_nodup (t.nodup_sources values) (t'.nodup_sources values)).mpr ?_
    intro pair
    rw [mem_sources, mem_sources, h pair.1]
  rw [count_eq_sources, count_eq_sources]
  exact (hperm.map Prod.snd).sum_eq

end TableDir

def TableSchema.HasUnique (schema : TableSchema) (primaryIdx : ℕ) : Prop :=
  ∃ index ∈ schema.indexes, index.unique = true ∧ index.fields.take index.size = [primaryIdx]

section Assign

variable {V : Type} [LinearOrder V] {t : TableDir V} {snapshot writer tick : ℕ}
  {row : RowValues V}

theorem mem_live_assignRow {e : RowEntry V} (hsource : e.source ≠ writer) :
    e ∈ (assignRow snapshot writer tick t row).live ↔
      e ∈ t.live ∧ ¬(e.values = row.values ∧ isOld snapshot writer e = true) := by
  unfold assignRow
  by_cases hpos : 0 < row.repeatCount
  · rw [if_pos hpos, TableDir.mem_live_write hpos, ← mem_live_removeOld]
    have hpath : e.path ≠ (row.values, writer) := fun h => hsource (congrArg Prod.snd h)
    constructor
    · intro h
      rcases h with h | h
      · exact h.1
      · exact absurd h.1 hpath
    · intro h
      exact .inl ⟨h, hpath⟩
  · rw [if_neg hpos]
    exact mem_live_removeOld

theorem repeatAt_assignRow_self :
    (assignRow snapshot writer tick t row).repeatAt row.values writer = row.repeatCount := by
  unfold assignRow
  by_cases hpos : 0 < row.repeatCount
  · rw [if_pos hpos, TableDir.repeatAt_writeEntry, if_pos rfl]
  · rw [if_neg hpos, repeatAt_removeOld_self]
    omega

theorem repeatAt_assignRow_of_ne {v : Row V} (hne : v ≠ row.values) (source : ℕ) :
    (assignRow snapshot writer tick t row).repeatAt v source = t.repeatAt v source := by
  unfold assignRow
  by_cases hpos : 0 < row.repeatCount
  · rw [if_pos hpos, TableDir.repeatAt_writeEntry, if_neg fun h => hne (congrArg Prod.fst h),
      repeatAt_removeOld_of_ne hne]
  · rw [if_neg hpos, repeatAt_removeOld_of_ne hne]

def assignRows (snapshot writer : ℕ) : ℕ → TableDir V → List (RowValues V) → TableDir V
  | _, t, [] => t
  | tick, t, row :: rows =>
    assignRows snapshot writer (tick + 1) (assignRow snapshot writer tick t row) rows

theorem mem_live_assignRows {e : RowEntry V} (hsource : e.source ≠ writer) (tick : ℕ)
    (t : TableDir V) (rows : List (RowValues V)) :
    e ∈ (assignRows snapshot writer tick t rows).live ↔
      e ∈ t.live ∧ ∀ row ∈ rows, ¬(e.values = row.values ∧ isOld snapshot writer e = true) := by
  induction rows generalizing tick t with
  | nil => simp [assignRows]
  | cons row rows ih =>
    rw [assignRows, ih, mem_live_assignRow hsource, forall_mem_cons, and_assoc]

theorem repeatAt_assignRows_of_not_mem {v : Row V} (tick : ℕ) (t : TableDir V)
    (rows : List (RowValues V)) (h : ∀ row ∈ rows, row.values ≠ v) (source : ℕ) :
    (assignRows snapshot writer tick t rows).repeatAt v source = t.repeatAt v source := by
  induction rows generalizing tick t with
  | nil => rfl
  | cons row rows ih =>
    rw [assignRows, ih _ _ fun row' hrow' => h row' (mem_cons_of_mem row hrow'),
      repeatAt_assignRow_of_ne (h row mem_cons_self).symm]

end Assign

namespace Lww

variable {V : Type} [LinearOrder V] (w : Lww)

def run : ℕ → TableDir V → List (RowValues V) → TableDir V
  | _, t, [] => t
  | tick, t, row :: rows => run (tick + 1) (w.applyRow tick t row) rows

def Accepted : ℕ → TableDir V → List (RowValues V) → Prop
  | _, _, [] => True
  | tick, t, row :: rows =>
    w.schema.hasConflict (w.applyRow tick t row) = false ∧
      Accepted (tick + 1) (w.applyRow tick t row) rows

def RowsSized (rows : List (RowValues V)) : Prop :=
  ∀ row ∈ rows, row.values.length = w.schema.columns

variable {w} {t : TableDir V} {tick : ℕ} {rows : List (RowValues V)}

theorem sized_run (hrows : w.RowsSized rows) (hsized : t.Sized w.schema.columns) :
    (w.run tick t rows).Sized w.schema.columns := by
  induction rows generalizing tick t with
  | nil => exact hsized
  | cons row rows ih =>
    exact ih (fun x hx => hrows x (mem_cons_of_mem row hx))
      (sized_applyRow hsized (hrows row mem_cons_self))

end Lww

section Delivery

variable {V : Type} [LinearOrder V] {schema : TableSchema} {snapshot writer tick tick' : ℕ}
  {t t' : TableDir V} {rows : List (RowValues V)}

theorem applyRows_cons {row : RowValues V}
    (h : applyRows schema snapshot writer tick t (row :: rows) = .ok (tick', t')) :
    ∃ next, applyRow schema snapshot writer tick t row = .ok next ∧
      schema.hasConflict next = false ∧
        applyRows schema snapshot writer (tick + 1) next rows = .ok (tick', t') := by
  unfold applyRows at h
  cases hrow : applyRow schema snapshot writer tick t row with
  | error message =>
    rw [hrow] at h
    cases h
  | ok next =>
    rw [hrow] at h
    change (if schema.hasConflict next = true then _ else _) = _ at h
    by_cases hconflict : schema.hasConflict next = true
    · rw [if_pos hconflict] at h
      cases h
    · rw [if_neg hconflict] at h
      exact ⟨next, rfl, by simpa using hconflict, h⟩

theorem applyRows_assign (hprimary : schema.primary = none)
    (h : applyRows schema snapshot writer tick t rows = .ok (tick', t')) :
    t' = assignRows snapshot writer tick t rows := by
  induction rows generalizing tick t with
  | nil =>
    cases h
    rfl
  | cons row rows ih =>
    obtain ⟨next, hrow, _, hrest⟩ := applyRows_cons h
    unfold applyRow at hrow
    rw [hprimary] at hrow
    cases hrow
    exact ih hrest

theorem applyRows_lww (w : Lww) (hschema : w.schema = schema) (hsnapshot : w.snapshot = snapshot)
    (hwriter : w.writer = writer) (hprimary : schema.primary = some w.primaryIdx)
    (hindex : schema.indexes.head? = some w.index)
    (h : applyRows schema snapshot writer tick t rows = .ok (tick', t')) :
    t' = w.run tick t rows ∧ w.Accepted tick t rows := by
  induction rows generalizing tick t with
  | nil =>
    cases h
    exact ⟨rfl, trivial⟩
  | cons row rows ih =>
    obtain ⟨next, hrow, hconflict, hrest⟩ := applyRows_cons h
    have hnext : next = w.applyRow tick t row := by
      unfold applyRow at hrow
      rw [hprimary] at hrow
      cases hindexes : schema.indexes with
      | nil =>
        rw [hindexes] at hindex
        cases hindex
      | cons index rest =>
        rw [hindexes] at hindex hrow
        cases hindex
        cases hrow
        unfold Lww.applyRow
        rw [hschema, hsnapshot, hwriter]
    rw [hnext] at hconflict hrest
    rw [← hschema] at hconflict
    exact ⟨(ih hrest).1, hconflict, (ih hrest).2⟩

def TableSchema.WellFormed.lww (hschema : schema.WellFormed) {primaryIdx : ℕ}
    (hprimary : schema.primary = some primaryIdx) {index : IndexDescr}
    (hindex : schema.indexes.head? = some index) (snapshot writer : ℕ) : Lww where
  schema := schema
  primaryIdx := primaryIdx
  index := index
  snapshot := snapshot
  writer := writer
  columns_pos := Nat.zero_lt_of_lt (hschema.primary primaryIdx hprimary).1
  index_perm := hschema.fields index (mem_of_head? hindex)

theorem checkpointAndAck_dir (checkpoint : Option ℕ) (s : ReplicaTable V) :
    (checkpointAndAck checkpoint s).dir = s.dir := by
  unfold checkpointAndAck
  cases checkpoint with
  | none => rfl
  | some val =>
    simp only
    split_ifs <;> rfl

end Delivery

end SkipPlatform
