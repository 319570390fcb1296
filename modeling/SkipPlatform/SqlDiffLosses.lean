import SkipPlatform.SqlDiffRuns

set_option autoImplicit false
set_option linter.unusedSectionVars false

/-! The rows that are lost when a diff is applied. -/
namespace SkipPlatform
open List

section Keys

variable {V : Type} [LinearOrder V] {schema : TableSchema} {primaryIdx : ℕ} {t : TableDir V}

structure Consistent (schema : TableSchema) (t : TableDir V) : Prop where
  once : ∀ index ∈ schema.indexes, index.unique = true → ∀ e ∈ t.live, e.repeatCount = 1
  apart : ∀ index ∈ schema.indexes, index.unique = true → ∀ e ∈ t.live, ∀ e' ∈ t.live,
    TableSchema.project index e.values = TableSchema.project index e'.values → e.path = e'.path

theorem Consistent.of_single {e : RowEntry V} (hlive : t.live = [e]) (honce : e.repeatCount = 1) :
    Consistent schema t where
  once := by
    intro index _ _ e' he'
    rw [hlive] at he'
    rw [mem_singleton.mp he']
    exact honce
  apart := by
    intro index _ _ e' he' e'' he'' _
    rw [hlive] at he' he''
    rw [mem_singleton.mp he', mem_singleton.mp he'']

def TableDir.UniqueKey (t : TableDir V) (primaryIdx : ℕ) : Prop :=
  ∀ e ∈ t.live, e.repeatCount = 1 ∧ ∀ e' ∈ t.live,
    e.values.getD primaryIdx none = e'.values.getD primaryIdx none → e = e'

theorem exists_index (hschema : schema.WellFormed) (hprimary : schema.primary = some primaryIdx) :
    ∃ index, schema.indexes.head? = some index := by
  obtain ⟨_, index, hmem, _⟩ := hschema.primary primaryIdx hprimary
  cases hindexes : schema.indexes with
  | nil =>
    rw [hindexes] at hmem
    exact absurd hmem not_mem_nil
  | cons first rest => exact ⟨first, rfl⟩

theorem Consistent.uniqueKey (hunique : schema.HasUnique primaryIdx) (h : Consistent schema t) :
    t.UniqueKey primaryIdx := by
  obtain ⟨index, hmem, hu, hfields⟩ := hunique
  intro e he
  refine ⟨h.once index hmem hu e he, fun e' he' hkey => ?_⟩
  refine TableDir.eq_of_path_eq (TableDir.mem_live.mp he).1 (TableDir.mem_live.mp he').1 ?_
  refine h.apart index hmem hu e he e' he' ?_
  unfold TableSchema.project
  rw [hfields, map_singleton, map_singleton, hkey]

end Keys

section Assign

variable {V : Type} [LinearOrder V]

/-- How often a row is there from sources that the peer has seen, or as its own. -/
def seenCount (snapshot writer : ℕ) (t : TableDir V) (values : Row V) : ℕ :=
  ((t.live.filter fun e => e.values = values ∧ isOld snapshot writer e = true).map
    (·.repeatCount)).sum

def unseenCount (snapshot writer : ℕ) (t : TableDir V) (values : Row V) : ℕ :=
  ((t.live.filter fun e => e.values = values ∧ ¬isOld snapshot writer e = true).map
    (·.repeatCount)).sum

def lastRepeat (rows : List (RowValues V)) (values : Row V) : ℕ :=
  ((rows.filter (·.values = values)).getLast?.map (·.repeatCount)).getD 0

variable {snapshot writer tick : ℕ} {t t' : TableDir V} {rows : List (RowValues V)} {v : Row V}

theorem sum_filter_split (entries : List (RowEntry V)) (p q : RowEntry V → Prop) [DecidablePred p]
    [DecidablePred q] : ((entries.filter p).map (·.repeatCount)).sum =
      ((entries.filter fun e => p e ∧ q e).map (·.repeatCount)).sum +
        ((entries.filter fun e => p e ∧ ¬q e).map (·.repeatCount)).sum := by
  induction entries with
  | nil => rfl
  | cons e entries ih =>
    by_cases hp : p e
    · by_cases hq : q e
      · simp [hp, hq, ih]
        omega
      · simp [hp, hq, ih]
        omega
    · simp [hp, ih]

theorem count_eq_live (t : TableDir V) (values : Row V) :
    t.count values = ((t.live.filter (·.values = values)).map (·.repeatCount)).sum := by
  rw [TableDir.count_eq_sources]
  unfold TableDir.sources
  rw [map_map]
  rfl

theorem count_eq_seen (snapshot writer : ℕ) (t : TableDir V) (values : Row V) :
    t.count values = seenCount snapshot writer t values + unseenCount snapshot writer t values := by
  rw [count_eq_live]
  exact sum_filter_split t.live (fun e => e.values = values)
    fun e => isOld snapshot writer e = true

theorem lastRepeat_cons (row : RowValues V) (rows : List (RowValues V)) (values : Row V)
    (h : ∃ row ∈ rows, row.values = values) :
    lastRepeat (row :: rows) values = lastRepeat rows values := by
  unfold lastRepeat
  obtain ⟨x, hx, hvalues⟩ := h
  have hmem : x ∈ rows.filter (·.values = values) :=
    mem_filter.mpr ⟨hx, by simpa using hvalues⟩
  by_cases hrow : row.values = values
  · rw [filter_cons_of_pos (by simpa using hrow),
      List.getLast?_cons_of_ne_nil (ne_nil_of_mem hmem)]
  · rw [filter_cons_of_neg (by simpa using hrow)]

theorem lastRepeat_of_not_mem (row : RowValues V) (rows : List (RowValues V))
    (h : ¬∃ x ∈ rows, x.values = row.values) :
    lastRepeat (row :: rows) row.values = row.repeatCount := by
  unfold lastRepeat
  have hnil : rows.filter (·.values = row.values) = [] := by
    rw [filter_eq_nil_iff]
    intro x hx hvalues
    exact h ⟨x, hx, by simpa using hvalues⟩
  rw [filter_cons_of_pos (by simp), hnil]
  rfl

theorem repeatAt_assignRows_last (h : ∃ row ∈ rows, row.values = v) :
    (assignRows snapshot writer tick t rows).repeatAt v writer = lastRepeat rows v := by
  induction rows generalizing tick t with
  | nil =>
    obtain ⟨row, hrow, _⟩ := h
    exact absurd hrow not_mem_nil
  | cons row rows ih =>
    by_cases hrest : ∃ x ∈ rows, x.values = v
    · rw [lastRepeat_cons row rows v hrest]
      exact ih hrest
    · have hv : row.values = v := by
        obtain ⟨x, hx, hvalues⟩ := h
        rcases mem_cons.mp hx with rfl | htail
        · exact hvalues
        · exact absurd ⟨x, htail, hvalues⟩ hrest
      rw [← hv] at hrest ⊢
      rw [lastRepeat_of_not_mem row rows hrest, assignRows,
        repeatAt_assignRows_of_not_mem _ _ _ fun x hx hvalues => hrest ⟨x, hx, hvalues⟩]
      exact repeatAt_assignRow_self

def unseenSources (snapshot writer : ℕ) (t : TableDir V) (values : Row V) : List (ℕ × ℕ) :=
  (t.live.filter fun e => e.values = values ∧ ¬isOld snapshot writer e = true).map
    fun e => (e.source, e.repeatCount)

theorem nodup_unseenSources (snapshot writer : ℕ) (t : TableDir V) (values : Row V) :
    (unseenSources snapshot writer t values).Nodup := by
  refine (t.nodup_sources values).sublist ?_
  unfold unseenSources TableDir.sources
  refine List.Sublist.map _ (monotone_filter_right _ fun e he => ?_)
  simp only [decide_eq_true_eq] at he ⊢
  exact he.1

theorem mem_unseenSources {source n : ℕ} : (source, n) ∈ unseenSources snapshot writer t v ↔
    ∃ e ∈ t.live, e.path = (v, source) ∧ e.repeatCount = n ∧ ¬isOld snapshot writer e = true := by
  unfold unseenSources
  simp only [mem_map, mem_filter, decide_eq_true_eq, Prod.mk.injEq]
  constructor
  · intro h
    obtain ⟨e, ⟨he, hvalues, hold⟩, hsource, hrepeat⟩ := h
    exact ⟨e, he, by rw [RowEntry.path, hvalues, hsource], hrepeat, hold⟩
  · intro h
    obtain ⟨e, he, hpath, hrepeat, hold⟩ := h
    exact ⟨e, ⟨he, congrArg Prod.fst hpath, hold⟩, congrArg Prod.snd hpath, hrepeat⟩

theorem mem_sources_assignRows (h : ∃ row ∈ rows, row.values = v) {source n : ℕ} :
    (source, n) ∈ (assignRows snapshot writer tick t rows).sources v ↔
      (source, n) ∈ unseenSources snapshot writer t v ∨
        0 < n ∧ source = writer ∧ n = lastRepeat rows v := by
  have hwriter : ∀ n, (writer, n) ∉ unseenSources snapshot writer t v := by
    intro n hmem
    obtain ⟨e, _, hpath, _, hold⟩ := mem_unseenSources.mp hmem
    have hsource : e.source = writer := congrArg Prod.snd hpath
    exact hold (by simp [isOld, hsource])
  rw [TableDir.mem_sources]
  by_cases hsource : source = writer
  · subst hsource
    rw [repeatAt_assignRows_last h]
    constructor
    · intro hn
      exact .inr ⟨hn.1, rfl, hn.2.symm⟩
    · intro hn
      rcases hn with hmem | hlast
      · exact absurd hmem (hwriter n)
      · exact ⟨hlast.1, hlast.2.2.symm⟩
  · obtain ⟨row, hrow, hvalues⟩ := h
    constructor
    · intro hn
      have hpos : 0 < (assignRows snapshot writer tick t rows).repeatAt v source := by omega
      obtain ⟨e, he, hpath⟩ := TableDir.repeatAt_pos.mp hpos
      have hrepeat := TableDir.repeatAt_of_mem (TableDir.mem_live.mp he).1
      have hvalue : e.values = v := congrArg Prod.fst hpath
      have hfrom : e.source = source := congrArg Prod.snd hpath
      rw [hvalue, hfrom] at hrepeat
      rw [mem_live_assignRows (by rw [hfrom]; exact hsource)] at he
      refine .inl (mem_unseenSources.mpr ⟨e, he.1, hpath, by omega, fun hold => ?_⟩)
      exact he.2 row hrow ⟨hvalue.trans hvalues.symm, hold⟩
    · intro hn
      rcases hn with hmem | hlast
      · obtain ⟨e, he, hpath, hrepeat, hold⟩ := mem_unseenSources.mp hmem
        have hfrom : e.source = source := congrArg Prod.snd hpath
        have hlive : e ∈ (assignRows snapshot writer tick t rows).live := by
          rw [mem_live_assignRows (by rw [hfrom]; exact hsource)]
          exact ⟨he, fun _ _ hboth => hold hboth.2⟩
        have hat := TableDir.repeatAt_of_mem (TableDir.mem_live.mp hlive).1
        rw [show e.values = v from congrArg Prod.fst hpath, hfrom] at hat
        have hpos := (TableDir.mem_live.mp he).2
        exact ⟨by omega, by omega⟩
      · exact absurd hlast.2.1 hsource

theorem count_assignRows (h : ∃ row ∈ rows, row.values = v) :
    (assignRows snapshot writer tick t rows).count v =
      unseenCount snapshot writer t v + lastRepeat rows v := by
  have hunseen : unseenCount snapshot writer t v =
      ((unseenSources snapshot writer t v).map Prod.snd).sum := by
    unfold unseenCount unseenSources
    rw [map_map]
    rfl
  rw [TableDir.count_eq_sources, hunseen]
  by_cases hlast : 0 < lastRepeat rows v
  · have hperm : ((assignRows snapshot writer tick t rows).sources v).Perm
        ((writer, lastRepeat rows v) :: unseenSources snapshot writer t v) := by
      refine (perm_ext_iff_of_nodup (TableDir.nodup_sources _ _) ?_).mpr ?_
      · refine nodup_cons.mpr ⟨fun hmem => ?_, nodup_unseenSources _ _ _ _⟩
        obtain ⟨e, _, hpath, _, hold⟩ := mem_unseenSources.mp hmem
        have hsource : e.source = writer := congrArg Prod.snd hpath
        exact hold (by simp [isOld, hsource])
      · intro pair
        rw [mem_sources_assignRows h, mem_cons, Prod.ext_iff]
        constructor
        · intro hpair
          rcases hpair with hmem | hown
          · exact .inr hmem
          · exact .inl hown.2
        · intro hpair
          rcases hpair with hown | hmem
          · have hsecond : pair.2 = lastRepeat rows v := hown.2
            exact .inr ⟨by omega, hown⟩
          · exact .inl hmem
    rw [(hperm.map Prod.snd).sum_eq, map_cons, sum_cons, Nat.add_comm]
  · have hperm : ((assignRows snapshot writer tick t rows).sources v).Perm
        (unseenSources snapshot writer t v) := by
      refine (perm_ext_iff_of_nodup (TableDir.nodup_sources _ _)
        (nodup_unseenSources _ _ _ _)).mpr fun pair => ?_
      rw [mem_sources_assignRows h]
      refine ⟨fun hpair => ?_, .inl⟩
      rcases hpair with hmem | hown
      · exact hmem
      · omega
    rw [(hperm.map Prod.snd).sum_eq]
    omega

theorem count_assignRows_lt : (assignRows snapshot writer tick t rows).count v < t.count v ↔
    (∃ row ∈ rows, row.values = v) ∧ lastRepeat rows v < seenCount snapshot writer t v := by
  by_cases h : ∃ row ∈ rows, row.values = v
  · rw [count_assignRows h, count_eq_seen snapshot writer t v]
    constructor
    · intro hlt
      exact ⟨h, by omega⟩
    · intro hlt
      omega
  · have hsame : (assignRows snapshot writer tick t rows).count v = t.count v :=
      TableDir.count_congr fun source => repeatAt_assignRows_of_not_mem _ _ _
        (fun row hrow hvalues => h ⟨row, hrow, hvalues⟩) source
    rw [hsame]
    exact ⟨fun hlt => absurd hlt (lt_irrefl _), fun hboth => absurd hboth.1 h⟩

end Assign

def TableDir.Present {V : Type} [DecidableEq V] (t : TableDir V) (values : Row V) : Prop :=
  ∃ e ∈ t.live, e.values = values

namespace Lww

variable {V : Type} [LinearOrder V] (w : Lww)

/-- A row of the diff with the key is written over the rows that were there at first. -/
def Opened (t : TableDir V) (rows : List (RowValues V)) (key : Option V) : Prop :=
  ∃ x ∈ rows, 1 ≤ x.repeatCount ∧ w.key x.values = key ∧ ¬w.Blocked t x

variable {w} {t : TableDir V} {tick : ℕ} {row x : RowValues V} {rows : List (RowValues V)}
  {v : Row V}

theorem blocked_congr {t' : TableDir V}
    (h : ∀ e : RowEntry V, e.source ≠ w.writer → isOld w.snapshot w.writer e = false →
      w.searched (w.key x.values) e.values → (e ∈ t.live ↔ e ∈ t'.live)) :
    w.Blocked t x ↔ w.Blocked t' x := by
  unfold Blocked
  constructor
  · intro hblocked
    obtain ⟨e, he, hsearched, hloser⟩ := hblocked
    have hother := w.source_ne_of_not_loser hloser
    exact ⟨e, (h e hother.1 hother.2 hsearched).mp he, hsearched, hloser⟩
  · intro hblocked
    obtain ⟨e, he, hsearched, hloser⟩ := hblocked
    have hother := w.source_ne_of_not_loser hloser
    exact ⟨e, (h e hother.1 hother.2 hsearched).mpr he, hsearched, hloser⟩

theorem blocked_applyRow (hsized : t.Sized w.schema.columns)
    (h : ¬(1 ≤ row.repeatCount ∧ w.key row.values = w.key x.values ∧ ¬w.Blocked t row)) :
    w.Blocked (w.applyRow tick t row) x ↔ w.Blocked t x := by
  refine blocked_congr fun e hsource hold hsearched => ?_
  by_cases hrepeat : row.repeatCount < 1
  · rw [w.applyRow_of_delete hrepeat, mem_live_removeOld, hold]
    exact and_iff_left fun hboth => absurd hboth.2 (by decide)
  · by_cases hblocked : w.Blocked t row
    · rw [applyRow_of_blocked hsized (by omega) hblocked]
    · rw [mem_live_insert hsized (by omega) hblocked hsource]
      refine and_iff_left fun hfound => h ⟨by omega, ?_, hblocked⟩
      exact searched_unique hfound hsearched

theorem not_blocked_applyRow (hsized : t.Sized w.schema.columns) (hrepeat : 1 ≤ row.repeatCount)
    (hblocked : ¬w.Blocked t row) (hkey : w.key row.values = w.key x.values) :
    ¬w.Blocked (w.applyRow tick t row) x := by
  intro h
  obtain ⟨e, he, hsearched, hloser⟩ := h
  have hother := w.source_ne_of_not_loser hloser
  rw [mem_live_insert hsized hrepeat hblocked hother.1, hkey] at he
  exact he.2 hsearched

theorem blocked_run (hrows : w.RowsSized rows) (hsized : t.Sized w.schema.columns) :
    w.Blocked (w.run tick t rows) x ↔ w.Blocked t x ∧ ¬w.Opened t rows (w.key x.values) := by
  induction rows generalizing tick t with
  | nil =>
    refine (and_iff_left fun h => ?_).symm
    obtain ⟨y, hy, _⟩ := h
    exact absurd hy not_mem_nil
  | cons row rows ih =>
    have hnext : (w.applyRow tick t row).Sized w.schema.columns :=
      sized_applyRow hsized (hrows row mem_cons_self)
    rw [run, ih (fun y hy => hrows y (mem_cons_of_mem row hy)) hnext]
    by_cases hopen : 1 ≤ row.repeatCount ∧ w.key row.values = w.key x.values ∧ ¬w.Blocked t row
    · constructor
      · intro h
        exact absurd h.1 (not_blocked_applyRow hsized hopen.1 hopen.2.2 hopen.2.1)
      · intro h
        exact absurd ⟨row, mem_cons_self, hopen⟩ h.2
    · rw [blocked_applyRow hsized hopen]
      refine and_congr_right fun _ => not_congr ?_
      have hsame : ∀ y ∈ rows, w.key y.values = w.key x.values →
          (w.Blocked (w.applyRow tick t row) y ↔ w.Blocked t y) := by
        intro y _ hkey
        refine blocked_applyRow hsized fun h => hopen ⟨h.1, h.2.1.trans hkey, h.2.2⟩
      constructor
      · intro h
        obtain ⟨y, hy, hrepeat, hkey, hblocked⟩ := h
        rw [hsame y hy hkey] at hblocked
        exact ⟨y, mem_cons_of_mem row hy, hrepeat, hkey, hblocked⟩
      · intro h
        obtain ⟨y, hy, hrepeat, hkey, hblocked⟩ := h
        rcases mem_cons.mp hy with rfl | htail
        · exact absurd ⟨hrepeat, hkey, hblocked⟩ hopen
        · rw [← hsame y htail hkey] at hblocked
          exact ⟨y, htail, hrepeat, hkey, hblocked⟩

theorem run_concat (tick : ℕ) (t : TableDir V) (rows : List (RowValues V)) (y : RowValues V) :
    w.run tick t (rows ++ [y]) = w.applyRow (tick + rows.length) (w.run tick t rows) y := by
  induction rows generalizing tick t with
  | nil => rfl
  | cons row rows ih =>
    rw [cons_append, run, ih, run, length_cons, Nat.add_right_comm, Nat.add_assoc]

theorem present_delete (hrepeat : row.repeatCount < 1) (hv : row.values ≠ v) :
    (w.applyRow tick t row).Present v ↔ t.Present v := by
  unfold TableDir.Present
  rw [w.applyRow_of_delete hrepeat]
  constructor
  · intro h
    obtain ⟨e, he, hvalues⟩ := h
    exact ⟨e, (mem_live_removeOld.mp he).1, hvalues⟩
  · intro h
    obtain ⟨e, he, hvalues⟩ := h
    refine ⟨e, mem_live_removeOld.mpr ⟨he, fun hboth => hv ?_⟩, hvalues⟩
    exact hboth.1.symm.trans hvalues

theorem present_insert (hsized : t.Sized w.schema.columns) (hrepeat : 1 ≤ row.repeatCount)
    (hblocked : ¬w.Blocked t row) : (w.applyRow tick t row).Present v ↔
      row.values = v ∨ t.Present v ∧ ¬w.searched (w.key row.values) v := by
  unfold TableDir.Present
  constructor
  · intro h
    obtain ⟨e, he, hvalues⟩ := h
    rw [applyRow_of_not_blocked hsized hrepeat hblocked, TableDir.mem_live_write hrepeat,
      mem_live_cleared hsized] at he
    rcases he with hkept | hnew
    · rw [← hvalues]
      exact .inr ⟨⟨e, hkept.1.1, rfl⟩, hkept.1.2⟩
    · exact .inl ((congrArg Prod.fst hnew.1).symm.trans hvalues)
  · intro h
    by_cases hv : row.values = v
    · have hpos : 0 < (w.applyRow tick t row).repeatAt row.values w.writer := by
        rw [repeatAt_insert hsized hrepeat hblocked]
        omega
      obtain ⟨e, he, hpath⟩ := TableDir.repeatAt_pos.mp hpos
      exact ⟨e, he, (congrArg Prod.fst hpath).trans hv⟩
    · rcases h with h | h
      · exact absurd h hv
      · obtain ⟨⟨e, he, hvalues⟩, hsearched⟩ := h
        refine ⟨e, ?_, hvalues⟩
        rw [applyRow_of_not_blocked hsized hrepeat hblocked, TableDir.mem_live_write hrepeat,
          mem_live_cleared hsized, hvalues]
        exact .inl ⟨⟨he, hsearched⟩, fun hpath => hv
          ((congrArg Prod.fst hpath).symm.trans hvalues)⟩

variable (w)

/-- A row of the diff that is found by its key is written over the row. -/
def Overwritten (t : TableDir V) (rows : List (RowValues V)) (v : Row V) : Prop :=
  ∃ x ∈ rows, 1 ≤ x.repeatCount ∧ ¬w.Blocked t x ∧ w.searched (w.key x.values) v

/-- The diff writes the row itself, and nothing else over it afterwards. -/
def Rewritten (t : TableDir V) (rows : List (RowValues V)) (v : Row V) : Prop :=
  ∃ before x after, rows = before ++ x :: after ∧ 1 ≤ x.repeatCount ∧ x.values = v ∧
    w.Opened t (before ++ [x]) (w.key v) ∧
      ∀ y ∈ after, 1 ≤ y.repeatCount → w.searched (w.key y.values) v → y.values = v

variable {w} {y : RowValues V}

theorem not_blocked_run (hrows : w.RowsSized rows) (hsized : t.Sized w.schema.columns)
    (hrepeat : 1 ≤ y.repeatCount) :
    ¬w.Blocked (w.run tick t rows) y ↔ w.Opened t (rows ++ [y]) (w.key y.values) := by
  rw [blocked_run hrows hsized]
  constructor
  · intro h
    by_cases hblocked : w.Blocked t y
    · have hopened : w.Opened t rows (w.key y.values) := by
        by_contra hnot
        exact h ⟨hblocked, hnot⟩
      obtain ⟨x, hx, hopen⟩ := hopened
      exact ⟨x, mem_append_left _ hx, hopen⟩
    · exact ⟨y, by simp, hrepeat, rfl, hblocked⟩
  · intro h hboth
    obtain ⟨x, hx, hpos, hkey, hopen⟩ := h
    rcases mem_append.mp hx with hx | hx
    · exact hboth.2 ⟨x, hx, hpos, hkey, hopen⟩
    · rw [mem_singleton.mp hx] at hopen
      exact hopen hboth.1

theorem overwritten_concat : w.Overwritten t (rows ++ [y]) v ↔ w.Overwritten t rows v ∨
    1 ≤ y.repeatCount ∧ ¬w.Blocked t y ∧ w.searched (w.key y.values) v := by
  unfold Overwritten
  simp only [mem_append, mem_singleton]
  constructor
  · intro h
    obtain ⟨x, hx, hrest⟩ := h
    rcases hx with hx | rfl
    · exact .inl ⟨x, hx, hrest⟩
    · exact .inr hrest
  · intro h
    rcases h with h | h
    · obtain ⟨x, hx, hrest⟩ := h
      exact ⟨x, .inl hx, hrest⟩
    · exact ⟨y, .inr rfl, h⟩

theorem rewritten_concat : w.Rewritten t (rows ++ [y]) v ↔
    (w.Rewritten t rows v ∧ (1 ≤ y.repeatCount → w.searched (w.key y.values) v → y.values = v)) ∨
      (1 ≤ y.repeatCount ∧ y.values = v ∧ w.Opened t (rows ++ [y]) (w.key v)) := by
  constructor
  · intro h
    obtain ⟨before, x, after, hsplit, hrepeat, hx, hopened, hafter⟩ := h
    rcases eq_nil_or_concat after with rfl | ⟨rest, last, rfl⟩
    · have hsame := append_inj' hsplit rfl
      have hlast : y = x := singleton_inj.mp hsame.2
      rw [hlast, hsame.1]
      exact .inr ⟨hrepeat, hx, hopened⟩
    · have hsplit' : rows ++ [y] = (before ++ x :: rest) ++ [last] := by simpa using hsplit
      have hsame := append_inj' hsplit' rfl
      have hlast : y = last := singleton_inj.mp hsame.2
      refine .inl ⟨⟨before, x, rest, hsame.1, hrepeat, hx, hopened, fun z hz => ?_⟩, ?_⟩
      · exact hafter z (by simp [hz])
      · rw [hlast]
        exact hafter last (by simp)
  · intro h
    rcases h with h | h
    · obtain ⟨⟨before, x, after, hsplit, hrepeat, hx, hopened, hafter⟩, hlast⟩ := h
      refine ⟨before, x, after ++ [y], by rw [hsplit]; simp, hrepeat, hx, hopened, fun z hz => ?_⟩
      rcases mem_append.mp hz with hz | hz
      · exact hafter z hz
      · rw [mem_singleton.mp hz]
        exact hlast
    · refine ⟨rows, y, [], rfl, h.1, h.2.1, h.2.2, fun z hz => ?_⟩
      exact absurd hz not_mem_nil

theorem rewritten_of_closed (hpos : 1 ≤ y.repeatCount)
    (hclosed : ¬w.Opened t (rows ++ [y]) (w.key y.values)) :
    (w.Overwritten t rows v → w.Rewritten t rows v) ↔
      (w.Overwritten t rows v ∨
          1 ≤ y.repeatCount ∧ ¬w.Blocked t y ∧ w.searched (w.key y.values) v →
        (w.Rewritten t rows v ∧
            (1 ≤ y.repeatCount → w.searched (w.key y.values) v → y.values = v)) ∨
          1 ≤ y.repeatCount ∧ y.values = v ∧ w.Opened t (rows ++ [y]) (w.key v)) := by
  have hblocked : ¬(1 ≤ y.repeatCount ∧ ¬w.Blocked t y ∧ w.searched (w.key y.values) v) :=
    fun h => hclosed ⟨y, by simp, hpos, rfl, h.2.1⟩
  have hself : ¬(1 ≤ y.repeatCount ∧ y.values = v ∧ w.Opened t (rows ++ [y]) (w.key v)) := by
    intro h
    rw [← h.2.1] at h
    exact hclosed h.2.2
  rw [or_iff_left hblocked, or_iff_left hself]
  refine imp_congr_right fun hover => (and_iff_left fun _ hsearched => ?_).symm
  obtain ⟨x, hx, hrepeat, hopen, hfound⟩ := hover
  refine absurd ⟨x, mem_append_left _ hx, hrepeat, ?_, hopen⟩ hclosed
  exact searched_unique hfound hsearched

theorem rewritten_of_opened (hpos : 1 ≤ y.repeatCount)
    (hopened : w.Opened t (rows ++ [y]) (w.key y.values)) :
    (y.values = v ∨ (w.Overwritten t rows v → w.Rewritten t rows v) ∧
        ¬w.searched (w.key y.values) v) ↔
      (w.Overwritten t rows v ∨
          1 ≤ y.repeatCount ∧ ¬w.Blocked t y ∧ w.searched (w.key y.values) v →
        (w.Rewritten t rows v ∧
            (1 ≤ y.repeatCount → w.searched (w.key y.values) v → y.values = v)) ∨
          1 ≤ y.repeatCount ∧ y.values = v ∧ w.Opened t (rows ++ [y]) (w.key v)) := by
  by_cases hv : y.values = v
  · refine ⟨fun _ _ => .inr ⟨hpos, hv, ?_⟩, fun _ => .inl hv⟩
    rw [← hv]
    exact hopened
  · by_cases hsearched : w.searched (w.key y.values) v
    · constructor
      · intro h
        rcases h with h | h
        · exact absurd h hv
        · exact absurd hsearched h.2
      · intro h
        obtain ⟨x, hx, hrepeat, hkey, hopen⟩ := hopened
        have hover : w.Overwritten t rows v ∨
            1 ≤ y.repeatCount ∧ ¬w.Blocked t y ∧ w.searched (w.key y.values) v := by
          rcases mem_append.mp hx with hx | hx
          · left
            refine ⟨x, hx, hrepeat, hopen, ?_⟩
            rw [hkey]
            exact hsearched
          · rw [mem_singleton.mp hx] at hopen
            exact .inr ⟨hpos, hopen, hsearched⟩
        rcases h hover with hkept | hself
        · exact absurd (hkept.2 hpos hsearched) hv
        · exact absurd hself.2.1 hv
    · simp only [hv, hsearched, false_or, not_false_eq_true, and_true, and_false, or_false,
        false_imp_iff, imp_true_iff, false_and]

theorem present_run (hrows : w.RowsSized rows) (hsized : t.Sized w.schema.columns)
    (hpresent : t.Present v) (hdelete : ∀ x ∈ rows, x.values = v → 1 ≤ x.repeatCount) :
    (w.run tick t rows).Present v ↔ (w.Overwritten t rows v → w.Rewritten t rows v) := by
  induction rows using List.reverseRecOn with
  | nil =>
    refine ⟨fun _ h => ?_, fun _ => hpresent⟩
    obtain ⟨x, hx, _⟩ := h
    exact absurd hx not_mem_nil
  | append_singleton rows y ih =>
    have hrest : w.RowsSized rows := fun x hx => hrows x (mem_append_left _ hx)
    have hsized' : (w.run tick t rows).Sized w.schema.columns := sized_run hrest hsized
    have hrun := ih hrest fun x hx => hdelete x (mem_append_left _ hx)
    have hlast := hdelete y (by simp)
    rw [run_concat, overwritten_concat, rewritten_concat]
    by_cases hrepeat : y.repeatCount < 1
    · have hv : y.values ≠ v := fun heq => absurd (hlast heq) (by omega)
      rw [present_delete hrepeat hv, hrun]
      have hnot : ¬1 ≤ y.repeatCount := by omega
      simp only [hnot, false_and, or_false, false_imp_iff, and_true]
    · have hpos : 1 ≤ y.repeatCount := by omega
      have hopen : ¬w.Blocked (w.run tick t rows) y ↔
          w.Opened t (rows ++ [y]) (w.key y.values) := not_blocked_run hrest hsized hpos
      by_cases hblocked : w.Blocked (w.run tick t rows) y
      · have hclosed : ¬w.Opened t (rows ++ [y]) (w.key y.values) := fun h => hopen.mpr h hblocked
        rw [applyRow_of_blocked hsized' hpos hblocked, hrun]
        exact rewritten_of_closed hpos hclosed
      · rw [present_insert hsized' hpos hblocked, hrun]
        exact rewritten_of_opened hpos (hopen.mp hblocked)

end Lww

section Count

variable {V : Type} [LinearOrder V] {t : TableDir V} {v : Row V}

theorem mem_sources_iff {pair : ℕ × ℕ} : pair ∈ t.sources v ↔
    ∃ e ∈ t.live, e.values = v ∧ (e.source, e.repeatCount) = pair := by
  unfold TableDir.sources
  simp only [mem_map, mem_filter, decide_eq_true_eq, and_assoc]

theorem present_iff_count : t.Present v ↔ 0 < t.count v := by
  rw [TableDir.count_eq_sources, List.sum_pos_iff_exists_pos_nat]
  constructor
  · intro h
    obtain ⟨e, he, hvalues⟩ := h
    refine ⟨e.repeatCount, mem_map.mpr ⟨(e.source, e.repeatCount), ?_, rfl⟩, ?_⟩
    · exact mem_sources_iff.mpr ⟨e, he, hvalues, rfl⟩
    · exact (TableDir.mem_live.mp he).2
  · intro h
    obtain ⟨n, hn, _⟩ := h
    obtain ⟨pair, hpair, _⟩ := mem_map.mp hn
    obtain ⟨e, he, hvalues, _⟩ := mem_sources_iff.mp hpair
    exact ⟨e, he, hvalues⟩

theorem TableDir.UniqueKey.count_le {primaryIdx : ℕ} (h : t.UniqueKey primaryIdx) :
    t.count v ≤ 1 := by
  rw [TableDir.count_eq_sources]
  have hnodup := t.nodup_sources v
  have hall : ∀ pair ∈ t.sources v, ∀ pair' ∈ t.sources v, pair = pair' ∧ pair.2 = 1 := by
    intro pair hpair pair' hpair'
    obtain ⟨e, he, hvalues, rfl⟩ := mem_sources_iff.mp hpair
    obtain ⟨e', he', hvalues', rfl⟩ := mem_sources_iff.mp hpair'
    have hsame := (h e he).2 e' he' (by rw [hvalues, hvalues'])
    exact ⟨by rw [hsame], (h e he).1⟩
  cases hsources : t.sources v with
  | nil => simp
  | cons pair rest =>
    rw [hsources] at hall hnodup
    cases rest with
    | nil =>
      have hone := (hall pair mem_cons_self pair mem_cons_self).2
      simp [hone]
    | cons pair' rest =>
      have hsame := (hall pair mem_cons_self pair' (by simp)).1
      rw [hsame] at hnodup
      simp at hnodup

end Count

section Losses

variable {V : Type} [LinearOrder V]

def Loses (t t' : TableDir V) (v : Row V) : Prop := t'.count v < t.count v

instance (t t' : TableDir V) (v : Row V) : Decidable (Loses t t' v) :=
  inferInstanceAs (Decidable (t'.count v < t.count v))

/-- The diff leaves the row as often as it was: it is there as often as the peer knew it, or it is
not written over. -/
def Spared (schema : TableSchema) (hschema : schema.WellFormed) (snapshot writer : ℕ)
    (t : TableDir V) (rows : List (RowValues V)) (v : Row V) : Prop :=
  match hprimary : schema.primary with
  | none => (∃ row ∈ rows, row.values = v) → seenCount snapshot writer t v ≤ lastRepeat rows v
  | some _ => ∀ index, ∀ hindex : schema.indexes.head? = some index, t.Present v →
    (hschema.lww hprimary hindex snapshot writer).Overwritten t rows v →
      (hschema.lww hprimary hindex snapshot writer).Rewritten t rows v

variable {schema : TableSchema} {snapshot writer tick tick' : ℕ} {t t' : TableDir V}
  {rows : List (RowValues V)} {v : Row V}

/-- A row that the diff does not delete is there less often afterwards exactly when it is not
spared. -/
theorem loses_iff_not_spared (hschema : schema.WellFormed) (hsized : t.Sized schema.columns)
    (hconsistent : Consistent schema t)
    (hrows : ∀ row ∈ rows, row.values.length = schema.columns)
    (h : applyRows schema snapshot writer tick t rows = .ok (tick', t'))
    (hdelete : ∀ x ∈ rows, x.values = v → 1 ≤ x.repeatCount) :
    Loses t t' v ↔ ¬Spared schema hschema snapshot writer t rows v := by
  unfold Loses Spared
  split
  · next hprimary =>
    rw [applyRows_assign hprimary h, count_assignRows_lt, Classical.not_imp, not_le]
  · next primaryIdx hprimary =>
    obtain ⟨index, hindex⟩ := exists_index hschema hprimary
    have hunique := (hschema.primary primaryIdx hprimary).2
    have hrun := (applyRows_lww (hschema.lww hprimary hindex snapshot writer) rfl rfl rfl hprimary
      hindex h).1
    have hle : t.count v ≤ 1 := (hconsistent.uniqueKey hunique).count_le
    have hpresent' : t'.Present v ↔ 0 < t'.count v := present_iff_count
    by_cases hpresent : t.Present v
    · have hpos := present_iff_count.mp hpresent
      have hkept : ((hschema.lww hprimary hindex snapshot writer).run tick t rows).Present v ↔
          ((hschema.lww hprimary hindex snapshot writer).Overwritten t rows v →
            (hschema.lww hprimary hindex snapshot writer).Rewritten t rows v) :=
        Lww.present_run hrows hsized hpresent hdelete
      rw [← hrun, hpresent'] at hkept
      have hall : (∀ index, ∀ hindex : schema.indexes.head? = some index, t.Present v →
          (hschema.lww hprimary hindex snapshot writer).Overwritten t rows v →
            (hschema.lww hprimary hindex snapshot writer).Rewritten t rows v) ↔
          0 < t'.count v := by
        rw [hkept]
        constructor
        · intro hspared
          exact hspared index hindex hpresent
        · intro hspared other hother _
          cases hindex.symm.trans hother
          exact hspared
      rw [hall]
      omega
    · have hzero : ¬0 < t.count v := fun hpos => hpresent (present_iff_count.mpr hpos)
      constructor
      · intro hlt
        omega
      · intro hnot
        exact absurd (fun _ _ hthere => absurd hthere hpresent) hnot

end Losses

end SkipPlatform
