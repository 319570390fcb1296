import SkipPlatform.SqlReplace

set_option autoImplicit false
set_option linter.unusedSectionVars false

/-! The loop of `INSERT OR REPLACE` ends with the rows of the statement when no two of them have
the same values in the columns of a unique index. Otherwise it goes round for ever, unless all of
them are one row that the table has. -/
namespace SkipPlatform.SqlUnique
open List EagerDir
open StoreSourceMap (Source)

variable {D K V : Type} [LinearOrder D] [StoreKey K] [DecidableEq V]

def Keyed (keys : TableKeys K V) (table : EagerDir D K (RowValues V)) : Prop :=
  ∀ source key, ∀ row ∈ table.getArraySourceKey source key, keys.rowKey row.values = key

structure Ready (keys : TableKeys K V) (ctx : Ctx D K V) : Prop where
  writable : ctx.table.dir.Writable ctx.tick
  clean : ctx.table.dirty = .empty
  reducer : ctx.table.dir.reducer = none
  plain : ctx.sourceOverride = none
  keyed : Keyed keys ctx.table.dir
  checks : ∀ c ∈ ctx.checks, c.Exact ctx.tick ctx.table.dir

structure Wrote (keys : TableKeys K V) (ctx ctx' : Ctx D K V) : Prop where
  written : ctx.Written ctx'
  reducer : ctx'.table.dir.reducer = none
  plain : ctx'.sourceOverride = none
  keyed : Keyed keys ctx'.table.dir

structure Fresh (table : EagerDir D K (RowValues V)) (rows : List (RowValues V × Source D K)) :
    Prop where
  nodup : (rows.map Prod.snd).Nodup
  unused : ∀ r ∈ rows, ∀ key, table.getArraySourceKey r.2 key = []

variable {keys : TableKeys K V}

theorem Ready.wrote {ctx : Ctx D K V} (h : Ready keys ctx) : Wrote keys ctx ctx :=
  ⟨⟨rfl, rfl, rfl, Tracked.Follows.refl h.writable⟩, h.reducer, h.plain, h.keyed⟩

section Writes

variable {ctx ctx' : Ctx D K V}

theorem Wrote.writable (h : Wrote keys ctx ctx') : ctx'.table.dir.Writable ctx'.tick := by
  rw [h.written.tick]
  exact h.written.table.writable

theorem Wrote.get_writeEntry (h : Wrote keys ctx ctx') (e : Ctx.Edit D K V) (s : Source D K)
    (k : K) : (ctx'.writeEntry e).table.dir.getArraySourceKey s k =
      if k = e.1 ∧ s = e.2.1 then e.2.2.2 else ctx'.table.dir.getArraySourceKey s k := by
  unfold Ctx.writeEntry
  simp only
  rw [Tracked.write_dir, h.plain]
  exact getArraySourceKey_writeEntry h.writable.1.sound rfl _ _ _ _ _ _

theorem Wrote.writeEntry (h : Wrote keys ctx ctx') {e : Ctx.Edit D K V}
    (he : ∀ row ∈ e.2.2.2, keys.rowKey row.values = e.1) :
    Wrote keys ctx (ctx'.writeEntry e) := by
  refine ⟨h.written.writeEntry e, ?_, h.plain, ?_⟩
  · unfold Ctx.writeEntry
    simp only
    rw [Tracked.write_dir]
    exact reducer_writeEntry h.reducer _ _ _ _ _
  · intro source key row hrow
    rw [h.get_writeEntry] at hrow
    by_cases hk : key = e.1 ∧ source = e.2.1
    · rw [if_pos hk] at hrow
      rw [hk.1]
      exact he row hrow
    · rw [if_neg hk] at hrow
      exact h.keyed source key row hrow

theorem Wrote.live_writeEntry (h : Wrote keys ctx ctx') {e : Ctx.Edit D K V}
    (he : ∀ row ∈ e.2.2.2, keys.rowKey row.values = e.1) :
    ((ctx'.writeEntry e).table.dir.live : Multiset (RowValues V)) +
      (ctx'.table.dir.getArraySourceKey e.2.1 e.1 : Multiset (RowValues V)) =
    (ctx'.table.dir.live : Multiset (RowValues V)) + (e.2.2.2 : Multiset (RowValues V)) :=
  live_write h.writable.1.sound (h.writeEntry he).writable.1.sound h.reducer (h.writeEntry he).reducer
    (h.get_writeEntry e)

theorem Wrote.insertTable {rows : List (RowValues V × Source D K)} (h : Wrote keys ctx ctx')
    (hfresh : Fresh ctx'.table.dir rows) :
    Wrote keys ctx (SqlUnique.insertTable keys ctx' rows) ∧
      (SqlUnique.insertTable keys ctx' rows).table.dir.live.Perm
        (ctx'.table.dir.live ++ rows.map Prod.fst) := by
  induction rows generalizing ctx' with
  | nil =>
    refine ⟨h, ?_⟩
    rw [map_nil, append_nil]
    exact List.Perm.refl _
  | cons r rest ih =>
    set e : Ctx.Edit D K V := (keys.rowKey r.1.values, r.2, r.2, [r.1]) with he
    have hkeyed : ∀ row ∈ e.2.2.2, keys.rowKey row.values = e.1 := by
      intro row hrow
      rw [mem_singleton.mp hrow]
    have hnodup := nodup_cons.mp hfresh.nodup
    have hstep : Fresh (ctx'.writeEntry e).table.dir rest := by
      refine ⟨hnodup.2, ?_⟩
      intro r' hr' key
      have hne : r'.2 ≠ r.2 := fun heq => hnodup.1 (heq ▸ mem_map_of_mem hr')
      rw [h.get_writeEntry, if_neg fun hand => hne hand.2]
      exact hfresh.unused r' (mem_cons_of_mem r hr') key
    have hrest := ih (h.writeEntry hkeyed) hstep
    refine ⟨hrest.1, hrest.2.trans ?_⟩
    have hlive := h.live_writeEntry hkeyed
    have hnone : ctx'.table.dir.getArraySourceKey e.2.1 e.1 = [] :=
      hfresh.unused r mem_cons_self _
    rw [hnone] at hlive
    have hone : (ctx'.writeEntry e).table.dir.live.Perm (ctx'.table.dir.live ++ [r.1]) := by
      rw [Multiset.coe_nil, add_zero, Multiset.coe_add] at hlive
      exact Multiset.coe_eq_coe.mp hlive
    have happend := hone.append_right (rest.map Prod.fst)
    rw [append_assoc] at happend
    exact happend

theorem Wrote.removals {edits : List (Ctx.Edit D K V)} (h : Wrote keys ctx ctx')
    (hnil : ∀ e ∈ edits, e.2.2.2 = []) :
    Wrote keys ctx (ctx'.writeMany edits) ∧
      ∀ s k, (ctx'.writeMany edits).table.dir.getArraySourceKey s k =
        if ∃ e ∈ edits, e.1 = k ∧ e.2.1 = s then [] else ctx'.table.dir.getArraySourceKey s k := by
  induction edits generalizing ctx' with
  | nil => exact ⟨h, fun s k => by simp [Ctx.writeMany]⟩
  | cons e rest ih =>
    have he : e.2.2.2 = [] := hnil e mem_cons_self
    have hstep : Wrote keys ctx (ctx'.writeEntry e) := by
      apply h.writeEntry
      rw [he]
      exact fun row hrow => absurd hrow (by simp)
    have hrest := ih hstep fun e' he' => hnil e' (mem_cons_of_mem e he')
    refine ⟨hrest.1, ?_⟩
    intro s k
    change ((ctx'.writeEntry e).writeMany rest).table.dir.getArraySourceKey s k = _
    rw [hrest.2, h.get_writeEntry, he]
    simp only [mem_cons, exists_eq_or_imp]
    by_cases hr : ∃ e' ∈ rest, e'.1 = k ∧ e'.2.1 = s
    · rw [if_pos hr, if_pos (.inr hr)]
    · rw [if_neg hr]
      by_cases hk : k = e.1 ∧ s = e.2.1
      · rw [if_pos hk, if_pos (.inl ⟨hk.1.symm, hk.2.symm⟩)]
      · rw [if_neg hk, if_neg]
        intro hor
        cases hor with
        | inl hand => exact hk ⟨hand.1.symm, hand.2.symm⟩
        | inr hex => exact hr hex

end Writes

theorem Ready.removeKeys {ctx : Ctx D K V} (h : Ready keys ctx) (writer : K → Source D K)
    (rows : List (RowValues V)) :
    let removed := ctx.writeMany
      (rows.flatMap fun row => removeKey writer ctx.table.dir (keys.rowKey row.values))
    Wrote keys ctx removed ∧
      (∀ s k, removed.table.dir.getArraySourceKey s k = [] ∨
        removed.table.dir.getArraySourceKey s k = ctx.table.dir.getArraySourceKey s k) ∧
      removed.table.dir.live.Perm (ctx.table.dir.live.filter fun row =>
        keys.rowKey row.values ∉ rows.map fun r => keys.rowKey r.values) := by
  intro removed
  set edits := rows.flatMap fun row => removeKey writer ctx.table.dir (keys.rowKey row.values)
  have hmem : ∀ e ∈ edits, e.2.2.2 = [] ∧ e.1 ∈ rows.map fun r => keys.rowKey r.values := by
    intro e he
    obtain ⟨row, hrow, hin⟩ := mem_flatMap.mp he
    obtain ⟨entry, _, heq⟩ := mem_map.mp hin
    rw [← heq]
    exact ⟨rfl, mem_map_of_mem hrow⟩
  obtain ⟨hwrote, hget⟩ := h.wrote.removals fun e he => (hmem e he).1
  have hsound : ctx.table.dir.Sound := h.writable.1.sound
  have hsound' : removed.table.dir.Sound := hwrote.writable.1.sound
  have hread : ∀ s k, removed.table.dir.getArraySourceKey s k =
      if k ∈ rows.map (fun r => keys.rowKey r.values) then []
      else ctx.table.dir.getArraySourceKey s k := by
    intro s k
    change (ctx.writeMany edits).table.dir.getArraySourceKey s k = _
    rw [hget]
    by_cases hk : k ∈ rows.map fun r => keys.rowKey r.values
    · rw [if_pos hk]
      by_cases hex : ∃ e ∈ edits, e.1 = k ∧ e.2.1 = s
      · rw [if_pos hex]
      · rw [if_neg hex]
        by_contra hne
        obtain ⟨entry, hentry, hs⟩ := exists_entry hsound hne
        obtain ⟨row, hrow, heq⟩ := mem_map.mp hk
        apply hex
        refine ⟨(k, entry.source, writer k, []), ?_, rfl, hs⟩
        apply mem_flatMap.mpr
        refine ⟨row, hrow, ?_⟩
        rw [heq]
        exact mem_map.mpr ⟨entry, hentry, rfl⟩
    · rw [if_neg hk, if_neg]
      intro hex
      obtain ⟨e, he, hkey, _⟩ := hex
      exact hk (hkey ▸ (hmem e he).2)
  refine ⟨hwrote, ?_, ?_⟩
  · intro s k
    rw [hread]
    split_ifs
    · exact .inl rfl
    · exact .inr rfl
  · obtain ⟨ks, hks, hlive⟩ := exists_keys h.reducer
    have hfiles : ∀ k, removed.table.dir.filesOf k =
        if k ∈ rows.map (fun r => keys.rowKey r.values) then [] else ctx.table.dir.filesOf k := by
      intro k
      by_cases hk : k ∈ rows.map fun r => keys.rowKey r.values
      · rw [if_pos hk, hsound'.filesOf_eq_nil]
        intro s
        rw [hread, if_pos hk]
      · rw [if_neg hk]
        apply hsound'.filesOf_congr hsound
        intro s
        rw [hread, if_neg hk]
    rw [← Multiset.coe_eq_coe, ← Multiset.filter_coe, hlive,
      coe_live hwrote.reducer ks (by
        intro k hne
        apply hks
        intro hnil
        rw [hfiles, hnil, ite_self] at hne
        exact hne rfl)]
    ext row
    rw [Multiset.count_sum', Multiset.count_filter, Multiset.count_sum']
    have heach : ∀ k ∈ ks, (removed.table.dir.filesOf k : Multiset (RowValues V)).count row =
        if keys.rowKey row.values ∉ rows.map (fun r => keys.rowKey r.values)
          then (ctx.table.dir.filesOf k : Multiset (RowValues V)).count row else 0 := by
      intro k _
      rw [hfiles]
      by_cases hin : row ∈ ctx.table.dir.filesOf k
      · obtain ⟨s, hs⟩ := (mem_filesOf hsound).mp hin
        rw [h.keyed s k row hs]
        by_cases hk : k ∈ rows.map fun r => keys.rowKey r.values
        · rw [if_pos hk, if_neg (not_not.mpr hk)]
          rfl
        · rw [if_neg hk, if_pos hk]
      · have hzero : (ctx.table.dir.filesOf k : Multiset (RowValues V)).count row = 0 :=
          Multiset.count_eq_zero.mpr hin
        split_ifs <;> simp [hzero]
    rw [Finset.sum_congr rfl heach]
    split_ifs
    · exact Finset.sum_const_zero
    · rfl

def Ctx.specs (ctx : Ctx D K V) : List (UniqueIndex D K V) := ctx.checks.map Check.spec

theorem Ready.unique {ctx : Ctx D K V} (h : Ready keys ctx) {u : UniqueIndex D K V}
    (hu : u ∈ ctx.specs) : (∀ row ∈ ctx.table.dir.live, row.repeatCount = 1) ∧
      ∀ p, (group u ctx.table.dir p).length ≤ 1 := by
  obtain ⟨c, hc, heq⟩ := mem_map.mp hu
  rw [← heq]
  exact (h.checks c hc).unique h.reducer

theorem Wrote.update_cases {ctx ctx' : Ctx D K V} (h : Ready keys ctx) (hw : Wrote keys ctx ctx')
    (hone : ∀ u ∈ ctx.specs, ∀ row ∈ ctx'.table.dir.live, row.repeatCount = 1) :
    (∃ done, ctx'.update = .ok done ∧ Ready keys done ∧ done.table.dir = ctx'.table.dir ∧
      done.specs = ctx.specs) ∨
    ∃ failure thrown, ctx'.update = .error (failure, thrown) ∧
      ∃ u ∈ ctx.specs, Clash u ctx'.table.dir failure := by
  have hones : ctx.checks ≠ [] → ∀ row ∈ ctx'.table.dir.live, row.repeatCount = 1 := by
    intro hne
    obtain ⟨c, hc⟩ := exists_mem_of_ne_nil _ hne
    exact hone c.spec (mem_map_of_mem hc)
  unfold Ctx.update
  rw [hw.written.tick, hw.written.checks, hw.plain]
  cases updateChecks_cases h.writable h.checks hw.written.table hw.reducer hones with
  | inl hok =>
    obtain ⟨checks', hu, hspecs, hexact⟩ := hok
    rw [hu]
    refine .inl ⟨_, rfl, ?_, rfl, hspecs⟩
    exact ⟨Writable.next hw.written.table.writable, rfl, hw.reducer, rfl, hw.keyed, hexact⟩
  | inr herror =>
    obtain ⟨failure, thrown, hu, c, hc, hclash⟩ := herror
    rw [hu]
    exact .inr ⟨failure, _, rfl, c.spec, mem_map_of_mem hc, hclash⟩

def newRows (rows : List (List (Option V) × Source D K)) : List (RowValues V × Source D K) :=
  rows.map fun r => (⟨r.1, 1⟩, r.2)

def added (rows : List (List (Option V) × Source D K)) : List (RowValues V) :=
  rows.map fun r => ⟨r.1, 1⟩

theorem map_newRows (rows : List (List (Option V) × Source D K)) :
    (newRows rows).map Prod.fst = added rows := by
  unfold newRows added
  rw [map_map]
  rfl

theorem added_one {rows : List (List (Option V) × Source D K)} :
    ∀ row ∈ added rows, row.repeatCount = 1 := by
  intro row hrow
  obtain ⟨r, _, heq⟩ := mem_map.mp hrow
  rw [← heq]

/-- The rows of a statement with the values `p` in the columns of the index. -/
def addedGroup (u : UniqueIndex D K V) (rows : List (List (Option V) × Source D K))
    (p : List (Option V)) : List (RowValues V) :=
  (added rows).filter fun row => u.project row = p

/-- What a conflict reports: all rows of the table and of the statement with one projection. -/
structure Reported (ctx : Ctx D K V) (rows : List (List (Option V) × Source D K))
    (u : UniqueIndex D K V) (p : List (Option V)) (rowValues : List (RowValues V)) : Prop where
  index : u ∈ ctx.specs
  perm : rowValues.Perm (group u ctx.table.dir p ++ addedGroup u rows p)
  two : 1 < rowValues.length

section Round

variable {ctx : Ctx D K V} {rows : List (List (Option V) × Source D K)}

theorem Reported.one {u : UniqueIndex D K V} {p : List (Option V)} {rowValues : List (RowValues V)}
    (h : Ready keys ctx) (hr : Reported ctx rows u p rowValues) :
    ∀ row ∈ rowValues, row.repeatCount = 1 := by
  intro row hrow
  cases mem_append.mp (hr.perm.mem_iff.mp hrow) with
  | inl hin => exact (h.unique hr.index).1 row (mem_group.mp hin).1
  | inr hin => exact added_one row (mem_filter.mp hin).1

theorem insertUpdate_cases (h : Ready keys ctx) (hfresh : Fresh ctx.table.dir (newRows rows)) :
    (∃ done, insertUpdate keys ctx (newRows rows) = .ok done ∧ Ready keys done ∧
      done.table.dir.live.Perm (ctx.table.dir.live ++ added rows) ∧ done.specs = ctx.specs) ∨
    ∃ msg values rowValues thrown u p,
      insertUpdate keys ctx (newRows rows) = .error (.conflict msg values rowValues, thrown) ∧
        Reported ctx rows u p rowValues := by
  obtain ⟨hwrote, hperm⟩ := h.wrote.insertTable hfresh
  rw [map_newRows] at hperm
  have hone : ∀ u ∈ ctx.specs, ∀ row ∈ (insertTable keys ctx (newRows rows)).table.dir.live,
      row.repeatCount = 1 := by
    intro u hu row hrow
    cases mem_append.mp (hperm.mem_iff.mp hrow) with
    | inl hin => exact (h.unique hu).1 row hin
    | inr hin => exact added_one row hin
  unfold insertUpdate
  cases hwrote.update_cases h hone with
  | inl hok =>
    obtain ⟨done, hu, hready, hdir, hspecs⟩ := hok
    exact .inl ⟨done, hu, hready, hdir ▸ hperm, hspecs⟩
  | inr herror =>
    obtain ⟨failure, thrown, hu, u, hin, msg, values, rowValues, p, heq, hgroup, hlen⟩ := herror
    refine .inr ⟨msg, values, rowValues, thrown, u, p, ?_, hin, ?_, hlen⟩
    · rw [← heq]
      exact hu
    · have hfilter := hperm.filter fun row => u.project row = p
      rw [filter_append] at hfilter
      exact hgroup.trans hfilter

theorem removal_updates (h : Ready keys ctx) (hfresh : Fresh ctx.table.dir (newRows rows))
    (writer : K → Source D K) (rowValues : List (RowValues V)) :
    ∃ next, (ctx.writeMany (rowValues.flatMap fun row =>
        removeKey writer ctx.table.dir (keys.rowKey row.values))).update = .ok next ∧
      Ready keys next ∧ Fresh next.table.dir (newRows rows) ∧ next.specs = ctx.specs ∧
      next.table.dir.live.Perm (ctx.table.dir.live.filter fun row =>
        keys.rowKey row.values ∉ rowValues.map fun r => keys.rowKey r.values) := by
  obtain ⟨hwrote, hget, hperm⟩ := h.removeKeys writer rowValues
  have hone : ∀ u ∈ ctx.specs, ∀ row ∈ (ctx.writeMany (rowValues.flatMap fun row =>
      removeKey writer ctx.table.dir (keys.rowKey row.values))).table.dir.live,
      row.repeatCount = 1 := by
    intro u hu row hrow
    exact (h.unique hu).1 row (mem_filter.mp (hperm.mem_iff.mp hrow)).1
  cases hwrote.update_cases h hone with
  | inr herror =>
    obtain ⟨failure, thrown, _, u, hu, msg, values, rows', p, _, hgroup, hlen⟩ := herror
    have hle := (h.unique hu).2 p
    have hsub := hperm.filter fun row => u.project row = p
    have hshort := ((List.filter_sublist (p := fun row : RowValues V => decide (keys.rowKey
      row.values ∉ rowValues.map fun r => keys.rowKey r.values)) (l := ctx.table.dir.live)).filter
        fun row => u.project row = p).length_le
    have heq := hgroup.length_eq
    have heq' := hsub.length_eq
    unfold group at heq hle
    omega
  | inl hok =>
    obtain ⟨next, hu, hready, hdir, hspecs⟩ := hok
    refine ⟨next, hu, hready, ⟨hfresh.nodup, ?_⟩, hspecs, hdir ▸ hperm⟩
    intro r hr key
    rw [hdir]
    cases hget r.2 key with
    | inl hnil => exact hnil
    | inr hsame => exact hsame.trans (hfresh.unused r hr key)

/-- A round of the loop: the rows go in, or the conflict is the row itself, or what it reports is
removed. -/
theorem round_cases (h : Ready keys ctx) (hfresh : Fresh ctx.table.dir (newRows rows))
    (writer : K → Source D K) :
    (∃ done, (∀ fuel, insertReplace keys writer (newRows rows) (fuel + 1) ctx = .ok done) ∧
      Ready keys done ∧ done.table.dir.live.Perm (ctx.table.dir.live ++ added rows) ∧
      done.specs = ctx.specs) ∨
    ∃ u p rowValues, Reported ctx rows u p rowValues ∧
      (((∀ fuel, insertReplace keys writer (newRows rows) (fuel + 1) ctx = .ok ctx) ∧
        ∀ row ∈ added rows, ∀ row2 ∈ rowValues, row = row2) ∨
      ((∃ row ∈ added rows, ∃ row2 ∈ rowValues, row ≠ row2) ∧
        ∃ next, (∀ fuel, insertReplace keys writer (newRows rows) (fuel + 1) ctx =
            insertReplace keys writer (newRows rows) fuel next) ∧
          Ready keys next ∧ Fresh next.table.dir (newRows rows) ∧ next.specs = ctx.specs ∧
          next.table.dir.live.Perm (ctx.table.dir.live.filter fun row =>
            keys.rowKey row.values ∉ rowValues.map fun r => keys.rowKey r.values))) := by
  cases insertUpdate_cases h hfresh with
  | inl hok =>
    obtain ⟨done, hu, hrest⟩ := hok
    refine .inl ⟨done, ?_, hrest⟩
    intro fuel
    unfold insertReplace
    rw [hu]
  | inr herror =>
    obtain ⟨msg, values, rowValues, thrown, u, p, hu, hreported⟩ := herror
    refine .inr ⟨u, p, rowValues, hreported, ?_⟩
    have hback : thrown.replaceFromSaved ctx = ctx := rfl
    have hdifferent : ((newRows rows).any fun row => rowValues.any fun row2 =>
        decide (row2.repeatCount ≠ 0) && decide (row.1 ≠ row2)) = true ↔
          ∃ row ∈ added rows, ∃ row2 ∈ rowValues, row ≠ row2 := by
      rw [← map_newRows]
      simp only [any_eq_true, Bool.and_eq_true, decide_eq_true_iff]
      constructor
      · intro hex
        obtain ⟨row, hrow, row2, hrow2, _, hne⟩ := hex
        exact ⟨row.1, mem_map_of_mem hrow, row2, hrow2, hne⟩
      · intro hex
        obtain ⟨row, hmem, row2, hrow2, hne⟩ := hex
        obtain ⟨r, hrow, heq⟩ := mem_map.mp hmem
        refine ⟨r, hrow, row2, hrow2, ?_, heq ▸ hne⟩
        rw [hreported.one h row2 hrow2]
        exact one_ne_zero
    by_cases hd : ∃ row ∈ added rows, ∃ row2 ∈ rowValues, row ≠ row2
    · obtain ⟨next, hnext, hrest⟩ := removal_updates h hfresh writer rowValues
      refine .inr ⟨hd, next, ?_, hrest⟩
      intro fuel
      rw [insertReplace, hu]
      simp only [hback]
      rw [if_pos (hdifferent.mpr hd), hnext]
    · left
      constructor
      · intro fuel
        rw [insertReplace, hu]
        simp only [hback]
        rw [if_neg fun hany => hd (hdifferent.mp hany)]
      · intro row hrow row2 hrow2
        by_contra hne
        exact hd ⟨row, hrow, row2, hrow2, hne⟩

end Round

/-- Each projection of an inserted row belongs to one row of the table, the last such row of the
statement. -/
def Replaced (u : UniqueIndex D K V) (rows : List (List (Option V) × Source D K))
    (table : EagerDir D K (RowValues V)) : Prop :=
  ∀ row ∈ added rows,
    group u table (u.project row) = (addedGroup u rows (u.project row)).getLast?.toList

/-- No two rows of the statement have the same values in the columns of the index. -/
def Apart (u : UniqueIndex D K V) (rows : List (List (Option V) × Source D K)) : Prop :=
  ((added rows).map u.project).Nodup

theorem eq_singleton {α : Type} {l : List α} {a : α} (h : l.length ≤ 1) (ha : a ∈ l) : l = [a] := by
  cases l with
  | nil => exact absurd ha (by simp)
  | cons b rest =>
    cases rest with
    | nil => rw [mem_singleton.mp ha]
    | cons c rest =>
      simp only [length_cons] at h
      omega

section Loop

variable {ctx : Ctx D K V} {rows : List (List (Option V) × Source D K)}

variable {u : UniqueIndex D K V}

theorem addedGroup_le_one (h : Apart u rows) (p : List (Option V)) :
    (addedGroup u rows p).length ≤ 1 := by
  have hcount := nodup_iff_count_le_one.mp h p
  rw [List.count, countP_map, countP_eq_length_filter] at hcount
  have hsame : addedGroup u rows p =
      (added rows).filter ((fun x => x == p) ∘ u.project) := by
    unfold addedGroup
    apply filter_congr
    intro row _
    rw [Bool.eq_iff_iff]
    simp
  rw [hsame]
  exact hcount

theorem apart_of_le_one (h : ∀ p, (addedGroup u rows p).length ≤ 1) :
    Apart u rows := by
  unfold Apart
  rw [nodup_iff_count_le_one]
  intro p
  rw [List.count, countP_map, countP_eq_length_filter]
  have hsame : (added rows).filter ((fun x => x == p) ∘ u.project) = addedGroup u rows p := by
    unfold addedGroup
    apply filter_congr
    intro row _
    rw [Bool.eq_iff_iff]
    simp
  rw [hsame]
  exact h p

variable {row : RowValues V}

theorem mem_addedGroup {p : List (Option V)} :
    row ∈ addedGroup u rows p ↔ row ∈ added rows ∧ u.project row = p := by
  unfold addedGroup
  rw [mem_filter, decide_eq_true_iff]

variable {done : Ctx D K V}

theorem done_group (h : Ready keys done)
    (hlive : done.table.dir.live.Perm (ctx.table.dir.live ++ added rows))
    (hu : u ∈ done.specs) (p : List (Option V)) :
    (group u done.table.dir p).Perm (group u ctx.table.dir p ++ addedGroup u rows p) ∧
      (addedGroup u rows p).length ≤ 1 := by
  have hperm := hlive.filter fun row => u.project row = p
  rw [filter_append] at hperm
  refine ⟨hperm, ?_⟩
  have hle := (h.unique hu).2 p
  have hlen := hperm.length_eq
  rw [length_append] at hlen
  unfold group at hle
  unfold addedGroup
  omega

theorem replaced_done (h : Ready keys done)
    (hlive : done.table.dir.live.Perm (ctx.table.dir.live ++ added rows))
    (hu : u ∈ done.specs) : Replaced u rows done.table.dir := by
  intro row hrow
  obtain ⟨hperm, hle⟩ := done_group h hlive hu (u.project row)
  have hadded : row ∈ addedGroup u rows (u.project row) := mem_addedGroup.mpr ⟨hrow, rfl⟩
  have hgroup : row ∈ group u done.table.dir (u.project row) :=
    hperm.mem_iff.mpr (mem_append_right _ hadded)
  rw [eq_singleton ((h.unique hu).2 _) hgroup, eq_singleton hle hadded]
  rfl

theorem replaced_same (h : Ready keys ctx) (hall : ∀ r ∈ added rows, r = row)
    (hlive : row ∈ ctx.table.dir.live) (hu : u ∈ ctx.specs) :
    Replaced u rows ctx.table.dir := by
  intro r hr
  rw [hall r hr]
  have hgroup : row ∈ group u ctx.table.dir (u.project row) := mem_group.mpr ⟨hlive, rfl⟩
  rw [eq_singleton ((h.unique hu).2 _) hgroup]
  have hne : addedGroup u rows (u.project row) ≠ [] :=
    ne_nil_of_mem (mem_addedGroup.mpr ⟨hall r hr ▸ hr, rfl⟩)
  rw [List.getLast?_eq_some_getLast hne, hall _ (mem_addedGroup.mp (getLast_mem hne)).1]
  rfl

theorem Reported.exists_row {p : List (Option V)}
    {rowValues : List (RowValues V)} (hr : Reported ctx rows u p rowValues)
    (hapart : Apart u rows) : ∃ row ∈ rowValues, row ∈ ctx.table.dir.live := by
  have hle := addedGroup_le_one hapart p
  have hlen := hr.perm.length_eq
  have htwo := hr.two
  rw [length_append] at hlen
  have hne : group u ctx.table.dir p ≠ [] := by
    intro hnil
    rw [hnil, length_nil] at hlen
    omega
  obtain ⟨row, hrow⟩ := exists_mem_of_ne_nil _ hne
  exact ⟨row, hr.perm.mem_iff.mpr (mem_append_left _ hrow), (mem_group.mp hrow).1⟩

theorem apart_ends (writer : K → Source D K) (size : ℕ) (h : Ready keys ctx)
    (hfresh : Fresh ctx.table.dir (newRows rows)) (hapart : ∀ u ∈ ctx.specs, Apart u rows)
    (hsize : ctx.table.dir.live.length < size) :
    ∃ done, insertReplace keys writer (newRows rows) size ctx = .ok done ∧
      ∀ u ∈ ctx.specs, Replaced u rows done.table.dir := by
  induction size generalizing ctx with
  | zero => exact absurd hsize (by omega)
  | succ size ih =>
    cases round_cases h hfresh writer with
    | inl hok =>
      obtain ⟨done, hends, hready, hlive, hspecs⟩ := hok
      refine ⟨done, hends size, ?_⟩
      intro u hu
      exact replaced_done hready hlive (hspecs ▸ hu)
    | inr hconflict =>
      obtain ⟨u, p, rowValues, hreported, hcases⟩ := hconflict
      obtain ⟨row, hrow, hlive⟩ := hreported.exists_row (hapart u hreported.index)
      cases hcases with
      | inl hsame =>
        refine ⟨ctx, hsame.1 size, ?_⟩
        intro u' hu'
        exact replaced_same h (fun r hr => hsame.2 r hr row hrow) hlive hu'
      | inr hnext =>
        obtain ⟨_, next, hround, hready, hfresh', hspecs, hperm⟩ := hnext
        have hshort : next.table.dir.live.length < ctx.table.dir.live.length := by
          rw [hperm.length_eq]
          apply length_filter_lt_length_iff_exists.mpr
          refine ⟨row, hlive, ?_⟩
          have hin : keys.rowKey row.values ∈ rowValues.map fun r => keys.rowKey r.values :=
            mem_map_of_mem hrow
          simpa using hin
        obtain ⟨done, hdone, hreplaced⟩ :=
          ih hready hfresh' (fun u' hu' => hapart u' (hspecs ▸ hu')) (by omega)
        refine ⟨done, (hround size).trans hdone, ?_⟩
        intro u' hu'
        exact hreplaced u' (hspecs.symm ▸ hu')

theorem clash_ends {writer : K → Source D K} {fuel : ℕ} (h : Ready keys ctx)
    (hfresh : Fresh ctx.table.dir (newRows rows)) (hu : u ∈ ctx.specs)
    (hclash : ¬Apart u rows)
    (hends : insertReplace keys writer (newRows rows) fuel ctx = .ok done) :
    (∃ row, ∀ r ∈ added rows, r = row) ∧ ∀ row ∈ done.table.dir.live, row ∈ ctx.table.dir.live := by
  induction fuel generalizing ctx with
  | zero => exact absurd hends (by simp [insertReplace])
  | succ fuel ih =>
    cases round_cases h hfresh writer with
    | inl hok =>
      obtain ⟨done', _, hready, hlive, hspecs⟩ := hok
      exfalso
      apply hclash
      apply apart_of_le_one
      intro p
      exact (done_group hready hlive (hspecs ▸ hu) p).2
    | inr hconflict =>
      obtain ⟨u', p, rowValues, hreported, hcases⟩ := hconflict
      cases hcases with
      | inl hsame =>
        rw [hsame.1 fuel] at hends
        rw [← Except.ok.inj hends]
        refine ⟨?_, fun row hrow => hrow⟩
        have hne : rowValues ≠ [] := by
          intro hnil
          have htwo := hreported.two
          rw [hnil, length_nil] at htwo
          omega
        obtain ⟨row, hrow⟩ := exists_mem_of_ne_nil _ hne
        exact ⟨row, fun r hr => hsame.2 r hr row hrow⟩
      | inr hnext =>
        obtain ⟨_, next, hround, hready, hfresh', hspecs, hperm⟩ := hnext
        rw [hround fuel] at hends
        obtain ⟨hall, hsub⟩ := ih hready hfresh' (hspecs ▸ hu) hends
        refine ⟨hall, ?_⟩
        intro row hrow
        exact (mem_filter.mp (hperm.mem_iff.mp (hsub row hrow))).1

theorem same_ends (writer : K → Source D K) (h : Ready keys ctx)
    (hfresh : Fresh ctx.table.dir (newRows rows))
    (hall : ∀ r ∈ added rows, r = row) (hlive : row ∈ ctx.table.dir.live) :
    ∃ done, insertReplace keys writer (newRows rows) 1 ctx = .ok done ∧
      ∀ u ∈ ctx.specs, Replaced u rows done.table.dir := by
  cases round_cases h hfresh writer with
  | inl hok =>
    obtain ⟨done, hends, hready, hperm, hspecs⟩ := hok
    refine ⟨done, hends 0, ?_⟩
    intro u hu
    exact replaced_done hready hperm (hspecs ▸ hu)
  | inr hconflict =>
    obtain ⟨u, p, rowValues, hreported, hcases⟩ := hconflict
    cases hcases with
    | inl hsame => exact ⟨ctx, hsame.1 0, fun u' hu' => replaced_same h hall hlive hu'⟩
    | inr hnext =>
      obtain ⟨hdifferent, _⟩ := hnext
      exfalso
      obtain ⟨r, hr, row2, hrow2, hne⟩ := hdifferent
      have hlen := hreported.perm.length_eq
      have htwo := hreported.two
      rw [length_append] at hlen
      have hle := (h.unique hreported.index).2 p
      have hadded : addedGroup u rows p ≠ [] := by
        intro hnil
        rw [hnil, length_nil] at hlen
        omega
      obtain ⟨r', hr'⟩ := exists_mem_of_ne_nil _ hadded
      have hp : u.project row = p := by
        rw [← hall r' (mem_addedGroup.mp hr').1]
        exact (mem_addedGroup.mp hr').2
      have hgroup : row ∈ group u ctx.table.dir p := mem_group.mpr ⟨hlive, hp⟩
      apply hne
      rw [hall r hr]
      cases mem_append.mp (hreported.perm.mem_iff.mp hrow2) with
      | inl hin =>
        rw [eq_singleton hle hgroup] at hin
        exact (mem_singleton.mp hin).symm
      | inr hin => exact (hall row2 (mem_addedGroup.mp hin).1).symm

end Loop

theorem getOld_made {c : Creation D K (RowValues V)} (hold : c.oldVec = [])
    {s : Clocked D K (RowValues V)} (hs : c.make = some s) (source : Source D K) :
    s.dir.getOld source = some .empty := by
  have hmade := make_made hs
  have hnodup : (c.oldVec.map Prod.fst).Nodup := by
    rw [hold]
    exact nodup_nil
  have hplain : StoreSourceMap.getMetadata c.oldVec = none := by
    rw [hold]
    rfl
  obtain ⟨m, hm, hholds⟩ := StoreSourceMap.FixedSourceMap.create_holds hnodup hplain true
  rw [hmade.fixedOld] at hm
  rw [← Option.some.inj hm, hold] at hholds
  have hnone : StoreSourceMap.sortBy ([] : List (StoreSourceMap.Row D K)) = [] :=
    mergeSort_nil
  rw [getOld_eq hholds, hmade.old, hnone]
  rfl

theorem mirrors_created {f : RowFun K (RowValues V) (Failure V)} {childName : D} {tick : ℕ}
    {parent : EagerDir D K (RowValues V)} (hred : parent.reducer = none)
    (hnil : parent.unsafeGetFileIter = []) {child : Tracked D K (RowValues V)}
    (hm : createMapped f .broken childName tick parent = .ok child) :
    Mirrors f tick parent child ∧ child.dir.unsafeGetFileIter = [] := by
  obtain ⟨hw, hdirty, hchild, _, _⟩ := createMapped_covers hred hm
  unfold createMapped at hm
  rw [hnil] at hm
  cases hmake : (mappedCreation childName tick parent.dirName [] :
      Creation D K (RowValues V)).make with
  | none =>
    simp only [mapData, Except.bind, hmake] at hm
    exact absurd hm (by simp)
  | some s =>
    simp only [mapData, Except.bind, hmake] at hm
    have hdir : s.dir = child.dir := congrArg Tracked.dir (Except.ok.inj hm)
    have hiter : child.dir.unsafeGetFileIter = [] := by
      rw [← hdir]
      exact unsafeGetFileIter_made rfl rfl hmake
    have hfiles : ∀ (d : EagerDir D K (RowValues V)), d.reducer = none →
        d.unsafeGetFileIter = [] → ∀ key, d.filesOf key = [] := by
      intro d hd hempty key
      by_contra hne
      have hin := (mem_unsafeGetFileIter hd).2 key hne
      rw [hempty] at hin
      exact absurd hin (by simp)
    have hget : ∀ source k, child.dir.getArraySourceKey source k = [] := fun source k =>
      hw.1.sound.filesOf_eq_nil.mp (hfiles child.dir hchild hiter k) source
    refine ⟨⟨hw, hdirty, hchild, ?_, fun source k _ => hget source k⟩, hiter⟩
    intro key
    refine ⟨.empty, .empty, if_pos (hfiles parent hred hnil key), ?_, ?_, hget _⟩
    · rw [← hdir]
      exact getOld_made rfl hmake _
    · exact fun k hk => absurd hk (by simp [SortedMap.keys])

variable {table : EagerDir D K (RowValues V)}

theorem exact_created {tick : ℕ} (hred : table.reducer = none)
    (hnil : table.unsafeGetFileIter = []) {u : UniqueIndex D K V} {c : Check D K V}
    (hc : Check.create tick table u = .ok c) : c.Exact tick table ∧ c.spec = u := by
  unfold Check.create at hc
  by_cases hr : u.needsReordering = true
  · rw [if_pos hr] at hc
    obtain ⟨index, hindex, hc⟩ := except_bind_ok hc
    obtain ⟨proj, hproj, hc⟩ := except_bind_ok hc
    obtain ⟨sink, hsink, hc⟩ := except_bind_ok hc
    obtain ⟨hi, hi'⟩ := mirrors_created hred hnil hindex
    obtain ⟨hp, hp'⟩ := mirrors_created hi.reducer hi' hproj
    obtain ⟨hs, _⟩ := mirrors_created hp.reducer hp' hsink
    rw [← Except.ok.inj hc]
    exact ⟨⟨hi, hp, hs⟩, rfl⟩
  · rw [if_neg hr] at hc
    obtain ⟨proj, hproj, hc⟩ := except_bind_ok hc
    obtain ⟨sink, hsink, hc⟩ := except_bind_ok hc
    obtain ⟨hp, hp'⟩ := mirrors_created hred hnil hproj
    obtain ⟨hs, _⟩ := mirrors_created hp.reducer hp' hsink
    rw [← Except.ok.inj hc]
    exact ⟨⟨hp, hs⟩, rfl⟩

theorem create_empty (tick : ℕ) (hred : table.reducer = none)
    (hnil : table.unsafeGetFileIter = []) (u : UniqueIndex D K V) :
    ∃ c, Check.create tick table u = .ok c := by
  have hthen : ∀ {α β : Type} {x : Except (Failure V) α} {a : α} {g : α → Except (Failure V) β},
      x = .ok a → x >>= g = g a := by
    intro _ _ _ _ _ hx
    rw [hx]
    rfl
  unfold Check.create
  by_cases hr : u.needsReordering = true
  · rw [if_pos hr]
    obtain ⟨index, hindex, _⟩ := createMapped_empty u.indexMap .broken u.indexName tick hnil
    obtain ⟨hi, hi'⟩ := mirrors_created hred hnil hindex
    obtain ⟨proj, hproj, _⟩ := createMapped_empty u.projMap .broken u.projName tick hi'
    obtain ⟨_, hp'⟩ := mirrors_created hi.reducer hi' hproj
    obtain ⟨sink, hsink, _⟩ := createMapped_empty u.sinkMap .broken u.sinkName tick hp'
    rw [hthen hindex, hthen hproj, hthen hsink]
    exact ⟨_, rfl⟩
  · rw [if_neg hr]
    obtain ⟨proj, hproj, _⟩ := createMapped_empty u.projMap .broken u.projName tick hnil
    obtain ⟨_, hp'⟩ := mirrors_created hred hnil hproj
    obtain ⟨sink, hsink, _⟩ := createMapped_empty u.sinkMap .broken u.sinkName tick hp'
    rw [hthen hproj, hthen hsink]
    exact ⟨_, rfl⟩

theorem ready_createTable (keys : TableKeys K V) {tick : ℕ}
    (hw : table.Writable tick) (hred : table.reducer = none) (hnil : table.unsafeGetFileIter = [])
    (indexes : List (UniqueIndex D K V)) :
    ∃ root, createTable tick table indexes = .ok root ∧ Ready keys root ∧ root.specs = indexes ∧
      root.table.dir = table := by
  have hall : ∃ checks, indexes.mapM (Check.create tick table) = .ok checks ∧
      checks.map Check.spec = indexes ∧ ∀ c ∈ checks, c.Exact tick table := by
    induction indexes with
    | nil => exact ⟨[], rfl, rfl, fun c hc => absurd hc (by simp)⟩
    | cons u rest ih =>
      obtain ⟨checks, hm, hspecs, hexact⟩ := ih
      obtain ⟨c, hc⟩ := create_empty tick hred hnil u
      have hcreated := exact_created hred hnil hc
      refine ⟨c :: checks, ?_, ?_, ?_⟩
      · rw [mapM_cons, hc]
        change (List.mapM (Check.create tick table) rest >>= _) = _
        rw [hm]
        rfl
      · rw [map_cons, hspecs, hcreated.2]
      · intro c' hc'
        cases mem_cons.mp hc' with
        | inl heq => exact heq ▸ hcreated.1
        | inr hin => exact hexact c' hin
  obtain ⟨checks, hm, hspecs, hexact⟩ := hall
  have hget : ∀ source key, table.getArraySourceKey source key = [] := by
    intro source key
    apply hw.1.sound.filesOf_eq_nil.mp
    by_contra hne
    have hin := (mem_unsafeGetFileIter hred).2 key hne
    rw [hnil] at hin
    exact absurd hin (by simp)
  refine ⟨⟨tick, ⟨table, .empty⟩, checks, none⟩, ?_, ?_, hspecs, rfl⟩
  · unfold createTable
    rw [hm]
    rfl
  · refine ⟨hw, rfl, hred, rfl, ?_, hexact⟩
    intro source key row hrow
    rw [hget] at hrow
    exact absurd hrow (by simp)

/-- `INSERT OR REPLACE` on a table with whatever rows ends, with each projection of an inserted row
at the last such row of the statement and at no other row, just when no two rows of the
statement have the same values in the columns of a unique index, or all of them are one row
that the table has. -/
theorem replaces_iff {ctx : Ctx D K V} (h : Ready keys ctx)
    {rows : List (List (Option V) × Source D K)} (hfresh : Fresh ctx.table.dir (newRows rows))
    (writer : K → Source D K) :
    (∃ fuel done, insertReplace keys writer (newRows rows) fuel ctx = .ok done ∧
      ∀ u ∈ ctx.specs, Replaced u rows done.table.dir) ↔
    (∀ u ∈ ctx.specs, Apart u rows) ∨
      ∃ row ∈ ctx.table.dir.live, ∀ r ∈ added rows, r = row := by
  constructor
  · intro hex
    obtain ⟨fuel, done, hends, hreplaced⟩ := hex
    by_cases hapart : ∀ u ∈ ctx.specs, Apart u rows
    · exact .inl hapart
    · right
      push Not at hapart
      obtain ⟨u, hu, hclash⟩ := hapart
      obtain ⟨⟨row, hall⟩, hsub⟩ := clash_ends h hfresh hu hclash hends
      have hne : added rows ≠ [] := by
        intro hnil
        apply hclash
        unfold Apart
        rw [hnil]
        exact nodup_nil
      obtain ⟨r, hr⟩ := exists_mem_of_ne_nil _ hne
      refine ⟨row, hsub row ?_, hall⟩
      have hgroup := hreplaced u hu r hr
      have hadded : addedGroup u rows (u.project r) ≠ [] :=
        ne_nil_of_mem (mem_addedGroup.mpr ⟨hr, rfl⟩)
      rw [List.getLast?_eq_some_getLast hadded,
        hall _ (mem_addedGroup.mp (getLast_mem hadded)).1] at hgroup
      have hin : row ∈ group u done.table.dir (u.project r) := by
        rw [hgroup]
        exact mem_singleton.mpr rfl
      exact (mem_group.mp hin).1
  · intro hor
    cases hor with
    | inl hapart =>
      obtain ⟨done, hends⟩ :=
        apart_ends writer (ctx.table.dir.live.length + 1) h hfresh hapart (by omega)
      exact ⟨_, done, hends⟩
    | inr hsame =>
      obtain ⟨row, hlive, hall⟩ := hsame
      obtain ⟨done, hends⟩ := same_ends writer h hfresh hall hlive
      exact ⟨1, done, hends⟩

theorem sample_ready (rows : List (List (Option ℤ) × Source ℕ PlainKey))
    (hnodup : ((newRows rows).map Prod.snd).Nodup) :
    ∃ root, Ready sampleKeys root ∧ root.specs = [primaryIndex] ∧
      Fresh root.table.dir (newRows rows) := by
  obtain ⟨s, hs, hinv⟩ := make_inv (c := emptyTable) ⟨nodup_nil, nodup_nil, rfl⟩
  have hnil := unsafeGetFileIter_made (c := emptyTable) rfl rfl hs
  have hred : s.dir.reducer = none := (make_made hs).reducer rfl
  obtain ⟨root, _, hready, hspecs, hdir⟩ :=
    ready_createTable sampleKeys ⟨hinv.valid, hinv.ticks⟩ hred hnil [primaryIndex]
  refine ⟨root, hready, hspecs, hnodup, ?_⟩
  intro r _ key
  apply hready.writable.1.sound.filesOf_eq_nil.mp
  by_contra hne
  have hin := (mem_unsafeGetFileIter hready.reducer).2 key hne
  rw [hdir, hnil] at hin
  exact absurd hin (by simp)

theorem replaces_iff_two_keys : ∃ root fuel done,
    insertReplace sampleKeys (fun key => ⟨1, key⟩)
      (newRows [([some 1, some 5], sampleSource 1), ([some 2, some 6], sampleSource 2)]) fuel root =
        .ok done ∧
    ∀ u ∈ root.specs, Replaced u
      [([some 1, some 5], sampleSource 1), ([some 2, some 6], sampleSource 2)] done.table.dir := by
  obtain ⟨root, hready, hspecs, hfresh⟩ :=
    sample_ready [([some 1, some 5], sampleSource 1), ([some 2, some 6], sampleSource 2)] (by decide)
  refine ⟨root, (replaces_iff hready hfresh fun key => ⟨1, key⟩).mpr (.inl ?_)⟩
  intro u hu
  rw [hspecs] at hu
  rw [mem_singleton.mp hu]
  unfold Apart
  decide

/-- Two rows of one statement with the same primary key: the loop goes round for ever. -/
theorem replaces_never_ends : ∃ root, Ready sampleKeys root ∧ root.specs = [primaryIndex] ∧
    Fresh root.table.dir
      (newRows [([some 1, some 5], sampleSource 1), ([some 1, some 6], sampleSource 2)]) ∧
    ¬∃ fuel done, insertReplace sampleKeys (fun key => ⟨1, key⟩)
      (newRows [([some 1, some 5], sampleSource 1), ([some 1, some 6], sampleSource 2)]) fuel root =
        .ok done := by
  obtain ⟨root, hready, hspecs, hfresh⟩ :=
    sample_ready [([some 1, some 5], sampleSource 1), ([some 1, some 6], sampleSource 2)] (by decide)
  refine ⟨root, hready, hspecs, hfresh, ?_⟩
  intro hex
  obtain ⟨fuel, done, hends⟩ := hex
  have hin : primaryIndex ∈ root.specs := by
    rw [hspecs]
    exact mem_singleton.mpr rfl
  have hclash : ¬Apart primaryIndex
      [([some 1, some 5], sampleSource 1), ([some 1, some 6], sampleSource 2)] := by
    unfold Apart
    decide
  obtain ⟨⟨row, hall⟩, _⟩ := clash_ends hready hfresh hin hclash hends
  have hfirst := hall ⟨[some 1, some 5], 1⟩ (by simp [added])
  have hsecond := hall ⟨[some 1, some 6], 1⟩ (by simp [added])
  rw [← hsecond] at hfirst
  exact absurd hfirst (by decide)

end SkipPlatform.SqlUnique
