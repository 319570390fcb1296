import Mathlib.Algebra.BigOperators.Group.Finset.Basic
import Mathlib.Tactic.Abel
import SkipPlatform.EagerDirMap

set_option autoImplicit false
set_option linter.unusedSectionVars false

/-! The files of a directory as a multiset, and children that have what their mapper writes and
nothing else. -/
namespace SkipPlatform.EagerDir
open List StoreSourceMap

variable {D K F E : Type} [LinearOrder D] [StoreKey K] [DecidableEq F]

def live (d : EagerDir D K F) : List F := d.unsafeGetFileIter.flatMap Prod.snd

variable {d : EagerDir D K F}

theorem coe_filesOf (h : d.Sound) (key : K) (sources : Finset (Source D K))
    (hmem : ∀ source, d.getArraySourceKey source key ≠ [] → source ∈ sources) :
    (d.filesOf key : Multiset F) =
      ∑ source ∈ sources, (d.getArraySourceKey source key : Multiset F) := by
  have hsorted : (sources.sort (· ≤ ·)).Pairwise (· < ·) := sources.sortedLT_sort.pairwise
  rw [filesOf_sources h key hsorted fun source hne => (Finset.mem_sort _).mpr (hmem source hne),
    ← Multiset.coe_bind, Finset.sort_eq]
  rfl

theorem sum_filesOf {ks ks' : Finset K}
    (h : ∀ key, d.filesOf key ≠ [] → key ∈ ks) (h' : ∀ key, d.filesOf key ≠ [] → key ∈ ks') :
    ∑ key ∈ ks, (d.filesOf key : Multiset F) = ∑ key ∈ ks', (d.filesOf key : Multiset F) := by
  have hboth : ∀ s : Finset K, ks ∩ ks' ⊆ s →
      ∑ key ∈ ks ∩ ks', (d.filesOf key : Multiset F) = ∑ key ∈ s, (d.filesOf key : Multiset F) := by
    intro s hs
    apply Finset.sum_subset hs
    intro key _ hout
    by_contra hne
    have hfiles : d.filesOf key ≠ [] := fun hnil => hne (by rw [hnil]; rfl)
    exact hout (Finset.mem_inter.mpr ⟨h key hfiles, h' key hfiles⟩)
  rw [← hboth ks Finset.inter_subset_left, ← hboth ks' Finset.inter_subset_right]

theorem exists_keys (hred : d.reducer = none) :
    ∃ ks : Finset K, (∀ key, d.filesOf key ≠ [] → key ∈ ks) ∧
      (d.live : Multiset F) = ∑ key ∈ ks, (d.filesOf key : Multiset F) := by
  have hnodup : (d.unsafeGetFileIter.map Prod.fst).Nodup :=
    (pairwise_map.mpr (unsafeGetFileIter_sorted hred)).imp fun hlt => ne_of_lt hlt
  refine ⟨⟨d.unsafeGetFileIter.map Prod.fst, hnodup⟩, ?_, ?_⟩
  · intro key hne
    have hin : key ∈ d.unsafeGetFileIter.map Prod.fst :=
      mem_map_of_mem ((mem_unsafeGetFileIter hred).2 key hne)
    exact hin
  · have hfiles : d.live = (d.unsafeGetFileIter.map Prod.fst).flatMap d.filesOf := by
      unfold live
      rw [flatMap_map]
      apply flatMap_congr
      intro x hx
      exact (mem_unsafeGetFileIter hred).1 x hx
    rw [hfiles, ← Multiset.coe_bind]
    rfl

theorem coe_live (hred : d.reducer = none) (ks : Finset K)
    (h : ∀ key, d.filesOf key ≠ [] → key ∈ ks) :
    (d.live : Multiset F) = ∑ key ∈ ks, (d.filesOf key : Multiset F) := by
  obtain ⟨ks', h', hlive⟩ := exists_keys hred
  rw [hlive]
  exact sum_filesOf h' h

theorem mem_live (hred : d.reducer = none) {row : F} :
    row ∈ d.live ↔ ∃ key, row ∈ d.filesOf key := by
  obtain ⟨ks, hks, hlive⟩ := exists_keys hred
  rw [← Multiset.mem_coe, hlive, Multiset.mem_sum]
  constructor
  · intro h
    obtain ⟨key, _, hrow⟩ := h
    exact ⟨key, hrow⟩
  · intro h
    obtain ⟨key, hrow⟩ := h
    exact ⟨key, hks key (ne_nil_of_mem hrow), hrow⟩

theorem mem_filesOf (h : d.Sound) {key : K} {row : F} :
    row ∈ d.filesOf key ↔ ∃ source, row ∈ d.getArraySourceKey source key := by
  obtain ⟨sources, hsources⟩ := exists_sources h key
  rw [← Multiset.mem_coe, coe_filesOf h key sources hsources, Multiset.mem_sum]
  constructor
  · intro hrow
    obtain ⟨source, _, hrow⟩ := hrow
    exact ⟨source, hrow⟩
  · intro hrow
    obtain ⟨source, hrow⟩ := hrow
    exact ⟨source, hsources source (ne_nil_of_mem hrow), hrow⟩

variable {source : Source D K}

theorem exists_entry (h : d.Sound) {key : K}
    (hne : d.getArraySourceKey source key ≠ []) :
    ∃ e ∈ d.unsafeGetDataIterWithoutTombs key, e.source = source := by
  rw [← flatMap_liveEntries h] at hne
  obtain ⟨e, he, hs, hf⟩ := exists_of_source hne
  refine ⟨e, ?_, hs⟩
  rw [withoutTombs_liveEntries, mem_filter]
  exact ⟨he, by simp [hf]⟩

theorem live_write {d d' : EagerDir D K F} (h : d.Sound) (h' : d'.Sound) (hred : d.reducer = none)
    (hred' : d'.reducer = none) {key : K} {values : List F}
    (hget : ∀ s k, d'.getArraySourceKey s k =
      if k = key ∧ s = source then values else d.getArraySourceKey s k) :
    (d'.live : Multiset F) + (d.getArraySourceKey source key : Multiset F) =
      (d.live : Multiset F) + (values : Multiset F) := by
  obtain ⟨ks, hks, _⟩ := exists_keys hred
  obtain ⟨ks', hks', _⟩ := exists_keys hred'
  obtain ⟨known, hknown⟩ := exists_sources h key
  have hin : key ∈ insert key (ks ∪ ks') := Finset.mem_insert_self _ _
  rw [coe_live hred (insert key (ks ∪ ks')) fun k hne =>
      Finset.mem_insert_of_mem (Finset.mem_union_left _ (hks k hne)),
    coe_live hred' (insert key (ks ∪ ks')) fun k hne =>
      Finset.mem_insert_of_mem (Finset.mem_union_right _ (hks' k hne)),
    ← Finset.add_sum_erase _ _ hin, ← Finset.add_sum_erase _ (fun k => (d.filesOf k : Multiset F)) hin]
  have hothers : ∀ k ∈ (insert key (ks ∪ ks')).erase key,
      (d'.filesOf k : Multiset F) = (d.filesOf k : Multiset F) := by
    intro k hk
    have hne : k ≠ key := (Finset.mem_erase.mp hk).1
    rw [h'.filesOf_congr h fun s => (hget s k).trans (if_neg fun hand => hne hand.1)]
  rw [Finset.sum_congr rfl hothers]
  have hmem : source ∈ insert source known := Finset.mem_insert_self _ _
  have hown : (d.filesOf key : Multiset F) + (values : Multiset F) =
      (d'.filesOf key : Multiset F) + (d.getArraySourceKey source key : Multiset F) := by
    rw [coe_filesOf h key (insert source known) fun s hne =>
        Finset.mem_insert_of_mem (hknown s hne),
      coe_filesOf h' key (insert source known) (by
        intro s hne
        by_cases hs : s = source
        · rw [hs]
          exact hmem
        · rw [hget, if_neg fun hand => hs hand.2] at hne
          exact Finset.mem_insert_of_mem (hknown s hne)),
      ← Finset.add_sum_erase _ _ hmem,
      ← Finset.add_sum_erase _ (fun s => (d'.getArraySourceKey s key : Multiset F)) hmem]
    have hsame : ∀ s ∈ (insert source known).erase source,
        (d'.getArraySourceKey s key : Multiset F) = (d.getArraySourceKey s key : Multiset F) := by
      intro s hs
      rw [hget, if_neg fun hand => (Finset.mem_erase.mp hs).1 hand.2]
    rw [Finset.sum_congr rfl hsame, hget, if_pos ⟨rfl, rfl⟩]
    abel
  rw [add_right_comm, ← hown]
  abel

/-- The child has of a key what the mapper writes for `rows`, and has recorded these writes. -/
def Holds (f : RowFun K F E) (parentName : D) (rows : List F) (child : EagerDir D K F) (key : K) :
    Prop :=
  ∃ writes info, rowsOf f key rows = .ok writes ∧ child.getOld ⟨parentName, key⟩ = some info ∧
    (∀ k ∈ writes.keys, k ∈ info.getKeys) ∧
    ∀ k, child.getArraySourceKey ⟨parentName, key⟩ k = (writes.maybeGet k).getD []

structure Image (f : RowFun K F E) (parent child : EagerDir D K F) : Prop where
  holds : ∀ key, Holds f parent.dirName (parent.filesOf key) child key
  own : ∀ source k, source.dirName ≠ parent.dirName → child.getArraySourceKey source k = []

theorem getOld_write (t : Tracked D K F) (ctx : WriteContext D K) (origSource writer : Source D K)
    (k : K) (rvalues : List F) (source : Source D K) :
    (t.write ctx origSource writer k rvalues).dir.getOld source = t.dir.getOld source := by
  rw [Tracked.write_dir, getOld_writeEntry]

theorem getOld_writeAll (tick : ℕ) (source : Source D K) (ws : List (K × List F))
    (child : Tracked D K F) (source' : Source D K) :
    (writeAll ⟨tick, none⟩ source child ws).dir.getOld source' = child.dir.getOld source' := by
  induction ws generalizing child with
  | nil => rfl
  | cons w rest ih => exact (ih _).trans (getOld_write child _ _ _ _ _ _)

theorem reducer_writeAll (tick : ℕ) (source : Source D K) (ws : List (K × List F))
    {child : Tracked D K F} (hred : child.dir.reducer = none) :
    (writeAll ⟨tick, none⟩ source child ws).dir.reducer = none := by
  induction ws generalizing child with
  | nil => exact hred
  | cons w rest ih =>
    apply ih
    rw [Tracked.write_dir]
    exact reducer_writeEntry hred _ _ _ _ _

theorem writeAll_exact {tick : ℕ} {child : Tracked D K F}
    (h : child.dir.Writable tick) (oldKeys : List K) (writes : SortedMap K (List F))
    (hold : ∀ k, child.dir.getArraySourceKey source k ≠ [] → k ∈ oldKeys) (k : K) :
    (writeAll ⟨tick, none⟩ source child (writesOf oldKeys writes)).dir.getArraySourceKey source k =
      (writes.maybeGet k).getD [] := by
  apply writeAll_own _ h
  · intro w hw hk
    cases mem_append.mp hw with
    | inl hin =>
      rw [← hk, SortedMap.maybeGet_eq_some.mpr hin]
      rfl
    | inr hdropped =>
      obtain ⟨k', hk', heq⟩ := mem_map.mp hdropped
      have hno := (mem_filter.mp hk').2
      rw [← heq] at hk ⊢
      have hkk : k' = k := hk
      rw [SortedMap.containsKey_eq, hkk] at hno
      cases hget : writes.maybeGet k with
      | none => rfl
      | some values => simp [hget] at hno
  · cases hget : writes.maybeGet k with
    | some values =>
      exact .inl ⟨(k, values), mem_append_left _ (SortedMap.maybeGet_eq_some.mp hget), rfl⟩
    | none =>
      by_cases hnil : child.dir.getArraySourceKey source k = []
      · exact .inr hnil
      · refine .inl ⟨(k, []), mem_append_right _ (mem_map.mpr ⟨k, ?_, rfl⟩), rfl⟩
        rw [mem_filter]
        exact ⟨hold k hnil, by simp [SortedMap.containsKey_eq, hget]⟩

section Rows

variable {f : RowFun K F E} {tick : ℕ} {parent : EagerDir D K F}
  {child : Tracked D K F}

structure Remapped (f : RowFun K F E) (tick : ℕ) (parent : EagerDir D K F) (key : K)
    (child child' : Tracked D K F) : Prop where
  follows : child.Follows tick child'
  reducer : child.dir.reducer = none → child'.dir.reducer = none
  holds : Holds f parent.dirName (parent.filesOf key) child'.dir key
  others : ∀ key' rows, key' ≠ key → Holds f parent.dirName rows child.dir key' →
    Holds f parent.dirName rows child'.dir key'
  own : ∀ source k, source.dirName ≠ parent.dirName →
    child'.dir.getArraySourceKey source k = child.dir.getArraySourceKey source k

theorem mapRow_cases (broken : E) (h : child.dir.Writable tick) {key : K} {rows : List F}
    (hold : Holds f parent.dirName rows child.dir key) :
    (∃ child', mapRow f broken ⟨tick, none⟩ parent child key = .ok child' ∧
      Remapped f tick parent key child child') ∨
    ∃ e, rowsOf f key (parent.filesOf key) = .error e ∧
      mapRow f broken ⟨tick, none⟩ parent child key = .error (e, child) := by
  obtain ⟨oldWrites, info, _, hinfo, hkeys, hget⟩ := hold
  cases hrows : rowsOf f key (parent.filesOf key) with
  | error e =>
    refine .inr ⟨e, rfl, ?_⟩
    unfold mapRow
    simp only [hinfo, hrows]
  | ok writes =>
    left
    refine ⟨(writeAll ⟨tick, none⟩ ⟨parent.dirName, key⟩ child (writesOf info.getKeys writes)).setOld
      ⟨parent.dirName, key⟩ (.create writes.keys [] []), ?_, ?_⟩
    · unfold mapRow
      simp only [hinfo, hrows]
    have hall := follows_writeAll ⟨parent.dirName, key⟩ (writesOf info.getKeys writes) h
    constructor
    · exact hall.trans (Tracked.follows_setOld hall.writable _ _)
    · exact fun hred => reducer_writeAll _ _ _ hred
    · refine ⟨writes, .create writes.keys [] [], hrows, ?_, ?_, ?_⟩
      · change (EagerDir.setOld _ _ _).getOld _ = _
        rw [getOld_setOld, if_pos rfl]
      · intro k hk
        rw [MInfo.getKeys_create]
        exact hk
      · intro k
        apply writeAll_exact h
        intro k' hne
        rw [hget] at hne
        cases hsome : oldWrites.maybeGet k' with
        | none => exact absurd (by rw [hsome]; rfl) hne
        | some values => exact hkeys k' (SortedMap.mem_keys.mpr ⟨values, hsome⟩)
    · intro key' rows' hne hholds
      have hsource : (⟨parent.dirName, key'⟩ : Source D K) ≠ ⟨parent.dirName, key⟩ :=
        fun heq => hne (congrArg Source.baseName heq)
      obtain ⟨writes', info', hrows', hinfo', hkeys', hget'⟩ := hholds
      refine ⟨writes', info', hrows', ?_, hkeys', ?_⟩
      · change (EagerDir.setOld _ _ _).getOld _ = _
        rw [getOld_setOld, if_neg hsource, getOld_writeAll]
        exact hinfo'
      · intro k
        exact (writeAll_other hsource _ h k).trans (hget' k)
    · intro source k hname
      apply writeAll_other _ _ h
      intro heq
      exact hname (congrArg Source.dirName heq)

theorem mapRows_cases (broken : E) (keys : List K) {child : Tracked D K F} (h : child.dir.Writable tick)
    (old : K → List F) (hold : ∀ key, Holds f parent.dirName (old key) child.dir key)
    (hsame : ∀ key, key ∉ keys → old key = parent.filesOf key)
    (hown : ∀ source k, source.dirName ≠ parent.dirName →
      child.dir.getArraySourceKey source k = []) :
    (∃ child', mapRows f broken ⟨tick, none⟩ parent child keys = .ok child' ∧ child.Follows tick child' ∧
      (child.dir.reducer = none → child'.dir.reducer = none) ∧ Image f parent child'.dir) ∨
    ∃ key e thrown, rowsOf f key (parent.filesOf key) = .error e ∧
      mapRows f broken ⟨tick, none⟩ parent child keys = .error (e, thrown) := by
  induction keys generalizing child old with
  | nil =>
    refine .inl ⟨child, rfl, Tracked.Follows.refl h, fun hred => hred, ?_, hown⟩
    intro key
    rw [← hsame key (by simp)]
    exact hold key
  | cons key rest ih =>
    have hcons : mapRows f broken ⟨tick, none⟩ parent child (key :: rest) =
        (mapRow f broken ⟨tick, none⟩ parent child key).bind fun c => mapRows f broken ⟨tick, none⟩ parent c rest :=
      foldlM_cons ..
    cases mapRow_cases broken h (hold key) with
    | inr herror =>
      obtain ⟨e, hrows, hm⟩ := herror
      refine .inr ⟨key, e, child, hrows, ?_⟩
      rw [hcons, hm]
      rfl
    | inl hok =>
      obtain ⟨middle, hm, hr⟩ := hok
      have hstep := ih hr.follows.writable
        (fun key' => if key' = key then parent.filesOf key else old key')
        (by
          intro key'
          by_cases hk : key' = key
          · rw [if_pos hk, hk]
            exact hr.holds
          · rw [if_neg hk]
            exact hr.others key' _ hk (hold key'))
        (by
          intro key' hout
          by_cases hk : key' = key
          · rw [if_pos hk, hk]
          · rw [if_neg hk]
            exact hsame key' (by simp [hk, hout]))
        (fun source k hname => (hr.own source k hname).trans (hown source k hname))
      cases hstep with
      | inl hdone =>
        obtain ⟨child', hrest, hfollows, hred, himage⟩ := hdone
        refine .inl ⟨child', ?_, hr.follows.trans hfollows, fun h' => hred (hr.reducer h'), himage⟩
        rw [hcons, hm]
        exact hrest
      | inr herror =>
        obtain ⟨key', e, thrown, hrows, hrest⟩ := herror
        refine .inr ⟨key', e, thrown, hrows, ?_⟩
        rw [hcons, hm]
        exact hrest

end Rows

theorem Image.coe_filesOf {f : RowFun K F E} {parent child : EagerDir D K F}
    (h : Image f parent child) (hs : child.Sound) {ks : Finset K}
    (hks : ∀ key, parent.filesOf key ≠ [] → key ∈ ks) (k : K) :
    (child.filesOf k : Multiset F) =
      ∑ key ∈ ks, (child.getArraySourceKey ⟨parent.dirName, key⟩ k : Multiset F) := by
  have hinj : Function.Injective fun key : K => (⟨parent.dirName, key⟩ : Source D K) :=
    fun _ _ heq => congrArg Source.baseName heq
  rw [EagerDir.coe_filesOf hs k (ks.map ⟨_, hinj⟩), Finset.sum_map]
  · rfl
  · intro source hne
    have hname : source.dirName = parent.dirName := by
      by_contra hother
      exact hne (h.own source k hother)
    have hsource : source = ⟨parent.dirName, source.baseName⟩ := by
      rw [← hname]
    rw [Finset.mem_map]
    refine ⟨source.baseName, hks _ ?_, hsource.symm⟩
    intro hnil
    obtain ⟨writes, _, hrows, _, _, hget⟩ := h.holds source.baseName
    have hempty : SortedMap.empty = writes := by
      rw [rowsOf, if_pos hnil] at hrows
      exact Except.ok.inj hrows
    apply hne
    rw [hsource, hget k, ← hempty]
    rfl

end SkipPlatform.EagerDir
