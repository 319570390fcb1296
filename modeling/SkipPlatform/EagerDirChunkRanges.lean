import SkipPlatform.EagerDirChunkRuns
import SkipPlatform.EagerDirKeys

set_option autoImplicit false
set_option linter.unusedSectionVars false

/-! The passes over a list of key ranges: one range after the other, each from its first key. -/
namespace SkipPlatform
open List SortedMerge StoreSourceMap

namespace EagerDir
variable {D K F : Type} [LinearOrder D] [StoreKey K]

variable {parent : EagerDir D K F}

theorem keysAfter_exclusive {boundary : Option (Boundary K)} {last : K}
    (h : (boundary.all fun b => b.admits last) = true) :
    ((parent.keysAfter boundary).filter fun key => decide (last < key)) =
      parent.keysAfter (some (.exclusive last)) := by
  unfold keysAfter
  rw [filter_filter]
  apply filter_congr
  intro key _
  cases boundary with
  | none => exact Bool.and_true _
  | some b =>
    cases b with
    | inclusive start =>
      have hle : start ≤ last := of_decide_eq_true h
      by_cases hlt : last < key
      · have hadmits : start ≤ key := hle.trans hlt.le
        simp [Boundary.admits, hlt, hadmits]
      · simp [Boundary.admits, hlt]
    | exclusive start =>
      have hlt' : start < last := of_decide_eq_true h
      by_cases hlt : last < key
      · have hadmits : start < key := hlt'.trans hlt
        simp [Boundary.admits, hlt, hadmits]
      · simp [Boundary.admits, hlt]

theorem passes_calls {stop : Option K} (shouldGC : Option (ℕ → Bool))
    {fuel : ℕ} {boundary : Option (Boundary K)} {current : ℕ} (asked : ℕ)
    {fixed : List (FixedRow K (Source D K) (List F))} (h : parent.Stands stop current fixed)
    (hadmits : ∀ r ∈ fixed, (boundary.all fun b => b.admits r.key) = true)
    (hfuel : (parent.callsOf stop (parent.keysAfter boundary) fixed).length < fuel) :
    ∃ ps, parent.passes shouldGC stop fuel boundary current asked = some ps ∧
      ps.flatMap Pass.calls = parent.callsOf stop (parent.keysAfter boundary) fixed := by
  induction fuel generalizing boundary current asked fixed with
  | zero => exact absurd hfuel (Nat.not_lt_zero _)
  | succ fuel ih =>
    have hkeys : (parent.keysAfter boundary).Pairwise (· < ·) := parent.keys_sorted.filter _
    obtain ⟨fixed', hrun⟩ := subMapData_run shouldGC hkeys asked h
    rw [passes]
    generalize parent.subMapData shouldGC (parent.rangeEnd stop) stop (parent.keysAfter boundary)
      current asked = p at hrun
    cases hskipped : p.lastSkipped with
    | none =>
      refine ⟨[p], rfl, ?_⟩
      rw [flatMap_singleton]
      exact hrun.ended hskipped
    | some last =>
      obtain ⟨hcalls, ⟨files, hfiles⟩, hlater⟩ := hrun.suspended last hskipped
      have hlast : (boundary.all fun b => b.admits last) = true := by
        have hmem := mem_callsOf hkeys h.sorted (hcalls ▸ mem_append_left _ hfiles)
        rcases hmem with hmem | ⟨r, hr, heq⟩
        · exact (mem_filter.mp hmem).2
        · have hkey : r.key = last := heq
          rw [← hkey]
          exact hadmits r hr
      rw [keysAfter_exclusive hlast] at hcalls
      have hadmits' : ∀ r ∈ fixed',
          ((some (Boundary.exclusive last)).all fun b => b.admits r.key) = true :=
        fun r hr => decide_eq_true (hlater r hr)
      have hne : p.calls ≠ [] := ne_nil_of_mem hfiles
      have hshorter : (parent.callsOf stop (parent.keysAfter (some (.exclusive last)))
          fixed').length < fuel := by
        have hpos := length_pos_iff.mpr hne
        rw [hcalls, length_append] at hfuel
        omega
      obtain ⟨ps, hps, hrest⟩ := ih p.asked hrun.stands hadmits' hshorter
      refine ⟨p :: ps, ?_, ?_⟩
      · dsimp only
        rw [hps]
        rfl
      · rw [flatMap_cons, hrest, hcalls]

def inRange (rangeOpt : Option (KeyRange K)) (key : K) : Bool :=
  rangeOpt.all fun range => decide (range.start ≤ key ∧ key ≤ range.stop)

/-- The keys of a parent: those with rows in the array and those written since. -/
def HoldsKey (parent : EagerDir D K F) (key : K) : Prop :=
  key ∈ parent.data.data.keys ∨ ∃ row ∈ parent.fixedData.data.rows, row.key = key

def parentRows (parent : EagerDir D K F) : List (K × List F) :=
  (parent.unsafeGetFileIterNoReducer none).map fun row => (row.1, parent.getArrayRaw row.1)

theorem parentRows_sorted (parent : EagerDir D K F) :
    parent.parentRows.Pairwise fun a b => a.1 < b.1 := by
  unfold parentRows
  rw [pairwise_map]
  exact parent.unsafeGetFileIterNoReducer_sorted

theorem mem_parentRows {x : K × List F} :
    x ∈ parent.parentRows ↔ parent.HoldsKey x.1 ∧ x.2 = parent.getArrayRaw x.1 := by
  obtain ⟨hgroups, hmem⟩ := groupRows_spec parent.fixedData.data.keys_sorted
  have hwalk := mem_overrideMerge (hgroups.imp le_of_lt) parent.modifiedFiles_sorted
  unfold parentRows
  rw [mem_map, unsafeGetFileIterNoReducer_none]
  constructor
  · rintro ⟨y, hy, rfl⟩
    refine ⟨?_, rfl⟩
    rcases (hwalk y).mp hy with hy | ⟨hy, _⟩
    · obtain ⟨key, hkey, rfl⟩ := mem_map.mp hy
      exact Or.inl hkey
    · exact Or.inr ((hmem y).mp hy).1
  · rintro ⟨hholds, hfiles⟩
    by_cases hkey : x.1 ∈ parent.data.data.keys
    · exact ⟨(x.1, parent.getArrayRaw x.1),
        (hwalk _).mpr (Or.inl (mem_map.mpr ⟨x.1, hkey, rfl⟩)), Prod.ext rfl hfiles.symm⟩
    · have hrow := hholds.resolve_left hkey
      refine ⟨(x.1, valuesOf parent.fixedData.data.rows x.1), ?_, Prod.ext rfl hfiles.symm⟩
      rw [hwalk]
      refine Or.inr ⟨(hmem _).mpr ⟨hrow, rfl⟩, ?_⟩
      intro m hm he
      obtain ⟨key, hin, rfl⟩ := mem_map.mp hm
      have heq : key = x.1 := he
      exact hkey (heq ▸ hin)

theorem fixedFiles_eq {key : K} (h : key ∉ parent.data.data.keys) :
    parent.fixedFiles (key, valuesOf parent.fixedData.data.rows key) = parent.getArrayRaw key := by
  unfold fixedFiles getArrayRaw
  cases parent.reducer with
  | none => exact (filesOf_fixed h).symm
  | some compact => rfl

theorem mem_callsOf_range {stop : Option K} {keys : List K}
    {p : K → Bool} (hkeys : keys.Pairwise (· < ·))
    (hmem : ∀ key, key ∈ keys.filter (inEnd stop) ↔ key ∈ parent.data.data.keys ∧ p key = true)
    (x : K × List F) :
    x ∈ parent.callsOf stop keys (parent.fixedData.data.rows.filter fun row => p row.key) ↔
      x ∈ parent.parentRows.filter fun row => p row.1 := by
  have hrows := parent.fixedData.data.keys_sorted
  have hfixed := hrows.filter fun row => p row.key
  have hm : ((keys.filter (inEnd stop)).map fun key =>
      (key, parent.getArrayRaw key)).Pairwise fun a b => a.1 < b.1 := by
    rw [pairwise_map]
    exact hkeys.filter _
  have hcalls : parent.fixedCalls (parent.fixedData.data.rows.filter fun row => p row.key) =
      (parent.fixedCalls parent.fixedData.data.rows).filter fun x => p x.1 := by
    unfold fixedCalls
    rw [groupRows_filter hrows, filter_map]
    rfl
  have hgroups : ∀ y, y ∈ parent.fixedCalls parent.fixedData.data.rows ↔
      (∃ r ∈ parent.fixedData.data.rows, r.key = y.1) ∧
        y.2 = parent.fixedFiles (y.1, valuesOf parent.fixedData.data.rows y.1) := by
    intro y
    unfold fixedCalls
    rw [mem_map]
    constructor
    · rintro ⟨group, hgroup, rfl⟩
      obtain ⟨hrow, hvalue⟩ := ((groupRows_spec hrows).2 group).mp hgroup
      refine ⟨hrow, ?_⟩
      rw [← hvalue]
    · rintro ⟨hrow, hvalue⟩
      exact ⟨(y.1, valuesOf parent.fixedData.data.rows y.1),
        ((groupRows_spec hrows).2 _).mpr ⟨hrow, rfl⟩, Prod.ext rfl hvalue.symm⟩
  unfold callsOf
  rw [mem_overrideMerge ((parent.fixedCalls_sorted hfixed).imp le_of_lt) hm, mem_filter,
    mem_parentRows, hcalls, mem_filter, hgroups]
  constructor
  · rintro (hx | ⟨⟨⟨hrow, hvalue⟩, hp⟩, hno⟩)
    · obtain ⟨key, hkey, rfl⟩ := mem_map.mp hx
      obtain ⟨hin, hp⟩ := (hmem key).mp hkey
      exact ⟨⟨Or.inl hin, rfl⟩, hp⟩
    · have hkey : x.1 ∉ parent.data.data.keys := fun hin =>
        hno _ (mem_map.mpr ⟨x.1, (hmem x.1).mpr ⟨hin, hp⟩, rfl⟩) rfl
      exact ⟨⟨Or.inr hrow, hvalue.trans (fixedFiles_eq hkey)⟩, hp⟩
  · rintro ⟨⟨hholds, hvalue⟩, hp⟩
    by_cases hkey : x.1 ∈ parent.data.data.keys
    · exact Or.inl (mem_map.mpr ⟨x.1, (hmem x.1).mpr ⟨hkey, hp⟩, Prod.ext rfl hvalue.symm⟩)
    · refine Or.inr ⟨⟨⟨hholds.resolve_left hkey, hvalue.trans (fixedFiles_eq hkey).symm⟩, hp⟩, ?_⟩
      intro m hm' he
      obtain ⟨key, hin, rfl⟩ := mem_map.mp hm'
      have heq : key = x.1 := he
      exact hkey (heq ▸ ((hmem key).mp hin).1)

theorem filter_inEnd {α : Type} (g : α → K) (stop : Option K) {xs : List α}
    (h : xs.Pairwise fun a b => g a ≤ g b) :
    xs = xs.filter (fun a => inEnd stop (g a)) ++ xs.filter fun a => !inEnd stop (g a) := by
  induction xs with
  | nil => rfl
  | cons x xs ih =>
    obtain ⟨hx, hxs⟩ := pairwise_cons.mp h
    by_cases hin : inEnd stop (g x) = true
    · rw [filter_cons_of_pos (p := fun a => inEnd stop (g a)) hin,
        filter_cons_of_neg (by simp [hin]), cons_append, ← ih hxs]
    · have hout : ∀ a ∈ xs, ¬inEnd stop (g a) = true := fun a ha h' => hin (inEnd_of_le (hx a ha) h')
      have hnil : xs.filter (fun a => inEnd stop (g a)) = [] := filter_eq_nil_iff.mpr hout
      have hall : (xs.filter fun a => !inEnd stop (g a)) = xs :=
        filter_eq_self.mpr fun a ha => by simp [hout a ha]
      rw [filter_cons_of_neg (p := fun a => inEnd stop (g a)) hin,
        filter_cons_of_pos (by simp [hin]), hnil, hall]
      rfl

def startOf (parent : EagerDir D K F) (rangeOpt : Option (KeyRange K)) : ℕ :=
  match rangeOpt with
  | none => 0
  | some range => parent.fixedData.data.getPos range.start

theorem drop_startOf (parent : EagerDir D K F) (rangeOpt : Option (KeyRange K)) :
    parent.fixedData.data.rows.drop (parent.startOf rangeOpt) =
      parent.fixedData.data.rows.filter fun row => reaches (rangeOpt.map KeyRange.start) row.key := by
  cases rangeOpt with
  | none =>
    have hall : (parent.fixedData.data.rows.filter fun row => reaches none row.key) =
        parent.fixedData.data.rows := filter_eq_self.mpr fun _ _ => rfl
    exact hall.symm
  | some range =>
    exact SortedSearch.drop_findFirst parent.fixedData.data.rows FixedRow.key range.start
      parent.fixedData.data.keys_sorted

theorem take_startOf {rangeOpt : Option (KeyRange K)}
    {r : FixedRow K (Source D K) (List F)}
    (h : r ∈ parent.fixedData.data.rows.take (parent.startOf rangeOpt)) :
    ∃ range, rangeOpt = some range ∧ r.key < range.start := by
  cases rangeOpt with
  | none => cases h
  | some range =>
    obtain ⟨hbelow, _⟩ := SortedSearch.findFirst_cut parent.fixedData.data.rows _
      (SortedSearch.pairwise_compare_gt range.start parent.fixedData.data.keys_sorted)
    exact ⟨range, rfl, compare_gt_iff_gt.mp (hbelow r h)⟩

theorem inRange_eq (rangeOpt : Option (KeyRange K)) (key : K) :
    inRange rangeOpt key =
      (inEnd (rangeOpt.map KeyRange.stop) key && reaches (rangeOpt.map KeyRange.start) key) := by
  cases rangeOpt with
  | none => rfl
  | some range =>
    change decide (range.start ≤ key ∧ key ≤ range.stop) =
      (decide (key ≤ range.stop) && decide (range.start ≤ key))
    rw [Bool.decide_and, Bool.and_comm]

theorem stands_startOf (parent : EagerDir D K F) (rangeOpt : Option (KeyRange K)) :
    parent.Stands (rangeOpt.map KeyRange.stop) (parent.startOf rangeOpt)
      (parent.fixedData.data.rows.filter fun row => inRange rangeOpt row.key) := by
  have hsorted := parent.fixedData.data.keys_sorted
  have hdrop := parent.drop_startOf rangeOpt
  have hcut := filter_inEnd FixedRow.key (rangeOpt.map KeyRange.stop)
    (hsorted.filter fun row => reaches (rangeOpt.map KeyRange.start) row.key)
  simp only [filter_filter, ← inRange_eq] at hcut
  rw [hcut] at hdrop
  have hbeyond : ∀ r ∈ parent.fixedData.data.rows.filter (fun row =>
      !inEnd (rangeOpt.map KeyRange.stop) row.key && reaches (rangeOpt.map KeyRange.start) row.key),
      inEnd (rangeOpt.map KeyRange.stop) r.key = false := by
    intro r hr
    have htest := (mem_filter.mp hr).2
    rw [Bool.and_eq_true, Bool.not_eq_true'] at htest
    exact htest.1
  constructor
  · exact fun _ => ⟨_, hdrop, hbeyond⟩
  · intro r hr
    have htest := (mem_filter.mp hr).2
    rw [inRange_eq, Bool.and_eq_true] at htest
    exact htest.1
  · intro r hr r' hr'
    obtain ⟨range, hrange, hlt⟩ := take_startOf hr
    have htest := (mem_filter.mp hr').2
    rw [hrange] at htest
    exact hlt.trans_le (of_decide_eq_true htest).1
  · intro hnil
    by_contra hle
    have hlt := rangeEnd_lt parent (rangeOpt.map KeyRange.stop)
    have hlen : parent.startOf rangeOpt < parent.fixedData.data.rows.length := by omega
    have hrow := List.getElem?_eq_getElem hlen
    have hin := inEnd_of_rangeEnd (rangeOpt.map KeyRange.stop) hrow (by omega)
    rw [← List.head?_drop, hdrop, hnil, nil_append] at hrow
    rw [hbeyond _ (mem_of_head? hrow)] at hin
    cases hin

/-- However often they are suspended, the passes over a range make one call for each row of
the range, in order. -/
theorem mapPasses_calls (parent : EagerDir D K F) (shouldGC : Option (ℕ → Bool)) {fuel : ℕ}
    (rangeOpt : Option (KeyRange K)) (asked : ℕ) (hfuel : parent.parentRows.length < fuel) :
    ∃ ps, parent.mapPasses shouldGC fuel rangeOpt asked = some ps ∧
      ps.flatMap Pass.calls = parent.parentRows.filter fun row => inRange rangeOpt row.1 := by
  have hkeys : (parent.keysAfter (rangeOpt.map fun range => .inclusive range.start)).Pairwise
      (· < ·) := parent.keys_sorted.filter _
  have hstands := parent.stands_startOf rangeOpt
  have hcalls : parent.callsOf (rangeOpt.map KeyRange.stop)
      (parent.keysAfter (rangeOpt.map fun range => .inclusive range.start))
      (parent.fixedData.data.rows.filter fun row => inRange rangeOpt row.key) =
        parent.parentRows.filter fun row => inRange rangeOpt row.1 := by
    apply eq_of_mem_iff Prod.fst
    · have hfixed := parent.fixedCalls_sorted hstands.sorted
      apply overrideMerge_pairwise (· < ·) id (hfixed.imp le_of_lt) hfixed
      rw [pairwise_map]
      exact hkeys.filter _
    · exact parent.parentRows_sorted.filter _
    · apply mem_callsOf_range hkeys
      intro key
      unfold keysAfter
      rw [filter_filter, mem_filter, inRange_eq]
      cases rangeOpt with
      | none => rfl
      | some range => rfl
  have hlength : (parent.callsOf (rangeOpt.map KeyRange.stop)
      (parent.keysAfter (rangeOpt.map fun range => .inclusive range.start))
      (parent.fixedData.data.rows.filter fun row => inRange rangeOpt row.key)).length < fuel := by
    rw [hcalls]
    exact (length_filter_le _ _).trans_lt hfuel
  have hadmits : ∀ r ∈ parent.fixedData.data.rows.filter (fun row => inRange rangeOpt row.key),
      ((rangeOpt.map fun range => Boundary.inclusive range.start).all
        fun b => b.admits r.key) = true := by
    intro r hr
    have htest := (mem_filter.mp hr).2
    cases rangeOpt with
    | none => rfl
    | some range => exact decide_eq_true (of_decide_eq_true htest).1
  rw [← hcalls]
  unfold mapPasses
  cases rangeOpt with
  | none => exact passes_calls shouldGC asked hstands hadmits hlength
  | some range => exact passes_calls shouldGC asked hstands hadmits hlength

theorem rangePasses_calls (parent : EagerDir D K F) (shouldGC : Option (ℕ → Bool)) {fuel : ℕ}
    (ranges : List (Option (KeyRange K))) (asked : ℕ) (hfuel : parent.parentRows.length < fuel) :
    ∃ ps, parent.rangePasses shouldGC fuel ranges asked = some ps ∧
      ps.flatMap Pass.calls = ranges.flatMap fun rangeOpt =>
        parent.parentRows.filter fun row => inRange rangeOpt row.1 := by
  induction ranges generalizing asked with
  | nil => exact ⟨[], rfl, rfl⟩
  | cons rangeOpt ranges ih =>
    obtain ⟨first, hfirst, hcalls⟩ := parent.mapPasses_calls shouldGC rangeOpt asked hfuel
    obtain ⟨rest, hrest, hcalls'⟩ := ih ((first.getLast?.map Pass.asked).getD asked)
    refine ⟨first ++ rest, ?_, ?_⟩
    · rw [rangePasses, hfirst, Option.bind_some, hrest]
      rfl
    · rw [flatMap_append, hcalls, hcalls', flatMap_cons]

def within (ranges : List (Option (KeyRange K))) (key : K) : Bool :=
  ranges.any fun rangeOpt => inRange rangeOpt key

theorem mem_flatMap_ranges {rows : List (K × List F)} (ranges : List (Option (KeyRange K)))
    (x : K × List F) :
    x ∈ ranges.flatMap (fun rangeOpt => rows.filter fun row => inRange rangeOpt row.1) ↔
      x ∈ rows.filter fun row => within ranges row.1 := by
  unfold within
  simp only [mem_flatMap, mem_filter, any_eq_true]
  constructor
  · rintro ⟨rangeOpt, hrange, hx, hin⟩
    exact ⟨hx, rangeOpt, hrange, hin⟩
  · rintro ⟨hx, rangeOpt, hrange, hin⟩
    exact ⟨rangeOpt, hrange, hx, hin⟩

def Increasing (parent : EagerDir D K F) (ranges : List (Option (KeyRange K))) : Prop :=
  ranges.Pairwise fun a b => ∀ key key', parent.HoldsKey key → parent.HoldsKey key' →
    inRange a key = true → inRange b key' = true → key < key'

def Apart (parent : EagerDir D K F) (ranges : List (Option (KeyRange K))) : Prop :=
  ranges.Pairwise fun a b => ∀ key, parent.HoldsKey key → inRange a key = true →
    inRange b key = false

theorem mem_row_range {key : K} {rangeOpt : Option (KeyRange K)}
    (hholds : parent.HoldsKey key) (hin : inRange rangeOpt key = true) :
    (key, parent.getArrayRaw key) ∈ parent.parentRows.filter fun row => inRange rangeOpt row.1 :=
  mem_filter.mpr ⟨mem_parentRows.mpr ⟨hholds, rfl⟩, hin⟩

theorem flatMap_ranges_eq_iff (parent : EagerDir D K F) (ranges : List (Option (KeyRange K))) :
    (ranges.flatMap fun rangeOpt => parent.parentRows.filter fun row => inRange rangeOpt row.1) =
        (parent.parentRows.filter fun row => within ranges row.1) ↔ parent.Increasing ranges := by
  have hrows := parent.parentRows_sorted
  constructor
  · intro heq
    have hsorted := hrows.filter fun row => within ranges row.1
    rw [← heq, pairwise_flatMap] at hsorted
    apply hsorted.2.imp
    intro a b hab key key' hkey hkey' hin hin'
    exact hab _ (mem_row_range hkey hin) _ (mem_row_range hkey' hin')
  · intro hinc
    apply eq_of_mem_iff Prod.fst
    · rw [pairwise_flatMap]
      refine ⟨fun _ _ => hrows.filter _, ?_⟩
      apply hinc.imp
      intro a b hab x hx y hy
      obtain ⟨hx, hin⟩ := mem_filter.mp hx
      obtain ⟨hy, hin'⟩ := mem_filter.mp hy
      exact hab x.1 y.1 (mem_parentRows.mp hx).1 (mem_parentRows.mp hy).1 hin hin'
    · exact hrows.filter _
    · exact mem_flatMap_ranges ranges

theorem flatMap_ranges_perm_iff (parent : EagerDir D K F) (ranges : List (Option (KeyRange K))) :
    (ranges.flatMap fun rangeOpt => parent.parentRows.filter fun row => inRange rangeOpt row.1).Perm
        (parent.parentRows.filter fun row => within ranges row.1) ↔ parent.Apart ranges := by
  have hnodup : parent.parentRows.Pairwise (· ≠ ·) := by
    apply parent.parentRows_sorted.imp
    intro a b hab he
    rw [he] at hab
    exact lt_irrefl _ hab
  constructor
  · intro hperm
    have hcalls : (ranges.flatMap fun rangeOpt =>
        parent.parentRows.filter fun row => inRange rangeOpt row.1).Pairwise (· ≠ ·) :=
      hperm.nodup_iff.mpr (hnodup.filter _)
    rw [pairwise_flatMap] at hcalls
    apply hcalls.2.imp
    intro a b hab key hkey hin
    rw [← Bool.not_eq_true]
    intro hin'
    exact hab _ (mem_row_range hkey hin) _ (mem_row_range hkey hin') rfl
  · intro hapart
    have hcalls : (ranges.flatMap fun rangeOpt =>
        parent.parentRows.filter fun row => inRange rangeOpt row.1).Pairwise (· ≠ ·) := by
      rw [pairwise_flatMap]
      refine ⟨fun _ _ => hnodup.filter _, ?_⟩
      apply hapart.imp
      intro a b hab x hx y hy he
      obtain ⟨hx, hin⟩ := mem_filter.mp hx
      obtain ⟨_, hin'⟩ := mem_filter.mp hy
      rw [← he, hab x.1 (mem_parentRows.mp hx).1 hin] at hin'
      cases hin'
    exact (perm_ext_iff_of_nodup hcalls (hnodup.filter _)).mpr (mem_flatMap_ranges ranges)

end EagerDir

def Mapped.after {D K P F : Type} [LinearOrder D] [StoreKey K] (st more : Mapped D K P F) :
    Mapped D K P F :=
  ⟨st.acc ++ more.acc, st.oldVec ++ more.oldVec, more.context⟩

namespace MapEdge
variable {D K P F E : Type} [LinearOrder D] [StoreKey K] [DecidableEq P] [DecidableEq F]

variable (env : MapEnv D K P F E)

variable (e : MapEdge D K F)

theorem mapCall_after (map : RowMap D K P F E)
    (st more : Mapped D K P F) (call : K × List F) :
    e.mapCall env map (st.after more) call = (e.mapCall env map more call).map st.after := by
  unfold mapCall mapRow Mapped.after
  dsimp only
  cases map { more.context with reads := .empty } call.1 call.2 with
  | error err => rfl
  | ok x =>
    change Except.map _ (orBroken env (x.2.deps.updateNewDeps (e.arrow call.1) x.2.reads.keys)) =
      Except.map _ (Except.map _
        (orBroken env (x.2.deps.updateNewDeps (e.arrow call.1) x.2.reads.keys)))
    cases orBroken env (x.2.deps.updateNewDeps (e.arrow call.1) x.2.reads.keys) with
    | error err => rfl
    | ok deps =>
      apply congrArg Except.ok
      dsimp only
      rw [append_assoc, append_assoc]

theorem foldlM_mapCall_after (map : RowMap D K P F E)
    (calls : List (K × List F)) (st more : Mapped D K P F) :
    calls.foldlM (e.mapCall env map) (st.after more) =
      (calls.foldlM (e.mapCall env map) more).map st.after := by
  induction calls generalizing more with
  | nil => rfl
  | cons call calls ih =>
    rw [foldlM_cons, foldlM_cons, mapCall_after]
    cases e.mapCall env map more call with
    | error err => rfl
    | ok next => exact ih next

theorem runPass_eq (map : RowMap D K P F E)
    (st : Mapped D K P F) (pass : Pass K F) :
    e.runPass env map st pass = pass.calls.foldlM (e.mapCall env map) st := by
  have hst : st = st.after ⟨[], [], st.context⟩ := by
    unfold Mapped.after
    rw [append_nil, append_nil]
  calc e.runPass env map st pass =
      (pass.calls.foldlM (e.mapCall env map) ⟨[], [], st.context⟩).map st.after := rfl
    _ = pass.calls.foldlM (e.mapCall env map) (st.after ⟨[], [], st.context⟩) :=
      (foldlM_mapCall_after env e map pass.calls st _).symm
    _ = pass.calls.foldlM (e.mapCall env map) st := by rw [← hst]

theorem foldlM_runPass (map : RowMap D K P F E)
    (ps : List (Pass K F)) (st : Mapped D K P F) :
    ps.foldlM (e.runPass env map) st = (ps.flatMap Pass.calls).foldlM (e.mapCall env map) st := by
  induction ps generalizing st with
  | nil => rfl
  | cons pass ps ih =>
    rw [foldlM_cons, flatMap_cons, foldlM_append, runPass_eq]
    congr 1
    funext next
    exact ih next

end MapEdge

namespace EagerDir
variable {D K F : Type} [LinearOrder D] [StoreKey K]

/-- Whatever the collector answers, the passes make the calls of uninterrupted ones and
collect the same rows and reads. They call every parent row within the ranges once if
and only if no key of the parent is in two of them, and in the order of the keys if and
only if the keys grow from range to range. -/
theorem mapRanges_once_iff [DecidableEq F] (parent : EagerDir D K F)
    (shouldGC : Option (ℕ → Bool)) (fuel : ℕ) (hfuel : parent.parentRows.length < fuel)
    (ranges : Option (List (KeyRange K))) :
    ∃ calls : List (K × List F),
      (∃ ps, parent.rangePasses shouldGC fuel (rangesOf ranges) 0 = some ps ∧
        ps.flatMap Pass.calls = calls) ∧
      (∀ (P E : Type) [DecidableEq P] (env : MapEnv D K P F E) (e : MapEdge D K F)
        (map : RowMap D K P F E) (st : Mapped D K P F),
        e.mapRanges env map parent shouldGC fuel ranges st =
            some (calls.foldlM (e.mapCall env map) st) ∧
          e.mapRanges env map parent shouldGC fuel ranges st =
            e.mapRanges env map parent none fuel ranges st) ∧
      (calls.Perm (parent.parentRows.filter fun row => within (rangesOf ranges) row.1) ↔
        parent.Apart (rangesOf ranges)) ∧
      (calls = (parent.parentRows.filter fun row => within (rangesOf ranges) row.1) ↔
        parent.Increasing (rangesOf ranges)) := by
  obtain ⟨ps, hps, hcalls⟩ := parent.rangePasses_calls shouldGC (rangesOf ranges) 0 hfuel
  obtain ⟨ps', hps', hcalls'⟩ := parent.rangePasses_calls none (rangesOf ranges) 0 hfuel
  refine ⟨_, ⟨ps, hps, hcalls⟩, ?_, parent.flatMap_ranges_perm_iff _,
    parent.flatMap_ranges_eq_iff _⟩
  intro P E _ env e map st
  unfold MapEdge.mapRanges
  rw [hps, hps', Option.map_some, Option.map_some, MapEdge.foldlM_runPass,
    MapEdge.foldlM_runPass, hcalls, hcalls']
  exact ⟨rfl, rfl⟩

theorem parentRows_singleRow {s : Clocked ℕ PlainKey ℕ} (hs : singleRow.make = some s) :
    s.dir.parentRows = [(.iid 1, [10])] := by
  have hmade := make_made hs
  have hrows : s.dir.fixedData.data.rows = [⟨.iid 1, [10], sampleSource 1, 0⟩] := by
    rw [hmade.fixedData]
    exact FixedDir.rows_create_of_sorted (pairwise_singleton _ _)
  have hnone : PlainKey.iid 1 ∉ s.dir.data.data.keys := by
    rw [hmade.data]
    exact not_mem_nil
  have hraw : s.dir.getArrayRaw (.iid 1) = [10] := by
    unfold getArrayRaw
    rw [hmade.reducer rfl]
    dsimp only
    rw [filesOf_fixed hnone, hrows]
    rfl
  apply eq_of_mem_iff Prod.fst s.dir.parentRows_sorted (pairwise_singleton _ _)
  intro x
  rw [mem_parentRows, mem_singleton, HoldsKey, hmade.data, hrows]
  constructor
  · rintro ⟨hkey | ⟨row, hrow, hkey⟩, hfiles⟩
    · cases hkey
    · rw [mem_singleton.mp hrow] at hkey
      rw [← hkey, hraw] at hfiles
      exact Prod.ext hkey.symm hfiles
  · intro hx
    rw [hx]
    exact ⟨Or.inr ⟨_, mem_singleton_self _, rfl⟩, hraw.symm⟩

def overlapping : List (KeyRange PlainKey) :=
  [⟨.iid 0, .iid 2, by decide⟩, ⟨.iid 1, .iid 3, by decide⟩]

theorem mapRanges_once_iff_singleRow : ∃ s, singleRow.make = some s ∧
    ∃ ps, s.dir.rangePasses (some fun _ => true) 2 (rangesOf (some overlapping)) 0 = some ps := by
  obtain ⟨s, hs, _⟩ := make_singleRow
  have hfuel : s.dir.parentRows.length < 2 := by
    rw [parentRows_singleRow hs]
    decide
  obtain ⟨_, ⟨ps, hps, _⟩, _⟩ :=
    mapRanges_once_iff s.dir (some fun _ => true) 2 hfuel (some overlapping)
  exact ⟨s, hs, ps, hps⟩

/-- The one row of a parent is mapped twice, whatever the collector answers. -/
theorem mapRanges_maps_twice : ∃ d : EagerDir ℕ PlainKey ℕ, Reached d ∧
    d.parentRows = [(.iid 1, [10])] ∧ ∀ shouldGC fuel, 1 < fuel →
      ∃ ps, d.rangePasses shouldGC fuel (rangesOf (some overlapping)) 0 = some ps ∧
        ps.flatMap Pass.calls = [(.iid 1, [10]), (.iid 1, [10])] := by
  obtain ⟨s, hs, _⟩ := make_singleRow
  have hrows := parentRows_singleRow hs
  refine ⟨s.dir, .made hs, hrows, ?_⟩
  intro shouldGC fuel hfuel
  have hlength : s.dir.parentRows.length < fuel := by
    rw [hrows]
    exact hfuel
  obtain ⟨ps, hps, hcalls⟩ :=
    s.dir.rangePasses_calls shouldGC (rangesOf (some overlapping)) 0 hlength
  refine ⟨ps, hps, ?_⟩
  rw [hcalls, hrows]
  decide

end EagerDir
end SkipPlatform
