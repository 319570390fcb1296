import SkipPlatform.EagerDirContents
import SkipPlatform.EagerDirImport
import SkipPlatform.EagerDirSize

set_option autoImplicit false
set_option linter.unusedSectionVars false

/-! A directory that is mapped from another one by a function of each row, which can throw. Only
the keys that were written since the last update are mapped again. -/
namespace SkipPlatform.EagerDir
open List StoreSourceMap

/-- A directory and its keys that were written since the last update. -/
structure Tracked (D K F : Type) [LinearOrder D] [StoreKey K] where
  dir : EagerDir D K F
  dirty : SortedSet K

variable {D K F E : Type} [LinearOrder D] [StoreKey K] [DecidableEq F]

namespace Tracked

def write (t : Tracked D K F) (ctx : WriteContext D K) (origSource writer : Source D K) (k : K)
    (rvalues : List F) : Tracked D K F :=
  if rvalues = t.dir.getArraySourceKey origSource k then t
  else ⟨t.dir.writeEntry ctx origSource writer k rvalues, t.dirty.set k ()⟩

def setOld (t : Tracked D K F) (source : Source D K) (minfo : MInfo D K) : Tracked D K F :=
  { t with dir := t.dir.setOld source minfo }

def clean (t : Tracked D K F) : Tracked D K F := { t with dirty := .empty }

/-- `t'` comes from `t` by writes that are all tracked. -/
structure Follows (now : ℕ) (t t' : Tracked D K F) : Prop where
  writable : t'.dir.Writable now
  dirName : t'.dir.dirName = t.dir.dirName
  dirty : ∀ k ∈ t.dirty.keys, k ∈ t'.dirty.keys
  frame : ∀ k, k ∉ t'.dirty.keys → ∀ source,
    t'.dir.getArraySourceKey source k = t.dir.getArraySourceKey source k

variable {t : Tracked D K F}

theorem Follows.refl {now : ℕ} (h : t.dir.Writable now) : Follows now t t :=
  ⟨h, rfl, fun _ hk => hk, fun _ _ _ => rfl⟩

theorem Follows.trans {now : ℕ} {t t' t'' : Tracked D K F} (h : Follows now t t')
    (h' : Follows now t' t'') : Follows now t t'' := by
  refine ⟨h'.writable, h'.dirName.trans h.dirName, fun k hk => h'.dirty k (h.dirty k hk), ?_⟩
  intro k hk source
  rw [h'.frame k hk, h.frame k fun hin => hk (h'.dirty k hin)]

theorem mem_dirty_set {s : SortedSet K} {k k' : K} : k' ∈ (s.set k ()).keys ↔ k' = k ∨ k' ∈ s.keys := by
  rw [SortedMap.mem_keys, SortedMap.mem_keys]
  by_cases hk : k' = k
  · simp [SortedMap.maybeGet_set, hk]
  · simp [SortedMap.maybeGet_set, hk]

theorem write_dir (t : Tracked D K F) (ctx : WriteContext D K) (origSource writer : Source D K)
    (k : K) (rvalues : List F) :
    (t.write ctx origSource writer k rvalues).dir =
      t.dir.writeEntry ctx origSource writer k rvalues := by
  unfold write
  split_ifs with hsame
  · exact (writeEntry_same hsame).symm
  · rfl

theorem follows_write (ctx : WriteContext D K) (h : t.dir.Writable ctx.tick)
    (origSource writer : Source D K) (k : K) (rvalues : List F) :
    Follows ctx.tick t (t.write ctx origSource writer k rvalues) := by
  by_cases hsame : rvalues = t.dir.getArraySourceKey origSource k
  · have heq : t.write ctx origSource writer k rvalues = t := if_pos hsame
    rw [heq]
    exact Follows.refl h
  · have heq : t.write ctx origSource writer k rvalues =
        ⟨t.dir.writeEntry ctx origSource writer k rvalues, t.dirty.set k ()⟩ := if_neg hsame
    rw [heq]
    constructor
    · exact ⟨valid_writeEntry h.1 h.2 origSource writer k rvalues,
        until_writeEntry h.1 h.2 origSource writer k rvalues⟩
    · exact (writeEntry_frame t.dir ctx origSource writer k rvalues).2.2.2.2.2.1
    · intro k' hk'
      exact mem_dirty_set.mpr (.inr hk')
    · intro k' hk' source
      have hne : k' ≠ k := fun heq => hk' (mem_dirty_set.mpr (.inl heq))
      rw [getArraySourceKey_written h.1.sound writer hsame]
      exact if_neg fun hand => hne hand.1

theorem follows_setOld {now : ℕ} (h : t.dir.Writable now) (source : Source D K)
    (minfo : MInfo D K) : Follows now t (t.setOld source minfo) := by
  refine ⟨⟨?_, ?_⟩, rfl, fun _ hk => hk, fun _ _ _ => rfl⟩
  · exact ⟨h.1.distinct, h.1.data, h.1.newer, h.1.masked⟩
  · exact ⟨h.2.fixed, h.2.data⟩

end Tracked

/-- The writes of a row for one source, then the removal of the old keys it no longer writes. -/
def writesOf (oldKeys : List K) (writes : SortedMap K (List F)) : List (K × List F) :=
  writes.items ++ (oldKeys.filter fun k => !writes.containsKey k).map fun k => (k, [])

def writeAll (ctx : WriteContext D K) (source : Source D K) (child : Tracked D K F)
    (ws : List (K × List F)) : Tracked D K F :=
  ws.foldl (fun child w => child.write ctx source source w.1 w.2) child

theorem follows_writeAll {tick : ℕ} (source : Source D K) (ws : List (K × List F))
    {child : Tracked D K F} (h : child.dir.Writable tick) :
    child.Follows tick (writeAll ⟨tick, none⟩ source child ws) := by
  induction ws generalizing child with
  | nil => exact Tracked.Follows.refl h
  | cons w rest ih =>
    have hstep := Tracked.follows_write ⟨tick, none⟩ h source source w.1 w.2
    exact hstep.trans (ih hstep.writable)

theorem writeAll_other {tick : ℕ} {source source' : Source D K} (hs : source' ≠ source)
    (ws : List (K × List F)) {child : Tracked D K F} (h : child.dir.Writable tick) (k : K) :
    (writeAll ⟨tick, none⟩ source child ws).dir.getArraySourceKey source' k =
      child.dir.getArraySourceKey source' k := by
  induction ws generalizing child with
  | nil => rfl
  | cons w rest ih =>
    have hstep := Tracked.follows_write ⟨tick, none⟩ h source source w.1 w.2
    have hrest := ih hstep.writable
    rw [Tracked.write_dir, getArraySourceKey_writeEntry h.1.sound rfl] at hrest
    rw [if_neg fun hand => hs hand.2] at hrest
    exact hrest

theorem writeAll_own {tick : ℕ} {source : Source D K} (ws : List (K × List F))
    {child : Tracked D K F} (h : child.dir.Writable tick) {k : K} {values : List F}
    (hall : ∀ w ∈ ws, w.1 = k → w.2 = values)
    (hin : (∃ w ∈ ws, w.1 = k) ∨ child.dir.getArraySourceKey source k = values) :
    (writeAll ⟨tick, none⟩ source child ws).dir.getArraySourceKey source k = values := by
  induction ws generalizing child with
  | nil =>
    cases hin with
    | inl hno => exact absurd hno (by simp)
    | inr hold => exact hold
  | cons w rest ih =>
    have hstep := Tracked.follows_write ⟨tick, none⟩ h source source w.1 w.2
    apply ih hstep.writable fun w' hw' => hall w' (mem_cons_of_mem w hw')
    by_cases hrest : ∃ w' ∈ rest, w'.1 = k
    · exact .inl hrest
    · refine .inr ?_
      rw [Tracked.write_dir, getArraySourceKey_writeEntry h.1.sound rfl]
      by_cases hk : w.1 = k
      · rw [if_pos ⟨hk.symm, rfl⟩]
        exact hall w mem_cons_self hk
      · rw [if_neg fun hand => hk hand.1.symm]
        cases hin with
        | inl hex =>
          obtain ⟨w', hw', hk'⟩ := hex
          cases mem_cons.mp hw' with
          | inl heq => exact absurd (heq ▸ hk') hk
          | inr hin' => exact absurd ⟨w', hin', hk'⟩ hrest
        | inr hold => exact hold

abbrev RowFun (K F E : Type) [LinearOrder K] := K → List F → Except E (SortedMap K (List F))

def rowsOf (f : RowFun K F E) (key : K) (rows : List F) : Except E (SortedMap K (List F)) :=
  if rows = [] then .ok .empty else f key rows

/-- One key of `runRows`. What the context holds when the mapper throws goes with the exception;
`broken` is for old keys that cannot be read. -/
def mapRow (f : RowFun K F E) (broken : E) (ctx : WriteContext D K) (parent : EagerDir D K F)
    (child : Tracked D K F) (key : K) : Except (E × Tracked D K F) (Tracked D K F) :=
  match child.dir.getOld ⟨parent.dirName, key⟩, rowsOf f key (parent.filesOf key) with
  | none, _ => .error (broken, child)
  | some _, .error e => .error (e, child)
  | some oldInfo, .ok writes =>
    .ok ((writeAll ctx ⟨parent.dirName, key⟩ child (writesOf oldInfo.getKeys writes)).setOld
      ⟨parent.dirName, key⟩ (.create writes.keys [] []))

def mapRows (f : RowFun K F E) (broken : E) (ctx : WriteContext D K) (parent : EagerDir D K F)
    (child : Tracked D K F) (keys : List K) : Except (E × Tracked D K F) (Tracked D K F) :=
  keys.foldlM (mapRow f broken ctx parent) child

/-- The child has what the mapper writes for the rows that the parent has at a key. It can have
more of that source. -/
def Covers (f : RowFun K F E) (parent child : EagerDir D K F) (key : K) : Prop :=
  ∃ writes, rowsOf f key (parent.filesOf key) = .ok writes ∧
    ∀ w ∈ writes.items, child.getArraySourceKey ⟨parent.dirName, key⟩ w.1 = w.2

theorem mapRow_ok {f : RowFun K F E} {broken : E} {tick : ℕ} {parent : EagerDir D K F}
    {child child' : Tracked D K F} {key : K}
    (hm : mapRow f broken ⟨tick, none⟩ parent child key = .ok child') :
    ∃ oldInfo writes, rowsOf f key (parent.filesOf key) = .ok writes ∧
      child' = (writeAll ⟨tick, none⟩ ⟨parent.dirName, key⟩ child (writesOf oldInfo writes)).setOld
        ⟨parent.dirName, key⟩ (.create writes.keys [] []) := by
  unfold mapRow at hm
  split at hm
  · exact absurd hm (by simp)
  · exact absurd hm (by simp)
  · rename_i oldInfo writes _ hrows
    exact ⟨_, writes, hrows, (Except.ok.inj hm).symm⟩

section Row

variable {f : RowFun K F E} {broken : E} {tick : ℕ} {parent : EagerDir D K F}
  {child child' : Tracked D K F} {key : K}

theorem mapRow_follows (h : child.dir.Writable tick)
    (hm : mapRow f broken ⟨tick, none⟩ parent child key = .ok child') : child.Follows tick child' := by
  obtain ⟨oldInfo, writes, _, rfl⟩ := mapRow_ok hm
  have hall := follows_writeAll ⟨parent.dirName, key⟩ (writesOf oldInfo writes) h
  exact hall.trans (Tracked.follows_setOld hall.writable _ _)

theorem mapRow_covers (h : child.dir.Writable tick)
    (hm : mapRow f broken ⟨tick, none⟩ parent child key = .ok child') : Covers f parent child'.dir key := by
  obtain ⟨oldInfo, writes, hrows, rfl⟩ := mapRow_ok hm
  refine ⟨writes, hrows, ?_⟩
  intro w hw
  apply writeAll_own _ h
  · intro w' hw' hk
    cases mem_append.mp hw' with
    | inl hin =>
      have hget := SortedMap.maybeGet_eq_some.mpr hw
      have hget' := SortedMap.maybeGet_eq_some.mpr hin
      rw [hk, hget] at hget'
      exact (Option.some.inj hget').symm
    | inr hold =>
      obtain ⟨k, hkept, rfl⟩ := mem_map.mp hold
      have hno := (mem_filter.mp hkept).2
      have hcontains : writes.containsKey k = true := by
        rw [SortedMap.containsKey_iff, SortedMap.mem_keys]
        have hkey : k = w.1 := hk
        rw [hkey]
        exact ⟨w.2, SortedMap.maybeGet_eq_some.mpr hw⟩
      simp [hcontains] at hno
  · exact .inl ⟨w, mem_append_left _ hw, rfl⟩

theorem mapRow_keeps {key' : K} (hk : key' ≠ key) (h : child.dir.Writable tick)
    (hm : mapRow f broken ⟨tick, none⟩ parent child key = .ok child')
    (hc : Covers f parent child.dir key') : Covers f parent child'.dir key' := by
  obtain ⟨oldInfo, _, _, rfl⟩ := mapRow_ok hm
  obtain ⟨writes, hrows, hget⟩ := hc
  refine ⟨writes, hrows, ?_⟩
  intro w hw
  rw [← hget w hw]
  apply writeAll_other _ _ h
  intro heq
  exact hk (congrArg Source.baseName heq)

end Row

theorem mapRows_covers {f : RowFun K F E} {broken : E} {tick : ℕ} {parent : EagerDir D K F}
    (keys : List K) {child child' : Tracked D K F} (h : child.dir.Writable tick)
    (hm : mapRows f broken ⟨tick, none⟩ parent child keys = .ok child') :
    child.Follows tick child' ∧
      ∀ key, key ∈ keys ∨ Covers f parent child.dir key → Covers f parent child'.dir key := by
  induction keys generalizing child with
  | nil =>
    have heq : child = child' := Except.ok.inj hm
    rw [← heq]
    refine ⟨Tracked.Follows.refl h, ?_⟩
    intro key hor
    cases hor with
    | inl hin => exact absurd hin (by simp)
    | inr hc => exact hc
  | cons key rest ih =>
    unfold mapRows at hm
    rw [foldlM_cons] at hm
    cases hrow : mapRow f broken ⟨tick, none⟩ parent child key with
    | error e =>
      rw [hrow] at hm
      exact absurd hm (by simp [bind, Except.bind])
    | ok middle =>
      rw [hrow] at hm
      have hfollows := mapRow_follows h hrow
      obtain ⟨hrest, hcovers⟩ := ih hfollows.writable hm
      refine ⟨hfollows.trans hrest, ?_⟩
      intro key' hor
      apply hcovers
      by_cases hk : key' = key
      · rw [hk]
        exact .inr (mapRow_covers h hrow)
      · cases hor with
        | inl hin =>
          cases mem_cons.mp hin with
          | inl heq => exact absurd heq hk
          | inr hin' => exact .inl hin'
        | inr hc => exact .inr (mapRow_keeps hk h hrow hc)

theorem Covers.parent {f : RowFun K F E} {parent parent' child : EagerDir D K F} {key : K}
    (h : Covers f parent child key) (hname : parent'.dirName = parent.dirName)
    (hfiles : parent'.filesOf key = parent.filesOf key) : Covers f parent' child key := by
  obtain ⟨writes, hrows, hget⟩ := h
  refine ⟨writes, ?_, ?_⟩
  · rw [hfiles]
    exact hrows
  · rw [hname]
    exact hget

theorem Covers.child {f : RowFun K F E} {parent child child' : EagerDir D K F} {key : K}
    (h : Covers f parent child key)
    (hget : ∀ source k, child'.getArraySourceKey source k = child.getArraySourceKey source k) :
    Covers f parent child' key := by
  obtain ⟨writes, hrows, hread⟩ := h
  refine ⟨writes, hrows, ?_⟩
  intro w hw
  rw [hget]
  exact hread w hw

theorem Tracked.Follows.filesOf {now : ℕ} {t t' : Tracked D K F} (h : t.Follows now t')
    (ht : t.dir.Writable now) {k : K} (hk : k ∉ t'.dirty.keys) :
    t'.dir.filesOf k = t.dir.filesOf k :=
  h.writable.1.sound.filesOf_congr ht.1.sound (h.frame k hk)

variable {d : EagerDir D K F}

theorem filesOf_perm_two (h : d.Sound) (key : K)
    {source source' : Source D K} (hs : source ≠ source') :
    ∃ rest, (d.filesOf key).Perm
      (d.getArraySourceKey source key ++ (d.getArraySourceKey source' key ++ rest)) := by
  obtain ⟨known, hknown⟩ := exists_sources h key
  set sources := insert source (insert source' known)
  have hsorted : (sources.sort (· ≤ ·)).Pairwise (· < ·) := sources.sortedLT_sort.pairwise
  have hmem : ∀ s, d.getArraySourceKey s key ≠ [] → s ∈ sources.sort (· ≤ ·) := by
    intro s hne
    rw [Finset.mem_sort, Finset.mem_insert, Finset.mem_insert]
    exact .inr (.inr (hknown s hne))
  have hin : source ∈ sources.sort (· ≤ ·) := by
    rw [Finset.mem_sort]
    exact Finset.mem_insert_self _ _
  have hin' : source' ∈ (sources.sort (· ≤ ·)).erase source := by
    rw [mem_erase_of_ne hs.symm, Finset.mem_sort, Finset.mem_insert, Finset.mem_insert]
    exact .inr (.inl rfl)
  have hperm : (sources.sort (· ≤ ·)).Perm
      (source :: source' :: ((sources.sort (· ≤ ·)).erase source).erase source') :=
    (perm_cons_erase hin).trans ((perm_cons_erase hin').cons source)
  rw [filesOf_sources h key hsorted hmem]
  refine ⟨(((sources.sort (· ≤ ·)).erase source).erase source').flatMap
    fun s => d.getArraySourceKey s key, ?_⟩
  exact hperm.flatMap_right _

theorem filesOf_perm_one (h : d.Sound) (key : K) (source : Source D K) :
    ∃ rest, (d.filesOf key).Perm (d.getArraySourceKey source key ++ rest) := by
  obtain ⟨known, hknown⟩ := exists_sources h key
  set sources := insert source known
  have hsorted : (sources.sort (· ≤ ·)).Pairwise (· < ·) := sources.sortedLT_sort.pairwise
  have hmem : ∀ s, d.getArraySourceKey s key ≠ [] → s ∈ sources.sort (· ≤ ·) := by
    intro s hne
    rw [Finset.mem_sort, Finset.mem_insert]
    exact .inr (hknown s hne)
  have hin : source ∈ sources.sort (· ≤ ·) := by
    rw [Finset.mem_sort]
    exact Finset.mem_insert_self _ _
  rw [filesOf_sources h key hsorted hmem]
  exact ⟨_, (perm_cons_erase hin).flatMap_right _⟩

/-- What the mapper writes for each key that the parent has when the child is made. -/
def mapData (f : RowFun K F E) : List (K × List F) → Except E (List (K × SortedMap K (List F)))
  | [] => .ok []
  | x :: rest =>
    (rowsOf f x.1 x.2).bind fun writes => (mapData f rest).map fun mapped => (x.1, writes) :: mapped

def mappedCreation (childName : D) (tick : ℕ) (parentName : D)
    (mapped : List (K × SortedMap K (List F))) : Creation D K F where
  dirName := childName
  input := false
  tick := tick
  creator := none
  writes := mapped.flatMap fun x => x.2.items.map fun w => (w.1, w.2, ⟨parentName, x.1⟩)
  oldVec := (mapped.filter fun x => !x.2.isEmpty).map fun x =>
    (⟨parentName, x.1⟩, .create x.2.keys [] [])
  reducer := none

def createMapped (f : RowFun K F E) (broken : E) (childName : D) (tick : ℕ)
    (parent : EagerDir D K F) : Except E (Tracked D K F) :=
  (mapData f parent.unsafeGetFileIter).bind fun mapped =>
    match (mappedCreation childName tick parent.dirName mapped).make with
    | none => .error broken
    | some s => .ok ⟨s.dir, .empty⟩

theorem mapData_ok {f : RowFun K F E} {iter : List (K × List F)}
    {mapped : List (K × SortedMap K (List F))} (hm : mapData f iter = .ok mapped) :
    mapped.map Prod.fst = iter.map Prod.fst ∧
      ∀ x ∈ iter, ∃ writes, (x.1, writes) ∈ mapped ∧ rowsOf f x.1 x.2 = .ok writes := by
  induction iter generalizing mapped with
  | nil =>
    rw [← Except.ok.inj hm]
    exact ⟨rfl, fun _ hx => absurd hx (by simp)⟩
  | cons x rest ih =>
    unfold mapData at hm
    cases hrow : rowsOf f x.1 x.2 with
    | error e =>
      rw [hrow] at hm
      exact absurd hm (by simp [Except.bind])
    | ok writes =>
      rw [hrow] at hm
      cases hrest : mapData f rest with
      | error e =>
        rw [hrest] at hm
        exact absurd hm (by simp [Except.bind, Except.map])
      | ok tail =>
        rw [hrest] at hm
        have heq : (x.1, writes) :: tail = mapped := Except.ok.inj hm
        have htail := ih hrest
        rw [← heq]
        refine ⟨by simp [htail.1], ?_⟩
        intro y hy
        cases mem_cons.mp hy with
        | inl hyx =>
          rw [hyx]
          exact ⟨writes, mem_cons_self, hrow⟩
        | inr hin =>
          obtain ⟨ws, hws, hok⟩ := htail.2 y hin
          exact ⟨ws, mem_cons_of_mem _ hws, hok⟩

theorem unsafeGetFileIter_sorted (hred : d.reducer = none) :
    d.unsafeGetFileIter.Pairwise fun a b => a.1 < b.1 := by
  unfold unsafeGetFileIter
  rw [hred]
  exact d.unsafeGetFileIterNoReducer_sorted

theorem mappedCreation_nodup (childName : D) (tick : ℕ) (parentName : D)
    {mapped : List (K × SortedMap K (List F))} (h : (mapped.map Prod.fst).Nodup) :
    ((mappedCreation childName tick parentName mapped).writes.map fun w => (w.1, w.2.2)).Nodup := by
  change ((mapped.flatMap fun x => x.2.items.map fun w =>
    (w.1, w.2, (⟨parentName, x.1⟩ : Source D K))).map fun w => (w.1, w.2.2)).Nodup
  rw [map_flatMap, nodup_flatMap]
  constructor
  · intro x _
    rw [map_map]
    have hkeys : (x.2.items.map Prod.fst).Nodup :=
      x.2.keys_sorted.imp fun hlt => ne_of_lt hlt
    apply List.Nodup.of_map Prod.fst
    rw [map_map]
    exact hkeys
  · have hpair : mapped.Pairwise fun a b => a.1 ≠ b.1 := pairwise_map.mp h
    apply hpair.imp
    intro a b hne
    rw [Function.onFun, disjoint_left]
    intro p hp hp'
    obtain ⟨w, hw, hpw⟩ := mem_map.mp hp
    obtain ⟨w', hw', hpw'⟩ := mem_map.mp hp'
    obtain ⟨y, _, rfl⟩ := mem_map.mp hw
    obtain ⟨y', _, rfl⟩ := mem_map.mp hw'
    have hsource := congrArg (fun q : K × Source D K => q.2.baseName) (hpw.trans hpw'.symm)
    exact hne hsource

theorem getArraySourceKey_make {c : Creation D K F}
    (hnodup : (c.writes.map fun w => (w.1, w.2.2)).Nodup) {s : Clocked D K F}
    (hs : c.make = some s) {w : K × List F × Source D K} (hw : w ∈ c.writes) :
    s.dir.getArraySourceKey w.2.2 w.1 = w.2.1 := by
  have hmade := make_made hs
  have hread : s.dir.getArraySourceKey w.2.2 w.1 =
      (s.dir.fixedData.data.getArraySourceKey w.2.2 w.1).flatten := by
    unfold getArraySourceKey
    rw [hmade.data]
    rfl
  have hrow : (⟨w.1, w.2.1, w.2.2, c.tick⟩ : FixedRow K (Source D K) (List F)) ∈
      s.dir.fixedData.data.rows := by
    rw [hmade.fixedData]
    exact FixedDir.mem_rows_create.mpr (mem_map_of_mem hw)
  have hone := FixedDataMap.getArraySourceKey_of_mem (make_valid hnodup hs).1.distinct hrow
  rw [hread]
  change (s.dir.fixedData.data.getArraySourceKey w.2.2 w.1) = [w.2.1] at hone
  rw [hone]
  simp

theorem createMapped_covers {f : RowFun K F E} {broken : E} {childName : D} {tick : ℕ}
    {parent : EagerDir D K F} (hred : parent.reducer = none) {child : Tracked D K F}
    (hm : createMapped f broken childName tick parent = .ok child) :
    child.dir.Writable tick ∧ child.dirty = .empty ∧ child.dir.reducer = none ∧
      child.dir.dirName = childName ∧ ∀ key, Covers f parent child.dir key := by
  unfold createMapped at hm
  cases hdata : mapData f parent.unsafeGetFileIter with
  | error e =>
    rw [hdata] at hm
    exact absurd hm (by simp [Except.bind])
  | ok mapped =>
    rw [hdata] at hm
    cases hmake : (mappedCreation childName tick parent.dirName mapped).make with
    | none =>
      simp only [Except.bind, hmake] at hm
      exact absurd hm (by simp)
    | some s =>
      simp only [Except.bind, hmake] at hm
      have hchild : ⟨s.dir, .empty⟩ = child := Except.ok.inj hm
      have hmapped := mapData_ok hdata
      have hnodup := mappedCreation_nodup childName tick parent.dirName (by
        rw [hmapped.1]
        exact (pairwise_map.mpr (unsafeGetFileIter_sorted hred)).imp fun hlt => ne_of_lt hlt)
      have hmade := make_made hmake
      have hvalid := make_valid hnodup hmake
      rw [hmade.now] at hvalid
      rw [← hchild]
      refine ⟨hvalid, rfl, hmade.reducer rfl, hmade.dirName, ?_⟩
      intro key
      by_cases hnil : parent.filesOf key = []
      · refine ⟨.empty, if_pos hnil, ?_⟩
        intro w hw
        exact absurd hw (by simp)
      · obtain ⟨writes, hin, hok⟩ := hmapped.2 _ ((mem_unsafeGetFileIter hred).2 key hnil)
        refine ⟨writes, hok, ?_⟩
        intro w hw
        exact getArraySourceKey_make hnodup hmake
          (mem_flatMap.mpr ⟨_, hin, mem_map_of_mem hw⟩)

end SkipPlatform.EagerDir
