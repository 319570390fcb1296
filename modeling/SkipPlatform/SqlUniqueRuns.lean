import SkipPlatform.SqlUnique

set_option autoImplicit false
set_option linter.unusedSectionVars false

/-! After every statement no two rows of the table agree on the columns of a unique index. -/
namespace SkipPlatform.SqlUnique
open List EagerDir
open StoreSourceMap (Source)

variable {D K V : Type} [LinearOrder D] [StoreKey K] [DecidableEq V]

/-- No two rows, counting repetitions, agree on the columns of the index. -/
structure Unique (u : UniqueIndex D K V) (table : EagerDir D K (RowValues V)) : Prop where
  once : ∀ key, ∀ row ∈ table.filesOf key, row.repeatCount = 1
  within : ∀ key, ((table.filesOf key).map u.project).Nodup
  across : ∀ key key', key ≠ key' → ∀ row ∈ table.filesOf key, ∀ row' ∈ table.filesOf key',
    u.project row ≠ u.project row'

variable {u : UniqueIndex D K V}

theorem projLoop_ok {all rows : List (RowValues V)}
    {result final : SortedMap K (List (RowValues V))}
    (h : u.projLoop all result rows = .ok final) :
    (∀ v ∈ rows, v.repeatCount = 1) ∧
      ∀ k, (final.maybeGet k).getD [] = (result.maybeGet k).getD [] ++
        rows.filter fun v => u.projKey (u.project v) = k := by
  induction rows generalizing result with
  | nil =>
    have heq : result = final := Except.ok.inj h
    rw [heq]
    exact ⟨fun _ hv => absurd hv (by simp), fun k => by simp⟩
  | cons v rest ih =>
    unfold UniqueIndex.projLoop at h
    by_cases hone : v.repeatCount = 1
    · rw [if_neg (not_not.mpr hone)] at h
      obtain ⟨hall, hget⟩ := ih h
      constructor
      · intro v' hv'
        cases mem_cons.mp hv' with
        | inl heq => rw [heq]; exact hone
        | inr hin => exact hall v' hin
      · intro k
        rw [hget k, SortedMap.maybeGet_set]
        by_cases hk : u.projKey (u.project v) = k
        · rw [if_pos hk.symm, filter_cons_of_pos (by simpa using hk), hk]
          simp
        · rw [if_neg fun heq => hk heq.symm, filter_cons_of_neg (by simpa using hk)]
    · rw [if_pos hone] at h
      exact absurd h (by simp)

theorem projMap_covers {input proj : EagerDir D K (RowValues V)} {key : K}
    (h : Covers u.projMap input proj key) :
    (∀ row ∈ input.filesOf key, row.repeatCount = 1) ∧
      ∀ row ∈ input.filesOf key,
        proj.getArraySourceKey ⟨input.dirName, key⟩ (u.projKey (u.project row)) =
          (input.filesOf key).filter fun v => u.project v = u.project row := by
  obtain ⟨writes, hrows, hget⟩ := h
  by_cases hnil : input.filesOf key = []
  · rw [hnil]
    exact ⟨fun _ hv => absurd hv (by simp), fun _ hv => absurd hv (by simp)⟩
  · have hok : u.projLoop (input.filesOf key) .empty (input.filesOf key) = .ok writes :=
      (if_neg hnil).symm.trans hrows
    obtain ⟨hall, hvalue⟩ := projLoop_ok hok
    refine ⟨hall, ?_⟩
    intro row hrow
    have hfilter : (writes.maybeGet (u.projKey (u.project row))).getD [] =
        (input.filesOf key).filter fun v => u.project v = u.project row := by
      rw [hvalue]
      simp only [SortedMap.maybeGet_empty, Option.getD_none, nil_append]
      apply filter_congr
      intro v _
      rw [decide_eq_decide]
      exact u.projKey_injective.eq_iff
    have hne : row ∈ (input.filesOf key).filter fun v => u.project v = u.project row :=
      mem_filter.mpr ⟨hrow, by simp⟩
    cases hsome : writes.maybeGet (u.projKey (u.project row)) with
    | none =>
      rw [hsome, Option.getD_none] at hfilter
      rw [← hfilter] at hne
      exact absurd hne (by simp)
    | some values =>
      rw [hsome, Option.getD_some] at hfilter
      rw [hget _ (SortedMap.maybeGet_eq_some.mp hsome), hfilter]

theorem sinkMap_covers {proj sink : EagerDir D K (RowValues V)} {key : K}
    (h : Covers u.sinkMap proj sink key) :
    ((proj.filesOf key).map RowValues.repeatCount).sum ≤ 1 := by
  obtain ⟨writes, hrows, _⟩ := h
  by_cases hnil : proj.filesOf key = []
  · rw [hnil]
    simp
  · have hok : u.sinkMap key (proj.filesOf key) = .ok writes := (if_neg hnil).symm.trans hrows
    unfold UniqueIndex.sinkMap at hok
    by_contra hgt
    rw [if_pos (by omega)] at hok
    exact absurd hok (by simp)

theorem sum_ones {rows : List (RowValues V)} (h : ∀ row ∈ rows, row.repeatCount = 1) :
    (rows.map RowValues.repeatCount).sum = rows.length := by
  induction rows with
  | nil => rfl
  | cons row rest ih =>
    rw [map_cons, sum_cons, h row mem_cons_self,
      ih fun r hr => h r (mem_cons_of_mem row hr), length_cons]
    omega

theorem unique_of_covers {input proj sink : EagerDir D K (RowValues V)}
    (hp : proj.Sound) (hproj : ∀ key, Covers u.projMap input proj key)
    (hsink : ∀ key, Covers u.sinkMap proj sink key) : Unique u input := by
  have hlen : ∀ key, ∀ p, (((input.filesOf key).filter fun v => u.project v = p).map
      RowValues.repeatCount).sum = ((input.filesOf key).filter fun v => u.project v = p).length := by
    intro key p
    apply sum_ones
    intro row hrow
    exact (projMap_covers (hproj key)).1 row (mem_filter.mp hrow).1
  constructor
  · intro key row hrow
    exact (projMap_covers (hproj key)).1 row hrow
  · intro key
    rw [nodup_iff_count_le_one]
    intro p
    by_cases hin : p ∈ (input.filesOf key).map u.project
    · obtain ⟨row, hrow, hp'⟩ := mem_map.mp hin
      have hget := (projMap_covers (hproj key)).2 row hrow
      obtain ⟨rest, hperm⟩ := filesOf_perm_one hp (u.projKey (u.project row)) ⟨input.dirName, key⟩
      have hsum := sinkMap_covers (hsink (u.projKey (u.project row)))
      rw [(hperm.map RowValues.repeatCount).sum_eq, hget, map_append, sum_append,
        hlen] at hsum
      have hcount : ((input.filesOf key).map u.project).count p =
          ((input.filesOf key).filter fun v => u.project v = u.project row).length := by
        rw [← hp', List.count, countP_map, countP_eq_length_filter]
        congr 1
        apply filter_congr
        intro v _
        rw [Bool.eq_iff_iff]
        simp
      omega
    · rw [count_eq_zero_of_not_mem hin]
      omega
  · intro key key' hne row hrow row' hrow' heq
    have hget := (projMap_covers (hproj key)).2 row hrow
    have hget' := (projMap_covers (hproj key')).2 row' hrow'
    rw [← heq] at hget'
    have hsources : (⟨input.dirName, key⟩ : Source D K) ≠ ⟨input.dirName, key'⟩ := by
      intro hs
      exact hne (congrArg Source.baseName hs)
    obtain ⟨rest, hperm⟩ := filesOf_perm_two hp (u.projKey (u.project row)) hsources
    have hsum := sinkMap_covers (hsink (u.projKey (u.project row)))
    rw [(hperm.map RowValues.repeatCount).sum_eq, hget, hget', map_append, sum_append,
      map_append, sum_append, hlen, hlen] at hsum
    have hpos : 0 < ((input.filesOf key).filter fun v => u.project v = u.project row).length :=
      length_pos_of_mem (mem_filter.mpr ⟨hrow, by simp⟩)
    have hpos' : 0 < ((input.filesOf key').filter fun v => u.project v = u.project row).length :=
      length_pos_of_mem (mem_filter.mpr ⟨hrow', by simp [heq]⟩)
    omega

theorem unique_of_index {table index : EagerDir D K (RowValues V)}
    (hi : index.Sound) (hindex : ∀ key, Covers u.indexMap table index key) (h : Unique u index) :
    Unique u table := by
  have hcopy : ∀ key, table.filesOf key ≠ [] →
      ∃ k, index.getArraySourceKey ⟨table.dirName, key⟩ k = table.filesOf key := by
    intro key hne
    obtain ⟨writes, hrows, hget⟩ := hindex key
    have hok : u.indexMap key (table.filesOf key) = .ok writes := (if_neg hne).symm.trans hrows
    cases hfiles : table.filesOf key with
    | nil => exact absurd hfiles hne
    | cons row rest =>
      rw [hfiles] at hok
      have hwrites := Except.ok.inj hok
      refine ⟨u.indexKey (u.fields.map fun i => row.values.getD i none), ?_⟩
      apply hget (_, row :: rest)
      rw [← hwrites, ← SortedMap.maybeGet_eq_some, SortedMap.maybeGet_singleton]
      exact if_pos rfl
  constructor
  · intro key row hrow
    obtain ⟨k, hk⟩ := hcopy key (ne_nil_of_mem hrow)
    obtain ⟨rest, hperm⟩ := filesOf_perm_one hi k ⟨table.dirName, key⟩
    apply h.once k row
    rw [hperm.mem_iff, hk]
    exact mem_append_left _ hrow
  · intro key
    by_cases hne : table.filesOf key = []
    · rw [hne]
      exact nodup_nil
    · obtain ⟨k, hk⟩ := hcopy key hne
      obtain ⟨rest, hperm⟩ := filesOf_perm_one hi k ⟨table.dirName, key⟩
      have hnodup := (hperm.map u.project).nodup_iff.mp (h.within k)
      rw [hk, map_append] at hnodup
      exact (nodup_append.mp hnodup).1
  · intro key key' hkey row hrow row' hrow' heq
    obtain ⟨k, hk⟩ := hcopy key (ne_nil_of_mem hrow)
    obtain ⟨k', hk'⟩ := hcopy key' (ne_nil_of_mem hrow')
    have hsources : (⟨table.dirName, key⟩ : Source D K) ≠ ⟨table.dirName, key'⟩ := by
      intro hs
      exact hkey (congrArg Source.baseName hs)
    by_cases hsame : k = k'
    · obtain ⟨rest, hperm⟩ := filesOf_perm_two hi k hsources
      have hnodup := (hperm.map u.project).nodup_iff.mp (h.within k)
      rw [hk, hsame, hk', map_append, map_append, nodup_append] at hnodup
      exact hnodup.2.2 _ (mem_map_of_mem hrow) _
        (mem_append_left _ (mem_map_of_mem hrow')) heq
    · obtain ⟨rest, hperm⟩ := filesOf_perm_one hi k ⟨table.dirName, key⟩
      obtain ⟨rest', hperm'⟩ := filesOf_perm_one hi k' ⟨table.dirName, key'⟩
      apply h.across k k' hsame row _ row' _ heq
      · rw [hperm.mem_iff, hk]
        exact mem_append_left _ hrow
      · rw [hperm'.mem_iff, hk']
        exact mem_append_left _ hrow'

structure Mapped (f : RowFun K (RowValues V) (Failure V)) (tick : ℕ)
    (parent : EagerDir D K (RowValues V)) (child : Tracked D K (RowValues V)) : Prop where
  writable : child.dir.Writable tick
  clean : child.dirty = .empty
  covers : ∀ key, Covers f parent child.dir key

def Check.Settled (tick : ℕ) (table : EagerDir D K (RowValues V)) (c : Check D K V) : Prop :=
  match c.index with
  | none =>
    Mapped c.spec.projMap tick table c.proj ∧ Mapped c.spec.sinkMap tick c.proj.dir c.sink
  | some index =>
    Mapped c.spec.indexMap tick table index ∧ Mapped c.spec.projMap tick index.dir c.proj ∧
      Mapped c.spec.sinkMap tick c.proj.dir c.sink

structure Ctx.Settled (ctx : Ctx D K V) : Prop where
  writable : ctx.table.dir.Writable ctx.tick
  clean : ctx.table.dirty = .empty
  checks : ∀ c ∈ ctx.checks, c.Settled ctx.tick ctx.table.dir
  plain : ctx.sourceOverride = none

variable {tick : ℕ}

theorem Check.Settled.unique {table : EagerDir D K (RowValues V)} {c : Check D K V}
    (h : c.Settled tick table) : Unique c.spec table := by
  unfold Check.Settled at h
  cases hindex : c.index with
  | none =>
    rw [hindex] at h
    exact unique_of_covers h.1.writable.1.sound h.1.covers h.2.covers
  | some index =>
    rw [hindex] at h
    exact unique_of_index h.1.writable.1.sound h.1.covers
      (unique_of_covers h.2.1.writable.1.sound h.2.1.covers h.2.2.covers)

theorem Writable.next {d : EagerDir D K (RowValues V)} (h : d.Writable tick) :
    d.Writable (tick + 1) := ⟨h.1, h.2.mono (Nat.le_succ tick)⟩

variable {f : RowFun K (RowValues V) (Failure V)}

theorem Mapped.update
    {parent parent' child child' : Tracked D K (RowValues V)} (h : Mapped f tick parent.dir child)
    (hparent : parent.dir.Writable tick) (hfollows : parent.Follows tick parent')
    (hm : mapRows f .broken ⟨tick, none⟩ parent'.dir child parent'.dirty.keys = .ok child') :
    child.Follows tick child' ∧ Mapped f (tick + 1) parent'.dir child'.clean := by
  obtain ⟨hchild, hcovers⟩ := mapRows_covers _ h.writable hm
  refine ⟨hchild, Writable.next hchild.writable, rfl, ?_⟩
  intro key
  apply hcovers
  by_cases hk : key ∈ parent'.dirty.keys
  · exact .inl hk
  · exact .inr ((h.covers key).parent hfollows.dirName (hfollows.filesOf hparent hk))

variable {c c' : Check D K V}

variable {table table' : Tracked D K (RowValues V)}

/-- A context in which only the table was written since the last update. -/
structure Ctx.Written (ctx ctx' : Ctx D K V) : Prop where
  tick : ctx'.tick = ctx.tick
  checks : ctx'.checks = ctx.checks
  override : ctx'.sourceOverride = ctx.sourceOverride
  table : ctx.table.Follows ctx.tick ctx'.table

theorem Ctx.Written.refl {ctx : Ctx D K V} (h : ctx.Settled) : ctx.Written ctx :=
  ⟨rfl, rfl, rfl, Tracked.Follows.refl h.writable⟩

theorem Ctx.Written.writeEntry {ctx ctx' : Ctx D K V} (h : ctx.Written ctx') (e : Ctx.Edit D K V) :
    ctx.Written (ctx'.writeEntry e) := by
  refine ⟨h.tick, h.checks, h.override, h.table.trans ?_⟩
  have hw : ctx'.table.dir.Writable ctx'.tick := by
    rw [h.tick]
    exact h.table.writable
  have hstep := Tracked.follows_write ⟨ctx'.tick, ctx'.sourceOverride⟩ hw e.2.1 e.2.2.1 e.1 e.2.2.2
  rw [← h.tick]
  exact hstep

theorem Ctx.Written.writeMany {ctx ctx' : Ctx D K V} (h : ctx.Written ctx')
    (edits : List (Ctx.Edit D K V)) : ctx.Written (ctx'.writeMany edits) := by
  induction edits generalizing ctx' with
  | nil => exact h
  | cons e rest ih => exact ih (h.writeEntry e)

theorem Ctx.Written.deleteRows {ctx ctx' : Ctx D K V} (h : ctx.Written ctx')
    (writer : K → Source D K) (selected : List K) :
    ctx.Written (SqlUnique.deleteRows writer selected ctx') := by
  induction selected generalizing ctx' with
  | nil => exact h
  | cons key rest ih => exact ih (h.writeMany _)

variable {keys : TableKeys K V}

theorem Ctx.Written.applyChange {ctx ctx' : Ctx D K V} (h : ctx.Written ctx')
    (change : Change D K V) : ctx.Written (SqlUnique.applyChange keys ctx' change) := by
  cases change with
  | insert rows => exact h.writeMany _
  | insertSelect selectDir rows => exact h.writeMany _
  | delete writer selected => exact h.deleteRows writer selected
  | update writer deleteDir sets selected => exact (h.deleteRows writer selected).writeMany _

variable {ctx ctx' : Ctx D K V} {rows : List (RowValues V × Source D K)}

variable {limit : D → Option ℕ}

theorem purgeDir_same {t t' : Tracked D K (RowValues V)}
    (h : t.dir.Writable tick) (hp : purgeDir limit t = some t') :
    t'.dir.Writable tick ∧ t'.dir.dirName = t.dir.dirName ∧ t'.dirty = t.dirty ∧
      ∀ source key, t'.dir.getArraySourceKey source key = t.dir.getArraySourceKey source key := by
  unfold purgeDir at hp
  cases hl : limit t.dir.dirName with
  | none =>
    rw [hl] at hp
    rw [← Option.some.inj hp]
    exact ⟨h, rfl, rfl, fun _ _ => rfl⟩
  | some bound =>
    rw [hl] at hp
    obtain ⟨d, hd, ht⟩ := Option.map_eq_some_iff.mp hp
    rw [← ht]
    have hclocked : (⟨t.dir, tick⟩ : Clocked D K (RowValues V)).step (.purge bound) =
        some ⟨d, tick⟩ := Option.map_eq_some_iff.mpr ⟨d, hd, rfl⟩
    refine ⟨writable_step h hclocked, ?_, rfl, getArraySourceKey_purge h.1 hd⟩
    cases purge_cases hd with
    | inl hsame => rw [hsame]
    | inr hex =>
      obtain ⟨fixedOld, heq⟩ := hex
      rw [heq]

theorem purgeDir_filesOf {t t' : Tracked D K (RowValues V)}
    (h : t.dir.Writable tick) (hp : purgeDir limit t = some t') (key : K) :
    t'.dir.filesOf key = t.dir.filesOf key := by
  obtain ⟨hw, _, _, hget⟩ := purgeDir_same h hp
  exact hw.1.sound.filesOf_congr h.1.sound fun source => hget source key

theorem Mapped.purge
    {parent parent' child child' : Tracked D K (RowValues V)} (h : Mapped f tick parent.dir child)
    (hw : parent.dir.Writable tick) (hp : purgeDir limit parent = some parent')
    (hc : purgeDir limit child = some child') : Mapped f tick parent'.dir child' := by
  obtain ⟨hwc, _, hdirty, hget⟩ := purgeDir_same h.writable hc
  obtain ⟨_, hname, _, _⟩ := purgeDir_same hw hp
  refine ⟨hwc, hdirty.trans h.clean, ?_⟩
  intro key
  exact ((h.covers key).child hget).parent hname (purgeDir_filesOf hw hp key)

variable {root : Ctx D K V}

theorem except_bind_ok {E α β : Type} {x : Except E α} {g : α → Except E β} {b : β}
    (h : (x >>= g) = .ok b) : ∃ a, x = .ok a ∧ g a = .ok b := by
  cases x with
  | error e => exact absurd h (by simp [bind, Except.bind])
  | ok a => exact ⟨a, rfl, h⟩

/-- A directory without reducer, after any writes and purges since it was made. -/
def Reached (s : Clocked D K (RowValues V)) : Prop :=
  ∃ (c : Creation D K (RowValues V)) (s₀ : Clocked D K (RowValues V))
    (steps : List (EagerDir.Step D K (RowValues V))),
    (c.writes.map fun w => (w.1, w.2.2)).Nodup ∧ c.reducer = none ∧ c.make = some s₀ ∧
      s₀.run steps = some s

theorem Reached.writable {s : Clocked D K (RowValues V)} (h : Reached s) :
    s.dir.Writable s.now ∧ s.dir.reducer = none := by
  obtain ⟨c, s₀, steps, hnodup, hred, hmake, hrun⟩ := h
  have hall : ∀ (steps : List (EagerDir.Step D K (RowValues V)))
      (s s' : Clocked D K (RowValues V)), s.dir.Writable s.now → s.dir.reducer = none →
        s.run steps = some s' → s'.dir.Writable s'.now ∧ s'.dir.reducer = none := by
    intro steps
    induction steps with
    | nil =>
      intro s s' hw hnone hrun
      rw [← Option.some.inj hrun]
      exact ⟨hw, hnone⟩
    | cons st rest ih =>
      intro s s' hw hnone hrun
      unfold Clocked.run at hrun
      rw [foldlM_cons] at hrun
      obtain ⟨s₁, hs₁, hrest⟩ := Option.bind_eq_some_iff.mp hrun
      exact ih s₁ s' (writable_step hw hs₁) (reducer_step hs₁ hnone) hrest
  exact hall steps s₀ s (make_valid hnodup hmake) ((make_made hmake).reducer hred) hrun

theorem unsafeGetFileIter_made {c : Creation D K (RowValues V)} (hwrites : c.writes = [])
    (hred : c.reducer = none) {s : Clocked D K (RowValues V)} (hs : c.make = some s) :
    s.dir.unsafeGetFileIter = [] := by
  have hmade := make_made hs
  have hrows : s.dir.fixedData.data.rows = [] := by
    apply eq_nil_iff_forall_not_mem.mpr
    intro r hr
    rw [hmade.fixedData] at hr
    have hacc : r ∈ c.acc := FixedDir.mem_rows_create.mp hr
    rw [Creation.acc, hwrites] at hacc
    exact absurd hacc (by simp)
  have hdata : s.dir.data.data.keys = [] := by
    rw [hmade.data]
    rfl
  unfold unsafeGetFileIter unsafeGetFileIterNoReducer
  rw [hmade.reducer hred, hrows, hdata]
  rfl

theorem createMapped_empty {E : Type} (f : RowFun K (RowValues V) E) (broken : E) (childName : D)
    (tick : ℕ) {parent : EagerDir D K (RowValues V)} (hnil : parent.unsafeGetFileIter = []) :
    ∃ child, createMapped f broken childName tick parent = .ok child ∧
      child.dir.unsafeGetFileIter = [] := by
  obtain ⟨s, hs, _⟩ := make_inv (c := (mappedCreation childName tick parent.dirName [] :
    Creation D K (RowValues V))) ⟨nodup_nil, nodup_nil, rfl⟩
  refine ⟨⟨s.dir, .empty⟩, ?_, ?_⟩
  · unfold createMapped
    rw [hnil]
    simp only [mapData, Except.bind, hs]
  · exact unsafeGetFileIter_made rfl rfl hs

def emptyTable : Creation ℕ PlainKey (RowValues ℤ) where
  dirName := 1
  input := true
  tick := 0
  creator := none
  writes := []
  oldVec := []
  reducer := none

def primaryIndex : UniqueIndex ℕ PlainKey ℤ where
  fields := [0, 1]
  size := 1
  indexKey := fun values => .row ⟨values, 0⟩
  projKey := fun values => .row ⟨values, 1⟩
  projKey_injective := by
    intro a b hab
    injection hab with hrow
    injection hrow
  indexName := 2
  projName := 3
  sinkName := 4

def sampleKeys : TableKeys PlainKey ℤ where
  rowKey := fun values => .row ⟨values, 0⟩
  keyRow
    | .row r => r.values
    | .iid _ => []
  rowLt := fun _ _ => false

end SkipPlatform.SqlUnique
