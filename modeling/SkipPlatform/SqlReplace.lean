import SkipPlatform.EagerDirImage
import SkipPlatform.SqlUniqueRuns

set_option autoImplicit false
set_option linter.unusedSectionVars false

/-! What an update of unique indexes does when their directories have nothing but the rows of the
table: it ends, or it throws a conflict with all rows of one projection. -/
namespace SkipPlatform.SqlUnique
open List EagerDir
open StoreSourceMap (Source)

variable {D K V : Type} [LinearOrder D] [StoreKey K] [DecidableEq V]

/-- The rows of the table with the values `p` in the columns of the index. -/
def group (u : UniqueIndex D K V) (table : EagerDir D K (RowValues V)) (p : List (Option V)) :
    List (RowValues V) :=
  table.live.filter fun row => u.project row = p

variable {u : UniqueIndex D K V} {rows : List (RowValues V)}

theorem rowsOf_projMap {key : K}
    {writes : SortedMap K (List (RowValues V))} (h : rowsOf u.projMap key rows = .ok writes) :
    (∀ v ∈ rows, v.repeatCount = 1) ∧
      ∀ k, (writes.maybeGet k).getD [] = rows.filter fun v => u.projKey (u.project v) = k := by
  by_cases hnil : rows = []
  · rw [rowsOf, if_pos hnil] at h
    rw [← Except.ok.inj h, hnil]
    exact ⟨fun _ hv => absurd hv (by simp), fun _ => rfl⟩
  · rw [rowsOf, if_neg hnil] at h
    obtain ⟨hone, hget⟩ := projLoop_ok h
    refine ⟨hone, ?_⟩
    intro k
    rw [hget k]
    rfl

theorem proj_files {input proj : EagerDir D K (RowValues V)}
    (h : Image u.projMap input proj) (hs : proj.Sound) (hred : input.reducer = none)
    (p : List (Option V)) : (proj.filesOf (u.projKey p)).Perm (group u input p) := by
  obtain ⟨ks, hks, hlive⟩ := exists_keys hred
  rw [← Multiset.coe_eq_coe, h.coe_filesOf hs hks, group, ← Multiset.filter_coe, hlive]
  ext row
  rw [Multiset.count_sum', Multiset.count_filter, Multiset.count_sum']
  have heach : ∀ key ∈ ks,
      (proj.getArraySourceKey ⟨input.dirName, key⟩ (u.projKey p) : Multiset (RowValues V)).count row =
        if u.project row = p then (input.filesOf key : Multiset (RowValues V)).count row else 0 := by
    intro key _
    obtain ⟨writes, _, hrows, _, _, hget⟩ := h.holds key
    rw [hget, (rowsOf_projMap hrows).2, ← Multiset.filter_coe, Multiset.count_filter]
    simp only [u.projKey_injective.eq_iff]
  rw [Finset.sum_congr rfl heach]
  split_ifs with hp
  · rfl
  · simp

theorem proj_key {input proj : EagerDir D K (RowValues V)}
    (h : Image u.projMap input proj) (hs : proj.Sound) {k : K} (hne : proj.filesOf k ≠ []) :
    ∃ p, k = u.projKey p := by
  have hsource : ∃ source, proj.getArraySourceKey source k ≠ [] := by
    by_contra hnone
    push Not at hnone
    exact hne (hs.filesOf_eq_nil.mpr hnone)
  obtain ⟨source, hsource⟩ := hsource
  have hname : source.dirName = input.dirName := by
    by_contra hother
    exact hsource (h.own source k hother)
  obtain ⟨writes, _, hrows, _, _, hget⟩ := h.holds source.baseName
  have hself : source = ⟨input.dirName, source.baseName⟩ := by
    rw [← hname]
  rw [hself, hget, (rowsOf_projMap hrows).2] at hsource
  obtain ⟨row, hrow⟩ := exists_mem_of_ne_nil _ hsource
  have hkey := (mem_filter.mp hrow).2
  exact ⟨u.project row, (of_decide_eq_true hkey).symm⟩

theorem index_live {table index : EagerDir D K (RowValues V)}
    (h : Image u.indexMap table index) (hs : index.Sound) (ht : table.reducer = none)
    (hi : index.reducer = none) : index.live.Perm table.live := by
  have hplace : ∀ key, ∃ place, ∀ k, index.getArraySourceKey ⟨table.dirName, key⟩ k =
      if k = place then table.filesOf key else [] := by
    intro key
    obtain ⟨writes, _, hrows, _, _, hget⟩ := h.holds key
    cases hfiles : table.filesOf key with
    | nil =>
      rw [hfiles, rowsOf, if_pos rfl] at hrows
      refine ⟨key, ?_⟩
      intro k
      rw [hget k, ← Except.ok.inj hrows]
      simp
    | cons row rest =>
      rw [hfiles, rowsOf, if_neg (cons_ne_nil row rest)] at hrows
      refine ⟨u.indexKey (u.fields.map fun i => row.values.getD i none), ?_⟩
      intro k
      rw [hget k, ← Except.ok.inj hrows, SortedMap.maybeGet_singleton]
      split_ifs <;> rfl
  choose place hplace using hplace
  obtain ⟨ks, hks, hlive⟩ := exists_keys ht
  obtain ⟨ks', hks', _⟩ := exists_keys hi
  rw [← Multiset.coe_eq_coe, hlive,
    coe_live hi (ks' ∪ ks.image place) fun key hne => Finset.mem_union_left _ (hks' key hne)]
  rw [Finset.sum_congr rfl fun k _ => h.coe_filesOf hs hks k, Finset.sum_comm]
  apply Finset.sum_congr rfl
  intro key hkey
  have hcoe : ∀ k ∈ ks' ∪ ks.image place,
      (index.getArraySourceKey ⟨table.dirName, key⟩ k : Multiset (RowValues V)) =
        if k = place key then (table.filesOf key : Multiset (RowValues V)) else 0 := by
    intro k _
    rw [hplace key k]
    split_ifs <;> rfl
  rw [Finset.sum_congr rfl hcoe, Finset.sum_ite_eq',
    if_pos (Finset.mem_union_right _ (Finset.mem_image_of_mem place hkey))]

theorem group_perm {d d' : EagerDir D K (RowValues V)}
    (h : d.live.Perm d'.live) (p : List (Option V)) : (group u d p).Perm (group u d' p) :=
  h.filter _

structure Mirrors (f : RowFun K (RowValues V) (Failure V)) (tick : ℕ)
    (parent : EagerDir D K (RowValues V)) (child : Tracked D K (RowValues V)) : Prop where
  writable : child.dir.Writable tick
  clean : child.dirty = .empty
  reducer : child.dir.reducer = none
  image : Image f parent child.dir

theorem Mirrors.update_cases {f : RowFun K (RowValues V) (Failure V)} {tick : ℕ}
    {parent parent' child : Tracked D K (RowValues V)} (h : Mirrors f tick parent.dir child)
    (hparent : parent.dir.Writable tick) (hfollows : parent.Follows tick parent') :
    (∃ child', mapRows f .broken ⟨tick, none⟩ parent'.dir child parent'.dirty.keys = .ok child' ∧
      child.Follows tick child' ∧ Mirrors f (tick + 1) parent'.dir child'.clean) ∨
    ∃ key e thrown, rowsOf f key (parent'.dir.filesOf key) = .error e ∧
      mapRows f .broken ⟨tick, none⟩ parent'.dir child parent'.dirty.keys = .error (e, thrown) := by
  have hcases := mapRows_cases (f := f) Failure.broken parent'.dirty.keys h.writable
    parent.dir.filesOf
    (by
      intro key
      rw [hfollows.dirName]
      exact h.image.holds key)
    (fun key hout => (hfollows.filesOf hparent hout).symm)
    (by
      intro source k hname
      rw [hfollows.dirName] at hname
      exact h.image.own source k hname)
  cases hcases with
  | inr herror => exact .inr herror
  | inl hok =>
    obtain ⟨child', hm, hchild, hred, himage⟩ := hok
    exact .inl ⟨child', hm, hchild, Writable.next hchild.writable, rfl, hred h.reducer, himage⟩

/-- The directories of a unique index have the rows of the table and nothing else. -/
def Check.Exact (tick : ℕ) (table : EagerDir D K (RowValues V)) (c : Check D K V) : Prop :=
  match c.index with
  | none =>
    Mirrors c.spec.projMap tick table c.proj ∧ Mirrors c.spec.sinkMap tick c.proj.dir c.sink
  | some index =>
    Mirrors c.spec.indexMap tick table index ∧ Mirrors c.spec.projMap tick index.dir c.proj ∧
      Mirrors c.spec.sinkMap tick c.proj.dir c.sink

theorem rowsOf_sinkMap {k : K}
    (hone : ∀ row ∈ rows, row.repeatCount = 1) :
    (rows.length ≤ 1 ∧ rowsOf u.sinkMap k rows = .ok .empty) ∨
    (1 < rows.length ∧ ∃ msg values, rowsOf u.sinkMap k rows = .error
    (.conflict msg values rows)) := by
  by_cases hnil : rows = []
  · refine .inl ⟨by simp [hnil], ?_⟩
    rw [rowsOf, if_pos hnil]
  · rw [rowsOf, if_neg hnil]
    unfold UniqueIndex.sinkMap
    rw [sum_ones hone]
    by_cases hlen : 1 < rows.length
    · rw [if_pos hlen]
      exact .inr ⟨hlen, _, _, rfl⟩
    · rw [if_neg hlen]
      exact .inl ⟨by omega, rfl⟩

theorem projLoop_one (u : UniqueIndex D K V) (all : List (RowValues V))
    (hone : ∀ row ∈ rows, row.repeatCount = 1) (result : SortedMap K (List (RowValues V))) :
    ∃ writes, u.projLoop all result rows = .ok writes := by
  induction rows generalizing result with
  | nil => exact ⟨result, rfl⟩
  | cons v rest ih =>
    unfold UniqueIndex.projLoop
    rw [if_neg (not_not.mpr (hone v mem_cons_self))]
    exact ih (fun row hrow => hone row (mem_cons_of_mem v hrow)) _

theorem rowsOf_projMap_one (u : UniqueIndex D K V) (key : K)
    (hone : ∀ row ∈ rows, row.repeatCount = 1) : ∃ writes, rowsOf u.projMap key rows = .ok writes := by
  by_cases hnil : rows = []
  · exact ⟨.empty, if_pos hnil⟩
  · rw [rowsOf, if_neg hnil]
    exact projLoop_one u rows hone .empty

theorem mem_group {table : EagerDir D K (RowValues V)}
    {p : List (Option V)} {row : RowValues V} :
    row ∈ group u table p ↔ row ∈ table.live ∧ u.project row = p := by
  unfold group
  rw [mem_filter, decide_eq_true_iff]

theorem Mirrors.group_le_one {tick tick' : ℕ}
    {input : EagerDir D K (RowValues V)} {proj sink : Tracked D K (RowValues V)}
    (hproj : Mirrors u.projMap tick input proj) (hsink : Mirrors u.sinkMap tick' proj.dir sink)
    (hred : input.reducer = none) :
    (∀ row ∈ input.live, row.repeatCount = 1) ∧ ∀ p, (group u input p).length ≤ 1 := by
  have hone : ∀ row ∈ input.live, row.repeatCount = 1 := by
    intro row hrow
    obtain ⟨key, hkey⟩ := (mem_live hred).mp hrow
    obtain ⟨writes, _, hrows, _⟩ := hproj.image.holds key
    exact (rowsOf_projMap hrows).1 row hkey
  refine ⟨hone, ?_⟩
  intro p
  have hperm := proj_files hproj.image hproj.writable.1.sound hred p
  have honep : ∀ row ∈ proj.dir.filesOf (u.projKey p), row.repeatCount = 1 :=
    fun row hrow => hone row (mem_group.mp (hperm.mem_iff.mp hrow)).1
  obtain ⟨writes, _, hrows, _⟩ := hsink.image.holds (u.projKey p)
  rw [← hperm.length_eq]
  cases rowsOf_sinkMap (u := u) (k := u.projKey p) honep with
  | inl hle => exact hle.1
  | inr hgt =>
    obtain ⟨_, msg, values, herror⟩ := hgt
    rw [herror] at hrows
    exact absurd hrows (by simp)

theorem Check.Exact.unique {tick : ℕ} {table : EagerDir D K (RowValues V)} {c : Check D K V}
    (h : c.Exact tick table) (hred : table.reducer = none) :
    (∀ row ∈ table.live, row.repeatCount = 1) ∧ ∀ p, (group c.spec table p).length ≤ 1 := by
  unfold Check.Exact at h
  cases hindex : c.index with
  | none =>
    rw [hindex] at h
    exact h.1.group_le_one h.2 hred
  | some index =>
    rw [hindex] at h
    have hperm := index_live h.1.image h.1.writable.1.sound hred h.1.reducer
    have hunique := h.2.1.group_le_one h.2.2 h.1.reducer
    constructor
    · intro row hrow
      exact hunique.1 row (hperm.mem_iff.mpr hrow)
    · intro p
      rw [← (group_perm hperm p).length_eq]
      exact hunique.2 p

/-- A failure that is a conflict of all rows of the table with one projection. -/
def Clash (u : UniqueIndex D K V) (table : EagerDir D K (RowValues V)) (failure : Failure V) : Prop :=
  ∃ msg values rows p, failure = .conflict msg values rows ∧ rows.Perm (group u table p) ∧
    1 < rows.length

section Update

variable {tick : ℕ}

theorem updateProj_cases {input input' : Tracked D K (RowValues V)} {c : Check D K V}
    (hw : input.dir.Writable tick) (hproj : Mirrors c.spec.projMap tick input.dir c.proj)
    (hsink : Mirrors c.spec.sinkMap tick c.proj.dir c.sink) (hfollows : input.Follows tick input')
    (hred : input'.dir.reducer = none) (hone : ∀ row ∈ input'.dir.live, row.repeatCount = 1) :
    (∃ c', c.updateProj ⟨tick, none⟩ input' = .ok c' ∧ c'.spec = c.spec ∧ c'.index = c.index ∧
      Mirrors c.spec.projMap (tick + 1) input'.dir c'.proj ∧
      Mirrors c.spec.sinkMap (tick + 1) c'.proj.dir c'.sink) ∨
    ∃ failure thrown, c.updateProj ⟨tick, none⟩ input' = .error (failure, thrown) ∧
      Clash c.spec input'.dir failure := by
  unfold Check.updateProj
  cases hproj.update_cases hw hfollows with
  | inr herror =>
    obtain ⟨key, e, _, hrows, _⟩ := herror
    have honekey : ∀ row ∈ input'.dir.filesOf key, row.repeatCount = 1 :=
      fun row hrow => hone row ((mem_live hred).mpr ⟨key, hrow⟩)
    obtain ⟨writes, hwrites⟩ := rowsOf_projMap_one c.spec key honekey
    rw [hwrites] at hrows
    exact absurd hrows (by simp)
  | inl hok =>
    obtain ⟨proj, hm, hchild, hmirrors⟩ := hok
    have himage : Image c.spec.projMap input'.dir proj.dir := hmirrors.image
    have hsound : proj.dir.Sound := hmirrors.writable.1.sound
    rw [hm]
    simp only
    cases hsink.update_cases hproj.writable hchild with
    | inl hdone =>
      obtain ⟨sink, hs, _, hsinks⟩ := hdone
      rw [hs]
      exact .inl ⟨_, rfl, rfl, rfl, hmirrors, hsinks⟩
    | inr herror =>
      obtain ⟨key, e, thrown, hrows, hs⟩ := herror
      rw [hs]
      refine .inr ⟨e, _, rfl, ?_⟩
      have hne : proj.dir.filesOf key ≠ [] := by
        intro hnil
        rw [hnil, rowsOf, if_pos rfl] at hrows
        exact absurd hrows (by simp)
      obtain ⟨p, hp⟩ := proj_key himage hsound hne
      have hperm := proj_files himage hsound hred p
      rw [← hp] at hperm
      have honep : ∀ row ∈ proj.dir.filesOf key, row.repeatCount = 1 :=
        fun row hrow => hone row (mem_group.mp (hperm.mem_iff.mp hrow)).1
      cases rowsOf_sinkMap (u := c.spec) (k := key) honep with
      | inl hle =>
        rw [hle.2] at hrows
        exact absurd hrows (by simp)
      | inr hgt =>
        obtain ⟨hlen, msg, values, heq⟩ := hgt
        rw [heq] at hrows
        exact ⟨msg, values, _, p, (Except.error.inj hrows).symm, hperm, hlen⟩

theorem check_update_cases {table table' : Tracked D K (RowValues V)} {c : Check D K V}
    (hw : table.dir.Writable tick) (h : c.Exact tick table.dir)
    (hfollows : table.Follows tick table') (hred : table'.dir.reducer = none)
    (hone : ∀ row ∈ table'.dir.live, row.repeatCount = 1) :
    (∃ c', c.update ⟨tick, none⟩ table' = .ok c' ∧ c'.spec = c.spec ∧ c'.Exact (tick + 1) table'.dir) ∨
    ∃ failure thrown, c.update ⟨tick, none⟩ table' = .error (failure, thrown) ∧
      Clash c.spec table'.dir failure := by
  unfold Check.Exact at h
  unfold Check.update
  cases hindex : c.index with
  | none =>
    rw [hindex] at h
    cases updateProj_cases hw h.1 h.2 hfollows hred hone with
    | inr herror => exact .inr herror
    | inl hok =>
      obtain ⟨c', hu, hspec, hnone, hproj, hsink⟩ := hok
      refine .inl ⟨c', hu, hspec, ?_⟩
      unfold Check.Exact
      rw [hnone, hindex, hspec]
      exact ⟨hproj, hsink⟩
  | some index =>
    rw [hindex] at h
    simp only
    cases h.1.update_cases hw hfollows with
    | inr herror =>
      obtain ⟨key, e, _, hrows, _⟩ := herror
      cases hfiles : table'.dir.filesOf key with
      | nil =>
        rw [hfiles, rowsOf, if_pos rfl] at hrows
        exact absurd hrows (by simp)
      | cons row rest =>
        rw [hfiles, rowsOf, if_neg (cons_ne_nil row rest)] at hrows
        exact absurd hrows (by simp [UniqueIndex.indexMap])
    | inl hok =>
      obtain ⟨index', hi, hchild, hmirrors⟩ := hok
      rw [hi]
      simp only
      have hperm := index_live hmirrors.image hmirrors.writable.1.sound hred hmirrors.reducer
      have hcases := updateProj_cases (c := ⟨c.spec, some index'.clean, c.proj, c.sink⟩)
        h.1.writable h.2.1 h.2.2 hchild hmirrors.reducer
        fun row hrow => hone row (hperm.mem_iff.mp hrow)
      cases hcases with
      | inl hdone =>
        obtain ⟨c', hu, hspec, hsome, hproj, hsink⟩ := hdone
        refine .inl ⟨c', hu, hspec, ?_⟩
        unfold Check.Exact
        rw [hsome, hspec]
        exact ⟨hmirrors, hproj, hsink⟩
      | inr herror =>
        obtain ⟨failure, thrown, hu, msg, values, rows, p, heq, hrows, hlen⟩ := herror
        exact .inr ⟨failure, thrown, hu, msg, values, rows, p, heq,
          hrows.trans (group_perm hperm p), hlen⟩

theorem updateChecks_cases {table table' : Tracked D K (RowValues V)} {checks : List (Check D K V)}
    (hw : table.dir.Writable tick) (h : ∀ c ∈ checks, c.Exact tick table.dir)
    (hfollows : table.Follows tick table') (hred : table'.dir.reducer = none)
    (hone : checks ≠ [] → ∀ row ∈ table'.dir.live, row.repeatCount = 1) :
    (∃ checks', Ctx.updateChecks ⟨tick, none⟩ table' checks = .ok checks' ∧
      checks'.map Check.spec = checks.map Check.spec ∧
      ∀ c ∈ checks', c.Exact (tick + 1) table'.dir) ∨
    ∃ failure thrown, Ctx.updateChecks ⟨tick, none⟩ table' checks = .error (failure, thrown) ∧
      ∃ c ∈ checks, Clash c.spec table'.dir failure := by
  induction checks with
  | nil => exact .inl ⟨[], rfl, rfl, fun _ hc => absurd hc (by simp)⟩
  | cons c rest ih =>
    have hrest := ih (fun c' hc' => h c' (mem_cons_of_mem c hc'))
      fun _ => hone (cons_ne_nil c rest)
    unfold Ctx.updateChecks
    cases check_update_cases hw (h c mem_cons_self) hfollows hred
        (hone (cons_ne_nil c rest)) with
    | inr herror =>
      obtain ⟨failure, thrown, hu, hclash⟩ := herror
      rw [hu]
      exact .inr ⟨failure, _, rfl, c, mem_cons_self, hclash⟩
    | inl hok =>
      obtain ⟨c', hu, hspec, hexact⟩ := hok
      rw [hu]
      simp only
      cases hrest with
      | inr herror =>
        obtain ⟨failure, thrown, hr, c'', hc'', hclash⟩ := herror
        rw [hr]
        exact .inr ⟨failure, _, rfl, c'', mem_cons_of_mem c hc'', hclash⟩
      | inl hdone =>
        obtain ⟨rest', hr, hspecs, hall⟩ := hdone
        rw [hr]
        refine .inl ⟨_, rfl, ?_, ?_⟩
        · rw [map_cons, map_cons, hspec, hspecs]
        · intro c'' hc''
          cases mem_cons.mp hc'' with
          | inl heq =>
            rw [heq]
            exact hexact
          | inr hin => exact hall c'' hin

end Update

end SkipPlatform.SqlUnique
