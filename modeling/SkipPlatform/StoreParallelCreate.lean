import SkipPlatform.StoreParallelKept

set_option autoImplicit false
set_option linter.unusedSectionVars false

/-! The mapping that makes a directory. Nothing is dropped while it runs, so that what a row
reads depends only on the context it began with, and not on the order of the rows. -/
namespace SkipPlatform
open List StoreReaders StoreDeps StoreSourceMap ReadContext

variable {D K P F E : Type} [LinearOrder D] [StoreKey K] [DecidableEq P] [DecidableEq F]

/-- The filters of `d'` are those of `d` and one for each observation `seen` that had none. -/
def MapEnv.Registers (env : MapEnv D K P F E) (seen : Observed D K P F → Prop)
    (d d' : Deps D K P F) : Prop :=
  ∀ o, (seen o ∧ env.matching d o = [] ∧ env.matching d' o = [env.nameOf o]) ∨
    ((seen o → env.matching d o ≠ []) ∧ env.matching d' o = env.matching d o)

namespace MapEnv.Registers

variable {env : MapEnv D K P F E} {seen seen' : Observed D K P F → Prop} {d d' d'' : Deps D K P F}

theorem refl (env : MapEnv D K P F E) (d : Deps D K P F) : env.Registers (fun _ => False) d d :=
  fun _ => Or.inr ⟨fun h => h.elim, rfl⟩

theorem congr (h : env.Registers seen d d') (hiff : ∀ o, seen o ↔ seen' o) :
    env.Registers seen' d d' := by
  intro o
  rw [← hiff]
  exact h o

theorem sameFilters (h : env.Registers seen d d') (hf : d''.filters = d'.filters) :
    env.Registers seen d d'' := by
  intro o
  rw [env.matching_congr o hf]
  exact h o

theorem idOf (h : env.Registers seen d d') (o : Observed D K P F) : env.idOf d' o = env.idOf d o := by
  unfold MapEnv.idOf
  rcases h o with ⟨_, hnil, hnew⟩ | ⟨_, hsame⟩
  · rw [hnil, hnew]
    rfl
  · rw [hsame]

theorem grown (h : env.Registers seen d d') {ys : List (Observed D K P F)}
    (hy : env.Grown ys d' d'') : env.Registers (fun o => seen o ∨ o ∈ ys) d d'' := by
  intro o
  rcases h o with ⟨hs, hnil, hnew⟩ | ⟨hs, hsame⟩
  · left
    refine ⟨Or.inl hs, hnil, ?_⟩
    rcases hy.matching o with ⟨_, hnil', _⟩ | ⟨_, hsame'⟩
    · rw [hnew] at hnil'
      cases hnil'
    · rw [hsame', hnew]
  · rcases hy.matching o with ⟨hmem, hnil', hnew'⟩ | ⟨hmem, hsame'⟩
    · left
      rw [hsame] at hnil'
      exact ⟨Or.inr hmem, hnil', hnew'⟩
    · right
      refine ⟨?_, hsame'.trans hsame⟩
      intro ho
      rcases ho with ho | ho
      · exact hs ho
      · rw [← hsame]
        exact hmem ho

theorem matching_eq (h : env.Registers seen d d') (h' : env.Registers seen d d'')
    (o : Observed D K P F) : env.matching d'' o = env.matching d' o := by
  rcases h o with ⟨hs, hnil, hnew⟩ | ⟨hs, hsame⟩
  · rcases h' o with ⟨_, _, hnew'⟩ | ⟨hs', _⟩
    · rw [hnew, hnew']
    · exact absurd hnil (hs' hs)
  · rcases h' o with ⟨hs', hnil', _⟩ | ⟨_, hsame'⟩
    · exact absurd hnil' (hs hs')
    · rw [hsame, hsame']

end MapEnv.Registers

namespace MapEdge

variable {env : MapEnv D K P F E} {e : MapEdge D K F} {base : ReadContext D K P F}
  {m : ParallelMapper D K P F E} {f : K → List F → RowBody D K P F E (SortedMap K (List F))}

/-- The reads of requests, with the filters as `base` has them. -/
def readsOf (env : MapEnv D K P F E) (base : ReadContext D K P F) (requests : List (ReadRequest D K P)) :
    SortedSet (Path D K) :=
  (requests.flatMap (pathsOf env base base.deps)).foldl (fun s x => s.set x ()) .empty

theorem mem_readsOf (requests : List (ReadRequest D K P)) (x : Path D K) :
    x ∈ (readsOf env base requests).keys ↔ ∃ q ∈ requests, x ∈ pathsOf env base base.deps q := by
  unfold readsOf
  rw [DMap.mem_foldl_set, mem_flatMap]
  simp [SortedMap.keys]

def accOf (e : MapEdge D K F) (key : K) (y : SortedMap K (List F) × List (ReadRequest D K P)) :
    List (FixedRow K (Source D K) (List F)) :=
  y.1.items.map fun w => ⟨w.1, w.2, e.source key, e.tick⟩

def oldOf (env : MapEnv D K P F E) (e : MapEdge D K F) (base : ReadContext D K P F) (key : K)
    (y : SortedMap K (List F) × List (ReadRequest D K P)) : List (StoreSourceMap.Row D K) :=
  if y.1.isEmpty && (readsOf env base y.2).isEmpty then []
  else [(e.source key, rowInfo y.1 (readsOf env base y.2))]

/-- What `f` comes to on a key; for a key it fails on there are no rows. -/
def rowOf (env : MapEnv D K P F E) (e : MapEdge D K F) (base : ReadContext D K P F)
    (f : K → List F → RowBody D K P F E (SortedMap K (List F))) (key : K) :
    SortedMap K (List F) × List (ReadRequest D K P) :=
  match (f key (e.values key)).follow (base.answer env) with
  | .ok y => y
  | .error _ => (.empty, [])

def observedAt (env : MapEnv D K P F E) (e : MapEdge D K F) (base : ReadContext D K P F)
    (f : K → List F → RowBody D K P F E (SortedMap K (List F))) (key : K) :
    List (Observed D K P F) :=
  (rowOf env e base f key).2.flatMap (observedOf env base)

/-- The vectors and the context after the rows of `done`. -/
structure Covers (env : MapEnv D K P F E) (e : MapEdge D K F) (base : ReadContext D K P F)
    (f : K → List F → RowBody D K P F E (SortedMap K (List F))) (seen : Observed D K P F → Prop)
    (done : List K) (st : Mapped D K P F) : Prop where
  acc : st.acc = done.flatMap fun key => accOf e key (rowOf env e base f key)
  oldVec : st.oldVec = done.flatMap fun key => oldOf env e base key (rowOf env e base f key)
  dirs : st.context.dirs = base.dirs
  readers : ∀ path a, a ∈ st.context.deps.readers path ↔ a ∈ base.deps.readers path ∨
    ∃ key ∈ done, a = e.arrow key ∧ path ∈ (readsOf env base (rowOf env e base f key).2).keys
  tidy : st.context.deps.Tidy
  keyed : Keyed st.context.deps
  registers : env.Registers seen base.deps st.context.deps

theorem updateNewDeps_readers (reader : ArrowKey D K) (reads : List (Path D K)) {d : Deps D K P F}
    (h : d.Tidy) : ∃ d', d.updateNewDeps reader reads = some d' ∧ d'.Tidy ∧ d'.filters = d.filters ∧
      ∀ path a, a ∈ d'.readers path ↔ a ∈ d.readers path ∨ a = reader ∧ path ∈ reads := by
  unfold Deps.updateNewDeps
  induction reads generalizing d with
  | nil => exact ⟨d, rfl, h, rfl, by simp⟩
  | cons x xs ih =>
    obtain ⟨d₁, hd₁, htidy, hfilters, hreaders, _⟩ := Deps.set_spec h x reader
    obtain ⟨d', hd', htidy', hfilters', hreaders'⟩ := ih htidy
    refine ⟨d', ?_, htidy', hfilters'.trans hfilters, ?_⟩
    · rw [foldlM_cons, hd₁]
      exact hd'
    · intro path a
      rw [hreaders', hreaders, mem_cons]
      constructor
      · rintro ((⟨hpath, ha⟩ | ha) | ⟨ha, hmem⟩)
        · exact Or.inr ⟨ha, Or.inl hpath⟩
        · exact Or.inl ha
        · exact Or.inr ⟨ha, Or.inr hmem⟩
      · rintro (ha | ⟨ha, hpath | hmem⟩)
        · exact Or.inl (Or.inr ha)
        · exact Or.inl (Or.inl ⟨hpath, ha⟩)
        · exact Or.inr ⟨ha, hmem⟩

/-- What a mapper hands over for a row that comes to `y`, when the filters of `seen` were
registered before. -/
structure Fits (env : MapEnv D K P F E) (base : ReadContext D K P F)
    (seen : Observed D K P F → Prop) (y : SortedMap K (List F) × List (ReadRequest D K P))
    (c : ReadContext D K P F) (x : SortedMap K (List F) × ReadContext D K P F) : Prop where
  items : x.1.items = y.1.items
  dirs : x.2.dirs = c.dirs
  reads : ∀ z, z ∈ x.2.reads.keys ↔ ∃ q ∈ y.2, z ∈ pathsOf env base base.deps q
  grown : ∃ ys, env.Grown ys c.deps x.2.deps ∧ (∀ o ∈ ys, ∃ k, o.path.baseName = .key k) ∧
    ∀ o, seen o ∨ o ∈ ys ↔ seen o ∨ o ∈ y.2.flatMap (observedOf env base)

variable {key : K}

theorem rowOf_ok {y : SortedMap K (List F) × List (ReadRequest D K P)}
    (h : (f key (e.values key)).follow (base.answer env) = .ok y) : rowOf env e base f key = y := by
  unfold rowOf
  rw [h]

theorem isEmpty_congr {α β : Type} [LinearOrder α] {a b : SortedMap α β} (h : a.items = b.items) :
    a.isEmpty = b.isEmpty := by
  rw [Bool.eq_iff_iff, SortedMap.isEmpty_iff, SortedMap.isEmpty_iff, h]

theorem items_of_keys {α : Type} [LinearOrder α] {a b : SortedSet α} (h : a.keys = b.keys) :
    a.items = b.items := by
  unfold SortedMap.keys at h
  apply map_injective_iff.mpr _ h
  intro x y hxy
  cases x
  cases y
  simp only at hxy
  rw [hxy]

variable {st : Mapped D K P F} {done : List K}

variable {seen : Observed D K P F → Prop}

theorem Covers.row
    (h : Covers env e base f seen done st) {map : RowMap D K P F E}
    {y : SortedMap K (List F) × List (ReadRequest D K P)}
    (hy : (f key (e.values key)).follow (base.answer env) = .ok y)
    {x : SortedMap K (List F) × ReadContext D K P F}
    (hx : map { st.context with reads := .empty } key (e.values key) = .ok x)
    (hfits : Fits env base seen y st.context x) :
    ∃ st', e.mapRow env map st key = .ok st' ∧
      Covers env e base f (fun o => seen o ∨ o ∈ observedAt env e base f key) (done ++ [key]) st' := by
  obtain ⟨ys, hgrown, hkeyed, hseen⟩ := hfits.grown
  have hrow := rowOf_ok hy
  have hreads : x.2.reads.keys = (readsOf env base y.2).keys := by
    refine SortedMerge.eq_of_mem_iff id x.2.reads.keys_sorted (readsOf env base y.2).keys_sorted ?_
    intro z
    rw [hfits.reads, mem_readsOf]
  obtain ⟨d', hd', htidy, hfilters, hreaders⟩ :=
    updateNewDeps_readers (e.arrow key) x.2.reads.keys (hgrown.tidy h.tidy)
  unfold mapRow
  rw [hx]
  simp only [Except.bind]
  rw [hd']
  refine ⟨_, rfl, ?_, ?_, ?_, ?_, htidy, ?_, ?_⟩
  · simp only [flatMap_append, flatMap_cons, flatMap_nil, append_nil]
    rw [h.acc, hrow, accOf, hfits.items]
  · simp only [flatMap_append, flatMap_cons, flatMap_nil, append_nil]
    rw [h.oldVec, hrow, oldOf, isEmpty_congr hfits.items, isEmpty_congr (items_of_keys hreads),
      rowInfo_congr hfits.items hreads]
  · exact hfits.dirs.trans h.dirs
  · intro path a
    have hdata : x.2.deps.readers path = st.context.deps.readers path := by
      unfold Deps.readers
      rw [hgrown.data]
    simp only
    rw [hreaders, hdata, h.readers, hreads]
    simp only [mem_append, mem_singleton, or_and_right, exists_or, exists_eq_left, hrow,
      or_assoc]
  · exact (hgrown.keyed hkeyed h.keyed).congr hfilters
  · refine ((h.registers.grown hgrown).sameFilters hfilters).congr ?_
    intro o
    rw [hseen o]
    unfold observedAt
    rw [hrow]

theorem Covers.congr {seen seen' : Observed D K P F → Prop} {done : List K} {st : Mapped D K P F}
    (h : Covers env e base f seen done st) (hiff : ∀ o, seen o ↔ seen' o) :
    Covers env e base f seen' done st :=
  ⟨h.acc, h.oldVec, h.dirs, h.readers, h.tidy, h.keyed, h.registers.congr hiff⟩

theorem Covers.view
    (h : Covers env e base f seen done st) (child : D) : SameView child base st.context := by
  intro d _
  rw [h.dirs]

/-- What a mapper does with a row: it hands over what the row comes to, or fails with it. -/
def RowFits (env : MapEnv D K P F E) (e : MapEdge D K F) (base : ReadContext D K P F)
    (f : K → List F → RowBody D K P F E (SortedMap K (List F))) (map : RowMap D K P F E)
    (seen : Observed D K P F → Prop) (key : K) (c : ReadContext D K P F) : Prop :=
  match (f key (e.values key)).follow (base.answer env) with
  | .ok y => ∃ x, map { c with reads := .empty } key (e.values key) = .ok x ∧ Fits env base seen y c x
  | .error _ => ∃ ex, map { c with reads := .empty } key (e.values key) = .error ex

theorem mapRows_cons (map : RowMap D K P F E) (st : Mapped D K P F) (key : K) (keys : List K) :
    e.mapRows env map st (key :: keys) =
      (e.mapRow env map st key).bind fun st => e.mapRows env map st keys := by
  unfold mapRows
  rw [foldlM_cons]
  rfl

/-- The rows of these keys come after those of `done`, or one of them fails. -/
def Continues (env : MapEnv D K P F E) (e : MapEdge D K F) (base : ReadContext D K P F)
    (f : K → List F → RowBody D K P F E (SortedMap K (List F))) (seen : Observed D K P F → Prop)
    (done keys : List K) (run : Except E (Mapped D K P F)) : Prop :=
  ((∃ ex, run = .error ex) ∧ ∃ key ∈ keys, ∃ ex,
    (f key (e.values key)).follow (base.answer env) = .error ex) ∨
  (∀ key ∈ keys, ∃ y, (f key (e.values key)).follow (base.answer env) = .ok y) ∧
    ∃ st, run = .ok st ∧ Covers env e base f
      (fun o => seen o ∨ ∃ key ∈ keys, o ∈ observedAt env e base f key) (done ++ keys) st

theorem mapRows_covers {map : RowMap D K P F E} {seen₀ : Observed D K P F → Prop} (keys : List K)
    (hrow : ∀ key ∈ keys, ∀ (seen : Observed D K P F → Prop) done (st : Mapped D K P F),
      (∀ o, seen₀ o → seen o) → Covers env e base f seen done st →
      RowFits env e base f map seen key st.context)
    (hseen : ∀ o, seen₀ o → seen o) (h : Covers env e base f seen done st) :
    Continues env e base f seen done keys (e.mapRows env map st keys) := by
  induction keys generalizing seen done st with
  | nil =>
    right
    refine ⟨by simp, st, rfl, ?_⟩
    rw [append_nil]
    exact h.congr (by simp)
  | cons key keys ih =>
    have hfits := hrow key mem_cons_self seen done st hseen h
    unfold RowFits at hfits
    rw [mapRows_cons]
    cases hy : (f key (e.values key)).follow (base.answer env) with
    | error ex =>
      rw [hy] at hfits
      obtain ⟨ex', hex'⟩ := hfits
      left
      refine ⟨⟨ex', ?_⟩, key, mem_cons_self, ex, hy⟩
      unfold mapRow
      rw [hex']
      rfl
    | ok y =>
      rw [hy] at hfits
      obtain ⟨x, hx, hfit⟩ := hfits
      obtain ⟨st', hst', hcovers⟩ := h.row hy hx hfit
      rw [hst']
      simp only [Except.bind]
      rcases ih (fun k hk => hrow k (mem_cons_of_mem key hk)) (fun o ho => Or.inl (hseen o ho))
          hcovers with ⟨hex, key', hkey', hfail⟩ | ⟨hall, st'', hst'', hcovers'⟩
      · left
        exact ⟨hex, key', mem_cons_of_mem key hkey', hfail⟩
      · right
        refine ⟨?_, st'', hst'', ?_⟩
        · intro k hk
          rcases mem_cons.mp hk with rfl | hk
          · exact ⟨y, hy⟩
          · exact hall k hk
        · rw [append_assoc] at hcovers'
          refine hcovers'.congr ?_
          intro o
          simp only [mem_cons, exists_eq_or_imp, or_assoc]

theorem pathsOf_registers
    (h : Covers env e base f seen done st) (q : ReadRequest D K P) :
    pathsOf env base st.context.deps q = pathsOf env base base.deps q :=
  pathsOf_congr fun o _ => h.registers.idOf o

theorem observed_keyed (requests : List (ReadRequest D K P)) :
    ∀ o ∈ requests.flatMap (observedOf env base), ∃ k, o.path.baseName = .key k := by
  intro o ho
  obtain ⟨q, _, hq⟩ := mem_flatMap.mp ho
  exact (observedOf_keyed q o hq).2

theorem runLambda_fits {child : D} {g : K → List F → RowBody D K P F E (SortedMap K (List F))}
    (hg : (g key (e.values key)).Within (Apart child))
    (hsame : SameRun ((g key (e.values key)).follow (base.answer env))
      ((f key (e.values key)).follow (base.answer env)))
    (h : Covers env e base f seen done st) :
    RowFits env e base f (runLambda env g) seen key st.context := by
  have hrun := interpret_request env (c := { st.context with reads := .empty }) h.keyed
    (h.view child) hg
  unfold RowFits runLambda
  cases hy : (f key (e.values key)).follow (base.answer env) with
  | error ex =>
    cases hgf : (g key (e.values key)).follow (base.answer env) with
    | error ex' =>
      rw [hgf] at hrun
      exact ⟨ex', hrun⟩
    | ok z =>
      rw [hy, hgf] at hsame
      exact hsame.elim
  | ok y =>
    cases hgf : (g key (e.values key)).follow (base.answer env) with
    | error ex' =>
      rw [hy, hgf] at hsame
      exact hsame.elim
    | ok z =>
      rw [hy, hgf] at hsame
      rw [hgf] at hrun
      obtain ⟨c', hc', hnoted, _⟩ := hrun
      refine ⟨_, hc', hsame.1, hnoted.dirs, ?_, _, hnoted.grown, observed_keyed z.2, ?_⟩
      · intro x
        have hempty : x ∉ (SortedMap.empty : SortedSet (Path D K)).keys := by
          intro hx
          cases hx
        rw [hnoted.reads]
        simp only [hempty, false_or]
        rw [← sameRequests_paths hsame.2 env base base.deps x]
        simp only [pathsOf_registers h]
      · intro o
        rw [sameRequests_observed hsame.2 env base o]

theorem serialMapData_covers (env : MapEnv D K P F E)
    (hf : ∀ key values, (f key values).Within (Apart e.childName))
    (hk : Keyed base.deps) (htidy : base.deps.Tidy) (keys : List K) :
    Continues env e base f (fun _ => False) [] keys (e.serialMapData env f base keys) := by
  have hstart : Covers env e base f (fun _ => False) [] ⟨[], [], base⟩ :=
    ⟨rfl, rfl, rfl, by simp, htidy, hk, .refl env base.deps⟩
  refine mapRows_covers keys ?_ (fun _ h => h) hstart
  intro key _ seen done st _ h
  exact runLambda_fits (hf key (e.values key))
    (follow_sameRun_self (f key (e.values key)) (base.answer env)) h

variable {serial : K → List F → RowBody D K P F E (SortedMap K (List F))}

theorem mapRow_forward_selected (hsel : m.select key = true) (st : Mapped D K P F) :
    e.mapRow env (forward env m serial) st key = .ok st := by
  unfold mapRow forward
  rw [if_pos hsel]
  simp only [Except.bind]
  cases st
  simp [SortedMap.empty, SortedMap.items, SortedMap.keys, SortedMap.isEmpty, SortedTree.items,
    Deps.updateNewDeps, orBroken, Except.map]

theorem mapRow_forward_other (hsel : m.select key = false) (st : Mapped D K P F) :
    e.mapRow env (forward env m serial) st key = e.mapRow env (runLambda env serial) st key := by
  unfold mapRow forward
  rw [if_neg (by simp [hsel])]

theorem mapRows_forward
    (keys : List K) (st : Mapped D K P F) :
    e.mapRows env (forward env m serial) st keys =
      e.mapRows env (runLambda env serial) st (keys.filter fun key => !m.select key) := by
  induction keys generalizing st with
  | nil => rfl
  | cons key keys ih =>
    rw [mapRows_cons]
    cases hsel : m.select key with
    | true =>
      rw [mapRow_forward_selected hsel, filter_cons_of_neg (by simp [hsel])]
      exact ih st
    | false =>
      rw [mapRow_forward_other hsel, filter_cons_of_pos (by simp [hsel]), mapRows_cons]
      congr 1
      funext st'
      exact ih st'

theorem forwardRows_covers (hagrees : m.Agrees env e.childName f) (keys : List K)
    (h : Covers env e base f seen done st) :
    Continues env e base f seen done (keys.filter fun key => !m.select key)
      (e.forwardRows env m st keys) := by
  unfold forwardRows
  cases hs : m.serial with
  | none =>
    have hall : keys.filter (fun key => !m.select key) = [] := by
      rw [filter_eq_nil_iff]
      intro key _ hsel
      obtain ⟨g, hg, _⟩ := hagrees.serial key (by simpa using hsel)
      rw [hs] at hg
      cases hg
    rw [hall]
    right
    refine ⟨by simp, st, rfl, ?_⟩
    rw [append_nil]
    exact h.congr (by simp)
  | some g =>
    simp only
    rw [mapRows_forward]
    refine mapRows_covers _ ?_ (fun _ ho => ho) h
    intro key hkey seen done st _ hcovers
    obtain ⟨g', hg', hsame⟩ := hagrees.serial key (by simpa using (mem_filter.mp hkey).2)
    rw [hs] at hg'
    cases hg'
    exact runLambda_fits (hsame (e.values key)).1 ((hsame (e.values key)).2 base) hcovers

theorem replay_fits (hagrees : m.Agrees env e.childName f) {keys : List K}
    {results : SortedMap K (PreparedParallelRow D K P F)}
    (hresults : Results env m e base base.deps keys results) (hkey : key ∈ keys)
    (hsel : m.select key = true)
    (hseen : ∀ o ∈ hookObserved env m e base key, seen o)
    (h : Covers env e base f seen done st) :
    RowFits env e base f (m.replay env results) seen key st.context := by
  obtain ⟨x, row, hx, hfound, hprepared⟩ := hresults.selected key hkey hsel
  have hsame := hagrees.rows key hsel (e.values key) base
  rw [hookObserved_selected hsel hx] at hseen
  rw [hx] at hsame
  unfold RowFits
  cases hy : (f key (e.values key)).follow (base.answer env) with
  | error ex =>
    rw [hy] at hsame
    exact hsame.elim
  | ok y =>
    rw [hy] at hsame
    obtain ⟨c', hc', hdirs, hgrown, hreads⟩ := ParallelMapper.replayReads_spec
      (c := { st.context with reads := .empty }) hprepared.holds h.keyed (h.view e.childName)
      (ParallelMapper.outcome_apart hagrees hx).2
    unfold ParallelMapper.replay
    rw [hfound]
    simp only
    rw [hc']
    refine ⟨_, rfl, ?_, hdirs, ?_, _, hgrown, observed_keyed x.worker, ?_⟩
    · rw [hprepared.writes]
      exact hsame.1
    · intro z
      have hempty : z ∉ (SortedMap.empty : SortedSet (Path D K)).keys := by
        intro hz
        cases hz
      rw [hreads, hprepared.prepared, ← sameRequests_paths hsame.2 env base base.deps z]
      simp only [hempty, false_or, pathsOf_registers h, mem_append, or_and_right, exists_or]
    · intro o
      rw [← sameRequests_observed hsame.2 env base o]
      simp only [flatMap_append, mem_append]
      constructor
      · rintro (ho | ho)
        · exact Or.inl ho
        · exact Or.inr (Or.inr ho)
      · rintro (ho | ho | ho)
        · exact Or.inl ho
        · exact Or.inl (hseen o ho)
        · exact Or.inr ho

theorem Covers.hooked
    (h : Covers env e base f seen done st) {made : List (ReadRequest D K P)}
    {c' : ReadContext D K P F} (hh : Hooked env base made st.context c') :
    Covers env e base f (fun o => seen o ∨ o ∈ made.flatMap (observedOf env base)) done
      { st with context := c' } := by
  refine ⟨h.acc, h.oldVec, hh.dirs.trans h.dirs, ?_, hh.grown.tidy h.tidy, hh.keyed,
    h.registers.grown hh.grown⟩
  intro path a
  have hdata : c'.deps.readers path = st.context.deps.readers path := by
    unfold Deps.readers
    rw [hh.grown.data]
  simp only
  rw [hdata, h.readers]

theorem hookObserved_sub (hagrees : m.Agrees env e.childName f) {o : Observed D K P F}
    (ho : o ∈ hookObserved env m e base key) : o ∈ observedAt env e base f key := by
  cases hsel : m.select key with
  | false =>
    rw [hookObserved_other hsel] at ho
    cases ho
  | true =>
    have hsame := hagrees.rows key hsel (e.values key) base
    cases hx : m.outcome (base.answer env) key (e.values key) with
    | error ex =>
      unfold hookObserved at ho
      rw [if_pos hsel, hx] at ho
      cases ho
    | ok x =>
      rw [hookObserved_selected hsel hx] at ho
      rw [hx] at hsame
      unfold observedAt rowOf
      cases hy : (f key (e.values key)).follow (base.answer env) with
      | error ex =>
        rw [hy] at hsame
        exact hsame.elim
      | ok y =>
        rw [hy] at hsame
        simp only
        rw [← sameRequests_observed hsame.2 env base o, flatMap_append]
        exact mem_append_left _ ho

theorem mapBatch_covers (hagrees : m.Agrees env e.childName f) {batch : List K} (hne : batch ≠ [])
    (hsel : ∀ key ∈ batch, m.select key = true)
    (h : Covers env e base f seen done st) :
    Continues env e base f seen done batch (e.mapBatch env m st batch) := by
  have hall : batch.filter m.select = batch := filter_eq_self.mpr hsel
  have hany : batch.any m.select = true := by
    obtain ⟨key, hkey⟩ := exists_mem_of_ne_nil batch hne
    exact any_eq_true.mpr ⟨key, hkey, hsel key hkey⟩
  unfold mapBatch
  rcases ParallelMapper.prepare_spec e.values hagrees h.keyed (h.view e.childName) batch hany with
    ⟨⟨ex, hex⟩, key, hkey, ex', hout⟩ | ⟨results, c', made, hrun, hhooked, hmade, hin, hout⟩
  · left
    rw [hall] at hkey
    rw [hex]
    refine ⟨⟨ex, rfl⟩, key, hkey, ?_⟩
    have hsame := hagrees.rows key (hsel key hkey) (e.values key) base
    rw [hout] at hsame
    cases hy : (f key (e.values key)).follow (base.answer env) with
    | ok y =>
      rw [hy] at hsame
      exact hsame.elim
    | error ex'' => exact ⟨ex'', rfl⟩
  · rw [hrun]
    simp only [Except.bind]
    have hresults : Results env m e base base.deps batch results := by
      refine ⟨?_, hout⟩
      intro key hkey hs
      obtain ⟨x, row, hx, hfound, hprepared⟩ := hin key (mem_filter.mpr ⟨hkey, hs⟩)
      refine ⟨x, row, hx, hfound, hprepared.writes, hprepared.holds, ?_⟩
      intro y
      rw [hprepared.prepared]
      simp only [pathsOf_registers h]
    obtain ⟨hmem, _⟩ := hooked_pending hagrees hmade
    have hrow : ∀ key ∈ batch, ∀ (seen : Observed D K P F → Prop) done (st : Mapped D K P F),
        (∀ o, o ∈ made.flatMap (observedOf env base) → seen o) →
        Covers env e base f seen done st →
        RowFits env e base f (m.replay env results) seen key st.context := by
      intro key hkey seen' done' st' hseen' hcovers'
      refine replay_fits hagrees hresults hkey (hsel key hkey) ?_ hcovers'
      intro o ho
      exact hseen' o ((hmem o).mpr (mem_flatMap.mpr ⟨key, hkey, ho⟩))
    have hcontinues := mapRows_covers batch hrow (fun o ho => Or.inr ho) (h.hooked hhooked)
    rcases hcontinues with hfail | ⟨hok, st', hst', hcovers⟩
    · exact Or.inl hfail
    · right
      refine ⟨hok, st', hst', hcovers.congr ?_⟩
      intro o
      simp only [hmem]
      constructor
      · rintro ((ho | ho) | ho)
        · exact Or.inl ho
        · obtain ⟨key, hkey, ho⟩ := mem_flatMap.mp ho
          exact Or.inr ⟨key, hkey, hookObserved_sub hagrees ho⟩
        · exact Or.inr ho
      · rintro (ho | ho)
        · exact Or.inl (Or.inl ho)
        · exact Or.inr ho

theorem Continues.trans {done keys keys' : List K}
    {run : Except E (Mapped D K P F)} {next : Mapped D K P F → Except E (Mapped D K P F)}
    (h : Continues env e base f seen done keys run)
    (hnext : ∀ st seen', Covers env e base f seen' (done ++ keys) st →
      Continues env e base f seen' (done ++ keys) keys' (next st)) :
    Continues env e base f seen done (keys ++ keys') (run.bind next) := by
  rcases h with ⟨⟨ex, hex⟩, key, hkey, hfail⟩ | ⟨hok, st, hst, hcovers⟩
  · left
    rw [hex]
    exact ⟨⟨ex, rfl⟩, key, mem_append_left keys' hkey, hfail⟩
  · rw [hst]
    rcases hnext st _ hcovers with ⟨hex, key, hkey, hfail⟩ | ⟨hok', st', hst', hcovers'⟩
    · left
      exact ⟨hex, key, mem_append_right keys hkey, hfail⟩
    · right
      refine ⟨?_, st', hst', ?_⟩
      · intro key hkey
        rcases mem_append.mp hkey with hkey | hkey
        · exact hok key hkey
        · exact hok' key hkey
      · rw [append_assoc] at hcovers'
        refine hcovers'.congr ?_
        intro o
        simp only [mem_append, or_and_right, exists_or, or_assoc]

theorem mapBatches_covers (hagrees : m.Agrees env e.childName f) (batches : List (List K))
    (hne : ∀ batch ∈ batches, batch ≠ [])
    (hsel : ∀ key ∈ batches.flatten, m.select key = true)
    (h : Covers env e base f seen done st) :
    Continues env e base f seen done batches.flatten
      (batches.foldlM (e.mapBatch env m) st) := by
  induction batches generalizing seen done st with
  | nil =>
    right
    refine ⟨by simp, st, rfl, ?_⟩
    simp only [flatten_nil, append_nil]
    exact h.congr (by simp)
  | cons batch rest ih =>
    rw [foldlM_cons, flatten_cons]
    rw [flatten_cons] at hsel
    refine (mapBatch_covers hagrees (hne batch mem_cons_self)
      (fun key hkey => hsel key (mem_append_left _ hkey)) h).trans ?_
    intro st' seen' hcovers
    exact ih (fun b hb => hne b (mem_cons_of_mem batch hb))
      (fun key hkey => hsel key (mem_append_right _ hkey)) hcovers

theorem parallelMapData_covers (hagrees : m.Agrees env e.childName f) (hk : Keyed base.deps)
    (htidy : base.deps.Tidy) (keys : List K) :
    Continues env e base f (fun _ => False) []
      ((keys.filter fun key => !m.select key) ++ keys.filter m.select)
      (e.parallelMapData env m base keys) := by
  have hstart : Covers env e base f (fun _ => False) [] ⟨[], [], base⟩ :=
    ⟨rfl, rfl, rfl, by simp, htidy, hk, .refl env base.deps⟩
  unfold parallelMapData
  refine (forwardRows_covers hagrees keys hstart).trans ?_
  intro st seen hcovers
  have hflat := batches_flatten (keys.filter m.select)
  have hbatches := mapBatches_covers hagrees (batches (keys.filter m.select))
    (batchesFuel_ne_nil 256 _ (by omega) _)
    (by
      intro key hkey
      rw [hflat] at hkey
      exact (mem_filter.mp hkey).2) hcovers
  rw [hflat] at hbatches
  exact hbatches

/-- The same rows and old writes, in some order, the same readers of every path and the same
filters. -/
structure SameMapped (env : MapEnv D K P F E) (s p : Mapped D K P F) : Prop where
  acc : p.acc.Perm s.acc
  oldVec : p.oldVec.Perm s.oldVec
  dirs : p.context.dirs = s.context.dirs
  readers : ∀ path a, a ∈ p.context.deps.readers path ↔ a ∈ s.context.deps.readers path
  filters : ∀ o, env.matching p.context.deps o = env.matching s.context.deps o

theorem sameMapped_mapData (hagrees : m.Agrees env e.childName f) (hk : Keyed base.deps)
    (htidy : base.deps.Tidy) (keys : List K) :
    BothOk (SameMapped env) (e.serialMapData env f base keys)
      (e.parallelMapData env m base keys) := by
  have hperm : ((keys.filter fun key => !m.select key) ++ keys.filter m.select).Perm keys := by
    have h := filter_append_perm m.select keys
    exact perm_append_comm.trans h
  have hserial := serialMapData_covers env hagrees.mapper hk htidy keys
  have hparallel := parallelMapData_covers hagrees hk htidy keys
  rcases hserial with ⟨⟨ex, hex⟩, key, hkey, ex', hfail⟩ | ⟨hok, s, hs, hcs⟩
  · rcases hparallel with ⟨⟨ex₁, hex₁⟩, _⟩ | ⟨hok, _⟩
    · rw [hex, hex₁]
      trivial
    · obtain ⟨y, hy⟩ := hok key (hperm.mem_iff.mpr hkey)
      rw [hfail] at hy
      cases hy
  · rcases hparallel with ⟨_, key, hkey, ex', hfail⟩ | ⟨_, p, hp, hcp⟩
    · obtain ⟨y, hy⟩ := hok key (hperm.mem_iff.mp hkey)
      rw [hfail] at hy
      cases hy
    · rw [hs, hp]
      rw [nil_append] at hcs hcp
      refine ⟨?_, ?_, hcp.dirs.trans hcs.dirs.symm, ?_, ?_⟩
      · rw [hcs.acc, hcp.acc]
        exact hperm.flatMap_right _
      · rw [hcs.oldVec, hcp.oldVec]
        exact hperm.flatMap_right _
      · intro path a
        rw [hcs.readers, hcp.readers]
        simp only [hperm.mem_iff]
      · intro o
        refine hcs.registers.matching_eq (hcp.registers.congr ?_) o
        intro o
        simp only [hperm.mem_iff]

end MapEdge
end SkipPlatform
