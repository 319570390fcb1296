import Mathlib.Logic.Equiv.List
import SkipPlatform.StoreParallelCreate

set_option autoImplicit false

/-! Parallel mapping beside serial mapping: when a directory is made they always agree, and
in an update they agree exactly when the hooks of a batch are given the filters that the
serial path finds when it comes to their row. -/
namespace SkipPlatform
open List StoreReaders StoreDeps StoreSourceMap ReadContext

variable {D K P F E : Type} [LinearOrder D] [StoreKey K] [DecidableEq P] [DecidableEq F]

namespace MapEdge

/-- The same directories, with rows and old writes, the same readers and the same filters. -/
structure SameUpdated (env : MapEnv D K P F E) (s p : ReadContext D K P F) : Prop where
  dirs : p.dirs = s.dirs
  readers : p.deps.data = s.deps.data
  inverse : p.deps.idata = s.deps.idata
  filters : ∀ o, env.matching p.deps o = env.matching s.deps o

variable {env : MapEnv D K P F E} {e : MapEdge D K F} {c : ReadContext D K P F}
  {m : ParallelMapper D K P F E} {f : K → List F → RowBody D K P F E (SortedMap K (List F))}
  {keys : List K}

theorem sameUpdated_of_beside {base s p : ReadContext D K P F} {start : Deps D K P F}
    (h : Beside env e.childName base start [] s p) : SameUpdated env s p := by
  refine ⟨h.dirs, h.deps.data, h.deps.idata, ?_⟩
  intro o
  by_cases ho : o.path.dirName = e.childName
  · unfold MapEnv.matching Deps.bucket
    rw [h.deps.filters o.path ho]
  · rcases h.deps.matching o ho with heq | ⟨_, _, hnil⟩
    · exact heq
    · cases hnil

theorem beside_start (env : MapEnv D K P F E) (child : D) (hk : Keyed c.deps) :
    Beside env child c c.deps [] c c :=
  ⟨rfl, fun _ _ => rfl, .refl hk fun _ _ _ hi => Or.inl hi⟩

theorem sameUpdated_of_kept (hagrees : m.Agrees env e.childName f) (hk : Keyed c.deps)
    (hold : OldUndrawn env e c keys) (hnodup : keys.Nodup)
    (hkept : Kept env m f e c c (batches keys)) :
    BothOk (SameUpdated env) (e.serialUpdate env f c keys) (e.parallelUpdate env m c keys) := by
  have hflat := batches_flatten keys
  rw [← hflat] at hnodup hold
  have hbeside := updateBatches_beside hagrees (batches keys)
    (batchesFuel_ne_nil 256 _ (by omega) keys) hnodup hold (beside_start env e.childName hk) hkept
  rw [hflat] at hbeside
  unfold serialUpdate parallelUpdate
  cases hs : e.runRows env (runLambda env f) c keys with
  | error ex =>
    rw [hs] at hbeside
    cases hp : (batches keys).foldlM (e.updateBatch env m) c with
    | error ex' => trivial
    | ok p =>
      rw [hp] at hbeside
      exact hbeside.elim
  | ok s =>
    rw [hs] at hbeside
    cases hp : (batches keys).foldlM (e.updateBatch env m) c with
    | error ex' =>
      rw [hp] at hbeside
      exact hbeside.elim
    | ok p =>
      rw [hp] at hbeside
      obtain ⟨start, h⟩ := hbeside
      exact sameUpdated_of_beside h

theorem kept_of_sameUpdated (hagrees : m.Agrees env e.childName f) (hk : Keyed c.deps)
    (hfresh : Fresh env c.deps) (hold : OldUndrawn env e c keys) (hnodup : keys.Nodup)
    {s : ReadContext D K P F} (hs : e.serialUpdate env f c keys = .ok s)
    (hsame : BothOk (SameUpdated env) (e.serialUpdate env f c keys)
      (e.parallelUpdate env m c keys)) : Kept env m f e c c (batches keys) := by
  rw [hs] at hsame
  cases hp : e.parallelUpdate env m c keys with
  | error ex =>
    rw [hp] at hsame
    exact hsame.elim
  | ok p =>
    rw [hp] at hsame
    have hflat := batches_flatten keys
    rw [← hflat] at hnodup hold
    refine updateBatches_kept hagrees hfresh (batches keys)
      (batchesFuel_ne_nil 256 _ (by omega) keys) hnodup hold (beside_start env e.childName hk)
      (by rw [hflat]; exact hs) hp ?_
    intro key _
    unfold getOld
    rw [hsame.dirs]

/-- A new directory is made of the same rows, reads and old writes. An update that succeeds
serially ends with the same rows, reads and old writes exactly when no row of a batch
drops a filter that the hooks of a later row of the batch were given. -/
theorem parallel_same_iff (hagrees : m.Agrees env e.childName f) (hk : Keyed c.deps)
    (htidy : c.deps.Tidy) (hfresh : Fresh env c.deps) (hold : OldUndrawn env e c keys)
    (hnodup : keys.Nodup) :
    BothOk (SameMapped env) (e.serialMapData env f c keys) (e.parallelMapData env m c keys) ∧
      (Kept env m f e c c (batches keys) →
        BothOk (SameUpdated env) (e.serialUpdate env f c keys) (e.parallelUpdate env m c keys)) ∧
      ∀ s, e.serialUpdate env f c keys = .ok s →
        (BothOk (SameUpdated env) (e.serialUpdate env f c keys) (e.parallelUpdate env m c keys) ↔
          Kept env m f e c c (batches keys)) := by
  have henough := sameUpdated_of_kept hagrees hk hold hnodup
  refine ⟨sameMapped_mapData hagrees hk htidy keys, henough, ?_⟩
  intro s hs
  exact ⟨kept_of_sameUpdated hagrees hk hfresh hold hnodup hs, henough⟩

section Samples

def sampleEdge : MapEdge ℕ PlainKey ℕ where
  parentName := 0
  childName := 1
  tick := 5
  incremental := false
  values key := if key = .iid 2 then [1] else [0]

def sampleEnv : MapEnv ℕ PlainKey ℕ ℕ ℕ where
  project p x := x % p
  hash p := p
  name _ _ value := 6 + Encodable.encode value
  missing d := d
  broken := 0

def sampleRead : ReadRequest ℕ PlainKey ℕ := .getArrayFilter 2 (.iid 0) 10

def sampleMap (_ : PlainKey) (values : List ℕ) :
    RowBody ℕ PlainKey ℕ ℕ ℕ (SortedMap PlainKey (List ℕ)) :=
  if values = [1] then .ask sampleRead fun _ => .done (.ok .empty) else .done (.ok .empty)

def sampleMapper : ParallelMapper ℕ PlainKey ℕ ℕ ℕ where
  lambda _ _ := .done (.ok .empty)
  select _ := true
  serial := none
  prepareRow := some fun _ values =>
    if values = [1] then .ask sampleRead fun _ => .done (.ok values) else .done (.ok values)
  recoverRow := none

theorem sample_agrees : sampleMapper.Agrees sampleEnv sampleEdge.childName sampleMap := by
  have hapart : sampleRead.dirName ≠ sampleEdge.childName := by decide
  refine ⟨?_, fun _ _ => trivial, ?_, ?_, ?_, ?_⟩
  · intro key values
    unfold sampleMap
    split_ifs
    · exact ⟨hapart, fun _ => trivial⟩
    · trivial
  · intro h hh key values
    cases hh
    simp only
    split_ifs
    · exact ⟨hapart, fun _ => trivial⟩
    · trivial
  · intro h hh
    cases hh
  · intro key hsel
    cases hsel
  · intro key _ values base
    simp only [ParallelMapper.outcome, ParallelMapper.preparation, sampleMapper, sampleMap]
    split_ifs
    · simp only [Inquiry.follow]
      cases base.answer sampleEnv sampleRead with
      | error ex => trivial
      | ok a => exact ⟨rfl, fun _ => Iff.rfl⟩
    · exact ⟨rfl, fun _ => Iff.rfl⟩

def sharedPath : Path ℕ PlainKey := filteredPath ⟨2, .key (.iid 0)⟩ 10 5

def sampleChild (d : EagerDir ℕ PlainKey ℕ) : EagerDir ℕ PlainKey ℕ :=
  { d with
    old := (SortedMap.empty.set ⟨0, .iid 1⟩ (.full [] [] [⟨2, .dirTag⟩, sharedPath])).set
      ⟨0, .iid 2⟩ .empty }

def sampleDeps : Deps ℕ PlainKey ℕ ℕ :=
  { (Deps.empty false false : Deps ℕ PlainKey ℕ ℕ) with
    filters := .singleton ⟨2, .key (.iid 0)⟩ (.singleton 10 [⟨5, 10, 10, []⟩]) }

def beforeDeps : Deps ℕ PlainKey ℕ ℕ :=
  (sampleDeps.updateNewDeps ⟨0, 1, .iid 1⟩ [⟨2, .dirTag⟩, sharedPath]).getD sampleDeps

def sampleDirs (d : EagerDir ℕ PlainKey ℕ) : SortedMap ℕ (Dir ℕ PlainKey ℕ) :=
  (SortedMap.empty.set 1 (.eager (sampleChild d))).set 2 (.eager d)

def sampleStart (d : EagerDir ℕ PlainKey ℕ) : ReadContext ℕ PlainKey ℕ ℕ :=
  ⟨sampleDirs d, beforeDeps, .empty, .empty⟩

def sampleMiddle (d : EagerDir ℕ PlainKey ℕ) : ReadContext ℕ PlainKey ℕ ℕ :=
  ⟨(sampleDirs d).set 1 (.eager ((sampleChild d).setOld ⟨0, .iid 1⟩ .empty)),
    Deps.empty false false, .empty, .empty⟩

variable (d : EagerDir ℕ PlainKey ℕ)

theorem sample_firstRow :
    sampleEdge.updateRow sampleEnv (runLambda sampleEnv sampleMap) (sampleStart d) (.iid 1) =
      .ok (sampleMiddle d) := rfl

theorem sample_secondRow : ∃ c,
    sampleEdge.updateRow sampleEnv (runLambda sampleEnv sampleMap) (sampleMiddle d) (.iid 2) =
      .ok c := ⟨_, rfl⟩

theorem sample_bucket (path : Path ℕ PlainKey) (h : ℤ) : sampleDeps.bucket path h =
    if path = ⟨2, .key (.iid 0)⟩ ∧ h = 10 then [⟨5, 10, 10, []⟩] else [] := by
  unfold Deps.bucket sampleDeps
  simp only [SortedMap.maybeGet_singleton]
  by_cases hp : path = ⟨2, .key (.iid 0)⟩
  · by_cases hh : h = 10
    · simp [hp, hh, SortedMap.maybeGet_singleton]
    · simp [hp, hh, SortedMap.maybeGet_singleton]
  · simp [hp]

theorem sample_tidy : sampleDeps.Tidy := by
  refine ⟨?_, ?_, ?_⟩
  · intro path r hr
    cases hr
  · intro child s hs
    cases hs
  · intro path groups hg
    simp only [sampleDeps, SortedMap.maybeGet_singleton] at hg
    split_ifs at hg
    cases hg
    refine ⟨by decide, ?_⟩
    intro h b hb
    rw [SortedMap.maybeGet_singleton] at hb
    split_ifs at hb
    cases hb
    simp

theorem before_spec : beforeDeps.Tidy ∧ beforeDeps.filters = sampleDeps.filters := by
  obtain ⟨d', hd', htidy, hfilters, _⟩ :=
    updateNewDeps_readers ⟨0, 1, .iid 1⟩ [⟨2, .dirTag⟩, sharedPath] sample_tidy
  unfold beforeDeps
  rw [hd']
  exact ⟨htidy, hfilters⟩

theorem before_bucket (path : Path ℕ PlainKey) (h : ℤ) :
    beforeDeps.bucket path h = sampleDeps.bucket path h := by
  unfold Deps.bucket
  rw [before_spec.2]

theorem before_keyed : Keyed beforeDeps := by
  refine ⟨?_, ?_⟩
  · intro path filters hp
    rw [before_spec.2] at hp
    simp only [sampleDeps, SortedMap.maybeGet_singleton] at hp
    split_ifs at hp with hpath
    exact ⟨_, by rw [hpath]⟩
  · intro path h x hx
    rw [before_bucket, sample_bucket] at hx
    split_ifs at hx with hc
    · rw [mem_singleton.mp hx, hc.2]
    · cases hx

theorem nameOf_pos (o : Observed ℕ PlainKey ℕ ℕ) : 5 < sampleEnv.nameOf o := by
  unfold MapEnv.nameOf sampleEnv
  simp only
  omega

theorem not_drawn {path : Path ℕ PlainKey} {h : ℤ} : ¬sampleEnv.Drawn (filteredPath path h 5) := by
  intro hdrawn
  obtain ⟨o, ho⟩ := hdrawn
  unfold filteredPath at ho
  simp only [StoreDeps.Path.mk.injEq, ReadKey.filteredReadKey.injEq] at ho
  have hpos := nameOf_pos o
  omega

theorem sample_fresh : Fresh sampleEnv beforeDeps := by
  refine ⟨?_, ?_, ?_⟩
  · intro o o' hpath hhash hname
    unfold MapEnv.nameOf sampleEnv at hname
    unfold sampleEnv at hhash
    simp only at hname hhash
    have hvalue : o.value = o'.value := Encodable.encode_injective (by omega)
    have hproject : o.project = o'.project := by omega
    cases o
    cases o'
    simp only at hpath hvalue hproject
    rw [hpath, hvalue, hproject]
  · intro path h x hx
    rw [before_bucket, sample_bucket] at hx
    split_ifs at hx
    · rw [mem_singleton.mp hx]
      exact not_drawn
    · cases hx
  · intro path h x hx y hy _
    rw [before_bucket, sample_bucket] at hx hy
    split_ifs at hx hy
    · rw [mem_singleton.mp hx, mem_singleton.mp hy]
    · cases hx

theorem sample_old (keys : List PlainKey)
    (hkeys : ∀ key ∈ keys, key = .iid 1 ∨ key = .iid 2) :
    OldUndrawn sampleEnv sampleEdge (sampleStart d) keys := by
  intro key hkey info hinfo x hx
  rcases hkeys key hkey with rfl | rfl
  · have hold : sampleEdge.getOld (sampleStart d) (.iid 1) =
        some (.full [] [] [⟨2, .dirTag⟩, sharedPath]) := rfl
    rw [hold] at hinfo
    cases hinfo
    simp only [MInfo.getReads, mem_cons, not_mem_nil, or_false] at hx
    rcases hx with rfl | rfl
    · rintro ⟨o, ho⟩
      unfold filteredPath at ho
      simp at ho
    · exact not_drawn
  · have hold : sampleEdge.getOld (sampleStart d) (.iid 2) = some .empty := rfl
    rw [hold] at hinfo
    cases hinfo
    cases hx

theorem sample_observed {d : EagerDir ℕ PlainKey ℕ} (hnil : ∀ key, d.getArrayRaw key = []) :
    hookObserved sampleEnv sampleMapper sampleEdge (sampleStart d) (.iid 2) =
      [⟨⟨2, .key (.iid 0)⟩, 10, []⟩] := by
  have hraw : (sampleStart d).getArrayRaw 2 (.iid 0) = [] := hnil (.iid 0)
  have hobserved : observedOf sampleEnv (sampleStart d) sampleRead =
      [⟨⟨2, .key (.iid 0)⟩, 10, []⟩] := by
    simp only [sampleRead, observedOf, hraw, map_nil]
  rw [← hobserved]
  rfl

theorem sample_batches (a b : PlainKey) : batches [a, b] = [[a, b]] := rfl

theorem sample_idOf :
    sampleEnv.idOf (sampleStart d).deps ⟨⟨2, .key (.iid 0)⟩, 10, []⟩ = 5 ∧
      sampleEnv.idOf (sampleMiddle d).deps ⟨⟨2, .key (.iid 0)⟩, 10, []⟩ = 6 := by
  refine ⟨?_, rfl⟩
  unfold MapEnv.idOf MapEnv.matching
  change ((((beforeDeps.bucket _ _).filter _).map ReadFilter.id).head?).getD _ = 5
  rw [before_bucket, sample_bucket]
  rfl

theorem sample_serial : ∃ s,
    sampleEdge.serialUpdate sampleEnv sampleMap (sampleStart d) [.iid 1, .iid 2] = .ok s := by
  obtain ⟨s, hs⟩ := sample_secondRow d
  refine ⟨s, ?_⟩
  unfold serialUpdate
  rw [runRows_cons, sample_firstRow]
  simp only [Except.bind]
  rw [runRows_cons, hs]
  rfl

theorem sample_notKept {d : EagerDir ℕ PlainKey ℕ} (hnil : ∀ key, d.getArrayRaw key = []) :
    ¬Kept sampleEnv sampleMapper sampleMap sampleEdge (sampleStart d) (sampleStart d)
      (batches [.iid 1, .iid 2]) := by
  intro hkept
  rw [sample_batches] at hkept
  unfold Kept at hkept
  have hrows := hkept.1
  unfold KeptRows at hrows
  have hsecond := hrows.2 (sampleMiddle d) (sample_firstRow d)
  unfold KeptRows at hsecond
  have hrow := hsecond.1 ⟨⟨2, .key (.iid 0)⟩, 10, []⟩
    (by rw [sample_observed hnil]; exact mem_singleton_self _)
  rw [(sample_idOf d).1, (sample_idOf d).2] at hrow
  omega

/-- The mapping of rows 1 and 2 in one batch: row 1 drops the filter that the hook of row 2
was given, and row 2 is recorded as a reader of it, where the serial path registers it
anew. -/
theorem parallelUpdate_differs : ∃ (c : ReadContext ℕ PlainKey ℕ ℕ),
    sampleMapper.Agrees sampleEnv sampleEdge.childName sampleMap ∧ Keyed c.deps ∧ c.deps.Tidy ∧
      Fresh sampleEnv c.deps ∧ OldUndrawn sampleEnv sampleEdge c [.iid 1, .iid 2] ∧
      ¬BothOk (SameUpdated sampleEnv)
        (sampleEdge.serialUpdate sampleEnv sampleMap c [.iid 1, .iid 2])
        (sampleEdge.parallelUpdate sampleEnv sampleMapper c [.iid 1, .iid 2]) := by
  obtain ⟨d, _, hnil⟩ := exists_emptyDir
  have hold := sample_old d [.iid 1, .iid 2] (by simp)
  obtain ⟨s, hs⟩ := sample_serial d
  have hkept := kept_of_sameUpdated sample_agrees before_keyed sample_fresh hold (by simp) hs
  exact ⟨sampleStart d, sample_agrees, before_keyed, before_spec.1, sample_fresh, hold,
    mt hkept (sample_notKept hnil)⟩

/-- In the other order row 2 is a reader of the filter before row 1 drops it. -/
theorem parallel_same_iff_reversed : ∃ (c : ReadContext ℕ PlainKey ℕ ℕ),
    Kept sampleEnv sampleMapper sampleMap sampleEdge c c (batches [.iid 2, .iid 1]) ∧
      BothOk (SameUpdated sampleEnv)
        (sampleEdge.serialUpdate sampleEnv sampleMap c [.iid 2, .iid 1])
        (sampleEdge.parallelUpdate sampleEnv sampleMapper c [.iid 2, .iid 1]) := by
  obtain ⟨d, _, hnil⟩ := exists_emptyDir
  have hold := sample_old d [.iid 2, .iid 1] (by simp)
  have hkept : Kept sampleEnv sampleMapper sampleMap sampleEdge (sampleStart d) (sampleStart d)
      (batches [.iid 2, .iid 1]) := by
    rw [sample_batches]
    refine ⟨⟨fun _ _ => rfl, ?_⟩, fun _ _ => trivial⟩
    intro c' _
    refine ⟨?_, fun _ _ => trivial⟩
    intro o ho
    cases ho
  exact ⟨sampleStart d, hkept, (parallel_same_iff sample_agrees before_keyed before_spec.1
    sample_fresh hold (by simp)).2.1 hkept⟩

end Samples

end MapEdge
end SkipPlatform
