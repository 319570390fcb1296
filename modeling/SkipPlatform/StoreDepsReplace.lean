import SkipPlatform.StoreDepsRuns

set_option autoImplicit false

/-! The two modes of `replaceDeps` do the same: each is a sequence of removals and registrations of
one reader, and what such a sequence does depends on the paths removed and added only. -/
namespace SkipPlatform.StoreDeps
open List StoreReaders
variable {D K P F : Type} [LinearOrder D] [LinearOrder K]

namespace Deps

def config (d : Deps D K P F) : ℤ × Bool × Bool :=
  (d.nextFilterID, d.compactReaders, d.blockReaders)

theorem config_removeFilter (d : Deps D K P F) (path : Path D K) (hash id : ℤ) :
    (d.removeFilter path hash id).config = d.config := by
  unfold removeFilter
  split
  · rfl
  · split <;> rfl

theorem config_forgetPath (d : Deps D K P F) (path : Path D K) :
    (d.forgetPath path).config = d.config := by
  obtain ⟨dirName, baseName⟩ := path
  cases baseName with
  | filteredReadKey source hash id => exact config_removeFilter _ _ _ _
  | _ => rfl

theorem config_remove (d : Deps D K P F) (path : Path D K) (reader : ArrowKey D K) :
    (d.remove path reader).config = d.config := by
  have removed : ∀ (e : Deps D K P F) (child : D), (e.iremove child path).config = e.config := by
    intro e child
    unfold iremove
    dsimp only
    split <;> rfl
  unfold remove removeInternal
  dsimp only
  split_ifs
  · rw [removed, config_forgetPath]
  · exact removed _ _
  · exact config_forgetPath _ _
  · rfl

variable {path : Path D K}

theorem config_set {d d' : Deps D K P F} {reader : ArrowKey D K}
    (h : d.set path reader = some d') : d'.config = d.config := by
  unfold set at h
  rw [Option.map_eq_some_iff] at h
  obtain ⟨readers, -, rfl⟩ := h
  rfl

theorem bucket_forgetPath (d : Deps D K P F) (path q : Path D K) (hash : ℤ) :
    (d.forgetPath path).bucket q hash =
      (d.bucket q hash).filter fun f => decide (filteredPath q hash f.id ≠ path) := by
  obtain ⟨dirName, baseName⟩ := path
  cases baseName with
  | filteredReadKey source h id =>
    change (removeFilter { d with data := _ } ⟨dirName, source⟩ h id).bucket q hash = _
    rw [bucket_removeFilter]
    have same : bucket { d with
        data := d.data.remove ⟨dirName, .filteredReadKey source h id⟩ } q hash =
        d.bucket q hash := rfl
    rw [same]
    split_ifs with here
    · obtain ⟨rfl, rfl⟩ := here
      refine filter_congr fun f _ => ?_
      simp [filteredPath]
    · refine (filter_eq_self.mpr fun f _ => ?_).symm
      rw [decide_eq_true_iff]
      intro at_path
      simp only [filteredPath, Path.mk.injEq, ReadKey.filteredReadKey.injEq] at at_path
      exact here ⟨by rw [← at_path.1, ← at_path.2.1], at_path.2.2.1⟩
  | _ =>
    refine (filter_eq_self.mpr fun f _ => ?_).symm
    simp [filteredPath]

def onlyReader (d : Deps D K P F) (reader : ArrowKey D K) (path : Path D K) : Bool :=
  (d.readers path).all fun other => decide (other = reader)

variable {d : Deps D K P F}

theorem onlyReader_iff {reader : ArrowKey D K} :
    d.onlyReader reader path = true ↔ ∀ other ∈ d.readers path, other = reader := by
  simp [onlyReader]

theorem bucket_remove (h : d.Tidy) (path q : Path D K)
    (reader : ArrowKey D K) (hash : ℤ) :
    (d.remove path reader).bucket q hash = (d.bucket q hash).filter fun f =>
      !(decide (filteredPath q hash f.id = path) && d.onlyReader reader path) := by
  obtain ⟨valid, values⟩ := h.start path
  obtain ⟨valid', mem⟩ := valid.remove reader d.compactReaders
  rw [values] at mem
  unfold remove removeInternal
  dsimp only
  generalize ((d.data.maybeGet path).getD (.empty d.compactReaders d.blockReaders)).remove
    reader d.compactReaders = left at valid' mem
  have kept : ∀ e : Deps D K P F,
      (if (!false && !left.hasSibling reader && !left.hasChild reader.childName) = true then
        e.iremove reader.childName path else e).bucket q hash = e.bucket q hash := by
    intro e
    split_ifs
    · unfold bucket
      rw [filters_iremove]
    · rfl
  rw [kept]
  have last : left.isEmpty = true ↔ d.onlyReader reader path = true := by
    rw [valid'.isEmpty_iff, onlyReader_iff, eq_nil_iff_forall_not_mem]
    refine forall_congr' fun other => ?_
    rw [mem]
    tauto
  split_ifs with gone
  · rw [bucket_forgetPath, last.mp gone]
    refine filter_congr fun f _ => ?_
    simp
  · have others : d.onlyReader reader path = false := by
      rw [← Bool.not_eq_true, ← last]
      exact gone
    rw [others]
    exact (filter_eq_self.mpr fun f _ => by simp).symm

def lost (d : Deps D K P F) (reader : ArrowKey D K) (removed : List (Path D K))
    (path : Path D K) : Bool := decide (path ∈ removed) && d.onlyReader reader path

/-- The index `d'` is `d` with the reader taken from the paths `removed` and put on the paths
`added`. -/
structure Replaced (reader : ArrowKey D K) (removed added : List (Path D K))
    (d d' : Deps D K P F) : Prop where
  indexed : d'.Indexed
  readers : ∀ p a, a ∈ d'.readers p ↔
    (a = reader ∧ p ∈ added) ∨ (a ∈ d.readers p ∧ ¬ (a = reader ∧ p ∈ removed))
  bucket : ∀ q hash, d'.bucket q hash = (d.bucket q hash).filter fun f =>
    !d.lost reader removed (filteredPath q hash f.id)
  config : d'.config = d.config

variable (reader : ArrowKey D K)

theorem replaced_refl (h : d.Indexed) :
    Replaced reader [] [] d d := by
  refine ⟨h, fun p a => by simp, fun q hash => ?_, rfl⟩
  exact (filter_eq_self.mpr fun f _ => by simp [lost]).symm

theorem replaced_set (h : d.Indexed) (path : Path D K)
    (reader : ArrowKey D K) :
    ∃ d', d.set path reader = some d' ∧ Replaced reader [] [path] d d' := by
  obtain ⟨d', made, indexed, -⟩ := set_indexed h path reader
  obtain ⟨e, same, -, filters, readers, -⟩ := set_spec h.tidy path reader
  rw [made, Option.some.injEq] at same
  subst same
  refine ⟨d', made, indexed, fun p a => ?_, fun q hash => ?_, config_set made⟩
  · rw [readers, mem_singleton, and_comm (a := p = path)]
    simp
  · have buckets : d'.bucket q hash = d.bucket q hash := by
      unfold Deps.bucket
      rw [filters]
    rw [buckets]
    exact (filter_eq_self.mpr fun f _ => by simp [lost]).symm

theorem replaced_remove (h : d.Indexed) (path : Path D K)
    (reader : ArrowKey D K) : Replaced reader [path] [] d (d.remove path reader) := by
  have readers := (removeInternal_spec h.tidy path reader false).2.1
  refine ⟨(remove_indexed h path reader).1, fun p a => ?_, fun q hash => ?_,
    config_remove d path reader⟩
  · rw [remove, readers, mem_singleton, and_comm (a := p = path)]
    simp
  · rw [bucket_remove h.tidy]
    refine filter_congr fun f _ => ?_
    by_cases here : filteredPath q hash f.id = path
    · simp [lost, here]
    · simp [lost, here]

theorem Replaced.trans {reader : ArrowKey D K} {removed₁ added₁ removed₂ added₂ : List (Path D K)}
    {d d₁ d₂ : Deps D K P F} (h₁ : Replaced reader removed₁ added₁ d d₁)
    (h₂ : Replaced reader removed₂ added₂ d₁ d₂) (apart : ∀ p ∈ added₁, p ∉ removed₂) :
    Replaced reader (removed₁ ++ removed₂) (added₁ ++ added₂) d d₂ := by
  refine ⟨h₂.indexed, fun p a => ?_, fun q hash => ?_, h₂.config.trans h₁.config⟩
  · rw [h₂.readers, h₁.readers, mem_append, mem_append]
    have := apart p
    tauto
  · rw [h₂.bucket, h₁.bucket, filter_filter]
    refine filter_congr fun f _ => ?_
    generalize filteredPath q hash f.id = path
    have others : path ∈ removed₂ → d₁.onlyReader reader path = d.onlyReader reader path := by
      intro later
      rw [Bool.eq_iff_iff, onlyReader_iff, onlyReader_iff]
      refine forall_congr' fun other => ?_
      rw [h₁.readers]
      have := apart path
      tauto
    by_cases later : path ∈ removed₂
    · simp only [lost, others later, mem_append, later, or_true, decide_true, Bool.true_and]
      cases d.onlyReader reader path <;> simp
    · simp [lost, later]

theorem Replaced.congr {reader : ArrowKey D K} {removed removed' added added' : List (Path D K)}
    {d d' : Deps D K P F} (h : Replaced reader removed added d d')
    (hr : ∀ p, p ∈ removed ↔ p ∈ removed') (ha : ∀ p, p ∈ added ↔ p ∈ added') :
    Replaced reader removed' added' d d' := by
  refine ⟨h.indexed, fun p a => ?_, fun q hash => ?_, h.config⟩
  · rw [h.readers, hr, ha]
  · rw [h.bucket]
    refine filter_congr fun f _ => ?_
    simp only [lost, hr]

theorem replaced_removeDeps (reads : List (Path D K)) (h : d.Indexed) : Replaced reader reads [] d
    (d.removeDeps reader reads) := by
  induction reads generalizing d with
  | nil => exact replaced_refl reader h
  | cons path reads ih =>
    have first := replaced_remove h path reader
    exact first.trans (ih first.indexed) (by simp)

theorem replaced_updateNewDeps (reads : List (Path D K)) (h : d.Indexed) :
    ∃ d', d.updateNewDeps reader reads = some d' ∧ Replaced reader [] reads d d' := by
  induction reads generalizing d with
  | nil => exact ⟨d, rfl, replaced_refl reader h⟩
  | cons path reads ih =>
    obtain ⟨d₁, made₁, first⟩ := replaced_set h path reader
    obtain ⟨d₂, made₂, rest⟩ := ih first.indexed
    refine ⟨d₂, ?_, first.trans rest (by simp)⟩
    unfold updateNewDeps at made₂ ⊢
    rw [foldlM_cons, made₁]
    exact made₂

theorem replaced_mergeDeps (oldReads newReads : List (Path D K)) (h : d.Indexed)
    (hold : oldReads.Pairwise (· < ·))
    (hnew : newReads.Pairwise (· < ·)) :
    ∃ d', mergeDeps reader d oldReads newReads = some d' ∧
      Replaced reader (oldReads.filter (· ∉ newReads)) (newReads.filter (· ∉ oldReads)) d d' := by
  fun_induction mergeDeps reader d oldReads newReads with
  | case1 d oldReads =>
    refine ⟨_, rfl, (replaced_removeDeps reader oldReads h).congr ?_ ?_⟩
    · simp
    · simp
  | case2 d path newReads ih =>
    obtain ⟨d₁, made₁, first⟩ := replaced_set h path reader
    obtain ⟨d₂, made₂, rest⟩ := ih d₁ first.indexed hold (pairwise_cons.mp hnew).2
    refine ⟨d₂, by rw [made₁]; exact made₂, (first.trans rest (by simp)).congr ?_ ?_⟩
    · simp
    · simp
  | case3 d old oldReads path newReads hlt ih =>
    have first := replaced_remove h old reader
    obtain ⟨d₂, made₂, rest⟩ := ih first.indexed (pairwise_cons.mp hold).2 hnew
    have before : old ∉ path :: newReads := by
      intro mem
      rcases mem_cons.mp mem with rfl | later
      · exact lt_irrefl _ hlt
      · exact lt_asymm hlt ((pairwise_cons.mp hnew).1 old later)
    rw [mem_cons, not_or] at before
    refine ⟨d₂, made₂, (first.trans rest (by simp)).congr ?_ ?_⟩
    · intro p
      by_cases here : p = old
      · subst here
        simp [before.1, before.2]
      · simp [here]
    · intro p
      by_cases here : p = old
      · subst here
        simp [before.1, before.2]
      · simp [here]
  | case4 d oldReads path newReads hlt ih =>
    obtain ⟨d₂, made₂, rest⟩ :=
      ih h (pairwise_cons.mp hold).2 (pairwise_cons.mp hnew).2
    have notOld : path ∉ oldReads := fun mem =>
      lt_irrefl _ ((pairwise_cons.mp hold).1 path mem)
    have notNew : path ∉ newReads := fun mem =>
      lt_irrefl _ ((pairwise_cons.mp hnew).1 path mem)
    refine ⟨d₂, made₂, rest.congr ?_ ?_⟩
    · intro p
      by_cases here : p = path
      · subst here
        simp [notOld]
      · simp [here]
    · intro p
      by_cases here : p = path
      · subst here
        simp [notNew]
      · simp [here]
  | case5 d old oldReads path newReads hlt hne ih =>
    obtain ⟨d₁, made₁, first⟩ := replaced_set h path reader
    obtain ⟨d₂, made₂, rest⟩ := ih d₁ first.indexed hold (pairwise_cons.mp hnew).2
    have below : path < old := lt_of_le_of_ne (not_lt.mp hlt) (Ne.symm hne)
    have before : path ∉ old :: oldReads := by
      intro mem
      rcases mem_cons.mp mem with rfl | later
      · exact lt_irrefl _ below
      · exact lt_asymm below ((pairwise_cons.mp hold).1 path later)
    rw [mem_cons, not_or] at before
    refine ⟨d₂, by rw [made₁]; exact made₂, (first.trans rest ?_).congr ?_ ?_⟩
    · intro p mem
      rw [mem_singleton.mp mem, mem_filter]
      exact fun both => (mem_cons.mp both.1).elim before.1 before.2
    · intro p
      by_cases here : p = path
      · subst here
        simp [before.1, before.2]
      · simp [here]
    · intro p
      by_cases here : p = path
      · subst here
        simp [before.1, before.2]
      · simp [here]

/-- The tables of the two indexes have the same entries; the readers of a path may be laid out in
two ways. -/
structure Same (d d' : Deps D K P F) : Prop where
  data : ∀ path, Option.Rel DependencyReaders.SameAnswers (d.data.maybeGet path)
    (d'.data.maybeGet path)
  idata : ∀ child, (d.idata.maybeGet child).map SortedMap.items =
    (d'.idata.maybeGet child).map SortedMap.items
  filters : ∀ path, (d.filters.maybeGet path).map SortedMap.items =
    (d'.filters.maybeGet path).map SortedMap.items
  config : d.config = d'.config

theorem Tidy.bucket_ne_nil (h : d.Tidy)
    {groups : SortedMap ℤ (List (ReadFilter P F))} (hg : d.filters.maybeGet path = some groups)
    (hash : ℤ) : d.bucket path hash = [] ↔ groups.maybeGet hash = none := by
  have bucket : d.bucket path hash = (groups.maybeGet hash).getD [] := by
    rw [Deps.bucket, hg]
    rfl
  rw [bucket]
  cases hb : groups.maybeGet hash with
  | none => simp
  | some b => simpa using (h.filters path groups hg).2 hash b hb

theorem Tidy.exists_bucket (h : d.Tidy)
    {groups : SortedMap ℤ (List (ReadFilter P F))} (hg : d.filters.maybeGet path = some groups) :
    ∃ hash, d.bucket path hash ≠ [] := by
  obtain ⟨⟨hash, b⟩, mem⟩ := exists_mem_of_ne_nil _ (h.filters path groups hg).1
  refine ⟨hash, ?_⟩
  rw [ne_eq, h.bucket_ne_nil hg, SortedMap.maybeGet_eq_some.mpr mem]
  exact Option.some_ne_none b

theorem filters_eq {d d' : Deps D K P F} (h : d.Tidy) (h' : d'.Tidy)
    (buckets : ∀ q hash, d.bucket q hash = d'.bucket q hash) (path : Path D K) :
    (d.filters.maybeGet path).map SortedMap.items =
      (d'.filters.maybeGet path).map SortedMap.items := by
  have empty : ∀ {e : Deps D K P F}, e.filters.maybeGet path = none →
      ∀ hash, e.bucket path hash = [] := by
    intro e he hash
    rw [Deps.bucket, he]
    rfl
  cases hg : d.filters.maybeGet path with
  | none =>
    cases hg' : d'.filters.maybeGet path with
    | none => rfl
    | some groups' =>
      obtain ⟨hash, filled⟩ := h'.exists_bucket hg'
      exact absurd ((buckets path hash).symm.trans (empty hg hash)) filled
  | some groups =>
    cases hg' : d'.filters.maybeGet path with
    | none =>
      obtain ⟨hash, filled⟩ := h.exists_bucket hg
      exact absurd ((buckets path hash).trans (empty hg' hash)) filled
    | some groups' =>
      have entries : ∀ hash, groups.maybeGet hash = groups'.maybeGet hash := by
        intro hash
        have same := buckets path hash
        have none_iff : groups.maybeGet hash = none ↔ groups'.maybeGet hash = none := by
          rw [← h.bucket_ne_nil hg, ← h'.bucket_ne_nil hg', same]
        simp only [Deps.bucket, hg, hg', Option.getD_some] at same
        cases hb : groups.maybeGet hash with
        | none => exact (none_iff.mp hb).symm
        | some b =>
          cases hb' : groups'.maybeGet hash with
          | none => exact absurd (none_iff.mpr hb') (by rw [hb]; exact Option.some_ne_none b)
          | some b' =>
            rw [hb, hb'] at same
            exact congrArg some same
      exact congrArg some (SortedMap.items_eq_of_maybeGet entries)

theorem idata_eq {d d' : Deps D K P F} (h : d.Tidy) (h' : d'.Tidy)
    (inverse : ∀ child p, p ∈ d.inverse child ↔ p ∈ d'.inverse child) (child : D) :
    (d.idata.maybeGet child).map SortedMap.items =
      (d'.idata.maybeGet child).map SortedMap.items := by
  have listed : ∀ {e : Deps D K P F} {s : SortedSet (Path D K)}, e.idata.maybeGet child = some s →
      e.inverse child = s.keys := by
    intro e s he
    rw [Deps.inverse, he]
    rfl
  have missing : ∀ {e : Deps D K P F}, e.idata.maybeGet child = none → e.inverse child = [] := by
    intro e he
    rw [Deps.inverse, he]
    rfl
  have nonempty := nonempty_congr (inverse child)
  cases hs : d.idata.maybeGet child with
  | none =>
    cases hs' : d'.idata.maybeGet child with
    | none => rfl
    | some s' =>
      rw [missing hs, listed hs'] at nonempty
      exact absurd rfl (nonempty.mpr (h'.inverse child s' hs'))
  | some s =>
    cases hs' : d'.idata.maybeGet child with
    | none =>
      rw [listed hs, missing hs'] at nonempty
      exact absurd rfl (nonempty.mp (h.inverse child s hs))
    | some s' =>
      have members := inverse child
      rw [listed hs, listed hs'] at members
      have entries : ∀ p, s.maybeGet p = s'.maybeGet p := by
        intro p
        have both := members p
        rw [SortedMap.mem_keys, SortedMap.mem_keys] at both
        cases hp : s.maybeGet p with
        | none =>
          cases hp' : s'.maybeGet p with
          | none => rfl
          | some u =>
            obtain ⟨v, hv⟩ := both.mpr ⟨u, hp'⟩
            rw [hp] at hv
            cases hv
        | some u =>
          obtain ⟨v, hv⟩ := both.mp ⟨u, hp⟩
          exact hv.symm
      exact congrArg some (SortedMap.items_eq_of_maybeGet entries)

theorem data_same {d d' : Deps D K P F} (h : d.Tidy) (h' : d'.Tidy)
    (readers : ∀ p a, a ∈ d.readers p ↔ a ∈ d'.readers p) (path : Path D K) :
    Option.Rel DependencyReaders.SameAnswers (d.data.maybeGet path) (d'.data.maybeGet path) := by
  have listed : ∀ {e : Deps D K P F} {r : DependencyReaders D K}, e.data.maybeGet path = some r →
      e.readers path = r.values := by
    intro e r he
    rw [Deps.readers, he]
  have missing : ∀ {e : Deps D K P F}, e.data.maybeGet path = none → e.readers path = [] := by
    intro e he
    rw [Deps.readers, he]
  have nonempty := nonempty_congr (readers path)
  cases hr : d.data.maybeGet path with
  | none =>
    cases hr' : d'.data.maybeGet path with
    | none => exact Option.Rel.none
    | some r' =>
      rw [missing hr, listed hr'] at nonempty
      exact absurd rfl (nonempty.mpr (h'.readers path r' hr').2)
  | some r =>
    cases hr' : d'.data.maybeGet path with
    | none =>
      rw [listed hr, missing hr'] at nonempty
      exact absurd rfl (nonempty.mp (h.readers path r hr).2)
    | some r' =>
      have members := readers path
      rw [listed hr, listed hr'] at members
      have valid := (h.readers path r hr).1
      have valid' := (h'.readers path r' hr').1
      have sets : {x | x ∈ r.values} = {x | x ∈ r'.values} := Set.ext members
      rw [DependencyReaders.Valid, sets] at valid
      exact Option.Rel.some (valid.sameAnswers valid')

theorem same_of_readers {d d' : Deps D K P F} (h : d.Indexed) (h' : d'.Indexed)
    (readers : ∀ p a, a ∈ d.readers p ↔ a ∈ d'.readers p)
    (buckets : ∀ q hash, d.bucket q hash = d'.bucket q hash) (config : d.config = d'.config) :
    Same d d' := by
  have inverse : ∀ child p, p ∈ d.inverse child ↔ p ∈ d'.inverse child := by
    intro child p
    rw [h.inverse child trivial, h'.inverse child trivial]
    exact exists_congr fun a => and_congr_left fun _ => readers p a
  exact ⟨data_same h.tidy h'.tidy readers, idata_eq h.tidy h'.tidy inverse,
    filters_eq h.tidy h'.tidy buckets, config⟩

/-- Both modes give one index: the reader is on the new reads and no other reader moves. -/
theorem replaceDeps_same {d : Deps D K P F} (h : d.Indexed) (reader : ArrowKey D K)
    (oldReads : List (Path D K)) (sorted : oldReads.Pairwise (· < ·))
    (current : ∀ p, p ∈ oldReads ↔ reader ∈ d.readers p) (newReads : SortedSet (Path D K)) :
    ∃ d₀ d₁, d.replaceDeps false reader oldReads newReads = some d₀ ∧
      d.replaceDeps true reader oldReads newReads = some d₁ ∧ Same d₀ d₁ ∧
      (∀ p, reader ∈ d₁.readers p ↔ p ∈ newReads.keys) ∧
      ∀ p other, other ≠ reader → (other ∈ d₁.readers p ↔ other ∈ d.readers p) := by
  obtain ⟨e, updated, added⟩ := replaced_updateNewDeps reader newReads.keys h
  have removed := replaced_removeDeps reader
    (oldReads.filter fun path => !newReads.containsKey path) added.indexed
  have stale : ∀ p, p ∈ oldReads.filter (fun path => !newReads.containsKey path) ↔
      p ∈ oldReads.filter (· ∉ newReads.keys) := by
    intro p
    simp only [mem_filter, Bool.not_eq_true', decide_eq_true_eq, ← Bool.not_eq_true,
      SortedMap.containsKey_iff]
  have apart : ∀ p ∈ newReads.keys,
      p ∉ oldReads.filter fun path => !newReads.containsKey path := by
    intro p new old
    rw [stale, mem_filter, decide_eq_true_iff] at old
    exact old.2 new
  have whole : Replaced reader (oldReads.filter (· ∉ newReads.keys)) newReads.keys d
      (e.removeDeps reader (oldReads.filter fun path => !newReads.containsKey path)) := by
    refine (added.trans removed apart).congr (fun p => ?_) fun p => ?_
    · rw [nil_append, stale]
    · rw [append_nil]
  obtain ⟨d₁, walked, merged⟩ :=
    replaced_mergeDeps reader oldReads newReads.keys h sorted newReads.keys_sorted
  refine ⟨_, d₁, ?_, walked, same_of_readers whole.indexed merged.indexed ?_ ?_ ?_, ?_, ?_⟩
  · rw [replaceDeps, if_neg Bool.false_ne_true, updated, Option.map_some]
  · intro p a
    rw [whole.readers, merged.readers]
    simp only [mem_filter, decide_eq_true_eq]
    by_cases same : a = reader
    · subst same
      rw [← current]
      tauto
    · simp [same]
  · intro q hash
    rw [whole.bucket, merged.bucket]
  · rw [whole.config, merged.config]
  · intro p
    rw [merged.readers, ← current]
    simp only [mem_filter, decide_eq_true_eq]
    tauto
  · intro p other different
    rw [merged.readers]
    simp [different]

/-- The reads of rows 7 and 9 are replaced by those of rows 8 and 9. -/
theorem replaceDeps_same_rows :
    let oldReads : List (Path ℕ ℕ) := [⟨5, .key 7⟩, ⟨5, .key 9⟩]
    let newReads : SortedSet (Path ℕ ℕ) := (SortedMap.singleton ⟨5, .key 8⟩ ()).set ⟨5, .key 9⟩ ()
    ∃ d : Deps ℕ ℕ ℕ ℕ, (empty true false).updateNewDeps sampleReader oldReads = some d ∧
      ∃ d₀ d₁, d.replaceDeps false sampleReader oldReads newReads = some d₀ ∧
        d.replaceDeps true sampleReader oldReads newReads = some d₁ ∧ Same d₀ d₁ ∧
        (∀ p, sampleReader ∈ d₁.readers p ↔ p ∈ newReads.keys) ∧
        ∀ p other, other ≠ sampleReader → (other ∈ d₁.readers p ↔ other ∈ d.readers p) := by
  intro oldReads newReads
  obtain ⟨d, made, added⟩ :=
    replaced_updateNewDeps (P := ℕ) (F := ℕ) sampleReader oldReads (indexed_empty true false)
  have current : ∀ p, p ∈ oldReads ↔ sampleReader ∈ d.readers p := by
    intro p
    rw [added.readers]
    simp [readers, empty, SortedMap.maybeGet, SortedMap.maybeGetItem, SortedMap.empty,
      SortedTree.maybeGetItem]
  exact ⟨d, made,
    replaceDeps_same added.indexed sampleReader oldReads (by decide) current newReads⟩

end Deps
end SkipPlatform.StoreDeps
