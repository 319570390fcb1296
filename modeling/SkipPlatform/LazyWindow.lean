import SkipPlatform.LazyReads
import SkipPlatform.LazyRetention

set_option autoImplicit false
set_option linter.unusedSectionVars false

/-! Runs of lazy reads: a row is kept while one of the last batches of reads has it. -/
namespace SkipPlatform.LazyContext
open List StoreReaders
variable {D K F T E : Type} [LinearOrder D] [LinearOrder K]

def has (batch : FiniteMap D (Finset K)) (dirName : D) (key : K) : Bool :=
  decide (key ∈ (batch.get dirName).getD ∅)

def lookup (refCounts : FiniteMap D (FiniteMap K ℤ)) (dirName : D) (key : K) : Option ℤ :=
  (refCounts.get dirName).bind (·.get key)

def refCount (c : LazyContext D K F T) (dirName : D) (key : K) : ℤ :=
  (lookup c.lazyGetsRefCount dirName key).getD 0

def countOf (n : ℕ) : Option ℤ := if n = 0 then none else some n

theorem countAfter_countOf {n n' : ℕ} {new dead : Bool} (h : n + new.toNat = n' + dead.toNat) :
    TLazyDir.countAfter (countOf n) new dead = countOf n' := by
  cases new
  · cases dead
    · have same : n = n' := h
      rw [same]
      rfl
    · have more : n = n' + 1 := h
      subst more
      by_cases last : n' = 0
      · simp [TLazyDir.countAfter, TLazyDir.decrement, countOf, last]
      · simp [TLazyDir.countAfter, TLazyDir.decrement, countOf, last]
  · cases dead
    · have more : n' = n + 1 := h.symm
      subst more
      by_cases first : n = 0
      · simp [TLazyDir.countAfter, countOf, first]
      · simp [TLazyDir.countAfter, countOf, first]
    · have same : n = n' := Nat.add_right_cancel h
      rw [same]
      rfl

theorem updateDir_counts (c : LazyContext D K F T) (dirName : D)
    (refCountsOpt : Option (FiniteMap K ℤ)) (newKeysOpt deadKeysOpt : Option (Finset K))
    (found : untouched refCountsOpt newKeysOpt deadKeysOpt = true ∨
      (c.dirs.get dirName).isSome = true) (key : K) :
    (c.updateDir dirName refCountsOpt newKeysOpt deadKeysOpt).1.bind (·.get key) =
      TLazyDir.countAfter (refCountsOpt.bind (·.get key))
        (decide (key ∈ newKeysOpt.getD ∅)) (decide (key ∈ deadKeysOpt.getD ∅)) := by
  unfold updateDir
  split
  · next idle =>
    simp only [untouched, Bool.and_eq_true, Bool.or_eq_true, Option.isNone_iff_eq_none] at idle
    obtain ⟨rfl, rfl | rfl⟩ := idle
    · cases decide (key ∈ deadKeysOpt.getD ∅) <;> rfl
    · rfl
  · next busy =>
    split
    · next absent =>
      rw [absent] at found
      rcases found with idle | present
      · exact absurd idle busy
      · cases present
    · next dir present =>
      rw [TLazyDir.updateLazyGets_eq]
      dsimp only
      have start : (refCountsOpt.getD .empty).get key = refCountsOpt.bind (·.get key) := by
        cases refCountsOpt <;> rfl
      rw [← start, ← TLazyDir.get_merge]
      split
      · next none =>
        rw [FiniteMap.isEmpty_iff.mp none key]
        rfl
      · rfl

theorem updateDir_rows (c : LazyContext D K F T) (dirName : D) (dir : TLazyDir D K F T)
    (found : c.dirs.get dirName = some dir) (refCountsOpt : Option (FiniteMap K ℤ))
    (newKeysOpt deadKeysOpt : Option (Finset K)) :
    (c.updateDir dirName refCountsOpt newKeysOpt deadKeysOpt).2.getD dir =
      { dir with
        data := TLazyDir.retire dir.data (refCountsOpt.getD .empty) (newKeysOpt.getD ∅)
          (deadKeysOpt.getD ∅) } := by
  have unchanged : (∀ key, TLazyDir.expires (refCountsOpt.getD .empty) (newKeysOpt.getD ∅)
      (deadKeysOpt.getD ∅) key = false) → TLazyDir.retire dir.data (refCountsOpt.getD .empty)
        (newKeysOpt.getD ∅) (deadKeysOpt.getD ∅) = dir.data := by
    intro none
    refine FiniteMap.ext fun key => ?_
    rw [TLazyDir.get_retire, none, if_neg Bool.false_ne_true]
  unfold updateDir
  split
  · next idle =>
    rw [unchanged]
    · rfl
    · intro key
      simp only [untouched, Bool.and_eq_true, Bool.or_eq_true, Option.isNone_iff_eq_none] at idle
      obtain ⟨rfl, rfl | rfl⟩ := idle <;> simp [TLazyDir.expires]
  · rw [found]
    dsimp only
    rw [TLazyDir.updateLazyGets_eq]
    dsimp only
    split
    · next none =>
      rw [unchanged]
      · rfl
      · intro key
        rw [List.isEmpty_iff, filter_eq_nil_iff] at none
        rw [Bool.eq_false_iff]
        intro gone
        refine none key ?_ gone
        exact (Finset.mem_sort _).mpr (of_decide_eq_true gone).2.1
    · rfl

def expiring (c : LazyContext D K F T) : FiniteMap D (Finset K) :=
  if c.lazyCapacity < (c.lazyGetsQueue ++ [c.lazyGets]).length then
    (c.lazyGetsQueue ++ [c.lazyGets]).headD .empty
  else .empty

structure Ends (c c' : LazyContext D K F T) : Prop where
  queue : c'.lazyGetsQueue = if c.lazyCapacity < (c.lazyGetsQueue ++ [c.lazyGets]).length then
    (c.lazyGetsQueue ++ [c.lazyGets]).tail else c.lazyGetsQueue ++ [c.lazyGets]
  counts : ∀ d k, lookup c'.lazyGetsRefCount d k =
    TLazyDir.countAfter (lookup c.lazyGetsRefCount d k) (has c.lazyGets d k) (has c.expiring d k)
  rows : ∀ d, c'.dirs.get d = (c.dirs.get d).map fun dir =>
    { dir with
      data := TLazyDir.retire dir.data ((c.lazyGetsRefCount.get d).getD .empty)
        ((c.lazyGets.get d).getD ∅) ((c.expiring.get d).getD ∅) }
  gets : c'.lazyGets = .empty
  names : ∀ d, (c'.lazyGetsRefCount.get d).isSome = true →
    (c.lazyGetsRefCount.get d).isSome = true ∨ (c.lazyGets.get d).isSome = true ∨
      (c.expiring.get d).isSome = true
  capacity : c'.lazyCapacity = c.lazyCapacity

theorem updateLazyGets_eq (c : LazyContext D K F T) :
    c.updateLazyGets =
      let lazyGetsQueue := if c.lazyCapacity < (c.lazyGetsQueue ++ [c.lazyGets]).length then
        (c.lazyGetsQueue ++ [c.lazyGets]).tail else c.lazyGetsQueue ++ [c.lazyGets]
      if c.lazyGets.isEmpty && c.expiring.isEmpty then
        some { c with lazyGetsQueue := lazyGetsQueue }
      else if c.missing c.expiring ≠ ∅ then none
      else
        some { c with
          lazyGetsQueue := lazyGetsQueue
          lazyGetsRefCount := c.lazyGetsRefCount.mergeWith2 c.lazyGets c.expiring
            fun dirName refCountsOpt newKeysOpt deadKeysOpt =>
              (c.updateDir dirName refCountsOpt newKeysOpt deadKeysOpt).1
          dirs := c.dirs.mapWithKey fun dirName dir =>
            (c.updateDir dirName (c.lazyGetsRefCount.get dirName) (c.lazyGets.get dirName)
              (c.expiring.get dirName)).2.getD dir
          lazyGets := .empty } := by
  unfold updateLazyGets expiring
  simp only [decide_eq_true_eq]

theorem found_of_missing {c : LazyContext D K F T} (h : c.missing c.expiring = ∅) (d : D) :
    untouched (c.lazyGetsRefCount.get d) (c.lazyGets.get d) (c.expiring.get d) = true ∨
      (c.dirs.get d).isSome = true := by
  by_cases listed : d ∈ c.lazyGetsRefCount.support ∪ c.lazyGets.support ∪ c.expiring.support
  · have found := Finset.eq_empty_iff_forall_notMem.mp h d
    rw [missing, Finset.mem_filter, not_and] at found
    have both := found listed
    rw [Bool.and_eq_true, not_and_or, Bool.not_eq_true', Bool.not_eq_false, Bool.not_eq_true,
      Option.isNone_eq_false_iff] at both
    exact both
  · rw [Finset.mem_union, Finset.mem_union, not_or, not_or, FiniteMap.not_mem_support,
      FiniteMap.not_mem_support, FiniteMap.not_mem_support] at listed
    left
    rw [listed.1.1, listed.1.2]
    rfl

variable {c c' : LazyContext D K F T}

theorem updateLazyGets_ends (h : c.updateLazyGets = some c') :
    Ends c c' := by
  rw [updateLazyGets_eq] at h
  dsimp only at h
  split at h
  · next idle =>
    cases h
    rw [Bool.and_eq_true, FiniteMap.isEmpty_iff, FiniteMap.isEmpty_iff] at idle
    refine ⟨rfl, fun d k => ?_, fun d => ?_, FiniteMap.ext idle.1, fun d some => Or.inl some, rfl⟩
    · rw [has, has, idle.1 d, idle.2 d]
      rfl
    · cases found : c.dirs.get d with
      | none => rfl
      | some dir =>
        have rows : TLazyDir.retire dir.data ((c.lazyGetsRefCount.get d).getD .empty)
            ((c.lazyGets.get d).getD ∅) ((c.expiring.get d).getD ∅) = dir.data := by
          refine FiniteMap.ext fun k => ?_
          rw [TLazyDir.get_retire, idle.1 d, idle.2 d]
          simp [TLazyDir.expires]
        rw [Option.map_some, rows]
  · split at h
    · cases h
    · next present =>
      cases h
      have found := found_of_missing (not_not.mp present)
      have merged : ∀ d, (c.lazyGetsRefCount.mergeWith2 c.lazyGets c.expiring
          fun dirName refCountsOpt newKeysOpt deadKeysOpt =>
            (c.updateDir dirName refCountsOpt newKeysOpt deadKeysOpt).1).get d =
          (c.updateDir d (c.lazyGetsRefCount.get d) (c.lazyGets.get d) (c.expiring.get d)).1 :=
        fun d => FiniteMap.get_mergeWith2 _ _ _ _ d rfl
      refine ⟨rfl, fun d k => ?_, fun d => ?_, rfl, fun d some => ?_, rfl⟩
      · rw [lookup, merged, updateDir_counts c d _ _ _ (found d)]
        rfl
      · change (c.dirs.get d).map _ = _
        cases there : c.dirs.get d with
        | none => rfl
        | some dir => exact congrArg Option.some (updateDir_rows c d dir there _ _ _)
      · rw [merged] at some
        by_contra none
        rw [not_or, not_or, Bool.not_eq_true, Bool.not_eq_true, Bool.not_eq_true,
          Option.isSome_eq_false_iff, Option.isSome_eq_false_iff, Option.isSome_eq_false_iff,
          Option.isNone_iff_eq_none, Option.isNone_iff_eq_none, Option.isNone_iff_eq_none] at none
        rw [none.1, none.2.1, none.2.2] at some
        cases some

def lastBatches (lazyCapacity : ℤ) (history : List (FiniteMap D (Finset K))) :
    List (FiniteMap D (Finset K)) :=
  history.drop (history.length - lazyCapacity.toNat)

def Defined (c : LazyContext D K F T) (dirName : D) (key : K) : Prop :=
  ∃ dir, c.dirs.get dirName = some dir ∧ dir.collect = true ∧
    ∃ values reads, dir.data.get key = some (.lDefined values reads)

/-- After the batches `history`. -/
structure Retained (c : LazyContext D K F T) (history : List (FiniteMap D (Finset K))) : Prop where
  queue : c.lazyGetsQueue = lastBatches c.lazyCapacity history
  counts : ∀ d k, lookup c.lazyGetsRefCount d k = countOf (c.lazyGetsQueue.countP (has · d k))
  known : ∀ d, (c.lazyGets.get d).isSome = true ∨ (c.lazyGetsRefCount.get d).isSome = true ∨
    (∃ batch ∈ c.lazyGetsQueue, (batch.get d).isSome = true) → (c.dirs.get d).isSome = true
  covered : 1 ≤ c.lazyCapacity → ∀ d k, c.Defined d k →
    0 < c.lazyGetsQueue.countP (has · d k) ∨ has c.lazyGets d k = true

theorem lastBatches_concat (lazyCapacity : ℤ) (history : List (FiniteMap D (Finset K)))
    (batch : FiniteMap D (Finset K)) :
    lastBatches lazyCapacity (history ++ [batch]) =
      if lazyCapacity < (lastBatches lazyCapacity history ++ [batch]).length then
        (lastBatches lazyCapacity history ++ [batch]).tail
      else lastBatches lazyCapacity history ++ [batch] := by
  have whole : lastBatches lazyCapacity history ++ [batch] =
      (history ++ [batch]).drop (history.length - lazyCapacity.toNat) := by
    rw [lastBatches, drop_append_of_le_length (Nat.sub_le _ _)]
  rw [whole, lastBatches, length_drop, length_append, length_singleton]
  split
  · next full =>
    rw [tail_drop]
    congr 1
    omega
  · next notFull =>
    congr 1
    omega

theorem Ends.window (h : Ends c c') (d : D) (k : K) :
    c.lazyGetsQueue.countP (has · d k) + (has c.lazyGets d k).toNat =
      c'.lazyGetsQueue.countP (has · d k) + (has c.expiring d k).toNat := by
  have all : (c.lazyGetsQueue ++ [c.lazyGets]).countP (has · d k) =
      c.lazyGetsQueue.countP (has · d k) + (has c.lazyGets d k).toNat := by
    rw [countP_append, countP_singleton]
    cases has c.lazyGets d k <;> rfl
  rw [← all, h.queue, expiring]
  split
  · cases split : c.lazyGetsQueue ++ [c.lazyGets] with
    | nil => exact absurd split (append_ne_nil_of_right_ne_nil _ (cons_ne_nil _ _))
    | cons first rest =>
      rw [countP_cons, tail_cons, headD_cons]
      cases has first d k <;> rfl
  · have none : has (.empty : FiniteMap D (Finset K)) d k = false := by simp [has]
    rw [none]
    rfl

theorem Ends.entered (h : Ends c c') (capacity : 1 ≤ c.lazyCapacity)
    {d : D} {k : K} (new : has c.lazyGets d k = true) :
    0 < c'.lazyGetsQueue.countP (has · d k) := by
  have mem : c.lazyGets ∈ c'.lazyGetsQueue := by
    rw [h.queue]
    cases empty : c.lazyGetsQueue with
    | nil =>
      rw [if_neg]
      · exact mem_append_right _ mem_cons_self
      · rw [nil_append, length_singleton]
        omega
    | cons first rest =>
      split
      · exact mem_append_right _ mem_cons_self
      · exact mem_append_right _ mem_cons_self
  exact countP_pos_iff.mpr ⟨_, mem, new⟩

variable {history : List (FiniteMap D (Finset K))}

theorem Retained.counts_ends (h : Retained c history) (e : Ends c c') (d : D)
    (k : K) : lookup c'.lazyGetsRefCount d k = countOf (c'.lazyGetsQueue.countP (has · d k)) := by
  rw [e.counts, h.counts]
  exact countAfter_countOf (e.window d k)

theorem Retained.expires_iff (h : Retained c history) (e : Ends c c')
    (capacity : 1 ≤ c.lazyCapacity) {d : D} {k : K} (defined : c.Defined d k) :
    TLazyDir.expires ((c.lazyGetsRefCount.get d).getD .empty) ((c.lazyGets.get d).getD ∅)
      ((c.expiring.get d).getD ∅) k = true ↔ c'.lazyGetsQueue.countP (has · d k) = 0 := by
  have start : ((c.lazyGetsRefCount.get d).getD .empty).get k = lookup c.lazyGetsRefCount d k := by
    rw [lookup]
    cases c.lazyGetsRefCount.get d <;> rfl
  have balance := e.window d k
  rw [TLazyDir.expires, decide_eq_true_iff, start, h.counts]
  constructor
  · rintro ⟨one, dead, notNew⟩
    have isDead : has c.expiring d k = true := decide_eq_true dead
    have isNotNew : has c.lazyGets d k = false := decide_eq_false notNew
    rw [isDead, isNotNew] at balance
    rw [countOf] at one
    split at one
    · cases one
    · have single : c.lazyGetsQueue.countP (has · d k) = 1 := by
        exact_mod_cast Option.some.inj one
      rw [single] at balance
      have left : 1 = c'.lazyGetsQueue.countP (has · d k) + 1 := balance
      omega
  · intro gone
    have notNew : has c.lazyGets d k = false := by
      rw [← Bool.not_eq_true]
      intro new
      have positive := e.entered capacity new
      omega
    have before : 0 < c.lazyGetsQueue.countP (has · d k) := by
      rcases h.covered capacity d k defined with counted | new
      · exact counted
      · rw [notNew] at new
        cases new
    rw [notNew, gone] at balance
    have dead : has c.expiring d k = true := by
      rw [← Bool.not_eq_false]
      intro alive
      rw [alive] at balance
      omega
    rw [dead] at balance
    have one : c.lazyGetsQueue.countP (has · d k) = 1 := balance
    exact ⟨by rw [one]; rfl, of_decide_eq_true dead, of_decide_eq_false notNew⟩

theorem Ends.defined {c c' : LazyContext D K F T} (h : Ends c c') {d : D} {k : K}
    (defined : c'.Defined d k) : c.Defined d k ∧
      TLazyDir.expires ((c.lazyGetsRefCount.get d).getD .empty) ((c.lazyGets.get d).getD ∅)
        ((c.expiring.get d).getD ∅) k = false := by
  obtain ⟨dir', found', collect, values, reads, row⟩ := defined
  rw [h.rows, Option.map_eq_some_iff] at found'
  obtain ⟨dir, found, rfl⟩ := found'
  rw [TLazyDir.get_retire] at row
  split at row
  · obtain ⟨value, -, removed⟩ := Option.map_eq_some_iff.mp row
    cases value <;> cases removed
  · next kept =>
    exact ⟨⟨dir, found, collect, values, reads, row⟩, Bool.not_eq_true _ ▸ kept⟩

theorem Retained.ends
    (h : Retained c history) (e : Ends c c') : Retained c' (history ++ [c.lazyGets]) := by
  refine ⟨?_, h.counts_ends e, ?_, ?_⟩
  · rw [e.queue, e.capacity, lastBatches_concat, h.queue]
  · intro d mentioned
    have there : (c.dirs.get d).isSome = true → (c'.dirs.get d).isSome = true := by
      rw [e.rows, Option.isSome_map]
      exact id
    apply there
    apply h.known
    have queued : ∀ batch ∈ c.lazyGetsQueue ++ [c.lazyGets], (batch.get d).isSome = true →
        (c.lazyGets.get d).isSome = true ∨ (c.lazyGetsRefCount.get d).isSome = true ∨
          ∃ batch ∈ c.lazyGetsQueue, (batch.get d).isSome = true := by
      intro batch mem some
      rcases mem_append.mp mem with old | new
      · exact Or.inr (Or.inr ⟨batch, old, some⟩)
      · rw [mem_singleton.mp new] at some
        exact Or.inl some
    rcases mentioned with got | counted | ⟨batch, mem, some⟩
    · rw [e.gets] at got
      cases got
    · rcases e.names d counted with old | new | dead
      · exact Or.inr (Or.inl old)
      · exact Or.inl new
      · rw [expiring] at dead
        split at dead
        · cases split : c.lazyGetsQueue ++ [c.lazyGets] with
          | nil =>
            rw [split] at dead
            cases dead
          | cons first rest =>
            rw [split, headD_cons] at dead
            exact queued first (split ▸ mem_cons_self) dead
        · cases dead
    · rw [e.queue] at mem
      split at mem
      · exact queued batch (mem_of_mem_tail mem) some
      · exact queued batch mem some
  · intro capacity d k defined
    rw [e.capacity] at capacity
    obtain ⟨before, kept⟩ := e.defined defined
    left
    rw [Nat.pos_iff_ne_zero, ne_eq, ← h.expires_iff e capacity before, kept]
    exact Bool.false_ne_true

theorem Retained.exists_ends {c : LazyContext D K F T}
    (h : Retained c history) : ∃ c', c.updateLazyGets = some c' := by
  have present : c.missing c.expiring = ∅ := by
    rw [Finset.eq_empty_iff_forall_notMem]
    intro d mem
    rw [missing, Finset.mem_filter, Bool.and_eq_true, Bool.not_eq_true',
      Option.isNone_iff_eq_none] at mem
    obtain ⟨-, busy, absent⟩ := mem
    have mentioned : (c.lazyGets.get d).isSome = true ∨
        (c.lazyGetsRefCount.get d).isSome = true := by
      by_contra none
      rw [not_or, Bool.not_eq_true, Bool.not_eq_true, Option.isSome_eq_false_iff,
        Option.isSome_eq_false_iff] at none
      rw [untouched, none.1, none.2] at busy
      cases busy
    have there := h.known d (mentioned.imp_right Or.inl)
    rw [absent] at there
    cases there
  rw [updateLazyGets_eq]
  dsimp only
  split
  · exact ⟨_, rfl⟩
  · rw [if_neg (not_not.mpr present)]
    exact ⟨_, rfl⟩

structure Reads (c c' : LazyContext D K F T) : Prop where
  queue : c'.lazyGetsQueue = c.lazyGetsQueue
  refCounts : c'.lazyGetsRefCount = c.lazyGetsRefCount
  capacity : c'.lazyCapacity = c.lazyCapacity
  dirs : ∀ d, (c'.dirs.get d).map TLazyDir.collect = (c.dirs.get d).map TLazyDir.collect
  gets : ∀ d k, has c.lazyGets d k = true → has c'.lazyGets d k = true
  known : ∀ d, (c'.lazyGets.get d).isSome = true →
    (c.lazyGets.get d).isSome = true ∨ (c.dirs.get d).isSome = true
  defined : ∀ d k, c'.Defined d k → c.Defined d k ∨ has c'.lazyGets d k = true

theorem Reads.refl (c : LazyContext D K F T) : Reads c c :=
  ⟨rfl, rfl, rfl, fun _ => rfl, fun _ _ => id, fun _ => Or.inl, fun _ _ => Or.inl⟩

theorem Reads.isSome {c c' : LazyContext D K F T} (h : Reads c c') (d : D) :
    (c'.dirs.get d).isSome = (c.dirs.get d).isSome := by
  have same := congrArg Option.isSome (h.dirs d)
  rwa [Option.isSome_map, Option.isSome_map] at same

theorem Reads.trans {c c₁ c₂ : LazyContext D K F T} (h : Reads c c₁) (h' : Reads c₁ c₂) :
    Reads c c₂ := by
  refine ⟨h'.queue.trans h.queue, h'.refCounts.trans h.refCounts, h'.capacity.trans h.capacity,
    fun d => (h'.dirs d).trans (h.dirs d), fun d k => h'.gets d k ∘ h.gets d k, fun d some => ?_,
    fun d k defined => ?_⟩
  · rcases h'.known d some with earlier | there
    · exact h.known d earlier
    · rw [h.isSome] at there
      exact Or.inr there
  · rcases h'.defined d k defined with earlier | got
    · exact (h.defined d k earlier).imp_right (h'.gets d k)
    · exact Or.inr got

theorem Retained.reads
    (h : Retained c history) (r : Reads c c') : Retained c' history := by
  refine ⟨?_, ?_, ?_, ?_⟩
  · rw [r.queue, r.capacity, h.queue]
  · intro d k
    rw [r.refCounts, r.queue, h.counts]
  · intro d mentioned
    rw [r.isSome]
    rw [r.refCounts, r.queue] at mentioned
    rcases mentioned with got | other
    · rcases r.known d got with earlier | there
      · exact h.known d (Or.inl earlier)
      · exact there
    · exact h.known d (Or.inr other)
  · intro capacity d k defined
    rw [r.capacity] at capacity
    rw [r.queue]
    rcases r.defined d k defined with earlier | got
    · exact (h.covered capacity d k earlier).imp_right (r.gets d k)
    · exact Or.inr got

theorem reads_of_same (dirs : c'.dirs = c.dirs)
    (gets : c'.lazyGets = c.lazyGets) (queue : c'.lazyGetsQueue = c.lazyGetsQueue)
    (refCounts : c'.lazyGetsRefCount = c.lazyGetsRefCount)
    (capacity : c'.lazyCapacity = c.lazyCapacity) : Reads c c' := by
  refine ⟨queue, refCounts, capacity, ?_, ?_, ?_, ?_⟩
  · intro d
    rw [dirs]
  · intro d k
    rw [gets]
    exact id
  · intro d
    rw [gets]
    exact Or.inl
  · rintro d k ⟨dir, found, rest⟩
    rw [dirs] at found
    exact Or.inl ⟨dir, found, rest⟩

variable {dirName : D}

theorem reads_addLazyGet (c : LazyContext D K F T) (key : K)
    (present : (c.dirs.get dirName).isSome = true) : Reads c (c.addLazyGet dirName key) := by
  refine ⟨rfl, rfl, rfl, fun _ => rfl, ?_, ?_, fun _ _ => Or.inl⟩
  · intro d k got
    rw [has, addLazyGet, FiniteMap.get_set]
    by_cases here : d = dirName
    · subst here
      rw [if_pos rfl]
      exact decide_eq_true (Finset.mem_insert_of_mem (of_decide_eq_true got))
    · rw [if_neg here]
      exact got
  · intro d some
    by_cases here : d = dirName
    · exact Or.inr (here ▸ present)
    · rw [addLazyGet, FiniteMap.get_set, if_neg here] at some
      exact Or.inl some

theorem has_addLazyGet (c : LazyContext D K F T) (dirName : D) (key : K) :
    has (c.addLazyGet dirName key).lazyGets dirName key = true := by
  rw [has, addLazyGet, FiniteMap.get_set, if_pos rfl]
  exact decide_eq_true (Finset.mem_insert_self _ _)

theorem setResult_fields (c : LazyContext D K F T) (dirName : D) (key : K)
    (result : LazyResult D K F) :
    (c.setResult dirName key result).lazyGets = c.lazyGets ∧
      (c.setResult dirName key result).lazyGetsQueue = c.lazyGetsQueue ∧
      (c.setResult dirName key result).lazyGetsRefCount = c.lazyGetsRefCount ∧
      (c.setResult dirName key result).lazyCapacity = c.lazyCapacity := by
  unfold setResult
  split <;> exact ⟨rfl, rfl, rfl, rfl⟩

theorem reads_setResult (c : LazyContext D K F T) (dirName : D) (key : K)
    (result : LazyResult D K F) (noted : ∀ values reads, result = .lDefined values reads →
      ∀ dir, c.dirs.get dirName = some dir → dir.collect = true →
        has c.lazyGets dirName key = true) : Reads c (c.setResult dirName key result) := by
  obtain ⟨gets, queue, refCounts, capacity⟩ := setResult_fields c dirName key result
  refine ⟨queue, refCounts, capacity, ?_, ?_, ?_, ?_⟩
  · intro d
    rw [get_setResult, Option.map_map]
    refine congrArg (fun f => Option.map f (c.dirs.get d)) (funext fun dir => ?_)
    rw [Function.comp_apply]
    split <;> rfl
  · intro d k
    rw [gets]
    exact id
  · intro d
    rw [gets]
    exact Or.inl
  · rintro d k ⟨dir', found', collect, values, reads, row⟩
    rw [get_setResult, Option.map_eq_some_iff] at found'
    obtain ⟨dir, found, same⟩ := found'
    by_cases here : d = dirName
    · subst here
      rw [if_pos rfl] at same
      subst same
      dsimp only at collect
      rw [FiniteMap.get_set] at row
      split at row
      · next own =>
        subst own
        right
        rw [gets]
        exact noted values reads (Option.some.inj row) dir found collect
      · exact Or.inl ⟨dir, found, collect, values, reads, row⟩
    · rw [if_neg here] at same
      subst same
      exact Or.inl ⟨_, found, collect, values, reads, row⟩

theorem runCompute_reads {read : LazyContext D K F T → D → K → Outcome D K F T E (List F)}
    (hread : ∀ c dirName key outcome c', read c dirName key = some (outcome, c') → Reads c c')
    (compute : LazyCompute D K F E)
    {outcome : Except (LazyExn K E) (Option (List F))}
    (h : runCompute read compute c = some (outcome, c')) : Reads c c' := by
  induction compute generalizing c with
  | done values =>
    cases h
    exact Reads.refl _
  | fail exn =>
    cases h
    exact Reads.refl _
  | addRead path next ih =>
    have noted : Reads c (c.addRead path) := reads_of_same rfl rfl rfl rfl rfl
    exact noted.trans (ih h)
  | getArray dirName key next ih =>
    rw [runCompute] at h
    split at h
    · cases h
    · next inner c₁ found => exact (hread _ _ _ _ _ found).trans (ih inner h)

variable {run : LazyContext D K F T → Outcome D K F T E (Option (List F))}

theorem doGet_reads
    (hrun : ∀ c outcome c', run c = some (outcome, c') → Reads c c') {key : K}
    (noted : ∀ dir, c.dirs.get dirName = some dir → dir.collect = true →
      has c.lazyGets dirName key = true)
    {outcome : Except (LazyExn K E) (LazyResult D K F)}
    (h : doGet run c dirName key = some (outcome, c')) : Reads c c' := by
  have marked : Reads c { c.setResult dirName key .lCycle with reads := ∅ } := by
    refine (reads_setResult c dirName key .lCycle fun _ _ defined => by cases defined).trans ?_
    exact reads_of_same rfl rfl rfl rfl rfl
  unfold doGet at h
  dsimp only at h
  split at h
  · cases h
  · next exn c₂ ran =>
    cases h
    have during := marked.trans (hrun _ _ _ ran)
    have ended := reads_setResult c₂ dirName key .lAbsent fun _ _ defined => by cases defined
    exact during.trans (ended.trans (reads_of_same rfl rfl rfl rfl rfl))
  · next resultOpt c₂ ran =>
    cases h
    have during := marked.trans (hrun _ _ _ ran)
    have linked : Reads c₂ (c₂.updateNewDeps (selfArrow dirName key) c₂.reads) :=
      reads_of_same rfl rfl rfl rfl rfl
    have ended := reads_setResult (c₂.updateNewDeps (selfArrow dirName key) c₂.reads) dirName key
      (resultOf c₂.reads resultOpt) fun _ _ _ dir found collect => by
        have flags := during.dirs dirName
        change c₂.dirs.get dirName = some dir at found
        rw [found, Option.map_some, eq_comm, Option.map_eq_some_iff] at flags
        obtain ⟨before, there, same⟩ := flags
        exact during.gets dirName key (noted before there (same.trans collect))
    exact during.trans (linked.trans (ended.trans (reads_of_same rfl rfl rfl rfl rfl)))

variable {outcome : Except (LazyExn K E) (List F)}

theorem computeArray_reads
    (hrun : ∀ c outcome c', run c = some (outcome, c') → Reads c c')
    {this : TLazyDir D K F T} {key : K}
    (noted : ∀ dir, c.dirs.get dirName = some dir → dir.collect = true →
      has c.lazyGets dirName key = true)
    (h : computeArray run this c dirName key = some (outcome, c')) : Reads c c' := by
  have entered : Reads c (c.enter (selfArrow dirName key) this.timeStack) :=
    reads_of_same rfl rfl rfl rfl rfl
  unfold computeArray at h
  split at h
  · cases h
  · next exn c₁ got =>
    cases h
    exact entered.trans (doGet_reads hrun noted got)
  · next res c₁ got =>
    have computed := entered.trans (doGet_reads hrun noted got)
    split at h
    · cases h
      exact computed
    · next c₂ ok =>
      cases h
      obtain ⟨timeStack, rl, -, rfl⟩ := leave_eq_ok ok
      exact computed.trans (reads_of_same rfl rfl rfl rfl rfl)

theorem unsafeGetArray_reads
    (hrun : ∀ c outcome c', run c = some (outcome, c') → Reads c c')
    {this : TLazyDir D K F T} {key : K}
    (found : c.dirs.get dirName = some this)
    (h : unsafeGetArray run this c dirName key = some (outcome, c')) : Reads c c' := by
  have counted : Reads c (if this.collect = true then c.addLazyGet dirName key else c) := by
    split
    · exact reads_addLazyGet c key (Option.isSome_iff_exists.mpr ⟨this, found⟩)
    · exact Reads.refl c
  have noted : ∀ dir, (if this.collect = true then c.addLazyGet dirName key else c).dirs.get
      dirName = some dir → dir.collect = true → has (if this.collect = true then
        c.addLazyGet dirName key else c).lazyGets dirName key = true := by
    intro dir there collect
    have same : dir = this := by
      have dirs : (if this.collect = true then c.addLazyGet dirName key else c).dirs = c.dirs := by
        split <;> rfl
      rw [dirs, found] at there
      exact (Option.some.inj there).symm
    rw [same] at collect
    rw [if_pos collect]
    exact has_addLazyGet c dirName key
  unfold unsafeGetArray at h
  split at h
  · split at h <;> cases h <;> exact Reads.refl c
  · dsimp only at h
    split at h
    · cases h
      exact counted
    · cases h
      exact counted
    · exact counted.trans (computeArray_reads hrun noted h)

theorem getArray_reads (compute : D → K → LazyCompute D K F E) (fuel : ℕ) {key : K}
    (h : getArray compute fuel c dirName key = some (outcome, c')) : Reads c c' := by
  induction fuel generalizing c dirName key outcome c' with
  | zero => cases h
  | succ fuel ih =>
    rw [getArray] at h
    split at h
    · cases h
      exact Reads.refl _
    · next this found =>
      have noted : Reads c (c.addRead ⟨dirName, .key key⟩) := reads_of_same rfl rfl rfl rfl rfl
      refine noted.trans (unsafeGetArray_reads (fun c₁ inner c₂ ran => ?_) found h)
      exact runCompute_reads (fun c d k out c' got => ih got) _ ran

theorem invalidate_reads (c : LazyContext D K F T) (dirName : D) (key : K) :
    Reads c (c.invalidate dirName key) := by
  unfold invalidate
  split
  · exact Reads.refl c
  · next dir found =>
    have removed : Reads c { c with
        dirs := c.dirs.set dirName { dir with data := dir.data.remove key } } := by
      refine ⟨rfl, rfl, rfl, ?_, fun _ _ => id, fun _ => Or.inl, ?_⟩
      · intro d
        rw [FiniteMap.get_set]
        split
        · next here =>
          rw [here, found]
          rfl
        · rfl
      · rintro d k ⟨dir', found', collect, values, reads, row⟩
        rw [FiniteMap.get_set] at found'
        split at found'
        · next here =>
          cases found'
          dsimp only at collect
          rw [FiniteMap.get_remove] at row
          split at row
          · cases row
          · exact Or.inl ⟨dir, here ▸ found, collect, values, reads, row⟩
        · exact Or.inl ⟨dir', found', collect, values, reads, row⟩
    dsimp only
    split
    · exact removed.trans (reads_of_same rfl rfl rfl rfl rfl)
    · exact removed.trans (reads_of_same rfl rfl rfl rfl rfl)
    · exact removed

end SkipPlatform.LazyContext
