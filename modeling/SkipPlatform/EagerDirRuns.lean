import SkipPlatform.EagerDirPurge

set_option autoImplicit false
set_option linter.unusedSectionVars false

/-! Runs of one directory: its creation, the writes and records of later ticks, resets
and purges. -/
namespace SkipPlatform.EagerDir
open List SortedMerge StoreSourceMap

/-- What the creation of a directory collected; `writes` are the rows of `acc`. -/
structure Creation (D K F : Type) where
  dirName : D
  input : Bool
  tick : ℕ
  creator : Option (StoreReaders.ArrowKey D K)
  writes : List (K × List F × Source D K)
  oldVec : List (StoreSourceMap.Row D K)
  reducer : Option ((List F → List F) × (List F → List F → List F → Option (List F)))

inductive Step (D K F : Type) [LinearOrder K] where
  | advance (ticks : ℕ)
  | write (sourceOverride : Option (Source D K)) (origSource writer : Source D K) (key : K)
      (values : List F)
  | record (source : Source D K) (minfo : MInfo D K)
  | reset (sourceOverride : Option (Source D K)) (writer : Source D K) (keep : SortedSet K)
  | purge (limit : ℕ)

structure Clocked (D K F : Type) [LinearOrder D] [StoreKey K] where
  dir : EagerDir D K F
  now : ℕ

variable {D K F : Type} [LinearOrder D] [StoreKey K] [DecidableEq F]

def Creation.acc (c : Creation D K F) : List (FixedRow K (Source D K) (List F)) :=
  c.writes.map fun w => ⟨w.1, w.2.1, w.2.2, c.tick⟩

def Creation.make (c : Creation D K F) : Option (Clocked D K F) :=
  (create c.dirName c.input c.tick c.creator c.acc c.oldVec c.reducer).map fun d => ⟨d, c.tick⟩

def Clocked.step (s : Clocked D K F) : Step D K F → Option (Clocked D K F)
  | .advance ticks => some ⟨s.dir, s.now + ticks⟩
  | .write sourceOverride origSource writer key values =>
    some ⟨s.dir.writeEntry ⟨s.now, sourceOverride⟩ origSource writer key values, s.now⟩
  | .record source minfo => some ⟨s.dir.setOld source minfo, s.now⟩
  | .reset sourceOverride writer keep =>
    some ⟨s.dir.reset ⟨s.now, sourceOverride⟩ writer keep, s.now⟩
  | .purge limit => (s.dir.purge limit).map fun d => ⟨d, s.now⟩

def Clocked.run (s : Clocked D K F) (steps : List (Step D K F)) : Option (Clocked D K F) :=
  steps.foldlM Clocked.step s

/-- No key and source was written twice at creation, no source was recorded twice, and
the records are not compacted. -/
structure Creation.Distinct (c : Creation D K F) : Prop where
  writes : (c.writes.map fun w => (w.1, w.2.2)).Nodup
  oldVec : (c.oldVec.map Prod.fst).Nodup
  plain : getMetadata c.oldVec = none

def Clocked.Plain (s : Clocked D K F) : List (Step D K F) → Prop
  | [] => True
  | .purge limit :: rest =>
    s.dir.compacts = false ∧ ∀ s', s.step (.purge limit) = some s' → s'.Plain rest
  | st :: rest => ∀ s', s.step st = some s' → s'.Plain rest

structure Clocked.Inv (s : Clocked D K F) : Prop where
  valid : s.dir.Valid
  old : s.dir.OldValid
  ticks : s.dir.Until s.now

variable {c : Creation D K F}

theorem creation_fixed
    (h : (c.writes.map fun w => (w.1, w.2.2)).Nodup) :
    (FixedDataMap.ofRows c.acc).Distinct := by
  constructor
  · change (FixedDir.create c.acc).rows.Pairwise _
    have hperm : (FixedDir.create c.acc).rows.Perm c.acc := by
      rw [FixedDir.rows_create]
      exact mergeSort_perm _ _
    have hnodup : (c.acc.map FixedRow.place).Nodup := by
      have hplaces : c.acc.map FixedRow.place =
          (c.writes.map fun w => (w.1, w.2.2)).map toLex := by
        unfold Creation.acc
        rw [map_map, map_map]
        rfl
      rw [hplaces]
      exact h.map toLex.injective
    have hne : (FixedDir.create c.acc).rows.Pairwise fun a b => a.place ≠ b.place := by
      rw [← pairwise_map]
      exact (hperm.map FixedRow.place).nodup_iff.mpr hnodup
    exact ((FixedDir.create c.acc).rows_sorted.and hne).imp fun hab => lt_of_le_of_ne hab.1 hab.2
  · change (FixedDir.create []).rows.Pairwise _
    rw [FixedDir.rows_create_of_sorted List.Pairwise.nil]
    exact List.Pairwise.nil

theorem creation_until (k : K) :
    ∀ e ∈ (FixedDataMap.ofRows c.acc).getIter k, e.tick ≤ c.tick := by
  intro e he
  rcases FixedDataMap.mem_getIterAll.mp (FixedDataMap.mem_getIter.mp he) with
    ⟨r, hr, hre⟩ | ⟨r, hr, hre⟩
  · have hmem : r ∈ c.acc := FixedDir.mem_rows_create.mp hr
    obtain ⟨w, _, hw⟩ := mem_map.mp hmem
    rw [← (Prod.mk.inj hre).2, ← hw]
    exact le_rfl
  · exact absurd (FixedDir.mem_rows_create.mp hr) not_mem_nil

structure Creation.Made (c : Creation D K F) (s : Clocked D K F) : Prop where
  now : s.now = c.tick
  dirName : s.dir.dirName = c.dirName
  input : s.dir.input = c.input
  created : s.dir.created = c.tick
  creator : s.dir.creator = c.creator
  fixedData : s.dir.fixedData = .ofRows c.acc
  data : s.dir.data = .empty
  fixedOld : FixedSourceMap.create c.oldVec true = some s.dir.fixedOld
  old : s.dir.old = .empty
  tombLimit : s.dir.tombLimit = none
  reducer : c.reducer = none → s.dir.reducer = none

variable {s : Clocked D K F}

theorem make_made (hs : c.make = some s) : c.Made s := by
  unfold Creation.make create at hs
  cases hm : FixedSourceMap.create c.oldVec true with
  | none =>
    rw [hm] at hs
    cases hs
  | some m =>
    rw [hm] at hs
    cases hs
    exact ⟨rfl, rfl, rfl, rfl, rfl, rfl, rfl, hm, rfl, rfl, fun hr => by rw [hr]; rfl⟩

theorem make_valid (h : (c.writes.map fun w => (w.1, w.2.2)).Nodup)
    (hs : c.make = some s) : s.dir.Valid ∧ s.dir.Until s.now := by
  have hmade := make_made hs
  have hnone : ∀ k, (s.dir.data.value k).items = [] := by
    intro k
    rw [hmade.data]
    exact DataMap.value_of_none (DataMap.maybeGet_empty k)
  refine ⟨?_, ?_⟩
  · constructor
    · rw [hmade.fixedData]
      exact creation_fixed h
    · rw [hmade.data]
      exact DataMap.valid_empty
    · intro k e he
      rw [hnone k] at he
      cases he
    · intro k r _ _ e he
      rw [hnone k] at he
      cases he
  · constructor
    · rw [hmade.fixedData, hmade.now]
      exact creation_until
    · intro k e he
      rw [hnone k] at he
      cases he

theorem make_inv (h : c.Distinct) : ∃ s, c.make = some s ∧ s.Inv := by
  obtain ⟨m, hm, hholds⟩ := FixedSourceMap.create_holds h.oldVec h.plain true
  have hmake : ∃ s, c.make = some s := by
    unfold Creation.make create
    rw [hm]
    exact ⟨_, rfl⟩
  obtain ⟨s, hs⟩ := hmake
  obtain ⟨hvalid, hticks⟩ := make_valid h.writes hs
  have hold := (make_made hs).fixedOld
  rw [hm] at hold
  exact ⟨s, hs, hvalid, ⟨_, Option.some.inj hold ▸ hholds⟩, hticks⟩

theorem reset_induction {ctx : WriteContext D K} {writer : Source D K} {keep : SortedSet K}
    {P : EagerDir D K F → Prop}
    (hwrite : ∀ d source key, keep.containsKey key = false → P d →
      P (d.writeEntry ctx source writer key []))
    {d : EagerDir D K F} (h : P d) : P (d.reset ctx writer keep) := by
  have hkey : ∀ key, keep.containsKey key = false → ∀ (es : List (Entry (Source D K) F))
      (d' : EagerDir D K F), P d' →
      P (es.foldl (fun d e => d.writeEntry ctx e.source writer key []) d') := by
    intro key hk es
    induction es with
    | nil => exact fun _ hd' => hd'
    | cons e es ih => exact fun d' hd' => ih _ (hwrite d' e.source key hk hd')
  have hloop : ∀ (xs : List (K × List F)) (d' : EagerDir D K F), P d' →
      P (xs.foldl (fun d' x =>
        if !keep.containsKey x.1 && !x.2.isEmpty then resetKey ctx writer d' x.1 else d') d') := by
    intro xs
    induction xs with
    | nil => exact fun _ hd' => hd'
    | cons x xs ih =>
      intro d' hd'
      rw [foldl_cons]
      apply ih
      by_cases hx : (!keep.containsKey x.1 && !x.2.isEmpty) = true
      · have hk : keep.containsKey x.1 = false := by
          rw [Bool.and_eq_true, Bool.not_eq_true'] at hx
          exact hx.1
        rw [if_pos hx]
        exact hkey x.1 hk (d'.unsafeGetDataIterWithoutTombs x.1) d' hd'
      · rw [if_neg hx]
        exact hd'
  exact hloop d.unsafeGetFileIter d h

theorem reset_inv {ctx : WriteContext D K} (writer : Source D K) (keep : SortedSet K)
    {d : EagerDir D K F} (h : d.Valid) (hu : d.Until ctx.tick) :
    (d.reset ctx writer keep).Valid ∧ (d.reset ctx writer keep).Until ctx.tick ∧
      (d.reset ctx writer keep).fixedOld = d.fixedOld := by
  apply reset_induction (P := fun d' => d'.Valid ∧ d'.Until ctx.tick ∧ d'.fixedOld = d.fixedOld)
  · intro d' source key _ hd'
    have hframe := (writeEntry_frame d' ctx source writer key []).2.1
    exact ⟨valid_writeEntry hd'.1 hd'.2.1 source writer key [],
      until_writeEntry hd'.1 hd'.2.1 source writer key [], hframe.trans hd'.2.2⟩
  · exact ⟨h, hu, rfl⟩

theorem step_inv (h : s.Inv) (st : Step D K F)
    (hc : ∀ limit, st = .purge limit → s.dir.compacts = false) :
    ∃ s', s.step st = some s' ∧ s'.Inv := by
  cases st with
  | advance ticks =>
    exact ⟨_, rfl, h.valid, h.old, h.ticks.mono (Nat.le_add_right _ _)⟩
  | write sourceOverride origSource writer key values =>
    refine ⟨_, rfl, valid_writeEntry h.valid h.ticks origSource writer key values, ?_,
      until_writeEntry h.valid h.ticks origSource writer key values⟩
    unfold OldValid
    rw [(writeEntry_frame s.dir _ origSource writer key values).2.1]
    exact h.old
  | record source minfo =>
    exact ⟨_, rfl, ⟨h.valid.distinct, h.valid.data, h.valid.newer, h.valid.masked⟩, h.old,
      ⟨h.ticks.fixed, h.ticks.data⟩⟩
  | reset sourceOverride writer keep =>
    have hticks : s.dir.Until (⟨s.now, sourceOverride⟩ : WriteContext D K).tick := h.ticks
    obtain ⟨hv, ht, hf⟩ := reset_inv writer keep h.valid hticks
    refine ⟨_, rfl, hv, ?_, ht⟩
    unfold OldValid
    rw [hf]
    exact h.old
  | purge limit =>
    obtain ⟨d', hp, hv, ho, ht, _⟩ := purge_spec h.valid h.old (hc limit rfl) limit s.now h.ticks
    refine ⟨⟨d', s.now⟩, ?_, hv, ho, ht⟩
    change (s.dir.purge limit).map _ = _
    rw [hp]
    rfl

/-- What every step keeps, of the state and the steps to come, is kept by a run. -/
theorem run_rule {P : List (Step D K F) → Clocked D K F → Prop}
    (hstep : ∀ st rest s s', s.Inv → (∀ limit, st = .purge limit → s.dir.compacts = false) →
      s.step st = some s' → P (st :: rest) s → P rest s')
    (h : s.Inv) (steps : List (Step D K F)) (hp : s.Plain steps) (hs : P steps s) :
    ∃ s', s.run steps = some s' ∧ s'.Inv ∧ P [] s' := by
  induction steps generalizing s with
  | nil => exact ⟨s, rfl, h, hs⟩
  | cons st rest ih =>
    have hc : ∀ limit, st = .purge limit → s.dir.compacts = false := by
      intro limit he
      subst he
      exact hp.1
    obtain ⟨s', hnext, hi⟩ := step_inv h st hc
    have hrest : s'.Plain rest := by
      cases st with
      | purge limit => exact hp.2 s' hnext
      | _ => exact hp s' hnext
    obtain ⟨s'', hrun, hkept⟩ := ih hi hrest (hstep st rest s s' h hc hnext hs)
    refine ⟨s'', ?_, hkept⟩
    unfold Clocked.run
    rw [foldlM_cons, hnext]
    exact hrun

theorem run_inv (h : s.Inv) (steps : List (Step D K F)) (hp : s.Plain steps) :
    ∃ s', s.run steps = some s' ∧ s'.Inv := by
  obtain ⟨s', hrun, hi, -⟩ :=
    run_rule (P := fun _ _ => True) (fun _ _ _ _ _ _ _ _ => trivial) h steps hp trivial
  exact ⟨s', hrun, hi⟩

/-- Whatever a directory went through since its creation, a purge of it succeeds and
is seen by no reader. -/
theorem run_purge_sameReads (c : Creation D K F) (hc : c.Distinct) (steps : List (Step D K F))
    (hp : ∀ s, c.make = some s → s.Plain steps) :
    ∃ s s', c.make = some s ∧ s.run steps = some s' ∧ ∀ limit, s'.dir.compacts = false →
      ∃ d, s'.dir.purge limit = some d ∧ SameReads limit s'.dir d := by
  obtain ⟨s, hs, hi⟩ := make_inv hc
  obtain ⟨s', hrun, hi'⟩ := run_inv hi steps (hp s hs)
  refine ⟨s, s', hs, hrun, ?_⟩
  intro limit hcompact
  obtain ⟨d, hd, _, _, _, hsame⟩ := purge_spec hi'.valid hi'.old hcompact limit s'.now hi'.ticks
  exact ⟨d, hd, hsame⟩

end SkipPlatform.EagerDir

namespace SkipPlatform
open List StoreSourceMap

inductive PlainKey where
  | iid (id : ℤ)
  | row (values : StoreSourceMap.RowValues ℤ)

namespace PlainKey

def encode : PlainKey → ℤ ⊕ₗ StoreSourceMap.RowValues ℤ
  | iid id => toLex (Sum.inl id)
  | row values => toLex (Sum.inr values)

theorem encode_injective : Function.Injective encode := by
  intro a b h
  cases a <;> cases b <;> simp_all [encode]

instance : LinearOrder PlainKey := LinearOrder.lift' encode encode_injective

instance : StoreKey PlainKey where
  Val := ℤ
  Kinds := Unit
  valOrder := inferInstance
  kindsEq := inferInstance
  compare_symm := fun _ _ h => compare_eq_iff_eq.mpr (compare_eq_iff_eq.mp h).symm
  view
    | iid _ => .other
    | row values => .rowKey values ()
  rowKey := fun values _ => row values
  indexProjKey := fun values _ => row values
  projKey := fun value _ _ _ => row ⟨[value], 0⟩
  view_rowKey := fun _ _ => rfl

end PlainKey

namespace EagerDir

def sampleSource (id : ℤ) : Source ℕ PlainKey := ⟨0, .iid id⟩

def doubled : Creation ℕ PlainKey ℕ where
  dirName := 1
  input := false
  tick := 0
  creator := none
  writes := [(.iid 1, [10], sampleSource 1), (.iid 1, [20], sampleSource 1)]
  oldVec := [(sampleSource 1, .single (.iid 1)), (sampleSource 1, .single (.iid 1))]
  reducer := none

theorem sortBy_doubled : sortBy doubled.oldVec = doubled.oldVec :=
  mergeSort_of_pairwise (pairwise_pair.mpr (by decide))

theorem identityRows_doubled : identityRows 0 doubled.oldVec = true := by decide

theorem create_doubled (allowDuplicates : Bool) :
    FixedSourceMap.create doubled.oldVec allowDuplicates =
      if allowDuplicates then some (.identity 0 [.iid 1, .iid 1]) else none := by
  have hmeta : getMetadata doubled.oldVec = none := rfl
  have hunique : assertUnique (fun a b => a.1.compare b.1 == .eq) doubled.oldVec = false := by
    decide
  have hid : IdentityFSMImpl.create doubled.oldVec allowDuplicates =
      if identityRows 0 doubled.oldVec then
        if allowDuplicates || assertUnique (fun a b => a.1.compare b.1 == .eq)
            (sortBy doubled.oldVec) then
          some (.identity 0 ((sortBy doubled.oldVec).map fun row => row.1.baseName))
        else none
      else FSMImpl.create doubled.oldVec allowDuplicates := rfl
  unfold FixedSourceMap.create
  rw [hmeta]
  change IdentityFSMImpl.create doubled.oldVec allowDuplicates = _
  rw [hid, if_pos identityRows_doubled, sortBy_doubled, hunique, Bool.or_false]
  rfl

theorem doubled_purge_fails : ∃ s, doubled.make = some s ∧ s.dir.purge 0 = none := by
  have hmake : ∃ s, doubled.make = some s ∧ s.dir.fixedOld = .identity 0 [.iid 1, .iid 1] ∧
      s.dir.old = .empty ∧ s.dir.tombLimit = none := by
    unfold Creation.make create
    rw [create_doubled true]
    exact ⟨_, rfl, rfl, rfl, rfl⟩
  obtain ⟨s, hs, hfixed, hold, hlimit⟩ := hmake
  refine ⟨s, hs, ?_⟩
  have hrows : s.dir.oldRows = some doubled.oldVec := by
    unfold oldRows
    rw [hfixed, hold]
    rfl
  unfold purge purgeOld
  rw [hlimit, hrows, Option.bind_some, create_doubled false]
  rfl

def collected : Creation ℕ PlainKey ℕ where
  dirName := 1
  input := false
  tick := 0
  creator := none
  writes := [(.iid 1, [10], sampleSource 1), (.iid 1, [20], sampleSource 2)]
  oldVec := [(sampleSource 1, .single (.iid 1)), (sampleSource 2, .single (.iid 1))]
  reducer := none

def dropRow : List (Step ℕ PlainKey ℕ) :=
  [.advance 1, .write none (sampleSource 1) (sampleSource 1) (.iid 1) [],
    .record (sampleSource 1) .empty]

theorem run_purge_sameReads_dropRow :
    ∃ s s', collected.make = some s ∧ s.run dropRow = some s' ∧
      ∀ limit, s'.dir.compacts = false →
        ∃ d, s'.dir.purge limit = some d ∧ SameReads limit s'.dir d := by
  apply run_purge_sameReads collected
  · exact ⟨by decide, by decide, rfl⟩
  · intro s _ s1 _ s2 _ s3 _
    trivial

end EagerDir
end SkipPlatform
