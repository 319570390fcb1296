import SkipPlatform.StoreContextRuns
import SkipPlatform.EagerDirKeys

set_option autoImplicit false

/-! Subscriptions: what a commit sends to a watcher of a directory whose name may change,
and what the watcher then holds. -/
namespace SkipPlatform
open List SortedMerge StoreSourceMap
variable {D K F : Type} [LinearOrder D] [StoreKey K]

structure Notification (K F : Type) where
  values : List (K × List F)
  tick : ℕ
  update : Bool

def Notification.receive (n : Notification K F) (client : SortedMap K (List F)) :
    SortedMap K (List F) :=
  n.values.foldl (fun m x => m.set x.1 x.2) (if n.update then client else .empty)

def viewOf (client : SortedMap K (List F)) (key : K) : List F := (client.maybeGet key).getD []

namespace EagerDir

def notifySubWatch (d : EagerDir D K F) (start tick fromTick : ℕ) : Option (Notification K F) :=
  let changes :=
    if start ≤ d.created ∨ start ≤ fromTick then (true, d.keys) else d.getChangesAfter start
  if changes.1 || !changes.2.keys.isEmpty then
    some ⟨changes.2.keys.map fun key => (key, d.getArrayRaw key), tick, !changes.1⟩
  else none

def Listed (d : EagerDir D K F) : Prop := ∀ key, d.getArrayRaw key ≠ [] → key ∈ d.keys.keys

theorem listed_of_plain {d : EagerDir D K F} (h : d.Valid) (hred : d.reducer = none) :
    d.Listed := by
  intro key hne
  unfold getArrayRaw at hne
  rw [hred] at hne
  have hentry : ∃ e ∈ d.entries key, e.files ≠ [] := by
    by_contra hno
    apply hne
    rw [filesOf_eq_nil h]
    intro source
    by_cases hs : ∃ e ∈ d.entries key, e.source = source
    · obtain ⟨e, he, hes⟩ := hs
      rw [← hes, getArraySourceKey_of_mem h he]
      by_contra hf
      exact hno ⟨e, he, hf⟩
    · apply getArraySourceKey_of_not_mem h
      intro e he hes
      exact hs ⟨e, he, hes⟩
  obtain ⟨e, he, hf⟩ := hentry
  rw [mem_keys]
  rcases mem_entries.mp he with hdata | ⟨hfixed, _⟩
  · right
    cases hget : d.data.maybeGet key with
    | none =>
      rw [DataMap.value_of_none hget] at hdata
      cases hdata
    | some v =>
      refine ⟨v, rfl, ?_⟩
      have hvalue : d.data.value key = v := by
        unfold DataMap.value
        rw [hget]
        rfl
      rw [hvalue] at hdata
      have hcoherent := h.data.coherent key
      rw [hvalue] at hcoherent
      rw [← Bool.not_eq_true, DataMapValue.isEmpty_map_iff hcoherent]
      intro hnil
      rw [hnil] at hdata
      cases hdata
  · left
    obtain ⟨r, hr, hk, he'⟩ := row_of_files hfixed hf
    refine ⟨r, hr, hk, ?_⟩
    rw [← he'] at hf
    exact hf

theorem mem_getAllKeysWithValues_of_ne {d : EagerDir D K F} {key : K}
    (h : d.getArrayRaw key ≠ []) : key ∈ d.getAllKeysWithValues.keys := by
  cases hred : d.reducer with
  | none =>
    rw [mem_getAllKeysWithValues hred]
    unfold getArrayRaw at h
    rw [hred] at h
    exact h
  | some r =>
    have hvalue : d.getArrayRaw key = r.getArray key := by
      unfold getArrayRaw
      rw [hred]
    have hiter : (key, r.getArray key) ∈ d.unsafeGetFileIter := by
      unfold unsafeGetFileIter
      rw [hred]
      apply mem_overrideMerge_of_mem
      rw [hvalue] at h
      unfold Reducer.getArray at h ⊢
      cases hm : r.modified.maybeGet key with
      | some values => exact Or.inl (SortedMap.maybeGet_eq_some.mp hm)
      | none =>
        rw [hm] at h
        refine Or.inr ⟨getFixed_mem h, ?_⟩
        intro m hmem hk
        have hsome := SortedMap.maybeGet_eq_some.mpr (show (m.1, m.2) ∈ r.modified.items from hmem)
        rw [show m.1 = key from hk, hm] at hsome
        cases hsome
    have hfold : d.getAllKeysWithValues =
        ((d.unsafeGetFileIter.filter fun x => !x.2.isEmpty).map Prod.fst).foldl
          (fun s k => s.set k ()) .empty := by
      unfold getAllKeysWithValues
      rw [foldl_map]
    rw [hfold, DMap.mem_foldl_set]
    left
    rw [mem_map]
    refine ⟨(key, r.getArray key), mem_filter.mpr ⟨hiter, ?_⟩, rfl⟩
    rw [← hvalue]
    simpa using h

/-- Whether a notification of this directory replaces the client's map. -/
def Snapshot (d : EagerDir D K F) (start fromTick : ℕ) : Prop :=
  (start ≤ d.created ∨ start ≤ fromTick) ∨ d.PurgedPast start

end EagerDir

def deliver (n : Option (Notification K F)) (client : SortedMap K (List F)) :
    SortedMap K (List F) :=
  match n with
  | none => client
  | some n => n.receive client

omit [LinearOrder D] in
theorem viewOf_foldl_set (f : K → List F) (keys : List K) (client : SortedMap K (List F)) (key : K) :
    viewOf ((keys.map fun k => (k, f k)).foldl (fun m x => m.set x.1 x.2) client) key =
      if key ∈ keys then f key else viewOf client key := by
  induction keys generalizing client with
  | nil => simp
  | cons k keys ih =>
    rw [map_cons, foldl_cons, ih]
    by_cases hlater : key ∈ keys
    · rw [if_pos hlater, if_pos (mem_cons_of_mem k hlater)]
    · rw [if_neg hlater]
      unfold viewOf
      rw [SortedMap.maybeGet_set]
      by_cases hk : key = k
      · rw [if_pos hk, if_pos (hk ▸ mem_cons_self), hk]
        rfl
      · rw [if_neg hk, if_neg fun hm => (mem_cons.mp hm).elim hk hlater]

namespace EagerDir

theorem notifySubWatch_snapshot {d : EagerDir D K F} {start fromTick : ℕ}
    (hs : d.Snapshot start fromTick)
    (hl : start ≤ d.created ∨ start ≤ fromTick → d.Listed) (tick : ℕ)
    (client : SortedMap K (List F)) (key : K) :
    viewOf (deliver (d.notifySubWatch start tick fromTick) client) key = d.getArrayRaw key := by
  have hsent : ∃ keys : SortedSet K, d.notifySubWatch start tick fromTick =
      some ⟨keys.keys.map fun key => (key, d.getArrayRaw key), tick, false⟩ ∧
        ∀ key, d.getArrayRaw key ≠ [] → key ∈ keys.keys := by
    unfold notifySubWatch
    by_cases hinit : start ≤ d.created ∨ start ≤ fromTick
    · rw [if_pos hinit]
      exact ⟨d.keys, rfl, hl hinit⟩
    · have hreset : d.getChangesAfter start = (true, d.getAllKeysWithValues) := by
        have hpast := getChangesAfter_fst.mpr (hs.resolve_left hinit)
        unfold getChangesAfter at hpast ⊢
        split_ifs at hpast ⊢
        rfl
      rw [if_neg hinit, hreset]
      exact ⟨d.getAllKeysWithValues, rfl, fun key => mem_getAllKeysWithValues_of_ne⟩
  obtain ⟨keys, hn, hall⟩ := hsent
  rw [hn]
  change viewOf ((keys.keys.map fun key => (key, d.getArrayRaw key)).foldl
    (fun m x => m.set x.1 x.2) .empty) key = _
  rw [viewOf_foldl_set]
  by_cases hk : key ∈ keys.keys
  · rw [if_pos hk]
  · rw [if_neg hk]
    by_contra hne
    exact hk (hall key fun hnil => hne (hnil ▸ rfl))

theorem notifySubWatch_patch {d : EagerDir D K F} (h : d.Valid) {start fromTick : ℕ}
    (hs : ¬ d.Snapshot start fromTick) (tick : ℕ) (client : SortedMap K (List F)) (key : K) :
    (d.Touched start key →
      viewOf (deliver (d.notifySubWatch start tick fromTick) client) key = d.getArrayRaw key) ∧
    (¬ d.Touched start key →
      viewOf (deliver (d.notifySubWatch start tick fromTick) client) key = viewOf client key) := by
  unfold Snapshot at hs
  rw [not_or] at hs
  have hfst : (d.getChangesAfter start).1 = false :=
    eq_false_of_ne_true fun hp => hs.2 (getChangesAfter_fst.mp hp)
  have hlimit : ∀ limit, d.tombLimit = some limit → limit < start := by
    intro limit hl
    by_contra hle
    exact hs.2 ⟨limit, hl, not_lt.mp hle⟩
  have hkeys : ∀ key, key ∈ (d.getChangesAfter start).2.keys ↔ d.Touched start key := fun key =>
    mem_getChangesAfter h hlimit
  have hview : viewOf (deliver (d.notifySubWatch start tick fromTick) client) key =
      if key ∈ (d.getChangesAfter start).2.keys then d.getArrayRaw key else viewOf client key := by
    unfold notifySubWatch
    simp only [if_neg hs.1, hfst, Bool.false_or, Bool.not_false]
    cases hempty : (d.getChangesAfter start).2.keys with
    | nil => simp [deliver]
    | cons k ks =>
      rw [← hempty]
      have hne : (!(d.getChangesAfter start).2.keys.isEmpty) = true := by
        rw [hempty]
        rfl
      rw [if_pos hne]
      exact viewOf_foldl_set d.getArrayRaw _ client key
  rw [hview]
  constructor
  · intro ht
    rw [if_pos ((hkeys key).mpr ht)]
  · intro ht
    rw [if_neg fun hk => ht ((hkeys key).mp hk)]

end EagerDir
end SkipPlatform
