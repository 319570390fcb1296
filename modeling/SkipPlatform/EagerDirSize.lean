import Mathlib.Data.Set.Card
import SkipPlatform.EagerDirCarried

set_option autoImplicit false
set_option linter.unusedSectionVars false

/-! The size counter of a directory: it starts as the number of rows and follows the
writes, apart from the data. -/
namespace SkipPlatform.EagerDir
open List SortedMerge StoreSourceMap
variable {D K F : Type} [LinearOrder D] [StoreKey K]

def valued (d : EagerDir D K F) : Set (K × Source D K) :=
  {p | d.getArraySourceKey p.2 p.1 ≠ []}

def size (d : EagerDir D K F) : ℤ := d.totalSize

def isEmpty (d : EagerDir D K F) : Bool := decide (d.totalSize = 0)

def Counted (d : EagerDir D K F) : Prop :=
  ∃ places : Finset (K × Source D K), (∀ p, p ∈ places ↔ p ∈ d.valued) ∧ d.totalSize = places.card

theorem Counted.ncard {d : EagerDir D K F} (h : d.Counted) :
    d.valued.Finite ∧ d.size = d.valued.ncard := by
  obtain ⟨places, hmem, hsize⟩ := h
  have hset : d.valued = places := Set.ext fun p => (hmem p).symm
  rw [hset, Set.ncard_coe_finset]
  exact ⟨places.finite_toSet, hsize⟩

theorem counted_of_ncard {d : EagerDir D K F} (hfin : d.valued.Finite)
    (hsize : d.size = d.valued.ncard) : d.Counted := by
  refine ⟨hfin.toFinset, fun p => hfin.mem_toFinset, ?_⟩
  rw [← Set.ncard_eq_toFinset_card d.valued hfin]
  exact hsize

theorem Counted.isEmpty_iff {d : EagerDir D K F} (h : d.Counted) :
    d.isEmpty = true ↔ ∀ key source, d.getArraySourceKey source key = [] := by
  obtain ⟨places, hmem, hsize⟩ := h
  unfold isEmpty
  rw [decide_eq_true_iff, hsize, Nat.cast_eq_zero, Finset.card_eq_zero, Finset.eq_empty_iff_forall_notMem]
  constructor
  · intro hno key source
    by_contra hne
    exact hno (key, source) ((hmem _).mpr hne)
  · intro hnil p hp
    exact (hmem p).mp hp (hnil p.1 p.2)

theorem Counted.congr {d d' : EagerDir D K F} (h : d.Counted)
    (hsame : ∀ source key, d'.getArraySourceKey source key = d.getArraySourceKey source key)
    (hsize : d'.totalSize = d.totalSize) : d'.Counted := by
  obtain ⟨places, hmem, htotal⟩ := h
  refine ⟨places, ?_, hsize.trans htotal⟩
  intro p
  rw [hmem p]
  change d.getArraySourceKey p.2 p.1 ≠ [] ↔ d'.getArraySourceKey p.2 p.1 ≠ []
  rw [hsame]

/-- Every row made at creation has values and a key and source of its own. -/
structure Creation.Exact (c : Creation D K F) : Prop where
  distinct : (c.writes.map fun w => (w.1, w.2.2)).Nodup
  values : ∀ w ∈ c.writes, w.2.1 ≠ []

section Write
variable [DecidableEq F]

variable {c : Creation D K F} {s : Clocked D K F}

theorem make_totalSize (hs : c.make = some s) :
    s.dir.totalSize = c.writes.length := by
  unfold Creation.make create at hs
  rw [Option.map_map, Option.map_eq_some_iff] at hs
  obtain ⟨fixedOld, _, rfl⟩ := hs
  change ((c.acc.length : ℕ) : ℤ) = c.writes.length
  unfold Creation.acc
  rw [length_map]

theorem mem_valued_make (hs : c.make = some s)
    (p : K × Source D K) :
    p ∈ s.dir.valued ↔ ∃ w ∈ c.writes, (w.1, w.2.2) = p ∧ w.2.1 ≠ [] := by
  have hmade := make_made hs
  have hfixed : s.dir.getArraySourceKey p.2 p.1 =
      (s.dir.fixedData.data.getArraySourceKey p.2 p.1).flatten := by
    unfold getArraySourceKey
    rw [hmade.data]
    rfl
  have hrows : ∀ row, row ∈ s.dir.fixedData.data.rows ↔ row ∈ c.acc := by
    intro row
    rw [hmade.fixedData]
    exact FixedDir.mem_rows_create
  change s.dir.getArraySourceKey p.2 p.1 ≠ [] ↔ _
  rw [hfixed, Ne, flatten_eq_nil_iff]
  unfold FixedDir.getArraySourceKey
  rw [FixedDir.getAllSourceKey_eq]
  simp only [mem_map, mem_filter, decide_eq_true_eq, hrows]
  push Not
  constructor
  · rintro ⟨values, ⟨row, ⟨hrow, hkey, hsource⟩, rfl⟩, hne⟩
    obtain ⟨w, hw, rfl⟩ := mem_map.mp hrow
    exact ⟨w, hw, Prod.ext hkey hsource, hne⟩
  · rintro ⟨w, hw, rfl, hne⟩
    exact ⟨w.2.1, ⟨_, ⟨mem_map_of_mem hw, rfl, rfl⟩, rfl⟩, hne⟩

theorem counted_make (hc : c.Exact)
    (hs : c.make = some s) : s.dir.Counted := by
  refine ⟨(c.writes.map fun w => (w.1, w.2.2)).toFinset, ?_, ?_⟩
  · intro p
    rw [mem_toFinset, mem_map, mem_valued_make hs]
    constructor
    · rintro ⟨w, hw, hp⟩
      exact ⟨w, hw, hp, hc.values w hw⟩
    · rintro ⟨w, hw, hp, _⟩
      exact ⟨w, hw, hp⟩
  · rw [make_totalSize hs, toFinset_card_of_nodup hc.distinct, length_map]

theorem exact_of_counted (hs : c.make = some s)
    (h : s.dir.Counted) : c.Exact := by
  obtain ⟨places, hmem, hsize⟩ := h
  rw [make_totalSize hs] at hsize
  have hsub : places ⊆ ((c.writes.filter fun w => !w.2.1.isEmpty).map
      fun w => (w.1, w.2.2)).toFinset := by
    intro p hp
    obtain ⟨w, hw, hpw, hne⟩ := (mem_valued_make hs p).mp ((hmem p).mp hp)
    rw [mem_toFinset, mem_map]
    exact ⟨w, mem_filter.mpr ⟨hw, by simpa using hne⟩, hpw⟩
  have hcard := (Finset.card_le_card hsub).trans (toFinset_card_le _)
  rw [length_map] at hcard
  have hlength := length_filter_le (fun w : K × List F × Source D K => !w.2.1.isEmpty) c.writes
  have hall : c.writes.filter (fun w => !w.2.1.isEmpty) = c.writes := by
    apply List.Sublist.eq_of_length List.filter_sublist
    omega
  constructor
  · have hnodup := toFinset_card_le (c.writes.map fun w => (w.1, w.2.2))
    have hle := Finset.card_le_card hsub
    rw [hall] at hle
    rw [length_map] at hnodup
    apply Multiset.coe_nodup.mp
    apply Multiset.toFinset_card_eq_card_iff_nodup.mp
    have hcoe : Multiset.card (↑(c.writes.map fun w => (w.1, w.2.2)) : Multiset (K × Source D K)) =
        c.writes.length := by simp
    rw [hcoe]
    change (c.writes.map fun w => (w.1, w.2.2)).toFinset.card = _
    omega
  · intro w hw
    rw [← hall] at hw
    simpa using (mem_filter.mp hw).2

theorem totalSize_writeEntry {d : EagerDir D K F} {ctx : WriteContext D K}
    {origSource writer : Source D K} {k : K} {rvalues : List F}
    (hne : rvalues ≠ d.getArraySourceKey origSource k) :
    (d.writeEntry ctx origSource writer k rvalues).totalSize =
      d.totalSize + (if rvalues = [] then 0 else 1) -
        if d.getArraySourceKey origSource k = [] then 0 else 1 := by
  unfold writeEntry
  simp only
  rw [if_neg hne]
  by_cases hold : d.getArraySourceKey origSource k = []
  · rw [hold] at hne
    simp [hold, hne]
  · by_cases hnew : rvalues = []
    · simp [hold, hnew]
    · simp [hold, hnew]

/-- A write that changes something keeps the counter exact if the source it goes to had
values exactly when the source it was compared with had some. -/
theorem Counted.writeEntry {d : EagerDir D K F} (h : d.Counted) (hv : d.Sound)
    {ctx : WriteContext D K} {origSource writer : Source D K} {k : K}
    {rvalues : List F}
    (hsame : rvalues ≠ d.getArraySourceKey origSource k →
      (d.getArraySourceKey (ctx.sourceOverride.getD origSource) k = [] ↔
        d.getArraySourceKey origSource k = [])) :
    (d.writeEntry ctx origSource writer k rvalues).Counted := by
  by_cases hne : rvalues = d.getArraySourceKey origSource k
  · rw [writeEntry_same hne]
    exact h
  obtain ⟨places, hmem, htotal⟩ := h
  set source := ctx.sourceOverride.getD origSource
  have hold := hsame hne
  have hread : ∀ p : K × Source D K, p ∈ (d.writeEntry ctx origSource writer k rvalues).valued ↔
      if p = (k, source) then rvalues ≠ [] else p ∈ places := by
    intro p
    change (d.writeEntry ctx origSource writer k rvalues).getArraySourceKey p.2 p.1 ≠ [] ↔ _
    rw [getArraySourceKey_written hv writer hne]
    by_cases hp : p = (k, source)
    · rw [if_pos hp, if_pos ⟨congrArg Prod.fst hp, congrArg Prod.snd hp⟩]
    · rw [if_neg hp, if_neg fun hand => hp (Prod.ext hand.1 hand.2), hmem p]
      exact Iff.rfl
  have hplace : (k, source) ∈ places ↔ d.getArraySourceKey origSource k ≠ [] := by
    rw [hmem]
    exact not_iff_not.mpr hold
  unfold Counted
  rw [totalSize_writeEntry hne, htotal]
  by_cases hnew : rvalues = []
  · have hin : (k, source) ∈ places := hplace.mpr fun hnil => hne (hnew.trans hnil.symm)
    refine ⟨places.erase (k, source), ?_, ?_⟩
    · intro p
      rw [hread p, Finset.mem_erase]
      by_cases hp : p = (k, source)
      · simp [hp, hnew]
      · simp [hp]
    · have hpos := Finset.card_pos.mpr ⟨_, hin⟩
      rw [if_pos hnew, if_neg (hplace.mp hin), Finset.card_erase_of_mem hin]
      omega
  · refine ⟨insert (k, source) places, ?_, ?_⟩
    · intro p
      rw [hread p, Finset.mem_insert]
      by_cases hp : p = (k, source)
      · simp [hp, hnew]
      · simp [hp]
    · rw [if_neg hnew]
      by_cases hin : (k, source) ∈ places
      · rw [if_neg (hplace.mp hin), Finset.insert_eq_of_mem hin]
        omega
      · have hnil : d.getArraySourceKey origSource k = [] := by
          by_contra hcon
          exact hin (hplace.mpr hcon)
        rw [if_pos hnil, Finset.card_insert_of_notMem hin]
        push_cast
        omega

/-- Under a source override, every row the reset clears belongs to that source. -/
def Owned (sourceOverride : Option (Source D K)) (keep : SortedSet K) (d : EagerDir D K F) : Prop :=
  ∀ owner, sourceOverride = some owner → ∀ key source, keep.containsKey key = false →
    d.getArraySourceKey source key ≠ [] → source = owner

theorem Owned.writeEntry {sourceOverride : Option (Source D K)} {keep : SortedSet K}
    {d : EagerDir D K F} (h : Owned sourceOverride keep d) (hv : d.Sound) {ctx : WriteContext D K}
    {source writer : Source D K} {key : K} (hne : [] ≠ d.getArraySourceKey source key) :
    Owned sourceOverride keep (d.writeEntry ctx source writer key []) := by
  intro owner hov key' source' hkeep hvalues
  rw [getArraySourceKey_written hv writer hne] at hvalues
  split_ifs at hvalues
  · exact absurd rfl hvalues
  · exact h owner hov key' source' hkeep hvalues

theorem Counted.reset {d : EagerDir D K F} (h : d.Counted) {ctx : WriteContext D K}
    (hw : d.Writable ctx.tick) (writer : Source D K) (keep : SortedSet K)
    (hown : Owned ctx.sourceOverride keep d) : (d.reset ctx writer keep).Counted := by
  have hall : (d.reset ctx writer keep).Counted ∧ (d.reset ctx writer keep).Writable ctx.tick ∧
      Owned ctx.sourceOverride keep (d.reset ctx writer keep) := by
    apply reset_induction
      (P := fun d' => d'.Counted ∧ d'.Writable ctx.tick ∧ Owned ctx.sourceOverride keep d')
    · intro d' source key hkeep hd'
      obtain ⟨hcount, hwrite, howned⟩ := hd'
      have htarget : [] ≠ d'.getArraySourceKey source key →
          ctx.sourceOverride.getD source = source := by
        intro hne
        cases hov : ctx.sourceOverride with
        | none => rfl
        | some owner => exact (howned owner hov key source hkeep hne.symm).symm
      refine ⟨hcount.writeEntry hwrite.1.sound ?_,
        ⟨valid_writeEntry hwrite.1 hwrite.2 source writer key [],
          until_writeEntry hwrite.1 hwrite.2 source writer key []⟩, ?_⟩
      · intro hne
        rw [htarget hne]
      · by_cases hne : [] = d'.getArraySourceKey source key
        · rw [writeEntry_same hne]
          exact howned
        · exact howned.writeEntry hwrite.1.sound hne
    · exact ⟨h, hw, hown⟩
  exact hall.1

theorem getArraySourceKey_purge {d d' : EagerDir D K F} (hv : d.Valid) {limit : ℕ}
    (hp : d.purge limit = some d') (source : Source D K) (key : K) :
    d'.getArraySourceKey source key = d.getArraySourceKey source key := by
  rcases purge_cases hp with hsame | ⟨fixedOld, hd'⟩
  · rw [hsame]
  · have hdata : d'.data = .empty := by rw [hd']
    have hfixed : d'.fixedData = d.flattenData limit := by rw [hd']
    apply getArraySourceKey_congr (valid_flattenData hv limit hdata hfixed) hv
    intro e _ hfiles
    rw [mem_entries_flattenData hv limit hdata hfixed]
    exact ⟨And.left, fun he => ⟨he, Or.inl hfiles⟩⟩

theorem Counted.purge {d d' : EagerDir D K F} (h : d.Counted) (hv : d.Valid) {limit : ℕ}
    (hp : d.purge limit = some d') : d'.Counted := by
  apply h.congr (getArraySourceKey_purge hv hp)
  rcases purge_cases hp with hsame | ⟨fixedOld, hd'⟩
  · rw [hsame]
  · rw [hd']

def Clocked.KeepsCount (s : Clocked D K F) : Step D K F → Prop
  | .write sourceOverride origSource _ key values =>
    values ≠ s.dir.getArraySourceKey origSource key →
      (s.dir.getArraySourceKey (sourceOverride.getD origSource) key = [] ↔
        s.dir.getArraySourceKey origSource key = [])
  | .reset sourceOverride _ keep => Owned sourceOverride keep s.dir
  | _ => True

/-- A condition on every step of a run, in the state the step is taken from. -/
def Clocked.Along (P : Clocked D K F → Step D K F → Prop) (s : Clocked D K F) :
    List (Step D K F) → Prop
  | [] => True
  | st :: rest => P s st ∧ ∀ s', s.step st = some s' → s'.Along P rest

def Clocked.KeepCount (s : Clocked D K F) (steps : List (Step D K F)) : Prop :=
  s.Along Clocked.KeepsCount steps

theorem counted_step {s s' : Clocked D K F} {st : Step D K F} (h : s.dir.Counted)
    (hw : s.dir.Writable s.now) (hk : s.KeepsCount st) (hs : s.step st = some s') :
    s'.dir.Counted := by
  cases st with
  | advance ticks =>
    rw [← Option.some.inj hs]
    exact h
  | write sourceOverride origSource writer key values =>
    rw [← Option.some.inj hs]
    exact h.writeEntry hw.1.sound hk
  | record source minfo =>
    rw [← Option.some.inj hs]
    exact h.congr (fun _ _ => rfl) rfl
  | reset sourceOverride writer keep =>
    have hwrite : s.dir.Writable (⟨s.now, sourceOverride⟩ : WriteContext D K).tick := hw
    rw [← Option.some.inj hs]
    exact h.reset hwrite writer keep hk
  | purge limit =>
    obtain ⟨d', hp, he⟩ := Option.map_eq_some_iff.mp hs
    rw [← he]
    exact h.purge hw.1 hp

theorem writable_step {s s' : Clocked D K F} {st : Step D K F} (hw : s.dir.Writable s.now)
    (hs : s.step st = some s') : s'.dir.Writable s'.now := by
  obtain ⟨hw', _⟩ := carried_step (le_refl s.now) hw hs
  refine ⟨hw'.1, hw'.2.mono ?_⟩
  cases st with
  | advance ticks =>
    rw [← Option.some.inj hs]
    exact Nat.le_add_right _ _
  | purge limit =>
    obtain ⟨d', _, he⟩ := Option.map_eq_some_iff.mp hs
    rw [← he]
  | _ => rw [← Option.some.inj hs]

theorem counted_run {s s' : Clocked D K F} {steps : List (Step D K F)} (h : s.dir.Counted)
    (hw : s.dir.Writable s.now) (hk : s.KeepCount steps) (hrun : s.run steps = some s') :
    s'.dir.Counted := by
  induction steps generalizing s with
  | nil =>
    rw [← Option.some.inj hrun]
    exact h
  | cons st rest ih =>
    unfold Clocked.run at hrun
    rw [foldlM_cons] at hrun
    obtain ⟨s₁, hs₁, hrest⟩ := Option.bind_eq_some_iff.mp hrun
    exact ih (counted_step h hw hk.1 hs₁) (writable_step hw hs₁) (hk.2 s₁ hs₁) hrest

/-- A new directory is counted right exactly when its rows have values and are distinct.
From then on its size is the number of keys and sources with values, and it is empty
exactly when no key has a value, whatever it goes through. -/
theorem run_size_exact (c : Creation D K F) {s : Clocked D K F} (hs : c.make = some s) :
    (c.Exact ↔ s.dir.valued.Finite ∧ s.dir.size = s.dir.valued.ncard) ∧
      ∀ steps s', c.Exact → s.KeepCount steps → s.run steps = some s' →
        s'.dir.valued.Finite ∧ s'.dir.size = s'.dir.valued.ncard ∧
          (s'.dir.isEmpty = true ↔ ∀ key source, s'.dir.getArraySourceKey source key = []) := by
  constructor
  · constructor
    · intro hc
      exact (counted_make hc hs).ncard
    · intro h
      exact exact_of_counted hs (counted_of_ncard h.1 h.2)
  · intro steps s' hc hk hrun
    obtain ⟨hvalid, hticks⟩ := make_valid hc.distinct hs
    have hcount := counted_run (counted_make hc hs) ⟨hvalid, hticks⟩ hk hrun
    exact ⟨hcount.ncard.1, hcount.ncard.2, hcount.isEmpty_iff⟩

end Write

theorem run_size_exact_dropRow :
    ∃ s s', collected.make = some s ∧ s.run dropRow = some s' ∧
      s'.dir.size = s'.dir.valued.ncard ∧
        (s'.dir.isEmpty = true ↔ ∀ key source, s'.dir.getArraySourceKey source key = []) := by
  obtain ⟨s, hs, _⟩ := make_inv (c := collected) ⟨by decide, by decide, rfl⟩
  have hexact : collected.Exact := ⟨by decide, by decide⟩
  have hkeep : s.KeepCount dropRow :=
    ⟨trivial, fun _ _ => ⟨fun _ => Iff.rfl, fun _ _ => ⟨trivial, fun _ _ => trivial⟩⟩⟩
  obtain ⟨_, hsize, hempty⟩ := (run_size_exact collected hs).2 dropRow _ hexact hkeep rfl
  exact ⟨s, _, hs, rfl, hsize, hempty⟩

/-- A mapper that removes the key of its row: an array without values is written. -/
def removedRow : Creation ℕ PlainKey ℕ where
  dirName := 1
  input := false
  tick := 0
  creator := none
  writes := [(.iid 1, [], sampleSource 1)]
  oldVec := [(sampleSource 1, .single (.iid 1))]
  reducer := none

theorem removedRow_not_exact :
    ∃ s, removedRow.make = some s ∧ s.dir.size = 1 ∧ s.dir.isEmpty = false ∧
      (∀ key source, s.dir.getArraySourceKey source key = []) ∧ s.dir.valued.ncard = 0 := by
  have hnodup : (removedRow.oldVec.map Prod.fst).Nodup := by decide
  obtain ⟨m, hm, _⟩ := FixedSourceMap.create_holds hnodup rfl true
  have hmake : ∃ s, removedRow.make = some s := by
    unfold Creation.make create
    rw [hm]
    exact ⟨_, rfl⟩
  obtain ⟨s, hs⟩ := hmake
  have hsize : s.dir.totalSize = 1 := make_totalSize hs
  have hnil : ∀ key source, s.dir.getArraySourceKey source key = [] := by
    intro key source
    by_contra hne
    obtain ⟨w, hw, _, hvalues⟩ := (mem_valued_make hs (key, source)).mp hne
    rw [mem_singleton.mp hw] at hvalues
    exact hvalues rfl
  have hempty : s.dir.valued = ∅ := by
    apply Set.eq_empty_of_forall_notMem
    intro p hp
    exact hp (hnil p.1 p.2)
  refine ⟨s, hs, hsize, ?_, hnil, ?_⟩
  · unfold isEmpty
    rw [hsize]
    rfl
  · rw [hempty, Set.ncard_empty]

end SkipPlatform.EagerDir
