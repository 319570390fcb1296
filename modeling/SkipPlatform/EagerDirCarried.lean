import SkipPlatform.StoreContext

set_option autoImplicit false

/-! What a directory remembers of its changes since a tick: a changed entry is recorded
at or after the tick, or it lost its values and a purge past the tick dropped the
tombstone. -/
namespace SkipPlatform.EagerDir
open SortedMerge StoreSourceMap
variable {D K F : Type} [LinearOrder D] [StoreKey K]

def PurgedPast (d : EagerDir D K F) (tick : ℕ) : Prop :=
  ∃ limit, d.tombLimit = some limit ∧ tick ≤ limit

theorem getChangesAfter_fst {d : EagerDir D K F} {tick : ℕ} :
    (d.getChangesAfter tick).1 = true ↔ d.PurgedPast tick := by
  unfold getChangesAfter PurgedPast
  cases d.tombLimit with
  | none => simp
  | some limit =>
    by_cases hle : tick ≤ limit
    · simp [hle]
    · simp [hle]

/-- The directory still knows of a write of this key at or after the tick. -/
def Touched (d : EagerDir D K F) (tick : ℕ) (key : K) : Prop := ∃ e ∈ d.entries key, tick ≤ e.tick

structure Carried (tick : ℕ) (d d' : EagerDir D K F) : Prop where
  limit : d.PurgedPast tick → d'.PurgedPast tick
  raw : ∀ key, d'.Touched tick key ∨ d'.PurgedPast tick ∨ d'.getArrayRaw key = d.getArrayRaw key
  entry : ∀ source key, d'.Recorded tick source key ∨
    (d'.getArraySourceKey source key = [] ∧ d'.PurgedPast tick) ∨
      (¬ d.Recorded tick source key ∧
        d'.getArraySourceKey source key = d.getArraySourceKey source key)

theorem Carried.refl (tick : ℕ) (d : EagerDir D K F) : Carried tick d d := by
  refine ⟨id, fun _ => Or.inr (Or.inr rfl), ?_⟩
  intro source key
  by_cases h : d.Recorded tick source key
  · exact Or.inl h
  · exact Or.inr (Or.inr ⟨h, rfl⟩)

variable {d d' : EagerDir D K F}

theorem Carried.touched {tick : ℕ} (h : Carried tick d d') {key : K}
    (ht : d.Touched tick key) : d'.Touched tick key ∨ d'.PurgedPast tick := by
  obtain ⟨e, he, hle⟩ := ht
  rcases h.entry e.source key with hr | hlost | hsame
  · obtain ⟨e', he', _, hle'⟩ := hr
    exact Or.inl ⟨e', he', hle'⟩
  · exact Or.inr hlost.2
  · exact absurd ⟨e, he, rfl, hle⟩ hsame.1

theorem Carried.trans {tick : ℕ} {d d' d'' : EagerDir D K F} (h : Carried tick d d')
    (h' : Carried tick d' d'') : Carried tick d d'' := by
  refine ⟨fun hp => h'.limit (h.limit hp), ?_, ?_⟩
  · intro key
    rcases h'.raw key with ht | hp | hsame
    · exact Or.inl ht
    · exact Or.inr (Or.inl hp)
    · rcases h.raw key with ht | hp | hsame'
      · rcases h'.touched ht with ht' | hp
        · exact Or.inl ht'
        · exact Or.inr (Or.inl hp)
      · exact Or.inr (Or.inl (h'.limit hp))
      · exact Or.inr (Or.inr (hsame.trans hsame'))
  intro source key
  rcases h'.entry source key with hr | hlost | ⟨hno, hsame⟩
  · exact Or.inl hr
  · exact Or.inr (Or.inl hlost)
  · rcases h.entry source key with hr | ⟨hnil, hp⟩ | ⟨hno', hsame'⟩
    · exact absurd hr hno
    · exact Or.inr (Or.inl ⟨hsame.trans hnil, h'.limit hp⟩)
    · exact Or.inr (Or.inr ⟨hno', hsame.trans hsame'⟩)

theorem carried_of_entries {tick : ℕ} (h : d.Valid) (h' : d'.Valid)
    (hlimit : d.PurgedPast tick → d'.PurgedPast tick) (hred : d'.reducer = d.reducer)
    (hold : ∀ key, ∀ e ∈ d'.entries key, e ∈ d.entries key)
    (hkept : ∀ key, ∀ e ∈ d.entries key, e.files ≠ [] → e ∈ d'.entries key)
    (htomb : ∀ key, ∀ e ∈ d.entries key, tick ≤ e.tick → e ∈ d'.entries key ∨ d'.PurgedPast tick) :
    Carried tick d d' := by
  have hsame : ∀ source key,
      d'.getArraySourceKey source key = d.getArraySourceKey source key := by
    intro source key
    apply getArraySourceKey_congr h' h
    intro e _ hf
    exact ⟨hold key e, fun he => hkept key e he hf⟩
  have hraw : ∀ key, d'.getArrayRaw key = d.getArrayRaw key := by
    intro key
    unfold getArrayRaw
    rw [hred, filesOf_congr h' h fun source => hsame source key]
  refine ⟨hlimit, fun key => Or.inr (Or.inr (hraw key)), ?_⟩
  intro source key
  by_cases hr : d.Recorded tick source key
  · obtain ⟨e, he, hs, ht⟩ := hr
    rcases htomb key e he ht with hin | hp
    · exact Or.inl ⟨e, hin, hs, ht⟩
    · by_cases hf : e.files = []
      · refine Or.inr (Or.inl ⟨?_, hp⟩)
        rw [hsame, ← hs, getArraySourceKey_of_mem h he, hf]
      · exact Or.inl ⟨e, hkept key e he hf, hs, ht⟩
  · exact Or.inr (Or.inr ⟨hr, hsame source key⟩)

theorem carried_purge {tick limit : ℕ} (h : d.Valid)
    (hp : d.purge limit = some d') : Carried tick d d' := by
  by_cases hdone : d.tombLimit.any (fun tombLimit => decide (limit ≤ tombLimit)) = true
  · unfold purge at hp
    rw [if_pos hdone] at hp
    rw [← Option.some.inj hp]
    exact .refl tick d
  · rcases purge_cases hp with hsame | ⟨fixedOld, hd'⟩
    · rw [hsame]
      exact .refl tick d
    · have hdata : d'.data = .empty := by rw [hd']
      have hfixed : d'.fixedData = d.flattenData limit := by rw [hd']
      have hlimit : d'.tombLimit = some limit := by rw [hd']
      have hentries := mem_entries_flattenData h limit hdata hfixed
      apply carried_of_entries h (valid_flattenData h limit hdata hfixed)
      · intro hpast
        obtain ⟨old, hold, hle⟩ := hpast
        rw [hold, Option.any_some, decide_eq_true_iff] at hdone
        exact ⟨limit, hlimit, by omega⟩
      · rw [hd']
      · intro key e he
        exact ((hentries key e).mp he).1
      · intro key e he hf
        exact (hentries key e).mpr ⟨he, Or.inl hf⟩
      · intro key e he ht
        by_cases hle : e.tick ≤ limit
        · exact Or.inr ⟨limit, hlimit, by omega⟩
        · exact Or.inl ((hentries key e).mpr ⟨he, Or.inr (by omega)⟩)

def identity (d : EagerDir D K F) : D × Bool × ℕ × Option (StoreReaders.ArrowKey D K) :=
  (d.dirName, d.input, d.created, d.creator)

section Write
variable [DecidableEq F]

theorem identity_writeEntry (d : EagerDir D K F) (ctx : WriteContext D K)
    (origSource writer : Source D K) (k : K) (rvalues : List F) :
    (d.writeEntry ctx origSource writer k rvalues).identity = d.identity := by
  obtain ⟨_, _, _, _, hcreated, hname, hinput, hcreator⟩ :=
    writeEntry_frame d ctx origSource writer k rvalues
  unfold identity
  rw [hname, hinput, hcreated, hcreator]

theorem identity_writes (ctx : WriteContext D K) (writer : Source D K) (key : K)
    (es : List (Entry (Source D K) F)) (d : EagerDir D K F) :
    (es.foldl (fun d e => d.writeEntry ctx e.source writer key []) d).identity = d.identity := by
  induction es generalizing d with
  | nil => rfl
  | cons e es ih => exact (ih _).trans (identity_writeEntry d ctx e.source writer key [])

theorem identity_reset (ctx : WriteContext D K) (writer : Source D K) (keep : SortedSet K)
    (d : EagerDir D K F) : (d.reset ctx writer keep).identity = d.identity := by
  have hloop : ∀ (xs : List (K × List F)) (d' : EagerDir D K F),
      (xs.foldl (fun d' x => if !keep.containsKey x.1 && !x.2.isEmpty then
        resetKey ctx writer d' x.1 else d') d').identity = d'.identity := by
    intro xs
    induction xs with
    | nil => exact fun _ => rfl
    | cons x xs ih =>
      intro d'
      rw [List.foldl_cons, ih]
      split_ifs
      · exact identity_writes ctx writer x.1 (d'.unsafeGetDataIterWithoutTombs x.1) d'
      · rfl
  exact hloop d.unsafeGetFileIter d

variable {st : Step D K F}

theorem identity_step {s s' : Clocked D K F} (h : s.step st = some s') :
    s'.dir.identity = s.dir.identity := by
  cases st with
  | advance ticks => rw [← Option.some.inj h]
  | write sourceOverride origSource writer key values =>
    rw [← Option.some.inj h]
    exact identity_writeEntry s.dir _ origSource writer key values
  | record source minfo =>
    rw [← Option.some.inj h]
    rfl
  | reset sourceOverride writer keep =>
    rw [← Option.some.inj h]
    exact identity_reset _ writer keep s.dir
  | purge limit =>
    obtain ⟨d', hp, he⟩ := Option.map_eq_some_iff.mp h
    rw [← he]
    rcases purge_cases hp with hsame | ⟨fixedOld, hd'⟩
    · rw [hsame]
    · rw [hd']
      rfl

theorem getArrayRaw_writeEntry_ne (d : EagerDir D K F) (ctx : WriteContext D K)
    (origSource writer : Source D K) {k k' : K} (rvalues : List F) (hk : k' ≠ k) :
    (d.writeEntry ctx origSource writer k rvalues).getArrayRaw k' = d.getArrayRaw k' := by
  by_cases hsame : rvalues = d.getArraySourceKey origSource k
  · rw [writeEntry_same hsame]
  · have hdata : (d.writeEntry ctx origSource writer k rvalues).data =
        d.writtenData ctx.tick (ctx.sourceOverride.getD origSource)
          (ctx.sourceOverride.getD writer) k rvalues := writeEntry_data hsame
    have hfixed := (d.writeEntry_frame ctx origSource writer k rvalues).1
    have hfiles : (d.writeEntry ctx origSource writer k rvalues).filesOf k' = d.filesOf k' := by
      unfold filesOf unsafeGetDataIterWithoutTombs
      rw [hdata, hfixed, writtenData, DataMap.maybeGet_set, if_neg hk]
    unfold getArrayRaw
    rw [hfiles]
    unfold writeEntry
    simp only
    rw [if_neg hsame]
    cases hr : d.reducer with
    | none => simp
    | some r => simp [Reducer.write, Reducer.getArray, Reducer.getFixed, SortedMap.maybeGet_set, hk]

variable {d : EagerDir D K F} {ctx : WriteContext D K}

theorem carried_writeEntry {tick : ℕ} (h : d.Valid)
    (hu : d.Until ctx.tick) (ht : tick ≤ ctx.tick) (origSource writer : Source D K) (k : K)
    (rvalues : List F) : Carried tick d (d.writeEntry ctx origSource writer k rvalues) := by
  by_cases hne : rvalues = d.getArraySourceKey origSource k
  · rw [writeEntry_same hne]
    exact .refl tick d
  · have hvalid := valid_writeEntry h hu origSource writer k rvalues
    have hmem := @mem_entries_writeEntry D K F _ _ _ d h ctx origSource writer k rvalues hne
    have hframe := (writeEntry_frame d ctx origSource writer k rvalues).2.2.2.1
    refine ⟨?_, ?_, ?_⟩
    · intro hp
      obtain ⟨limit, hl, hle⟩ := hp
      exact ⟨limit, hframe.trans hl, hle⟩
    · intro key
      by_cases hk : key = k
      · left
        refine ⟨_, (hmem key _).mpr (Or.inl ⟨hk, rfl⟩), ?_⟩
        rw [DataMapValue.entryOf_tick]
        exact ht
      · exact Or.inr (Or.inr (getArrayRaw_writeEntry_ne d ctx origSource writer rvalues hk))
    · intro source key
      by_cases hwritten : key = k ∧ source = ctx.sourceOverride.getD origSource
      · left
        refine ⟨_, (hmem key _).mpr (Or.inl ⟨hwritten.1, rfl⟩), ?_, ?_⟩
        · rw [DataMapValue.entryOf_source, hwritten.2]
        · rw [DataMapValue.entryOf_tick]
          exact ht
      · have hother : ∀ e, e.source = source →
            (e ∈ (d.writeEntry ctx origSource writer k rvalues).entries key ↔
              e ∈ d.entries key) := by
          intro e hs
          rw [hmem]
          constructor
          · intro he
            rcases he with ⟨hk, hn⟩ | ⟨_, he⟩
            · rw [hn, DataMapValue.entryOf_source] at hs
              exact absurd ⟨hk, hs.symm⟩ hwritten
            · exact he
          · intro he
            exact Or.inr ⟨fun hk hes => hwritten ⟨hk, hs.symm.trans hes⟩, he⟩
        by_cases hr : d.Recorded tick source key
        · obtain ⟨e, he, hs, hte⟩ := hr
          exact Or.inl ⟨e, (hother e hs).mpr he, hs, hte⟩
        · refine Or.inr (Or.inr ⟨hr, ?_⟩)
          apply getArraySourceKey_congr hvalid h
          intro e hs _
          exact hother e hs

/-- A directory that can be written at the tick `now`. -/
def Writable (now : ℕ) (d : EagerDir D K F) : Prop := d.Valid ∧ d.Until now

theorem carried_reset {tick : ℕ} (ht : tick ≤ ctx.tick)
    (writer : Source D K) (keep : SortedSet K) (h : d.Writable ctx.tick) :
    (d.reset ctx writer keep).Writable ctx.tick ∧ Carried tick d (d.reset ctx writer keep) := by
  apply reset_induction (P := fun d' => d'.Writable ctx.tick ∧ Carried tick d d')
  · intro d' source key _ hd'
    have hwrite := carried_writeEntry hd'.1.1 hd'.1.2 ht source writer key []
    exact ⟨⟨valid_writeEntry hd'.1.1 hd'.1.2 source writer key [],
      until_writeEntry hd'.1.1 hd'.1.2 source writer key []⟩, hd'.2.trans hwrite⟩
  · exact ⟨h, .refl tick d⟩

theorem carried_step {tick now : ℕ} (ht : tick ≤ now) (h : d.Writable now) {s : Clocked D K F}
    (hs : Clocked.step ⟨d, now⟩ st = some s) :
    s.dir.Writable now ∧ Carried tick d s.dir := by
  cases st with
  | advance ticks =>
    rw [← Option.some.inj hs]
    exact ⟨h, .refl tick d⟩
  | write sourceOverride origSource writer key values =>
    have hu : d.Until (⟨now, sourceOverride⟩ : WriteContext D K).tick := h.2
    rw [← Option.some.inj hs]
    exact ⟨⟨valid_writeEntry h.1 hu origSource writer key values,
      until_writeEntry h.1 hu origSource writer key values⟩,
      carried_writeEntry h.1 hu ht origSource writer key values⟩
  | record source minfo =>
    rw [← Option.some.inj hs]
    exact ⟨⟨⟨h.1.distinct, h.1.data, h.1.newer, h.1.masked⟩, ⟨h.2.fixed, h.2.data⟩⟩,
      (Carried.refl tick d).limit, (Carried.refl tick d).raw, (Carried.refl tick d).entry⟩
  | reset sourceOverride writer keep =>
    have hw : d.Writable (⟨now, sourceOverride⟩ : WriteContext D K).tick := h
    have hreset : (d.reset ⟨now, sourceOverride⟩ writer keep).Writable now ∧
        Carried tick d (d.reset ⟨now, sourceOverride⟩ writer keep) :=
      carried_reset ht writer keep hw
    rw [← Option.some.inj hs]
    exact hreset
  | purge limit =>
    obtain ⟨d', hp, he⟩ := Option.map_eq_some_iff.mp hs
    rw [← he]
    refine ⟨?_, carried_purge h.1 hp⟩
    rcases purge_cases hp with hsame | ⟨fixedOld, hd'⟩
    · rw [hsame]
      exact h
    · exact ⟨valid_flattenData h.1 limit (by rw [hd']) (by rw [hd']),
        until_flattenData h.1 limit (by rw [hd']) (by rw [hd']) h.2⟩

theorem reducer_reset {writer : Source D K} {keep : SortedSet K} (h : d.reducer = none) :
    (d.reset ctx writer keep).reducer = none := by
  apply reset_induction (P := fun d' => d'.reducer = none)
  · intro d' source key _ hd'
    exact reducer_writeEntry hd' ctx source writer key []
  · exact h

theorem reducer_step {s s' : Clocked D K F} (h : s.step st = some s')
    (hred : s.dir.reducer = none) : s'.dir.reducer = none := by
  cases st with
  | advance ticks =>
    rw [← Option.some.inj h]
    exact hred
  | write sourceOverride origSource writer key values =>
    rw [← Option.some.inj h]
    exact reducer_writeEntry hred _ origSource writer key values
  | record source minfo =>
    rw [← Option.some.inj h]
    exact hred
  | reset sourceOverride writer keep =>
    rw [← Option.some.inj h]
    exact reducer_reset hred
  | purge limit =>
    obtain ⟨d', hp, he⟩ := Option.map_eq_some_iff.mp h
    rw [← he]
    rcases purge_cases hp with hsame | ⟨fixedOld, hd'⟩
    · rw [hsame]
      exact hred
    · rw [hd']
      exact hred

end Write
end SkipPlatform.EagerDir
