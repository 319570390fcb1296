import SkipPlatform.EagerDirSize
import SkipPlatform.SqlValue

set_option autoImplicit false
set_option linter.unusedSectionVars false

/-! The writes of a diff that comes in a legacy schema to the table that a column was extracted to.
They are recorded under the path of the table that the diff is for. -/
namespace SkipPlatform.SqlOverride
open List
open StoreSourceMap (Source)

variable {D K V : Type} [LinearOrder D] [StoreKey K] [DecidableEq V]

/-- The row of an extracted table: columns of the legacy row, and `true` for `skdb_original`. -/
def extractedRow (original : V) (translationIndices : List (Option ℕ)) (row : RowValues V) :
    RowValues V :=
  ⟨translationIndices.map fun idx =>
    match idx with
    | some x => row.values.getD x none
    | none => some original, row.repeatCount⟩

section Assign

variable (rowKey : List (Option V) → K) (snapshot : Option ℕ) (writer : Source D K)

def isReplaced (e : Entry (Source D K) (RowValues V)) : Bool :=
  e.tick < snapshot.getD 0 || e.source = writer

def assignRow (ctx : WriteContext D K) (d : EagerDir D K (RowValues V)) (row : RowValues V) :
    EagerDir D K (RowValues V) :=
  let key := rowKey row.values
  let newDir := (d.unsafeGetDataIterWithoutTombs key).foldl
    (fun newDir e =>
      if isReplaced snapshot writer e then newDir.writeEntry ctx e.source writer key []
      else newDir) d
  if row.repeatCount > 0 then newDir.writeEntry ctx writer writer key [row] else newDir

/-- The rows one after the other; the clock goes on after each of them. -/
def assignRows (sourceOverride : Option (Source D K)) :
    ℕ → List (RowValues V) → EagerDir D K (RowValues V) → EagerDir D K (RowValues V)
  | _, [], d => d
  | tick, row :: rows, d =>
    assignRows sourceOverride (tick + 1) rows
      (assignRow rowKey snapshot writer ⟨tick, sourceOverride⟩ d row)

end Assign

def Live (d : EagerDir D K (RowValues V)) (key : K) (e : Entry (Source D K) (RowValues V)) : Prop :=
  e ∈ d.unsafeGetDataIterWithoutTombs key

variable {d : EagerDir D K (RowValues V)}

theorem live_iff (h : d.Valid) {key : K}
    {e : Entry (Source D K) (RowValues V)} :
    Live d key e ↔ e ∈ d.entries key ∧ e.files ≠ [] := by
  unfold Live
  rw [EagerDir.withoutTombs_eq h, mem_filter]
  simp

theorem Live.unique (h : d.Valid) {key : K}
    {e e' : Entry (Source D K) (RowValues V)} (he : Live d key e) (he' : Live d key e')
    (hs : e.source = e'.source) : e = e' :=
  EagerDir.entries_unique h.distinct ((live_iff h).mp he).1 ((live_iff h).mp he').1 hs

theorem live_writeEntry (h : d.Valid) {ctx : WriteContext D K}
    (hu : d.Until ctx.tick) {origSource writer : Source D K} {k : K} {rvalues : List (RowValues V)}
    (hne : rvalues ≠ d.getArraySourceKey origSource k) (k' : K)
    (e : Entry (Source D K) (RowValues V)) :
    Live (d.writeEntry ctx origSource writer k rvalues) k' e ↔
      (k' = k ∧ rvalues ≠ [] ∧ e = DataMapValue.entryOf ctx.tick
        (ctx.sourceOverride.getD origSource) (ctx.sourceOverride.getD writer) rvalues) ∨
      (k' = k → e.source ≠ ctx.sourceOverride.getD origSource) ∧ Live d k' e := by
  rw [live_iff (EagerDir.valid_writeEntry h hu origSource writer k rvalues),
    EagerDir.mem_entries_writeEntry h hne, live_iff h]
  constructor
  · intro hm
    cases hm.1 with
    | inl hn =>
      refine .inl ⟨hn.1, ?_, hn.2⟩
      intro hnil
      rw [hn.2, hnil] at hm
      exact hm.2 rfl
    | inr ho => exact .inr ⟨ho.1, ho.2, hm.2⟩
  · intro hm
    cases hm with
    | inl hn =>
      refine ⟨.inl ⟨hn.1, hn.2.2⟩, ?_⟩
      rw [hn.2.2]
      cases hr : rvalues with
      | nil => exact absurd hr hn.2.1
      | cons row rows => simp [DataMapValue.entryOf]
    | inr ho => exact ⟨.inr ⟨ho.1, ho.2.1⟩, ho.2.2⟩

def slot (d : EagerDir D K (RowValues V)) (key : K) (source : Source D K) :
    Option (Entry (Source D K) (RowValues V)) :=
  (d.unsafeGetDataIterWithoutTombs key).find? fun e => e.source = source

def slotFiles (x : Option (Entry (Source D K) (RowValues V))) : List (RowValues V) :=
  (x.map Entry.files).getD []

theorem slot_eq_some (h : d.Valid) {key : K} {source : Source D K}
    {e : Entry (Source D K) (RowValues V)} :
    slot d key source = some e ↔ Live d key e ∧ e.source = source := by
  constructor
  · intro hs
    exact ⟨List.mem_of_find?_eq_some hs, by simpa using List.find?_some hs⟩
  · intro hl
    cases hf : slot d key source with
    | none =>
      have hno := List.find?_eq_none.mp hf e hl.1
      simp [hl.2] at hno
    | some e' =>
      have hmem : Live d key e' := List.mem_of_find?_eq_some hf
      have hsource : e'.source = source := by simpa using List.find?_some hf
      rw [Live.unique h hmem hl.1 (hsource.trans hl.2.symm)]

theorem slotFiles_slot (h : d.Valid) (key : K)
    (source : Source D K) : slotFiles (slot d key source) = d.getArraySourceKey source key := by
  cases hs : slot d key source with
  | some e =>
    have hl := (slot_eq_some h).mp hs
    rw [← hl.2, EagerDir.getArraySourceKey_of_mem h ((live_iff h).mp hl.1).1]
    rfl
  | none =>
    symm
    by_cases hin : ∀ e ∈ d.entries key, e.source ≠ source
    · exact EagerDir.getArraySourceKey_of_not_mem h hin
    · push Not at hin
      obtain ⟨e, he, hsource⟩ := hin
      rw [← hsource, EagerDir.getArraySourceKey_of_mem h he]
      by_contra hfiles
      have hsome := (slot_eq_some h).mpr ⟨(live_iff h).mpr ⟨he, hfiles⟩, hsource⟩
      rw [hs] at hsome
      exact absurd hsome (by simp)

theorem slot_eq_none (h : d.Valid) {key : K}
    {source : Source D K} : slot d key source = none ↔ d.getArraySourceKey source key = [] := by
  rw [← slotFiles_slot h]
  cases hs : slot d key source with
  | none => simp [slotFiles]
  | some e =>
    have hl := (live_iff h).mp ((slot_eq_some h).mp hs).1
    simp [slotFiles, hl.2]

def writtenSlot (tick : ℕ) (source writer : Source D K) (rvalues : List (RowValues V)) :
    Option (Entry (Source D K) (RowValues V)) :=
  if rvalues = [] then none else some (DataMapValue.entryOf tick source writer rvalues)

theorem slot_writeEntry (ctx : WriteContext D K)
    (h : d.Writable ctx.tick) {origSource writer : Source D K} {k : K}
    {rvalues : List (RowValues V)} (hne : rvalues ≠ d.getArraySourceKey origSource k) (k' : K)
    (source : Source D K) :
    slot (d.writeEntry ctx origSource writer k rvalues) k' source =
      if k' = k ∧ source = ctx.sourceOverride.getD origSource then
        writtenSlot ctx.tick (ctx.sourceOverride.getD origSource)
          (ctx.sourceOverride.getD writer) rvalues
      else slot d k' source := by
  have hv := EagerDir.valid_writeEntry h.1 h.2 origSource writer k rvalues
  apply Option.ext
  intro e
  rw [slot_eq_some hv, live_writeEntry h.1 h.2 hne]
  have hnew : (DataMapValue.entryOf ctx.tick (ctx.sourceOverride.getD origSource)
      (ctx.sourceOverride.getD writer) rvalues).source = ctx.sourceOverride.getD origSource :=
    DataMapValue.entryOf_source ..
  by_cases hat : k' = k ∧ source = ctx.sourceOverride.getD origSource
  · rw [if_pos hat, writtenSlot]
    constructor
    · intro hm
      cases hm.1 with
      | inl hn =>
        rw [if_neg hn.2.1, hn.2.2]
      | inr ho => exact absurd (hm.2.trans hat.2) (ho.1 hat.1)
    · intro he
      by_cases hnil : rvalues = []
      · rw [if_pos hnil] at he
        exact absurd he (by simp)
      · rw [if_neg hnil, Option.some.injEq] at he
        refine ⟨.inl ⟨hat.1, hnil, he.symm⟩, ?_⟩
        rw [← he, hnew, hat.2]
  · rw [if_neg hat, slot_eq_some h.1]
    constructor
    · intro hm
      refine ⟨?_, hm.2⟩
      cases hm.1 with
      | inl hn =>
        have hs := hm.2
        rw [hn.2.2, hnew] at hs
        exact absurd ⟨hn.1, hs.symm⟩ hat
      | inr ho => exact ho.2
    · intro hm
      refine ⟨.inr ⟨?_, hm.1⟩, hm.2⟩
      intro hk hs
      exact hat ⟨hk, hm.2.symm.trans hs⟩

theorem writable_writeEntry (ctx : WriteContext D K)
    (h : d.Writable ctx.tick) (origSource writer : Source D K) (k : K)
    (rvalues : List (RowValues V)) :
    (d.writeEntry ctx origSource writer k rvalues).Writable ctx.tick :=
  ⟨EagerDir.valid_writeEntry h.1 h.2 origSource writer k rvalues,
    EagerDir.until_writeEntry h.1 h.2 origSource writer k rvalues⟩

section Row

variable {rowKey : List (Option V) → K} {snapshot : Option ℕ} {writer : Source D K}

/-- The entries of `entries` that the row is to replace are removed one by one. -/
def clear (snapshot : Option ℕ) (writer : Source D K) (ctx : WriteContext D K) (key : K)
    (entries : List (Entry (Source D K) (RowValues V))) (d : EagerDir D K (RowValues V)) :
    EagerDir D K (RowValues V) :=
  entries.foldl
    (fun newDir e =>
      if isReplaced snapshot writer e then newDir.writeEntry ctx e.source writer key []
      else newDir) d

theorem clear_cons (ctx : WriteContext D K) (key : K) (e : Entry (Source D K) (RowValues V))
    (entries : List (Entry (Source D K) (RowValues V))) (d : EagerDir D K (RowValues V)) :
    clear snapshot writer ctx key (e :: entries) d = clear snapshot writer ctx key entries
      (if isReplaced snapshot writer e then d.writeEntry ctx e.source writer key [] else d) := rfl

variable {d : EagerDir D K (RowValues V)}

theorem writable_clear (snapshot : Option ℕ) (writer : Source D K) (ctx : WriteContext D K)
    (key : K)
    (entries : List (Entry (Source D K) (RowValues V)))
    (h : d.Writable ctx.tick) : (clear snapshot writer ctx key entries d).Writable ctx.tick := by
  induction entries generalizing d with
  | nil => exact h
  | cons e rest ih =>
    rw [clear_cons]
    apply ih
    split_ifs
    · exact writable_writeEntry ctx h e.source writer key []
    · exact h

variable {tick : ℕ}

theorem slot_clear_none (snapshot : Option ℕ) (writer : Source D K) (key : K)
    (entries : List (Entry (Source D K) (RowValues V)))
    (h : d.Writable tick) (k : K) (source : Source D K) :
    slot (clear snapshot writer ⟨tick, none⟩ key entries d) k source =
      if k = key ∧ ∃ e ∈ entries, isReplaced snapshot writer e ∧ e.source = source then none
      else slot d k source := by
  induction entries generalizing d with
  | nil => simp [clear]
  | cons e rest ih =>
    rw [clear_cons]
    by_cases hr : isReplaced snapshot writer e = true
    · rw [if_pos hr, ih (writable_writeEntry ⟨tick, none⟩ h e.source writer key [])]
      have hstep : slot (d.writeEntry ⟨tick, none⟩ e.source writer key []) k source =
          if k = key ∧ source = e.source then none else slot d k source := by
        by_cases hne : [] = d.getArraySourceKey e.source key
        · rw [EagerDir.writeEntry_same hne]
          split_ifs with hat
          · rw [hat.1, hat.2]
            exact (slot_eq_none h.1).mpr hne.symm
          · rfl
        · exact slot_writeEntry ⟨tick, none⟩ h hne k source
      rw [hstep]
      by_cases hk : k = key
      · by_cases hs : source = e.source
        · simp [hk, hs, hr]
        · simp [hk, hs, hr, Ne.symm hs]
      · simp [hk]
    · rw [if_neg hr, ih h]
      simp [hr]

theorem slot_clear_some (snapshot : Option ℕ) (writer override : Source D K) (key : K)
    (entries : List (Entry (Source D K) (RowValues V)))
    (h : d.Writable tick) (k : K) (source : Source D K) :
    slot (clear snapshot writer ⟨tick, some override⟩ key entries d) k source =
      if k = key ∧ source = override ∧ ∃ e ∈ entries, isReplaced snapshot writer e ∧
          d.getArraySourceKey e.source key ≠ [] then none
      else slot d k source := by
  induction entries generalizing d with
  | nil => simp [clear]
  | cons e rest ih =>
    rw [clear_cons]
    by_cases hr : isReplaced snapshot writer e = true
    · rw [if_pos hr]
      by_cases hne : [] = d.getArraySourceKey e.source key
      · rw [EagerDir.writeEntry_same hne, ih h]
        simp [← hne]
      · have hw := writable_writeEntry ⟨tick, some override⟩ h e.source writer key []
        rw [ih hw, slot_writeEntry ⟨tick, some override⟩ h hne]
        by_cases hat : k = key ∧ source = override
        · have hright : k = key ∧ source = override ∧ ∃ x ∈ e :: rest,
              isReplaced snapshot writer x ∧ d.getArraySourceKey x.source key ≠ [] :=
            ⟨hat.1, hat.2, e, mem_cons_self, hr, fun hnil => hne hnil.symm⟩
          rw [if_pos hright]
          split_ifs with hagain hhere
          · rfl
          · rfl
          · exact absurd hat hhere
        · rw [if_neg fun hall => hat ⟨hall.1, hall.2.1⟩]
          exact (if_neg hat).trans (if_neg fun hall => hat ⟨hall.1, hall.2.1⟩).symm
    · rw [if_neg hr, ih h]
      simp [hr]

theorem assignRow_eq (ctx : WriteContext D K) (d : EagerDir D K (RowValues V)) (row : RowValues V) :
    assignRow rowKey snapshot writer ctx d row =
      let newDir := clear snapshot writer ctx (rowKey row.values)
        (d.unsafeGetDataIterWithoutTombs (rowKey row.values)) d
      if row.repeatCount > 0 then newDir.writeEntry ctx writer writer (rowKey row.values) [row]
      else newDir := rfl

theorem writable_assignRow (rowKey : List (Option V) → K) (snapshot : Option ℕ)
    (writer : Source D K) (ctx : WriteContext D K)
    (h : d.Writable ctx.tick) (row : RowValues V) :
    (assignRow rowKey snapshot writer ctx d row).Writable ctx.tick := by
  have hclear := writable_clear snapshot writer ctx (rowKey row.values)
    (d.unsafeGetDataIterWithoutTombs (rowKey row.values)) h
  rw [assignRow_eq]
  simp only
  split_ifs
  · exact writable_writeEntry ctx hclear writer writer (rowKey row.values) [row]
  · exact hclear

def plainStep (snapshot : Option ℕ) (writer source : Source D K)
    (x : Option (Entry (Source D K) (RowValues V))) (row : ℕ × RowValues V) :
    Option (Entry (Source D K) (RowValues V)) :=
  if source = writer then
    if 0 < row.2.repeatCount then writtenSlot row.1 writer writer [row.2] else none
  else x.filter fun e => snapshot.getD 0 ≤ e.tick

theorem slot_assignRow_none (h : d.Writable tick)
    (row : RowValues V) (k : K) (source : Source D K) :
    slot (assignRow rowKey snapshot writer ⟨tick, none⟩ d row) k source =
      if k = rowKey row.values then plainStep snapshot writer source (slot d k source) (tick, row)
      else slot d k source := by
  have hclear := slot_clear_none snapshot writer (rowKey row.values)
    (d.unsafeGetDataIterWithoutTombs (rowKey row.values)) h
  have hw := writable_clear snapshot writer ⟨tick, none⟩ (rowKey row.values)
    (d.unsafeGetDataIterWithoutTombs (rowKey row.values)) h
  have hgone : slot (clear snapshot writer ⟨tick, none⟩ (rowKey row.values)
      (d.unsafeGetDataIterWithoutTombs (rowKey row.values)) d) (rowKey row.values) writer =
      none := by
    rw [hclear]
    cases hs : slot d (rowKey row.values) writer with
    | none => simp
    | some e =>
      have hl := (slot_eq_some h.1).mp hs
      exact if_pos ⟨rfl, e, hl.1, by simp [isReplaced, hl.2], hl.2⟩
  have hothers : source ≠ writer → slot (clear snapshot writer ⟨tick, none⟩ (rowKey row.values)
      (d.unsafeGetDataIterWithoutTombs (rowKey row.values)) d) (rowKey row.values) source =
      (slot d (rowKey row.values) source).filter fun e => snapshot.getD 0 ≤ e.tick := by
    intro hsource
    rw [hclear]
    cases hs : slot d (rowKey row.values) source with
    | none => simp
    | some e =>
      have hl := (slot_eq_some h.1).mp hs
      have hthis : (∃ e' ∈ d.unsafeGetDataIterWithoutTombs (rowKey row.values),
          isReplaced snapshot writer e' = true ∧ e'.source = source) ↔ e.tick < snapshot.getD 0 := by
        constructor
        · intro hex
          obtain ⟨e', he', hr, hs'⟩ := hex
          rw [Live.unique h.1 he' hl.1 (hs'.trans hl.2.symm)] at hr
          simpa [isReplaced, hl.2, hsource] using hr
        · intro hlt
          exact ⟨e, hl.1, by simp [isReplaced, hlt], hl.2⟩
      by_cases hlt : e.tick < snapshot.getD 0
      · rw [if_pos ⟨rfl, hthis.mpr hlt⟩, Option.filter_some, if_neg (by simpa using hlt)]
      · rw [if_neg fun hex => hlt (hthis.mp hex.2), Option.filter_some,
          if_pos (by simpa using hlt)]
  have hframe : k ≠ rowKey row.values → slot (clear snapshot writer ⟨tick, none⟩
      (rowKey row.values) (d.unsafeGetDataIterWithoutTombs (rowKey row.values)) d) k source =
      slot d k source := by
    intro hk
    rw [hclear]
    exact if_neg fun hand => hk hand.1
  rw [assignRow_eq]
  simp only
  by_cases hpos : row.repeatCount > 0
  · have hne : [row] ≠ (clear snapshot writer ⟨tick, none⟩ (rowKey row.values)
        (d.unsafeGetDataIterWithoutTombs (rowKey row.values)) d).getArraySourceKey writer
          (rowKey row.values) := by
      rw [(slot_eq_none hw.1).mp hgone]
      simp
    rw [if_pos hpos, slot_writeEntry ⟨tick, none⟩ hw hne]
    by_cases hk : k = rowKey row.values
    · by_cases hsource : source = writer
      · simp [plainStep, hk, hsource, hpos]
      · rw [if_neg fun hand => hsource hand.2, if_pos hk, plainStep, if_neg hsource, hk]
        exact hothers hsource
    · rw [if_neg fun hand => hk hand.1, if_neg hk]
      exact hframe hk
  · rw [if_neg hpos]
    by_cases hk : k = rowKey row.values
    · by_cases hsource : source = writer
      · rw [if_pos hk, plainStep, if_pos hsource, if_neg hpos, hk, hsource]
        exact hgone
      · rw [if_pos hk, plainStep, if_neg hsource, hk]
        exact hothers hsource
    · rw [if_neg hk]
      exact hframe hk

def othersReplaced (snapshot : Option ℕ) (writer override : Source D K)
    (d : EagerDir D K (RowValues V)) (key : K) : List (Entry (Source D K) (RowValues V)) :=
  (d.unsafeGetDataIterWithoutTombs key).filter fun e =>
    isReplaced snapshot writer e && e.source ≠ override

def overrideStep (snapshot : Option ℕ) (override : Source D K)
    (others : Bool) (current : List (RowValues V)) (x : Option (Entry (Source D K) (RowValues V)))
    (row : ℕ × RowValues V) : Option (Entry (Source D K) (RowValues V)) :=
  if 0 < row.2.repeatCount ∧ [row.2] ≠ current then writtenSlot row.1 override override [row.2]
  else if others then none
  else x.filter fun e => snapshot.getD 0 ≤ e.tick

theorem slot_assignRow_some {override : Source D K} (hdiff : override ≠ writer)
    (h : d.Writable tick) (row : RowValues V) (k : K)
    (source : Source D K) :
    slot (assignRow rowKey snapshot writer ⟨tick, some override⟩ d row) k source =
      if k = rowKey row.values ∧ source = override then
        overrideStep snapshot override (othersReplaced snapshot writer override d k ≠ [])
          (d.getArraySourceKey writer k) (slot d k override) (tick, row)
      else slot d k source := by
  have hclear := slot_clear_some snapshot writer override (rowKey row.values)
    (d.unsafeGetDataIterWithoutTombs (rowKey row.values)) h
  have hw := writable_clear snapshot writer ⟨tick, some override⟩ (rowKey row.values)
    (d.unsafeGetDataIterWithoutTombs (rowKey row.values)) h
  have hwriter : (clear snapshot writer ⟨tick, some override⟩ (rowKey row.values)
      (d.unsafeGetDataIterWithoutTombs (rowKey row.values)) d).getArraySourceKey writer
        (rowKey row.values) = d.getArraySourceKey writer (rowKey row.values) := by
    rw [← slotFiles_slot hw.1, ← slotFiles_slot h.1, hclear,
      if_neg fun hand => hdiff hand.2.1.symm]
  have hlive : ∀ e ∈ d.unsafeGetDataIterWithoutTombs (rowKey row.values),
      d.getArraySourceKey e.source (rowKey row.values) ≠ [] := by
    intro e he hnil
    have hs := (slot_eq_some h.1).mpr ⟨he, rfl⟩
    rw [(slot_eq_none h.1).mpr hnil] at hs
    exact absurd hs (by simp)
  have hown : slot (clear snapshot writer ⟨tick, some override⟩ (rowKey row.values)
      (d.unsafeGetDataIterWithoutTombs (rowKey row.values)) d) (rowKey row.values) override =
      if othersReplaced snapshot writer override d (rowKey row.values) = [] then
        (slot d (rowKey row.values) override).filter fun e => snapshot.getD 0 ≤ e.tick
      else none := by
    rw [hclear]
    by_cases hothers : othersReplaced snapshot writer override d (rowKey row.values) = []
    · rw [if_pos hothers]
      have hsame : ∀ e ∈ d.unsafeGetDataIterWithoutTombs (rowKey row.values),
          isReplaced snapshot writer e = true → e.source = override := by
        intro e he hr
        have hno := filter_eq_nil_iff.mp hothers e he
        simpa [hr] using hno
      cases hs : slot d (rowKey row.values) override with
      | none => simp
      | some e =>
        have hl := (slot_eq_some h.1).mp hs
        have hnot : e.source ≠ writer := fun hes => hdiff (hl.2.symm.trans hes)
        by_cases hlt : e.tick < snapshot.getD 0
        · rw [if_pos ⟨rfl, rfl, e, hl.1, by simp [isReplaced, hlt], hlive e hl.1⟩,
            Option.filter_some, if_neg (by simpa using hlt)]
        · rw [if_neg, Option.filter_some, if_pos (by simpa using hlt)]
          intro hand
          obtain ⟨e', he', hr, _⟩ := hand.2.2
          rw [Live.unique h.1 he' hl.1 ((hsame e' he' hr).trans hl.2.symm)] at hr
          simp [isReplaced, hlt, hnot] at hr
    · rw [if_neg hothers]
      obtain ⟨e, he⟩ := exists_mem_of_ne_nil _ hothers
      have hm := mem_filter.mp he
      have hr : isReplaced snapshot writer e = true := by
        simpa using (Bool.and_eq_true_iff.mp hm.2).1
      exact if_pos ⟨rfl, rfl, e, hm.1, hr, hlive e hm.1⟩
  have hframe : ¬(k = rowKey row.values ∧ source = override) →
      slot (clear snapshot writer ⟨tick, some override⟩ (rowKey row.values)
        (d.unsafeGetDataIterWithoutTombs (rowKey row.values)) d) k source = slot d k source := by
    intro hat
    rw [hclear]
    exact if_neg fun hand => hat ⟨hand.1, hand.2.1⟩
  have hwrite : slot (assignRow rowKey snapshot writer ⟨tick, some override⟩ d row) k source =
      if (k = rowKey row.values ∧ source = override) ∧ 0 < row.repeatCount ∧
          [row] ≠ d.getArraySourceKey writer (rowKey row.values) then
        writtenSlot tick override override [row]
      else slot (clear snapshot writer ⟨tick, some override⟩ (rowKey row.values)
        (d.unsafeGetDataIterWithoutTombs (rowKey row.values)) d) k source := by
    rw [assignRow_eq]
    simp only
    by_cases hpos : row.repeatCount > 0
    · rw [if_pos hpos]
      by_cases hne : [row] = d.getArraySourceKey writer (rowKey row.values)
      · rw [EagerDir.writeEntry_same (hne.trans hwriter.symm), if_neg fun hand => hand.2.2 hne]
      · rw [slot_writeEntry ⟨tick, some override⟩ hw fun heq => hne (heq.trans hwriter)]
        by_cases hat : k = rowKey row.values ∧ source = override
        · exact (if_pos hat).trans (if_pos ⟨hat, hpos, hne⟩).symm
        · exact (if_neg hat).trans (if_neg fun hand => hat hand.1).symm
    · rw [if_neg hpos, if_neg fun hand => hpos hand.2.1]
  rw [hwrite]
  by_cases hat : k = rowKey row.values ∧ source = override
  · rw [if_pos hat, overrideStep, hat.1, hat.2]
    simp only [true_and]
    split_ifs with hpos hothers
    · rfl
    · rw [hown, if_neg (of_decide_eq_true hothers)]
    · rw [hown, if_pos (by simpa using hothers)]
  · rw [if_neg hat, if_neg fun hand => hat hand.1]
    exact hframe hat

end Row

section Rows

variable {rowKey : List (Option V) → K} {snapshot : Option ℕ} {writer : Source D K}

/-- The rows of the diff for one key, with the ticks they are written at. -/
def rowsAt (rowKey : List (Option V) → K) (key : K) : ℕ → List (RowValues V) →
    List (ℕ × RowValues V)
  | _, [] => []
  | tick, row :: rows =>
    if key = rowKey row.values then (tick, row) :: rowsAt rowKey key (tick + 1) rows
    else rowsAt rowKey key (tick + 1) rows

variable {d : EagerDir D K (RowValues V)} {tick : ℕ}

theorem Writable.next (h : d.Writable tick) :
    d.Writable (tick + 1) := ⟨h.1, h.2.mono (Nat.le_succ tick)⟩

theorem writable_assignRows (sourceOverride : Option (Source D K))
    (rows : List (RowValues V)) (h : d.Writable tick) :
    (assignRows rowKey snapshot writer sourceOverride tick rows d).Valid := by
  induction rows generalizing tick d with
  | nil => exact h.1
  | cons row rest ih =>
    exact ih (Writable.next (writable_assignRow rowKey snapshot writer ⟨tick, sourceOverride⟩ h row))

theorem slot_assignRows_none (rows : List (RowValues V)) (h : d.Writable tick) (key : K)
    (source : Source D K) :
    slot (assignRows rowKey snapshot writer none tick rows d) key source =
      (rowsAt rowKey key tick rows).foldl (plainStep snapshot writer source)
        (slot d key source) := by
  induction rows generalizing tick d with
  | nil => rfl
  | cons row rest ih =>
    rw [assignRows, ih (Writable.next (writable_assignRow rowKey snapshot writer ⟨tick, none⟩ h row)),
      slot_assignRow_none h, rowsAt]
    split_ifs <;> rfl

variable {override : Source D K}

theorem othersReplaced_ne_nil (h : d.Valid)
    {key : K} : othersReplaced snapshot writer override d key ≠ [] ↔
      ∃ source e, source ≠ override ∧ slot d key source = some e ∧ isReplaced snapshot writer e := by
  constructor
  · intro hne
    obtain ⟨e, he⟩ := exists_mem_of_ne_nil _ hne
    have hm := mem_filter.mp he
    have hand := Bool.and_eq_true_iff.mp hm.2
    exact ⟨e.source, e, of_decide_eq_true hand.2, (slot_eq_some h).mpr ⟨hm.1, rfl⟩, hand.1⟩
  · intro hex
    obtain ⟨source, e, hs, hslot, hr⟩ := hex
    have hl := (slot_eq_some h).mp hslot
    apply ne_nil_of_mem (a := e)
    apply mem_filter.mpr
    exact ⟨hl.1, Bool.and_eq_true_iff.mpr ⟨hr, decide_eq_true (hl.2 ▸ hs)⟩⟩

theorem slot_assignRows_others (hdiff : override ≠ writer)
    (rows : List (RowValues V)) (h : d.Writable tick) (key : K)
    {source : Source D K} (hs : source ≠ override) :
    slot (assignRows rowKey snapshot writer (some override) tick rows d) key source =
      slot d key source := by
  induction rows generalizing tick d with
  | nil => rfl
  | cons row rest ih =>
    rw [assignRows, ih (Writable.next (writable_assignRow rowKey snapshot writer ⟨tick, some override⟩ h row)),
      slot_assignRow_some hdiff h]
    exact if_neg fun hand => hs hand.2

/-- The other sources are left as they are, so that what is to be replaced of them is the same for
every row. -/
theorem slot_assignRows_some (hdiff : override ≠ writer)
    (rows : List (RowValues V)) (h : d.Writable tick) (key : K) :
    slot (assignRows rowKey snapshot writer (some override) tick rows d) key override =
      (rowsAt rowKey key tick rows).foldl (overrideStep snapshot override
        (othersReplaced snapshot writer override d key ≠ []) (d.getArraySourceKey writer key))
        (slot d key override) := by
  induction rows generalizing tick d with
  | nil => rfl
  | cons row rest ih =>
    have hw := writable_assignRow rowKey snapshot writer ⟨tick, some override⟩ h row
    have hsame : ∀ source, source ≠ override →
        slot (assignRow rowKey snapshot writer ⟨tick, some override⟩ d row) key source =
          slot d key source := by
      intro source hs
      rw [slot_assignRow_some hdiff h]
      exact if_neg fun hand => hs hand.2
    have hothers : othersReplaced snapshot writer override
        (assignRow rowKey snapshot writer ⟨tick, some override⟩ d row) key ≠ [] ↔
          othersReplaced snapshot writer override d key ≠ [] := by
      rw [othersReplaced_ne_nil hw.1, othersReplaced_ne_nil h.1]
      apply exists_congr
      intro source
      apply exists_congr
      intro e
      apply and_congr_right
      intro hs
      rw [hsame source hs]
    have hcurrent : (assignRow rowKey snapshot writer ⟨tick, some override⟩ d row).getArraySourceKey
        writer key = d.getArraySourceKey writer key := by
      rw [← slotFiles_slot hw.1, ← slotFiles_slot h.1, hsame writer hdiff.symm]
    rw [assignRows, ih (Writable.next hw), hcurrent, decide_eq_decide.mpr hothers,
      slot_assignRow_some hdiff h, rowsAt]
    by_cases hkey : key = rowKey row.values
    · rw [if_pos ⟨hkey, rfl⟩, if_pos hkey]
      rfl
    · rw [if_neg fun hand => hkey hand.1, if_neg hkey]

end Rows

end SkipPlatform.SqlOverride
