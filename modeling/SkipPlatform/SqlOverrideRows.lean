import Mathlib.Algebra.BigOperators.Group.Finset.Basic
import Mathlib.Algebra.Order.Group.Multiset
import SkipPlatform.EagerDirContents
import SkipPlatform.SqlOverride

set_option autoImplicit false
set_option linter.unusedSectionVars false

/-! When the writes under a source override are the ones that were meant. -/
namespace SkipPlatform.SqlOverride
open List
open StoreSourceMap (Source)

variable {D K V : Type} [LinearOrder D] [StoreKey K] [DecidableEq V]

theorem card_update {P : Type} [DecidableEq P] {places places' : Finset P} {p : P} {b : Prop}
    [Decidable b] (h : ∀ q, q ∈ places' ↔ if q = p then b else q ∈ places) :
    (places'.card : ℤ) = places.card + (if b then 1 else 0) - if p ∈ places then 1 else 0 := by
  by_cases hb : b
  · have heq : places' = insert p places := by
      apply Finset.ext
      intro q
      rw [h q, Finset.mem_insert]
      by_cases hq : q = p
      · simp [hq, hb]
      · simp [hq]
    rw [if_pos hb, heq]
    by_cases hp : p ∈ places
    · rw [if_pos hp, Finset.insert_eq_of_mem hp]
      omega
    · rw [if_neg hp, Finset.card_insert_of_notMem hp]
      push_cast
      omega
  · have heq : places' = places.erase p := by
      apply Finset.ext
      intro q
      rw [h q, Finset.mem_erase]
      by_cases hq : q = p
      · simp [hq, hb]
      · simp [hq]
    rw [if_neg hb, heq]
    by_cases hp : p ∈ places
    · have hpos := Finset.card_pos.mpr ⟨p, hp⟩
      rw [if_pos hp, Finset.card_erase_of_mem hp]
      omega
    · rw [if_neg hp, Finset.erase_eq_of_notMem hp]
      omega

theorem counted_writeEntry_iff {d : EagerDir D K (RowValues V)} (h : d.Counted) (hv : d.Sound)
    {ctx : WriteContext D K} {origSource writer : Source D K} {k : K}
    {rvalues : List (RowValues V)} :
    (d.writeEntry ctx origSource writer k rvalues).Counted ↔
      (rvalues ≠ d.getArraySourceKey origSource k →
        (d.getArraySourceKey (ctx.sourceOverride.getD origSource) k = [] ↔
          d.getArraySourceKey origSource k = [])) := by
  constructor
  · intro hafter hne
    obtain ⟨places, hmem, htotal⟩ := h
    obtain ⟨places', hmem', htotal'⟩ := hafter
    have hread : ∀ q, q ∈ places' ↔ if q = (k, ctx.sourceOverride.getD origSource) then
        rvalues ≠ [] else q ∈ places := by
      intro q
      rw [hmem' q, hmem q]
      change (d.writeEntry ctx origSource writer k rvalues).getArraySourceKey q.2 q.1 ≠ [] ↔ _
      rw [EagerDir.getArraySourceKey_written hv writer hne]
      by_cases hq : q = (k, ctx.sourceOverride.getD origSource)
      · rw [if_pos hq, if_pos ⟨congrArg Prod.fst hq, congrArg Prod.snd hq⟩]
      · rw [if_neg hq, if_neg fun hand => hq (Prod.ext hand.1 hand.2)]
        exact Iff.rfl
    have hcard := card_update hread
    rw [EagerDir.totalSize_writeEntry hne, htotal, hcard] at htotal'
    have hplace : (k, ctx.sourceOverride.getD origSource) ∈ places ↔
        d.getArraySourceKey (ctx.sourceOverride.getD origSource) k ≠ [] := hmem _
    have hold : (if d.getArraySourceKey origSource k = [] then (0 : ℤ) else 1) =
        if (k, ctx.sourceOverride.getD origSource) ∈ places then 1 else 0 := by
      by_cases hr : rvalues = []
      · simp only [hr, if_true, ne_eq, not_true_eq_false, if_false] at htotal'
        omega
      · simp only [hr, if_false, ne_eq, not_false_eq_true, if_true] at htotal'
        omega
    by_cases ho : d.getArraySourceKey origSource k = []
    · by_cases hp : (k, ctx.sourceOverride.getD origSource) ∈ places
      · simp [ho, hp] at hold
      · simpa [ho] using fun hne => hp (hplace.mpr hne)
    · by_cases hp : (k, ctx.sourceOverride.getD origSource) ∈ places
      · simpa [ho] using hplace.mp hp
      · simp [ho, hp] at hold
  · intro hsame
    exact h.writeEntry hv hsame

theorem deleted_iff {d : EagerDir D K (RowValues V)} (h : d.Sound) (tick : ℕ)
    (override origSource writer : Source D K) (k : K) :
    (d.writeEntry ⟨tick, some override⟩ origSource writer k []).getArraySourceKey origSource k =
        [] ↔ override = origSource ∨ d.getArraySourceKey origSource k = [] := by
  by_cases hne : [] = d.getArraySourceKey origSource k
  · rw [EagerDir.writeEntry_same hne, ← hne]
    simp
  · rw [EagerDir.getArraySourceKey_written h writer hne]
    constructor
    · intro hnil
      split_ifs at hnil with hat
      · exact .inl hat.2.symm
      · exact .inr hnil
    · intro hor
      cases hor with
      | inl heq => exact if_pos ⟨rfl, heq.symm⟩
      | inr hnil => exact absurd hnil.symm hne

section Rows

variable {rowKey : List (Option V) → K} {snapshot : Option ℕ} {writer override : Source D K}

theorem slotFiles_writtenSlot (tick : ℕ) (source w : Source D K) (row : RowValues V) :
    slotFiles (writtenSlot tick source w [row]) = [row] := rfl

theorem foldl_plainStep_writer (l : List (ℕ × RowValues V)) (row : ℕ × RowValues V)
    (x : Option (Entry (Source D K) (RowValues V))) :
    slotFiles ((l ++ [row]).foldl (plainStep snapshot writer writer) x) =
      if 0 < row.2.repeatCount then [row.2] else [] := by
  rw [foldl_append]
  change slotFiles (plainStep snapshot writer writer _ row) = _
  rw [plainStep, if_pos rfl]
  split_ifs
  · exact slotFiles_writtenSlot ..
  · rfl

theorem foldl_plainStep_other {source : Source D K} (hs : source ≠ writer)
    (l : List (ℕ × RowValues V)) (row : ℕ × RowValues V)
    (x : Option (Entry (Source D K) (RowValues V))) :
    (l ++ [row]).foldl (plainStep snapshot writer source) x =
      x.filter fun e => snapshot.getD 0 ≤ e.tick := by
  induction l generalizing x with
  | nil => exact if_neg hs
  | cons first rest ih =>
    rw [cons_append, foldl_cons, ih, plainStep, if_neg hs, Option.filter_filter]
    simp

theorem foldl_overrideStep_others (current : List (RowValues V)) (l : List (ℕ × RowValues V))
    (row : ℕ × RowValues V) (x : Option (Entry (Source D K) (RowValues V))) :
    slotFiles ((l ++ [row]).foldl (overrideStep snapshot override true current) x) =
      if 0 < row.2.repeatCount ∧ [row.2] ≠ current then [row.2] else [] := by
  rw [foldl_append]
  change slotFiles (overrideStep snapshot override true current _ row) = _
  rw [overrideStep, if_pos rfl]
  split_ifs
  · exact slotFiles_writtenSlot ..
  · rfl

/-- Without, the last row with a count stays when rows without one follow it, unless the diff was
made later than it is written. -/
theorem foldl_overrideStep_alone (l : List (ℕ × RowValues V)) (row : ℕ × RowValues V)
    (x : Option (Entry (Source D K) (RowValues V))) :
    (l ++ [row]).foldl (overrideStep snapshot override false []) x =
      match ((l ++ [row]).filter fun row => 0 < row.2.repeatCount).getLast? with
      | none => x.filter fun e => snapshot.getD 0 ≤ e.tick
      | some top =>
        if 0 < row.2.repeatCount ∨ snapshot.getD 0 ≤ top.1 then
          writtenSlot top.1 override override [top.2]
        else none := by
  induction l using List.reverseRecOn generalizing row with
  | nil =>
    by_cases hpos : 0 < row.2.repeatCount
    · simp [overrideStep, hpos]
    · simp [overrideStep, hpos]
  | append_singleton rest prev ih =>
    rw [foldl_append, ih prev]
    change overrideStep snapshot override false [] _ row = _
    rw [overrideStep]
    by_cases hpos : 0 < row.2.repeatCount
    · rw [if_pos ⟨hpos, by simp⟩, filter_append _ [row]]
      simp [hpos]
    · rw [if_neg fun hand => hpos hand.1, filter_append _ [row]]
      have hnone : [row].filter (fun row => decide (0 < row.2.repeatCount)) = [] := by
        simp [hpos]
      rw [hnone, append_nil]
      cases hlast : ((rest ++ [prev]).filter fun row => 0 < row.2.repeatCount).getLast? with
      | none => simp [Option.filter_filter]
      | some top =>
        have htick : (writtenSlot top.1 override override [top.2]).filter
            (fun e => decide (snapshot.getD 0 ≤ e.tick)) =
              if snapshot.getD 0 ≤ top.1 then writtenSlot top.1 override override [top.2]
              else none := by
          rw [writtenSlot, if_neg (by simp), Option.filter_some, DataMapValue.entryOf_tick]
          simp
        simp only [hpos, false_or, Bool.false_eq_true, if_false]
        by_cases hor : 0 < prev.2.repeatCount ∨ snapshot.getD 0 ≤ top.1
        · rw [if_pos hor, htick]
        · rw [if_neg hor, if_neg fun hle => hor (.inr hle)]
          rfl

def keptRows (snapshot : Option ℕ) (override : Source D K) (d : EagerDir D K (RowValues V))
    (key : K) : List (RowValues V) :=
  slotFiles ((slot d key override).filter fun e => snapshot.getD 0 ≤ e.tick)

/-- When the rows `rows` of one key do the same with the override as without. Either there is
nothing to replace but of the override's own source: then the rows must all remove the key, or
end with one that has a count and find nothing that the override's source keeps. Or what is
left of the other sources happens to be what the override's source loses. -/
def SameRows (snapshot : Option ℕ) (writer override : Source D K) (d : EagerDir D K (RowValues V))
    (key : K) (rows : List (ℕ × RowValues V)) : Prop :=
  match rows.getLast? with
  | none => True
  | some last =>
    if othersReplaced snapshot writer override d key = [] then
      match (rows.filter fun row => 0 < row.2.repeatCount).getLast? with
      | none => True
      | some top =>
        keptRows snapshot override d key =
          if 0 < last.2.repeatCount ∨ top.1 < snapshot.getD 0 then [] else [top.2]
    else
      (((othersReplaced snapshot writer override d key).filter fun e =>
        !(decide (0 < last.2.repeatCount) && decide (e.source = writer) &&
          decide (e.files = [last.2]))).flatMap Entry.files).Perm
        (keptRows snapshot override d key)

theorem sum_find {E κ M : Type} [DecidableEq κ] [AddCommMonoid M] (source : E → κ) (g : E → M)
    {l : List E} (hl : (l.map source).Nodup) (sources : Finset κ)
    (hmem : ∀ e ∈ l, source e ∈ sources) :
    (l.map g).sum =
      ∑ s ∈ sources, (l.find? fun e => decide (source e = s)).elim 0 g := by
  induction l with
  | nil => simp
  | cons e rest ih =>
    rw [map_cons, nodup_cons] at hl
    have hterm : ∀ s, ((e :: rest).find? fun e => decide (source e = s)).elim 0 g =
        (if s = source e then g e else 0) +
          (rest.find? fun e => decide (source e = s)).elim 0 g := by
      intro s
      by_cases hs : source e = s
      · have hnone : rest.find? (fun e => decide (source e = s)) = none := by
          rw [List.find?_eq_none]
          intro e' he'
          have hne : source e' ≠ s := fun heq =>
            hl.1 (mem_map.mpr ⟨e', he', heq.trans hs.symm⟩)
          simpa using hne
        rw [hnone, List.find?_cons_of_pos (by simpa using hs), if_pos hs.symm]
        simp
      · rw [List.find?_cons_of_neg (by simpa using hs), if_neg fun heq => hs heq.symm, zero_add]
    rw [map_cons, sum_cons, ih hl.2 fun e' he' => hmem e' (mem_cons_of_mem e he'),
      Finset.sum_congr rfl fun s _ => hterm s, Finset.sum_add_distrib, Finset.sum_ite_eq',
      if_pos (hmem e mem_cons_self)]

theorem coe_flatMap_files (es : List (Entry (Source D K) (RowValues V))) :
    ((es.flatMap Entry.files : List (RowValues V)) : Multiset (RowValues V)) =
      (es.map fun e => (e.files : Multiset (RowValues V))).sum := by
  induction es with
  | nil => rfl
  | cons e rest ih =>
    rw [flatMap_cons, ← Multiset.coe_add, ih, map_cons, sum_cons]

variable {d : EagerDir D K (RowValues V)}

theorem sources_nodup (h : d.Valid) (key : K) :
    ((d.unsafeGetDataIterWithoutTombs key).map Entry.source).Nodup := by
  have hsorted : ((d.unsafeGetDataIterWithoutTombs key).map Entry.source).Pairwise (· < ·) := by
    rw [EagerDir.withoutTombs_eq h, pairwise_map]
    exact (EagerDir.entries_sorted h.distinct key).filter _
  exact hsorted.imp fun hlt => hlt.ne

variable {sources : Finset (Source D K)}

theorem filtered_files (h : d.Valid) (key : K)
    (p : Entry (Source D K) (RowValues V) → Bool)
    (hmem : ∀ source, slot d key source ≠ none → source ∈ sources) :
    ((((d.unsafeGetDataIterWithoutTombs key).filter p).flatMap Entry.files : List (RowValues V)) :
      Multiset (RowValues V)) =
        ∑ source ∈ sources,
          (slotFiles ((slot d key source).filter p) : Multiset (RowValues V)) := by
  have hfilter : ∀ es : List (Entry (Source D K) (RowValues V)),
      ((es.filter p).map fun e => (e.files : Multiset (RowValues V))).sum =
        (es.map fun e => if p e then (e.files : Multiset (RowValues V)) else 0).sum := by
    intro es
    induction es with
    | nil => rfl
    | cons e rest ih =>
      by_cases hp : p e = true
      · rw [filter_cons_of_pos hp, map_cons, sum_cons, ih, map_cons,
          sum_cons, if_pos hp]
      · rw [filter_cons_of_neg hp, ih, map_cons, sum_cons, if_neg hp, zero_add]
  rw [coe_flatMap_files, hfilter, sum_find Entry.source _ (sources_nodup h key) sources]
  · apply Finset.sum_congr rfl
    intro source _
    change (slot d key source).elim 0 _ = _
    cases slot d key source with
    | none => rfl
    | some e =>
      rw [Option.filter_some]
      by_cases hp : p e = true
      · simp [hp, slotFiles]
      · simp [hp, slotFiles]
  · intro e he
    apply hmem
    rw [(slot_eq_some h).mpr ⟨he, rfl⟩]
    simp

theorem filesOf_sum (h : d.Valid) (key : K)
    (hmem : ∀ source, slot d key source ≠ none → source ∈ sources) :
    (d.filesOf key : Multiset (RowValues V)) =
      ∑ source ∈ sources, (slotFiles (slot d key source) : Multiset (RowValues V)) := by
  have hall := filtered_files h key (fun _ => true) hmem
  rw [filter_true] at hall
  rw [EagerDir.filesOf, hall]
  apply Finset.sum_congr rfl
  intro source _
  cases slot d key source <;> rfl

theorem slotFiles_split (p : Entry (Source D K) (RowValues V) → Bool)
    (x : Option (Entry (Source D K) (RowValues V))) :
    (slotFiles x : Multiset (RowValues V)) =
      slotFiles (x.filter p) + slotFiles (x.filter fun e => !p e) := by
  cases x with
  | none => rfl
  | some e =>
    by_cases hp : p e = true
    · simp [Option.filter_some, hp, slotFiles]
    · simp [Option.filter_some, hp, slotFiles]

theorem sum_two {M : Type} [AddCommMonoid M] (f : Source D K → M) (hdiff : override ≠ writer)
    (ho : override ∈ sources) (hw : writer ∈ sources) :
    ∑ source ∈ sources, f source =
      f override + (f writer + ∑ source ∈ (sources.erase override).erase writer, f source) := by
  rw [Finset.add_sum_erase _ f (Finset.mem_erase.mpr ⟨hdiff.symm, hw⟩),
    Finset.add_sum_erase _ f ho]

/-- What the entries to replace of the other sources have: that of the writer, and that of the
others written before the diff. -/
theorem othersReplaced_files (h : d.Valid) (key : K)
    (hdiff : override ≠ writer) (q : Entry (Source D K) (RowValues V) → Bool)
    (hq : ∀ e, e.source ≠ writer → q e = true)
    (hmem : ∀ source, slot d key source ≠ none → source ∈ sources) (ho : override ∈ sources)
    (hw : writer ∈ sources) :
    ((((othersReplaced snapshot writer override d key).filter q).flatMap Entry.files :
      List (RowValues V)) : Multiset (RowValues V)) =
        slotFiles ((slot d key writer).filter q) +
          ∑ source ∈ (sources.erase override).erase writer,
            (slotFiles ((slot d key source).filter fun e => !decide (snapshot.getD 0 ≤ e.tick)) :
              Multiset (RowValues V)) := by
  have hslot : ∀ source e, slot d key source = some e → e.source = source :=
    fun source e hs => ((slot_eq_some h).mp hs).2
  rw [othersReplaced, filter_filter, filtered_files h key _ hmem, sum_two _ hdiff ho hw]
  have hown : slotFiles ((slot d key override).filter fun e =>
      q e && (isReplaced snapshot writer e && decide (e.source ≠ override))) = [] := by
    cases hs : slot d key override with
    | none => rfl
    | some e => simp [Option.filter_some, hslot override e hs, slotFiles]
  have hwriter : (slot d key writer).filter (fun e =>
      q e && (isReplaced snapshot writer e && decide (e.source ≠ override))) =
        (slot d key writer).filter q := by
    cases hs : slot d key writer with
    | none => rfl
    | some e =>
      simp [Option.filter_some, isReplaced, hslot writer e hs, hdiff.symm]
  rw [hown, hwriter, Multiset.coe_nil, zero_add]
  congr 1
  apply Finset.sum_congr rfl
  intro source hsource
  rw [Finset.mem_erase, Finset.mem_erase] at hsource
  cases hs : slot d key source with
  | none => rfl
  | some e =>
    have hnw : e.source ≠ writer := by
      rw [hslot source e hs]
      exact hsource.1
    have hno : e.source ≠ override := by
      rw [hslot source e hs]
      exact hsource.2.1
    simp [Option.filter_some, isReplaced, hnw, hno, hq e hnw]

theorem filesOf_balance (snapshot : Option ℕ) (hdiff : override ≠ writer) {tick : ℕ}
    (rows : List (RowValues V)) (h : d.Writable tick) (key : K)
    {l : List (ℕ × RowValues V)} {last : ℕ × RowValues V}
    (hl : rowsAt rowKey key tick rows = l ++ [last]) :
    ∃ dropped : Multiset (RowValues V),
      (∀ q : Entry (Source D K) (RowValues V) → Bool, (∀ e, e.source ≠ writer → q e = true) →
        ((((othersReplaced snapshot writer override d key).filter q).flatMap Entry.files :
          List (RowValues V)) : Multiset (RowValues V)) =
            slotFiles ((slot d key writer).filter q) + dropped) ∧
      (((assignRows rowKey snapshot writer (some override) tick rows d).filesOf key).Perm
          ((assignRows rowKey snapshot writer none tick rows d).filesOf key) ↔
        (slotFiles ((l ++ [last]).foldl (overrideStep snapshot override
            (othersReplaced snapshot writer override d key ≠ []) (d.getArraySourceKey writer key))
            (slot d key override)) : Multiset (RowValues V)) +
            (d.getArraySourceKey writer key + dropped) =
          keptRows snapshot override d key +
            (if 0 < last.2.repeatCount then [last.2] else [] : List (RowValues V))) := by
  set sources : Finset (Source D K) := insert override (insert writer
    ((d.unsafeGetDataIterWithoutTombs key).map Entry.source).toFinset) with hsources
  have ho : override ∈ sources := by simp [hsources]
  have hw : writer ∈ sources := by simp [hsources]
  have hmem : ∀ source, slot d key source ≠ none → source ∈ sources := by
    intro source hne
    obtain ⟨e, he⟩ := Option.ne_none_iff_exists'.mp hne
    have hlive := (slot_eq_some h.1).mp he
    rw [hsources, Finset.mem_insert, Finset.mem_insert, mem_toFinset, mem_map]
    exact .inr (.inr ⟨e, hlive⟩)
  refine ⟨_, fun q hq => othersReplaced_files h.1 key hdiff q hq hmem ho hw, ?_⟩
  have hplain : ∀ source, slot (assignRows rowKey snapshot writer none tick rows d) key source =
      (l ++ [last]).foldl (plainStep snapshot writer source) (slot d key source) := by
    intro source
    rw [slot_assignRows_none rows h, hl]
  have hpmem : ∀ source, slot (assignRows rowKey snapshot writer none tick rows d) key source ≠
      none → source ∈ sources := by
    intro source hne
    by_cases hs : source = writer
    · rw [hs]
      exact hw
    · apply hmem
      intro hnone
      rw [hplain, foldl_plainStep_other hs, hnone] at hne
      exact hne rfl
  have homem : ∀ source,
      slot (assignRows rowKey snapshot writer (some override) tick rows d) key source ≠ none →
        source ∈ sources := by
    intro source hne
    by_cases hs : source = override
    · rw [hs]
      exact ho
    · apply hmem
      rwa [slot_assignRows_others hdiff rows h key hs] at hne
  rw [← Multiset.coe_eq_coe, filesOf_sum (writable_assignRows (some override) rows h) key homem,
    filesOf_sum (writable_assignRows none rows h) key hpmem, sum_two _ hdiff ho hw,
    sum_two _ hdiff ho hw, slot_assignRows_some hdiff rows h, hl,
    slot_assignRows_others hdiff rows h key hdiff.symm, slotFiles_slot h.1, hplain override,
    foldl_plainStep_other hdiff, hplain writer, foldl_plainStep_writer]
  have hrest : ∑ source ∈ (sources.erase override).erase writer, (slotFiles (slot
      (assignRows rowKey snapshot writer (some override) tick rows d) key source) :
        Multiset (RowValues V)) =
      ∑ source ∈ (sources.erase override).erase writer, (slotFiles (slot
        (assignRows rowKey snapshot writer none tick rows d) key source) :
          Multiset (RowValues V)) +
      ∑ source ∈ (sources.erase override).erase writer,
        (slotFiles ((slot d key source).filter fun e => !decide (snapshot.getD 0 ≤ e.tick)) :
          Multiset (RowValues V)) := by
    rw [← Finset.sum_add_distrib]
    apply Finset.sum_congr rfl
    intro source hsource
    rw [Finset.mem_erase, Finset.mem_erase] at hsource
    rw [slot_assignRows_others hdiff rows h key hsource.2.1, hplain,
      foldl_plainStep_other hsource.1]
    exact slotFiles_split _ _
  rw [hrest, keptRows]
  set shared := ∑ source ∈ (sources.erase override).erase writer, (slotFiles (slot
    (assignRows rowKey snapshot writer none tick rows d) key source) : Multiset (RowValues V))
  have hcancel : ∀ own theirs dropped kept new : Multiset (RowValues V),
      own + (theirs + (shared + dropped)) = kept + (new + shared) ↔
        own + (theirs + dropped) = kept + new := by
    intro own theirs dropped kept new
    have hleft : own + (theirs + (shared + dropped)) = own + (theirs + dropped) + shared := by abel
    have hright : kept + (new + shared) = kept + new + shared := by abel
    rw [hleft, hright, add_left_inj]
  exact hcancel _ _ _ _ _

/-- A key has the same rows with the override as without exactly under the condition on what was
there before. -/
theorem filesOf_perm_iff (hdiff : override ≠ writer) {tick : ℕ} (rows : List (RowValues V))
    (h : d.Writable tick) (key : K) :
    ((assignRows rowKey snapshot writer (some override) tick rows d).filesOf key).Perm
        ((assignRows rowKey snapshot writer none tick rows d).filesOf key) ↔
      SameRows snapshot writer override d key (rowsAt rowKey key tick rows) := by
  cases eq_nil_or_concat (rowsAt rowKey key tick rows) with
  | inl hnil =>
    have hsame : (assignRows rowKey snapshot writer (some override) tick rows d).filesOf key =
        (assignRows rowKey snapshot writer none tick rows d).filesOf key := by
      apply EagerDir.Sound.filesOf_congr (writable_assignRows (some override) rows h).sound
        (writable_assignRows none rows h).sound
      intro source
      rw [← slotFiles_slot (writable_assignRows (some override) rows h),
        ← slotFiles_slot (writable_assignRows none rows h), slot_assignRows_none rows h, hnil]
      by_cases hs : source = override
      · rw [hs, slot_assignRows_some hdiff rows h, hnil]
        rfl
      · rw [slot_assignRows_others hdiff rows h key hs]
        rfl
    rw [hsame, hnil]
    exact iff_of_true (List.Perm.refl _) trivial
  | inr hconcat =>
    obtain ⟨l, last, hl⟩ := hconcat
    rw [concat_eq_append] at hl
    obtain ⟨dropped, hothers, hbalance⟩ := filesOf_balance snapshot hdiff rows h key hl
    rw [hbalance, SameRows, hl, List.getLast?_append]
    simp only [List.getLast?_singleton, Option.some_or]
    by_cases hnone : othersReplaced snapshot writer override d key = []
    · have hzero := hothers (fun _ => true) fun _ _ => rfl
      rw [hnone, filter_nil] at hzero
      have hall : (slot d key writer).filter (fun _ => true) = slot d key writer := by
        cases slot d key writer <;> rfl
      rw [hall, slotFiles_slot h.1] at hzero
      have hparts := add_eq_zero.mp hzero.symm
      have hcurrent : d.getArraySourceKey writer key = [] :=
        (Multiset.coe_eq_zero _).mp hparts.1
      rw [if_pos hnone, hparts.1, hparts.2, hcurrent, decide_eq_false fun hne => hne hnone,
        foldl_overrideStep_alone, add_zero, add_zero]
      cases htop : ((l ++ [last]).filter fun row => 0 < row.2.repeatCount).getLast? with
      | none =>
        have hcount : ¬0 < last.2.repeatCount := by
          intro hpos
          rw [filter_append, List.getLast?_append] at htop
          simp [hpos] at htop
        simp only
        rw [if_neg hcount, Multiset.coe_nil, add_zero]
        exact iff_of_true rfl trivial
      | some top =>
        simp only
        by_cases hpos : 0 < last.2.repeatCount
        · have hlast : top = last := by
            rw [filter_append, List.getLast?_append] at htop
            simpa [hpos] using htop.symm
          rw [if_pos (.inl hpos), if_pos hpos, if_pos (.inl hpos), slotFiles_writtenSlot, hlast,
            right_eq_add]
          exact Multiset.coe_eq_zero _
        · rw [if_neg hpos, Multiset.coe_nil, add_zero]
          by_cases hle : snapshot.getD 0 ≤ top.1
          · rw [if_pos (.inr hle), slotFiles_writtenSlot, if_neg (by omega), Multiset.coe_eq_coe,
              perm_comm, perm_singleton]
          · rw [if_neg (by omega), if_pos (.inr (by omega)), eq_comm]
            exact Multiset.coe_eq_zero _
    · rw [if_neg hnone, decide_eq_true hnone, foldl_overrideStep_others, ← Multiset.coe_eq_coe,
        hothers]
      · set others := fun e : Entry (Source D K) (RowValues V) =>
          !(decide (0 < last.2.repeatCount) && decide (e.source = writer) &&
            decide (e.files = [last.2]))
        have hwriter : slotFiles ((slot d key writer).filter others) =
            if 0 < last.2.repeatCount ∧ d.getArraySourceKey writer key = [last.2] then []
            else d.getArraySourceKey writer key := by
          rw [← slotFiles_slot h.1]
          cases hs : slot d key writer with
          | none => simp [slotFiles]
          | some e =>
            have hsource := ((slot_eq_some h.1).mp hs).2
            by_cases hand : 0 < last.2.repeatCount ∧ e.files = [last.2]
            · simp [others, Option.filter_some, slotFiles, hsource, hand.1, hand.2]
            · have hkeep : others e = true := by
                rw [not_and_or] at hand
                simpa [others, hsource] using hand
              rw [Option.filter_some, if_pos hkeep]
              exact (if_neg hand).symm
        rw [hwriter]
        by_cases hpos : 0 < last.2.repeatCount
        · by_cases heq : d.getArraySourceKey writer key = [last.2]
          · rw [if_neg fun hand => hand.2 heq.symm, if_pos hpos, if_pos ⟨hpos, heq⟩, heq,
              Multiset.coe_nil, zero_add, zero_add, add_comm, add_left_inj]
          · rw [if_pos ⟨hpos, fun hsym => heq hsym.symm⟩, if_pos hpos, if_neg fun hand => heq hand.2,
              add_comm, add_left_inj]
        · rw [if_neg fun hand => hpos hand.1, if_neg hpos, if_neg fun hand => hpos hand.1,
            Multiset.coe_nil, zero_add, add_zero]
      · intro e he
        simp [he]

end Rows

/-- A directory after a run from its creation, with the tick of its context. No key and source was
written twice when it was created. -/
def Reached (s : EagerDir.Clocked D K (RowValues V)) : Prop :=
  ∃ (c : EagerDir.Creation D K (RowValues V)) (s₀ : EagerDir.Clocked D K (RowValues V))
    (steps : List (EagerDir.Step D K (RowValues V))),
    (c.writes.map fun w => (w.1, w.2.2)).Nodup ∧ c.make = some s₀ ∧ s₀.run steps = some s

theorem writable_run {s s' : EagerDir.Clocked D K (RowValues V)}
    {steps : List (EagerDir.Step D K (RowValues V))} (h : s.dir.Writable s.now)
    (hrun : s.run steps = some s') : s'.dir.Writable s'.now := by
  induction steps generalizing s with
  | nil =>
    rw [← Option.some.inj hrun]
    exact h
  | cons st rest ih =>
    unfold EagerDir.Clocked.run at hrun
    rw [foldlM_cons] at hrun
    obtain ⟨s₁, hs₁, hrest⟩ := Option.bind_eq_some_iff.mp hrun
    exact ih (EagerDir.writable_step h hs₁) hrest

theorem Reached.writable {s : EagerDir.Clocked D K (RowValues V)} (h : Reached s) :
    s.dir.Writable s.now := by
  obtain ⟨c, s₀, steps, hnodup, hmake, hrun⟩ := h
  exact writable_run (EagerDir.make_valid hnodup hmake) hrun

/-- The counter of a directory stays exact under an override exactly when the override's source
has values where the source that is written has; a removal is one for the override's source
only; and a diff of a legacy schema leaves the same rows as without the override exactly when
each of its keys meets `SameRows`. -/
theorem override_writes_iff {s : EagerDir.Clocked D K (RowValues V)} (hs : Reached s)
    (override : Source D K) :
    (∀ (origSource writer : Source D K) (k : K) (rvalues : List (RowValues V)),
      s.dir.Counted →
        ((s.dir.writeEntry ⟨s.now, some override⟩ origSource writer k rvalues).Counted ↔
          (rvalues ≠ s.dir.getArraySourceKey origSource k →
            (s.dir.getArraySourceKey override k = [] ↔
              s.dir.getArraySourceKey origSource k = [])))) ∧
    (∀ (origSource writer : Source D K) (k : K),
      (s.dir.writeEntry ⟨s.now, some override⟩ origSource writer k []).getArraySourceKey origSource
          k = [] ↔
        override = origSource ∨ s.dir.getArraySourceKey origSource k = []) ∧
    (∀ (rowKey : List (Option V) → K) (snapshot : Option ℕ) (writer : Source D K) (original : V)
        (translationIndices : List (Option ℕ)) (legacyRows : List (RowValues V)),
      override ≠ writer →
        let rows := legacyRows.map (extractedRow original translationIndices)
        (∀ key, ((assignRows rowKey snapshot writer (some override) s.now rows s.dir).filesOf
            key).Perm
          ((assignRows rowKey snapshot writer none s.now rows s.dir).filesOf key)) ↔
        ∀ key, SameRows snapshot writer override s.dir key (rowsAt rowKey key s.now rows)) := by
  have hw := hs.writable
  refine ⟨?_, ?_, ?_⟩
  · intro origSource writer k rvalues hcount
    exact counted_writeEntry_iff hcount hw.1.sound
  · intro origSource writer k
    exact deleted_iff hw.1.sound s.now override origSource writer k
  · intro rowKey snapshot writer original translationIndices legacyRows hdiff
    apply forall_congr'
    intro key
    exact filesOf_perm_iff hdiff _ hw key

def insertedRow : EagerDir.Creation ℕ PlainKey (RowValues ℤ) where
  dirName := 1
  input := true
  tick := 0
  creator := none
  writes := [(.iid 7, [⟨[some 7], 1⟩], EagerDir.sampleSource 1)]
  oldVec := [(EagerDir.sampleSource 1, .single (.iid 7))]
  reducer := none

def sampleKey (values : List (Option ℤ)) : PlainKey := .iid ((values.getD 0 none).getD 0)

theorem insertedRow_reached : ∃ s, insertedRow.make = some s ∧ Reached s ∧ s.dir.Counted ∧
    s.dir.getArraySourceKey (EagerDir.sampleSource 1) (.iid 7) ≠ [] ∧
      s.dir.getArraySourceKey (EagerDir.sampleSource 2) (.iid 7) = [] := by
  obtain ⟨s, hs, _⟩ := EagerDir.make_inv (c := insertedRow) ⟨by decide, by decide, rfl⟩
  have hexact : insertedRow.Exact := ⟨by decide, by decide⟩
  refine ⟨s, hs, ⟨insertedRow, s, [], hexact.distinct, hs, rfl⟩, EagerDir.counted_make hexact hs,
    ?_, ?_⟩
  · exact (EagerDir.mem_valued_make hs (.iid 7, EagerDir.sampleSource 1)).mpr
      ⟨_, mem_singleton.mpr rfl, rfl, by decide⟩
  · by_contra hne
    obtain ⟨w, hw, hp, _⟩ :=
      (EagerDir.mem_valued_make hs (.iid 7, EagerDir.sampleSource 2)).mp hne
    rw [mem_singleton.mp hw] at hp
    exact absurd (congrArg Prod.snd hp) (by decide)

theorem removed_not_same {s : EagerDir.Clocked ℕ PlainKey (RowValues ℤ)} (h : Reached s)
    (hlive : s.dir.getArraySourceKey (EagerDir.sampleSource 1) (.iid 7) ≠ [])
    (hnone : s.dir.getArraySourceKey (EagerDir.sampleSource 2) (.iid 7) = []) :
    ¬SameRows none (EagerDir.sampleSource 1) (EagerDir.sampleSource 2) s.dir (.iid 7)
      (rowsAt sampleKey (.iid 7) s.now [⟨[some 7], 0⟩]) := by
  have hw := h.writable
  intro hsame
  obtain ⟨e, he⟩ := Option.ne_none_iff_exists'.mp fun hslot => hlive ((slot_eq_none hw.1).mp hslot)
  have hl := (slot_eq_some hw.1).mp he
  have hdiff : EagerDir.sampleSource 1 ≠ EagerDir.sampleSource 2 := by decide
  have hmem : e ∈ othersReplaced none (EagerDir.sampleSource 1) (EagerDir.sampleSource 2) s.dir
      (.iid 7) := by
    apply mem_filter.mpr
    exact ⟨hl.1, by simp [isReplaced, hl.2, hdiff]⟩
  have hkept : keptRows none (EagerDir.sampleSource 2) s.dir (.iid 7) = [] := by
    rw [keptRows, (slot_eq_none hw.1).mpr hnone]
    rfl
  have hrows : rowsAt sampleKey (.iid 7) s.now [⟨[some 7], 0⟩] =
      [(s.now, (⟨[some 7], 0⟩ : RowValues ℤ))] := if_pos rfl
  rw [hrows, SameRows, List.getLast?_singleton] at hsame
  simp only at hsame
  rw [if_neg (ne_nil_of_mem hmem), hkept, perm_nil, flatMap_eq_nil_iff] at hsame
  exact ((live_iff hw.1).mp hl.1).2 (hsame e (mem_filter.mpr ⟨hmem, by simp⟩))

theorem override_writes_inserted :
    ∃ s, insertedRow.make = some s ∧ Reached s ∧
      ¬(s.dir.writeEntry ⟨s.now, some (EagerDir.sampleSource 2)⟩ (EagerDir.sampleSource 1)
        (EagerDir.sampleSource 1) (.iid 7) []).Counted ∧
      (s.dir.writeEntry ⟨s.now, some (EagerDir.sampleSource 1)⟩ (EagerDir.sampleSource 1)
        (EagerDir.sampleSource 1) (.iid 7) []).getArraySourceKey (EagerDir.sampleSource 1) (.iid 7) =
          [] ∧
      ¬∀ key, ((assignRows sampleKey none (EagerDir.sampleSource 1) (some (EagerDir.sampleSource 2))
          s.now ([⟨[some 1, some 7], 0⟩].map (extractedRow 0 [some 1])) s.dir).filesOf key).Perm
        ((assignRows sampleKey none (EagerDir.sampleSource 1) none s.now
          ([⟨[some 1, some 7], 0⟩].map (extractedRow 0 [some 1])) s.dir).filesOf key) := by
  obtain ⟨s, hs, hreached, hcount, hlive, hnone⟩ := insertedRow_reached
  refine ⟨s, hs, hreached, ?_, ?_, ?_⟩
  · rw [(override_writes_iff hreached (EagerDir.sampleSource 2)).1 (EagerDir.sampleSource 1)
      (EagerDir.sampleSource 1) (.iid 7) [] hcount]
    intro hsame
    exact hlive ((hsame hlive.symm).mp hnone)
  · rw [(override_writes_iff hreached (EagerDir.sampleSource 1)).2.1]
    exact .inl rfl
  · have hiff := (override_writes_iff hreached (EagerDir.sampleSource 2)).2.2 sampleKey none
      (EagerDir.sampleSource 1) 0 [some 1] [⟨[some 1, some 7], 0⟩] (by decide)
    exact fun hperm => removed_not_same hreached hlive hnone (hiff.mp hperm (.iid 7))

/-- The row is removed by a diff that comes under the override: it stays, and the counter of the
directory goes down. -/
theorem override_keeps_removed :
    ∃ s, insertedRow.make = some s ∧ Reached s ∧ s.dir.Counted ∧
      (let d := s.dir.writeEntry ⟨s.now, some (EagerDir.sampleSource 2)⟩ (EagerDir.sampleSource 1)
        (EagerDir.sampleSource 1) (.iid 7) []
      d.getArraySourceKey (EagerDir.sampleSource 1) (.iid 7) ≠ [] ∧ ¬d.Counted) ∧
      ¬((assignRows sampleKey none (EagerDir.sampleSource 1) (some (EagerDir.sampleSource 2)) s.now
          [⟨[some 7], 0⟩] s.dir).filesOf (.iid 7)).Perm
        ((assignRows sampleKey none (EagerDir.sampleSource 1) none s.now
          [⟨[some 7], 0⟩] s.dir).filesOf (.iid 7)) := by
  obtain ⟨s, hs, hreached, hcount, hlive, hnone⟩ := insertedRow_reached
  have hdiff : EagerDir.sampleSource 2 ≠ EagerDir.sampleSource 1 := by decide
  have hw := hreached.writable
  refine ⟨s, hs, hreached, hcount, ⟨?_, ?_⟩, ?_⟩
  · rw [Ne, deleted_iff hw.1.sound]
    exact not_or.mpr ⟨hdiff, hlive⟩
  · rw [counted_writeEntry_iff hcount hw.1.sound]
    intro hsame
    exact hlive ((hsame hlive.symm).mp hnone)
  · rw [filesOf_perm_iff hdiff _ hw]
    exact removed_not_same hreached hlive hnone

end SkipPlatform.SqlOverride
