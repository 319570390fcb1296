import Mathlib.Algebra.Order.Group.Int
import Mathlib.Tactic.Positivity
import Mathlib.Tactic.Ring
import SkipPlatform.FieldLayout
import SkipPlatform.Fuel

set_option autoImplicit false
set_option linter.unusedSectionVars false

/-! The slots of a class do not overlap, whatever was searched for before, and the search for an
offset that several classes have free comes to an end. -/
namespace SkipPlatform.FieldLayout
open List

theorem ldiff_mask (x k : ℕ) : Nat.ldiff x (2 ^ k - 1) = x / 2 ^ k * 2 ^ k := by
  apply Nat.eq_of_testBit_eq
  intro i
  rw [Nat.testBit_ldiff, Nat.testBit_two_pow_sub_one, Nat.testBit_mul_two_pow, Nat.testBit_div_two_pow]
  by_cases hi : k ≤ i
  · have hlt : ¬i < k := by omega
    simp [hi, hlt, Nat.sub_add_cancel hi]
  · have hlt : i < k := by omega
    simp [hi, hlt]

theorem neg_two_pow (k : ℕ) : -(2 ^ k : ℤ) = Int.negSucc (2 ^ k - 1) := by
  have hpos : 1 ≤ 2 ^ k := Nat.one_le_two_pow
  rw [Int.negSucc_eq]
  push_cast [Nat.cast_sub hpos]
  ring

theorem land_neg (x : ℕ) (k : ℕ) : (x : ℤ).land (-(2 ^ k)) = ((x / 2 ^ k * 2 ^ k : ℕ) : ℤ) := by
  rw [neg_two_pow, ← ldiff_mask]
  rfl

theorem roundUp_eq {a : ℤ} (ha : 0 ≤ a) (k : ℕ) :
    roundUp a (2 ^ k) = (a + 2 ^ k - 1) / 2 ^ k * 2 ^ k := by
  obtain ⟨n, hn⟩ := Int.eq_ofNat_of_zero_le ha
  have hpos : 1 ≤ 2 ^ k := Nat.one_le_two_pow
  have hsum : a + 2 ^ k - 1 = ((n + 2 ^ k - 1 : ℕ) : ℤ) := by
    rw [hn]
    push_cast [Nat.cast_sub (by omega : 1 ≤ n + 2 ^ k)]
    ring
  unfold roundUp
  rw [hsum, land_neg]
  push_cast
  rfl

theorem le_roundUp {a : ℤ} (ha : 0 ≤ a) (k : ℕ) : a ≤ roundUp a (2 ^ k) := by
  rw [roundUp_eq ha]
  have hpos : (0 : ℤ) < 2 ^ k := by positivity
  have hmod := Int.emod_lt_of_pos (a + 2 ^ k - 1) hpos
  have hdiv := Int.mul_ediv_add_emod (a + 2 ^ k - 1) (2 ^ k)
  rw [mul_comm] at hdiv
  omega

theorem dvd_roundUp {a : ℤ} (ha : 0 ≤ a) (k : ℕ) : 2 ^ k ∣ roundUp a (2 ^ k) := by
  rw [roundUp_eq ha]
  exact Dvd.intro_left _ rfl

theorem roundUp_le {a y : ℤ} (ha : 0 ≤ a) {k : ℕ} (hy : 2 ^ k ∣ y) (hle : a ≤ y) :
    roundUp a (2 ^ k) ≤ y := by
  rw [roundUp_eq ha]
  have hpos : (0 : ℤ) < 2 ^ k := by positivity
  obtain ⟨q, hq⟩ := hy
  have hdiv : (a + 2 ^ k - 1) / 2 ^ k ≤ q := by
    apply Int.le_of_lt_add_one
    apply Int.ediv_lt_of_lt_mul hpos
    rw [hq] at hle
    have hexpand : (q + 1) * 2 ^ k = 2 ^ k * q + 2 ^ k := by ring
    omega
  calc (a + 2 ^ k - 1) / 2 ^ k * 2 ^ k ≤ q * 2 ^ k := by
        exact mul_le_mul_of_nonneg_right hdiv hpos.le
    _ = y := by
        rw [hq]
        ring

theorem crosses_iff {n last : ℤ} (hn : 0 ≤ n) (hl : 0 ≤ last) :
    (n.xor last).land (-64) ≠ 0 ↔ n / 64 ≠ last / 64 := by
  obtain ⟨a, ha⟩ := Int.eq_ofNat_of_zero_le hn
  obtain ⟨b, hb⟩ := Int.eq_ofNat_of_zero_le hl
  have hxor : n.xor last = ((a ^^^ b : ℕ) : ℤ) := by
    rw [ha, hb]
    rfl
  have hsix : (-64 : ℤ) = -(2 ^ 6) := by norm_num
  have hdiv : (a ^^^ b) / 2 ^ 6 = 0 ↔ a / 64 = b / 64 := by
    rw [← Nat.shiftRight_eq_div_pow, Nat.shiftRight_xor_distrib, Nat.xor_eq_zero_iff,
      Nat.shiftRight_eq_div_pow, Nat.shiftRight_eq_div_pow]
  rw [hxor, hsix, land_neg, Ne, Int.natCast_eq_zero, Nat.mul_eq_zero, hdiv, ha, hb]
  norm_num
  omega

/-- Where a field may be put, as far as the field alone is concerned. -/
structure Placed (typ : ScalarType) (offset : ℤ) : Prop where
  nonneg : 0 ≤ offset
  aligned : typ.bitAlignment ∣ offset
  word : typ.bitSize ≤ 64 → offset / 64 = (offset + typ.bitSize - 1) / 64

variable {typ : ScalarType}

theorem alignField_cases (hsize : 0 < typ.bitSize) {offset : ℤ}
    (ho : 0 ≤ offset) :
    let n := roundUp offset typ.bitAlignment
    alignField offset typ false =
      if n / 64 ≠ (n + typ.bitSize - 1) / 64 ∧ typ.bitSize ≤ 64 then roundUp n (2 ^ 6) else n := by
  intro n
  obtain ⟨k, _, hk⟩ := typ.aligned
  have hn : 0 ≤ n := by
    have hle := le_roundUp ho k
    rw [← hk] at hle
    omega
  have hlast : 0 ≤ n + typ.bitSize - 1 := by omega
  have hcross := crosses_iff hn hlast
  unfold alignField
  simp only [Bool.false_eq_true, false_and, if_false]
  exact if_congr (and_congr hcross Iff.rfl) rfl rfl

theorem alignField_placed (hsize : 0 < typ.bitSize) {offset : ℤ}
    (ho : 0 ≤ offset) :
    offset ≤ alignField offset typ false ∧ Placed typ (alignField offset typ false) := by
  obtain ⟨k, hk6, hk⟩ := typ.aligned
  have hle := le_roundUp ho k
  have hdvd := dvd_roundUp ho k
  rw [← hk] at hle hdvd
  have hn : 0 ≤ roundUp offset typ.bitAlignment := by omega
  rw [alignField_cases hsize ho]
  split_ifs with hcross
  · have hup := le_roundUp hn 6
    have hword := dvd_roundUp hn 6
    have hsub : typ.bitAlignment ∣ 2 ^ 6 := hk ▸ pow_dvd_pow 2 hk6
    refine ⟨by omega, by omega, hsub.trans hword, ?_⟩
    · intro hle64
      obtain ⟨q, hq⟩ := hword
      omega
  · refine ⟨hle, hn, hdvd, ?_⟩
    intro hle64
    by_contra hne
    exact hcross ⟨hne, hle64⟩

theorem alignField_le (hsize : 0 < typ.bitSize) {offset y : ℤ} (ho : 0 ≤ offset)
    (hy : Placed typ y) (hle : offset ≤ y) : alignField offset typ false ≤ y := by
  obtain ⟨k, hk6, hk⟩ := typ.aligned
  have hstart := le_roundUp ho k
  rw [← hk] at hstart
  have hn : 0 ≤ roundUp offset typ.bitAlignment := by omega
  have hround : roundUp offset typ.bitAlignment ≤ y := by
    rw [hk]
    apply roundUp_le ho _ hle
    rw [← hk]
    exact hy.aligned
  rw [alignField_cases hsize ho]
  split_ifs with hcross
  · have hword := hy.word hcross.2
    have hup : roundUp (roundUp offset typ.bitAlignment) (2 ^ 6) ≤ (y / 64) * 64 := by
      apply roundUp_le hn
      · exact Dvd.intro_left _ rfl
      · omega
    omega
  · exact hround

variable {N : Type}

/-- Slots in their order, without overlaps. A slot without bits is anywhere before the others. -/
structure Packed (slots : List (LayoutSlot N)) : Prop where
  apart : slots.Pairwise fun a b => a.endBitOffset ≤ b.bitOffset
  nonneg : ∀ s ∈ slots, 0 ≤ s.bitOffset
  placed : ∀ s ∈ slots, s.typ.bitSize ≠ 0 → Placed s.typ s.bitOffset

/-- A field can be put at `offset`, before the slot that `index` has. -/
structure Fits (slots : List (LayoutSlot N)) (index : ℕ) (offset : ℤ) (typ : ScalarType) : Prop where
  bounded : index ≤ slots.length
  nonneg : 0 ≤ offset
  placed : typ.bitSize ≠ 0 → Placed typ offset
  before : ∀ s ∈ slots.take index, s.endBitOffset ≤ offset
  after : ∀ s ∈ slots.drop index, offset + typ.bitSize ≤ s.bitOffset

theorem le_endBitOffset (s : LayoutSlot N) : s.bitOffset ≤ s.endBitOffset := by
  have h := s.typ.nonneg
  unfold LayoutSlot.endBitOffset
  omega

theorem insertIdx_split {α : Type} (l : List α) (a : α) {i : ℕ} (hi : i ≤ l.length) :
    l.insertIdx i a = l.take i ++ a :: l.drop i := by
  induction l generalizing i with
  | nil =>
    have hzero : i = 0 := by simpa using hi
    rw [hzero]
    rfl
  | cons b rest ih =>
    cases i with
    | zero => rfl
    | succ i =>
      rw [insertIdx_succ_cons, ih (by simpa using hi)]
      rfl

theorem Packed.insert {slots : List (LayoutSlot N)} (h : Packed slots) {index : ℕ} {offset : ℤ}
    (hfits : Fits slots index offset typ) (name : N) :
    Packed (slots.insertIdx index ⟨name, offset, typ⟩) := by
  have hmem : ∀ s ∈ slots.insertIdx index ⟨name, offset, typ⟩,
      s = ⟨name, offset, typ⟩ ∨ s ∈ slots := by
    intro s hs
    exact mem_cons.mp ((perm_insertIdx _ _ hfits.bounded).mem_iff.mp hs)
  constructor
  · rw [insertIdx_split _ _ hfits.bounded, pairwise_append, pairwise_cons]
    have hsplit := h.apart
    rw [← take_append_drop index slots, pairwise_append] at hsplit
    refine ⟨hsplit.1, ⟨hfits.after, hsplit.2.1⟩, ?_⟩
    intro a ha b hb
    cases mem_cons.mp hb with
    | inl heq =>
      rw [heq]
      exact hfits.before a ha
    | inr hin => exact hsplit.2.2 a ha b hin
  · intro s hs
    cases hmem s hs with
    | inl heq =>
      rw [heq]
      exact hfits.nonneg
    | inr hin => exact h.nonneg s hin
  · intro s hs
    cases hmem s hs with
    | inl heq =>
      rw [heq]
      exact hfits.placed
    | inr hin => exact h.placed s hin

namespace LayoutBuilder

/-- The scan from a slot on, when all slots before it end before `offset`. No place that is after
all slots is passed by. -/
theorem scan_spec {typ : ScalarType} (hsize : 0 < typ.bitSize) (rest : List (LayoutSlot N))
    (before : List (LayoutSlot N)) {offset : ℤ} (h : Packed (before ++ rest))
    (hbefore : ∀ s ∈ before, s.endBitOffset ≤ offset) (hplaced : Placed typ offset) :
    let r := scan typ rest before.length offset
    Fits (before ++ rest) r.2.1 r.2.2 typ ∧ (r.1 = false → r.2.1 = (before ++ rest).length) ∧
      offset ≤ r.2.2 ∧
      ∀ y, Placed typ y → offset ≤ y → (∀ s ∈ rest, s.endBitOffset ≤ y) → r.2.2 ≤ y := by
  induction rest generalizing before offset with
  | nil =>
    refine ⟨⟨by simp [scan], hplaced.nonneg, fun _ => hplaced, ?_, ?_⟩, fun _ => by simp [scan],
      le_refl _, fun y _ hle _ => hle⟩
    · intro s hs
      apply hbefore
      simpa [scan] using hs
    · intro s hs
      simp [scan] at hs
  | cons f rest ih =>
    by_cases hhole : offset + typ.bitSize ≤ f.bitOffset
    · have hscan : scan typ (f :: rest) before.length offset = (true, before.length, offset) := by
        rw [scan, if_pos hhole]
      rw [hscan]
      have hsplit := pairwise_append.mp h.apart
      refine ⟨⟨by simp, hplaced.nonneg, fun _ => hplaced, ?_, ?_⟩, by simp, le_refl _,
        fun y _ hle _ => hle⟩
      · intro s hs
        rw [take_left] at hs
        exact hbefore s hs
      · intro s hs
        rw [drop_left] at hs
        cases mem_cons.mp hs with
        | inl heq =>
          rw [heq]
          exact hhole
        | inr hin =>
          have hle := (pairwise_cons.mp hsplit.2.1).1 s hin
          have hself := le_endBitOffset f
          simp only
          omega
    · have hend : 0 ≤ f.endBitOffset :=
        (h.nonneg f (mem_append_right _ mem_cons_self)).trans (le_endBitOffset f)
      set next := if offset < f.endBitOffset then alignField f.endBitOffset typ false else offset
        with hnext
      have hstep : offset ≤ next ∧ f.endBitOffset ≤ next ∧ Placed typ next ∧
          ∀ y, Placed typ y → offset ≤ y → f.endBitOffset ≤ y → next ≤ y := by
        rw [hnext]
        split_ifs with hlt
        · obtain ⟨hle, hp⟩ := alignField_placed hsize hend
          exact ⟨by omega, hle, hp, fun y hy _ hy' => alignField_le hsize hend hy hy'⟩
        · exact ⟨le_refl _, by omega, hplaced, fun y _ hy _ => hy⟩
      have hscan : scan typ (f :: rest) before.length offset =
          scan typ rest (before ++ [f]).length next := by
        rw [scan, if_neg hhole, length_append]
        rfl
      have happend : before ++ f :: rest = (before ++ [f]) ++ rest := by simp
      have hinner := ih (before ++ [f]) (happend ▸ h) (by
        intro s hs
        cases mem_append.mp hs with
        | inl hin => exact (hbefore s hin).trans hstep.1
        | inr hin =>
          rw [mem_singleton.mp hin]
          exact hstep.2.1) hstep.2.2.1
      rw [hscan, happend]
      refine ⟨hinner.1, hinner.2.1, hstep.1.trans hinner.2.2.1, ?_⟩
      intro y hy hle hall
      apply hinner.2.2.2 y hy
      · exact hstep.2.2.2 y hy hle (hall f mem_cons_self)
      · exact fun s hs => hall s (mem_cons_of_mem f hs)

/-- What a search leaves: a place for the field, and what `reservePrevOffset` needs to put it
there. -/
structure Found (b : LayoutBuilder N) (start : ℤ) (typ : ScalarType) (r : ℤ × LayoutBuilder N) :
    Prop where
  fields : r.2.fields = b.fields
  prevType : r.2.prevType = typ
  fits : Fits b.fields r.2.prevIndex r.1 typ
  least : ∀ y, (typ.bitSize ≠ 0 → Placed typ y) → start ≤ y → 0 ≤ y →
    (∀ s ∈ b.fields, s.endBitOffset ≤ y) → r.1 ≤ y
  start : typ.bitSize ≠ 0 → start ≤ r.1
  zero : typ.bitSize = 0 → r.1 = 0

theorem startOffset_spec {b : LayoutBuilder N} (h : Packed b.fields) {index : ℕ}
    (hi : index ≤ b.fields.length) (start : ℤ) :
    start ≤ b.startOffset index start ∧
      (∀ s ∈ b.fields.take index, s.endBitOffset ≤ b.startOffset index start) ∧
      ∀ y, start ≤ y → (∀ s ∈ b.fields, s.endBitOffset ≤ y) → b.startOffset index start ≤ y := by
  unfold startOffset
  cases index with
  | zero => exact ⟨by simp, by simp, fun y hy _ => by simpa using hy⟩
  | succ i =>
    have hlt : i < b.fields.length := by omega
    rw [if_neg (Nat.succ_ne_zero i), Nat.add_sub_cancel, List.getElem?_eq_getElem hlt]
    simp only
    refine ⟨le_max_left _ _, ?_, ?_⟩
    · intro s hin
      have htake : b.fields.take (i + 1) = b.fields.take i ++ [b.fields[i]] := by
        rw [take_add_one, List.getElem?_eq_getElem hlt]
        rfl
      rw [htake] at hin
      have hle : s.endBitOffset ≤ b.fields[i].endBitOffset := by
        cases mem_append.mp hin with
        | inr hlast => rw [mem_singleton.mp hlast]
        | inl hearly =>
          have hsplit := h.apart
          rw [← take_append_drop i b.fields, pairwise_append] at hsplit
          have hdrop : b.fields[i] ∈ b.fields.drop i := by
            rw [drop_eq_getElem_cons hlt]
            exact mem_cons_self
          have hapart := hsplit.2.2 s hearly _ hdrop
          have hself := le_endBitOffset b.fields[i]
          omega
      exact hle.trans (le_max_right _ _)
    · intro y hy hall
      exact max_le hy (hall _ (getElem_mem hlt))

theorem findOffset_found {b : LayoutBuilder N} (h : Packed b.fields)
    (hb : b.prevIndex ≤ b.fields.length) {start : ℤ} (hs : 0 ≤ start) (typ : ScalarType) :
    Found b start typ (b.findOffset start typ) := by
  unfold findOffset
  by_cases hzero : typ.bitSize = 0
  · rw [if_pos hzero]
    refine ⟨rfl, rfl, ⟨by simp, le_refl _, fun hne => absurd hzero hne, by simp, ?_⟩,
      fun y _ _ hy _ => hy, fun hne => absurd hzero hne, fun _ => rfl⟩
    intro s hin
    have hle := h.nonneg s (by simpa using hin)
    simp only
    omega
  · rw [if_neg hzero]
    have hsize : 0 < typ.bitSize := lt_of_le_of_ne typ.nonneg (Ne.symm hzero)
    have hindex : b.startIndex typ ≤ b.fields.length := by
      unfold startIndex
      split_ifs
      · exact hb
      · exact Nat.zero_le _
    obtain ⟨hstart, hbefore, hleast⟩ := startOffset_spec h hindex start
    obtain ⟨halign, hplaced⟩ := alignField_placed hsize (hs.trans hstart)
    have hlen : (b.fields.take (b.startIndex typ)).length = b.startIndex typ := by
      rw [length_take]
      omega
    have hspec := scan_spec hsize (b.fields.drop (b.startIndex typ))
      (b.fields.take (b.startIndex typ)) (by rwa [take_append_drop])
      (fun s hin => (hbefore s hin).trans halign) hplaced
    rw [take_append_drop, hlen] at hspec
    have hbound : ∀ y, Placed typ y → start ≤ y → (∀ s ∈ b.fields, s.endBitOffset ≤ y) →
        (scan typ (b.fields.drop (b.startIndex typ)) (b.startIndex typ)
          (alignField (b.startOffset (b.startIndex typ) start) typ false)).2.2 ≤ y := by
      intro y hy hle hall
      apply hspec.2.2.2 y hy
      · exact alignField_le hsize (hs.trans hstart) hy (hleast y hle hall)
      · exact fun s hin => hall s (mem_of_mem_drop hin)
    simp only
    cases hscan : scan typ (b.fields.drop (b.startIndex typ)) (b.startIndex typ)
        (alignField (b.startOffset (b.startIndex typ) start) typ false) with
    | mk found r =>
      obtain ⟨index, offset⟩ := r
      rw [hscan] at hspec hbound
      cases found with
      | true =>
        exact ⟨rfl, rfl, hspec.1, fun y hy hle _ hall => hbound y (hy hzero) hle hall,
          fun _ => (hstart.trans halign).trans hspec.2.2.1, fun hz => absurd hz hzero⟩
      | false =>
        have hend : index = b.fields.length := hspec.2.1 rfl
        cases hlast : b.fields.getLast? with
        | none =>
          exact ⟨rfl, rfl, hspec.1, fun y hy hle _ hall => hbound y (hy hzero) hle hall,
            fun _ => (hstart.trans halign).trans hspec.2.2.1, fun hz => absurd hz hzero⟩
        | some last =>
          have hin : last ∈ b.fields := mem_of_getLast? hlast
          have hpos : 0 ≤ last.endBitOffset := (h.nonneg last hin).trans (le_endBitOffset last)
          obtain ⟨hle', hplaced'⟩ := alignField_placed hsize hpos
          have hfits : Placed typ offset := hspec.1.placed hzero
          refine ⟨rfl, rfl, ⟨le_refl _, ?_, ?_, ?_, ?_⟩, ?_, ?_, fun hz => absurd hz hzero⟩
          · exact hfits.nonneg.trans (le_max_left _ _)
          · intro _
            change Placed typ (max offset (alignField last.endBitOffset typ false))
            cases max_choice offset (alignField last.endBitOffset typ false) with
            | inl heq =>
              rw [heq]
              exact hfits
            | inr heq =>
              rw [heq]
              exact hplaced'
          · intro s hs'
            have hle := hspec.1.before s (by rwa [hend])
            exact hle.trans (le_max_left _ _)
          · intro s hs'
            rw [drop_length] at hs'
            exact absurd hs' (by simp)
          · intro y hy hle _ hall
            exact max_le (hbound y (hy hzero) hle hall)
              (alignField_le hsize hpos (hy hzero) (hall last hin))
          · intro _
            exact ((hstart.trans halign).trans hspec.2.2.1).trans (le_max_left _ _)

end LayoutBuilder

variable {ID : Type} [LinearOrder ID]

structure Sound (b : LayoutBuilder N) : Prop where
  packed : Packed b.fields
  bounded : b.prevIndex ≤ b.fields.length

/-- The last search of the class ended at `offset`. -/
structure Ready (typ : ScalarType) (offset : ℤ) (b : LayoutBuilder N) : Prop where
  prevType : b.prevType = typ
  fits : Fits b.fields b.prevIndex offset typ

structure Above (typ : ScalarType) (types : List ID) (builders : ID → LayoutBuilder N) (y : ℤ) :
    Prop where
  placed : typ.bitSize ≠ 0 → Placed typ y
  nonneg : 0 ≤ y
  after : ∀ sid ∈ types, ∀ s ∈ (builders sid).fields, s.endBitOffset ≤ y

/-- What holds during a search, of which `before` classes were asked in this pass and `start` is
the offset before it. -/
structure Searching (typ : ScalarType) (base : ID → LayoutBuilder N) (types before : List ID)
    (start y : ℤ) (s : Search ID N) : Prop where
  fields : ∀ sid, (s.builders sid).fields = (base sid).fields
  bounded : ∀ sid, (s.builders sid).prevIndex ≤ (base sid).fields.length
  others : ∀ sid, sid ∉ types → s.builders sid = base sid
  first : s.offset = -1 ∧ before = [] ∨ 0 ≤ s.offset
  started : start ≤ s.offset
  le : s.offset ≤ y
  zero : typ.bitSize = 0 → s.offset ≤ 0
  agreed : s.done = true → ∀ sid ∈ before, Ready typ s.offset (s.builders sid)
  progress : s.done = false → start < s.offset

theorem exists_above (typ : ScalarType) (types : List ID) (builders : ID → LayoutBuilder N) : ∃ y, Above typ types builders y := by
  have hbound : ∃ m : ℤ, 0 ≤ m ∧ ∀ sid ∈ types, ∀ s ∈ (builders sid).fields, s.endBitOffset ≤ m := by
    induction types with
    | nil => exact ⟨0, le_refl _, fun _ hin => absurd hin (by simp)⟩
    | cons sid rest ih =>
      obtain ⟨m, hm, hall⟩ := ih
      have hone : ∀ slots : List (LayoutSlot N), ∃ n : ℤ, m ≤ n ∧ ∀ s ∈ slots, s.endBitOffset ≤ n := by
        intro slots
        induction slots with
        | nil => exact ⟨m, le_refl _, fun _ hin => absurd hin (by simp)⟩
        | cons s rest ih =>
          obtain ⟨n, hn, hrest⟩ := ih
          refine ⟨max n s.endBitOffset, hn.trans (le_max_left _ _), ?_⟩
          intro s' hs'
          cases mem_cons.mp hs' with
          | inl heq =>
            rw [heq]
            exact le_max_right _ _
          | inr hin => exact (hrest s' hin).trans (le_max_left _ _)
      obtain ⟨n, hn, hslots⟩ := hone (builders sid).fields
      refine ⟨n, hm.trans hn, ?_⟩
      intro sid' hsid s hs
      cases mem_cons.mp hsid with
      | inl heq =>
        rw [heq] at hs
        exact hslots s hs
      | inr hin => exact (hall sid' hin s hs).trans hn
  obtain ⟨m, hm, hall⟩ := hbound
  by_cases hzero : typ.bitSize = 0
  · exact ⟨m, fun hne => absurd hzero hne, hm, hall⟩
  · have hsize : 0 < typ.bitSize := lt_of_le_of_ne typ.nonneg (Ne.symm hzero)
    obtain ⟨hle, hplaced⟩ := alignField_placed hsize hm
    exact ⟨alignField m typ false, fun _ => hplaced, hm.trans hle,
      fun sid hsid s hs => (hall sid hsid s hs).trans hle⟩

theorem Searching.step {typ : ScalarType} {base : ID → LayoutBuilder N} {types before : List ID}
    {start y : ℤ} {s : Search ID N} (hbase : ∀ sid, Sound (base sid)) (hy : Above typ types base y)
    (h : Searching typ base types before start y s) {sid : ID} (hsid : sid ∈ types) :
    Searching typ base types (before ++ [sid]) start y (searchClass typ s sid) := by
  have hpacked : Packed (s.builders sid).fields := by
    rw [h.fields]
    exact (hbase sid).packed
  have hbounded : (s.builders sid).prevIndex ≤ (s.builders sid).fields.length := by
    rw [h.fields]
    exact h.bounded sid
  have hfound := LayoutBuilder.findOffset_found hpacked hbounded (le_max_right s.offset 0) typ
  set r := (s.builders sid).findOffset (max s.offset 0) typ with hr
  have hfields : ∀ sid', (Function.update s.builders sid r.2 sid').fields = (base sid').fields := by
    intro sid'
    by_cases heq : sid' = sid
    · rw [heq, Function.update_self, hfound.fields, h.fields]
    · rw [Function.update_of_ne heq, h.fields]
  have hbounds : ∀ sid', (Function.update s.builders sid r.2 sid').prevIndex ≤
      (base sid').fields.length := by
    intro sid'
    by_cases heq : sid' = sid
    · rw [heq, Function.update_self, ← h.fields]
      exact hfound.fits.bounded
    · rw [Function.update_of_ne heq]
      exact h.bounded sid'
  have hothers : ∀ sid', sid' ∉ types → Function.update s.builders sid r.2 sid' = base sid' := by
    intro sid' hout
    have hne : sid' ≠ sid := fun heq => hout (heq ▸ hsid)
    rw [Function.update_of_ne hne]
    exact h.others sid' hout
  have hnonneg : 0 ≤ r.1 := hfound.fits.nonneg
  have hge : s.offset ≤ r.1 := by
    by_cases hzero : typ.bitSize = 0
    · rw [hfound.zero hzero]
      exact h.zero hzero
    · exact (le_max_left _ _).trans (hfound.start hzero)
  have hle : r.1 ≤ y := by
    apply hfound.least y hy.placed (max_le h.le hy.nonneg) hy.nonneg
    intro slot hslot
    rw [h.fields] at hslot
    exact hy.after sid hsid slot hslot
  have hself : Ready typ r.1 (Function.update s.builders sid r.2 sid) := by
    rw [Function.update_self]
    exact ⟨hfound.prevType, hfound.fields ▸ hfound.fits⟩
  have hready : s.done = true → r.1 = s.offset → ∀ sid' ∈ before ++ [sid],
      Ready typ s.offset (Function.update s.builders sid r.2 sid') := by
    intro hdone heq sid' hin
    by_cases hsame : sid' = sid
    · rw [hsame, ← heq]
      exact hself
    · rw [Function.update_of_ne hsame]
      cases mem_append.mp hin with
      | inl hbefore => exact h.agreed hdone sid' hbefore
      | inr hlast => exact absurd (mem_singleton.mp hlast) hsame
  unfold searchClass
  simp only [← hr]
  split_ifs with hne hpos
  · refine ⟨hfields, hbounds, hothers, .inr hnonneg, h.started.trans hge, hle, ?_, ?_, ?_⟩
    · exact fun hzero => (hfound.zero hzero).le
    · exact fun hdone => absurd hdone (by simp)
    · intro _
      have hlt : s.offset < r.1 := lt_of_le_of_ne hge (Ne.symm hne)
      exact lt_of_le_of_lt h.started hlt
  · refine ⟨hfields, hbounds, hothers, .inr hnonneg, h.started.trans hge, hle, ?_, ?_, ?_⟩
    · exact fun hzero => (hfound.zero hzero).le
    · intro _ sid' hin
      have hnil : before = [] := by
        cases h.first with
        | inl hfirst => exact hfirst.2
        | inr hge' => exact absurd hge' hpos
      rw [hnil] at hin
      rw [mem_singleton.mp hin]
      exact hself
    · exact fun hdone => lt_of_lt_of_le (h.progress hdone) hge
  · have heq : r.1 = s.offset := not_not.mp hne
    refine ⟨hfields, hbounds, hothers, .inr (heq ▸ hnonneg), h.started, h.le, h.zero, ?_, h.progress⟩
    exact fun hdone => hready hdone heq

theorem Searching.pass {base : ID → LayoutBuilder N} {types : List ID}
    {start y : ℤ} (hbase : ∀ sid, Sound (base sid)) (hy : Above typ types base y) (rest : List ID)
    {before : List ID} {s : Search ID N} (h : Searching typ base types before start y s)
    (hsub : ∀ sid ∈ rest, sid ∈ types) :
    Searching typ base types (before ++ rest) start y (rest.foldl (searchClass typ) s) := by
  induction rest generalizing before s with
  | nil =>
    rw [append_nil]
    exact h
  | cons sid rest ih =>
    have hstep := h.step hbase hy (hsub sid mem_cons_self)
    have hrest := ih hstep fun sid' hin => hsub sid' (mem_cons_of_mem sid hin)
    rw [append_assoc] at hrest
    exact hrest

theorem searchLoop_ends {base : ID → LayoutBuilder N} {types : List ID} {y : ℤ}
    (hbase : ∀ sid, Sound (base sid)) (hy : Above typ types base y) (size : ℕ) {s : Search ID N}
    (h : Searching typ base types [] s.offset y { s with done := true })
    (hsize : (y - s.offset).toNat < size) :
    ∃ s', Fuel.Ends (fun fuel => searchLoop typ types fuel s) s' ∧
      (∀ sid ∈ types, Ready typ s'.offset (s'.builders sid)) ∧
      (∀ sid, (s'.builders sid).fields = (base sid).fields) ∧
      ∀ sid, sid ∉ types → s'.builders sid = base sid := by
  induction size generalizing s with
  | zero => exact absurd hsize (by omega)
  | succ size ih =>
    set s₁ := types.foldl (searchClass typ) { s with done := true } with hs₁
    have hpass : Searching typ base types ([] ++ types) s.offset y s₁ :=
      Searching.pass hbase hy types h fun _ hin => hin
    cases hdone : s₁.done with
    | true =>
      refine ⟨s₁, ⟨1, ?_⟩, ?_, hpass.fields, hpass.others⟩
      · intro fuel hle
        cases fuel with
        | zero => exact absurd hle (by omega)
        | succ fuel =>
          change searchLoop typ types (fuel + 1) s = some s₁
          rw [searchLoop]
          simp only [← hs₁]
          rw [if_pos hdone]
      · intro sid hin
        exact hpass.agreed hdone sid (by simpa using hin)
    | false =>
      have hprogress := hpass.progress hdone
      have hle := hpass.le
      have hnext : Searching typ base types [] s₁.offset y { s₁ with done := true } := by
        refine ⟨hpass.fields, hpass.bounded, hpass.others, ?_, le_refl _, hpass.le, hpass.zero,
          fun _ _ hin => absurd hin (by simp), fun hno => absurd hno (by simp)⟩
        cases hpass.first with
        | inl hfirst => exact .inl ⟨hfirst.1, rfl⟩
        | inr hge => exact .inr hge
      obtain ⟨s', hends, hrest⟩ := ih hnext (by omega)
      refine ⟨s', Fuel.Ends.succ ?_ hends, hrest⟩
      intro fuel
      rw [searchLoop]
      simp only [← hs₁]
      rw [if_neg (by rw [hdone]; exact Bool.false_ne_true)]

/-- A constraint puts one slot into each of its classes, at one offset. -/
structure Assigned (constraint : FieldLayoutConstraint ID N) (offset : ℤ)
    (builders builders' : ID → LayoutBuilder N) : Prop where
  sound : ∀ sid, Sound (builders' sid)
  others : ∀ sid, sid ∉ constraint.types → builders' sid = builders sid
  slots : ∀ sid ∈ constraint.types, (builders' sid).fields.Perm
    (⟨constraint.name, offset, constraint.typ⟩ :: (builders sid).fields)

theorem reserveClass_self (name : N) (offset : ℤ) (needReset : Bool)
    (builders : ID → LayoutBuilder N) (sid : ID) :
    reserveClass name offset needReset builders sid sid =
      (builders sid).reservePrevOffset name offset needReset := Function.update_self ..

theorem reserve_spec (name : N) (offset : ℤ) (needReset : Bool) (types : List ID)
    (hnodup : types.Nodup) (builders : ID → LayoutBuilder N) (sid : ID) :
    types.foldl (reserveClass name offset needReset) builders sid =
      if sid ∈ types then (builders sid).reservePrevOffset name offset needReset
      else builders sid := by
  induction types generalizing builders with
  | nil => rfl
  | cons first rest ih =>
    have hparts := nodup_cons.mp hnodup
    rw [foldl_cons, ih hparts.2]
    by_cases heq : sid = first
    · rw [if_neg (heq ▸ hparts.1), if_pos (heq ▸ mem_cons_self), heq, reserveClass_self]
    · have hne : reserveClass name offset needReset builders first sid = builders sid :=
        Function.update_of_ne heq _ _
      rw [hne]
      simp only [mem_cons, heq, false_or]

theorem assignConstraint_ends {builders : ID → LayoutBuilder N}
    {constraint : FieldLayoutConstraint ID N} (hbase : ∀ sid, Sound (builders sid))
    (hnodup : constraint.types.Nodup) :
    ∃ builders' offset, Fuel.Ends (fun fuel => assignConstraint fuel builders constraint) builders' ∧
      Assigned constraint offset builders builders' := by
  obtain ⟨y, hy⟩ := exists_above constraint.typ constraint.types builders
  have hstart : Searching constraint.typ builders constraint.types [] (-1) y
      (⟨-1, true, false, builders⟩ : Search ID N) :=
    ⟨fun _ => rfl, fun sid => (hbase sid).bounded, fun _ _ => rfl, .inl ⟨rfl, rfl⟩, le_refl _,
      (by decide : (-1 : ℤ) ≤ 0).trans hy.nonneg, fun _ => (by decide : (-1 : ℤ) ≤ 0),
      fun _ _ hin => absurd hin (by simp), fun hno => absurd hno (by simp)⟩
  obtain ⟨s, hends, hready, hfields, hothers⟩ := searchLoop_ends hbase hy
    ((y - -1).toNat + 1) (s := ⟨-1, false, false, builders⟩) hstart (Nat.lt_succ_self _)
  refine ⟨_, s.offset, hends.map fun s =>
    constraint.types.foldl (reserveClass constraint.name s.offset s.needReset) s.builders, ?_⟩
  have hinserted : ∀ sid ∈ constraint.types,
      ((s.builders sid).reservePrevOffset constraint.name s.offset s.needReset).fields =
        (builders sid).fields.insertIdx (s.builders sid).prevIndex
          ⟨constraint.name, s.offset, constraint.typ⟩ := by
    intro sid hin
    unfold LayoutBuilder.reservePrevOffset
    simp only
    rw [(hready sid hin).prevType, hfields]
  have hfits : ∀ sid ∈ constraint.types,
      Fits (builders sid).fields (s.builders sid).prevIndex s.offset constraint.typ := by
    intro sid hin
    rw [← hfields]
    exact (hready sid hin).fits
  constructor
  · intro sid
    rw [reserve_spec _ _ _ _ hnodup]
    by_cases hin : sid ∈ constraint.types
    · rw [if_pos hin]
      constructor
      · rw [hinserted sid hin]
        exact (hbase sid).packed.insert (hfits sid hin) constraint.name
      · rw [hinserted sid hin, length_insertIdx_of_le_length (hfits sid hin).bounded]
        have hbound := (hfits sid hin).bounded
        unfold LayoutBuilder.reservePrevOffset
        simp only
        split_ifs <;> omega
    · rw [if_neg hin, hothers sid hin]
      exact hbase sid
  · intro sid hout
    rw [reserve_spec _ _ _ _ hnodup, if_neg hout, hothers sid hout]
  · intro sid hin
    rw [reserve_spec _ _ _ _ hnodup, if_pos hin, hinserted sid hin]
    exact perm_insertIdx _ _ (hfits sid hin).bounded

end SkipPlatform.FieldLayout
