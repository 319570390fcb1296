import Mathlib.Data.Int.Bitwise
import Mathlib.Data.List.Basic

set_option autoImplicit false

/-! Bytes as text in groups of four characters, and texts read back. -/
namespace SkipPlatform.Base64
open List

def standardBase64 : List Char := [
  'A', 'B', 'C', 'D', 'E', 'F', 'G', 'H', 'I', 'J', 'K', 'L', 'M', 'N', 'O', 'P', 'Q', 'R', 'S',
  'T', 'U', 'V', 'W', 'X', 'Y', 'Z', 'a', 'b', 'c', 'd', 'e', 'f', 'g', 'h', 'i', 'j', 'k', 'l',
  'm', 'n', 'o', 'p', 'q', 'r', 's', 't', 'u', 'v', 'w', 'x', 'y', 'z', '0', '1', '2', '3', '4',
  '5', '6', '7', '8', '9', '+', '/']

def urlBase64 : List Char := [
  'A', 'B', 'C', 'D', 'E', 'F', 'G', 'H', 'I', 'J', 'K', 'L', 'M', 'N', 'O', 'P', 'Q', 'R', 'S',
  'T', 'U', 'V', 'W', 'X', 'Y', 'Z', 'a', 'b', 'c', 'd', 'e', 'f', 'g', 'h', 'i', 'j', 'k', 'l',
  'm', 'n', 'o', 'p', 'q', 'r', 's', 't', 'u', 'v', 'w', 'x', 'y', 'z', '0', '1', '2', '3', '4',
  '5', '6', '7', '8', '9', '-', '_']

def decodeTable : List ℤ := [
  -1, -1, -1, -1, -1, -1, -1, -1, -1, -1, -1, -1, -1, -1, -1, -1,
  -1, -1, -1, -1, -1, -1, -1, -1, -1, -1, -1, -1, -1, -1, -1, -1,
  -1, -1, -1, -1, -1, -1, -1, -1, -1, -1, -1, 62, -1, 62, -1, 63,
  52, 53, 54, 55, 56, 57, 58, 59, 60, 61, -1, -1, -1, -1, -1, -1,
  -1,  0,  1,  2,  3,  4,  5,  6,  7,  8,  9, 10, 11, 12, 13, 14,
  15, 16, 17, 18, 19, 20, 21, 22, 23, 24, 25, -1, -1, -1, -1, 63,
  -1, 26, 27, 28, 29, 30, 31, 32, 33, 34, 35, 36, 37, 38, 39, 40,
  41, 42, 43, 44, 45, 46, 47, 48, 49, 50, 51]

/-- `outOfBounds` is an access past the end of `decodeTable`. -/
inductive Failure where
  | invalidData
  | outOfBounds
  deriving DecidableEq

def entry (c : Char) : Except Failure ℤ :=
  match decodeTable[c.toNat]? with
  | some value => .ok value
  | none => .error .outOfBounds

def byte1 (a b : ℤ) : UInt8 := .ofNat (a.toNat <<< 2 + (b.toNat &&& 0x30) >>> 4)

def byte2 (b c : ℤ) : UInt8 := .ofNat ((b.toNat &&& 0x0f) <<< 4 + (c.toNat &&& 0x3c) >>> 2)

def byte3 (c d : ℤ) : UInt8 := .ofNat ((c.toNat &&& 0x03) <<< 6 + d.toNat)

/-- `decode_`, from the group at `i`; the first argument is the room left in the buffer, which
was filled with zeros. -/
def decodeGroups : ℕ → List Char → Except Failure (List UInt8)
  | 0, _ => .ok []
  | room + 1, aChar :: bChar :: cChar :: dChar :: rest =>
    if aChar = '=' ∨ bChar = '=' then .ok (replicate (room + 1) 0)
    else do
      let a ← entry aChar
      let b ← entry bChar
      let c ← entry cChar
      let d ← entry dChar
      if a = -1 ∨ b = -1 then .error .invalidData
      else if room = 0 then .ok [byte1 a b]
      else if c = -1 then .error .invalidData
      else if room = 1 then .ok [byte1 a b, byte2 b c]
      else if d = -1 then .error .invalidData
      else return byte1 a b :: byte2 b c :: byte3 c d :: (← decodeGroups (room - 2) rest)
  | room + 1, _ => .ok (replicate (room + 1) 0)

def strip (str : List Char) : List Char := str.filter fun c => c ≠ '\n' ∧ c ≠ '\r' ∧ c ≠ ' '

/-- The length that is expected of the decoded bytes. -/
def decodedLength (chars : List Char) : ℕ :=
  let len := chars.length * 3 / 4
  if 1 < chars.length ∧ chars[chars.length - 1]? = some '=' then
    if chars[chars.length - 2]? = some '=' then len - 1 - 1 else len - 1
  else len

def decode (str : List Char) : Except Failure (List UInt8) :=
  if str = [] then .ok []
  else if (strip str).length % 4 ≠ 0 then .error .invalidData
  else decodeGroups (decodedLength (strip str)) (strip str)

def table (urlSafe : Bool) : List Char := if urlSafe then urlBase64 else standardBase64

/-- A character of the alphabet; what is pushed is below 64. -/
def glyph (urlSafe : Bool) (index : ℕ) : Char := (table urlSafe).getD index '='

def push (urlSafe : Bool) (x y z : ℕ) : List Char := [
  glyph urlSafe ((x &&& 0xfc) >>> 2),
  glyph urlSafe ((x &&& 0x03) <<< 4 + (y &&& 0xf0) >>> 4),
  glyph urlSafe ((y &&& 0x0f) <<< 2 + (z &&& 0xc0) >>> 6),
  glyph urlSafe (z &&& 0x3f)]

def encodeBytes (urlSafe : Bool) : List UInt8 → List Char
  | x :: y :: z :: rest => push urlSafe x.toNat y.toNat z.toNat ++ encodeBytes urlSafe rest
  | [x, y] => (push urlSafe x.toNat y.toNat 0).take 3 ++ ['=']
  | [x] => (push urlSafe x.toNat 0 0).take 2 ++ ['=', '=']
  | [] => []

theorem mask_shift (n k i : ℕ) : (n &&& (2 ^ k - 1) <<< i) >>> i = n / 2 ^ i % 2 ^ k := by
  rw [Nat.shiftRight_and_distrib, Nat.shiftLeft_shiftRight, Nat.and_two_pow_sub_one_eq_mod,
    Nat.shiftRight_eq_div_pow]

theorem mask_left (n k i : ℕ) : (n &&& (2 ^ k - 1)) <<< i = n % 2 ^ k * 2 ^ i := by
  rw [Nat.and_two_pow_sub_one_eq_mod, Nat.shiftLeft_eq]

theorem push_eq {x y z : ℕ} (hx : x < 256) (hy : y < 256) (hz : z < 256) (urlSafe : Bool) :
    push urlSafe x y z = [glyph urlSafe (x / 4), glyph urlSafe (x % 4 * 16 + y / 16),
      glyph urlSafe (y % 16 * 4 + z / 64), glyph urlSafe (z % 64)] := by
  have high6 : (x &&& 0xfc) >>> 2 = x / 4 % 64 := mask_shift x 6 2
  have low2 : (x &&& 0x03) <<< 4 = x % 4 * 16 := mask_left x 2 4
  have high4 : (y &&& 0xf0) >>> 4 = y / 16 % 16 := mask_shift y 4 4
  have low4 : (y &&& 0x0f) <<< 2 = y % 16 * 4 := mask_left y 4 2
  have high2 : (z &&& 0xc0) >>> 6 = z / 64 % 4 := mask_shift z 2 6
  have low6 : z &&& 0x3f = z % 64 := Nat.and_two_pow_sub_one_eq_mod z 6
  rw [push, high6, low2, high4, low4, high2, low6, Nat.mod_eq_of_lt (by omega : x / 4 < 64),
    Nat.mod_eq_of_lt (by omega : y / 16 < 16), Nat.mod_eq_of_lt (by omega : z / 64 < 4)]

section Values
variable {a b c d : ℕ}

theorem byte1_eq (hb : b < 64) : byte1 a b = .ofNat (a * 4 + b / 16) := by
  have high : (b &&& 0x30) >>> 4 = b / 16 % 4 := mask_shift b 2 4
  rw [byte1, Int.toNat_natCast, Int.toNat_natCast, high, Nat.shiftLeft_eq,
    Nat.mod_eq_of_lt (by omega)]

theorem byte2_eq (hc : c < 64) : byte2 b c = .ofNat (b % 16 * 16 + c / 4) := by
  have low : (b &&& 0x0f) <<< 4 = b % 16 * 16 := mask_left b 4 4
  have high : (c &&& 0x3c) >>> 2 = c / 4 % 16 := mask_shift c 4 2
  rw [byte2, Int.toNat_natCast, Int.toNat_natCast, low, high,
    Nat.mod_eq_of_lt (by omega : c / 4 < 16)]

theorem byte3_eq : byte3 c d = .ofNat (c % 4 * 64 + d) := by
  have low : (c &&& 0x03) <<< 6 = c % 4 * 64 := mask_left c 2 6
  rw [byte3, Int.toNat_natCast, Int.toNat_natCast, low]

end Values

theorem byte_eq {n : ℕ} {b : UInt8} (h : n = b.toNat) : UInt8.ofNat n = b := by
  rw [h]
  exact UInt8.ofNat_toNat

/-- The characters of the other alphabet are read as those of the standard one. -/
def standard (c : Char) : Char := if c = '-' then '+' else if c = '_' then '/' else c

theorem table_entry (urlSafe : Bool) :
    ((range 64).all fun n => decodeTable[(glyph urlSafe n).toNat]? == some (n : ℤ)) = true := by
  cases urlSafe
  · rfl
  · rfl

theorem entry_table : (decodeTable.zipIdx.all fun p => p.1 == -1 || (decide (p.1.toNat < 64) &&
    decide (0 ≤ p.1) && (glyph false p.1.toNat == standard (Char.ofNat p.2)))) = true := by
  rfl

theorem entry_glyph (urlSafe : Bool) {n : ℕ} (h : n < 64) : entry (glyph urlSafe n) = .ok n := by
  have here := all_eq_true.mp (table_entry urlSafe) n (mem_range.mpr h)
  rw [entry, eq_of_beq here]

theorem glyph_plain (urlSafe : Bool) {n : ℕ} (h : n < 64) :
    glyph urlSafe n ≠ '=' ∧ glyph urlSafe n ≠ '\n' ∧ glyph urlSafe n ≠ '\r' ∧
      glyph urlSafe n ≠ ' ' := by
  have other : ∀ c, entry c = .ok (-1) → glyph urlSafe n ≠ c := by
    rintro c hc rfl
    rw [entry_glyph urlSafe h] at hc
    cases hc
  exact ⟨other '=' rfl, other '\n' rfl, other '\r' rfl, other ' ' rfl⟩

theorem entry_fill : entry '=' = .ok (-1) := rfl

section Groups
variable (room : ℕ) (a b c d : Char) (rest : List Char)

theorem decodeGroups_cons {va vb vc vd : ℕ} (ha : entry a = .ok va) (hb : entry b = .ok vb)
    (hc : entry c = .ok vc) (hd : entry d = .ok vd) :
    decodeGroups (room + 3) (a :: b :: c :: d :: rest) =
      return byte1 va vb :: byte2 vb vc :: byte3 vc vd :: (← decodeGroups room rest) := by
  have fill : ∀ {x : Char} {v : ℕ}, entry x = .ok v → x ≠ '=' := by
    rintro x v h rfl
    rw [entry_fill] at h
    cases h
  have plain : ∀ v : ℕ, (v : ℤ) ≠ -1 := by
    intro v
    omega
  simp [decodeGroups, fill ha, fill hb, ha, hb, hc, hd, plain, bind, Except.bind]

end Groups

/-- The last group decides the length, together with the number of groups. -/
theorem decodedLength_cons (a b c d : Char) {rest : List Char} (ne : rest ≠ [])
    (groups : rest.length % 4 = 0) :
    decodedLength (a :: b :: c :: d :: rest) = decodedLength rest + 3 := by
  have pos : 4 ≤ rest.length := by
    have := length_pos_iff.mpr ne
    omega
  have shift : ∀ i, i + 4 < rest.length + 4 →
      (a :: b :: c :: d :: rest)[i + 4]? = rest[i]? := fun i _ => by simp
  unfold decodedLength
  simp only [length_cons]
  rw [show rest.length + 1 + 1 + 1 + 1 - 1 = rest.length - 1 + 4 by omega,
    show rest.length + 1 + 1 + 1 + 1 - 2 = rest.length - 2 + 4 by omega, shift _ (by omega),
    shift _ (by omega), if_congr (and_congr_left' (by omega : _ ↔ 1 < rest.length)) rfl rfl]
  split_ifs <;> omega

theorem encodeBytes_groups (urlSafe : Bool) (bytes : List UInt8) :
    (encodeBytes urlSafe bytes).length % 4 = 0 := by
  fun_induction encodeBytes urlSafe bytes with
  | case1 x y z rest ih => simp only [push, length_append, length_cons, length_nil]; omega
  | case2 x y => simp [push]
  | case3 x => simp [push]
  | case4 => rfl

theorem encodeBytes_ne_nil (urlSafe : Bool) {bytes : List UInt8} (h : bytes ≠ []) :
    encodeBytes urlSafe bytes ≠ [] := by
  fun_cases encodeBytes urlSafe bytes <;> simp_all [push]

theorem decodedLength_encodeBytes (urlSafe : Bool) (bytes : List UInt8) :
    decodedLength (encodeBytes urlSafe bytes) = bytes.length := by
  fun_induction encodeBytes urlSafe bytes with
  | case1 x y z rest ih =>
    rw [push_eq x.toNat_lt y.toNat_lt z.toNat_lt]
    by_cases none : rest = []
    · subst none
      have last := (glyph_plain urlSafe (Nat.mod_lt z.toNat (by decide : 0 < 64))).1
      simp [encodeBytes, decodedLength, last]
    · change decodedLength (_ :: _ :: _ :: _ :: encodeBytes urlSafe rest) = _
      rw [decodedLength_cons _ _ _ _ (encodeBytes_ne_nil urlSafe none)
        (encodeBytes_groups urlSafe rest), ih]
      rfl
  | case2 x y =>
    have := y.toNat_lt
    rw [push_eq x.toNat_lt y.toNat_lt (by decide)]
    have third := (glyph_plain urlSafe (n := y.toNat % 16 * 4) (by omega)).1
    simp [decodedLength, third]
  | case3 x =>
    rw [push_eq x.toNat_lt (by decide) (by decide)]
    simp [decodedLength]
  | case4 => rfl

theorem decodeGroups_encodeBytes (urlSafe : Bool) (bytes : List UInt8) :
    decodeGroups bytes.length (encodeBytes urlSafe bytes) = .ok bytes := by
  have plain : ∀ v : ℕ, (v : ℤ) ≠ -1 := by
    intro v
    omega
  fun_induction encodeBytes urlSafe bytes with
  | case1 x y z rest ih =>
    have := x.toNat_lt
    have := y.toNat_lt
    have := z.toNat_lt
    rw [push_eq (by omega) (by omega) (by omega)]
    simp only [length_cons, cons_append, nil_append]
    rw [decodeGroups_cons _ _ _ _ _ _ (entry_glyph urlSafe (by omega))
      (entry_glyph urlSafe (by omega)) (entry_glyph urlSafe (by omega))
      (entry_glyph urlSafe (by omega)), ih, byte1_eq (by omega), byte2_eq (by omega),
      byte3_eq, byte_eq (b := x) (by omega), byte_eq (b := y) (by omega),
      byte_eq (b := z) (by omega)]
    rfl
  | case2 x y =>
    have := x.toNat_lt
    have := y.toNat_lt
    rw [push_eq (by omega) (by omega) (by decide)]
    have first := entry_glyph urlSafe (n := x.toNat / 4) (by omega)
    have second := entry_glyph urlSafe (n := x.toNat % 4 * 16 + y.toNat / 16) (by omega)
    have third := entry_glyph urlSafe (n := y.toNat % 16 * 4 + 0 / 64) (by omega)
    have one := byte1_eq (a := x.toNat / 4) (b := x.toNat % 4 * 16 + y.toNat / 16) (by omega)
    have two := byte2_eq (b := x.toNat % 4 * 16 + y.toNat / 16) (c := y.toNat % 16 * 4 + 0 / 64)
      (by omega)
    rw [byte_eq (b := x) (by omega)] at one
    rw [byte_eq (b := y) (by omega)] at two
    change decodeGroups 2 [_, _, _, '='] = _
    unfold decodeGroups
    rw [if_neg (not_or.mpr ⟨(glyph_plain urlSafe (by omega)).1, (glyph_plain urlSafe (by omega)).1⟩),
      first, second, third, entry_fill]
    simp only [bind, Except.bind, plain, or_self, if_false, if_true, one, two, Nat.one_ne_zero]
  | case3 x =>
    have := x.toNat_lt
    rw [push_eq (by omega) (by decide) (by decide)]
    have first := entry_glyph urlSafe (n := x.toNat / 4) (by omega)
    have second := entry_glyph urlSafe (n := x.toNat % 4 * 16 + 0 / 16) (by omega)
    have one := byte1_eq (a := x.toNat / 4) (b := x.toNat % 4 * 16 + 0 / 16) (by omega)
    rw [byte_eq (b := x) (by omega)] at one
    change decodeGroups 1 [_, _, '=', '='] = _
    unfold decodeGroups
    rw [if_neg (not_or.mpr ⟨(glyph_plain urlSafe (by omega)).1, (glyph_plain urlSafe (by omega)).1⟩),
      first, second, entry_fill]
    simp only [bind, Except.bind, plain, or_self, if_false, if_true, one]
  | case4 => rfl

theorem strip_encodeBytes (urlSafe : Bool) (bytes : List UInt8) :
    strip (encodeBytes urlSafe bytes) = encodeBytes urlSafe bytes := by
  have keep : ∀ n < 64, glyph urlSafe n ≠ '\n' ∧ glyph urlSafe n ≠ '\r' ∧ glyph urlSafe n ≠ ' ' :=
    fun n h => (glyph_plain urlSafe h).2
  unfold strip
  rw [filter_eq_self]
  fun_induction encodeBytes urlSafe bytes with
  | case1 x y z rest ih =>
    have := x.toNat_lt
    have := y.toNat_lt
    have := z.toNat_lt
    rw [push_eq (by omega) (by omega) (by omega)]
    simp only [cons_append, nil_append, forall_mem_cons, decide_eq_true_eq] at ih ⊢
    exact ⟨keep _ (by omega), keep _ (by omega), keep _ (by omega), keep _ (by omega), ih⟩
  | case2 x y =>
    have := x.toNat_lt
    have := y.toNat_lt
    rw [push_eq (by omega) (by omega) (by decide)]
    simp only [take_succ_cons, take_zero, cons_append, nil_append, forall_mem_cons,
      decide_eq_true_eq]
    exact ⟨keep _ (by omega), keep _ (by omega), keep _ (by omega), by decide, by simp⟩
  | case3 x =>
    have := x.toNat_lt
    rw [push_eq (by omega) (by decide) (by decide)]
    simp only [take_succ_cons, take_zero, cons_append, nil_append, forall_mem_cons,
      decide_eq_true_eq]
    exact ⟨keep _ (by omega), keep _ (by omega), by decide, by decide, by simp⟩
  | case4 => simp

theorem decode_encodeBytes (urlSafe : Bool) (bytes : List UInt8) :
    decode (encodeBytes urlSafe bytes) = .ok bytes := by
  unfold decode
  by_cases none : bytes = []
  · subst none
    rfl
  · rw [if_neg (encodeBytes_ne_nil urlSafe none), strip_encodeBytes,
      if_neg (not_not.mpr (encodeBytes_groups urlSafe bytes)), decodedLength_encodeBytes]
    exact decodeGroups_encodeBytes urlSafe bytes

def value (c : Char) : ℤ := decodeTable.getD c.toNat (-1)

/-- Fillers stand in the second half of a group, and the bits that the last group does not use
are zero. -/
def Padded : List Char → Prop
  | [a, b, c, d] => a ≠ '=' ∧ b ≠ '=' ∧ (d = '=' → c = '=' → value b % 16 = 0) ∧
    (d = '=' → c ≠ '=' → value c % 4 = 0)
  | a :: b :: _ :: _ :: rest => a ≠ '=' ∧ b ≠ '=' ∧ Padded rest
  | _ => True

theorem entry_value {c : Char} (h : c.toNat < 123) : entry c = .ok (value c) := by
  have size : decodeTable.length = 123 := rfl
  unfold entry value
  rw [getD_eq_getElem?_getD, getElem?_eq_getElem (by omega)]
  rfl

theorem exists_glyph {c : Char} (h : c.toNat < 123) (sextet : value c ≠ -1) :
    ∃ n < 64, value c = (n : ℕ) ∧ glyph false n = standard c := by
  have known : c.toNat < decodeTable.length := h
  have mem : (value c, c.toNat) ∈ decodeTable.zipIdx := by
    rw [mk_mem_zipIdx_iff_getElem?, value, getD_eq_getElem?_getD, getElem?_eq_getElem known]
    rfl
  have row := all_eq_true.mp entry_table _ mem
  simp only [Char.ofNat_toNat, Bool.or_eq_true, Bool.and_eq_true, beq_iff_eq, decide_eq_true_eq]
    at row
  obtain ⟨⟨small, pos⟩, here⟩ := row.resolve_left sextet
  exact ⟨_, small, (Int.toNat_of_nonneg pos).symm, here⟩

/-- Three bytes that were read are written as they were. -/
theorem push_bytes {a b c d : ℕ} (ha : a < 64) (hb : b < 64) (hc : c < 64) (hd : d < 64) :
    push false (byte1 a b).toNat (byte2 b c).toNat (byte3 c d).toNat =
      [glyph false a, glyph false b, glyph false c, glyph false d] := by
  rw [byte1_eq hb, byte2_eq hc, byte3_eq]
  simp only [UInt8.toNat_ofNat']
  rw [push_eq (by omega) (by omega) (by omega)]
  simp only [cons.injEq, and_true]
  exact ⟨congrArg _ (by omega), congrArg _ (by omega), congrArg _ (by omega), congrArg _ (by omega)⟩

theorem byte3_zero (c : ℕ) (h : c % 4 = 0) : (byte3 c (0 : ℕ)).toNat = 0 := by
  rw [byte3_eq, h]
  rfl

theorem byte2_zero (b : ℕ) (h : b % 16 = 0) : (byte2 b (0 : ℕ)).toNat = 0 := by
  rw [byte2_eq (by decide), h]
  rfl

theorem decodeGroups_last {a b c d : Char} (codes : ∀ x ∈ [a, b, c, d], x.toNat < 123)
    (padded : Padded [a, b, c, d]) :
    decodeGroups (decodedLength [a, b, c, d]) [a, b, c, d] = .error .invalidData ∨
      ∃ bytes, decodeGroups (decodedLength [a, b, c, d]) [a, b, c, d] = .ok bytes ∧
        encodeBytes false bytes = [a, b, c, d].map standard := by
  simp only [forall_mem_cons, not_mem_nil, false_imp_iff, implies_true, and_true] at codes
  obtain ⟨ca, cb, cc, cd⟩ := codes
  obtain ⟨na, nb, zeroB, zeroC⟩ := padded
  have length : decodedLength [a, b, c, d] = if d = '=' then if c = '=' then 1 else 2 else 3 := by
    simp [decodedLength]
  have opened : ∀ room, decodeGroups (room + 1) [a, b, c, d] =
      if value a = -1 ∨ value b = -1 then .error .invalidData
      else if room = 0 then .ok [byte1 (value a) (value b)]
      else if value c = -1 then .error .invalidData
      else if room = 1 then .ok [byte1 (value a) (value b), byte2 (value b) (value c)]
      else if value d = -1 then .error .invalidData
      else return byte1 (value a) (value b) :: byte2 (value b) (value c) ::
        byte3 (value c) (value d) :: (← decodeGroups (room - 2) []) := by
    intro room
    simp only [decodeGroups, na, nb, or_self, if_false, entry_value ca, entry_value cb,
      entry_value cc, entry_value cd, bind, Except.bind]
  by_cases bad : value a = -1 ∨ value b = -1
  · left
    rw [length]
    split_ifs <;> rw [opened, if_pos bad]
  obtain ⟨ga, gb⟩ := not_or.mp bad
  obtain ⟨va, la, ea, sa⟩ := exists_glyph ca ga
  obtain ⟨vb, lb, eb, sb⟩ := exists_glyph cb gb
  by_cases hd : d = '='
  · by_cases hc : c = '='
    · right
      rw [length, if_pos hd, if_pos hc, opened, if_neg bad, if_pos rfl]
      refine ⟨_, rfl, ?_⟩
      have written := push_bytes la lb (c := 0) (d := 0) (by decide) (by decide)
      rw [byte2_zero vb (by have := zeroB hd hc; omega), byte3_zero 0 rfl] at written
      rw [ea, eb, encodeBytes, written, hc, hd]
      simp [sa, sb]
      decide
    · rw [length, if_pos hd, if_neg hc, opened, if_neg bad, if_neg (by decide)]
      by_cases gc : value c = -1
      · exact .inl (if_pos gc)
      right
      obtain ⟨vc, lc, ec, sc⟩ := exists_glyph cc gc
      rw [if_neg gc, if_pos rfl]
      refine ⟨_, rfl, ?_⟩
      have written := push_bytes la lb lc (d := 0) (by decide)
      rw [byte3_zero vc (by have := zeroC hd hc; omega)] at written
      rw [ea, eb, ec, encodeBytes, written, hd]
      simp [sa, sb, sc]
      decide
  · rw [length, if_neg hd, opened, if_neg bad, if_neg (by decide)]
    by_cases gc : value c = -1
    · exact .inl (if_pos gc)
    by_cases gd : value d = -1
    · left
      rw [if_neg gc, if_neg (by decide), if_pos gd]
    right
    obtain ⟨vc, lc, ec, sc⟩ := exists_glyph cc gc
    obtain ⟨vd, ld, ed, sd⟩ := exists_glyph cd gd
    rw [if_neg gc, if_neg (by decide), if_neg gd]
    refine ⟨_, rfl, ?_⟩
    rw [ea, eb, ec, ed, encodeBytes, push_bytes la lb lc ld, sa, sb, sc, sd]
    rfl

theorem decodeGroups_faithful (n : ℕ) (chars : List Char) (groups : chars.length = 4 * n)
    (codes : ∀ c ∈ chars, c.toNat < 123) (padded : Padded chars) :
    decodeGroups (decodedLength chars) chars = .error .invalidData ∨
      ∃ bytes, decodeGroups (decodedLength chars) chars = .ok bytes ∧
        encodeBytes false bytes = chars.map standard := by
  induction n generalizing chars with
  | zero =>
    obtain rfl := length_eq_zero_iff.mp groups
    exact .inr ⟨[], rfl, rfl⟩
  | succ n ih =>
    match chars with
    | [a, b, c, d] => exact decodeGroups_last codes padded
    | a :: b :: c :: d :: e :: rest =>
      simp only [length_cons] at groups
      rw [decodedLength_cons a b c d (cons_ne_nil e rest) (by rw [length_cons]; omega)]
      simp only [forall_mem_cons] at codes
      obtain ⟨ca, cb, cc, cd, codes⟩ := codes
      obtain ⟨na, nb, padded⟩ := padded
      have later := ih (e :: rest) (by rw [length_cons]; omega) (forall_mem_cons.mpr codes) padded
      generalize e :: rest = rest at later
      by_cases good : value a ≠ -1 ∧ value b ≠ -1 ∧ value c ≠ -1 ∧ value d ≠ -1
      · obtain ⟨va, la, ea, sa⟩ := exists_glyph ca good.1
        obtain ⟨vb, lb, eb, sb⟩ := exists_glyph cb good.2.1
        obtain ⟨vc, lc, ec, sc⟩ := exists_glyph cc good.2.2.1
        obtain ⟨vd, ld, ed, sd⟩ := exists_glyph cd good.2.2.2
        rw [decodeGroups_cons _ a b c d rest (ea ▸ entry_value ca) (eb ▸ entry_value cb)
          (ec ▸ entry_value cc) (ed ▸ entry_value cd)]
        rcases later with later | ⟨bytes, later, written⟩
        · rw [later]
          exact .inl rfl
        · rw [later]
          refine .inr ⟨_, rfl, ?_⟩
          rw [encodeBytes, push_bytes la lb lc ld, written, sa, sb, sc, sd]
          rfl
      · left
        simp only [decodeGroups, na, nb, or_self, if_false, entry_value ca, entry_value cb,
          entry_value cc, entry_value cd, bind, Except.bind]
        split_ifs <;> first | rfl | omega

/-- Encoded bytes are read back, and a text without misplaced fillers and unused bits is read as
bytes that encode to it, up to spaces and the alphabet, or is refused. -/
theorem decode_faithful :
    (∀ urlSafe bytes, decode (encodeBytes urlSafe bytes) = .ok bytes) ∧
      ∀ text, (∀ c ∈ strip text, c.toNat < 123) → Padded (strip text) →
        decode text = .error .invalidData ∨ ∃ bytes, decode text = .ok bytes ∧
          encodeBytes false bytes = (strip text).map standard := by
  refine ⟨decode_encodeBytes, ?_⟩
  intro text codes padded
  unfold decode
  by_cases none : text = []
  · subst none
    exact .inr ⟨[], rfl, rfl⟩
  · rw [if_neg none]
    by_cases groups : (strip text).length % 4 = 0
    · rw [if_neg (not_not.mpr groups)]
      exact decodeGroups_faithful ((strip text).length / 4) _ (by omega) codes padded
    · exact .inl (if_pos groups)

theorem decode_faithful_words : decode ['T', 'Q', '=', '='] = .error .invalidData ∨
    ∃ bytes, decode ['T', 'Q', '=', '='] = .ok bytes ∧
      encodeBytes false bytes = ['T', 'Q', '=', '='] :=
  decode_faithful.2 ['T', 'Q', '=', '=']
    (by
      intro c hc
      simp only [strip, mem_filter, mem_cons, not_mem_nil, or_false] at hc
      rcases hc.1 with rfl | rfl | rfl | rfl <;> decide)
    (by simp [strip, Padded, value, decodeTable])

theorem not_faithful_space : decode [' '] = .ok [] ∧ ∀ urlSafe, encodeBytes urlSafe [] ≠ [' '] := by
  decide

end SkipPlatform.Base64
