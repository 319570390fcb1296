import Mathlib.Data.Int.Bitwise
import Mathlib.Data.List.Basic
import Mathlib.Data.List.Induction

set_option autoImplicit false

/-! The textual form of an identifier of 20 bytes: groups of 6 bits, most significant first, in
an alphabet in code order, without the trailing fillers. -/
namespace SkipPlatform
open List

structure Ksuid where
  bytes : List UInt8
  size : bytes.length = 20

namespace Ksuid

def sextetToChar (sextet : ℕ) : Char :=
  if sextet = 0 then '-'
  else if sextet < 11 then Char.ofNat (sextet + '0'.toNat - 1)
  else if sextet < 37 then Char.ofNat (sextet + 'A'.toNat - 11)
  else if sextet = 37 then '_'
  else Char.ofNat (sextet + 'a'.toNat - 38)

def charToSextet (char : Char) : ℤ :=
  if char = '-' then 0
  else if char.toNat ≤ '9'.toNat then char.toNat - '0'.toNat + 1
  else if char.toNat ≤ 'Z'.toNat then char.toNat - 'A'.toNat + 11
  else if char = '_' then 37
  else char.toNat - 'a'.toNat + 38

/-- The sextets that `to_sextets` pushes; the last two bytes fill three of them. -/
@[grind] def toSextets : List UInt8 → List ℕ
  | [o18, o19] =>
    let n := o18.toNat <<< 8 ||| o19.toNat
    [n >>> 10 &&& 0x3F, n >>> 4 &&& 0x3F, n &&& 0xF]
  | o0 :: o1 :: o2 :: rest =>
    let n := o0.toNat <<< 16 ||| (o1.toNat <<< 8 ||| o2.toNat)
    (n >>> 18 &&& 0x3F) :: (n >>> 12 &&& 0x3F) :: (n >>> 6 &&& 0x3F) :: (n &&& 0x3F) ::
      toSextets rest
  | _ => []

/-- The octets of 27 sextets. -/
def octets : List ℤ → List UInt8
  | [s24, s25, s26] =>
    let n := (s24 <<< (10 : ℕ)).lor ((s25 <<< (4 : ℕ)).lor (s26.land 0xF))
    [.ofInt ((n >>> (8 : ℕ)).land 0xFF), .ofInt (n.land 0xFF)]
  | s0 :: s1 :: s2 :: s3 :: rest =>
    let n := (s0 <<< (18 : ℕ)).lor ((s1 <<< (12 : ℕ)).lor ((s2 <<< (6 : ℕ)).lor s3))
    .ofInt ((n >>> (16 : ℕ)).land 0xFF) :: .ofInt ((n >>> (8 : ℕ)).land 0xFF) ::
      .ofInt (n.land 0xFF) :: octets rest
  | _ => []

theorem length_octets {xs : List ℤ} {n : ℕ} (h : xs.length = 4 * n + 3) :
    (octets xs).length = 3 * n + 2 := by
  induction n generalizing xs with
  | zero =>
    obtain ⟨a, b, c, rfl⟩ := length_eq_three.mp h
    rfl
  | succ n ih =>
    match xs with
    | a :: b :: c :: d :: rest =>
      simp only [length_cons] at h
      simp only [octets, length_cons]
      rw [ih (by omega)]
      omega

/-- `of_sextets`; the zeros pushed are the fillers that `toString` trims. -/
def ofSextets (sextets : List ℤ) : Option Ksuid :=
  if h : sextets.length ≤ 27 then
    some ⟨octets (sextets ++ replicate (27 - sextets.length) 0),
      length_octets (n := 6) (by simp only [length_append, length_replicate]; omega)⟩
  else none

/-- The loop that pops fillers; it reads the last element of a vector that may be empty. -/
def trim (sextets : List Char) : Option (List Char) :=
  match _h : sextets.getLast? with
  | none => none
  | some c => if c = '-' then trim sextets.dropLast else some sextets
termination_by sextets.length
decreasing_by
  cases sextets with
  | nil => simp at _h
  | cons => simp

def toString (k : Ksuid) : Option (List Char) := trim ((toSextets k.bytes).map sextetToChar)

def fromString (s : List Char) : Option Ksuid := ofSextets (s.map charToSextet)

/-- The order of texts and of byte arrays, by the codes of their elements. -/
def Before (xs ys : List ℕ) : Prop := Lex (· < ·) xs ys

theorem before_cons {x y : ℕ} {xs ys : List ℕ} :
    Before (x :: xs) (y :: ys) ↔ x < y ∨ x = y ∧ Before xs ys := cons_lex_cons_iff

/-- The order of numbers is that of their digits. -/
theorem before_digit {base : ℕ} (n m : ℕ) (xs ys : List ℕ) :
    Before (n / base :: n % base :: xs) (m / base :: m % base :: ys) ↔
      Before (n :: xs) (m :: ys) := by
  have hn := Nat.div_add_mod n base
  have hm := Nat.div_add_mod m base
  rw [before_cons, before_cons, before_cons]
  rcases lt_trichotomy (n / base) (m / base) with lt | eq | gt
  · have := Nat.lt_of_div_lt_div lt
    exact iff_of_true (.inl lt) (.inl this)
  · rw [eq] at hn ⊢
    have lt : n < m ↔ n % base < m % base := by omega
    have same : n = m ↔ n % base = m % base := by omega
    rw [lt, same]
    simp
  · have := Nat.lt_of_div_lt_div gt
    refine iff_of_false ?_ ?_ <;> omega

theorem before_irrefl (xs : List ℕ) : ¬Before xs xs := by
  induction xs with
  | nil => exact not_lex_nil
  | cons x xs ih =>
    rw [before_cons]
    rintro (h | ⟨-, h⟩)
    · exact lt_irrefl x h
    · exact ih h

theorem before_map {f : ℕ → ℕ} {n : ℕ} (mono : ∀ a b, a < n → b < n → (f a < f b ↔ a < b))
    {xs ys : List ℕ} (hx : ∀ x ∈ xs, x < n) (hy : ∀ y ∈ ys, y < n) :
    Before (xs.map f) (ys.map f) ↔ Before xs ys := by
  induction xs generalizing ys with
  | nil => cases ys <;> simp [Before]
  | cons x xs ih =>
    cases ys with
    | nil => simp [Before]
    | cons y ys =>
      rw [forall_mem_cons] at hx hy
      have le := mono x y hx.1 hy.1
      have ge := mono y x hy.1 hx.1
      rw [map_cons, map_cons, before_cons, before_cons, ih hx.2 hy.2, le]
      have same : f x = f y ↔ x = y := by
        constructor
        · intro h
          omega
        · rintro rfl
          rfl
      rw [same]

theorem sextet_lt {bytes : List UInt8} : ∀ s ∈ toSextets bytes, s < 64 := by
  have mask : ∀ n : ℕ, n &&& 0x3F < 64 := fun n => lt_of_le_of_lt Nat.and_le_right (by decide)
  have low : ∀ n : ℕ, n &&& 0xF < 64 := fun n => lt_of_le_of_lt Nat.and_le_right (by decide)
  fun_induction toSextets bytes with
  | case1 => simp [mask, low]
  | case2 _ _ _ _ _ ih => simpa [mask] using ih
  | case3 => simp

/-- Three bytes as a number, and its digits to base 64. -/
theorem toSextets_cons (a b c : UInt8) (rest : List UInt8) :
    ∃ n, n = a.toNat * 65536 + b.toNat * 256 + c.toNat ∧ toSextets (a :: b :: c :: rest) =
      n / 64 / 64 / 64 :: n / 64 / 64 % 64 :: n / 64 % 64 :: n % 64 :: toSextets rest := by
  have := a.toNat_lt
  have := b.toNat_lt
  have := c.toNat_lt
  have pack : a.toNat <<< 16 ||| (b.toNat <<< 8 ||| c.toNat) =
      a.toNat * 65536 + b.toNat * 256 + c.toNat := by
    rw [← Nat.shiftLeft_add_eq_or_of_lt (i := 8) (by omega),
      ← Nat.shiftLeft_add_eq_or_of_lt (by rw [Nat.shiftLeft_eq]; omega), Nat.shiftLeft_eq,
      Nat.shiftLeft_eq]
    omega
  have mask : ∀ n : ℕ, n &&& 0x3F = n % 64 := fun n => Nat.and_two_pow_sub_one_eq_mod n 6
  refine ⟨_, rfl, ?_⟩
  rw [toSextets, pack]
  simp only [mask, Nat.shiftRight_eq_div_pow, Nat.div_div_eq_div_mul]
  rw [Nat.mod_eq_of_lt (by omega)]

theorem toSextets_pair (a b : UInt8) :
    ∃ n, n = a.toNat * 256 + b.toNat ∧
      toSextets [a, b] = [n / 16 / 64, n / 16 % 64, n % 16] := by
  have := a.toNat_lt
  have := b.toNat_lt
  have pack : a.toNat <<< 8 ||| b.toNat = a.toNat * 256 + b.toNat := by
    rw [← Nat.shiftLeft_add_eq_or_of_lt (by omega), Nat.shiftLeft_eq]
  have mask : ∀ n : ℕ, n &&& 0x3F = n % 64 := fun n => Nat.and_two_pow_sub_one_eq_mod n 6
  have low : ∀ n : ℕ, n &&& 0xF = n % 16 := fun n => Nat.and_two_pow_sub_one_eq_mod n 4
  refine ⟨_, rfl, ?_⟩
  rw [toSextets, pack]
  simp only [mask, low, Nat.shiftRight_eq_div_pow, Nat.div_div_eq_div_mul]
  rw [Nat.mod_eq_of_lt (by omega)]

/-- The lists that the loops see: a pair is left after the triples. -/
theorem triples_induction {P : List UInt8 → Prop} (pair : ∀ a b, P [a, b])
    (triple : ∀ a b c rest, P rest → P (a :: b :: c :: rest)) (n : ℕ)
    (xs : List UInt8) (h : xs.length = 3 * n + 2) : P xs := by
  induction n generalizing xs with
  | zero =>
    obtain ⟨a, b, rfl⟩ := length_eq_two.mp h
    exact pair a b
  | succ n ih =>
    match xs with
    | a :: b :: c :: rest =>
      simp only [length_cons] at h
      exact triple a b c rest (ih rest (by omega))

theorem lor_cast {s t i : ℕ} (h : t < 2 ^ i) :
    ((s : ℤ) <<< i).lor (t : ℤ) = ((s * 2 ^ i + t : ℕ) : ℤ) := by
  change ((s <<< i ||| t : ℕ) : ℤ) = _
  rw [← Nat.shiftLeft_add_eq_or_of_lt h, Nat.shiftLeft_eq]

theorem ofInt_byte (n i : ℕ) :
    UInt8.ofInt (((n : ℤ) >>> i).land 0xFF) = UInt8.ofNat (n / 2 ^ i % 256) := by
  change UInt8.ofInt ((n >>> i &&& 0xFF : ℕ) : ℤ) = _
  rw [Nat.and_two_pow_sub_one_eq_mod _ 8, Nat.shiftRight_eq_div_pow]
  unfold UInt8.ofInt
  congr 1
  omega

theorem byte_eq {n : ℕ} {b : UInt8} (h : n = b.toNat) : UInt8.ofNat n = b := by
  rw [h]
  exact UInt8.ofNat_toNat

theorem octets_toSextets (bytes : List UInt8) (h : bytes.length = 3 * 6 + 2) :
    octets ((toSextets bytes).map Int.ofNat) = bytes := by
  refine triples_induction (P := fun bytes => octets ((toSextets bytes).map Int.ofNat) = bytes)
    ?_ ?_ 6 bytes h
  · intro a b
    have := a.toNat_lt
    have := b.toNat_lt
    obtain ⟨n, hn, digits⟩ := toSextets_pair a b
    have low : ((n % 16 : ℕ) : ℤ).land 0xF = ((n % 16 : ℕ) : ℤ) := by
      change ((n % 16 &&& 0xF : ℕ) : ℤ) = _
      rw [Nat.and_two_pow_sub_one_eq_mod _ 4, Nat.mod_eq_of_lt (by omega)]
    rw [digits]
    simp only [map_cons, map_nil, octets, Int.ofNat_eq_natCast]
    rw [low, lor_cast (by omega), lor_cast (by omega), ofInt_byte]
    have last := ofInt_byte (n / 16 / 64 * 2 ^ 10 + (n / 16 % 64 * 2 ^ 4 + n % 16)) 0
    rw [Int.shiftRight_zero] at last
    rw [last, byte_eq (b := a) (by omega), byte_eq (b := b) (by omega)]
  · intro a b c rest ih
    have := a.toNat_lt
    have := b.toNat_lt
    have := c.toNat_lt
    obtain ⟨n, hn, digits⟩ := toSextets_cons a b c rest
    rw [digits]
    simp only [map_cons, octets, ih, Int.ofNat_eq_natCast]
    rw [lor_cast (by omega), lor_cast (by omega), lor_cast (by omega), ofInt_byte, ofInt_byte]
    have last := ofInt_byte
      (n / 64 / 64 / 64 * 2 ^ 18 +
        (n / 64 / 64 % 64 * 2 ^ 12 + (n / 64 % 64 * 2 ^ 6 + n % 64))) 0
    rw [Int.shiftRight_zero] at last
    rw [last, byte_eq (b := a) (by omega), byte_eq (b := b) (by omega), byte_eq (b := c) (by omega)]

theorem before_toSextets (xs : List UInt8) (h : xs.length = 3 * 6 + 2) :
    ∀ ys : List UInt8, ys.length = xs.length → (Before (toSextets xs) (toSextets ys) ↔
      Before (xs.map UInt8.toNat) (ys.map UInt8.toNat)) := by
  refine triples_induction (P := fun xs => ∀ ys : List UInt8, ys.length = xs.length →
    (Before (toSextets xs) (toSextets ys) ↔ Before (xs.map UInt8.toNat) (ys.map UInt8.toNat)))
    ?_ ?_ 6 xs h
  · intro a b ys hy
    obtain ⟨a', b', rfl⟩ := length_eq_two.mp hy
    obtain ⟨n, hn, digits⟩ := toSextets_pair a b
    obtain ⟨m, hm, digits'⟩ := toSextets_pair a' b'
    have := b.toNat_lt
    have := b'.toNat_lt
    have first : n / 256 = a.toNat := by omega
    have second : n % 256 = b.toNat := by omega
    have first' : m / 256 = a'.toNat := by omega
    have second' : m % 256 = b'.toNat := by omega
    rw [digits, digits', before_digit, before_digit]
    simp only [map_cons, map_nil]
    rw [← first, ← second, ← first', ← second', before_digit]
  · intro a b c rest ih ys hy
    match ys with
    | a' :: b' :: c' :: rest' =>
      obtain ⟨n, hn, digits⟩ := toSextets_cons a b c rest
      obtain ⟨m, hm, digits'⟩ := toSextets_cons a' b' c' rest'
      have := b.toNat_lt
      have := b'.toNat_lt
      have := c.toNat_lt
      have := c'.toNat_lt
      have first : n / 256 / 256 = a.toNat := by omega
      have second : n / 256 % 256 = b.toNat := by omega
      have third : n % 256 = c.toNat := by omega
      have first' : m / 256 / 256 = a'.toNat := by omega
      have second' : m / 256 % 256 = b'.toNat := by omega
      have third' : m % 256 = c'.toNat := by omega
      rw [digits, digits', before_digit, before_digit,
        before_digit, before_cons, ih rest' (by simpa using hy), ← before_cons]
      simp only [map_cons]
      rw [← first, ← second, ← third, ← first', ← second', ← third', before_digit,
        before_digit]

theorem length_toSextets (k : Ksuid) : (toSextets k.bytes).length = 27 := by
  have count : (toSextets k.bytes).length * 3 = k.bytes.length * 4 + 1 := by
    refine triples_induction (P := fun xs => (toSextets xs).length * 3 = xs.length * 4 + 1)
      (fun a b => rfl) ?_ 6 k.bytes k.size
    intro a b c rest ih
    obtain ⟨n, -, digits⟩ := toSextets_cons a b c rest
    rw [digits]
    simp only [length_cons]
    omega
  have := k.size
  omega

theorem charToSextet_sextetToChar : ∀ s < 64, charToSextet (sextetToChar s) = s := by decide

theorem code_sextet : ∀ s < 64, (sextetToChar s).toNat =
    if s = 0 then 45 else if s < 11 then s + 47 else if s < 37 then s + 54 else
      if s = 37 then 95 else s + 59 := by decide

theorem code_lt {a b : ℕ} (ha : a < 64) (hb : b < 64) :
    (sextetToChar a).toNat < (sextetToChar b).toNat ↔ a < b := by
  rw [code_sextet a ha, code_sextet b hb]
  split_ifs <;> omega

theorem trim_append (xs : List Char) (c : Char) :
    trim (xs ++ [c]) = if c = '-' then trim xs else some (xs ++ [c]) := by
  rw [trim]
  split
  · rename_i h
    simp at h
  · rename_i d h
    obtain rfl : c = d := by simpa using h
    rw [dropLast_concat]

theorem trim_replicate (n : ℕ) : trim (replicate n '-') = none := by
  induction n with
  | zero =>
    rw [trim]
    rfl
  | succ n ih => rw [replicate_succ', trim_append, if_pos rfl, ih]

/-- What is trimmed is filler, and nothing else is at the end of the rest. -/
theorem trim_spec (xs : List Char) :
    (trim xs = none ∧ xs = replicate xs.length '-') ∨
      ∃ t k, trim xs = some t ∧ xs = t ++ replicate k '-' ∧ t.getLast? ≠ some '-' := by
  induction xs using List.reverseRecOn with
  | nil =>
    refine .inl ⟨?_, rfl⟩
    rw [trim]
    rfl
  | append_singleton xs c ih =>
    rw [trim_append]
    by_cases hc : c = '-'
    · subst hc
      rw [if_pos rfl]
      rcases ih with ⟨none, all⟩ | ⟨t, k, some, split, last⟩
      · refine .inl ⟨none, ?_⟩
        conv_lhs => rw [all]
        rw [length_append, length_singleton, replicate_succ']
      · exact .inr ⟨t, k + 1, some, by rw [split, append_assoc, replicate_succ'], last⟩
    · rw [if_neg hc]
      exact .inr ⟨xs ++ [c], 0, rfl, by simp, by simpa using hc⟩

section Fill
variable {fill : ℕ}

theorem fill_before {u : List ℕ} (hu : ∀ x ∈ u, fill ≤ x) (last : u.getLast? ≠ some fill)
    (ne : u ≠ []) (l : ℕ) : Before (replicate (u.length + l) fill) (u ++ replicate l fill) ∧
      ¬Before (u ++ replicate l fill) (replicate (u.length + l) fill) := by
  induction u with
  | nil => exact absurd rfl ne
  | cons y u ih =>
    rw [forall_mem_cons] at hu
    rw [length_cons, Nat.add_right_comm, replicate_succ, cons_append, before_cons, before_cons]
    cases u with
    | nil =>
      have : y ≠ fill := by simpa using last
      omega
    | cons z u =>
      obtain ⟨before, after⟩ := ih hu.2 (by simpa using last) (cons_ne_nil z u)
      simp only [before, after, and_true, and_false, or_false]
      omega

/-- Fillers after texts that end with something else do not change the order. -/
theorem before_fill {t u : List ℕ} {k l : ℕ} (len : t.length + k = u.length + l)
    (ht : ∀ x ∈ t, fill ≤ x) (hu : ∀ x ∈ u, fill ≤ x) (endt : t.getLast? ≠ some fill)
    (endu : u.getLast? ≠ some fill) :
    Before (t ++ replicate k fill) (u ++ replicate l fill) ↔ Before t u := by
  induction t generalizing u with
  | nil =>
    cases u with
    | nil =>
      obtain rfl : k = l := by simpa using len
      exact iff_of_false (before_irrefl _) not_lex_nil
    | cons y u =>
      refine iff_of_true ?_ Lex.nil
      rw [show k = (y :: u).length + l by simpa using len]
      exact (fill_before hu endu (cons_ne_nil y u) l).1
  | cons x t ih =>
    cases u with
    | nil =>
      refine iff_of_false ?_ not_lex_nil
      rw [show l = (x :: t).length + k by simpa using len.symm]
      exact (fill_before ht endt (cons_ne_nil x t) k).2
    | cons y u =>
      rw [forall_mem_cons] at ht hu
      rw [cons_append, cons_append, before_cons, before_cons]
      have tail : ∀ (z : ℕ) (v : List ℕ), (z :: v).getLast? ≠ some fill → v.getLast? ≠ some fill := by
        intro z v h
        cases v with
        | nil => simp
        | cons => simpa using h
      rw [ih (by simpa [Nat.add_right_comm] using len) ht.2 hu.2 (tail x t endt) (tail y u endu)]

end Fill

section Text
variable {k : Ksuid} {s : List Char}

/-- The text with its fillers. -/
theorem toString_split (h : toString k = some s) : (toSextets k.bytes).map sextetToChar =
    s ++ replicate (27 - s.length) '-' ∧ s.length ≤ 27 ∧ s.getLast? ≠ some '-' := by
  rcases trim_spec ((toSextets k.bytes).map sextetToChar) with ⟨none, -⟩ | ⟨t, n, some, split, last⟩
  · rw [toString, none] at h
    cases h
  · obtain rfl : t = s := Option.some.inj (some.symm.trans h)
    have len := congrArg length split
    rw [length_map, length_toSextets, length_append, length_replicate] at len
    rw [show 27 - t.length = n by omega]
    exact ⟨split, by omega, last⟩

theorem decode_sextets (bytes : List UInt8) :
    ((toSextets bytes).map sextetToChar).map charToSextet =
      (toSextets bytes).map Int.ofNat := by
  rw [map_map]
  exact map_congr_left fun s hs => charToSextet_sextetToChar s (sextet_lt s hs)

theorem fromString_toString (h : toString k = some s) : fromString s = some k := by
  obtain ⟨split, short, -⟩ := toString_split h
  have padded : s.map charToSextet ++ replicate (27 - s.length) 0 =
      (toSextets k.bytes).map Int.ofNat := by
    rw [← decode_sextets, split, map_append, map_replicate]
    rfl
  unfold fromString ofSextets
  rw [dif_pos (by rw [length_map]; exact short)]
  congr 1
  rcases k with ⟨bytes, size⟩
  congr 1
  rw [length_map, padded]
  exact octets_toSextets bytes size

theorem before_toString {k' : Ksuid} {s' : List Char} (h : toString k = some s)
    (h' : toString k' = some s') : Before (s.map Char.toNat) (s'.map Char.toNat) ↔
      Before (k.bytes.map UInt8.toNat) (k'.bytes.map UInt8.toNat) := by
  obtain ⟨split, short, last⟩ := toString_split h
  obtain ⟨split', short', last'⟩ := toString_split h'
  have codes : ∀ (k : Ksuid) (s : List Char), (toSextets k.bytes).map sextetToChar =
      s ++ replicate (27 - s.length) '-' → (toSextets k.bytes).map (fun a => (sextetToChar a).toNat) =
      s.map Char.toNat ++ replicate (27 - s.length) 45 := by
    intro k s split
    have := congrArg (map Char.toNat) split
    rwa [map_map, map_append, map_replicate] at this
  have least : ∀ (k : Ksuid) (s : List Char), (toSextets k.bytes).map sextetToChar =
      s ++ replicate (27 - s.length) '-' → ∀ x ∈ s.map Char.toNat, 45 ≤ x := by
    intro k s split x hx
    have hx : x ∈ (toSextets k.bytes).map fun a => (sextetToChar a).toNat := by
      rw [codes k s split]
      exact mem_append_left _ hx
    obtain ⟨a, ha, rfl⟩ := mem_map.mp hx
    rw [code_sextet a (sextet_lt a ha)]
    split_ifs <;> omega
  have ends : ∀ s : List Char, s.getLast? ≠ some '-' → (s.map Char.toNat).getLast? ≠ some 45 := by
    intro s h
    rw [getLast?_map]
    intro he
    obtain ⟨c, hc, code⟩ := Option.map_eq_some_iff.mp he
    exact h (hc.trans (congrArg some (Char.toNat_inj.mp code)))
  rw [← before_toSextets k.bytes k.size k'.bytes (k'.size.trans k.size.symm),
    ← before_map (fun a b ha hb => code_lt ha hb) sextet_lt sextet_lt, codes k s split,
    codes k' s' split']
  exact (before_fill (by rw [length_map, length_map]; omega) (least k s split) (least k' s' split')
    (ends s last) (ends s' last')).symm

end Text

/-- The text fails for the identifier of which every byte is zero, and for no other. -/
theorem string_faithful_iff (k : Ksuid) :
    (∃ s, toString k = some s ∧ fromString s = some k ∧
      ∀ k' s', toString k' = some s' → (Before (s.map Char.toNat) (s'.map Char.toNat) ↔
        Before (k.bytes.map UInt8.toNat) (k'.bytes.map UInt8.toNat))) ↔ ∃ b ∈ k.bytes, b ≠ 0 := by
  constructor
  · rintro ⟨s, text, -⟩
    by_contra zero
    push Not at zero
    have bytes : k.bytes = replicate 20 0 := eq_replicate_iff.mpr ⟨k.size, zero⟩
    have sextets : (toSextets (replicate 20 0)).map sextetToChar = replicate 27 '-' := by decide
    rw [toString, bytes, sextets, trim_replicate] at text
    cases text
  · rintro ⟨b, hb, nonzero⟩
    cases text : toString k with
    | some s => exact ⟨s, rfl, fromString_toString text, fun k' s' h => before_toString text h⟩
    | none =>
      rcases trim_spec ((toSextets k.bytes).map sextetToChar) with ⟨-, all⟩ | ⟨t, n, some, -⟩
      · have sextets := congrArg (map charToSextet) all
        rw [decode_sextets, length_map, length_toSextets, map_replicate] at sextets
        have bytes := octets_toSextets k.bytes k.size
        rw [sextets, show octets (replicate 27 (charToSextet '-')) = replicate 20 0 by decide] at bytes
        rw [← bytes] at hb
        exact absurd (eq_of_mem_replicate hb) nonzero
      · rw [toString, some] at text
        cases text

theorem not_faithful_zero : toString ⟨replicate 20 0, rfl⟩ = none := by
  have sextets : (toSextets (replicate 20 0)).map sextetToChar = replicate 27 '-' := by decide
  rw [toString, sextets, trim_replicate]

end Ksuid
end SkipPlatform
