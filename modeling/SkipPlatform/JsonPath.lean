import SkipPlatform.SqlCsvRoundTrip

set_option autoImplicit false

/-! The paths into a JSON value: how one is printed and how its text is read again. A text is the
list of its characters. -/
namespace SkipPlatform.SKJSON
open List SkipPlatform.SqlCsv

inductive PathElement
  | PEField (name : List Char)
  | PEIndex (n : BitVec 64)
deriving DecidableEq

def pathElementToString : PathElement → List Char
  | .PEField x => '.' :: x
  | .PEIndex x => '[' :: (intToString x ++ [']'])

def pathToString : List PathElement → List Char
  | [] => []
  | head :: tail => pathElementToString head ++ pathToString tail

inductive Exn
  | ParseError (msg : List Char)
  | ReconstructError (msg : List Char)
  | InvariantViolation (msg : List Char)
deriving DecidableEq

/-- The characters to come; the last one put back is the head of `backBuf`. -/
structure Lexer where
  iter : List Char
  backBuf : List Char
deriving DecidableEq

namespace Lexer

def isSpace (c : Char) : Bool := c == ' ' || c == '\t' || c == '\n'

@[grind] def nextIter : List Char → Option Char × List Char
  | [] => (none, [])
  | c :: rest => if isSpace c then nextIter rest else (some c, rest)

@[grind] def next (this : Lexer) : Option Char × Lexer :=
  match this.backBuf with
  | [] => ((nextIter this.iter).1, { this with iter := (nextIter this.iter).2 })
  | c :: backBuf => (some c, { this with backBuf := backBuf })

def back (this : Lexer) (c : Char) : Lexer := { this with backBuf := c :: this.backBuf }

def size (this : Lexer) : ℕ := this.backBuf.length + this.iter.length

theorem nextIter_length (l : List Char) : (nextIter l).2.length ≤ l.length := by
  induction l with
  | nil => exact Nat.le_refl _
  | cons c rest ih =>
    rw [nextIter]
    split
    · exact Nat.le_trans ih (Nat.le_succ _)
    · exact Nat.le_succ _

theorem nextIter_length_lt {l : List Char} {c : Char} (h : (nextIter l).1 = some c) :
    (nextIter l).2.length < l.length := by
  induction l with
  | nil => cases h
  | cons d rest ih =>
    rw [nextIter] at h ⊢
    split
    · rename_i space
      rw [if_pos space] at h
      exact Nat.lt_succ_of_lt (ih h)
    · exact Nat.lt_succ_self _

theorem next_size {this lex : Lexer} {c : Char} (h : this.next = (some c, lex)) :
    lex.size < this.size := by
  rw [next] at h
  cases waiting : this.backBuf with
  | nil =>
    rw [waiting] at h
    obtain ⟨first, rfl⟩ := Prod.mk.inj h
    have less := nextIter_length_lt first
    simp only [size, waiting]
    omega
  | cons d rest =>
    rw [waiting] at h
    obtain ⟨-, rfl⟩ := Prod.mk.inj h
    simp only [size, waiting, length_cons]
    omega

theorem next_size_le {this lex : Lexer} {found : Option Char} (h : this.next = (found, lex)) :
    lex.size ≤ this.size := by
  cases found with
  | some c => exact Nat.le_of_lt (next_size h)
  | none =>
    rw [next] at h
    cases waiting : this.backBuf with
    | nil =>
      rw [waiting] at h
      obtain ⟨-, rfl⟩ := Prod.mk.inj h
      simp only [size, waiting]
      exact Nat.add_le_add_left (nextIter_length this.iter) _
    | cons d rest =>
      rw [waiting] at h
      cases (Prod.mk.inj h).1

theorem back_size (this : Lexer) (c : Char) : (this.back c).size = this.size + 1 := by
  simp only [back, size, length_cons]
  omega

end Lexer

def delimiters : List Char :=
  ['\t', '\n', ' ', '!', '"', '#', '$', '%', '&', '\'', '(', ')', '*', '+', ',', '-', '.', '/', ':',
    ';', '<', '=', '>', '?', '@', '[', '\\', ']', '^', '_', '`', '{', '|', '}', '~']

def nextKeyword (lex : Lexer) (buffer : List Char) : List Char × Lexer :=
  match _h : lex.next with
  | (none, lex) => (buffer, lex)
  | (some c, lex) =>
    if c ∈ delimiters then (buffer, lex.back c) else nextKeyword lex (buffer ++ [c])
termination_by lex.size
decreasing_by exact Lexer.next_size _h

/-- The characters up to the next quote are taken from the text, and not from those put back. -/
def nextString (lex : Lexer) (buffer : List Char) : Except Exn (List Char × Lexer) :=
  match _h : lex.iter with
  | [] => .ok (buffer, lex)
  | c :: rest =>
    if c = '"' then .ok (buffer, { lex with iter := rest })
    else if c = '\\' then
      match _h : Lexer.next { lex with iter := rest } with
      | (none, _) => .error (.InvariantViolation "Unterminated string".toList)
      | (some escaped, lex) => nextString lex (buffer ++ [c, escaped])
    else nextString { lex with iter := rest } (buffer ++ [c])
termination_by lex.size
decreasing_by
  · have less := Lexer.next_size ‹Lexer.next _ = _›
    simp only [Lexer.size, length_cons, *] at less ⊢
    omega
  · simp only [Lexer.size, length_cons, *]
    omega

def indexChars (lex : Lexer) (chars : List Char) : Except Exn (List Char × Lexer) :=
  match _h : lex.next with
  | (none, _) => .error (.ParseError "Unexpected end of path".toList)
  | (some c, lex) =>
    if c = ']' then .ok (chars, lex)
    else if c < '0' ∨ '9' < c then
      .error (.ParseError ("Unexpected character for an index: ".toList ++ [c]))
    else indexChars lex (chars ++ [c])
termination_by lex.size
decreasing_by exact Lexer.next_size _h

def toInt (str : List Char) : Except Exn (BitVec 64) :=
  match toIntOption str with
  | none => .error (.InvariantViolation ("String.toInt: parse error on '".toList ++ str ++ ['\'']))
  | some i => .ok i

def fieldName (lex : Lexer) : Except Exn (List Char × Lexer) :=
  match lex.next with
  | (none, _) => .error (.ParseError "Expected a field name after .".toList)
  | (some c, lex) => if c = '"' then nextString lex [] else .ok (nextKeyword (lex.back c) [])

theorem nextKeyword_size (lex : Lexer) (buffer : List Char) :
    (nextKeyword lex buffer).1.length + (nextKeyword lex buffer).2.size ≤
      buffer.length + lex.size := by
  fun_induction nextKeyword lex buffer with
  | case1 lex buffer after found =>
    have less := Lexer.next_size_le found
    exact Nat.add_le_add_left less _
  | case2 lex buffer c after found delimiter =>
    have less := Lexer.next_size found
    rw [Lexer.back_size]
    exact Nat.add_le_add_left less _
  | case3 lex buffer c after found delimiter ih =>
    have less := Lexer.next_size found
    rw [length_append, length_singleton] at ih
    omega

theorem nextKeyword_not_delimiter (lex : Lexer) (buffer : List Char)
    (h : ∀ c ∈ buffer, c ∉ delimiters) : ∀ c ∈ (nextKeyword lex buffer).1, c ∉ delimiters := by
  fun_induction nextKeyword lex buffer with
  | case1 => exact h
  | case2 => exact h
  | case3 lex buffer c after found delimiter ih =>
    apply ih
    intro d member
    rcases mem_append.mp member with member | member
    · exact h d member
    · rw [mem_singleton.mp member]
      exact delimiter

variable {lex after : Lexer}

theorem nextString_size {buffer name : List Char}
    (h : nextString lex buffer = .ok (name, after)) :
    name.length + after.size ≤ buffer.length + lex.size := by
  fun_induction nextString lex buffer with
  | case1 lex buffer ended =>
    cases h
    exact Nat.le_refl _
  | case2 lex buffer rest found =>
    cases h
    simp only [Lexer.size, found, length_cons]
    omega
  | case3 => cases h
  | case4 lex buffer rest escaped next following found _ ih =>
    have less := Lexer.next_size following
    have sizes := ih h
    simp only [Lexer.size, found, length_append, length_cons, length_nil]
      at less sizes ⊢
    omega
  | case5 lex buffer c rest found notQuote notEscape ih =>
    have sizes := ih h
    simp only [Lexer.size, found, length_append, length_cons, length_nil] at sizes ⊢
    omega

theorem indexChars_size {chars digits : List Char}
    (h : indexChars lex chars = .ok (digits, after)) :
    digits.length + after.size < chars.length + lex.size := by
  fun_induction indexChars lex chars with
  | case1 => cases h
  | case2 lex chars after found =>
    cases h
    have less := Lexer.next_size found
    omega
  | case3 => cases h
  | case4 lex chars c after found notEnd digit ih =>
    have less := Lexer.next_size found
    have sizes := ih h
    rw [length_append, length_singleton] at sizes
    omega

theorem fieldName_size {name : List Char}
    (h : fieldName lex = .ok (name, after)) :
    name.length + after.size < lex.size ∨
      name.length + after.size = lex.size ∧ ∀ c ∈ name, c ∉ delimiters := by
  rw [fieldName] at h
  split at h
  · cases h
  · rename_i c lex' found
    have less := Lexer.next_size found
    split at h
    · have sizes := nextString_size h
      rw [length_nil] at sizes
      left
      omega
    · obtain ⟨rfl, rfl⟩ := Prod.mk.inj (Except.ok.inj h)
      have sizes := nextKeyword_size (lex'.back c) []
      rw [Lexer.back_size, length_nil] at sizes
      exact (Nat.lt_or_eq_of_le (by omega)).imp_right fun same =>
        ⟨same, nextKeyword_not_delimiter (lex'.back c) [] (forall_mem_nil _)⟩

def path (lex : Lexer) : Except Exn (List PathElement) :=
  match _h : lex.next with
  | (none, _) => .ok []
  | (some c, lex) =>
    if c = '.' then
      match _h : fieldName lex with
      | .error exn => .error exn
      | .ok (name, lex) => (path lex).map fun tail => .PEField name :: tail
    else if c = '[' then
      match _h : indexChars lex [] with
      | .error exn => .error exn
      | .ok (chars, lex) =>
        match toInt chars with
        | .error exn => .error exn
        | .ok n => (path lex).map fun tail => .PEIndex n :: tail
    else .error (.ParseError ("Unexpected character: ".toList ++ [c]))
termination_by lex.size
decreasing_by
  · have less := Lexer.next_size ‹Lexer.next _ = _›
    have := fieldName_size ‹fieldName _ = _›
    omega
  · have less := Lexer.next_size ‹Lexer.next _ = _›
    have := indexChars_size ‹indexChars _ _ = _›
    simp only [length_nil] at this
    omega

def parsePath (str : List Char) : Except Exn (List PathElement) := path ⟨str, []⟩

theorem map_eq_ok {A B : Type} {x : Except Exn A} {f : A → B} {b : B} (h : x.map f = .ok b) :
    ∃ a, x = .ok a ∧ f a = b := by
  cases x with
  | error exn => cases h
  | ok a => exact ⟨a, rfl, Except.ok.inj h⟩

theorem toIntHelperRest_neg (ds : List Char) (value : BitVec 64) (h : value.slt 0 = true) :
    (toIntHelperRest ds value).slt 0 = true := by
  cases ds with
  | nil =>
    unfold toIntHelperRest
    split
    · decide
    · exact h
  | cons ch ds =>
    unfold toIntHelperRest
    rw [if_pos h]
    decide

theorem toIntHelperRest_nonneg (ds : List Char) (hd : ∀ ch ∈ ds, ch.isDigit = true) (v : ℕ)
    (small : v < 2 ^ 63) (h : (toIntHelperRest ds (BitVec.ofNat 64 v)).slt 0 = false) :
    Nat.ofDigitChars 10 ds v < 2 ^ 63 := by
  induction ds generalizing v with
  | nil => exact small
  | cons ch ds ih =>
    have hc := (isDigit_iff ch).mp (hd ch (by simp))
    have hnext : BitVec.ofNat 64 v * 10 + BitVec.ofNat 64 (ch.toNat - 48) =
        BitVec.ofNat 64 (10 * v + (ch.toNat - '0'.toNat)) := by
      rw [BitVec.ofNat_add, BitVec.ofNat_mul, BitVec.mul_comm]
      rfl
    unfold toIntHelperRest at h
    rw [if_neg (by simp [not_slt_zero small]), if_pos hc, hnext] at h
    split at h
    · exact absurd h (by decide)
    · rename_i bound
      rw [ofNat_toInt small] at bound
      rw [Nat.ofDigitChars_cons]
      by_cases next : 10 * v + (ch.toNat - '0'.toNat) < 2 ^ 63
      · exact ih (fun c hm => hd c (mem_cons_of_mem ch hm)) _ next h
      · have digit : ch.toNat ≤ '9'.toNat := hc.2
        have nine : '9'.toNat = 57 := rfl
        have zero : '0'.toNat = 48 := rfl
        have negative : (BitVec.ofNat 64 (10 * v + (ch.toNat - '0'.toNat))).slt 0 = true := by
          rw [BitVec.slt, decide_eq_true_iff, BitVec.toInt_eq_toNat_cond, BitVec.toNat_ofNat,
            Nat.mod_eq_of_lt (by omega), if_neg (by omega)]
          simp only [BitVec.ofNat_eq_ofNat, BitVec.toInt_zero]
          omega
        rw [toIntHelperRest_neg ds _ negative] at h
        cases h

variable {n : BitVec 64}

theorem toIntOption_digits {ds : List Char} (hd : ∀ ch ∈ ds, ch.isDigit = true)
    (h : toIntOption ds = some n) :
    ds ≠ [] ∧ n = BitVec.ofNat 64
    (Nat.ofDigitChars 10 ds 0) ∧ Nat.ofDigitChars 10 ds 0 < 2 ^ 63 := by
  cases ds with
  | nil => cases h
  | cons ch ds =>
    have hc := (isDigit_iff ch).mp (hd ch mem_cons_self)
    have minus : ch ≠ '-' := by
      rintro rfl
      exact absurd hc.1 (by decide)
    have digit : ch.toNat ≤ '9'.toNat := hc.2
    have nine : '9'.toNat = 57 := rfl
    have rest : ∀ c ∈ ds, c.isDigit = true := fun c hm => hd c (mem_cons_of_mem ch hm)
    have value : Nat.ofDigitChars 10 (ch :: ds) 0 = Nat.ofDigitChars 10 ds (ch.toNat - 48) := by
      rw [Nat.ofDigitChars_cons]
      simp
    simp only [toIntOption, if_neg minus, if_pos hc] at h
    split at h
    · cases h
    · rename_i nonneg
      have small := toIntHelperRest_nonneg ds rest (ch.toNat - 48) (by omega)
        (Bool.eq_false_iff.mpr nonneg)
      rw [value]
      refine ⟨cons_ne_nil _ _, ?_, small⟩
      rw [← Option.some.inj h, toIntHelperRest_digits ds rest _ (Nat.le_of_lt small)]

theorem ofDigitChars_lt (ds : List Char) (hd : ∀ ch ∈ ds, ch.isDigit = true) (v : ℕ) :
    Nat.ofDigitChars 10 ds v < (v + 1) * 10 ^ ds.length := by
  induction ds generalizing v with
  | nil => simp
  | cons ch ds ih =>
    have digit : ch.toNat ≤ '9'.toNat := ((isDigit_iff ch).mp (hd ch mem_cons_self)).2
    have nine : '9'.toNat = 57 := rfl
    have zero : '0'.toNat = 48 := rfl
    rw [Nat.ofDigitChars_cons, length_cons]
    calc Nat.ofDigitChars 10 ds (10 * v + (ch.toNat - '0'.toNat))
        < (10 * v + (ch.toNat - '0'.toNat) + 1) * 10 ^ ds.length :=
          ih (fun c hm => hd c (mem_cons_of_mem ch hm)) _
      _ ≤ (10 * (v + 1)) * 10 ^ ds.length := Nat.mul_le_mul_right _ (by omega)
      _ = (v + 1) * 10 ^ (ds.length + 1) := by ring

theorem length_intToString_le {ds : List Char} (hd : ∀ ch ∈ ds, ch.isDigit = true)
    (h : toIntOption ds = some n) : (intToString n).length ≤ ds.length := by
  obtain ⟨some, value, small⟩ := toIntOption_digits hd h
  have bound := ofDigitChars_lt ds hd 0
  have toInt : n.toInt = Nat.ofDigitChars 10 ds 0 := by
    rw [value, ofNat_toInt small]
  rw [intToString, if_neg (by omega), toInt, Int.natAbs_natCast,
    Nat.length_toDigits_le_iff (by decide) (length_pos_iff.mpr some)]
  omega

theorem indexChars_digits {chars digits : List Char}
    (h : indexChars lex chars = .ok (digits, after)) (hd : ∀ ch ∈ chars, ch.isDigit = true) :
    ∀ ch ∈ digits, ch.isDigit = true := by
  fun_induction indexChars lex chars with
  | case1 => cases h
  | case2 =>
    cases h
    exact hd
  | case3 => cases h
  | case4 lex chars c after found notEnd digit ih =>
    apply ih h
    intro ch member
    rcases mem_append.mp member with member | member
    · exact hd ch member
    · rw [mem_singleton.mp member, isDigit_iff]
      rw [not_or, not_lt, not_lt] at digit
      exact digit

theorem toIntOption_of_toInt {str : List Char} (h : toInt str = .ok n) :
    toIntOption str = some n := by
  rw [toInt] at h
  split at h
  · cases h
  · rename_i found
    cases h
    exact found

theorem path_length {lex : Lexer} {q : List PathElement} (h : path lex = .ok q) :
    (pathToString q).length ≤ lex.size ∧ ((pathToString q).length = lex.size →
      ∀ name, .PEField name ∈ q → ∀ c ∈ name, c ∉ delimiters) := by
  fun_induction path lex generalizing q with
  | case1 =>
    cases h
    exact ⟨Nat.zero_le _, fun _ name member => absurd member not_mem_nil⟩
  | case2 => cases h
  | case3 lex after name rest named found ih =>
    obtain ⟨tail, read, rfl⟩ := map_eq_ok h
    have less := Lexer.next_size found
    obtain ⟨shorter, plain⟩ := ih read
    have length : (pathToString (.PEField name :: tail)).length =
        1 + name.length + (pathToString tail).length := by
      simp only [pathToString, pathElementToString, length_append, length_cons]
      omega
    rw [length]
    rcases fieldName_size named with shrunk | ⟨same, letters⟩
    · exact ⟨by omega, fun _ => by omega⟩
    · refine ⟨by omega, fun whole name' member => ?_⟩
      rcases mem_cons.mp member with this | member
      · cases this
        exact letters
      · exact plain (by omega) name' member
  | case4 => cases h
  | case5 => cases h
  | case6 lex after chars rest digits n value found notDot ih =>
    obtain ⟨tail, read, rfl⟩ := map_eq_ok h
    have less := Lexer.next_size found
    obtain ⟨shorter, plain⟩ := ih read
    have taken := indexChars_size digits
    have printed := length_intToString_le (indexChars_digits digits (forall_mem_nil _))
      (toIntOption_of_toInt value)
    have length : (pathToString (.PEIndex n :: tail)).length =
        2 + (intToString n).length + (pathToString tail).length := by
      simp only [pathToString, pathElementToString, length_append, length_cons,
        length_nil]
      omega
    rw [length_nil] at taken
    rw [length]
    refine ⟨by omega, fun whole name member => ?_⟩
    rcases mem_cons.mp member with this | member
    · cases this
    · exact plain (by omega) name member
  | case7 => cases h

def PathElement.Plain : PathElement → Prop
  | .PEField name => name ≠ [] ∧ ∀ c ∈ name, c ∉ delimiters
  | .PEIndex n => 0 ≤ n.toInt

namespace Lexer

def Reads (this : Lexer) (s : List Char) : Prop :=
  this.backBuf ++ this.iter = s ∧ ∀ c ∈ s, isSpace c = false

theorem Reads.next_cons {this : Lexer} {c : Char} {s : List Char} (h : this.Reads (c :: s)) :
    ∃ after, this.next = (some c, after) ∧ after.Reads s := by
  obtain ⟨chars, solid⟩ := h
  have rest : ∀ d ∈ s, isSpace d = false := fun d member => solid d (mem_cons_of_mem c member)
  unfold next
  cases waiting : this.backBuf with
  | nil =>
    rw [waiting, nil_append] at chars
    have some : nextIter this.iter = (some c, s) := by
      rw [chars, nextIter, solid c mem_cons_self, if_neg Bool.false_ne_true]
    rw [some]
    exact ⟨_, rfl, rfl, rest⟩
  | cons d backBuf =>
    rw [waiting] at chars
    obtain ⟨rfl, more⟩ := List.cons.inj chars
    exact ⟨_, rfl, more, rest⟩

theorem Reads.next_nil {this : Lexer} (h : this.Reads []) :
    ∃ after, this.next = (none, after) ∧ after.Reads [] := by
  obtain ⟨none, ended⟩ := append_eq_nil_iff.mp h.1
  unfold next
  rw [none, ended]
  exact ⟨_, rfl, rfl, forall_mem_nil _⟩

theorem Reads.back {this : Lexer} {s : List Char} (h : this.Reads s) {c : Char}
    (solid : isSpace c = false) : (this.back c).Reads (c :: s) := by
  refine ⟨congrArg (List.cons c) h.1, fun d member => ?_⟩
  rcases mem_cons.mp member with rfl | member
  · exact solid
  · exact h.2 d member

end Lexer

theorem nextKeyword_next {c : Char} (h : lex.next = (some c, after))
    (buffer : List Char) : nextKeyword lex buffer =
      if c ∈ delimiters then (buffer, after.back c) else nextKeyword after (buffer ++ [c]) := by
  rw [nextKeyword]
  split
  · rename_i none
    rw [h] at none
    cases none
  · rename_i same
    rw [h] at same
    cases same
    rfl

theorem nextKeyword_none (h : lex.next = (none, after)) (buffer : List Char) :
    nextKeyword lex buffer = (buffer, after) := by
  rw [nextKeyword]
  split
  · rename_i same
    rw [h] at same
    cases same
    rfl
  · rename_i some
    rw [h] at some
    cases some

theorem nextKeyword_reads {lex : Lexer} {w s : List Char} (buffer : List Char)
    (h : lex.Reads (w ++ s)) (plain : ∀ c ∈ w, c ∉ delimiters)
    (ends : ∀ c, s.head? = some c → c ∈ delimiters) :
    ∃ after, nextKeyword lex buffer = (buffer ++ w, after) ∧ after.Reads s := by
  induction w generalizing lex buffer with
  | nil =>
    rw [append_nil]
    rw [nil_append] at h
    cases s with
    | nil =>
      obtain ⟨after, none, reads⟩ := h.next_nil
      exact ⟨after, nextKeyword_none none buffer, reads⟩
    | cons c s =>
      obtain ⟨after, found, reads⟩ := h.next_cons
      rw [nextKeyword_next found, if_pos (ends c rfl)]
      exact ⟨_, rfl, reads.back (h.2 c mem_cons_self)⟩
  | cons c w ih =>
    obtain ⟨after, found, reads⟩ := h.next_cons
    rw [nextKeyword_next found, if_neg (plain c mem_cons_self)]
    have read := ih (buffer ++ [c]) reads fun d member => plain d (mem_cons_of_mem c member)
    rwa [append_assoc] at read

theorem indexChars_next {c : Char} (h : lex.next = (some c, after))
    (chars : List Char) : indexChars lex chars =
      if c = ']' then .ok (chars, after)
      else if c < '0' ∨ '9' < c then
        .error (.ParseError ("Unexpected character for an index: ".toList ++ [c]))
      else indexChars after (chars ++ [c]) := by
  rw [indexChars]
  split
  · rename_i none
    rw [h] at none
    cases none
  · rename_i same
    rw [h] at same
    cases same
    rfl

theorem indexChars_reads {lex : Lexer} {digits s : List Char} (chars : List Char)
    (h : lex.Reads (digits ++ ']' :: s)) (hd : ∀ c ∈ digits, c.isDigit = true) :
    ∃ after, indexChars lex chars = .ok (chars ++ digits, after) ∧ after.Reads s := by
  induction digits generalizing lex chars with
  | nil =>
    obtain ⟨after, found, reads⟩ := h.next_cons
    rw [indexChars_next found, if_pos rfl, append_nil]
    exact ⟨after, rfl, reads⟩
  | cons c digits ih =>
    obtain ⟨after, found, reads⟩ := h.next_cons
    have digit := (isDigit_iff c).mp (hd c mem_cons_self)
    have notEnd : c ≠ ']' := by
      rintro rfl
      exact absurd digit.2 (by decide)
    have bounds : ¬ (c < '0' ∨ '9' < c) := by
      rw [not_or, not_lt, not_lt]
      exact digit
    rw [indexChars_next found, if_neg notEnd, if_neg bounds]
    have read := ih (chars ++ [c]) reads fun d member => hd d (mem_cons_of_mem c member)
    rwa [append_assoc] at read

theorem path_next {c : Char} (h : lex.next = (some c, after)) : path lex =
    if c = '.' then (fieldName after).bind fun read => (path read.2).map (.PEField read.1 :: ·)
    else if c = '[' then (indexChars after []).bind fun read =>
      (toInt read.1).bind fun n => (path read.2).map (.PEIndex n :: ·)
    else .error (.ParseError ("Unexpected character: ".toList ++ [c])) := by
  rw [path]
  split
  · rename_i none
    rw [h] at none
    cases none
  · rename_i same
    rw [h] at same
    cases same
    by_cases dot : c = '.'
    · rw [if_pos dot, if_pos dot]
      split
      · rename_i failed
        rw [failed]
        rfl
      · rename_i read
        rw [read]
        rfl
    · rw [if_neg dot, if_neg dot]
      by_cases bracket : c = '['
      · rw [if_pos bracket, if_pos bracket]
        split
        · rename_i failed
          rw [failed]
          rfl
        · rename_i read
          rw [read]
          simp only [Except.bind]
          split
          · rename_i failed
            rw [failed]
          · rename_i value
            rw [value]
      · rw [if_neg bracket, if_neg bracket]

theorem path_none (h : lex.next = (none, after)) : path lex = .ok [] := by
  rw [path]
  split
  · rfl
  · rename_i some
    rw [h] at some
    cases some

theorem head_pathToString (p : List PathElement) (c : Char)
    (h : (pathToString p).head? = some c) : c = '.' ∨ c = '[' := by
  cases p with
  | nil => cases h
  | cons head tail =>
    cases head with
    | PEField name =>
      cases h
      exact .inl rfl
    | PEIndex n =>
      cases h
      exact .inr rfl

theorem fieldName_reads {lex : Lexer} {name s : List Char} (h : lex.Reads (name ++ s))
    (plain : PathElement.Plain (.PEField name)) (ends : ∀ c, s.head? = some c → c ∈ delimiters) :
    ∃ after, fieldName lex = .ok (name, after) ∧ after.Reads s := by
  obtain ⟨some, letters⟩ := plain
  cases name with
  | nil => exact absurd rfl some
  | cons c name =>
    obtain ⟨after, found, reads⟩ := h.next_cons
    have notQuote : c ≠ '"' := by
      rintro rfl
      exact letters _ mem_cons_self (by decide)
    have whole : (after.back c).Reads (c :: name ++ s) :=
      reads.back (h.2 c mem_cons_self)
    obtain ⟨rest, read, reads⟩ := nextKeyword_reads [] whole letters ends
    rw [fieldName, found]
    dsimp only
    rw [if_neg notQuote, read]
    exact ⟨rest, rfl, reads⟩

theorem toInt_intToString (n : BitVec 64) : toInt (intToString n) = .ok n := by
  rw [toInt, toIntOption_intToString]

theorem intToString_digits (h : 0 ≤ n.toInt) :
    ∀ c ∈ intToString n, c.isDigit = true := by
  rw [intToString, if_neg (by omega)]
  exact fun c member => Nat.isDigit_of_mem_toDigits (by decide) (by decide) member

theorem path_reads {lex : Lexer} {p : List PathElement} (h : lex.Reads (pathToString p))
    (plain : ∀ e ∈ p, e.Plain) : path lex = .ok p := by
  induction p generalizing lex with
  | nil =>
    obtain ⟨after, none, -⟩ := h.next_nil
    exact path_none none
  | cons head tail ih =>
    have tailPlain : ∀ e ∈ tail, e.Plain := fun e member => plain e (mem_cons_of_mem head member)
    have headPlain := plain head mem_cons_self
    cases head with
    | PEField name =>
      obtain ⟨after, found, reads⟩ := h.next_cons
      obtain ⟨rest, read, reads⟩ := fieldName_reads reads headPlain fun c first => by
        rcases head_pathToString tail c first with rfl | rfl <;> decide
      rw [path_next found, if_pos rfl, read, Except.bind, ih reads tailPlain]
      rfl
    | PEIndex n =>
      obtain ⟨after, found, reads⟩ := h.next_cons
      change after.Reads ((intToString n ++ [']']) ++ pathToString tail) at reads
      rw [append_assoc] at reads
      obtain ⟨rest, read, reads⟩ := indexChars_reads [] reads (intToString_digits headPlain)
      rw [path_next found, if_neg (by decide), if_pos rfl, read]
      simp only [Except.bind, nil_append, toInt_intToString, ih reads tailPlain]
      rfl

theorem PathElement.Plain.solid {e : PathElement} (h : e.Plain) :
    ∀ c ∈ pathElementToString e, Lexer.isSpace c = false := by
  have notSpace {c : Char} (h : c ∉ delimiters) : Lexer.isSpace c = false := by
    simp only [delimiters, mem_cons, not_or] at h
    simp [Lexer.isSpace, h]
  intro c member
  cases e with
  | PEField name =>
    rcases mem_cons.mp member with rfl | member
    · rfl
    · exact notSpace (h.2 c member)
  | PEIndex n =>
    rcases mem_cons.mp member with rfl | member
    · rfl
    · rcases mem_append.mp member with member | member
      · have digit := (isDigit_iff c).mp (intToString_digits h c member)
        refine Bool.eq_false_iff.mpr fun space => ?_
        rw [Lexer.isSpace, Bool.or_eq_true, Bool.or_eq_true, beq_iff_eq, beq_iff_eq,
          beq_iff_eq] at space
        rcases space with (rfl | rfl) | rfl <;> exact absurd digit.1 (by decide)
      · rw [mem_singleton.mp member]
        rfl

theorem parsePath_pathToString {p : List PathElement} (plain : ∀ e ∈ p, e.Plain) :
    parsePath (pathToString p) = .ok p := by
  refine path_reads ⟨rfl, ?_⟩ plain
  induction p with
  | nil => exact forall_mem_nil _
  | cons head tail ih =>
    intro c member
    rcases mem_append.mp member with member | member
    · exact (plain head mem_cons_self).solid c member
    · exact ih (fun e found => plain e (mem_cons_of_mem head found)) c member

theorem parsePath_length {str : List Char} {q : List PathElement} (h : parsePath str = .ok q) :
    (pathToString q).length ≤ str.length ∧ ((pathToString q).length = str.length →
      ∀ name, .PEField name ∈ q → ∀ c ∈ name, c ∉ delimiters) := by
  have bound := path_length h
  rwa [Lexer.size, length_nil, Nat.zero_add] at bound

end SkipPlatform.SKJSON
