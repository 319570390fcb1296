import SkipPlatform.SqlValue
import Mathlib.Tactic

set_option autoImplicit false

/-! The lines in which rows are replicated. A text is the list of its characters; what reads one
gives back the rest of it, and a line is read as if newlines came after it. -/
namespace SkipPlatform.SqlCsv

def isPrintableAscii (ch : Char) : Bool := 32 ≤ ch.toNat && ch.toNat < 127

def isControlC0 (ch : Char) : Bool := ch.toNat < 32

def isBasicMultiLingualPlane (ch : Char) : Bool := ch.toNat < 0x10000

def isSurrogate (code : ℕ) : Bool := 0xD800 ≤ code && code < 0xE000

def isHighSurrogate (code : ℕ) : Bool := 0xD800 ≤ code && code < 0xDC00

def isLowSurrogate (code : ℕ) : Bool := 0xDC00 ≤ code && code < 0xE000

def hexDigitChars : List Char :=
  ['0', '1', '2', '3', '4', '5', '6', '7', '8', '9', 'a', 'b', 'c', 'd', 'e', 'f']

def intToHexDigit (value : ℕ) : Char := hexDigitChars.getD value '0'

/-- The lowest digits of a number; every number that is written has no more of them. -/
def intToHexDigits (n : ℕ) : ℕ → List Char
  | 0 => []
  | numDigits + 1 => intToHexDigits (n / 16) numDigits ++ [intToHexDigit (n % 16)]

def hexDigitToInt : Char → Option ℕ
  | '0' => some 0
  | '1' => some 1
  | '2' => some 2
  | '3' => some 3
  | '4' => some 4
  | '5' => some 5
  | '6' => some 6
  | '7' => some 7
  | '8' => some 8
  | '9' => some 9
  | 'a' => some 10
  | 'b' => some 11
  | 'c' => some 12
  | 'd' => some 13
  | 'e' => some 14
  | 'f' => some 15
  | 'A' => some 10
  | 'B' => some 11
  | 'C' => some 12
  | 'D' => some 13
  | 'E' => some 14
  | 'F' => some 15
  | _ => none

def hexDigitsToInt (digits : List Char) : Option ℕ :=
  digits.foldlM (fun current digit => (hexDigitToInt digit).map (current * 16 + ·)) 0

/-- The high and the low surrogate of a character outside the basic plane. -/
def toUTF16SurrogatePair (ch : Char) : ℕ × ℕ :=
  let bits := ch.toNat - 0x10000
  (0xD800 + bits / 0x400, 0xDC00 + bits % 0x400)

def fromSurrogatePair (highCode lowCode : ℕ) : Option Char :=
  if isHighSurrogate highCode && isLowSurrogate lowCode then
    some (Char.ofNat (0x10000 + (highCode - 0xD800) * 0x400 + (lowCode - 0xDC00)))
  else none

def requiresEscape (ch : Char) : Bool := !isPrintableAscii ch || ch == '"' || ch == '\\'

def addCode (code : ℕ) : List Char := '\\' :: 'u' :: intToHexDigits code 4

def charToString (ch : Char) : List Char :=
  if !requiresEscape ch then [ch]
  else
    match ch with
    | '\\' => ['\\', '\\']
    | '"' => ['\\', '"']
    | '\x08' => ['\\', 'b']
    | '\x0c' => ['\\', 'f']
    | '\n' => ['\\', 'n']
    | '\x0d' => ['\\', 'r']
    | '\t' => ['\\', 't']
    | _ =>
      if isBasicMultiLingualPlane ch then addCode ch.toNat
      else addCode (toUTF16SurrogatePair ch).1 ++ addCode (toUTF16SurrogatePair ch).2

def escapeString (s : List Char) : List Char :=
  match s.find? requiresEscape with
  | none => '"' :: s ++ ['"']
  | some _ => '"' :: s.flatMap charToString ++ ['"']

def push (ch : Char) (result : Option (List Char × List Char)) : Option (List Char × List Char) :=
  result.map (fun r => (ch :: r.1, r.2))

/-- The text up to the quotation mark, and what comes after it. The four digits of a trailing
surrogate are read right after those of the leading one. -/
@[grind] def decodeString : List Char → Option (List Char × List Char)
  | [] => none
  | '"' :: rest => some ([], rest)
  | '\\' :: '"' :: rest => push '"' (decodeString rest)
  | '\\' :: '\\' :: rest => push '\\' (decodeString rest)
  | '\\' :: '/' :: rest => push '/' (decodeString rest)
  | '\\' :: 'b' :: rest => push '\x08' (decodeString rest)
  | '\\' :: 'f' :: rest => push '\x0c' (decodeString rest)
  | '\\' :: 'n' :: rest => push '\n' (decodeString rest)
  | '\\' :: 'r' :: rest => push '\x0d' (decodeString rest)
  | '\\' :: 't' :: rest => push '\t' (decodeString rest)
  | '\\' :: 'u' :: a :: b :: c :: d :: rest =>
    match hexDigitsToInt [a, b, c, d] with
    | none => none
    | some leadingCode =>
      if !isSurrogate leadingCode then push (Char.ofNat leadingCode) (decodeString rest)
      else if isLowSurrogate leadingCode then none
      else
        match rest with
        | a :: b :: c :: d :: rest =>
          match hexDigitsToInt [a, b, c, d] with
          | none => none
          | some trailingCode =>
            if !isLowSurrogate trailingCode then none
            else
              match fromSurrogatePair leadingCode trailingCode with
              | none => none
              | some ch => push ch (decodeString rest)
        | _ => none
  | '\\' :: _ => none
  | ch :: rest => if isControlC0 ch then none else push ch (decodeString rest)

theorem push_eq_some {ch : Char} {result : Option (List Char × List Char)} {s rest : List Char}
    (h : push ch result = some (s, rest)) : ∃ s', result = some (s', rest) ∧ s = ch :: s' := by
  cases result with
  | none => cases h
  | some r =>
    cases h
    exact ⟨r.1, rfl, rfl⟩

theorem length_of_push {cs rest : List Char} {ch : Char} {s : List Char}
    (ih : ∀ {s' : List Char}, decodeString cs = some (s', rest) → rest.length < cs.length)
    (hp : push ch (decodeString cs) = some (s, rest)) : rest.length < cs.length := by
  obtain ⟨s', hd, _⟩ := push_eq_some hp
  exact ih hd

theorem decodeString_length {cs s rest : List Char} (h : decodeString cs = some (s, rest)) :
    rest.length < cs.length := by
  fun_induction decodeString cs generalizing s with
  | case1 => cases h
  | case2 rest' =>
    cases h
    simp
  | _ =>
    first
    | cases h
    | rename_i ih
      have hl := length_of_push ih h
      simp only [List.length_cons]
      omega

/-- The fields of a line; a quoted one is marked. `processingString` is set from a quoted field to
the next comma. -/
def lex (processingString : Bool) (acc : List Char) :
    List Char → Option (List (Bool × List Char))
  | [] => some (if processingString then [] else [(false, acc)])
  | ch :: rest =>
    if ch = '\n' then some (if processingString then [] else [(false, acc)])
    else if ch = '"' ∧ processingString = false then
      match _h : decodeString rest with
      | none => none
      | some (str, rest') => (lex true acc rest').map ((true, str) :: ·)
    else if ch = ',' then
      (lex false [] rest).map (fun fields =>
        if processingString then fields else (false, acc) :: fields)
    else lex processingString (acc ++ [ch]) rest
termination_by cs => cs.length
decreasing_by
  · have hl := decodeString_length _h
    simp only [List.length_cons]
    omega
  · simp
  · simp

/-- The value goes on as if it were wrong when it is negative, except for the least integer at the
end of the text. -/
def toIntHelperRest : List Char → BitVec 64 → BitVec 64
  | [], value => if value.slt 0 && value != BitVec.intMin 64 then -1 else value
  | ch :: rest, value =>
    if value.slt 0 then -1
    else if '0' ≤ ch ∧ ch ≤ '9' then
      if 922337203685477580 < value.toInt then -1
      else toIntHelperRest rest (value * 10 + BitVec.ofNat 64 (ch.toNat - 48))
    else -1

def toIntOption : List Char → Option (BitVec 64)
  | [] => none
  | ch :: rest =>
    if ch = '-' then
      match rest with
      | [] => none
      | ch :: rest =>
        if '0' ≤ ch ∧ ch ≤ '9' then
          let n := toIntHelperRest rest (BitVec.ofNat 64 (ch.toNat - 48))
          if n + 1 ≠ 0 then some (-n) else none
        else none
    else if '0' ≤ ch ∧ ch ≤ '9' then
      let n := toIntHelperRest rest (BitVec.ofNat 64 (ch.toNat - 48))
      if n.slt 0 then none else some n
    else none

def intToString (n : BitVec 64) : List Char :=
  if n.toInt < 0 then '-' :: Nat.toDigits 10 n.toInt.natAbs else Nat.toDigits 10 n.toInt.natAbs

/-- The row with the number of times that it is there, which is not negative. -/
structure RowValues where
  values : List (Option CValue)
  repeatCount : BitVec 64
  nonneg : 0 ≤ repeatCount.toInt
deriving DecidableEq

def toStringWithFormat : CValue → List Char
  | .int n => intToString n
  | .string str => escapeString str.toList

def fieldString : Option CValue → List Char
  | none => []
  | some v => toStringWithFormat v

namespace RowValues

def valueAt (row : RowValues) (i : ℕ) : Option CValue := (row.values[i]?).join

/-- The columns `indices` of a row; a row of one column is written as it is. -/
def toStringSingle (row : RowValues) (indices : List ℕ) : List Char :=
  if row.values.length = 1 then fieldString (row.valueAt 0)
  else
    indices.dropLast.flatMap (fun i => fieldString (row.valueAt i) ++ [',']) ++
      fieldString (row.valueAt (indices.getLastD 0))

def toKVString (row : RowValues) : List Char :=
  intToString row.repeatCount ++ '\t' :: row.toStringSingle (List.range row.values.length) ++ ['\n']

end RowValues

inductive ColumnType where
  | integer
  | text
deriving DecidableEq

structure ColumnDefinition where
  ty : ColumnType
  notNull : Bool

inductive Value (F : Type) where
  | null
  | int (n : BitVec 64)
  | float (f : F)
  | string (s : List Char)

section Parse

variable {F : Type} (toFloatOption : List Char → Option F)

def parseCSVValue : Bool × List Char → Value F
  | (true, str) => .string str
  | (false, str) =>
    if str = [] then .null
    else
      match toIntOption str with
      | some n => .int n
      | none =>
        match toFloatOption str with
        | some f => .float f
        | none => .string str

def valueToCValue (column : ColumnDefinition) : Value F → Option (Option CValue)
  | .null => if column.notNull then none else some none
  | .int n => if column.ty = .integer then some (some (.int n)) else none
  | .string s => if column.ty = .text then some (some (.string (String.ofList s))) else none
  | .float _ => none

def computeInsertRow (schema : List ColumnDefinition) (values : List (Value F)) :
    Option (List (Option CValue)) :=
  if values.length = schema.length then
    (List.zip schema values).mapM (fun cv => valueToCValue cv.1 cv.2)
  else none

def readRepeat : List Char → Option (List Char × List Char)
  | [] => none
  | ch :: rest =>
    if ch = '\t' then some ([], rest)
    else if ch < '0' ∨ '9' < ch then none
    else push ch (readRepeat rest)

def parseTableChange (schema : List ColumnDefinition) (line : List Char) :
    Option (List RowValues) :=
  if line.head? = some '^' ∨ line.head? = some ':' ∨ line.head? = some '\t' then none
  else do
    let (chars, str) ← readRepeat line
    let repeatCount ← toIntOption chars
    let fields ← lex false [] str
    let values ← computeInsertRow schema (fields.map (parseCSVValue toFloatOption))
    if h : 0 ≤ repeatCount.toInt then
      return [{ values := values, repeatCount := repeatCount, nonneg := h }]
    else none

end Parse

end SkipPlatform.SqlCsv
