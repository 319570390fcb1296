import SkipPlatform.SqlCsv

set_option autoImplicit false

namespace SkipPlatform.SqlCsv
open List

theorem hexDigitToInt_intToHexDigit (d : ℕ) (h : d < 16) :
    hexDigitToInt (intToHexDigit d) = some d := by
  revert d
  decide

theorem intToHexDigits_four (n : ℕ) : intToHexDigits n 4 =
    [intToHexDigit (n / 16 / 16 / 16 % 16), intToHexDigit (n / 16 / 16 % 16),
      intToHexDigit (n / 16 % 16), intToHexDigit (n % 16)] := rfl

theorem hexDigitsToInt_intToHexDigits (n : ℕ) (h : n < 0x10000) :
    hexDigitsToInt (intToHexDigits n 4) = some n := by
  have hd (m : ℕ) : hexDigitToInt (intToHexDigit (m % 16)) = some (m % 16) :=
    hexDigitToInt_intToHexDigit _ (Nat.mod_lt _ (by norm_num))
  rw [intToHexDigits_four]
  simp only [hexDigitsToInt, foldlM_cons, foldlM_nil, hd, Option.map_some,
    Option.bind_eq_bind, Option.bind_some, Option.pure_def, Option.some.injEq]
  omega

variable (ch : Char)

theorem not_isSurrogate : isSurrogate ch.toNat = false := by
  have hv : ch.toNat < 0xD800 ∨ 0xDFFF < ch.toNat ∧ ch.toNat < 0x110000 := ch.valid
  simp only [isSurrogate, Bool.and_eq_false_iff, decide_eq_false_iff_not]
  omega

theorem decodeString_addCode (h : ch.toNat < 0x10000) (rest : List Char) :
    decodeString (addCode ch.toNat ++ rest) = push ch (decodeString rest) := by
  have hx := hexDigitsToInt_intToHexDigits ch.toNat h
  rw [intToHexDigits_four] at hx
  simp only [addCode, intToHexDigits_four, cons_append, nil_append]
  rw [decodeString, hx]
  simp only [not_isSurrogate, Bool.not_false, if_true, Char.ofNat_toNat]

theorem decodeString_surrogates (h : 0x10000 ≤ ch.toNat) (rest : List Char) :
    decodeString (addCode (toUTF16SurrogatePair ch).1 ++ addCode (toUTF16SurrogatePair ch).2 ++
      rest) = none := by
  have hv : ch.toNat < 0x110000 := by
    have hc : ch.toNat < 0xD800 ∨ 0xDFFF < ch.toNat ∧ ch.toNat < 0x110000 := ch.valid
    omega
  have hlo : 0xD800 ≤ (toUTF16SurrogatePair ch).1 := by simp [toUTF16SurrogatePair]
  have hhi : (toUTF16SurrogatePair ch).1 < 0xDC00 := by
    simp only [toUTF16SurrogatePair]
    omega
  have hx := hexDigitsToInt_intToHexDigits (toUTF16SurrogatePair ch).1 (by omega)
  rw [intToHexDigits_four] at hx
  have hs : isSurrogate (toUTF16SurrogatePair ch).1 = true := by
    simp only [isSurrogate, Bool.and_eq_true, decide_eq_true_eq]
    omega
  have hl : isLowSurrogate (toUTF16SurrogatePair ch).1 = false := by
    simp only [isLowSurrogate, Bool.and_eq_false_iff, decide_eq_false_iff_not]
    omega
  simp only [addCode, intToHexDigits_four, cons_append, nil_append]
  rw [decodeString, hx]
  simp [hs, hl, hexDigitsToInt, hexDigitToInt]

theorem decodeString_plain (h : requiresEscape ch = false) (rest : List Char) :
    decodeString (ch :: rest) = push ch (decodeString rest) := by
  simp only [requiresEscape, Bool.or_eq_false_iff, Bool.not_eq_false', beq_eq_false_iff_ne,
    isPrintableAscii, Bool.and_eq_true, decide_eq_true_eq] at h
  have hc : isControlC0 ch = false := by
    simp only [isControlC0, decide_eq_false_iff_not]
    omega
  rw [decodeString]
  · simp [hc]
  all_goals simp_all

theorem decodeString_charToString (h : ch.toNat < 0x10000) (rest : List Char) :
    decodeString (charToString ch ++ rest) = push ch (decodeString rest) := by
  unfold charToString
  split
  · rename_i hr
    exact decodeString_plain ch (by simpa using hr) rest
  · split
    · rfl
    · rfl
    · rfl
    · rfl
    · rfl
    · rfl
    · rfl
    · have hb : isBasicMultiLingualPlane ch = true := by simpa [isBasicMultiLingualPlane] using h
      rw [if_pos hb]
      exact decodeString_addCode ch h rest

theorem charToString_surrogates (h : 0x10000 ≤ ch.toNat) : charToString ch =
    addCode (toUTF16SurrogatePair ch).1 ++ addCode (toUTF16SurrogatePair ch).2 := by
  have hr : requiresEscape ch = true := by
    have hp : isPrintableAscii ch = false := by
      simp only [isPrintableAscii, Bool.and_eq_false_iff, decide_eq_false_iff_not]
      omega
    simp [requiresEscape, hp]
  have hb : isBasicMultiLingualPlane ch = false := by
    simp only [isBasicMultiLingualPlane, decide_eq_false_iff_not]
    omega
  unfold charToString
  rw [hr]
  simp only [Bool.not_true, Bool.false_eq_true, if_false]
  split
  · simp at h
  · simp at h
  · simp at h
  · simp at h
  · simp at h
  · simp at h
  · simp at h
  · simp [hb]

def Basic (s : List Char) : Prop := ∀ ch ∈ s, ch.toNat < 0x10000

variable (s rest : List Char)

theorem decodeString_escaped (h : Basic s) :
    decodeString (s.flatMap charToString ++ '"' :: rest) = some (s, rest) := by
  induction s with
  | nil => rfl
  | cons ch s ih =>
    rw [flatMap_cons, append_assoc, decodeString_charToString ch (h ch (by simp)),
      ih (fun c hc => h c (by simp [hc]))]
    rfl

theorem decodeString_not_basic (h : ¬ Basic s) :
    decodeString (s.flatMap charToString ++ '"' :: rest) = none := by
  induction s with
  | nil => exact absurd (fun c hc => absurd hc (by simp)) h
  | cons ch s ih =>
    rw [flatMap_cons, append_assoc]
    by_cases hb : ch.toNat < 0x10000
    · have hs : ¬ Basic s := by
        intro hs
        refine h ?_
        intro c hc
        cases mem_cons.mp hc with
        | inl he => exact he ▸ hb
        | inr hm => exact hs c hm
      rw [decodeString_charToString ch hb, ih hs]
      rfl
    · have hge : 0x10000 ≤ ch.toNat := by omega
      rw [charToString_surrogates ch hge]
      exact decodeString_surrogates ch hge _

theorem flatMap_charToString_plain (s : List Char) (h : ∀ ch ∈ s, requiresEscape ch = false) :
    s.flatMap charToString = s := by
  induction s with
  | nil => rfl
  | cons ch s ih =>
    have hc : charToString ch = [ch] := by simp [charToString, h ch (by simp)]
    rw [flatMap_cons, hc, ih (fun c hm => h c (by simp [hm]))]
    rfl

theorem escapeString_eq (s : List Char) :
    escapeString s = '"' :: (s.flatMap charToString ++ ['"']) := by
  unfold escapeString
  split
  · rename_i hf
    have hp : ∀ ch ∈ s, requiresEscape ch = false := by simpa using hf
    rw [flatMap_charToString_plain s hp]
    rfl
  · rfl

theorem isDigit_iff : ch.isDigit = true ↔ '0' ≤ ch ∧ ch ≤ '9' := by
  simp only [Char.isDigit, Bool.and_eq_true, decide_eq_true_eq, Char.le_def]

theorem ofNat_toInt {v : ℕ} (h : v < 2 ^ 63) : (BitVec.ofNat 64 v).toInt = v := by
  rw [BitVec.toInt_eq_toNat_of_lt]
  · rw [BitVec.toNat_ofNat, Nat.mod_eq_of_lt (by omega)]
  · rw [BitVec.toNat_ofNat, Nat.mod_eq_of_lt (by omega)]
    omega

theorem not_slt_zero {v : ℕ} (h : v < 2 ^ 63) : (BitVec.ofNat 64 v).slt 0#64 = false := by
  rw [BitVec.slt, ofNat_toInt h]
  simp

theorem le_ofDigitChars (ds : List Char) (v : ℕ) : v ≤ Nat.ofDigitChars 10 ds v := by
  induction ds generalizing v with
  | nil => simp
  | cons ch ds ih =>
    rw [Nat.ofDigitChars_cons]
    have hle := ih (10 * v + (ch.toNat - '0'.toNat))
    omega

theorem toIntHelperRest_digits (ds : List Char) (hd : ∀ ch ∈ ds, ch.isDigit = true) (v : ℕ)
    (h : Nat.ofDigitChars 10 ds v ≤ 2 ^ 63) :
    toIntHelperRest ds (BitVec.ofNat 64 v) = BitVec.ofNat 64 (Nat.ofDigitChars 10 ds v) := by
  induction ds generalizing v with
  | nil =>
    rw [Nat.ofDigitChars_nil] at h ⊢
    unfold toIntHelperRest
    by_cases hv : v < 2 ^ 63
    · simp [not_slt_zero hv]
    · have he : v = 2 ^ 63 := by omega
      subst he
      decide
  | cons ch ds ih =>
    have hc := (isDigit_iff ch).mp (hd ch (by simp))
    rw [Nat.ofDigitChars_cons] at h ⊢
    have hle := le_ofDigitChars ds (10 * v + (ch.toNat - '0'.toNat))
    have hv : v ≤ 922337203685477580 := by omega
    have hlt : v < 2 ^ 63 := by omega
    have hn : ¬ (922337203685477580 : ℤ) < (BitVec.ofNat 64 v).toInt := by
      rw [ofNat_toInt hlt]
      omega
    have hnext : BitVec.ofNat 64 v * 10 + BitVec.ofNat 64 (ch.toNat - 48) =
        BitVec.ofNat 64 (10 * v + (ch.toNat - '0'.toNat)) := by
      rw [BitVec.ofNat_add, BitVec.ofNat_mul, BitVec.mul_comm]
      rfl
    unfold toIntHelperRest
    rw [if_neg (by simp [not_slt_zero hlt]), if_pos hc, if_neg hn, hnext]
    exact ih (fun c hm => hd c (by simp [hm])) _ h

theorem toDigits_cons (n : ℕ) : ∃ ch ds, Nat.toDigits 10 n = ch :: ds ∧
    (∀ c ∈ ch :: ds, c.isDigit = true) ∧ Nat.ofDigitChars 10 ds (ch.toNat - 48) = n := by
  have hd : ∀ c ∈ Nat.toDigits 10 n, c.isDigit = true :=
    fun c hc => Nat.isDigit_of_mem_toDigits (by norm_num) (by norm_num) hc
  have hn : Nat.ofDigitChars 10 (Nat.toDigits 10 n) 0 = n := Nat.ofDigitChars_ten_toDigits
  cases h : Nat.toDigits 10 n with
  | nil => exact absurd h Nat.toDigits_ne_nil
  | cons ch ds =>
    rw [h] at hd hn
    rw [Nat.ofDigitChars_cons] at hn
    exact ⟨ch, ds, rfl, hd, by simpa using hn⟩

variable (n : BitVec 64)

theorem natAbs_le : n.toInt.natAbs ≤ 2 ^ 63 := by
  have hlo := BitVec.le_toInt n
  have hhi := BitVec.toInt_lt (x := n)
  omega

theorem neg_ofNat_natAbs (h : n.toInt < 0) :
    -BitVec.ofNat 64 n.toInt.natAbs = n := by
  apply BitVec.eq_of_toInt_eq
  have hn := BitVec.ofInt_toInt (x := n)
  have hneg : n.toInt = -(n.toInt.natAbs : ℤ) := by omega
  rw [hneg, BitVec.ofInt_neg, BitVec.ofInt_natCast] at hn
  rw [hn]

theorem ofNat_natAbs (h : ¬ n.toInt < 0) :
    BitVec.ofNat 64 n.toInt.natAbs = n := by
  have hn := BitVec.ofInt_toInt (x := n)
  have hpos : n.toInt = (n.toInt.natAbs : ℤ) := by omega
  rw [hpos, BitVec.ofInt_natCast] at hn
  exact hn

theorem toIntOption_intToString : toIntOption (intToString n) = some n := by
  obtain ⟨ch, ds, hcons, hd, hval⟩ := toDigits_cons n.toInt.natAbs
  have hc := (isDigit_iff ch).mp (hd ch (by simp))
  have habs := natAbs_le n
  have hrest := toIntHelperRest_digits ds (fun c hm => hd c (by simp [hm])) (ch.toNat - 48)
    (by rw [hval]; exact natAbs_le n)
  rw [hval] at hrest
  unfold intToString
  rw [hcons]
  split
  · rename_i hneg
    have hvalid : BitVec.ofNat 64 n.toInt.natAbs + 1 ≠ 0 := by
      intro h0
      have ht : (n.toInt.natAbs % 2 ^ 64 + 1) % 2 ^ 64 = 0 := by
        simpa [BitVec.toNat_add, BitVec.toNat_ofNat] using congrArg BitVec.toNat h0
      omega
    simp only [toIntOption, if_true, hc, and_self, hrest, if_pos hvalid, neg_ofNat_natAbs n hneg]
  · rename_i hpos
    have hminus : ch ≠ '-' := by
      intro he
      rw [he] at hc
      exact absurd hc.1 (by decide)
    have hlt : n.toInt.natAbs < 2 ^ 63 := by
      have hhi := BitVec.toInt_lt (x := n)
      omega
    have hslt := not_slt_zero hlt
    simp only [toIntOption, hminus, if_false, hc, and_self, if_true, hrest]
    rw [if_neg (by simp [hslt]), ofNat_natAbs n hpos]

theorem intToString_mem : ∀ ch ∈ intToString n, ch = '-' ∨ ch.isDigit = true := by
  have hd : ∀ ch ∈ Nat.toDigits 10 n.toInt.natAbs, ch.isDigit = true :=
    fun ch hc => Nat.isDigit_of_mem_toDigits (by norm_num) (by norm_num) hc
  intro ch hm
  unfold intToString at hm
  split at hm
  · cases mem_cons.mp hm with
    | inl he => exact .inl he
    | inr hm => exact .inr (hd ch hm)
  · exact .inr (hd ch hm)

theorem intToString_ne_nil : intToString n ≠ [] := by
  unfold intToString
  split
  · simp
  · exact Nat.toDigits_ne_nil

def token : Option CValue → Bool × List Char
  | none => (false, [])
  | some (.int n) => (false, intToString n)
  | some (.string s) => (true, s.toList)

def BasicValue : Option CValue → Prop
  | some (.string s) => Basic s.toList
  | _ => True

theorem lex_plain (ds cs : List Char) (acc : List Char)
    (h : ∀ ch ∈ ds, ch ≠ '\n' ∧ ch ≠ '"' ∧ ch ≠ ',') :
    lex false acc (ds ++ cs) = lex false (acc ++ ds) cs := by
  induction ds generalizing acc with
  | nil => simp
  | cons ch ds ih =>
    have hc := h ch (by simp)
    rw [cons_append, lex, if_neg hc.1, if_neg (by simp [hc.2.1]), if_neg hc.2.2,
      ih (acc ++ [ch]) (fun c hm => h c (by simp [hm]))]
    simp

theorem intToString_plain :
    ∀ ch ∈ intToString n, ch ≠ '\n' ∧ ch ≠ '"' ∧ ch ≠ ',' := by
  intro ch hm
  cases intToString_mem n ch hm with
  | inl he => simp [he]
  | inr hd =>
    refine ⟨?_, ?_, ?_⟩ <;>
    · intro he
      rw [he] at hd
      exact absurd hd (by decide)

theorem lex_comma (acc cs : List Char) :
    lex false acc (',' :: cs) = (lex false [] cs).map ((false, acc) :: ·) := by
  rw [lex, if_neg (by decide), if_neg (by simp), if_pos rfl]
  simp

theorem lex_comma_string (acc cs : List Char) :
    lex true acc (',' :: cs) = lex false [] cs := by
  rw [lex, if_neg (by decide), if_neg (by simp), if_pos rfl]
  simp

theorem lex_string (h : Basic s) :
    lex false [] (escapeString s ++ rest) = (lex true [] rest).map ((true, s) :: ·) := by
  have hd := decodeString_escaped s rest h
  rw [escapeString_eq]
  simp only [cons_append, append_assoc, nil_append]
  rw [lex, if_neg (by decide), if_pos ⟨rfl, rfl⟩]
  split
  · rename_i hn
    rw [hd] at hn
    cases hn
  · rename_i hs
    rw [hd] at hs
    cases hs
    rfl

theorem lex_string_not_basic (h : ¬ Basic s) :
    lex false [] (escapeString s ++ rest) = none := by
  have hd := decodeString_not_basic s rest h
  rw [escapeString_eq]
  simp only [cons_append, append_assoc, nil_append]
  rw [lex, if_neg (by decide), if_pos ⟨rfl, rfl⟩]
  split
  · rfl
  · rename_i hs
    rw [hd] at hs
    cases hs

variable (v : Option CValue)

theorem lex_field (cs : List Char) (h : BasicValue v) :
    lex false [] (fieldString v ++ ',' :: cs) = (lex false [] cs).map (token v :: ·) := by
  match v with
  | none => exact lex_comma [] cs
  | some (.int n) =>
    rw [fieldString, toStringWithFormat, lex_plain _ _ _ (intToString_plain n), lex_comma]
    rfl
  | some (.string s) =>
    rw [fieldString, toStringWithFormat, lex_string _ _ h, lex_comma_string]
    rfl

theorem lex_last (h : BasicValue v) :
    lex false [] (fieldString v) = some [token v] := by
  match v with
  | none =>
    rw [fieldString, lex]
    rfl
  | some (.int n) =>
    have hl := lex_plain (intToString n) [] [] (intToString_plain n)
    rw [append_nil, nil_append] at hl
    rw [fieldString, toStringWithFormat, hl, lex]
    rfl
  | some (.string s) =>
    have hl := lex_string s.toList [] h
    rw [append_nil] at hl
    rw [fieldString, toStringWithFormat, hl, lex]
    rfl

theorem lex_not_basic (cs : List Char) (h : ¬ BasicValue v) :
    lex false [] (fieldString v ++ cs) = none := by
  match v with
  | none => exact absurd trivial h
  | some (.int n) => exact absurd trivial h
  | some (.string s) => exact lex_string_not_basic _ _ h

def joined : List (Option CValue) → List Char
  | [] => []
  | [v] => fieldString v
  | v :: w :: vs => fieldString v ++ ',' :: joined (w :: vs)

variable (vs : List (Option CValue))

theorem lex_joined
    (h : ∀ w ∈ v :: vs, BasicValue w) :
    lex false [] (joined (v :: vs)) = some ((v :: vs).map token) := by
  induction vs generalizing v with
  | nil => exact lex_last v (h v (by simp))
  | cons w vs ih =>
    rw [joined, lex_field v _ (h v (by simp)), ih w (fun x hx => h x (by simp [hx]))]
    rfl

theorem lex_joined_not_basic
    (h : ¬ ∀ w ∈ v :: vs, BasicValue w) : lex false [] (joined (v :: vs)) = none := by
  induction vs generalizing v with
  | nil =>
    have hv : ¬ BasicValue v := by simpa using h
    have hl := lex_not_basic v [] hv
    rwa [append_nil] at hl
  | cons w vs ih =>
    by_cases hv : BasicValue v
    · have hrest : ¬ ∀ x ∈ w :: vs, BasicValue x := by
        intro hr
        refine h ?_
        intro x hx
        cases mem_cons.mp hx with
        | inl he => exact he ▸ hv
        | inr hm => exact hr x hm
      rw [joined, lex_field v _ hv, ih w hrest]
      rfl
    · rw [joined]
      exact lex_not_basic v _ hv

theorem joined_eq : joined (v :: vs) =
    (v :: vs).dropLast.flatMap (fun w => fieldString w ++ [',']) ++
      fieldString ((v :: vs).getLastD none) := by
  induction vs generalizing v with
  | nil => rfl
  | cons w vs ih =>
    rw [joined, ih w]
    simp

namespace RowValues

variable (row : RowValues)

theorem map_valueAt :
    (List.range row.values.length).map row.valueAt = row.values := by
  apply ext_getElem
  · simp
  · intro i h1 h2
    simp [valueAt, h2]

theorem getLastD_map_valueAt (indices : List ℕ) (h : indices ≠ []) :
    (indices.map row.valueAt).getLastD none = row.valueAt (indices.getLastD 0) := by
  cases indices with
  | nil => exact absurd rfl h
  | cons i indices => rw [map_cons, getLastD_cons, getLastD_cons, getLastD_map]

theorem toStringSingle_eq (h : row.values ≠ []) :
    row.toStringSingle (List.range row.values.length) = joined row.values := by
  have hmap := row.map_valueAt
  have hpos : 0 < row.values.length := length_pos_of_ne_nil h
  have hrange : List.range row.values.length ≠ [] := by
    rw [ne_eq, range_eq_nil]
    omega
  have hlast := row.getLastD_map_valueAt _ hrange
  rw [hmap] at hlast
  have hinit : row.values.dropLast = (List.range row.values.length).dropLast.map row.valueAt := by
    rw [map_dropLast, hmap]
  unfold toStringSingle
  split
  · rename_i hl
    obtain ⟨v, hv⟩ := length_eq_one_iff.mp hl
    simp [hv, joined, valueAt]
  · rw [← hlast, ← flatMap_map row.valueAt (fun w => fieldString w ++ [',']), ← hinit]
    cases hv : row.values with
    | nil => exact absurd hv h
    | cons v vs => exact (joined_eq v vs).symm

def line (row : RowValues) : List Char := row.toKVString.dropLast

theorem line_eq (h : row.values ≠ []) :
    row.line = intToString row.repeatCount ++ '\t' :: joined row.values := by
  rw [line, toKVString, dropLast_concat, row.toStringSingle_eq h]

theorem toKVString_eq : row.toKVString = row.line ++ ['\n'] := by
  rw [line, toKVString, dropLast_concat]

end RowValues

theorem newline_not_mem_addCode (code : ℕ) : '\n' ∉ addCode code := by
  have hd : ∀ d < 16, intToHexDigit d ≠ '\n' := by decide
  have hm (m : ℕ) : '\n' ≠ intToHexDigit (m % 16) :=
    (hd _ (Nat.mod_lt _ (by norm_num))).symm
  simp [addCode, intToHexDigits_four, hm]

theorem newline_not_mem_charToString : '\n' ∉ charToString ch := by
  unfold charToString
  split
  · rename_i hr
    have hp : requiresEscape ch = false := by simpa using hr
    intro hm
    have he : '\n' = ch := by simpa using hm
    rw [← he] at hp
    exact absurd hp (by decide)
  · split
    · decide
    · decide
    · decide
    · decide
    · decide
    · decide
    · decide
    · split
      · exact newline_not_mem_addCode _
      · rw [mem_append]
        exact not_or.mpr ⟨newline_not_mem_addCode _, newline_not_mem_addCode _⟩

theorem newline_not_mem_fieldString : '\n' ∉ fieldString v := by
  match v with
  | none => simp [fieldString]
  | some (.int n) => exact fun hm => (intToString_plain n _ hm).1 rfl
  | some (.string s) =>
    rw [fieldString, toStringWithFormat, escapeString_eq]
    simp [newline_not_mem_charToString]

theorem newline_not_mem_joined : '\n' ∉ joined vs := by
  induction vs with
  | nil => simp [joined]
  | cons v vs ih =>
    cases vs with
    | nil => exact newline_not_mem_fieldString v
    | cons w vs =>
      rw [joined]
      simp [newline_not_mem_fieldString, ih]

theorem newline_not_mem_line (row : RowValues) (h : row.values ≠ []) : '\n' ∉ row.line := by
  rw [row.line_eq h]
  have hr : '\n' ∉ intToString row.repeatCount := fun hm => (intToString_plain _ _ hm).1 rfl
  simp [hr, newline_not_mem_joined]

def FitsColumn (column : ColumnDefinition) : Option CValue → Prop
  | none => column.notNull = false
  | some (.int _) => column.ty = .integer
  | some (.string _) => column.ty = .text

def Fits (schema : List ColumnDefinition) (row : RowValues) : Prop :=
  row.values ≠ [] ∧ List.Forall₂ FitsColumn schema row.values

section Parse

variable {F : Type} (toFloatOption : List Char → Option F)

theorem valueToCValue_token (column : ColumnDefinition) (v : Option CValue)
    (h : FitsColumn column v) :
    valueToCValue column (parseCSVValue toFloatOption (token v)) = some v := by
  match v with
  | none =>
    have hn : column.notNull = false := h
    simp [token, parseCSVValue, valueToCValue, hn]
  | some (.int n) =>
    have ht : column.ty = .integer := h
    simp [token, parseCSVValue, intToString_ne_nil, toIntOption_intToString, valueToCValue, ht]
  | some (.string s) =>
    have ht : column.ty = .text := h
    simp [token, parseCSVValue, valueToCValue, ht]

theorem computeInsertRow_tokens (schema : List ColumnDefinition) (values : List (Option CValue))
    (h : List.Forall₂ FitsColumn schema values) :
    computeInsertRow schema ((values.map token).map (parseCSVValue toFloatOption)) =
      some values := by
  have hlen : schema.length = values.length := h.length_eq
  rw [computeInsertRow, if_pos (by simp [hlen])]
  clear hlen
  induction h with
  | nil => rfl
  | cons hv _ ih =>
    simp only [map_cons, zip_cons_cons, mapM_cons]
    rw [ih]
    simp [valueToCValue_token toFloatOption _ _ hv]

theorem readRepeat_digits (ds rest : List Char) (h : ∀ ch ∈ ds, ch.isDigit = true) :
    readRepeat (ds ++ '\t' :: rest) = some (ds, rest) := by
  induction ds with
  | nil => simp [readRepeat]
  | cons ch ds ih =>
    have hd := h ch (by simp)
    have hc := (isDigit_iff ch).mp hd
    have htab : ch ≠ '\t' := by
      intro he
      rw [he] at hd
      exact absurd hd (by decide)
    rw [cons_append, readRepeat, if_neg htab, if_neg (by simp [hc.1, hc.2]),
      ih (fun c hm => h c (by simp [hm]))]
    rfl

theorem readRepeat_intToString (n : BitVec 64) (h : 0 ≤ n.toInt) (rest : List Char) :
    readRepeat (intToString n ++ '\t' :: rest) = some (intToString n, rest) := by
  have hd : ∀ ch ∈ Nat.toDigits 10 n.toInt.natAbs, ch.isDigit = true :=
    fun ch hc => Nat.isDigit_of_mem_toDigits (by norm_num) (by norm_num) hc
  rw [intToString, if_neg (by omega)]
  exact readRepeat_digits _ rest hd

theorem head_intToString (n : BitVec 64) (rest : List Char) :
    ¬ ((intToString n ++ rest).head? = some '^' ∨ (intToString n ++ rest).head? = some ':' ∨
      (intToString n ++ rest).head? = some '\t') := by
  have hm := intToString_mem n
  cases hi : intToString n with
  | nil => exact absurd hi (intToString_ne_nil n)
  | cons ch ds =>
    have hc := hm ch (by simp [hi])
    simp only [cons_append, List.head?_cons, Option.some.injEq]
    intro h
    have hn : ch ≠ '-' ∧ ch.isDigit = false := by
      rcases h with he | he | he <;> rw [he] <;> decide
    cases hc with
    | inl he => exact hn.1 he
    | inr hd => simp [hn.2] at hd

theorem parseTableChange_line (schema : List ColumnDefinition) (row : RowValues)
    (h : Fits schema row) : parseTableChange toFloatOption schema row.line =
      (lex false [] (joined row.values)).bind (fun fields =>
        (computeInsertRow schema (fields.map (parseCSVValue toFloatOption))).bind (fun values =>
          some [{ row with values := values }])) := by
  rw [row.line_eq h.1, parseTableChange, if_neg (head_intToString _ _),
    readRepeat_intToString _ row.nonneg]
  simp [toIntOption_intToString, row.nonneg]

/-- A row is read again as it was written exactly when its characters are in the basic plane; what
is written is always one line. -/
theorem csv_round_trip_iff (schema : List ColumnDefinition) (row : RowValues)
    (h : Fits schema row) :
    row.toKVString = row.line ++ ['\n'] ∧ '\n' ∉ row.line ∧
    (parseTableChange toFloatOption schema row.line = some [row] ↔
      ∀ s, some (.string s) ∈ row.values → ∀ ch ∈ s.toList, ch.toNat < 0x10000) := by
  refine ⟨row.toKVString_eq, newline_not_mem_line row h.1, ?_⟩
  have hbasic : (∀ s, some (.string s) ∈ row.values → ∀ ch ∈ s.toList, ch.toNat < 0x10000) ↔
      ∀ v ∈ row.values, BasicValue v := by
    constructor
    · intro hb v hv
      match v with
      | none => exact trivial
      | some (.int n) => exact trivial
      | some (.string s) => exact hb s hv
    · exact fun hb s hs => hb _ hs
  rw [hbasic, parseTableChange_line toFloatOption schema row h]
  obtain ⟨v, vs, hv⟩ := exists_cons_of_ne_nil h.1
  by_cases hb : ∀ w ∈ row.values, BasicValue w
  · have hl := lex_joined v vs (by rw [← hv]; exact hb)
    rw [← hv] at hl
    rw [hl, Option.bind_some, computeInsertRow_tokens toFloatOption schema row.values h.2]
    simp only [Option.bind_some, true_iff]
    exact hb
  · have hl := lex_joined_not_basic v vs (by rw [← hv]; exact hb)
    rw [← hv] at hl
    rw [hl]
    simp [hb]

end Parse

theorem csv_round_trip_quoted :
    parseTableChange (fun _ => (none : Option Unit))
      [{ ty := .integer, notNull := true }, { ty := .text, notNull := false }]
      (RowValues.line ⟨[some (.int 5), some (.string "say \"a,b\"\n")], 3, by decide⟩) =
      some [⟨[some (.int 5), some (.string "say \"a,b\"\n")], 3, by decide⟩] := by
  have hf : Fits [{ ty := .integer, notNull := true }, { ty := .text, notNull := false }]
      ⟨[some (.int 5), some (.string "say \"a,b\"\n")], 3, by decide⟩ :=
    ⟨by simp, .cons rfl (.cons rfl .nil)⟩
  refine (csv_round_trip_iff _ _ _ hf).2.2.mpr ?_
  intro s hs ch hch
  have he : s = "say \"a,b\"\n" := by simpa using hs
  have hall : ("say \"a,b\"\n".toList.all fun c => decide (c.toNat < 0x10000)) = true := by decide
  rw [he] at hch
  exact of_decide_eq_true (all_eq_true.mp hall ch hch)

/-- The two halves of a character outside the basic plane are written with their marks, and read
without the second one. -/
theorem csv_not_round_trip_emoji :
    Fits [{ ty := .text, notNull := true }] ⟨[some (.string "😀")], 1, by decide⟩ ∧
    parseTableChange (fun _ => (none : Option Unit)) [{ ty := .text, notNull := true }]
      (RowValues.line ⟨[some (.string "😀")], 1, by decide⟩) = none := by
  have hf : Fits [{ ty := .text, notNull := true }] ⟨[some (.string "😀")], 1, by decide⟩ :=
    ⟨by simp, .cons rfl .nil⟩
  have hb : ¬ BasicValue (some (.string "😀")) := by
    intro hb
    exact absurd (hb '😀' (by decide)) (by decide)
  have hl := lex_joined_not_basic (some (.string "😀")) [] (by simpa using hb)
  refine ⟨hf, ?_⟩
  rw [parseTableChange_line _ _ _ hf, hl]
  rfl

end SkipPlatform.SqlCsv
