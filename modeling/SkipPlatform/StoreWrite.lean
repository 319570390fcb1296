import Mathlib.Tactic

set_option autoImplicit false

/-! The text in which entries are written: a line for each value of a key, and a line without a
value for a key that has none. A text is the list of its characters, and what is still to be read
of a stream is a text. -/
namespace SkipPlatform.StoreWrite
open List

abbrev Text : Type := List Char

def escape : Text → Text
  | [] => []
  | c :: str =>
    (if c = '\\' then ['\\', '\\']
      else if c = '\t' then ['\\', 't']
      else if c = '\n' then ['\\', 'n']
      else if c = '"' then ['\\', '"']
      else [c]) ++ escape str

def unescape : Text → Text
  | [] => []
  | ['\\'] => ['\\']
  | '\\' :: 't' :: input => '\t' :: unescape input
  | '\\' :: 'n' :: input => '\n' :: unescape input
  | '\\' :: '"' :: input => '"' :: unescape input
  | '\\' :: '\\' :: input => '\\' :: unescape input
  | c :: input => c :: unescape input

def toKVStringRemove (key : Text) : Text := escape key ++ ['\t', '\n']

def toKVString (key value : Text) : Text :=
  escape key ++ '\t' :: '"' :: (escape value ++ ['"', '\n'])

def writeKVString (key : Text) (values : List Text) : Text := values.flatMap (toKVString key)

def writeEntry (entry : Text × List Text) : Text :=
  if entry.2 = [] then toKVStringRemove entry.1 else writeKVString entry.1 entry.2

def writeEntries (entries : List (Text × List Text)) : Text := entries.flatMap writeEntry

/-- The loop of `getWriteKey`, with what is left of the stream. The end of the stream is the
exception of `getChar`. -/
def getWriteKeyLoop (chars : Text) : Text → (Option Text × Bool) × Text
  | [] => ((none, true), [])
  | c :: rest =>
    if c = '\\' then getWriteKeyLoop (chars ++ [c]) rest
    else if c = '\n' then ((none, false), rest)
    else if c = '\t' then ((some (unescape chars), false), rest)
    else getWriteKeyLoop (chars ++ [c]) rest

def getWriteKey (input : Text) : (Option Text × Bool) × Text := getWriteKeyLoop [] input

def getWriteValueLoop (chars : Text) : Text → Option Text × Text
  | [] => (none, [])
  | c :: rest =>
    if c = '\\' then getWriteValueLoop (chars ++ [c]) rest
    else if c = '\n' then (some (unescape chars.dropLast), rest)
    else getWriteValueLoop (chars ++ [c]) rest

def getWriteValue : Text → Option Text × Text
  | [] => (none, [])
  | first :: rest => if first ≠ '"' then (none, rest) else getWriteValueLoop [] rest

theorem getWriteKeyLoop_length (chars input : Text)
    (h : (getWriteKeyLoop chars input).1.2 = false) :
    (getWriteKeyLoop chars input).2.length < input.length := by
  induction input generalizing chars with
  | nil => cases h
  | cons c rest ih =>
    simp only [getWriteKeyLoop] at h ⊢
    split
    · rename_i backslash
      rw [if_pos backslash] at h
      exact Nat.lt_succ_of_lt (ih _ h)
    · rename_i backslash
      rw [if_neg backslash] at h
      split
      · exact Nat.lt_succ_self _
      · rename_i newline
        rw [if_neg newline] at h
        split
        · exact Nat.lt_succ_self _
        · rename_i tab
          rw [if_neg tab] at h
          exact Nat.lt_succ_of_lt (ih _ h)

theorem getWriteValueLoop_length (chars input : Text) :
    (getWriteValueLoop chars input).2.length ≤ input.length := by
  induction input generalizing chars with
  | nil => exact le_refl _
  | cons c rest ih =>
    simp only [getWriteValueLoop]
    split
    · exact Nat.le_succ_of_le (ih _)
    · split
      · exact Nat.le_succ _
      · exact Nat.le_succ_of_le (ih _)

theorem getWriteValue_length (input : Text) :
    (getWriteValue input).2.length ≤ input.length := by
  cases input with
  | nil => exact le_refl _
  | cons first rest =>
    simp only [getWriteValue]
    split
    · exact Nat.le_succ _
    · exact Nat.le_succ_of_le (getWriteValueLoop_length [] rest)

def getWriteKeyValueIter (input : Text) : List (Option (Text × Option Text)) :=
  if _finished : (getWriteKey input).1.2 = true then
    match (getWriteKey input).1.1 with
    | some k => [some (k, (getWriteValue (getWriteKey input).2).1)]
    | none => []
  else
    match (getWriteKey input).1.1 with
    | some k =>
      some (k, (getWriteValue (getWriteKey input).2).1) ::
        getWriteKeyValueIter (getWriteValue (getWriteKey input).2).2
    | none => none :: getWriteKeyValueIter (getWriteKey input).2
termination_by input.length
decreasing_by
  · exact lt_of_le_of_lt (getWriteValue_length _)
      (getWriteKeyLoop_length [] input (Bool.eq_false_iff.mpr _finished))
  · exact getWriteKeyLoop_length [] input (Bool.eq_false_iff.mpr _finished)

inductive KVStreamOp where
  | sep
  | acc (keyName : Text) (valueName : Option Text)
  deriving DecidableEq, Repr

/-- The operations of one line; a line with an empty key only separates. -/
def lineOps (lastKeyOpt : Option Text) (k : Text) (value : Option Text) :
    List (Option KVStreamOp) :=
  if k = [] then [some .sep]
  else
    match lastKeyOpt with
    | none => [some (.acc k value)]
    | some lastKey => (if k ≠ lastKey then [some .sep] else []) ++ [some (.acc k value)]

def getWriteStreamOpLoop (lastKeyOpt : Option Text) :
    List (Option (Text × Option Text)) → List (Option KVStreamOp)
  | [] => [some .sep]
  | none :: rest => none :: getWriteStreamOpLoop none rest
  | some (k, value) :: rest =>
    lineOps lastKeyOpt k value ++ getWriteStreamOpLoop (some k) rest

def getWriteStreamOpIter (input : Text) : List (Option KVStreamOp) :=
  getWriteStreamOpLoop none (getWriteKeyValueIter input)

def getWriteKeyValuesLoop (keyOpt : Option Text) (values : List Text) :
    List (Option KVStreamOp) → List (Text × List Text)
  | [] => []
  | none :: rest => getWriteKeyValuesLoop none [] rest
  | some .sep :: rest =>
    (match keyOpt with
      | none => []
      | some key => [(key, values)]) ++ getWriteKeyValuesLoop keyOpt [] rest
  | some (.acc k none) :: rest => getWriteKeyValuesLoop (some k) [] rest
  | some (.acc k (some v)) :: rest => getWriteKeyValuesLoop (some k) (values ++ [v]) rest

def getWriteKeyValuesIter (input : Text) : List (Text × List Text) :=
  getWriteKeyValuesLoop (some []) [] (getWriteStreamOpIter input)

theorem unescape_escape (str : Text) : unescape (escape str) = str := by
  induction str with
  | nil => rfl
  | cons c str ih =>
    rw [escape]
    by_cases backslash : c = '\\'
    · subst backslash
      simp only [if_true, cons_append, nil_append, unescape, ih]
    by_cases tab : c = '\t'
    · subst tab
      simp [unescape, ih]
    by_cases newline : c = '\n'
    · subst newline
      simp [unescape, ih]
    by_cases quote : c = '"'
    · subst quote
      simp [unescape, ih]
    rw [if_neg backslash, if_neg tab, if_neg newline, if_neg quote, singleton_append]
    rw [unescape, ih] <;> simp [backslash]

theorem escape_plain (str : Text) : ∀ c ∈ escape str, c ≠ '\t' ∧ c ≠ '\n' := by
  induction str with
  | nil => exact nofun
  | cons d str ih =>
    intro c hc
    rw [escape, mem_append] at hc
    rcases hc with head | tail
    · split at head
      · simp only [mem_cons, not_mem_nil, or_false, or_self] at head
        subst head
        decide
      · split at head
        · simp only [mem_cons, not_mem_nil, or_false] at head
          rcases head with rfl | rfl <;> decide
        · split at head
          · simp only [mem_cons, not_mem_nil, or_false] at head
            rcases head with rfl | rfl <;> decide
          · split at head
            · simp only [mem_cons, not_mem_nil, or_false] at head
              rcases head with rfl | rfl <;> decide
            · rename_i tab newline quote
              rw [mem_singleton.mp head]
              exact ⟨tab, newline⟩
    · exact ih c tail

theorem getWriteKeyLoop_append (chars text rest : Text)
    (plain : ∀ c ∈ text, c ≠ '\t' ∧ c ≠ '\n') :
    getWriteKeyLoop chars (text ++ '\t' :: rest) =
      ((some (unescape (chars ++ text)), false), rest) := by
  induction text generalizing chars with
  | nil => simp [getWriteKeyLoop]
  | cons c text ih =>
    have here := plain c mem_cons_self
    have later := ih (chars ++ [c]) fun d hd => plain d (mem_cons_of_mem c hd)
    rw [append_assoc, singleton_append] at later
    rw [cons_append, getWriteKeyLoop, if_neg here.1, if_neg here.2, later, ite_self]

theorem getWriteValueLoop_append (chars text rest : Text)
    (plain : ∀ c ∈ text, c ≠ '\t' ∧ c ≠ '\n') :
    getWriteValueLoop chars (text ++ '\n' :: rest) =
      (some (unescape (chars ++ text).dropLast), rest) := by
  induction text generalizing chars with
  | nil => simp [getWriteValueLoop]
  | cons c text ih =>
    have here := plain c mem_cons_self
    have later := ih (chars ++ [c]) fun d hd => plain d (mem_cons_of_mem c hd)
    rw [append_assoc, singleton_append] at later
    rw [cons_append, getWriteValueLoop, if_neg here.2, later, ite_self]

theorem getWriteKey_escape (key rest : Text) :
    getWriteKey (escape key ++ '\t' :: rest) = ((some key, false), rest) := by
  rw [getWriteKey, getWriteKeyLoop_append [] _ rest (escape_plain key), nil_append,
    unescape_escape]

theorem getWriteValue_escape (value rest : Text) :
    getWriteValue ('"' :: (escape value ++ '"' :: '\n' :: rest)) = (some value, rest) := by
  have plain : ∀ c ∈ escape value ++ ['"'], c ≠ '\t' ∧ c ≠ '\n' := by
    intro c hc
    rcases mem_append.mp hc with inside | quote
    · exact escape_plain value c inside
    · rw [mem_singleton.mp quote]
      decide
  have read := getWriteValueLoop_append [] _ rest plain
  rw [append_assoc, singleton_append, nil_append, dropLast_concat,
    unescape_escape] at read
  rw [getWriteValue, if_neg (by decide), read]

theorem getWriteKeyValueIter_nil : getWriteKeyValueIter [] = [] := by
  rw [getWriteKeyValueIter]
  rfl

theorem getWriteKeyValueIter_some {input rest : Text} {key : Text}
    (h : getWriteKey input = ((some key, false), rest)) :
    getWriteKeyValueIter input =
      some (key, (getWriteValue rest).1) :: getWriteKeyValueIter (getWriteValue rest).2 := by
  rw [getWriteKeyValueIter]
  simp [h]

def linesOf (entry : Text × List Text) : List (Option (Text × Option Text)) :=
  if entry.2 = [] then [some (entry.1, none)]
  else entry.2.map fun value => some (entry.1, some value)

theorem getWriteKeyValueIter_writeKVString (key : Text) (values : List Text) (rest : Text) :
    getWriteKeyValueIter (writeKVString key values ++ rest) =
      (values.map fun value => some (key, some value)) ++ getWriteKeyValueIter rest := by
  induction values with
  | nil => rfl
  | cons value values ih =>
    have split : writeKVString key (value :: values) ++ rest =
        escape key ++ '\t' :: '"' ::
          (escape value ++ '"' :: '\n' :: (writeKVString key values ++ rest)) := by
      simp [writeKVString, toKVString]
    rw [split, getWriteKeyValueIter_some (getWriteKey_escape key _), getWriteValue_escape, ih]
    rfl

theorem getWriteKeyValueIter_writeEntry (entry : Text × List Text) (rest : Text) :
    getWriteKeyValueIter (writeEntry entry ++ rest) =
      linesOf entry ++ getWriteKeyValueIter rest := by
  by_cases removed : entry.2 = []
  · have split : writeEntry entry ++ rest = escape entry.1 ++ '\t' :: '\n' :: rest := by
      simp [writeEntry, removed, toKVStringRemove]
    rw [split, getWriteKeyValueIter_some (getWriteKey_escape _ _), linesOf, if_pos removed]
    rfl
  · rw [writeEntry, if_neg removed, getWriteKeyValueIter_writeKVString, linesOf, if_neg removed]

theorem getWriteKeyValueIter_writeEntries (entries : List (Text × List Text)) :
    getWriteKeyValueIter (writeEntries entries) = entries.flatMap linesOf := by
  induction entries with
  | nil => exact getWriteKeyValueIter_nil
  | cons entry entries ih =>
    rw [writeEntries, flatMap_cons, getWriteKeyValueIter_writeEntry, flatMap_cons]
    exact congrArg _ ih

def accs (entry : Text × List Text) : List (Option KVStreamOp) :=
  if entry.2 = [] then [some (.acc entry.1 none)]
  else entry.2.map fun value => some (.acc entry.1 (some value))

theorem getWriteStreamOpLoop_same {key : Text} (hkey : key ≠ []) (values : List Text)
    (rest : List (Option (Text × Option Text))) :
    getWriteStreamOpLoop (some key)
        ((values.map fun value => some (key, some value)) ++ rest) =
      (values.map fun value => some (.acc key (some value))) ++
        getWriteStreamOpLoop (some key) rest := by
  induction values with
  | nil => rfl
  | cons value values ih =>
    have here : lineOps (some key) key (some value) = [some (.acc key (some value))] := by
      simp [lineOps, hkey]
    rw [map_cons, cons_append, getWriteStreamOpLoop, here, ih]
    rfl

theorem getWriteStreamOpLoop_entry (lastKeyOpt : Option Text) {entry : Text × List Text}
    (hkey : entry.1 ≠ []) (new : lastKeyOpt ≠ some entry.1)
    (rest : List (Option (Text × Option Text))) :
    getWriteStreamOpLoop lastKeyOpt (linesOf entry ++ rest) =
      (if lastKeyOpt = none then [] else [some .sep]) ++
        (accs entry ++ getWriteStreamOpLoop (some entry.1) rest) := by
  have first : ∀ value, lineOps lastKeyOpt entry.1 value =
      (if lastKeyOpt = none then [] else [some .sep]) ++ [some (.acc entry.1 value)] := by
    intro value
    cases lastKeyOpt with
    | none => simp [lineOps, hkey]
    | some lastKey =>
      have differ : entry.1 ≠ lastKey := fun same => new (congrArg some same.symm)
      simp [lineOps, hkey, differ]
  unfold linesOf accs
  by_cases removed : entry.2 = []
  · rw [if_pos removed, if_pos removed, singleton_append, getWriteStreamOpLoop, first]
    simp
  · rw [if_neg removed, if_neg removed]
    cases values : entry.2 with
    | nil => exact absurd values removed
    | cons value more =>
      rw [map_cons, cons_append, getWriteStreamOpLoop, first,
        getWriteStreamOpLoop_same hkey]
      simp

theorem getWriteKeyValuesLoop_values (keyOpt : Option Text) (key : Text)
    (before values : List Text) (nonempty : values ≠ []) (rest : List (Option KVStreamOp)) :
    getWriteKeyValuesLoop keyOpt before
        ((values.map fun value => some (.acc key (some value))) ++ rest) =
      getWriteKeyValuesLoop (some key) (before ++ values) rest := by
  induction values generalizing keyOpt before with
  | nil => exact absurd rfl nonempty
  | cons value values ih =>
    rw [map_cons, cons_append, getWriteKeyValuesLoop]
    cases values with
    | nil => rfl
    | cons next more =>
      rw [ih (some key) (before ++ [value]) (cons_ne_nil _ _), append_assoc]
      rfl

theorem getWriteKeyValuesLoop_accs (keyOpt : Option Text) (entry : Text × List Text)
    (rest : List (Option KVStreamOp)) :
    getWriteKeyValuesLoop keyOpt [] (accs entry ++ rest) =
      getWriteKeyValuesLoop (some entry.1) entry.2 rest := by
  unfold accs
  by_cases removed : entry.2 = []
  · rw [if_pos removed, removed]
    rfl
  · rw [if_neg removed, getWriteKeyValuesLoop_values keyOpt entry.1 [] entry.2 removed,
      nil_append]

theorem getWriteKeyValuesLoop_pending (pending : Text × List Text)
    (entries : List (Text × List Text)) (keys : ∀ e ∈ entries, e.1 ≠ [])
    (adjacent : (pending :: entries).IsChain fun a b => a.1 ≠ b.1) :
    getWriteKeyValuesLoop (some pending.1) pending.2
        (getWriteStreamOpLoop (some pending.1) (entries.flatMap linesOf)) =
      pending :: entries := by
  induction entries generalizing pending with
  | nil => rfl
  | cons entry entries ih =>
    obtain ⟨differ, chain⟩ := isChain_cons_cons.mp adjacent
    have new : some pending.1 ≠ some entry.1 := fun same => differ (Option.some.inj same)
    rw [flatMap_cons, getWriteStreamOpLoop_entry _ (keys entry mem_cons_self) new,
      if_neg (Option.some_ne_none _), singleton_append, getWriteKeyValuesLoop,
      getWriteKeyValuesLoop_accs, ih entry (fun e he => keys e (mem_cons_of_mem _ he)) chain]
    rfl

/-- What was written is read back, unless nothing was: an empty stream reads as an entry of the
empty key. -/
theorem getWriteKeyValuesIter_writeEntries (entries : List (Text × List Text))
    (keys : ∀ e ∈ entries, e.1 ≠ []) (adjacent : entries.IsChain fun a b => a.1 ≠ b.1) :
    getWriteKeyValuesIter (writeEntries entries) = entries ↔ entries ≠ [] := by
  rw [getWriteKeyValuesIter, getWriteStreamOpIter, getWriteKeyValueIter_writeEntries]
  cases entries with
  | nil => exact iff_of_false (by decide) fun h => h rfl
  | cons entry entries =>
    refine iff_of_true ?_ (cons_ne_nil _ _)
    rw [flatMap_cons,
      getWriteStreamOpLoop_entry none (keys entry mem_cons_self) nofun, if_pos rfl,
      nil_append, getWriteKeyValuesLoop_accs]
    exact getWriteKeyValuesLoop_pending entry entries
      (fun e he => keys e (mem_cons_of_mem _ he)) adjacent

theorem getWriteKeyValuesIter_writeEntries_pair :
    getWriteKeyValuesIter (writeEntries [(['k'], []), (['\\', '\t'], [['"', '\n'], []])]) =
        [(['k'], []), (['\\', '\t'], [['"', '\n'], []])] ↔
      [(['k'], ([] : List Text)), (['\\', '\t'], [['"', '\n'], []])] ≠ [] :=
  getWriteKeyValuesIter_writeEntries _ (by decide) (by decide)

theorem getWriteKeyValuesIter_writeEntries_nil :
    writeEntries [] = [] ∧ getWriteKeyValuesIter (writeEntries []) = [([], [])] := by
  refine ⟨rfl, ?_⟩
  rw [getWriteKeyValuesIter, getWriteStreamOpIter, getWriteKeyValueIter_writeEntries]
  rfl

end SkipPlatform.StoreWrite
