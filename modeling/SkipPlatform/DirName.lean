import Mathlib.Data.List.TakeWhile
import Mathlib.Tactic

set_option autoImplicit false

/-! Names of directories and the scanner that validates them. What the scanner has still to read is
the list of the characters from its position on. -/
namespace SkipPlatform
open List

@[grind] def uncapitalize : Char → Char
  | 'A' => 'a'
  | 'B' => 'b'
  | 'C' => 'c'
  | 'D' => 'd'
  | 'E' => 'e'
  | 'F' => 'f'
  | 'G' => 'g'
  | 'H' => 'h'
  | 'I' => 'i'
  | 'J' => 'j'
  | 'K' => 'k'
  | 'L' => 'l'
  | 'M' => 'm'
  | 'N' => 'n'
  | 'O' => 'o'
  | 'P' => 'p'
  | 'Q' => 'q'
  | 'R' => 'r'
  | 'S' => 's'
  | 'T' => 't'
  | 'U' => 'u'
  | 'V' => 'v'
  | 'W' => 'w'
  | 'X' => 'x'
  | 'Y' => 'y'
  | 'Z' => 'z'
  | c => c

def lowercase (str : String) : String := String.ofList (str.toList.map uncapitalize)

@[simp]
theorem toList_lowercase (str : String) :
    (lowercase str).toList = str.toList.map uncapitalize := by
  simp [lowercase]

namespace NameValidator

def mustBeSlash (dirName : String) : List Char → Except String (List Char)
  | [] => .error s!"Expected a slash, reached the end of the path instead ({dirName})"
  | c :: rest =>
    if c = '/' then
      .ok rest
    else
      .error s!"Expected a slash, found '{c}' instead ({dirName})"

def validChar (c : Char) : Bool := c == '_' || c == '-'

def isNumberChar (c : Char) : Bool := ('0' ≤ c && c ≤ '9') || c == '-'

def isStartChar (c : Char) : Bool :=
  ('a' ≤ c && c ≤ 'z') || ('A' ≤ c && c ≤ 'Z') || validChar c

def isNameChar (c : Char) : Bool :=
  ('a' ≤ c && c ≤ 'z') || ('A' ≤ c && c ≤ 'Z') || ('0' ≤ c && c ≤ '9') || validChar c

/-- A character that starts no key is left where it is, without an error. -/
def mustBeKey (dirName : String) : List Char → Except String (List Char)
  | [] => .error s!"Empty baseName {dirName}"
  | c :: rest =>
    if c = '/' then
      .error s!"Empty baseName {dirName}"
    else if isNumberChar c then
      .ok (rest.dropWhile isNumberChar)
    else if isStartChar c then
      .ok ((c :: rest).dropWhile isNameChar)
    else
      .ok (c :: rest)

theorem mustBeSlash_length {dirName : String} {rest left : List Char}
    (h : mustBeSlash dirName rest = .ok left) : left.length < rest.length := by
  cases rest with
  | nil => cases h
  | cons c rest =>
    rw [mustBeSlash] at h
    split at h
    · cases h
      exact Nat.lt_succ_self _
    · cases h

theorem mustBeKey_length {dirName : String} {rest left : List Char}
    (h : mustBeKey dirName rest = .ok left) : left.length ≤ rest.length := by
  cases rest with
  | nil => cases h
  | cons c rest =>
    rw [mustBeKey] at h
    split at h
    · cases h
    · split at h
      · cases h
        have shorter := (dropWhile_suffix (l := rest) isNumberChar).length_le
        exact Nat.le_succ_of_le shorter
      · split at h
        · cases h
          exact (dropWhile_suffix _).length_le
        · cases h
          exact le_refl _

/-- The loop of `go`: it stops at the last character. -/
def goLoop (dirName : String) (rest : List Char) : Except String (List Char) :=
  if 1 < rest.length then
    match _slash : mustBeSlash dirName rest with
    | .error e => .error e
    | .ok atKey =>
      match _key : mustBeKey dirName atKey with
      | .error e => .error e
      | .ok left => goLoop dirName left
  else
    .ok rest
termination_by rest.length
decreasing_by
  exact lt_of_le_of_lt (mustBeKey_length _key) (mustBeSlash_length _slash)

/-- What `go` does once the loop has stopped. -/
def goEnd (dirName : String) (rest : List Char) : Except String Unit :=
  match mustBeSlash dirName rest with
  | .error e => .error e
  | .ok [] => .ok ()
  | .ok (_ :: _) => .error "Unexpected characters at the end of the path"

def go (dirName : String) : Except String Unit :=
  if dirName.toList = [] then
    .error "path is empty"
  else
    match goLoop dirName dirName.toList with
    | .error e => .error e
    | .ok rest => goEnd dirName rest

end NameValidator

structure DirName where
  dirName : String
  deriving DecidableEq, Repr

namespace DirName

def createNoValidate (dirName : String) : DirName := ⟨dirName⟩

def validateDirName (dirName : String) : Except String Unit := NameValidator.go dirName

def create (dirName : String) : Except String DirName :=
  match validateDirName (lowercase dirName) with
  | .error e => .error e
  | .ok _ => .ok (createNoValidate (lowercase dirName))

def subNoValidate (this : DirName) (str : String) : DirName :=
  createNoValidate (this.dirName ++ str ++ "/")

def sub (this : DirName) (str : String) : Except String DirName :=
  match NameValidator.mustBeKey str str.toList with
  | .error e => .error e
  | .ok _ => .ok (this.subNoValidate (lowercase str))

def pre (this : DirName) : DirName := this.subNoValidate "pre"

def next (this : DirName) : DirName := this.subNoValidate "next"

def tag (this : DirName) : DirName := this.subNoValidate "tag"

def size (this : DirName) : DirName := this.subNoValidate "size"

def files (this : DirName) : DirName := this.subNoValidate "files"

def aggr (this : DirName) : DirName := this.subNoValidate "aggr"

def isValidDirName (dirName : String) : Bool :=
  match NameValidator.go dirName with
  | .error _ => false
  | .ok _ => true

end DirName

inductive IsComponent : List Char → Prop where
  | number {text : List Char} (nonempty : text ≠ [])
      (digits : ∀ c ∈ text, c.isDigit ∨ c = '-') : IsComponent text
  | name {first : Char} {rest : List Char} (start : first.isAlpha ∨ first = '_')
      (follow : ∀ c ∈ rest, c.isAlphanum ∨ c = '_' ∨ c = '-') : IsComponent (first :: rest)

def pathText (components : List (List Char)) : List Char :=
  '/' :: components.flatMap (· ++ ['/'])

def IsPath (text : List Char) : Prop :=
  ∃ components, (∀ c ∈ components, IsComponent c) ∧ text = pathText components

def EndsIn (text last : List Char) : Prop :=
  ∃ before, (∀ c ∈ before, IsComponent c) ∧ IsComponent last ∧
    text = pathText (before ++ [last])

theorem EndsIn.isPath {text last : List Char} (h : EndsIn text last) : IsPath text := by
  obtain ⟨before, valid, component, same⟩ := h
  refine ⟨before ++ [last], fun c hc => ?_, same⟩
  rcases mem_append.mp hc with earlier | atEnd
  · exact valid c earlier
  · rw [mem_singleton.mp atEnd]
    exact component

theorem pathText_cons (c : List Char) (cs : List (List Char)) :
    pathText (c :: cs) = '/' :: (c ++ pathText cs) := by
  simp [pathText]

theorem pathText_concat (cs : List (List Char)) (c : List Char) :
    pathText (cs ++ [c]) = pathText cs ++ (c ++ ['/']) := by
  simp [pathText]

namespace NameValidator

theorem isNumberChar_iff (c : Char) : isNumberChar c = true ↔ c.isDigit ∨ c = '-' := by
  have digit : (('0' ≤ c && c ≤ '9') = true) ↔ c.isDigit := by
    simp [Char.isDigit, Char.le_def]
  simp only [isNumberChar, Bool.or_eq_true, digit, beq_iff_eq]

theorem isStartChar_iff (c : Char) :
    isStartChar c = true ↔ c.isAlpha ∨ c = '_' ∨ c = '-' := by
  have lower : ('a' ≤ c && c ≤ 'z') = c.isLower := rfl
  have upper : ('A' ≤ c && c ≤ 'Z') = c.isUpper := (Bool.decide_and ('A' ≤ c) (c ≤ 'Z')).symm
  have alpha : c.isAlpha = (c.isUpper || c.isLower) := rfl
  simp only [isStartChar, validChar, alpha, Bool.or_eq_true, lower, upper, beq_iff_eq]
  grind

theorem isNameChar_iff (c : Char) :
    isNameChar c = true ↔ c.isAlphanum ∨ c = '_' ∨ c = '-' := by
  have digit : (('0' ≤ c && c ≤ '9') = true) ↔ c.isDigit := by
    simp [Char.isDigit, Char.le_def]
  have start := isStartChar_iff c
  simp only [isStartChar, validChar, Bool.or_eq_true, beq_iff_eq] at start
  simp only [isNameChar, validChar, Char.isAlphanum, Bool.or_eq_true, digit, beq_iff_eq]
  grind

theorem not_isDigit_of_isAlpha {c : Char} (h : c.isAlpha) : c.isDigit = false := by
  have alpha : c.isAlpha = (decide ('A' ≤ c ∧ c ≤ 'Z') || 'a' ≤ c && c ≤ 'z') := rfl
  simp only [alpha, Bool.or_eq_true, Bool.and_eq_true, decide_eq_true_eq, Char.le_def,
    UInt32.le_iff_toNat_le] at h
  simp only [Char.isDigit, Bool.and_eq_false_iff, decide_eq_false_iff_not, ge_iff_le,
    UInt32.le_iff_toNat_le]
  change (65 ≤ c.val.toNat ∧ c.val.toNat ≤ 90) ∨ (97 ≤ c.val.toNat ∧ c.val.toNat ≤ 122) at h
  change ¬ 48 ≤ c.val.toNat ∨ ¬ c.val.toNat ≤ 57
  omega

theorem not_isNumberChar_of_start {c : Char} (h : c.isAlpha ∨ c = '_') :
    isNumberChar c = false := by
  rcases h with alpha | rfl
  · have dash : c ≠ '-' := by
      rintro rfl
      revert alpha
      decide
    rw [Bool.eq_false_iff, ne_eq, isNumberChar_iff, not_isDigit_of_isAlpha alpha]
    exact not_or.mpr ⟨Bool.false_ne_true, dash⟩
  · decide

theorem ne_slash_of_isNumberChar {c : Char} (h : isNumberChar c = true) : c ≠ '/' := by
  rintro rfl
  revert h
  decide

theorem ne_slash_of_start {c : Char} (h : c.isAlpha ∨ c = '_') : c ≠ '/' := by
  rintro rfl
  revert h
  decide

theorem mustBeKey_component (dirName : String) {text : List Char} (h : IsComponent text)
    (rest : List Char) : mustBeKey dirName (text ++ '/' :: rest) = .ok ('/' :: rest) := by
  cases h with
  | number nonempty digits =>
    cases text with
    | nil => exact absurd rfl nonempty
    | cons c cs =>
      have all : ∀ x ∈ c :: cs, isNumberChar x = true :=
        fun x hx => (isNumberChar_iff x).mpr (digits x hx)
      have head := all c mem_cons_self
      rw [cons_append, mustBeKey, if_neg (ne_slash_of_isNumberChar head), if_pos head,
        dropWhile_append_of_pos fun x hx => all x (mem_cons_of_mem c hx)]
      rfl
  | @name first follow start names =>
    have startChar : isStartChar first = true := by
      rw [isStartChar_iff]
      grind
    have all : ∀ x ∈ first :: follow, isNameChar x = true := by
      intro x hx
      rw [isNameChar_iff]
      rcases mem_cons.mp hx with rfl | later
      · rcases start with alpha | rfl
        · exact Or.inl (by simp [Char.isAlphanum, alpha])
        · exact Or.inr (Or.inl rfl)
      · exact names x later
    rw [cons_append, mustBeKey, if_neg (ne_slash_of_start start),
      if_neg (by simp [not_isNumberChar_of_start start]), if_pos startChar, ← cons_append,
      dropWhile_append_of_pos all]
    rfl

variable {dirName : String}

theorem mustBeKey_eq_ok {rest left : List Char}
    (h : mustBeKey dirName rest = .ok left) :
    (∃ text, IsComponent text ∧ rest = text ++ left) ∨
      (left = rest ∧ ∃ c cs, rest = c :: cs ∧ c ≠ '/') := by
  cases rest with
  | nil => cases h
  | cons c cs =>
    rw [mustBeKey] at h
    split at h
    · cases h
    · next notSlash =>
      split at h
      · next number =>
        cases h
        refine Or.inl ⟨c :: cs.takeWhile isNumberChar, ?_, ?_⟩
        · refine IsComponent.number (cons_ne_nil _ _) fun x hx => ?_
          rw [← isNumberChar_iff]
          rcases mem_cons.mp hx with rfl | later
          · exact number
          · exact mem_takeWhile_imp later
        · rw [cons_append, takeWhile_append_dropWhile]
      · next notNumber =>
        split at h
        · next start =>
          cases h
          have notDash : c ≠ '-' := by
            rintro rfl
            exact notNumber (by decide)
          have head : c.isAlpha ∨ c = '_' := by
            rcases (isStartChar_iff c).mp start with alpha | under | dash
            · exact Or.inl alpha
            · exact Or.inr under
            · exact absurd dash notDash
          have named : isNameChar c = true := by
            rw [isNameChar_iff]
            rcases head with alpha | under
            · exact Or.inl (by simp [Char.isAlphanum, alpha])
            · exact Or.inr (Or.inl under)
          refine Or.inl ⟨c :: cs.takeWhile isNameChar, ?_, ?_⟩
          · refine IsComponent.name head fun x hx => ?_
            rw [← isNameChar_iff]
            exact mem_takeWhile_imp hx
          · rw [dropWhile_cons_of_pos named, cons_append,
              takeWhile_append_dropWhile]
        · cases h
          exact Or.inr ⟨rfl, c, cs, rfl, notSlash⟩

variable {rest : List Char}

theorem goLoop_short (h : rest.length ≤ 1) :
    goLoop dirName rest = .ok rest := by
  rw [goLoop, if_neg (Nat.not_lt.mpr h)]

theorem goLoop_long (h : 1 < rest.length) :
    goLoop dirName rest =
      (mustBeSlash dirName rest).bind fun atKey =>
        (mustBeKey dirName atKey).bind (goLoop dirName) := by
  rw [goLoop, if_pos h]
  cases mustBeSlash dirName rest with
  | error e => rfl
  | ok atKey =>
    dsimp only [Except.bind]
    cases mustBeKey dirName atKey with
    | error e => rfl
    | ok left => rfl

theorem goEnd_eq_ok :
    goEnd dirName rest = .ok () ↔ rest = ['/'] := by
  cases rest with
  | nil => exact iff_of_false (by simp [goEnd, mustBeSlash]) (by simp)
  | cons c cs =>
    by_cases hc : c = '/'
    · cases cs with
      | nil => simp [goEnd, mustBeSlash, hc]
      | cons d ds => simp [goEnd, mustBeSlash, hc]
    · simp [goEnd, mustBeSlash, hc]

theorem mustBeSlash_eq_ok {rest left : List Char} :
    mustBeSlash dirName rest = .ok left ↔ rest = '/' :: left := by
  cases rest with
  | nil => simp [mustBeSlash]
  | cons c cs =>
    by_cases hc : c = '/'
    · simp [mustBeSlash, hc]
    · simp [mustBeSlash, hc]

theorem goLoop_goEnd (dirName : String) (rest : List Char) :
    (goLoop dirName rest).bind (goEnd dirName) = .ok () ↔ IsPath rest := by
  induction hn : rest.length using Nat.strong_induction_on generalizing rest with
  | h n ih =>
    subst hn
    by_cases long : 1 < rest.length
    · rw [goLoop_long long]
      constructor
      · intro accepted
        cases slash : mustBeSlash dirName rest with
        | error e => rw [slash] at accepted; cases accepted
        | ok atKey =>
          cases key : mustBeKey dirName atKey with
          | error e => rw [slash, Except.bind, key] at accepted; cases accepted
          | ok left =>
            rw [slash] at accepted
            change ((mustBeKey dirName atKey).bind (goLoop dirName)).bind _ = _ at accepted
            rw [key] at accepted
            have shorter : left.length < rest.length :=
              lt_of_le_of_lt (mustBeKey_length key) (mustBeSlash_length slash)
            obtain ⟨components, valid, rfl⟩ := (ih _ shorter left rfl).mp accepted
            rw [mustBeSlash_eq_ok] at slash
            rcases mustBeKey_eq_ok key with ⟨text, component, rfl⟩ | ⟨same, c, cs, hc, other⟩
            · refine ⟨text :: components, forall_mem_cons.mpr ⟨component, valid⟩, ?_⟩
              rw [pathText_cons, slash]
            · rw [← same] at hc
              exact absurd (List.cons.inj hc).1.symm other
      · rintro ⟨components, valid, rfl⟩
        cases components with
        | nil => exact absurd long (by simp [pathText])
        | cons c cs =>
          have shorter : (pathText cs).length < (pathText (c :: cs)).length := by
            rw [pathText_cons, length_cons, length_append]
            omega
          have reads := (ih _ shorter (pathText cs) rfl).mpr
            ⟨cs, fun x hx => valid x (mem_cons_of_mem c hx), rfl⟩
          rw [pathText_cons, mustBeSlash_eq_ok.mpr rfl]
          change ((mustBeKey dirName (c ++ pathText cs)).bind (goLoop dirName)).bind _ = _
          have read := mustBeKey_component dirName (valid c mem_cons_self)
            (cs.flatMap (· ++ ['/']))
          change mustBeKey dirName (c ++ pathText cs) = .ok (pathText cs) at read
          rw [read]
          exact reads
    · rw [goLoop_short (Nat.not_lt.mp long)]
      change goEnd dirName rest = .ok () ↔ _
      rw [goEnd_eq_ok]
      constructor
      · rintro rfl
        exact ⟨[], by simp, rfl⟩
      · rintro ⟨components, valid, rfl⟩
        cases components with
        | nil => rfl
        | cons c cs =>
          rw [pathText_cons] at long
          exact absurd (by simp [pathText]) long

theorem go_eq_ok (dirName : String) : go dirName = .ok () ↔ IsPath dirName.toList := by
  rw [← goLoop_goEnd dirName]
  by_cases empty : dirName.toList = []
  · rw [go, if_pos empty, empty, goLoop_short (Nat.zero_le _)]
    exact iff_of_false nofun nofun
  · rw [go, if_neg empty]
    cases goLoop dirName dirName.toList <;> rfl

end NameValidator

theorem isDigit_uncapitalize (c : Char) :
    ((uncapitalize c).isDigit ∨ uncapitalize c = '-') ↔ (c.isDigit ∨ c = '-') := by
  unfold uncapitalize
  split <;> first | decide | rfl

theorem isAlpha_uncapitalize (c : Char) :
    ((uncapitalize c).isAlpha ∨ uncapitalize c = '_') ↔ (c.isAlpha ∨ c = '_') := by
  unfold uncapitalize
  split <;> first | decide | rfl

theorem isAlphanum_uncapitalize (c : Char) :
    ((uncapitalize c).isAlphanum ∨ uncapitalize c = '_' ∨ uncapitalize c = '-') ↔
      (c.isAlphanum ∨ c = '_' ∨ c = '-') := by
  unfold uncapitalize
  split <;> first | decide | rfl

theorem uncapitalize_eq_slash (c : Char) : uncapitalize c = '/' ↔ c = '/' := by
  unfold uncapitalize
  split <;> first | decide | rfl

theorem isComponent_map_uncapitalize (text : List Char) :
    IsComponent (text.map uncapitalize) ↔ IsComponent text := by
  constructor
  · intro h
    cases hm : text.map uncapitalize with
    | nil =>
      rw [hm] at h
      exact (map_eq_nil_iff.mp hm) ▸ h
    | cons first rest =>
      obtain ⟨c, cs, rfl, rfl, rfl⟩ := map_eq_cons_iff.mp hm
      cases h with
      | number nonempty digits =>
        refine IsComponent.number (cons_ne_nil c cs) fun x hx => ?_
        exact (isDigit_uncapitalize x).mp (digits _ (mem_map_of_mem hx))
      | name start follow =>
        refine IsComponent.name ((isAlpha_uncapitalize c).mp start) fun x hx => ?_
        exact (isAlphanum_uncapitalize x).mp (follow _ (mem_map_of_mem hx))
  · intro h
    cases h with
    | number nonempty digits =>
      refine IsComponent.number (by simpa using nonempty) fun x hx => ?_
      obtain ⟨y, hy, rfl⟩ := mem_map.mp hx
      exact (isDigit_uncapitalize y).mpr (digits y hy)
    | name start follow =>
      refine IsComponent.name ((isAlpha_uncapitalize _).mpr start) fun x hx => ?_
      obtain ⟨y, hy, rfl⟩ := mem_map.mp hx
      exact (isAlphanum_uncapitalize y).mpr (follow y hy)

theorem map_uncapitalize_pathText (components : List (List Char)) :
    (pathText components).map uncapitalize = pathText (components.map (·.map uncapitalize)) := by
  induction components with
  | nil => rfl
  | cons c cs ih =>
    rw [pathText_cons, map_cons, map_cons, map_append, ih, pathText_cons]
    rfl

theorem exists_of_map_uncapitalize (components : List (List Char)) (text : List Char)
    (h : text.map uncapitalize = pathText components) :
    ∃ original, text = pathText original ∧
      original.map (·.map uncapitalize) = components := by
  induction components generalizing text with
  | nil =>
    obtain ⟨c, cs, rfl, hc, hcs⟩ := map_eq_cons_iff.mp h
    rw [uncapitalize_eq_slash] at hc
    rw [flatMap_nil, map_eq_nil_iff] at hcs
    exact ⟨[], by rw [hc, hcs]; rfl, rfl⟩
  | cons first rest ih =>
    rw [pathText_cons] at h
    obtain ⟨c, cs, rfl, hc, hcs⟩ := map_eq_cons_iff.mp h
    rw [uncapitalize_eq_slash] at hc
    obtain ⟨l, r, rfl, hl, hr⟩ := map_eq_append_iff.mp hcs
    obtain ⟨original, rfl, folded⟩ := ih r hr
    exact ⟨l :: original, by rw [hc, pathText_cons], by rw [map_cons, hl, folded]⟩

theorem isPath_map_uncapitalize (text : List Char) :
    IsPath (text.map uncapitalize) ↔ IsPath text := by
  constructor
  · rintro ⟨components, valid, same⟩
    obtain ⟨original, rfl, rfl⟩ := exists_of_map_uncapitalize components text same
    refine ⟨original, fun c hc => ?_, rfl⟩
    exact (isComponent_map_uncapitalize c).mp (valid _ (mem_map_of_mem hc))
  · rintro ⟨components, valid, rfl⟩
    refine ⟨components.map (·.map uncapitalize), fun c hc => ?_,
      map_uncapitalize_pathText components⟩
    obtain ⟨d, hd, rfl⟩ := mem_map.mp hc
    exact (isComponent_map_uncapitalize d).mpr (valid d hd)

namespace DirName

def Accepts (dirName : String) : Prop := ∃ name, create dirName = .ok name

theorem accepts_iff (dirName : String) : Accepts dirName ↔ IsPath dirName.toList := by
  rw [← isPath_map_uncapitalize, ← toList_lowercase, ← NameValidator.go_eq_ok]
  unfold Accepts create validateDirName
  cases NameValidator.go (lowercase dirName) with
  | error e => exact iff_of_false (fun ⟨_, h⟩ => by cases h) nofun
  | ok u => exact iff_of_true ⟨_, rfl⟩ rfl

theorem isValidDirName_iff (dirName : String) :
    isValidDirName dirName = true ↔ Accepts dirName := by
  rw [accepts_iff, ← NameValidator.go_eq_ok, isValidDirName]
  cases NameValidator.go dirName with
  | error e => exact iff_of_false Bool.false_ne_true nofun
  | ok u => exact iff_of_true rfl rfl

variable (d : DirName)

variable (str : String)

theorem toList_subNoValidate :
    (d.subNoValidate str).dirName.toList = d.dirName.toList ++ (str.toList ++ ['/']) := by
  simp [subNoValidate, createNoValidate, String.toList_append]

theorem subNoValidate_endsIn (last : List Char)
    (hlength : str.toList.length = last.length) :
    EndsIn (d.subNoValidate str).dirName.toList last ↔
      IsPath d.dirName.toList ∧ IsComponent last ∧ str.toList = last := by
  rw [toList_subNoValidate]
  constructor
  · rintro ⟨before, valid, component, same⟩
    rw [pathText_concat] at same
    have lengths : (str.toList ++ ['/']).length = (last ++ ['/']).length := by
      rw [length_append, length_append, hlength]
    obtain ⟨front, back⟩ := append_inj' same lengths
    exact ⟨⟨before, valid, front⟩, component, append_cancel_right back⟩
  · rintro ⟨⟨before, valid, same⟩, component, rfl⟩
    exact ⟨before, valid, component, by rw [pathText_concat, same]⟩

/-- The texts for which `sub` reports an error. -/
def NoKey (str : String) : Prop := str.toList = [] ∨ str.toList.head? = some '/'

theorem sub_eq_ok (e : DirName) :
    d.sub str = .ok e ↔ ¬ NoKey str ∧ e = d.subNoValidate (lowercase str) := by
  unfold sub NoKey
  cases str.toList with
  | nil => exact iff_of_false nofun fun h => h.1 (Or.inl rfl)
  | cons c cs =>
    by_cases hc : c = '/'
    · rw [hc]
      exact iff_of_false nofun fun h => h.1 (Or.inr rfl)
    · have key : ∃ left, NameValidator.mustBeKey str (c :: cs) = .ok left := by
        rw [NameValidator.mustBeKey, if_neg hc]
        split
        · exact ⟨_, rfl⟩
        · split <;> exact ⟨_, rfl⟩
      obtain ⟨left, hleft⟩ := key
      rw [hleft]
      simp [hc, eq_comm]

theorem sub_endsIn (last : List Char)
    (hlength : str.toList.length = last.length) :
    (∀ e, d.sub str = .ok e → Accepts e.dirName ∧ EndsIn e.dirName.toList last) ↔
      NoKey str ∨
        IsPath d.dirName.toList ∧ IsComponent last ∧ (lowercase str).toList = last := by
  have lengths : (lowercase str).toList.length = last.length := by
    rw [toList_lowercase, length_map, hlength]
  rw [← subNoValidate_endsIn d (lowercase str) last lengths]
  by_cases h : NoKey str
  · exact iff_of_true (fun e he => absurd h ((sub_eq_ok d str e).mp he).1) (Or.inl h)
  · rw [or_iff_right h]
    constructor
    · intro all
      exact (all _ ((sub_eq_ok d str _).mpr ⟨h, rfl⟩)).2
    · intro ends e he
      obtain ⟨-, rfl⟩ := (sub_eq_ok d str e).mp he
      exact ⟨(accepts_iff _).mpr ends.isPath, ends⟩

/-- `create` accepts the grammar. `sub` stays within it where the whole text is a component and the
name was accepted; the component is the text in lower case. -/
theorem names_accepted (path : String) (d : DirName) (str : String) :
    (Accepts path ↔ IsPath path.toList) ∧
      ((∀ e, d.sub str = .ok e →
          Accepts e.dirName ∧ EndsIn e.dirName.toList (lowercase str).toList) ↔
        NoKey str ∨ Accepts d.dirName ∧ IsComponent str.toList) ∧
      ((∀ e, d.sub str = .ok e → Accepts e.dirName ∧ EndsIn e.dirName.toList str.toList) ↔
        NoKey str ∨
          Accepts d.dirName ∧ IsComponent str.toList ∧ lowercase str = str) := by
  refine ⟨accepts_iff path, ?_, ?_⟩
  · rw [sub_endsIn d str _ (by rw [toList_lowercase, length_map]), accepts_iff,
      toList_lowercase, isComponent_map_uncapitalize, and_iff_left rfl]
  · rw [sub_endsIn d str _ rfl, accepts_iff, String.toList_inj]

/-- `sub` reads a key and leaves what follows it unread. -/
theorem sub_unread :
    DirName.create "/" = .ok ⟨"/"⟩ ∧ DirName.sub ⟨"/"⟩ "1a" = .ok ⟨"/1a/"⟩ ∧
      ¬ Accepts "/1a/" := by
  refine ⟨?_, by decide, ?_⟩
  · have slash : NameValidator.go (lowercase "/") = .ok () := by
      rw [NameValidator.go_eq_ok]
      exact ⟨[], nofun, rfl⟩
    rw [create, validateDirName, slash]
    rfl
  · have stuck : NameValidator.go "/1a/" ≠ .ok () := by
      simp [NameValidator.go, NameValidator.goLoop, NameValidator.mustBeSlash,
        NameValidator.mustBeKey, NameValidator.isNumberChar]
    rwa [accepts_iff, ← NameValidator.go_eq_ok]

end DirName

end SkipPlatform
