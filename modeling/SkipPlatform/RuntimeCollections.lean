import Mathlib.Data.List.Basic
import Mathlib.Tactic
import SkipPlatform.DirName

set_option autoImplicit false

/-! The directories that the operations of the runtime make. Each is named after the arrow that is
running, the collection that the operation is applied to and what is applied to it. -/
namespace SkipPlatform.Runtime
open List

def intText (n : ℤ) : List Char :=
  if n < 0 then '-' :: Nat.toDigits 10 n.natAbs else Nat.toDigits 10 n.natAbs

def intToString (n : ℤ) : String := String.ofList (intText n)

def arrayToString (items : List String) : String := "Array[" ++ ", ".intercalate items ++ "]"

def pairToString (pair : String × String) : String := "(" ++ pair.1 ++ ", " ++ pair.2 ++ ")"

structure ArrowKey where
  parentName : DirName
  childName : DirName
  keyString : String

def ArrowKey.toString (arrow : ArrowKey) : String :=
  arrow.parentName.dirName ++ "[" ++ arrow.keyString ++ "] => " ++ arrow.childName.dirName

section Names

variable (hash : String → ℤ)

def xxHash (toEncode : String) : String := "xx_" ++ intToString (hash toEncode)

def subDirName (currentArrow : Option ArrowKey) (name : String) (parent : Option DirName) :
    Except String DirName :=
  let p := (parent.map fun v => xxHash hash v.dirName ++ "/").getD ""
  let path := match currentArrow with
    | some arrow => "/" ++ xxHash hash arrow.toString ++ "/" ++ p ++ name ++ "/"
    | none => "/sk/" ++ p ++ name ++ "/"
  DirName.create path

variable (currentArrow : Option ArrowKey) (this : DirName)

namespace Collection

def map (mapper : String) : Except String DirName :=
  subDirName hash currentArrow mapper (some this)

def mapReduce (mapperOpt : Option String) (reducer : String) : Except String DirName :=
  match mapperOpt with
  | some mapper => subDirName hash currentArrow (mapper ++ "_" ++ reducer) (some this)
  | none => subDirName hash currentArrow reducer (some this)

def nativeReducers : List String := ["sum", "min", "max", "count"]

def nativeMapReduce (mapperOpt : Option String) (reducer : String) : Except String DirName :=
  if reducer ∈ nativeReducers then
    match mapperOpt with
    | some mapper => subDirName hash currentArrow mapper (some this)
    | none => subDirName hash currentArrow reducer (some this)
  else
    .error ("Unrecognized native reducer: " ++ reducer)

section Sliced

variable {J : Type*} (prettyPrint : J → String)

def rangesToString (ranges : List (J × J)) : String :=
  arrayToString (ranges.map fun e => pairToString (prettyPrint e.1, prettyPrint e.2))

def sliced (ranges : List (J × J)) : Except String DirName :=
  subDirName hash currentArrow ("sliced/" ++ xxHash hash (rangesToString prettyPrint ranges))
    (some this)

end Sliced

def take (limit : ℤ) : Except String DirName :=
  subDirName hash currentArrow ("take_" ++ intToString limit) (some this)

def othersToString (others : List DirName) : String := arrayToString (others.map DirName.dirName)

def merge (others : List DirName) : Except String DirName :=
  subDirName hash currentArrow ("merge_" ++ xxHash hash (othersToString others)) (some this)

end Collection

/-- An operation of a collection, whose keys are of type `J`. -/
inductive Operation (J : Type*) where
  | map (mapper : String)
  | mapReduce (mapperOpt : Option String) (reducer : String)
  | nativeMapReduce (mapperOpt : Option String) (reducer : String)
  | sliced (ranges : List (J × J))
  | take (limit : ℤ)
  | merge (others : List DirName)

variable {J : Type*} (prettyPrint : J → String)

def Operation.dirName : Operation J → Except String DirName
  | .map mapper => Collection.map hash currentArrow this mapper
  | .mapReduce mapperOpt reducer => Collection.mapReduce hash currentArrow this mapperOpt reducer
  | .nativeMapReduce mapperOpt reducer =>
    Collection.nativeMapReduce hash currentArrow this mapperOpt reducer
  | .sliced ranges => Collection.sliced hash currentArrow this prettyPrint ranges
  | .take limit => Collection.take hash currentArrow this limit
  | .merge others => Collection.merge hash currentArrow this others

/-- A mapper or a reducer that comes from outside is named by the hash of what describes it. -/
def IsExternName (name : String) : Prop := ∃ info, name = xxHash hash info

def Operation.Named : Operation J → Prop
  | .map mapper => IsExternName hash mapper
  | .mapReduce mapperOpt reducer =>
    (∀ mapper ∈ mapperOpt, IsExternName hash mapper) ∧ IsExternName hash reducer
  | .nativeMapReduce mapperOpt reducer =>
    (∀ mapper ∈ mapperOpt, IsExternName hash mapper) ∧ reducer ∈ Collection.nativeReducers
  | .sliced _ => True
  | .take _ => True
  | .merge _ => True

/-- The name that stands for an operation by itself, without its kind or another name. -/
def Operation.alone : Operation J → Option String
  | .map mapper => some mapper
  | .mapReduce none reducer => some reducer
  | .nativeMapReduce (some mapper) _ => some mapper
  | _ => none

def Operation.Clash (a b : Operation J) : Prop :=
  (∃ name, a.alone = some name ∧ b.alone = some name) ∨
    (∃ r s, a = .sliced r ∧ b = .sliced s ∧
      hash (Collection.rangesToString prettyPrint r) =
        hash (Collection.rangesToString prettyPrint s)) ∨
    ∃ xs ys, a = .merge xs ∧ b = .merge ys ∧
      hash (Collection.othersToString xs) = hash (Collection.othersToString ys)

end Names

theorem mem_intText {n : ℤ} {c : Char} (h : c ∈ intText n) : c.isDigit = true ∨ c = '-' := by
  have digit : ∀ {m : ℕ}, c ∈ Nat.toDigits 10 m → c.isDigit = true :=
    fun hc => Nat.isDigit_of_mem_toDigits (by norm_num) (by norm_num) hc
  rw [intText] at h
  split at h
  · cases h with
    | head => exact Or.inr rfl
    | tail _ later => exact Or.inl (digit later)
  · exact Or.inl (digit h)

theorem not_mem_intText {c : Char} (h : c.isDigit = false) (dash : c ≠ '-') (n : ℤ) :
    c ∉ intText n := by
  intro hc
  rcases mem_intText hc with digit | same
  · rw [h] at digit
    cases digit
  · exact dash same

theorem toDigits_injective {m n : ℕ} (h : Nat.toDigits 10 m = Nat.toDigits 10 n) : m = n := by
  have back := congrArg (fun digits => Nat.ofDigitChars 10 digits 0) h
  simpa only [Nat.ofDigitChars_ten_toDigits] using back

theorem dash_cons_ne (ds : List Char) (n : ℕ) : '-' :: ds ≠ Nat.toDigits 10 n := by
  intro same
  have dash : '-' ∈ Nat.toDigits 10 n := same ▸ mem_cons_self
  have digit : Char.isDigit '-' = true :=
    Nat.isDigit_of_mem_toDigits (by norm_num) (by norm_num) dash
  exact absurd digit (by decide)

theorem intText_injective {m n : ℤ} (h : intText m = intText n) : m = n := by
  unfold intText at h
  split_ifs at h with hm hn hn
  · have digits := toDigits_injective (List.cons.inj h).2
    omega
  · exact absurd h (dash_cons_ne _ _)
  · exact absurd h.symm (dash_cons_ne _ _)
  · have digits := toDigits_injective h
    omega

theorem takeWhile_intText (n : ℤ) (rest : List Char) :
    (intText n ++ '_' :: rest).takeWhile (· != '_') = intText n := by
  have before : ∀ c ∈ intText n, (c != '_') = true := by
    intro c hc
    rw [bne_iff_ne]
    rintro rfl
    exact not_mem_intText (by decide) (by decide) n hc
  rw [takeWhile_append_of_pos before, takeWhile_cons_of_neg (by decide), append_nil]

theorem intText_append_inj {m n : ℤ} {rest rest' : List Char}
    (h : intText m ++ '_' :: rest = intText n ++ '_' :: rest') : m = n ∧ rest = rest' := by
  have texts : intText m = intText n := by
    rw [← takeWhile_intText m rest, h, takeWhile_intText]
  rw [texts] at h
  exact ⟨intText_injective texts, (List.cons.inj (append_cancel_left h)).2⟩

@[simp]
theorem toList_intToString (n : ℤ) : (intToString n).toList = intText n := String.toList_ofList

def isPlain (c : Char) : Bool := c.isLower || c.isDigit || c == '_' || c == '-'

/-- A component of small letters, digits and dashes that starts with a letter. -/
structure IsPlainName (text : List Char) : Prop where
  start : ∃ first ∈ text.head?, first.isLower = true
  all : ∀ c ∈ text, isPlain c = true

theorem uncapitalize_of_isPlain {c : Char} (h : isPlain c = true) : uncapitalize c = c := by
  unfold uncapitalize
  split <;> first | rfl | exact absurd h (by decide)

theorem isPlain_of_mem_intText (n : ℤ) : ∀ c ∈ intText n, isPlain c = true := by
  intro c hc
  rcases mem_intText hc with digit | rfl
  · simp [isPlain, digit]
  · rfl

namespace IsPlainName

theorem append {text rest : List Char} (h : IsPlainName text)
    (more : ∀ c ∈ rest, isPlain c = true) : IsPlainName (text ++ rest) := by
  obtain ⟨first, hfirst, lower⟩ := h.start
  refine ⟨⟨first, ?_, lower⟩, fun c hc => ?_⟩
  · rw [Option.mem_def] at hfirst ⊢
    rw [List.head?_append, hfirst]
    rfl
  · rcases mem_append.mp hc with left | right
    · exact h.all c left
    · exact more c right

theorem isComponent {text : List Char} (h : IsPlainName text) : IsComponent text := by
  cases text with
  | nil =>
    obtain ⟨first, hfirst, -⟩ := h.start
    cases hfirst
  | cons first rest =>
    obtain ⟨c, hc, lower⟩ := h.start
    rw [List.head?_cons, Option.mem_def, Option.some.injEq] at hc
    subst hc
    have alpha (c : Char) : c.isAlpha = (c.isUpper || c.isLower) := rfl
    refine IsComponent.name (Or.inl (by simp [alpha, lower])) fun x hx => ?_
    have plain := h.all x (mem_cons_of_mem first hx)
    simp only [isPlain, Bool.or_eq_true, beq_iff_eq] at plain
    simp only [Char.isAlphanum, alpha, Bool.or_eq_true]
    clear alpha
    tauto

theorem map_uncapitalize {text : List Char} (h : IsPlainName text) :
    text.map uncapitalize = text := by
  have same : ∀ c ∈ text, uncapitalize c = id c :=
    fun c hc => uncapitalize_of_isPlain (h.all c hc)
  rw [map_congr_left same, map_id]

end IsPlainName

theorem create_plain (components : List (List Char)) (h : ∀ c ∈ components, IsPlainName c)
    {path : String} (made : path.toList = pathText components) :
    DirName.create path = .ok ⟨path⟩ := by
  have folded : lowercase path = path := by
    have each : components.map (·.map uncapitalize) = components := by
      rw [map_congr_left (g := id) fun c hc => (h c hc).map_uncapitalize, map_id]
    rw [lowercase, made, map_uncapitalize_pathText, each, ← made, String.ofList_toList]
  have accepted : NameValidator.go path = .ok () :=
    (NameValidator.go_eq_ok path).mpr ⟨components, fun c hc => (h c hc).isComponent, made⟩
  rw [DirName.create, DirName.validateDirName, folded, accepted]
  rfl

section Parts

variable (hash : String → ℤ)

theorem xxHash_plain (toEncode : String) : IsPlainName (xxHash hash toEncode).toList := by
  have base : IsPlainName "xx_".toList := ⟨⟨'x', rfl, rfl⟩, all_eq_true.mp rfl⟩
  rw [xxHash, String.toList_append, toList_intToString]
  exact base.append (isPlain_of_mem_intText _)

/-- The text before the name in the directories of the operations on one collection. -/
def base (currentArrow : Option ArrowKey) (this : DirName) : String :=
  let p := xxHash hash this.dirName ++ "/"
  match currentArrow with
  | some arrow => "/" ++ xxHash hash arrow.toString ++ "/" ++ p
  | none => "/sk/" ++ p

theorem base_eq (currentArrow : Option ArrowKey) (this : DirName) :
    ∃ components, (∀ c ∈ components, IsPlainName c) ∧
      (base hash currentArrow this).toList = pathText components := by
  have slash : "/".toList = ['/'] := rfl
  have parent := xxHash_plain hash this.dirName
  cases currentArrow with
  | none =>
    have sk : IsPlainName ['s', 'k'] := ⟨⟨'s', rfl, rfl⟩, all_eq_true.mp rfl⟩
    have root : "/sk/".toList = ['/', 's', 'k', '/'] := rfl
    refine ⟨[['s', 'k'], (xxHash hash this.dirName).toList], by simp [sk, parent], ?_⟩
    simp only [base, String.toList_append, slash, root, pathText, flatMap_cons,
      flatMap_nil, append_nil, cons_append, nil_append]
  | some arrow =>
    have first := xxHash_plain hash arrow.toString
    refine ⟨[(xxHash hash arrow.toString).toList, (xxHash hash this.dirName).toList],
      by simp [first, parent], ?_⟩
    simp only [base, String.toList_append, slash, pathText, flatMap_cons, flatMap_nil,
      append_nil, cons_append, nil_append, append_assoc]

theorem subDirName_eq (currentArrow : Option ArrowKey) (this : DirName) {name : String}
    {components : List (List Char)} (plain : ∀ c ∈ components, IsPlainName c)
    (made : name.toList ++ ['/'] = components.flatMap (· ++ ['/'])) :
    subDirName hash currentArrow name (some this) =
      .ok ⟨base hash currentArrow this ++ name ++ "/"⟩ := by
  obtain ⟨before, hbefore, text⟩ := base_eq hash currentArrow this
  have created : DirName.create (base hash currentArrow this ++ name ++ "/") =
      .ok ⟨base hash currentArrow this ++ name ++ "/"⟩ := by
    refine create_plain (before ++ components) (fun c hc => ?_) ?_
    · exact (mem_append.mp hc).elim (hbefore c) (plain c)
    · have slash : "/".toList = ['/'] := rfl
      rw [String.toList_append, String.toList_append, text, slash, append_assoc, made,
        pathText, pathText, flatMap_append, cons_append]
  cases currentArrow with
  | none => exact created
  | some arrow => exact created

/-- What is put after the names of the arrow and of the collection. -/
inductive Part where
  | single (name : String)
  | pair (mapper reducer : String)
  | native (reducer : String)
  | sliced (ranges : ℤ)
  | take (limit : ℤ)
  | merge (others : ℤ)

def Part.text : Part → String
  | .single name => name
  | .pair mapper reducer => mapper ++ "_" ++ reducer
  | .native reducer => reducer
  | .sliced ranges => "sliced/" ++ ("xx_" ++ intToString ranges)
  | .take limit => "take_" ++ intToString limit
  | .merge others => "merge_" ++ ("xx_" ++ intToString others)

def Part.Named : Part → Prop
  | .single name => IsExternName hash name
  | .pair mapper reducer => IsExternName hash mapper ∧ IsExternName hash reducer
  | .native reducer => reducer ∈ Collection.nativeReducers
  | .sliced _ => True
  | .take _ => True
  | .merge _ => True

/-- The first character of the text of a part and the number of its underscores. -/
def Part.mark : Part → Option Char × ℕ
  | .single _ => (some 'x', 1)
  | .pair _ _ => (some 'x', 3)
  | .native reducer => (reducer.toList.head?, 0)
  | .sliced _ => (some 's', 1)
  | .take _ => (some 't', 1)
  | .merge _ => (some 'm', 2)

variable {hash}

theorem IsExternName.eq {name : String} (h : IsExternName hash name) :
    ∃ n, name.toList = ['x', 'x', '_'] ++ intText n := by
  obtain ⟨info, rfl⟩ := h
  have start : "xx_".toList = ['x', 'x', '_'] := rfl
  exact ⟨hash info, by rw [xxHash, String.toList_append, toList_intToString, start]⟩

@[simp]
theorem count_underscore_intText (n : ℤ) : (intText n).count '_' = 0 :=
  count_eq_zero.mpr (not_mem_intText (by decide) (by decide) n)

theorem Part.mark_eq {part : Part} (h : part.Named hash) :
    part.mark = (part.text.toList.head?, part.text.toList.count '_') := by
  cases part with
  | single name =>
    obtain ⟨n, same⟩ := IsExternName.eq h
    simp [mark, text, same]
  | pair mapper reducer =>
    obtain ⟨m, hm⟩ := IsExternName.eq h.1
    obtain ⟨r, hr⟩ := IsExternName.eq h.2
    have dash : "_".toList = ['_'] := rfl
    simp [mark, text, String.toList_append, hm, hr, dash]
  | native reducer =>
    have none : ∀ r ∈ Collection.nativeReducers, r.toList.count '_' = 0 := by decide
    rw [mark, text, none reducer h]
  | sliced ranges =>
    have start : "sliced/".toList = ['s', 'l', 'i', 'c', 'e', 'd', '/'] := rfl
    have middle : "xx_".toList = ['x', 'x', '_'] := rfl
    simp [mark, text, String.toList_append, start, middle]
  | take limit =>
    have start : "take_".toList = ['t', 'a', 'k', 'e', '_'] := rfl
    simp [mark, text, String.toList_append, start]
  | merge others =>
    have start : "merge_".toList = ['m', 'e', 'r', 'g', 'e', '_'] := rfl
    have middle : "xx_".toList = ['x', 'x', '_'] := rfl
    simp [mark, text, String.toList_append, start, middle]

theorem Part.text_injective {p q : Part} (hp : p.Named hash) (hq : q.Named hash)
    (h : p.text = q.text) : p = q := by
  have marks : p.mark = q.mark := by rw [mark_eq hp, mark_eq hq, h]
  cases p with
  | single name =>
    cases q with
    | single other => exact congrArg single h
    | _ => simp [mark] at marks
  | pair mapper reducer =>
    cases q with
    | pair mapper' reducer' =>
      obtain ⟨m, hm⟩ := IsExternName.eq hp.1
      obtain ⟨m', hm'⟩ := IsExternName.eq hq.1
      have dash : "_".toList = ['_'] := rfl
      have texts := congrArg String.toList h
      simp only [text, String.toList_append, dash, append_assoc, hm, hm'] at texts
      have behind : intText m ++ '_' :: reducer.toList = intText m' ++ '_' :: reducer'.toList :=
        append_cancel_left texts
      obtain ⟨numbers, rests⟩ := intText_append_inj behind
      have mappers : mapper = mapper' := by
        rw [← String.toList_inj, hm, hm', numbers]
      rw [mappers, String.toList_inj.mp rests]
    | _ => simp [mark] at marks
  | native reducer =>
    cases q with
    | native other => exact congrArg native h
    | _ => simp [mark] at marks
  | sliced ranges =>
    cases q with
    | sliced other =>
      have texts := congrArg String.toList h
      simp only [text, String.toList_append, toList_intToString] at texts
      have numbers := append_cancel_left (append_cancel_left texts)
      exact congrArg sliced (intText_injective numbers)
    | _ => simp [mark] at marks
  | take limit =>
    cases q with
    | take other =>
      have texts := congrArg String.toList h
      simp only [text, String.toList_append, toList_intToString] at texts
      exact congrArg take (intText_injective (append_cancel_left texts))
    | _ => simp [mark] at marks
  | merge others =>
    cases q with
    | merge other =>
      have texts := congrArg String.toList h
      simp only [text, String.toList_append, toList_intToString] at texts
      have numbers := append_cancel_left (append_cancel_left texts)
      exact congrArg merge (intText_injective numbers)
    | _ => simp [mark] at marks

theorem IsExternName.plain {name : String} (h : IsExternName hash name) :
    IsPlainName name.toList := by
  obtain ⟨info, rfl⟩ := h
  exact xxHash_plain hash info

theorem Part.plain {part : Part} (h : part.Named hash) :
    ∃ components : List (List Char), (∀ c ∈ components, IsPlainName c) ∧
      part.text.toList ++ ['/'] = components.flatMap (· ++ ['/']) := by
  have alone : IsPlainName part.text.toList →
      ∃ components : List (List Char), (∀ c ∈ components, IsPlainName c) ∧
        part.text.toList ++ ['/'] = components.flatMap (· ++ ['/']) := by
    intro plain
    exact ⟨[part.text.toList], by simpa using plain, by simp⟩
  have middle : "xx_".toList = ['x', 'x', '_'] := rfl
  cases part with
  | single name => exact alone h.plain
  | pair mapper reducer =>
    apply alone
    rw [text, String.toList_append, String.toList_append]
    exact (h.1.plain.append (all_eq_true.mp rfl)).append h.2.plain.all
  | native reducer =>
    have heads : ∀ r ∈ Collection.nativeReducers, r.toList.head?.any Char.isLower = true :=
      all_eq_true.mp rfl
    have plains : ∀ r ∈ Collection.nativeReducers, r.toList.all isPlain = true :=
      all_eq_true.mp rfl
    exact alone ⟨(Option.any_eq_true _ _).mp (heads reducer h), all_eq_true.mp (plains reducer h)⟩
  | sliced ranges =>
    have start : "sliced/".toList = ['s', 'l', 'i', 'c', 'e', 'd'] ++ ['/'] := rfl
    have first : IsPlainName ['s', 'l', 'i', 'c', 'e', 'd'] :=
      ⟨⟨'s', rfl, rfl⟩, all_eq_true.mp rfl⟩
    have base : IsPlainName ['x', 'x', '_'] := ⟨⟨'x', rfl, rfl⟩, all_eq_true.mp rfl⟩
    have second := base.append (isPlain_of_mem_intText ranges)
    refine ⟨[_, _], forall_mem_cons.mpr ⟨first, forall_mem_singleton.mpr second⟩, ?_⟩
    simp only [text, String.toList_append, toList_intToString, start, middle, flatMap_cons,
      flatMap_nil, append_nil, append_assoc]
  | take limit =>
    have start : IsPlainName "take_".toList := ⟨⟨'t', rfl, rfl⟩, all_eq_true.mp rfl⟩
    apply alone
    rw [text, String.toList_append, toList_intToString]
    exact start.append (isPlain_of_mem_intText limit)
  | merge others =>
    have start : IsPlainName ("merge_".toList ++ "xx_".toList) :=
      ⟨⟨'m', rfl, rfl⟩, all_eq_true.mp rfl⟩
    apply alone
    rw [text, String.toList_append, String.toList_append, toList_intToString,
      ← append_assoc]
    exact start.append (isPlain_of_mem_intText others)

namespace Operation

variable {J : Type*} (prettyPrint : J → String)

variable (hash) in
def part : Operation J → Part
  | .map mapper => .single mapper
  | .mapReduce (some mapper) reducer => .pair mapper reducer
  | .mapReduce none reducer => .single reducer
  | .nativeMapReduce (some mapper) _ => .single mapper
  | .nativeMapReduce none reducer => .native reducer
  | .sliced ranges => .sliced (hash (Collection.rangesToString prettyPrint ranges))
  | .take limit => .take limit
  | .merge others => .merge (hash (Collection.othersToString others))

variable {op : Operation J}

theorem part_named (h : op.Named hash) :
    (op.part hash prettyPrint).Named hash := by
  cases op with
  | map mapper => exact h
  | mapReduce mapperOpt reducer =>
    cases mapperOpt with
    | none => exact h.2
    | some mapper => exact ⟨h.1 mapper rfl, h.2⟩
  | nativeMapReduce mapperOpt reducer =>
    cases mapperOpt with
    | none => exact h.2
    | some mapper => exact h.1 mapper rfl
  | sliced ranges => trivial
  | take limit => trivial
  | merge others => trivial

theorem dirName_eq (currentArrow : Option ArrowKey) (this : DirName)
    (h : op.Named hash) :
    op.dirName hash currentArrow this prettyPrint =
      .ok ⟨base hash currentArrow this ++ (op.part hash prettyPrint).text ++ "/"⟩ := by
  obtain ⟨components, plain, made⟩ := Part.plain (part_named prettyPrint h)
  rw [← subDirName_eq hash currentArrow this plain made]
  cases op with
  | map mapper => rfl
  | mapReduce mapperOpt reducer => cases mapperOpt <;> rfl
  | nativeMapReduce mapperOpt reducer =>
    have known : reducer ∈ Collection.nativeReducers := h.2
    rw [dirName]
    unfold Collection.nativeMapReduce
    rw [if_pos known]
    cases mapperOpt <;> rfl
  | sliced ranges => rfl
  | take limit => rfl
  | merge others => rfl

variable {prettyPrint}

theorem part_eq_single {name : String} :
    op.part hash prettyPrint = .single name ↔ op.alone = some name := by
  cases op with
  | mapReduce mapperOpt reducer => cases mapperOpt <;> simp [part, alone]
  | nativeMapReduce mapperOpt reducer => cases mapperOpt <;> simp [part, alone]
  | _ => simp [part, alone]

theorem part_eq_pair {mapper reducer : String} :
    op.part hash prettyPrint = .pair mapper reducer ↔ op = .mapReduce (some mapper) reducer := by
  cases op with
  | mapReduce mapperOpt reducer => cases mapperOpt <;> simp [part]
  | nativeMapReduce mapperOpt reducer => cases mapperOpt <;> simp [part]
  | _ => simp [part]

theorem part_eq_native {reducer : String} :
    op.part hash prettyPrint = .native reducer ↔ op = .nativeMapReduce none reducer := by
  cases op with
  | mapReduce mapperOpt reducer => cases mapperOpt <;> simp [part]
  | nativeMapReduce mapperOpt reducer => cases mapperOpt <;> simp [part]
  | _ => simp [part]

theorem part_eq_sliced {ranges : ℤ} :
    op.part hash prettyPrint = .sliced ranges ↔
      ∃ r, op = .sliced r ∧ hash (Collection.rangesToString prettyPrint r) = ranges := by
  cases op with
  | mapReduce mapperOpt reducer => cases mapperOpt <;> simp [part]
  | nativeMapReduce mapperOpt reducer => cases mapperOpt <;> simp [part]
  | _ => simp [part]

theorem part_eq_take {limit : ℤ} :
    op.part hash prettyPrint = .take limit ↔ op = .take limit := by
  cases op with
  | mapReduce mapperOpt reducer => cases mapperOpt <;> simp [part]
  | nativeMapReduce mapperOpt reducer => cases mapperOpt <;> simp [part]
  | _ => simp [part]

theorem part_eq_merge {others : ℤ} :
    op.part hash prettyPrint = .merge others ↔
      ∃ xs, op = .merge xs ∧ hash (Collection.othersToString xs) = others := by
  cases op with
  | mapReduce mapperOpt reducer => cases mapperOpt <;> simp [part]
  | nativeMapReduce mapperOpt reducer => cases mapperOpt <;> simp [part]
  | _ => simp [part]

theorem part_eq_iff {a b : Operation J} (different : a ≠ b) :
    a.part hash prettyPrint = b.part hash prettyPrint ↔ Clash hash prettyPrint a b := by
  constructor
  · intro same
    cases hb : b.part hash prettyPrint with
    | single name =>
      rw [hb] at same
      exact Or.inl ⟨name, part_eq_single.mp same, part_eq_single.mp hb⟩
    | pair mapper reducer =>
      rw [hb, part_eq_pair] at same
      exact absurd (same.trans (part_eq_pair.mp hb).symm) different
    | native reducer =>
      rw [hb, part_eq_native] at same
      exact absurd (same.trans (part_eq_native.mp hb).symm) different
    | sliced ranges =>
      rw [hb] at same
      obtain ⟨r, hr, hashed⟩ := part_eq_sliced.mp same
      obtain ⟨s, hs, hashed'⟩ := part_eq_sliced.mp hb
      exact Or.inr (Or.inl ⟨r, s, hr, hs, hashed.trans hashed'.symm⟩)
    | take limit =>
      rw [hb, part_eq_take] at same
      exact absurd (same.trans (part_eq_take.mp hb).symm) different
    | merge others =>
      rw [hb] at same
      obtain ⟨xs, hxs, hashed⟩ := part_eq_merge.mp same
      obtain ⟨ys, hys, hashed'⟩ := part_eq_merge.mp hb
      exact Or.inr (Or.inr ⟨xs, ys, hxs, hys, hashed.trans hashed'.symm⟩)
  · rintro (⟨name, ha, hb⟩ | ⟨r, s, rfl, rfl, hashed⟩ | ⟨xs, ys, rfl, rfl, hashed⟩)
    · rw [part_eq_single.mpr ha, part_eq_single.mpr hb]
    · exact congrArg Part.sliced hashed
    · exact congrArg Part.merge hashed

variable (prettyPrint)

/-- Operations that differ get directories that differ unless their names clash. -/
theorem dirName_ne_iff (currentArrow : Option ArrowKey) (this : DirName) (a b : Operation J)
    (ha : a.Named hash) (hb : b.Named hash) (different : a ≠ b) :
    ∃ d e, a.dirName hash currentArrow this prettyPrint = .ok d ∧
      b.dirName hash currentArrow this prettyPrint = .ok e ∧
        (d ≠ e ↔ ¬ a.Clash hash prettyPrint b) := by
  refine ⟨_, _, dirName_eq prettyPrint currentArrow this ha,
    dirName_eq prettyPrint currentArrow this hb, ?_⟩
  rw [← part_eq_iff different, ne_eq, not_iff_not]
  constructor
  · intro same
    have texts := congrArg String.toList (congrArg DirName.dirName same)
    simp only [String.toList_append] at texts
    have names := append_cancel_left (append_cancel_right texts)
    exact Part.text_injective (part_named prettyPrint ha) (part_named prettyPrint hb)
      (String.toList_inj.mp names)
  · intro same
    rw [same]

theorem dirName_ne_iff_reducers :
    let hash : String → ℤ := fun text => text.length
    let mapper := xxHash hash "mapper"
    let a : Operation String := .nativeMapReduce (some mapper) "sum"
    let b : Operation String := .mapReduce (some mapper) (xxHash hash "reducer")
    (a.Named hash ∧ b.Named hash ∧ a ≠ b) ∧
      ∃ d e, a.dirName hash none ⟨"/c/"⟩ id = .ok d ∧ b.dirName hash none ⟨"/c/"⟩ id = .ok e ∧
        (d ≠ e ↔ ¬ a.Clash hash id b) := by
  intro hash mapper a b
  have external : IsExternName hash mapper := ⟨"mapper", rfl⟩
  have ha : a.Named hash := by
    refine ⟨fun name hname => ?_, by decide⟩
    cases hname
    exact external
  have hb : b.Named hash := by
    refine ⟨fun name hname => ?_, "reducer", rfl⟩
    cases hname
    exact external
  have different : a ≠ b := by simp only [a, b, ne_eq, reduceCtorEq, not_false_eq_true]
  exact ⟨⟨ha, hb, different⟩, dirName_ne_iff id none ⟨"/c/"⟩ a b ha hb different⟩

/-- The reducer is not in the name once there is a mapper. -/
theorem nativeMapReduce_reducers_clash :
    let hash : String → ℤ := fun text => text.length
    ¬ ∀ a b : Operation String, a.Named hash → b.Named hash → a ≠ b →
      a.dirName hash none ⟨"/c/"⟩ id ≠ b.dirName hash none ⟨"/c/"⟩ id := by
  intro hash apart
  have named : ∀ reducer ∈ Collection.nativeReducers,
      (nativeMapReduce (some (xxHash hash "mapper")) reducer : Operation String).Named hash := by
    refine fun reducer known => ⟨fun name hname => ?_, known⟩
    cases hname
    exact ⟨"mapper", rfl⟩
  have different : (nativeMapReduce (some (xxHash hash "mapper")) "sum" : Operation String) ≠
      nativeMapReduce (some (xxHash hash "mapper")) "min" := by
    intro same
    exact absurd (Operation.nativeMapReduce.inj same).2 (by decide)
  exact apart _ _ (named "sum" (by decide)) (named "min" (by decide)) different rfl

end Operation

end Parts

end SkipPlatform.Runtime
