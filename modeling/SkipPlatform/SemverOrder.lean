import Mathlib.Data.Int.Bitwise
import Mathlib.Data.List.Basic
import Mathlib.Data.List.Induction

set_option autoImplicit false

/-! Versions as texts, and the order of versions. -/
namespace SkipPlatform.Semver
open List Std

/-- An empty text stands for no prerelease and for no build metadata. -/
structure Version where
  major : ℤ
  minor : ℤ
  patch : ℤ
  pre : List Char := []
  build : List Char := []

/-- The loop of `numeric_identifier`; the value wraps at 64 bits. -/
def numericLoop : List Char → ℤ → ℕ → Option (ℤ × ℕ × List Char)
  | d :: rest, value, len =>
    if d.isDigit then
      if value = 0 ∧ 0 < len then none
      else numericLoop rest ((10 * value + (d.toNat - '0'.toNat : ℕ)).bmod (2 ^ 64)) (len + 1)
    else some (value, len, d :: rest)
  | [], value, len => some (value, len, [])

def numericIdentifier (pos : List Char) : Option (ℤ × List Char) := do
  let (value, len, rest) ← numericLoop pos 0 0
  if len = 0 then none else some (value, rest)

/-- The loops of `identifier` and `identifier_segment`. -/
def identifierLoop : List Char → List Char → List (List Char) →
    Option (List (List Char) × List Char)
  | c :: rest, segment, res =>
    if c.isAlpha ∨ c.isDigit ∨ c = '-' then identifierLoop rest (segment ++ [c]) res
    else if segment = [] then none
    else if c = '.' then identifierLoop rest [] (res ++ [segment])
    else some (res ++ [segment], c :: rest)
  | [], segment, res => if segment = [] then none else some (res ++ [segment], [])

def identifier (pos : List Char) : Option (List Char × List Char) := do
  let (res, rest) ← identifierLoop pos [] []
  some (intercalate ['.'] res, rest)

def dot : List Char → Option (List Char)
  | '.' :: rest => some rest
  | _ => none

/-- An identifier, if it is announced. -/
def optional (mark : Char) : List Char → Option (List Char × List Char)
  | c :: rest => if c = mark then identifier rest else some ([], c :: rest)
  | [] => some ([], [])

def parseVersion (pos : List Char) : Option (Version × List Char) := do
  let (major, pos) ← numericIdentifier pos
  let pos ← dot pos
  let (minor, pos) ← numericIdentifier pos
  let pos ← dot pos
  let (patch, pos) ← numericIdentifier pos
  let (pre, pos) ← optional '-' pos
  let (build, pos) ← optional '+' pos
  some (⟨major, minor, patch, pre, build⟩, pos)

def Version.fromString (str : List Char) : Option Version := do
  let (res, pos) ← parseVersion str
  if pos = [] then some res else none

def digits (s : List Char) : ℕ := s.foldl (fun value c => 10 * value + (c.toNat - '0'.toNat)) 0

/-- `String.toInt` of a text of digits only. -/
def toInt (s : List Char) : Option ℕ :=
  if s = [] then none else if digits s < 2 ^ 63 then some (digits s) else none

def codes (s : List Char) : List ℕ := s.map Char.toNat

/-- Segments of digits are compared by value, then by `tie`. -/
def segmentOrder (tie : List Char → List Char → Ordering) (x y : List Char) : Option Ordering :=
  match x.all Char.isDigit, y.all Char.isDigit with
  | true, true => do some ((compare (← toInt x) (← toInt y)).then (tie x y))
  | true, false => some .lt
  | false, true => some .gt
  | false, false => some (List.compareLex compare (codes x) (codes y))

/-- The loop over the segments. -/
def compareSegments (tie : List Char → List Char → Ordering) :
    List (List Char) → List (List Char) → Option Ordering
  | x :: lhs, y :: rhs => do
    let order ← segmentOrder tie x y
    if order = .eq then compareSegments tie lhs rhs else some order
  | _ :: _, [] => some .gt
  | [], _ :: _ => some .lt
  | [], [] => some .eq

def Prerelease.compare (x y : List Char) : Option Ordering :=
  if x = [] ∧ y = [] then some .eq
  else if x = [] then some .gt
  else if y = [] then some .lt
  else compareSegments (fun _ _ => .eq) (x.splitOn '.') (y.splitOn '.')

def BuildMetadata.compare (x y : List Char) : Option Ordering :=
  if x = [] ∧ y = [] then some .eq
  else compareSegments (fun x y => Ord.compare x.length y.length) (x.splitOn '.') (y.splitOn '.')

/-- The fields in turn. -/
def Version.compare (v w : Version) : Option Ordering :=
  let numbers := ((Ord.compare v.major w.major).then (Ord.compare v.minor w.minor)).then
    (Ord.compare v.patch w.patch)
  if numbers ≠ .eq then some numbers
  else do
    let order ← Prerelease.compare v.pre w.pre
    if order ≠ .eq then some order else BuildMetadata.compare v.build w.build

section Keys

/-- What a list of segments is ordered by: numeric segments `0 :: _` are before the others,
`1 :: codes`, and a list comes before its extensions. -/
structure Key where
  segments : List (List ℕ)

abbrev segmentsOrder : List (List ℕ) → List (List ℕ) → Ordering :=
  List.compareLex (List.compareLex compare)

instance : Ord Key where
  compare a b := segmentsOrder a.segments b.segments

instance : TransOrd Key where
  eq_swap {_ _} := (OrientedCmp.eq_swap : segmentsOrder _ _ = _)
  isLE_trans hab hbc := (TransCmp.isLE_trans hab hbc : (segmentsOrder _ _).isLE)

instance : LawfulEqOrd Key where
  compare_self {_} := (ReflCmp.compare_self : segmentsOrder _ _ = .eq)
  eq_of_compare {a b} h := by
    have same : a.segments = b.segments := LawfulEqCmp.eq_of_compare (h : segmentsOrder _ _ = .eq)
    cases a
    cases b
    exact congrArg Key.mk same

def segmentKey (extra : List Char → List ℕ) (s : List Char) : List ℕ :=
  if s.all Char.isDigit then 0 :: (if s = [] then [] else digits s :: extra s) else 1 :: codes s

/-- The precedence of a prerelease; a release is after all of them. -/
def precedence (pre : List Char) : Key :=
  if pre = [] then ⟨[[2]]⟩ else ⟨(pre.splitOn '.').map (segmentKey fun _ => [])⟩

def buildKey (build : List Char) : Key :=
  ⟨(build.splitOn '.').map (segmentKey fun s => [s.length])⟩

/-- The order that is meant. -/
def order : Version → Version → Ordering :=
  compareLex (compareLex (compareLex (compareOn Version.major) (compareOn Version.minor))
    (compareOn Version.patch))
    (compareLex (compareOn fun v => precedence v.pre) (compareOn fun v => buildKey v.build))

/-- The segments are not empty, and `String.toInt` can read those of digits. -/
def Readable (xs : List (List Char)) : Prop :=
  ∀ s ∈ xs, s ≠ [] ∧ (s.all Char.isDigit → digits s < 2 ^ 63)

theorem toInt_eq {s : List Char} (ne : s ≠ []) (h : digits s < 2 ^ 63) :
    toInt s = some (digits s) := by
  rw [toInt, if_neg ne, if_pos h]

theorem compareSegments_eq {tie : List Char → List Char → Ordering}
    (extra : List Char → List ℕ) (ht : ∀ x y, tie x y = List.compareLex compare (extra x) (extra y))
    {xs ys : List (List Char)} (hx : Readable xs) (hy : Readable ys) :
    compareSegments tie xs ys =
      some (compare (Key.mk (xs.map (segmentKey extra))) ⟨ys.map (segmentKey extra)⟩) := by
  induction xs generalizing ys with
  | nil => cases ys <;> rfl
  | cons x xs ih =>
    cases ys with
    | nil => rfl
    | cons y ys =>
      obtain ⟨⟨nx, sx⟩, hx⟩ := forall_mem_cons.mp hx
      obtain ⟨⟨ny, sy⟩, hy⟩ := forall_mem_cons.mp hy
      have head : segmentOrder tie x y =
          some (List.compareLex compare (segmentKey extra x) (segmentKey extra y)) := by
        unfold segmentOrder segmentKey
        cases dx : x.all Char.isDigit <;> cases dy : y.all Char.isDigit
        · simp [List.compareLex_cons_cons]
        · rfl
        · rfl
        · simp [toInt_eq nx (sx dx), toInt_eq ny (sy dy), nx, ny, List.compareLex_cons_cons, ht]
      rw [compareSegments, head, ih hx hy]
      change _ = some (List.compareLex _ (_ :: _) (_ :: _))
      rw [List.compareLex_cons_cons]
      cases List.compareLex compare (segmentKey extra x) (segmentKey extra y) <;> rfl

end Keys

section Identifiers

/-- What the parser accepts: no segment is empty. -/
def Identifier (t : List Char) : Prop := t = [] ∨ [] ∉ t.splitOn '.'

theorem identifierLoop_spec {pos segment : List Char} {res out : List (List Char)}
    {rest : List Char} (h : identifierLoop pos segment res = some (out, rest))
    (hs : '.' ∉ segment) (hr : ∀ s ∈ res, s ≠ [] ∧ '.' ∉ s) :
    out ≠ [] ∧ ∀ s ∈ out, s ≠ [] ∧ '.' ∉ s := by
  have last : ∀ {segment res}, '.' ∉ segment → segment ≠ [] → (∀ s ∈ res, s ≠ [] ∧ '.' ∉ s) →
      ∀ s ∈ res ++ [segment], s ≠ [] ∧ '.' ∉ s := by
    intro segment res hs ne hr s hs'
    rcases mem_append.mp hs' with hs' | hs'
    · exact hr s hs'
    · rw [mem_singleton.mp hs']
      exact ⟨ne, hs⟩
  fun_induction identifierLoop pos segment res with
  | case1 segment res c rest here ih =>
    refine ih h ?_ hr
    intro mem
    rcases mem_append.mp mem with mem | mem
    · exact hs mem
    · rw [← mem_singleton.mp mem] at here
      exact absurd here (by decide)
  | case2 => cases h
  | case3 rest segment res ne _ ih => exact ih h not_mem_nil (last hs ne hr)
  | case4 segment res c rest _ ne _ =>
    cases h
    exact ⟨by simp, last hs ne hr⟩
  | case5 => cases h
  | case6 segment res ne =>
    cases h
    exact ⟨by simp, last hs ne hr⟩

theorem identifier_spec {pos t rest : List Char} (h : identifier pos = some (t, rest)) :
    Identifier t := by
  obtain ⟨⟨res, rest'⟩, loop, same⟩ := Option.bind_eq_some_iff.mp h
  cases same
  obtain ⟨ne, segments⟩ := identifierLoop_spec loop not_mem_nil (by simp)
  refine .inr ?_
  rw [splitOn_intercalate '.' (fun s hs => (segments s hs).2) ne]
  exact fun mem => (segments [] mem).1 rfl

theorem optional_spec {mark : Char} {pos t rest : List Char}
    (h : optional mark pos = some (t, rest)) : Identifier t := by
  unfold optional at h
  split at h
  · split at h
    · exact identifier_spec h
    · cases h
      exact .inl rfl
  · cases h
    exact .inl rfl

theorem fromString_spec {str : List Char} {v : Version} (h : Version.fromString str = some v) :
    Identifier v.pre ∧ Identifier v.build := by
  obtain ⟨⟨res, pos⟩, parsed, whole⟩ := Option.bind_eq_some_iff.mp h
  obtain rfl : res = v := by
    dsimp only at whole
    split at whole <;> cases whole
    rfl
  obtain ⟨_, -, parsed⟩ := Option.bind_eq_some_iff.mp parsed
  obtain ⟨_, -, parsed⟩ := Option.bind_eq_some_iff.mp parsed
  obtain ⟨_, -, parsed⟩ := Option.bind_eq_some_iff.mp parsed
  obtain ⟨_, -, parsed⟩ := Option.bind_eq_some_iff.mp parsed
  obtain ⟨_, -, parsed⟩ := Option.bind_eq_some_iff.mp parsed
  obtain ⟨⟨pre, _⟩, hpre, parsed⟩ := Option.bind_eq_some_iff.mp parsed
  obtain ⟨⟨build, _⟩, hbuild, same⟩ := Option.bind_eq_some_iff.mp parsed
  cases same
  exact ⟨optional_spec hpre, optional_spec hbuild⟩

end Identifiers

section Fields

/-- The numeric segments that `String.toInt` can read. -/
def InRange (t : List Char) : Prop :=
  ∀ s ∈ t.splitOn '.', s.all Char.isDigit → digits s < 2 ^ 63

def StartsNumeric (t : List Char) : Prop := ∃ s ∈ (t.splitOn '.').head?, s.all Char.isDigit

theorem readable {t : List Char} (ne : t ≠ []) (h : Identifier t) (r : InRange t) :
    Readable (t.splitOn '.') := by
  intro s hs
  refine ⟨?_, r s hs⟩
  rintro rfl
  exact h.resolve_left ne hs

variable {x y : List Char}

theorem release_gt (h : y ≠ []) :
    compare (precedence []) (precedence y) = .gt ∧ compare (precedence y) (precedence []) = .lt := by
  cases hy : y.splitOn '.' with
  | nil => exact absurd hy (splitOn_ne_nil '.' y)
  | cons s rest =>
    rw [precedence, precedence, if_pos rfl, if_neg h, hy, map_cons]
    have first : ∃ l, segmentKey (fun _ => []) s = 0 :: l ∨ segmentKey (fun _ => []) s = 1 :: l := by
      unfold segmentKey
      split_ifs
      · exact ⟨_, .inl rfl⟩
      · exact ⟨_, .inl rfl⟩
      · exact ⟨_, .inr rfl⟩
    obtain ⟨l, first | first⟩ := first
    · rw [first]
      exact ⟨rfl, rfl⟩
    · rw [first]
      exact ⟨rfl, rfl⟩

theorem Prerelease.compare_eq (hx : Identifier x) (hy : Identifier y) (rx : InRange x)
    (ry : InRange y) :
    Prerelease.compare x y = some (Ord.compare (precedence x) (precedence y)) := by
  unfold Prerelease.compare
  by_cases ex : x = []
  · by_cases ey : y = []
    · rw [if_pos ⟨ex, ey⟩, ex, ey, ReflOrd.compare_self]
    · rw [if_neg (fun h => ey h.2), if_pos ex, ex, (release_gt ey).1]
  · rw [if_neg (fun h => ex h.1), if_neg ex]
    by_cases ey : y = []
    · rw [if_pos ey, ey, (release_gt ex).2]
    · rw [if_neg ey, precedence, precedence, if_neg ex, if_neg ey]
      exact compareSegments_eq (fun _ => []) (fun _ _ => rfl) (readable ex hx rx)
        (readable ey hy ry)

theorem BuildMetadata.compare_nil (h : y ≠ []) :
    (StartsNumeric y → BuildMetadata.compare [] y = none) ∧ (¬StartsNumeric y →
      BuildMetadata.compare [] y = some (Ord.compare (buildKey []) (buildKey y)) ∧
      BuildMetadata.compare y [] = some (Ord.compare (buildKey y) (buildKey []))) := by
  unfold BuildMetadata.compare buildKey StartsNumeric
  rw [if_neg (fun e => h e.2), if_neg (fun e => h e.1), splitOn_nil]
  cases hy : y.splitOn '.' with
  | nil => exact absurd hy (splitOn_ne_nil '.' y)
  | cons s rest =>
    constructor
    · rintro ⟨t, ht, dt⟩
      cases ht
      simp only [compareSegments, segmentOrder, dt, all_nil]
      rfl
    · intro plain
      have ds : s.all Char.isDigit = false := by
        rw [Bool.eq_false_iff]
        exact fun ds => plain ⟨s, rfl, ds⟩
      simp only [compareSegments, segmentOrder, map_cons, segmentKey, ds, all_nil]
      exact ⟨rfl, rfl⟩

theorem BuildMetadata.compare_eq (hx : Identifier x) (hy : Identifier y) (rx : InRange x)
    (ry : InRange y) (px : x = [] → y ≠ [] → ¬StartsNumeric y)
    (py : y = [] → x ≠ [] → ¬StartsNumeric x) :
    BuildMetadata.compare x y = some (Ord.compare (buildKey x) (buildKey y)) := by
  by_cases ex : x = []
  · by_cases ey : y = []
    · rw [BuildMetadata.compare, if_pos ⟨ex, ey⟩, ex, ey, ReflOrd.compare_self]
    · rw [ex]
      exact ((BuildMetadata.compare_nil ey).2 (px ex ey)).1
  · by_cases ey : y = []
    · rw [ey]
      exact ((BuildMetadata.compare_nil ex).2 (py ey ex)).2
    · rw [BuildMetadata.compare, if_neg (fun h => ex h.1)]
      refine compareSegments_eq (fun s => [s.length]) ?_ (readable ex hx rx) (readable ey hy ry)
      intro x y
      rw [List.compareLex_cons_cons, List.compareLex_nil_nil]
      cases Ord.compare x.length y.length <;> rfl

theorem digits_inj (x y : List Char) (len : x.length = y.length) (dx : x.all Char.isDigit)
    (dy : y.all Char.isDigit) (h : digits x = digits y) : x = y := by
  have digit : ∀ c : Char, c.isDigit → 48 ≤ c.toNat ∧ c.toNat ≤ 57 := by
    intro c hc
    simpa [Char.isDigit, UInt32.le_iff_toNat_le] using hc
  induction x using List.reverseRecOn generalizing y with
  | nil => exact (length_eq_zero_iff.mp len.symm).symm
  | append_singleton x c ih =>
    by_cases ne : y = []
    · rw [ne] at len
      simp at len
    · obtain ⟨y, d, rfl⟩ : ∃ y' d, y = y' ++ [d] :=
        ⟨y.dropLast, y.getLast ne, (dropLast_append_getLast ne).symm⟩
      simp only [all_append, all_cons, all_nil, Bool.and_true, Bool.and_eq_true] at dx dy
      simp only [digits, foldl_append, foldl_cons, foldl_nil] at h
      simp only [length_append, length_singleton] at len
      have := digit c dx.2
      have := digit d dy.2
      have zero : '0'.toNat = 48 := rfl
      rw [ih y (by omega) dx.1 dy.1 (by unfold digits; omega),
        Char.toNat_inj.mp (by omega : c.toNat = d.toNat)]

theorem buildKey_inj (h : buildKey x = buildKey y) : x = y := by
  have segments := Key.mk.inj h
  have inj : Function.Injective (segmentKey fun s => [s.length]) := by
    intro s t h
    unfold segmentKey at h
    by_cases ds : s.all Char.isDigit
    · by_cases dt : t.all Char.isDigit
      · rw [if_pos ds, if_pos dt] at h
        have h := (cons.inj h).2
        by_cases es : s = []
        · by_cases et : t = []
          · rw [es, et]
          · simp [es, et] at h
        · by_cases et : t = []
          · simp [es, et] at h
          · simp only [es, et, if_false, cons.injEq, and_true] at h
            exact digits_inj s t h.2 ds dt h.1
      · rw [if_pos ds, if_neg dt] at h
        cases h
    · by_cases dt : t.all Char.isDigit
      · rw [if_neg ds, if_pos dt] at h
        cases h
      · rw [if_neg ds, if_neg dt] at h
        exact map_injective_iff.mpr (fun _ _ => Char.toNat_inj.mp) (cons.inj h).2
  have same := map_injective_iff.mpr inj segments
  have joined := congrArg (List.intercalate ['.']) same
  rwa [intercalate_splitOn, intercalate_splitOn] at joined

end Fields

section Total

def SameNumbers (v w : Version) : Prop :=
  v.major = w.major ∧ v.minor = w.minor ∧ v.patch = w.patch

def numbersOrder (v w : Version) : Ordering :=
  ((Ord.compare v.major w.major).then (Ord.compare v.minor w.minor)).then
    (Ord.compare v.patch w.patch)

theorem numbersOrder_eq {v w : Version} : numbersOrder v w = .eq ↔ SameNumbers v w := by
  unfold numbersOrder SameNumbers
  rw [Ordering.then_eq_eq, Ordering.then_eq_eq, Std.compare_eq_iff_eq, Std.compare_eq_iff_eq,
    Std.compare_eq_iff_eq, and_assoc]

instance : TransCmp order := by
  unfold order
  infer_instance

theorem order_eq (v w : Version) : order v w =
    (numbersOrder v w).then ((Ord.compare (precedence v.pre) (precedence w.pre)).then
      (Ord.compare (buildKey v.build) (buildKey w.build))) := rfl

theorem then_of_ne {a b : Ordering} (h : a ≠ .eq) : a.then b = a := by
  cases a
  · rfl
  · exact absurd rfl h
  · rfl

/-- Comparison succeeds for all versions of `S` and is a total order of them, in which prereleases
are ordered by precedence. -/
structure TotalOn (S : Version → Prop) : Prop where
  runs : ∀ v w, S v → S w → ∃ o, Version.compare v w = some o
  equal : ∀ v w, S v → S w → (Version.compare v w = some .eq ↔ v = w)
  swap : ∀ v w o, S v → S w → Version.compare v w = some o → Version.compare w v = some o.swap
  trans : ∀ u v w, S u → S v → S w → Version.compare u v = some .lt →
    Version.compare v w = some .lt → Version.compare u w = some .lt
  precedence : ∀ v w, S v → S w →
    Prerelease.compare v.pre w.pre = some (Ord.compare (precedence v.pre) (precedence w.pre))

/-- Every numeric segment is below `2 ^ 63`; prereleases that differ by leading zeros only are of
versions with other build metadata; build metadata that starts with a number is not of a version
of which the like without build metadata is there. -/
structure Comparable (S : Version → Prop) : Prop where
  range : ∀ v, S v → InRange v.pre ∧ InRange v.build
  zeros : ∀ v w, S v → S w → SameNumbers v w → precedence v.pre = precedence w.pre →
    v.build = w.build → v.pre = w.pre
  plain : ∀ v w, S v → S w → SameNumbers v w → precedence v.pre = precedence w.pre →
    v.build = [] → w.build ≠ [] → ¬StartsNumeric w.build

theorem Version.compare_eq {v w : Version} (hv : Identifier v.pre ∧ Identifier v.build)
    (hw : Identifier w.pre ∧ Identifier w.build) (rv : InRange v.pre ∧ InRange v.build)
    (rw' : InRange w.pre ∧ InRange w.build)
    (plain : SameNumbers v w → precedence v.pre = precedence w.pre →
      (v.build = [] → w.build ≠ [] → ¬StartsNumeric w.build) ∧
      (w.build = [] → v.build ≠ [] → ¬StartsNumeric v.build)) :
    Version.compare v w = some (order v w) := by
  rw [order_eq]
  change (if numbersOrder v w ≠ .eq then some (numbersOrder v w) else _) = _
  by_cases numbers : numbersOrder v w = .eq
  · rw [if_neg (not_not.mpr numbers), numbers, Prerelease.compare_eq hv.1 hw.1 rv.1 rw'.1]
    by_cases pre : Ord.compare (precedence v.pre) (precedence w.pre) = .eq
    · obtain ⟨pv, pw⟩ := plain (numbersOrder_eq.mp numbers) (LawfulEqOrd.eq_of_compare pre)
      simp only [pre, Option.bind_eq_bind, Option.bind_some, ne_eq, not_true, if_false]
      exact BuildMetadata.compare_eq hv.2 hw.2 rv.2 rw'.2 pv pw
    · simp only [Option.bind_eq_bind, Option.bind_some, ne_eq, pre, not_false_eq_true, if_true]
      rw [then_of_ne pre]
      rfl
  · rw [if_pos numbers, then_of_ne numbers]

theorem compareSegments_self (tie : List Char → List Char → Ordering) (ht : ∀ x, tie x x = .eq)
    {xs : List (List Char)} (equal : compareSegments tie xs xs = some .eq) :
    ∀ x ∈ xs, x.all Char.isDigit → digits x < 2 ^ 63 := by
  induction xs with
  | nil => simp
  | cons x xs ih =>
    rw [compareSegments] at equal
    obtain ⟨o, here, later⟩ := Option.bind_eq_some_iff.mp equal
    rw [forall_mem_cons]
    unfold segmentOrder at here
    cases dx : x.all Char.isDigit
    · rw [dx] at here
      have : o = .eq := by
        rw [← Option.some.inj here]
        exact (ReflCmp.compare_self : List.compareLex compare (codes x) (codes x) = .eq)
      rw [if_pos this] at later
      exact ⟨nofun, ih later⟩
    · rw [dx] at here
      obtain ⟨n, hn, here⟩ := Option.bind_eq_some_iff.mp here
      obtain ⟨m, hm, here⟩ := Option.bind_eq_some_iff.mp here
      obtain rfl : n = m := Option.some.inj (hn.symm.trans hm)
      rw [ht, ReflOrd.compare_self] at here
      cases here
      rw [Ordering.then_eq, if_pos rfl] at later
      unfold toInt at hn
      split_ifs at hn with _ small
      exact ⟨fun _ => small, ih later⟩

theorem inRange_nil : InRange [] := by
  intro s hs _
  rw [splitOn_nil, mem_singleton] at hs
  rw [hs]
  decide

theorem inRange_of_self {v : Version} (h : Version.compare v v = some .eq) :
    InRange v.pre ∧ InRange v.build := by
  have numbers : numbersOrder v v = .eq := numbersOrder_eq.mpr ⟨rfl, rfl, rfl⟩
  change (if numbersOrder v v ≠ .eq then _ else _) = _ at h
  rw [if_neg (not_not.mpr numbers)] at h
  obtain ⟨o, pre, build⟩ := Option.bind_eq_some_iff.mp h
  split_ifs at build with he
  · exact absurd (Option.some.inj build) he
  · rw [not_not.mp he] at pre
    constructor
    · by_cases e : v.pre = []
      · rw [e]
        exact inRange_nil
      · rw [Prerelease.compare, if_neg (fun h => e h.1), if_neg e, if_neg e] at pre
        exact compareSegments_self _ (fun _ => rfl) pre
    · by_cases e : v.build = []
      · rw [e]
        exact inRange_nil
      · rw [BuildMetadata.compare, if_neg (fun h => e h.1)] at build
        exact compareSegments_self (fun x y => Ord.compare x.length y.length)
          (fun _ => ReflOrd.compare_self) build

/-- Among versions that the parser accepts, comparison is a total order where `Comparable` holds
and nowhere else. -/
theorem totalOn_iff (S : Version → Prop)
    (accepted : ∀ v, S v → ∃ str, Version.fromString str = some v) :
    TotalOn S ↔ Comparable S := by
  have parsed : ∀ v, S v → Identifier v.pre ∧ Identifier v.build := by
    intro v hv
    obtain ⟨str, h⟩ := accepted v hv
    exact fromString_spec h
  constructor
  · intro total
    have range : ∀ v, S v → InRange v.pre ∧ InRange v.build :=
      fun v hv => inRange_of_self ((total.equal v v hv hv).mpr rfl)
    refine ⟨range, ?_, ?_⟩
    · intro v w hv hw numbers pre build
      have runs := Version.compare_eq (parsed v hv) (parsed w hw) (range v hv) (range w hw)
        fun _ _ => ⟨fun e ne => absurd (build ▸ e) ne, fun e ne => absurd (build ▸ e) ne⟩
      rw [order_eq, numbersOrder_eq.mpr numbers, pre, build, ReflOrd.compare_self,
        ReflOrd.compare_self] at runs
      rw [(total.equal v w hv hw).mp runs]
    · intro v w hv hw numbers pre build ne starts
      obtain ⟨o, runs⟩ := total.runs v w hv hw
      change (if numbersOrder v w ≠ .eq then _ else _) = _ at runs
      rw [if_neg (not_not.mpr (numbersOrder_eq.mpr numbers)), total.precedence v w hv hw, pre,
        ReflOrd.compare_self, build] at runs
      simp [(BuildMetadata.compare_nil ne).1 starts] at runs
  · intro fine
    have runs : ∀ v w, S v → S w → Version.compare v w = some (order v w) := by
      intro v w hv hw
      refine Version.compare_eq (parsed v hv) (parsed w hw) (fine.range v hv) (fine.range w hw) ?_
      intro numbers pre
      exact ⟨fine.plain v w hv hw numbers pre,
        fine.plain w v hw hv ⟨numbers.1.symm, numbers.2.1.symm, numbers.2.2.symm⟩ pre.symm⟩
    refine ⟨fun v w hv hw => ⟨_, runs v w hv hw⟩, ?_, ?_, ?_, ?_⟩
    · intro v w hv hw
      rw [runs v w hv hw, Option.some.injEq, order_eq, Ordering.then_eq_eq, Ordering.then_eq_eq]
      constructor
      · rintro ⟨numbers, pre, build⟩
        have numbers := numbersOrder_eq.mp numbers
        have build := buildKey_inj (LawfulEqOrd.eq_of_compare build)
        have pre := fine.zeros v w hv hw numbers (LawfulEqOrd.eq_of_compare pre) build
        obtain ⟨major, minor, patch⟩ := numbers
        cases v
        cases w
        simp_all
      · rintro rfl
        exact ⟨numbersOrder_eq.mpr ⟨rfl, rfl, rfl⟩, ReflOrd.compare_self, ReflOrd.compare_self⟩
    · intro v w o hv hw h
      obtain rfl := Option.some.inj ((runs v w hv hw).symm.trans h)
      rw [runs w v hw hv]
      exact congrArg some (OrientedCmp.eq_swap : order w v = _)
    · intro u v w hu hv hw huv hvw
      rw [runs _ _ hu hv] at huv
      rw [runs _ _ hv hw] at hvw
      rw [runs _ _ hu hw]
      exact congrArg some
        (TransCmp.lt_trans (Option.some.inj huv) (Option.some.inj hvw) : order u w = .lt)
    · intro v w hv hw
      exact Prerelease.compare_eq (parsed v hv).1 (parsed w hw).1 (fine.range v hv).1
        (fine.range w hw).1

theorem fromString_release : Version.fromString ['1', '.', '0', '.', '0'] = some ⟨1, 0, 0, [], []⟩ ∧
    ∀ c, c = '1' ∨ c = 'a' → Version.fromString ['1', '.', '0', '.', '0', '+', c] =
      some ⟨1, 0, 0, [], [c]⟩ := by
  constructor
  · simp [Version.fromString, parseVersion, numericIdentifier, numericLoop, dot, optional,
      Int.bmod_def]
  · rintro c (rfl | rfl) <;> simp [Version.fromString, parseVersion, numericIdentifier,
      numericLoop, dot, optional, identifier, identifierLoop, Int.bmod_def]

/-- Releases with and without alphanumeric build metadata. -/
theorem totalOn_iff_releases : TotalOn fun v => v = ⟨1, 0, 0, [], []⟩ ∨ v = ⟨1, 0, 0, [], ['a']⟩ := by
  refine (totalOn_iff _ ?_).mpr ?_
  · rintro v (rfl | rfl)
    · exact ⟨_, fromString_release.1⟩
    · exact ⟨_, fromString_release.2 'a' (.inr rfl)⟩
  · have single : ∀ t : List Char, t ≠ [] ∧ '.' ∉ t ∨ t = [] → t.splitOn '.' = [t] := by
      rintro t (h | rfl)
      · exact splitOn_eq_singleton h.2
      · exact splitOn_nil '.'
    refine ⟨?_, ?_, ?_⟩
    · rintro v (rfl | rfl)
      · exact ⟨inRange_nil, inRange_nil⟩
      · exact ⟨inRange_nil, by simp [InRange, single]⟩
    · rintro v w (rfl | rfl) (rfl | rfl) <;> simp
    · rintro v w (rfl | rfl) (rfl | rfl) <;> simp [StartsNumeric, single]

theorem not_totalOn_build : ∃ v w, Version.fromString ['1', '.', '0', '.', '0'] = some v ∧
    Version.fromString ['1', '.', '0', '.', '0', '+', '1'] = some w ∧
    Version.compare v w = none := by
  refine ⟨_, _, fromString_release.1, fromString_release.2 '1' (.inl rfl), ?_⟩
  have starts : StartsNumeric ['1'] := by
    refine ⟨['1'], ?_, by decide⟩
    rw [splitOn_eq_singleton (by decide)]
    rfl
  have build := (BuildMetadata.compare_nil (y := ['1']) (by simp)).1 starts
  simp [Version.compare, Prerelease.compare, build]

end Total
end SkipPlatform.Semver
