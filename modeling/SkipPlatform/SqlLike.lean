import Mathlib.Data.List.Basic
import Mathlib.Order.Lattice
import Mathlib.Tactic.Common

set_option autoImplicit false

/-! LIKE: a pattern is cut at each `%` into pieces, and the pieces are looked for in the text from
left to right. -/
namespace SkipPlatform.SqlLike
open List

structure Pattern where
  firstIsPercent : Bool
  lastIsPercent : Bool
  subs : List (List Char)
deriving DecidableEq

/-- `sub` in the text at `i`, where `_` in `sub` is any character. -/
def isSub : List Char → List Char → ℕ → Bool
  | [], _, _ => true
  | c :: sub, text, i =>
    if h : text.length ≤ i then false
    else if c = '_' then isSub sub text (i + 1)
    else if c = text[i] then isSub sub text (i + 1)
    else false

/-- The loop over the text, with the pieces that are not found yet. -/
def findSubs (chars : List Char) : List (List Char) → List ℕ → List (List Char)
  | [], _ => []
  | subs, [] => subs
  | sub :: subs, i :: is =>
    if isSub sub chars i then findSubs chars subs is else findSubs chars (sub :: subs) is

def matching (text : List Char) (pat : Pattern) : Bool :=
  let chars := text.map Char.toLower
  let sub := pat.subs.getLastD []
  if !pat.firstIsPercent && pat.subs.isEmpty then chars.isEmpty
  else if !pat.firstIsPercent && !isSub (pat.subs.headD []) chars 0 then false
  else if !pat.lastIsPercent && pat.subs.isEmpty then chars.isEmpty
  else if !pat.lastIsPercent && !isSub sub chars (chars.length - sub.length) then false
  else (findSubs chars pat.subs (List.range chars.length)).isEmpty

def parseSubs : List Char → List Char → List (List Char)
  | [], text => if text.length ≠ 0 then [text] else []
  | c :: str, text =>
    if c = '%' then
      if text.length ≠ 0 then text :: parseSubs str [] else parseSubs str text
    else parseSubs str (text ++ [c.toLower])

def parsePattern (str : List Char) : Pattern where
  firstIsPercent := str.head? == some '%'
  lastIsPercent := str.getLast? == some '%'
  subs := parseSubs str []

/-- What a pattern stands for: `%` is any text, `_` any character, and every other character is
itself or the same letter in the other case. -/
def Like : List Char → List Char → Prop
  | [], text => text = []
  | c :: str, text =>
    if c = '%' then ∃ taken rest, text = taken ++ rest ∧ Like str rest
    else ∃ x rest, text = x :: rest ∧ (c = '_' ∨ c.toLower = x.toLower) ∧ Like str rest

/-- The pieces are found one after the other: from `i` on, each of them at least `gap` after the
start of the one before it, and `close` holds where the search ends. -/
def Placed (gap : List Char → ℕ) (close : ℕ → Prop) (chars : List Char) :
    List (List Char) → ℕ → Prop
  | [], i => close i
  | sub :: subs, i =>
    ∃ k, i ≤ k ∧ isSub sub chars k = true ∧ Placed gap close chars subs (k + gap sub)

/-- The pieces are in the text with their starts in order, the first of them at its start and the
last of them at its end where the pattern has no `%` there. -/
def InOrder (pat : Pattern) (text : List Char) : Prop :=
  let chars := text.map Char.toLower
  let sub := pat.subs.getLastD []
  (pat.subs = [] → pat.firstIsPercent = true ∧ pat.lastIsPercent = true ∨ chars = []) ∧
  (pat.firstIsPercent = false → isSub (pat.subs.headD []) chars 0 = true) ∧
  (pat.lastIsPercent = false → isSub sub chars (chars.length - sub.length) = true) ∧
  Placed (fun _ => 1) (fun _ => True) chars pat.subs 0

/-- The pieces are in the text without sharing a character, the first of them at its start and the
last of them at its end where the pattern has no `%` there. -/
def Apart (pat : Pattern) (text : List Char) : Prop :=
  let chars := text.map Char.toLower
  let close := fun i => pat.lastIsPercent = true ∨ i = chars.length
  match pat.firstIsPercent, pat.subs with
  | true, subs => Placed List.length close chars subs 0
  | false, [] => chars = []
  | false, sub :: subs =>
    isSub sub chars 0 = true ∧ Placed List.length close chars subs sub.length

theorem toLower_underscore (c : Char) : c.toLower = '_' ↔ c = '_' := by
  constructor
  · intro h
    unfold Char.toLower at h
    split at h
    · rename_i hu
      have hv : c.val + (Char.val 'a' - Char.val 'A') = Char.val '_' := congrArg Char.val h
      have hn : c.val.toNat + 32 = 95 := by
        have h1 : c.val.toNat ≤ 90 := UInt32.le_iff_toNat_le.mp hu.2
        have h2 := congrArg UInt32.toNat hv
        rw [UInt32.toNat_add] at h2
        have h3 : (Char.val 'a' - Char.val 'A').toNat = 32 := by decide
        have h4 : (Char.val '_').toNat = 95 := by decide
        omega
      have hl : 65 ≤ c.val.toNat := UInt32.le_iff_toNat_le.mp hu.1
      omega
    · exact h
  · intro h
    subst h
    rfl

theorem isSub_cons (c : Char) (sub text : List Char) (i : ℕ) :
    isSub (c :: sub) text i = true ↔
      ∃ x, text[i]? = some x ∧ (c = '_' ∨ c = x) ∧ isSub sub text (i + 1) = true := by
  rw [isSub]
  by_cases h : text.length ≤ i
  · simp [h]
  · have hl : i < text.length := Nat.lt_of_not_le h
    have hi : text[i]? = some text[i] := List.getElem?_eq_getElem hl
    rw [dif_neg h, hi]
    by_cases hu : c = '_'
    · simp [hu]
    · by_cases hx : c = text[i]
      · simp [hu, ← hx]
      · simp [hu, hx]

theorem isSub_snoc (acc : List Char) (c : Char) (text : List Char) (i : ℕ) :
    isSub (acc ++ [c]) text i = true ↔
      isSub acc text i = true ∧ ∃ x, text[i + acc.length]? = some x ∧ (c = '_' ∨ c = x) := by
  induction acc generalizing i with
  | nil =>
    rw [nil_append, isSub_cons]
    simp [isSub]
  | cons a acc ih =>
    rw [cons_append, isSub_cons, isSub_cons]
    have hl : i + 1 + acc.length = i + (a :: acc).length := by simp only [length_cons]; omega
    constructor
    · intro h
      obtain ⟨x, hx, ha, h⟩ := h
      have h2 := (ih (i + 1)).mp h
      rw [hl] at h2
      exact ⟨⟨x, hx, ha, h2.1⟩, h2.2⟩
    · intro h
      obtain ⟨⟨x, hx, ha, h1⟩, h2⟩ := h
      rw [← hl] at h2
      exact ⟨x, hx, ha, (ih (i + 1)).mpr ⟨h1, h2⟩⟩

theorem isSub_lt (sub text : List Char) (i : ℕ) (hs : sub ≠ []) (h : isSub sub text i = true) :
    i < text.length := by
  cases sub with
  | nil => exact absurd rfl hs
  | cons c sub =>
    have hx := (isSub_cons c sub text i).mp h
    obtain ⟨x, hx, -⟩ := hx
    exact (List.getElem?_eq_some_iff.mp hx).1

theorem isSub_le (sub text : List Char) (i : ℕ) (hi : i ≤ text.length)
    (h : isSub sub text i = true) : i + sub.length ≤ text.length := by
  induction sub generalizing i with
  | nil => exact hi
  | cons c sub ih =>
    have hl := isSub_lt (c :: sub) text i (cons_ne_nil _ _) h
    obtain ⟨x, -, -, h⟩ := (isSub_cons c sub text i).mp h
    have := ih (i + 1) hl h
    simp only [length_cons]
    omega

theorem placed_mono (gap : List Char → ℕ) (close : ℕ → Prop) (chars : List Char)
    (subs : List (List Char)) (i j : ℕ) (hc : close j → close i) (hij : i ≤ j)
    (h : Placed gap close chars subs j) : Placed gap close chars subs i := by
  cases subs with
  | nil => exact hc h
  | cons sub subs =>
    obtain ⟨k, hk, h⟩ := h
    exact ⟨k, hij.trans hk, h⟩

variable (chars : List Char)

theorem findSubs_placed (subs : List (List Char)) (m i : ℕ)
    (hs : ∀ sub ∈ subs, sub ≠ []) (hm : i + m = chars.length) :
    findSubs chars subs (List.range' i m) = [] ↔
      Placed (fun _ => 1) (fun _ => True) chars subs i := by
  induction m generalizing i subs with
  | zero =>
    cases subs with
    | nil => simp [findSubs, Placed]
    | cons sub subs =>
      have hn : ¬ Placed (fun _ => 1) (fun _ => True) chars (sub :: subs) i := by
        intro h
        obtain ⟨k, hk, h, -⟩ := h
        have := isSub_lt sub chars k (hs sub mem_cons_self) h
        omega
      simp [findSubs, hn]
  | succ m ih =>
    cases subs with
    | nil => simp [findSubs, Placed]
    | cons sub subs =>
      rw [range'_succ, findSubs]
      by_cases h : isSub sub chars i = true
      · rw [if_pos h, ih subs (i + 1) (fun s hm => hs s (mem_cons_of_mem _ hm)) (by omega)]
        constructor
        · intro hp
          exact ⟨i, le_refl i, h, hp⟩
        · intro hp
          obtain ⟨k, hk, -, hp⟩ := hp
          exact placed_mono _ _ _ _ _ _ (fun _ => trivial) (Nat.succ_le_succ hk) hp
      · rw [if_neg h, ih (sub :: subs) (i + 1) hs (by omega)]
        constructor
        · intro hp
          exact placed_mono _ _ _ _ _ _ (fun _ => trivial) (by omega) hp
        · intro hp
          obtain ⟨k, hk, hsub, hp⟩ := hp
          have hne : k ≠ i := fun he => h (he ▸ hsub)
          exact ⟨k, by omega, hsub, hp⟩

theorem parseSubs_ne_nil (str acc : List Char) : ∀ sub ∈ parseSubs str acc, sub ≠ [] := by
  induction str generalizing acc with
  | nil =>
    intro sub hm
    rw [parseSubs] at hm
    split at hm
    · rename_i hl
      rw [mem_singleton.mp hm]
      exact ne_nil_of_length_pos (by omega)
    · exact absurd hm not_mem_nil
  | cons c str ih =>
    intro sub hm
    rw [parseSubs] at hm
    split at hm
    · split at hm
      · rename_i hl
        cases hm with
        | head => exact ne_nil_of_length_pos (by omega)
        | tail _ hm => exact ih [] sub hm
      · exact ih acc sub hm
    · exact ih (acc ++ [c.toLower]) sub hm

theorem parseSubs_start (str acc : List Char) (ha : acc ≠ []) :
    ∃ sub subs, parseSubs str acc = sub :: subs := by
  induction str generalizing acc with
  | nil => exact ⟨acc, [], by simp [parseSubs, ha]⟩
  | cons c str ih =>
    rw [parseSubs]
    by_cases hc : c = '%'
    · rw [if_pos hc, if_pos (by simpa using ha)]
      exact ⟨acc, _, rfl⟩
    · rw [if_neg hc]
      exact ih (acc ++ [c.toLower]) (by simp)

/-- The pattern ends with `%`, or the text is used up. -/
def close (str text : List Char) (i : ℕ) : Prop :=
  (str.getLast? == some '%') = true ∨ i = text.length

theorem close_cons (c : Char) (str text : List Char) (hc : c ≠ '%') :
    close (c :: str) text = close str text := by
  funext i
  cases str with
  | nil => simp [close, hc]
  | cons d str => simp [close, List.getLast?_cons_cons]

theorem like_cons_drop (c : Char) (str text : List Char) (i : ℕ) (hc : c ≠ '%') :
    Like (c :: str) (text.drop i) ↔
      ∃ x, text[i]? = some x ∧ (c = '_' ∨ c.toLower = x.toLower) ∧
        Like str (text.drop (i + 1)) := by
  rw [Like, if_neg hc]
  constructor
  · intro h
    obtain ⟨x, rest, hd, hx, h⟩ := h
    have hi : text[i]? = some x := by
      rw [← List.head?_drop, hd]
      rfl
    have hr : text.drop (i + 1) = rest := by
      rw [← tail_drop, hd]
      rfl
    exact ⟨x, hi, hx, hr ▸ h⟩
  · intro h
    obtain ⟨x, hi, hx, h⟩ := h
    obtain ⟨hl, he⟩ := List.getElem?_eq_some_iff.mp hi
    exact ⟨x, text.drop (i + 1), by rw [drop_eq_getElem_cons hl, he], hx, h⟩

variable (str text : List Char)

theorem like_percent_drop (i : ℕ) :
    Like ('%' :: str) (text.drop i) ↔ ∃ k, i ≤ k ∧ Like str (text.drop k) := by
  rw [Like, if_pos rfl]
  constructor
  · intro h
    obtain ⟨taken, rest, hd, h⟩ := h
    refine ⟨i + taken.length, by omega, ?_⟩
    rw [← drop_drop, hd, drop_left]
    exact h
  · intro h
    obtain ⟨k, hk, h⟩ := h
    refine ⟨(text.drop i).take (k - i), text.drop k, ?_, h⟩
    have hd : (text.drop i).drop (k - i) = text.drop k := by
      rw [drop_drop]
      congr 1
      omega
    rw [← hd, take_append_drop]

theorem like_pieces :
    (∀ (acc : List Char) (i : ℕ), acc ≠ [] →
      ((isSub acc (text.map Char.toLower) i = true ∧ Like str (text.drop (i + acc.length))) ↔
        ∃ sub subs, parseSubs str acc = sub :: subs ∧
          isSub sub (text.map Char.toLower) i = true ∧
          Placed List.length (close str text) (text.map Char.toLower) subs (i + sub.length))) ∧
    (∀ i, i ≤ text.length →
      ((∃ k, i ≤ k ∧ Like str (text.drop k)) ↔
        Placed List.length (close ('%' :: str) text) (text.map Char.toLower)
          (parseSubs str []) i)) := by
  induction str with
  | nil =>
    constructor
    · intro acc i ha
      have hp : parseSubs [] acc = [acc] := by simp [parseSubs, ha]
      rw [hp]
      constructor
      · intro h
        refine ⟨acc, [], rfl, h.1, Or.inr ?_⟩
        have hl := isSub_lt acc _ i ha h.1
        have hle := isSub_le acc _ i (by omega) h.1
        have hd : text.length ≤ i + acc.length := drop_eq_nil_iff.mp h.2
        rw [length_map] at hle
        omega
      · intro h
        obtain ⟨sub, subs, he, hs, hp⟩ := h
        obtain ⟨h1, h2⟩ := List.cons.inj he
        subst h1
        subst h2
        refine ⟨hs, ?_⟩
        cases hp with
        | inl h => cases h
        | inr h => exact drop_eq_nil_iff.mpr (by omega)
    · intro i hi
      constructor
      · intro _
        exact Or.inl rfl
      · intro _
        exact ⟨text.length, hi, drop_eq_nil_iff.mpr (le_refl _)⟩
  | cons c str ih =>
    by_cases hc : c = '%'
    · subst hc
      have hw : ∀ acc : List Char, acc ≠ [] →
          parseSubs ('%' :: str) acc = acc :: parseSubs str [] := by
        intro acc ha
        simp [parseSubs, ha]
      have he : parseSubs ('%' :: str) [] = parseSubs str [] := by simp [parseSubs]
      have hlast : close ('%' :: '%' :: str) text = close ('%' :: str) text := by
        funext i
        simp [close, List.getLast?_cons_cons]
      constructor
      · intro acc i ha
        rw [hw acc ha, like_percent_drop]
        constructor
        · intro h
          have hl := isSub_lt acc _ i ha h.1
          have hle := isSub_le acc _ i (by omega) h.1
          rw [length_map] at hle
          exact ⟨acc, _, rfl, h.1, (ih.2 _ hle).mp h.2⟩
        · intro h
          obtain ⟨sub, subs, he, hs, hp⟩ := h
          obtain ⟨h1, h2⟩ := List.cons.inj he
          subst h1
          subst h2
          have hl := isSub_lt acc _ i ha hs
          have hle := isSub_le acc _ i (by omega) hs
          rw [length_map] at hle
          exact ⟨hs, (ih.2 _ hle).mpr hp⟩
      · intro i hi
        rw [he, hlast, ← ih.2 i hi]
        constructor
        · intro h
          obtain ⟨k, hk, h⟩ := h
          obtain ⟨m, hm, h⟩ := (like_percent_drop str text k).mp h
          exact ⟨m, by omega, h⟩
        · intro h
          obtain ⟨k, hk, h⟩ := h
          exact ⟨i, le_refl i, (like_percent_drop str text i).mpr ⟨k, hk, h⟩⟩
    · have hw : ∀ acc : List Char,
          parseSubs (c :: str) acc = parseSubs str (acc ++ [c.toLower]) := by
        intro acc
        simp [parseSubs, hc]
      have hx : ∀ k : ℕ, (∃ x : Char, text[k]? = some x ∧ (c = '_' ∨ c.toLower = x.toLower)) ↔
          ∃ x, (text.map Char.toLower)[k]? = some x ∧ (c.toLower = '_' ∨ c.toLower = x) := by
        intro k
        rw [List.getElem?_map, toLower_underscore]
        cases text[k]? with
        | none => simp
        | some x => simp
      have hstep : ∀ (acc : List Char) (i : ℕ),
          (isSub acc (text.map Char.toLower) i = true ∧
            Like (c :: str) (text.drop (i + acc.length))) ↔
          (isSub (acc ++ [c.toLower]) (text.map Char.toLower) i = true ∧
            Like str (text.drop (i + (acc ++ [c.toLower]).length))) := by
        intro acc i
        have hl : i + (acc ++ [c.toLower]).length = i + acc.length + 1 := by
          simp only [length_append, length_singleton]
          omega
        rw [like_cons_drop c str text _ hc, isSub_snoc, ← hx, hl]
        constructor
        · intro h
          obtain ⟨hs, x, hk, hcx, h⟩ := h
          exact ⟨⟨hs, x, hk, hcx⟩, h⟩
        · intro h
          obtain ⟨⟨hs, x, hk, hcx⟩, h⟩ := h
          exact ⟨hs, x, hk, hcx, h⟩
      have hne : ∀ acc : List Char, acc ++ [c.toLower] ≠ [] := fun acc => by simp
      constructor
      · intro acc i ha
        rw [hw, hstep, close_cons c str text hc]
        exact ih.1 _ i (hne acc)
      · intro i hi
        have hlast : close ('%' :: c :: str) text = close str text := by
          rw [← close_cons c str text hc]
          funext i
          simp [close, List.getLast?_cons_cons]
        rw [hw, hlast]
        have hk : ∀ k, Like (c :: str) (text.drop k) ↔
            ∃ sub subs, parseSubs str [c.toLower] = sub :: subs ∧
              isSub sub (text.map Char.toLower) k = true ∧
              Placed List.length (close str text) (text.map Char.toLower) subs
                (k + sub.length) := by
          intro k
          rw [← ih.1 [c.toLower] k (hne [])]
          have hs := hstep [] k
          simp only [isSub, true_and, length_nil, Nat.add_zero, nil_append] at hs
          exact hs
        constructor
        · intro h
          obtain ⟨k, hik, h⟩ := h
          obtain ⟨sub, subs, he, hs, hp⟩ := (hk k).mp h
          rw [nil_append, he]
          exact ⟨k, hik, hs, hp⟩
        · intro h
          rw [nil_append] at h
          cases he : parseSubs str [c.toLower] with
          | nil =>
            obtain ⟨sub, subs, hs⟩ := parseSubs_start str [c.toLower] (hne [])
            rw [he] at hs
            cases hs
          | cons sub subs =>
            rw [he] at h
            obtain ⟨k, hik, hs, hp⟩ := h
            exact ⟨k, hik, (hk k).mpr ⟨sub, subs, he, hs, hp⟩⟩
theorem matching_iff (text : List Char) (pat : Pattern) (hn : ∀ sub ∈ pat.subs, sub ≠ []) :
    matching text pat = true ↔ InOrder pat text := by
  cases pat with
  | mk first last subs =>
    have hf := findSubs_placed (text.map Char.toLower) subs (text.map Char.toLower).length
      0 hn (Nat.zero_add _)
    rw [← range_eq_range'] at hf
    unfold matching InOrder
    dsimp only
    rw [← hf]
    cases subs with
    | nil => cases first <;> cases last <;> simp [findSubs, isSub]
    | cons sub subs => cases first <;> cases last <;> simp

theorem placed_last (sub : List Char) (subs : List (List Char)) (i : ℕ)
    (h : Placed List.length (fun j => j = chars.length) chars (sub :: subs) i) :
    isSub ((sub :: subs).getLastD []) chars
      (chars.length - ((sub :: subs).getLastD []).length) = true := by
  induction subs generalizing sub i with
  | nil =>
    obtain ⟨k, hk, hs, he⟩ := h
    have hl : chars.length - sub.length = k := by
      have he : k + sub.length = chars.length := he
      omega
    change isSub sub chars (chars.length - sub.length) = true
    rw [hl]
    exact hs
  | cons next subs ih =>
    obtain ⟨k, hk, hs, hp⟩ := h
    exact ih next (k + sub.length) hp

theorem placed_gap (close : ℕ → Prop) (subs : List (List Char)) (i : ℕ)
    (hs : ∀ sub ∈ subs, sub ≠ []) (h : Placed List.length close chars subs i) :
    Placed (fun _ => 1) (fun _ => True) chars subs i := by
  induction subs generalizing i with
  | nil => trivial
  | cons sub subs ih =>
    obtain ⟨k, hk, hsub, hp⟩ := h
    have hp := ih _ (fun s hm => hs s (mem_cons_of_mem _ hm)) hp
    have hl : 0 < sub.length := length_pos_iff.mpr (hs sub mem_cons_self)
    exact ⟨k, hk, hsub, placed_mono _ _ _ _ _ _ (fun _ => trivial) (Nat.add_le_add_left hl k) hp⟩

theorem apart_inOrder (text : List Char) (pat : Pattern) (hn : ∀ sub ∈ pat.subs, sub ≠ [])
    (h : Apart pat text) : InOrder pat text := by
  cases pat with
  | mk first last subs =>
    have hend : ∀ i, Placed List.length (fun j => last = true ∨ j = (text.map Char.toLower).length)
        (text.map Char.toLower) subs i → subs ≠ [] → last = false →
        isSub (subs.getLastD []) (text.map Char.toLower)
          ((text.map Char.toLower).length - (subs.getLastD []).length) = true := by
      intro i hp hs hl
      subst hl
      have hc : (fun j => false = true ∨ j = (text.map Char.toLower).length) =
          fun j => j = (text.map Char.toLower).length := by
        funext j
        simp
      rw [hc] at hp
      cases subs with
      | nil => exact absurd rfl hs
      | cons sub subs => exact placed_last _ sub subs i hp
    cases first with
    | true =>
      have hp : Placed List.length (fun j => last = true ∨ j = (text.map Char.toLower).length)
          (text.map Char.toLower) subs 0 := h
      refine ⟨?_, fun hf => Bool.noConfusion hf, ?_, placed_gap _ _ subs 0 hn hp⟩
      · intro hs
        change subs = [] at hs
        subst hs
        cases hp with
        | inl hl => exact Or.inl ⟨rfl, hl⟩
        | inr hl => exact Or.inr (length_eq_zero_iff.mp hl.symm)
      · intro hl
        by_cases hs : subs = []
        · subst hs
          rfl
        · exact hend 0 hp hs hl
    | false =>
      cases subs with
      | nil => exact ⟨fun _ => Or.inr h, fun _ => rfl, fun _ => rfl, trivial⟩
      | cons sub subs =>
        have hp : Placed List.length (fun j => last = true ∨ j = (text.map Char.toLower).length)
            (text.map Char.toLower) (sub :: subs) 0 :=
          ⟨0, le_refl 0, h.1, by rw [Nat.zero_add]; exact h.2⟩
        exact ⟨fun hs => absurd hs (cons_ne_nil _ _), fun _ => h.1,
          hend 0 hp (cons_ne_nil _ _), placed_gap _ _ _ 0 hn hp⟩

theorem like_iff : Like str text ↔ Apart (parsePattern str) text := by
  cases str with
  | nil =>
    change text = [] ↔ text.map Char.toLower = []
    rw [map_eq_nil_iff]
  | cons c str =>
    have hlen : (text.map Char.toLower).length = text.length := length_map _
    by_cases hc : c = '%'
    · subst hc
      have h1 := like_percent_drop str text 0
      have h2 := (like_pieces str text).2 0 (Nat.zero_le _)
      have hs : parseSubs ('%' :: str) [] = parseSubs str [] := by simp [parseSubs]
      rw [drop_zero] at h1
      rw [h1, h2]
      unfold Apart
      simp only [parsePattern, List.head?_cons, hs, hlen]
      rfl
    · have h1 := (like_pieces str text).1 [c.toLower] 0 (cons_ne_nil _ _)
      have h2 := like_cons_drop c str text 0 hc
      have hs : parseSubs (c :: str) [] = parseSubs str [c.toLower] := by simp [parseSubs, hc]
      have h3 : Like (c :: str) text ↔ isSub [c.toLower] (text.map Char.toLower) 0 = true ∧
          Like str (text.drop (0 + [c.toLower].length)) := by
        rw [drop_zero] at h2
        rw [h2, isSub_cons, List.getElem?_map, toLower_underscore]
        cases text[0]? with
        | none => simp
        | some x => simp [isSub]
      obtain ⟨sub, subs, he⟩ := parseSubs_start str [c.toLower] (cons_ne_nil _ _)
      have hf : ((c :: str).head? == some '%') = false := by simpa using hc
      have hcl := close_cons c str text hc
      unfold close at hcl h1
      rw [h3, h1]
      unfold Apart
      simp only [parsePattern, hs, he, hlen]
      rw [hf, hcl]
      constructor
      · intro h
        obtain ⟨first, rest, hr, h⟩ := h
        obtain ⟨e1, e2⟩ := List.cons.inj hr
        subst e1
        subst e2
        rw [Nat.zero_add] at h
        exact h
      · intro h
        refine ⟨sub, subs, rfl, ?_⟩
        rw [Nat.zero_add]
        exact h

/-- The code and what a pattern stands for agree if and only if pieces that are found with their
starts in order are also found without sharing a character. -/
theorem matching_exact_iff (text str : List Char) :
    (matching text (parsePattern str) = true ↔ Like str text) ↔
      (InOrder (parsePattern str) text → Apart (parsePattern str) text) := by
  have hn := parseSubs_ne_nil str []
  rw [matching_iff text _ hn, like_iff]
  constructor
  · intro h
    exact h.mp
  · intro h
    exact ⟨h, apart_inOrder text _ hn⟩

theorem matching_overlap :
    ¬ ∀ text str : List Char,
      matching text (parsePattern str) = true ↔ Like str text := by
  intro h
  have hm : matching ['a', 'b', 'a'] (parsePattern ['%', 'a', 'b', '%', 'b', 'a', '%']) = true := by
    decide
  have hp : Placed List.length (fun _ => true = true ∨ _ = 3) ['a', 'b', 'a']
      [['a', 'b'], ['b', 'a']] 0 := (like_iff _ _).mp ((h _ _).mp hm)
  obtain ⟨k, -, -, m, hkm, hs, -⟩ := hp
  have hl := isSub_lt _ _ m (cons_ne_nil _ _) hs
  have hle := isSub_le _ _ m (Nat.le_of_lt hl) hs
  change m + 2 ≤ 3 at hle
  change k + 2 ≤ m at hkm
  omega

end SkipPlatform.SqlLike
