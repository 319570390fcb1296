import Mathlib.Data.List.Basic
import Mathlib.Tactic.Common

set_option autoImplicit false

/-! Arrays of slots, some without a value: reads and writes that may fail, and what they keep. -/
namespace RawSlots
variable {T : Type}

/-- The values `l` stand in the slots from `start` on. -/
def Holds (a : List (Option T)) : ℕ → List T → Prop
  | _, [] => True
  | start, x :: l => a[start]? = some (some x) ∧ Holds a (start + 1) l

/-- Nothing has changed outside of the slots from `start` to `stop`. -/
structure Frame (a a' : List (Option T)) (start stop : ℕ) : Prop where
  length : a'.length = a.length
  before : ∀ i, i < start → a'[i]? = a[i]?
  after : ∀ i, stop ≤ i → a'[i]? = a[i]?

def readSlot (a : List (Option T)) (i : ℕ) : Option T := a[i]?.join

def writeSlot (a : List (Option T)) (i : ℕ) (x : T) : Option (List (Option T)) :=
  if i < a.length then some (a.set i (some x)) else none

variable {a : List (Option T)} {start : ℕ} {l : List T}

theorem holds_iff :
    Holds a start l ↔ ∀ i x, l[i]? = some x → a[start + i]? = some (some x) := by
  induction l generalizing start with
  | nil => simp [Holds]
  | cons y l ih =>
    rw [Holds, ih]
    constructor
    · rintro ⟨first, rest⟩ i x found
      cases i with
      | zero =>
        cases found
        exact first
      | succ i =>
        have there := rest i x found
        rwa [Nat.add_right_comm] at there
    · intro all
      refine ⟨all 0 y rfl, fun i x found => ?_⟩
      have there := all (i + 1) x found
      rwa [← Nat.add_assoc, Nat.add_right_comm] at there

theorem holds_append {l l' : List T} :
    Holds a start (l ++ l') ↔ Holds a start l ∧ Holds a (start + l.length) l' := by
  induction l generalizing start with
  | nil => simp [Holds]
  | cons x l ih =>
    have shift : start + 1 + l.length = start + (x :: l).length := by
      rw [List.length_cons]
      omega
    rw [List.cons_append, Holds, Holds, ih, shift, and_assoc]

theorem Holds.congr {a a' : List (Option T)} (h : Holds a start l)
    (same : ∀ i, start ≤ i → i < start + l.length → a'[i]? = a[i]?) : Holds a' start l := by
  rw [holds_iff] at h ⊢
  intro i x found
  have bound := (List.getElem?_eq_some_iff.mp found).1
  rw [same (start + i) (Nat.le_add_right _ _) (by omega)]
  exact h i x found

theorem Holds.readSlot_eq {x : T}
    (h : Holds a start (x :: l)) : readSlot a start = some x := by
  rw [readSlot, h.1]
  rfl

theorem Holds.readSlot_getElem (h : Holds a start l)
    {i : ℕ} {x : T} (found : l[i]? = some x) : readSlot a (start + i) = some x := by
  rw [readSlot, holds_iff.mp h i x found]
  rfl

theorem Holds.le_length (h : Holds a start l)
    (some : l ≠ []) : start + l.length ≤ a.length := by
  induction l generalizing start with
  | nil => exact absurd rfl some
  | cons x l ih =>
    cases l with
    | nil => exact (List.getElem?_eq_some_iff.mp h.1).1
    | cons y l =>
      have bound := ih h.2 (List.cons_ne_nil _ _)
      rw [List.length_cons]
      omega

theorem Frame.refl (a : List (Option T)) (start stop : ℕ) : Frame a a start stop :=
  ⟨rfl, fun _ _ => rfl, fun _ _ => rfl⟩

theorem Frame.trans {a a' a'' : List (Option T)} {start stop : ℕ} (h : Frame a a' start stop)
    (h' : Frame a' a'' start stop) : Frame a a'' start stop :=
  ⟨h'.length.trans h.length, fun i lt => (h'.before i lt).trans (h.before i lt),
    fun i le => (h'.after i le).trans (h.after i le)⟩

theorem Frame.mono {a a' : List (Option T)} {start stop start' stop' : ℕ}
    (h : Frame a a' start stop) (le : start' ≤ start) (le' : stop ≤ stop') :
    Frame a a' start' stop' :=
  ⟨h.length, fun i lt => h.before i (Nat.lt_of_lt_of_le lt le),
    fun i ge => h.after i (Nat.le_trans le' ge)⟩

theorem Holds.frame {a a' : List (Option T)} {start stop at_ : ℕ}
    (h : Holds a at_ l) (f : Frame a a' start stop)
    (apart : at_ + l.length ≤ start ∨ stop ≤ at_) : Holds a' at_ l := by
  refine h.congr fun i ge lt => ?_
  cases apart with
  | inl before => exact f.before i (Nat.lt_of_lt_of_le lt before)
  | inr after => exact f.after i (Nat.le_trans after ge)

theorem writeSlot_eq {i : ℕ} (x : T) (lt : i < a.length) :
    ∃ a', writeSlot a i x = some a' ∧ a'[i]? = some (some x) ∧ Frame a a' i (i + 1) := by
  refine ⟨a.set i (some x), if_pos lt, List.getElem?_set_self lt, ?_⟩
  refine ⟨List.length_set, fun j before => ?_, fun j after => ?_⟩
  · exact List.getElem?_set_ne (Nat.ne_of_gt before)
  · exact List.getElem?_set_ne (Nat.ne_of_lt after)

theorem Holds.concat (h : Holds a start l) (x : T)
    (lt : start + l.length < a.length) :
    ∃ a', writeSlot a (start + l.length) x = some a' ∧ a'.length = a.length ∧
      Holds a' start (l ++ [x]) := by
  obtain ⟨a', wrote, own, frame⟩ := writeSlot_eq x lt
  refine ⟨a', wrote, frame.length, holds_append.mpr ⟨?_, own, trivial⟩⟩
  exact h.frame frame (Or.inl (Nat.le_refl _))

theorem Holds.set {a : List (Option T)} {start : ℕ} {l : List T} (h : Holds a start l) {i : ℕ}
    (lt : i < l.length) (x : T) :
    ∃ a', writeSlot a (start + i) x = some a' ∧ a'.length = a.length ∧
      Holds a' start (l.set i x) := by
  have bound := h.le_length (List.ne_nil_of_length_pos (Nat.zero_lt_of_lt lt))
  obtain ⟨a', wrote, own, frame⟩ := writeSlot_eq (a := a) (i := start + i) x (by omega)
  refine ⟨a', wrote, frame.length, holds_iff.mpr fun j y found => ?_⟩
  by_cases here : i = j
  · subst here
    rw [List.getElem?_set_self lt] at found
    cases found
    exact own
  · rw [List.getElem?_set_ne here] at found
    have there := holds_iff.mp h j y found
    rcases Nat.lt_or_gt_of_ne here with after | before
    · rw [frame.after _ (by omega)]
      exact there
    · rw [frame.before _ (by omega)]
      exact there

end RawSlots
