import SkipPlatform.RawSlots
import SkipPlatform.StableMerge

set_option autoImplicit false

/-! The merge sort of vectors, which swaps its two buffers from level to level. -/
namespace SkipPlatform
open List RawSlots StableMerge

/-- The slots from `sz` on have no value. The comparison does not change the vector, so that the
generation is left out. -/
structure MutableVector (T : Type) where
  inner : List (Option T)
  sz : ℕ

namespace MutableVector
variable {T K : Type}

structure Items (v : MutableVector T) (l : List T) : Prop where
  size : l.length = v.sz
  holds : Holds v.inner 0 l

def unsafeMake (size : ℕ) : List (Option T) := .replicate size none

def copySlot (src : List (Option T)) (srcIndex destIndex : ℕ) (dest : List (Option T)) :
    Option (List (Option T)) :=
  (readSlot src srcIndex).bind (writeSlot dest destIndex)

def unsafeMoveSlice (src : List (Option T)) (srcStart srcEnd : ℕ) (dest : List (Option T))
    (destStart : ℕ) : Option (List (Option T)) :=
  if srcStart < destStart then
    let srcBase := srcEnd - 1
    let destBase := srcBase + (destStart - srcStart)
    (List.range (srcEnd - srcStart)).foldlM
      (fun dest offset => copySlot src (srcBase - offset) (destBase - offset) dest) dest
  else
    (List.range (srcEnd - srcStart)).foldlM
      (fun dest offset => copySlot src (srcStart + offset) (destStart + offset) dest) dest

section Sorting
variable (selector : T → K) (compare : K → K → Ordering)

def sortMergeLoop (src : List (Option T)) (middle stop left right index : ℕ)
    (dest : List (Option T)) : Option (List (Option T)) :=
  if left ≥ middle then unsafeMoveSlice src right stop dest index
  else if right ≥ stop then unsafeMoveSlice src left middle dest index
  else
    match readSlot src left, readSlot src right with
    | some leftValue, some rightValue =>
      if (compare (selector leftValue) (selector rightValue)).isLE then
        match writeSlot dest index leftValue with
        | none => none
        | some dest =>
          if index + 1 < stop then
            sortMergeLoop src middle stop (left + 1) right (index + 1) dest
          else some dest
      else
        match writeSlot dest index rightValue with
        | none => none
        | some dest =>
          if index + 1 < stop then
            sortMergeLoop src middle stop left (right + 1) (index + 1) dest
          else some dest
    | _, _ => none
termination_by (middle - left) + (stop - right)

def sortMerge (src : List (Option T)) (start middle stop : ℕ) (dest : List (Option T)) :
    Option (List (Option T)) :=
  sortMergeLoop selector compare src middle stop start middle start dest

/-- Sorts the slots from `start` to `stop` of `src`, which `dest` has too, into `dest`; gives both
arrays. -/
def sortSplit (src : List (Option T)) (start stop : ℕ) (dest : List (Option T)) :
    Option (List (Option T) × List (Option T)) :=
  if stop - start > 1 then
    let middle := (stop + start) / 2
    match sortSplit dest start middle src with
    | none => none
    | some (dest, src) =>
      match sortSplit dest middle stop src with
      | none => none
      | some (dest, src) =>
        (sortMerge selector compare src start middle stop dest).map fun dest => (src, dest)
  else some (src, dest)
termination_by stop - start

def sortBy (v : MutableVector T) : Option (MutableVector T) :=
  match unsafeMoveSlice v.inner 0 v.sz (unsafeMake v.sz) 0 with
  | none => none
  | some src =>
    (sortSplit selector compare src 0 v.sz v.inner).map fun arrays =>
      { v with inner := arrays.2 }

def sortedBy (v : MutableVector T) : Option (MutableVector T) :=
  match unsafeMoveSlice v.inner 0 v.sz (unsafeMake v.sz) 0 with
  | none => none
  | some src =>
    (sortSplit selector compare src 0 v.sz src).map fun arrays => ⟨arrays.2, v.sz⟩

def lte (x y : T) : Bool := (compare (selector x) (selector y)).isLE

end Sorting

theorem foldlM_congr {α β : Type} {f g : β → α → Option β} {l : List α}
    (same : ∀ b, ∀ a ∈ l, f b a = g b a) (b : β) : l.foldlM f b = l.foldlM g b := by
  induction l generalizing b with
  | nil => rfl
  | cons a l ih =>
    rw [foldlM_cons, foldlM_cons, same b a mem_cons_self]
    exact congrArg (Option.bind (g b a))
      (funext fun b => ih (fun b a mem => same b a (mem_cons_of_mem _ mem)) b)

theorem copySlot_eq {src dest : List (Option T)} {srcIndex destIndex : ℕ} {x : T}
    (value : src[srcIndex]? = some (some x)) (lt : destIndex < dest.length) :
    ∃ dest', copySlot src srcIndex destIndex dest = some dest' ∧
      dest'[destIndex]? = some (some x) ∧ Frame dest dest' destIndex (destIndex + 1) := by
  have value' : readSlot src srcIndex = some x := by
    rw [readSlot, value]
    rfl
  rw [copySlot, value']
  exact writeSlot_eq x lt

theorem copySlots_eq {src : List (Option T)} {srcStart destStart : ℕ} {l : List T}
    (values : Holds src srcStart l) (offsets : List ℕ) (bound : ∀ p ∈ offsets, p < l.length)
    {dest : List (Option T)} (room : destStart + l.length ≤ dest.length) :
    ∃ dest', offsets.foldlM (fun dest p => copySlot src (srcStart + p) (destStart + p) dest) dest =
        some dest' ∧ dest'.length = dest.length ∧
      (∀ i, (∀ p ∈ offsets, i ≠ destStart + p) → dest'[i]? = dest[i]?) ∧
      ∀ p ∈ offsets, ∀ x, l[p]? = some x → dest'[destStart + p]? = some (some x) := by
  induction offsets generalizing dest with
  | nil => exact ⟨dest, rfl, rfl, fun _ _ => rfl, fun p mem => absurd mem not_mem_nil⟩
  | cons p offsets ih =>
    have lt := bound p mem_cons_self
    have value := holds_iff.mp values p l[p] (List.getElem?_eq_getElem lt)
    have free : destStart + p < dest.length := by omega
    obtain ⟨dest₁, copied, own, frame⟩ := copySlot_eq value free
    have room₁ : destStart + l.length ≤ dest₁.length := by
      rw [frame.length]
      exact room
    obtain ⟨dest', rest, length, others, there⟩ :=
      ih (fun q mem => bound q (mem_cons_of_mem _ mem)) room₁
    refine ⟨dest', ?_, length.trans frame.length, fun i apart => ?_, fun q mem x found => ?_⟩
    · rw [foldlM_cons, copied]
      exact rest
    · rw [others i fun q mem => apart q (mem_cons_of_mem _ mem)]
      have here := apart p mem_cons_self
      rcases Nat.lt_or_gt_of_ne here with before | after
      · exact frame.before i before
      · exact frame.after i after
    · by_cases later : q ∈ offsets
      · exact there q later x found
      · rcases mem_cons.mp mem with rfl | mem
        · rw [others]
          · rw [List.getElem?_eq_getElem lt] at found
            cases found
            exact own
          · intro r there same
            have equal := Nat.add_left_cancel same
            exact later (equal ▸ there)
        · exact absurd mem later

theorem unsafeMoveSlice_eq {src dest : List (Option T)} {srcStart srcEnd destStart : ℕ} {l : List T}
    (values : Holds src srcStart l) (length : srcEnd - srcStart = l.length)
    (room : destStart + l.length ≤ dest.length) :
    ∃ dest', unsafeMoveSlice src srcStart srcEnd dest destStart = some dest' ∧
      Holds dest' destStart l ∧ Frame dest dest' destStart (destStart + l.length) := by
  have order : ∃ offsets : List ℕ, (∀ p, p ∈ offsets ↔ p < l.length) ∧
      unsafeMoveSlice src srcStart srcEnd dest destStart = offsets.foldlM
        (fun dest p => copySlot src (srcStart + p) (destStart + p) dest) dest := by
    unfold unsafeMoveSlice
    rw [length]
    split
    · refine ⟨(List.range l.length).map fun offset => l.length - 1 - offset, fun p => ?_, ?_⟩
      · rw [mem_map]
        constructor
        · rintro ⟨offset, mem, rfl⟩
          have lt := mem_range.mp mem
          omega
        · intro lt
          exact ⟨l.length - 1 - p, mem_range.mpr (by omega), by omega⟩
      · rw [foldlM_map]
        refine foldlM_congr (fun dest offset mem => ?_) dest
        have lt := mem_range.mp mem
        have from_ : srcEnd - 1 - offset = srcStart + (l.length - 1 - offset) := by omega
        have to_ : srcEnd - 1 + (destStart - srcStart) - offset =
            destStart + (l.length - 1 - offset) := by omega
        rw [from_, to_]
    · exact ⟨List.range l.length, fun p => mem_range, rfl⟩
  obtain ⟨offsets, all, same⟩ := order
  obtain ⟨dest', copied, size, others, there⟩ :=
    copySlots_eq values offsets (fun p mem => (all p).mp mem) room
  refine ⟨dest', same.trans copied, holds_iff.mpr fun i x found => ?_, size, ?_, ?_⟩
  · exact there i ((all i).mpr (List.getElem?_eq_some_iff.mp found).1) x found
  · intro i before
    exact others i fun p _ => by omega
  · intro i after
    exact others i fun p mem => by
      have lt := (all p).mp mem
      omega

section Sorting
variable (selector : T → K) (compare : K → K → Ordering)

theorem sortMergeLoop_eq {src : List (Option T)} {middle stop left right index : ℕ} {xs ys : List T}
    (hx : Holds src left xs) (hy : Holds src right ys) (lengthx : middle - left = xs.length)
    (lengthy : stop - right = ys.length) (at_ : index + (xs.length + ys.length) = stop)
    {dest : List (Option T)} (room : stop ≤ dest.length) :
    ∃ dest', sortMergeLoop selector compare src middle stop left right index dest = some dest' ∧
      Holds dest' index (List.merge xs ys (lte selector compare)) ∧ Frame dest dest' index stop := by
  induction xs generalizing left right index ys dest with
  | nil =>
    have done : left ≥ middle := Nat.le_of_sub_eq_zero lengthx
    rw [length_nil, Nat.zero_add] at at_
    obtain ⟨dest', moved, holds, frame⟩ := unsafeMoveSlice_eq hy lengthy (at_ ▸ room)
    rw [sortMergeLoop, if_pos done, nil_merge]
    exact ⟨dest', moved, holds, at_ ▸ frame⟩
  | cons x xs ihx =>
    have more : ¬ left ≥ middle := by
      rw [length_cons] at lengthx
      omega
    induction ys generalizing right index dest with
    | nil =>
      have done : right ≥ stop := Nat.le_of_sub_eq_zero lengthy
      obtain ⟨dest', moved, holds, frame⟩ := unsafeMoveSlice_eq hx lengthx (at_ ▸ room)
      rw [sortMergeLoop, if_neg more, if_pos done, merge_right]
      exact ⟨dest', moved, holds, at_ ▸ frame⟩
    | cons y ys ihy =>
      rw [length_cons] at lengthx lengthy
      rw [length_cons, length_cons] at at_
      have more' : ¬ right ≥ stop := by omega
      have two : index + 1 < stop := by omega
      rw [sortMergeLoop, if_neg more, if_neg more', hx.readSlot_eq, hy.readSlot_eq,
        cons_merge_cons]
      dsimp only
      by_cases first : lte selector compare x y = true
      · obtain ⟨dest₁, wrote, own, frame₁⟩ := writeSlot_eq (a := dest) (i := index) x (by omega)
        have room₁ : stop ≤ dest₁.length := by
          rw [frame₁.length]
          exact room
        have lengthx' : middle - (left + 1) = xs.length := by omega
        have at' : index + 1 + (xs.length + (y :: ys).length) = stop := by
          rw [length_cons]
          omega
        obtain ⟨dest', rest, holds, frame⟩ := ihx hx.2 hy lengthx' lengthy at' room₁
        have first' : (compare (selector x) (selector y)).isLE = true := first
        rw [if_pos first', if_pos first, wrote]
        dsimp only
        rw [if_pos two]
        refine ⟨dest', rest, ⟨?_, holds⟩, ?_⟩
        · rw [frame.before index (Nat.lt_succ_self _)]
          exact own
        · exact (frame₁.mono (Nat.le_refl _) (by omega)).trans
            (frame.mono (Nat.le_succ _) (Nat.le_refl _))
      · obtain ⟨dest₁, wrote, own, frame₁⟩ := writeSlot_eq (a := dest) (i := index) y (by omega)
        have room₁ : stop ≤ dest₁.length := by
          rw [frame₁.length]
          exact room
        have lengthy' : stop - (right + 1) = ys.length := by omega
        have at' : index + 1 + ((x :: xs).length + ys.length) = stop := by
          rw [length_cons]
          omega
        obtain ⟨dest', rest, holds, frame⟩ := ihy hy.2 lengthy' at' room₁
        have first' : ¬ (compare (selector x) (selector y)).isLE = true := first
        rw [if_neg first', if_neg first, wrote]
        dsimp only
        rw [if_pos two]
        refine ⟨dest', rest, ⟨?_, holds⟩, ?_⟩
        · rw [frame.before index (Nat.lt_succ_self _)]
          exact own
        · exact (frame₁.mono (Nat.le_refl _) (by omega)).trans
            (frame.mono (Nat.le_succ _) (Nat.le_refl _))

end Sorting

structure Preorder (compare : K → K → Ordering) : Prop where
  total : ∀ a b, (compare a b).isLE = true ∨ (compare b a).isLE = true
  trans : ∀ a b c, (compare a b).isLE = true → (compare b c).isLE = true →
    (compare a c).isLE = true

section Sorting
variable (selector : T → K) {compare : K → K → Ordering}

theorem Preorder.merge (h : Preorder compare) {l₁ l₁' l₂ l₂' : List T}
    (h₁ : Sorts (lte selector compare) l₁ l₁') (h₂ : Sorts (lte selector compare) l₂ l₂') :
    Sorts (lte selector compare) (l₁ ++ l₂) (List.merge l₁' l₂' (lte selector compare)) :=
  h₁.merge (fun x y z => h.trans (selector x) (selector y) (selector z))
    (fun x y => h.total (selector x) (selector y)) h₂

variable {l : List T}

theorem sortSplit_eq (order : Preorder compare) (n : ℕ) {src dest : List (Option T)}
    {start stop : ℕ} (small : l.length ≤ n) (length : stop - start = l.length)
    (hs : Holds src start l) (hd : Holds dest start l) (rooms : stop ≤ src.length)
    (roomd : stop ≤ dest.length) :
    ∃ src' dest' l', sortSplit selector compare src start stop dest = some (src', dest') ∧
      Sorts (lte selector compare) l l' ∧ Holds dest' start l' ∧ Frame src src' start stop ∧
      Frame dest dest' start stop := by
  induction n generalizing src dest start stop l with
  | zero =>
    have short : ¬ stop - start > 1 := by omega
    rw [sortSplit, if_neg short]
    exact ⟨src, dest, l, rfl, .short (by omega), hd, .refl .., .refl ..⟩
  | succ n ih =>
    rw [sortSplit]
    split
    · next long =>
      -- the parts before and after the middle
      obtain ⟨middle, def_⟩ : ∃ middle, middle = (stop + start) / 2 := ⟨_, rfl⟩
      have parts := take_append_drop (middle - start) l
      have length₁ : (l.take (middle - start)).length = middle - start := by
        rw [length_take]
        omega
      have length₂ : (l.drop (middle - start)).length = stop - middle := by
        rw [length_drop]
        omega
      generalize l.take (middle - start) = l₁ at parts length₁
      generalize l.drop (middle - start) = l₂ at parts length₂
      subst parts
      rw [length_append] at length small
      have apart : start + l₁.length = middle := by omega
      rw [holds_append, apart] at hs hd
      dsimp only
      rw [← def_]
      obtain ⟨dest₁, src₁, l₁', eq₁, sorts₁, holds₁, framed₁, frames₁⟩ :=
        ih (by omega) length₁.symm hd.1 hs.1 (by omega) (by omega)
      rw [eq₁]
      dsimp only
      obtain ⟨dest₂, src₂, l₂', eq₂, sorts₂, holds₂, framed₂, frames₂⟩ :=
        ih (by omega) length₂.symm (hd.2.frame framed₁ (Or.inr (Nat.le_refl _)))
          (hs.2.frame frames₁ (Or.inr (Nat.le_refl _))) (by rw [framed₁.length]; omega)
          (by rw [frames₁.length]; omega)
      rw [eq₂]
      dsimp only
      have same₁ := sorts₁.perm.length_eq
      have same₂ := sorts₂.perm.length_eq
      have kept : Holds src₂ start l₁' := holds₁.frame frames₂ (Or.inl (by omega))
      have room₂ : stop ≤ dest₂.length := by
        rw [framed₂.length, framed₁.length]
        exact roomd
      have left : middle - start = l₁'.length := by omega
      have right : stop - middle = l₂'.length := by omega
      have whole : start + (l₁'.length + l₂'.length) = stop := by omega
      have merge := sortMergeLoop_eq selector compare kept holds₂ left right whole room₂
      obtain ⟨dest₃, merged, holds, frame⟩ := merge
      refine ⟨src₂, dest₃, _, ?_, order.merge selector sorts₁ sorts₂, holds, ?_, ?_⟩
      · rw [sortMerge, merged]
        rfl
      · exact (frames₁.mono (Nat.le_refl _) (by omega)).trans
          (frames₂.mono (by omega) (Nat.le_refl _))
      · exact ((framed₁.mono (Nat.le_refl _) (by omega)).trans
          (framed₂.mono (by omega) (Nat.le_refl _))).trans frame
    · next short =>
      exact ⟨src, dest, l, rfl, .short (by omega), hd, .refl .., .refl ..⟩

variable {v : MutableVector T}

theorem Items.copy (h : Items v l) :
    ∃ src, unsafeMoveSlice v.inner 0 v.sz (unsafeMake v.sz) 0 = some src ∧ Holds src 0 l ∧
      src.length = v.sz := by
  have length : (unsafeMake v.sz : List (Option T)).length = v.sz := length_replicate
  have room : 0 + l.length ≤ (unsafeMake v.sz : List (Option T)).length := by
    exact Nat.le_of_eq (by rw [length, h.size, Nat.zero_add])
  obtain ⟨src, moved, holds, frame⟩ := unsafeMoveSlice_eq h.holds h.size.symm room
  exact ⟨src, moved, holds, frame.length.trans length⟩

theorem Items.capacity (h : Items v l) :
    v.sz ≤ v.inner.length := by
  by_cases empty : l = []
  · rw [← h.size, empty]
    exact Nat.zero_le _
  · have bound := h.holds.le_length empty
    rwa [Nat.zero_add, h.size] at bound

/-- The items after are those before, in order, and equal items are as they were. -/
theorem sortBy_sorts (order : Preorder compare) {v : MutableVector T} {l : List T}
    (h : Items v l) : ∃ v' l', v.sortBy selector compare = some v' ∧ Items v' l' ∧ l'.Perm l ∧
      l'.Pairwise (fun x y => lte selector compare x y = true) ∧
      (∀ x, l'.filter (equal (lte selector compare) x) = l.filter (equal (lte selector compare) x)) ∧
      v'.inner.length = v.inner.length := by
  obtain ⟨src, copied, holds, size⟩ := h.copy
  have whole : v.sz - 0 = l.length := h.size.symm
  obtain ⟨src', dest, l', split, sorts, sorted, -, frame⟩ := sortSplit_eq selector order l.length (Nat.le_refl _) whole holds h.holds (Nat.le_of_eq size.symm) h.capacity
  have length := sorts.perm.length_eq.trans h.size
  refine ⟨{ v with inner := dest }, l', ?_, ⟨length, sorted⟩, sorts.perm, sorts.ordered,
    sorts.stable, frame.length⟩
  rw [sortBy, copied]
  dsimp only
  rw [split]
  rfl

/-- Sorting by the tens: the items with the same tens stay as they were. -/
theorem sortBy_sorts_tens : ∃ v' l', sortBy (fun x : ℕ => x / 10) Ord.compare
    ⟨[some 25, some 13, some 21, some 11, none], 4⟩ = some v' ∧ Items v' l' ∧
      l'.Perm [25, 13, 21, 11] ∧
      l'.Pairwise (fun x y => lte (fun x : ℕ => x / 10) Ord.compare x y = true) ∧
      (∀ x, l'.filter (equal (lte (fun x : ℕ => x / 10) Ord.compare) x) =
        [25, 13, 21, 11].filter (equal (lte (fun x : ℕ => x / 10) Ord.compare) x)) ∧
      v'.inner.length = 5 := by
  have order : Preorder (Ord.compare : ℕ → ℕ → Ordering) := by
    refine ⟨fun a b => ?_, fun a b c => ?_⟩
    · rw [Nat.isLE_compare, Nat.isLE_compare]
      exact Nat.le_total a b
    · rw [Nat.isLE_compare, Nat.isLE_compare, Nat.isLE_compare]
      exact Nat.le_trans
  exact sortBy_sorts (fun x : ℕ => x / 10) order ⟨rfl, rfl, rfl, rfl, rfl, trivial⟩

end Sorting
end MutableVector
end SkipPlatform
