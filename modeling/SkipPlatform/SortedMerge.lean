import Mathlib.Data.List.Sort
import Mathlib.Data.List.Perm.Basic
import Mathlib.Data.List.TakeWhile

set_option autoImplicit false

/-! Merges of two sorted streams. -/
namespace SkipPlatform.SortedMerge
open List
variable {α β γ κ : Type} [LinearOrder κ]

theorem eq_of_mem_iff (key : α → κ) {xs ys : List α} (hx : xs.Pairwise fun a b => key a < key b)
    (hy : ys.Pairwise fun a b => key a < key b) (h : ∀ a, a ∈ xs ↔ a ∈ ys) : xs = ys := by
  have hnodup : ∀ {zs : List α}, (zs.Pairwise fun a b => key a < key b) → zs.Nodup := by
    intro zs hz
    apply hz.imp
    intro a b hab he
    rw [he] at hab
    exact lt_irrefl _ hab
  have hperm : xs.Perm ys := (perm_ext_iff_of_nodup (hnodup hx) (hnodup hy)).mpr h
  exact hperm.eq_of_pairwise (fun a b _ _ hab hba => absurd hab hba.not_gt) hx hy

variable {xs : List α}

theorem unique_of_sorted {key : α → κ} (h : xs.Pairwise fun a b => key a < key b)
    {a b : α} (ha : a ∈ xs) (hb : b ∈ xs) (hab : key a = key b) : a = b := by
  induction xs with
  | nil => cases ha
  | cons x xs ih =>
    obtain ⟨hx, hxs⟩ := pairwise_cons.mp h
    rcases mem_cons.mp ha with ha | ha
    · rcases mem_cons.mp hb with hb | hb
      · rw [ha, hb]
      · have := hx b hb
        rw [ha] at hab
        exact absurd hab this.ne
    · rcases mem_cons.mp hb with hb | hb
      · have := hx a ha
        rw [hb] at hab
        exact absurd hab.symm this.ne
      · exact ih hxs ha hb

@[grind] def mergeBy (cmp : α → β → Ordering) (left : α → γ) (right : β → γ) (both : α → β → γ) :
    List α → List β → List γ
  | [], bs => bs.map right
  | as, [] => as.map left
  | a :: as, b :: bs =>
    match cmp a b with
    | .lt => left a :: mergeBy cmp left right both as (b :: bs)
    | .gt => right b :: mergeBy cmp left right both (a :: as) bs
    | .eq => both a b :: mergeBy cmp left right both as bs
termination_by as bs => as.length + bs.length

theorem mergeBy_nil (cmp : α → β → Ordering) (left : α → γ) (right : β → γ) (both : α → β → γ)
    (as : List α) : mergeBy cmp left right both as [] = as.map left := by
  cases as with
  | nil => simp [mergeBy]
  | cons a as => simp [mergeBy]

theorem mergeBy_congr {cmp cmp' : α → β → Ordering} {left : α → γ} {right : β → γ}
    {both both' : α → β → γ} {as : List α} {bs : List β}
    (h : ∀ a ∈ as, ∀ b ∈ bs, cmp a b = cmp' a b ∧ (cmp a b = .eq → both a b = both' a b)) :
    mergeBy cmp left right both as bs = mergeBy cmp' left right both' as bs := by
  fun_induction mergeBy cmp left right both as bs with
  | case1 bs => rw [mergeBy]
  | case2 as _ => rw [mergeBy_nil]
  | case3 a as b bs hlt ih =>
    have hab := h a mem_cons_self b mem_cons_self
    rw [mergeBy, ← hab.1, hlt]
    congr 1
    exact ih fun c hc d hd => h c (mem_cons_of_mem a hc) d hd
  | case4 a as b bs hgt ih =>
    have hab := h a mem_cons_self b mem_cons_self
    rw [mergeBy, ← hab.1, hgt]
    congr 1
    exact ih fun c hc d hd => h c hc d (mem_cons_of_mem b hd)
  | case5 a as b bs heq ih =>
    have hab := h a mem_cons_self b mem_cons_self
    rw [mergeBy, ← hab.1, heq, hab.2 heq]
    congr 1
    exact ih fun c hc d hd => h c (mem_cons_of_mem a hc) d (mem_cons_of_mem b hd)

theorem mem_mergeBy (ka : α → κ) (kb : β → κ) (left : α → γ) (right : β → γ)
    (both : α → β → γ) {as : List α} {bs : List β} (ha : as.Pairwise fun a b => ka a < ka b)
    (hb : bs.Pairwise fun a b => kb a < kb b) (x : γ) :
    x ∈ mergeBy (fun a b => compare (ka a) (kb b)) left right both as bs ↔
      (∃ a ∈ as, (∀ b ∈ bs, kb b ≠ ka a) ∧ left a = x) ∨
        (∃ b ∈ bs, (∀ a ∈ as, ka a ≠ kb b) ∧ right b = x) ∨
          ∃ a ∈ as, ∃ b ∈ bs, ka a = kb b ∧ both a b = x := by
  fun_induction mergeBy (fun a b => compare (ka a) (kb b)) left right both as bs with
  | case1 bs => simp
  | case2 as _ => simp
  | case3 a as b bs hlt ih =>
    have hlt : ka a < kb b := compare_lt_iff_lt.mp hlt
    obtain ⟨haa, has⟩ := pairwise_cons.mp ha
    obtain ⟨hbb, hbs⟩ := pairwise_cons.mp hb
    have hnot : ∀ y ∈ b :: bs, kb y ≠ ka a := by
      intro y hy he
      rcases mem_cons.mp hy with hy | hy
      · rw [hy] at he
        exact hlt.ne he.symm
      · exact (hlt.trans (hbb y hy)).ne he.symm
    rw [mem_cons, ih has hb]
    constructor
    · rintro (h | ⟨y, hy, hn, h⟩ | ⟨y, hy, hn, h⟩ | ⟨y, hy, z, hz, he, h⟩)
      · exact Or.inl ⟨a, mem_cons_self, hnot, h.symm⟩
      · exact Or.inl ⟨y, mem_cons_of_mem a hy, hn, h⟩
      · refine Or.inr (Or.inl ⟨y, hy, ?_, h⟩)
        intro c hc
        rcases mem_cons.mp hc with hc | hc
        · rw [hc]
          exact (hnot y hy).symm
        · exact hn c hc
      · exact Or.inr (Or.inr ⟨y, mem_cons_of_mem a hy, z, hz, he, h⟩)
    · rintro (⟨y, hy, hn, h⟩ | ⟨y, hy, hn, h⟩ | ⟨y, hy, z, hz, he, h⟩)
      · rcases mem_cons.mp hy with hy | hy
        · rw [hy] at h
          exact Or.inl h.symm
        · exact Or.inr (Or.inl ⟨y, hy, hn, h⟩)
      · exact Or.inr (Or.inr (Or.inl ⟨y, hy, fun c hc => hn c (mem_cons_of_mem a hc), h⟩))
      · rcases mem_cons.mp hy with hy | hy
        · rw [hy] at he
          exact absurd he.symm (hnot z hz)
        · exact Or.inr (Or.inr (Or.inr ⟨y, hy, z, hz, he, h⟩))
  | case4 a as b bs hgt ih =>
    have hgt : kb b < ka a := compare_gt_iff_gt.mp hgt
    obtain ⟨haa, has⟩ := pairwise_cons.mp ha
    obtain ⟨hbb, hbs⟩ := pairwise_cons.mp hb
    have hnot : ∀ y ∈ a :: as, ka y ≠ kb b := by
      intro y hy he
      rcases mem_cons.mp hy with hy | hy
      · rw [hy] at he
        exact hgt.ne he.symm
      · exact (hgt.trans (haa y hy)).ne he.symm
    rw [mem_cons, ih ha hbs]
    constructor
    · rintro (h | ⟨y, hy, hn, h⟩ | ⟨y, hy, hn, h⟩ | ⟨y, hy, z, hz, he, h⟩)
      · exact Or.inr (Or.inl ⟨b, mem_cons_self, hnot, h.symm⟩)
      · refine Or.inl ⟨y, hy, ?_, h⟩
        intro c hc
        rcases mem_cons.mp hc with hc | hc
        · rw [hc]
          exact (hnot y hy).symm
        · exact hn c hc
      · exact Or.inr (Or.inl ⟨y, mem_cons_of_mem b hy, hn, h⟩)
      · exact Or.inr (Or.inr ⟨y, hy, z, mem_cons_of_mem b hz, he, h⟩)
    · rintro (⟨y, hy, hn, h⟩ | ⟨y, hy, hn, h⟩ | ⟨y, hy, z, hz, he, h⟩)
      · exact Or.inr (Or.inl ⟨y, hy, fun c hc => hn c (mem_cons_of_mem b hc), h⟩)
      · rcases mem_cons.mp hy with hy | hy
        · rw [hy] at h
          exact Or.inl h.symm
        · exact Or.inr (Or.inr (Or.inl ⟨y, hy, hn, h⟩))
      · rcases mem_cons.mp hz with hz | hz
        · rw [hz] at he
          exact absurd he (hnot y hy)
        · exact Or.inr (Or.inr (Or.inr ⟨y, hy, z, hz, he, h⟩))
  | case5 a as b bs heq ih =>
    have heq : ka a = kb b := compare_eq_iff_eq.mp heq
    obtain ⟨haa, has⟩ := pairwise_cons.mp ha
    obtain ⟨hbb, hbs⟩ := pairwise_cons.mp hb
    have hnota : ∀ y ∈ as, ka y ≠ kb b := by
      intro y hy he
      rw [← heq] at he
      exact (haa y hy).ne he.symm
    have hnotb : ∀ y ∈ bs, kb y ≠ ka a := by
      intro y hy he
      rw [heq] at he
      exact (hbb y hy).ne he.symm
    rw [mem_cons, ih has hbs]
    constructor
    · rintro (h | ⟨y, hy, hn, h⟩ | ⟨y, hy, hn, h⟩ | ⟨y, hy, z, hz, he, h⟩)
      · exact Or.inr (Or.inr ⟨a, mem_cons_self, b, mem_cons_self, heq, h.symm⟩)
      · refine Or.inl ⟨y, mem_cons_of_mem a hy, ?_, h⟩
        intro c hc
        rcases mem_cons.mp hc with hc | hc
        · rw [hc]
          exact (hnota y hy).symm
        · exact hn c hc
      · refine Or.inr (Or.inl ⟨y, mem_cons_of_mem b hy, ?_, h⟩)
        intro c hc
        rcases mem_cons.mp hc with hc | hc
        · rw [hc]
          exact (hnotb y hy).symm
        · exact hn c hc
      · exact Or.inr (Or.inr ⟨y, mem_cons_of_mem a hy, z, mem_cons_of_mem b hz, he, h⟩)
    · rintro (⟨y, hy, hn, h⟩ | ⟨y, hy, hn, h⟩ | ⟨y, hy, z, hz, he, h⟩)
      · rcases mem_cons.mp hy with hy | hy
        · rw [hy] at hn
          exact absurd heq.symm (hn b mem_cons_self)
        · exact Or.inr (Or.inl ⟨y, hy, fun c hc => hn c (mem_cons_of_mem b hc), h⟩)
      · rcases mem_cons.mp hy with hy | hy
        · rw [hy] at hn
          exact absurd heq (hn a mem_cons_self)
        · exact Or.inr (Or.inr (Or.inl ⟨y, hy, fun c hc => hn c (mem_cons_of_mem a hc), h⟩))
      · rcases mem_cons.mp hy with hy | hy
        · rcases mem_cons.mp hz with hz | hz
          · rw [hy, hz] at h
            exact Or.inl h.symm
          · rw [hy] at he
            exact absurd he.symm (hnotb z hz)
        · rcases mem_cons.mp hz with hz | hz
          · rw [hz] at he
            exact absurd he (hnota y hy)
          · exact Or.inr (Or.inr (Or.inr ⟨y, hy, z, hz, he, h⟩))

theorem mem_mergeBy_apart {cmp : α → β → Ordering} {left : α → γ} {right : β → γ}
    {both : α → β → γ} {as : List α} {bs : List β}
    (h : ∀ a ∈ as, ∀ b ∈ bs, cmp a b ≠ .eq) (x : γ) :
    x ∈ mergeBy cmp left right both as bs ↔ x ∈ as.map left ∨ x ∈ bs.map right := by
  fun_induction mergeBy cmp left right both as bs with
  | case1 bs => simp
  | case2 as _ => simp
  | case3 a as b bs _ ih =>
    have hcons : x ∈ (a :: as).map left ↔ x = left a ∨ x ∈ as.map left := mem_cons
    rw [mem_cons, ih fun c hc d hd => h c (mem_cons_of_mem a hc) d hd, hcons, or_assoc]
  | case4 a as b bs _ ih =>
    have hcons : x ∈ (b :: bs).map right ↔ x = right b ∨ x ∈ bs.map right := mem_cons
    rw [mem_cons, ih fun c hc d hd => h c hc d (mem_cons_of_mem b hd), hcons,
      or_left_comm]
  | case5 a as b bs heq ih =>
    exact absurd heq (h a mem_cons_self b mem_cons_self)

theorem flatMap_mergeBy {δ : Type} {cmp : α → β → Ordering} {left : α → γ} {right : β → γ}
    {both : α → β → γ} (f : γ → List δ) (hright : ∀ b, f (right b) = [])
    (hboth : ∀ a b, f (both a b) = f (left a)) (as : List α) (bs : List β) :
    (mergeBy cmp left right both as bs).flatMap f = as.flatMap fun a => f (left a) := by
  fun_induction mergeBy cmp left right both as bs with
  | case1 bs =>
    rw [flatMap_map]
    simp [hright]
  | case2 as _ => rw [flatMap_map]
  | case3 a as b bs _ ih => rw [flatMap_cons, ih, flatMap_cons]
  | case4 a as b bs _ ih => rw [flatMap_cons, ih, hright, nil_append]
  | case5 a as b bs _ ih => rw [flatMap_cons, ih, hboth, flatMap_cons]

section Keys
variable (ka : α → κ) (kb : β → κ) (out : γ → κ) {left : α → γ} {right : β → γ}
  {both : α → β → γ} (hleft : ∀ a, out (left a) = ka a) (hright : ∀ b, out (right b) = kb b)
  (hboth : ∀ a b, ka a = kb b → out (both a b) = ka a)
include hleft hright hboth

theorem key_of_mem_mergeBy {as : List α} {bs : List β} {x : γ}
    (h : x ∈ mergeBy (fun a b => compare (ka a) (kb b)) left right both as bs) :
    (∃ a ∈ as, out x = ka a) ∨ ∃ b ∈ bs, out x = kb b := by
  fun_induction mergeBy (fun a b => compare (ka a) (kb b)) left right both as bs with
  | case1 bs =>
    obtain ⟨b, hb, hx⟩ := mem_map.mp h
    exact Or.inr ⟨b, hb, hx ▸ hright b⟩
  | case2 as _ =>
    obtain ⟨a, ha, hx⟩ := mem_map.mp h
    exact Or.inl ⟨a, ha, hx ▸ hleft a⟩
  | case3 a as b bs _ ih =>
    rcases mem_cons.mp h with h | h
    · exact Or.inl ⟨a, mem_cons_self, h ▸ hleft a⟩
    · rcases ih h with ⟨c, hc, hx⟩ | hx
      · exact Or.inl ⟨c, mem_cons_of_mem a hc, hx⟩
      · exact Or.inr hx
  | case4 a as b bs _ ih =>
    rcases mem_cons.mp h with h | h
    · exact Or.inr ⟨b, mem_cons_self, h ▸ hright b⟩
    · rcases ih h with hx | ⟨c, hc, hx⟩
      · exact Or.inl hx
      · exact Or.inr ⟨c, mem_cons_of_mem b hc, hx⟩
  | case5 a as b bs heq ih =>
    rcases mem_cons.mp h with h | h
    · exact Or.inl ⟨a, mem_cons_self, h ▸ hboth a b (compare_eq_iff_eq.mp heq)⟩
    · rcases ih h with ⟨c, hc, hx⟩ | ⟨c, hc, hx⟩
      · exact Or.inl ⟨c, mem_cons_of_mem a hc, hx⟩
      · exact Or.inr ⟨c, mem_cons_of_mem b hc, hx⟩

theorem mergeBy_pairwise (R : κ → κ → Prop) (htrans : ∀ {a b c}, R a b → R b c → R a c)
    (hlt : ∀ {a b}, a < b → R a b) {as : List α} {bs : List β}
    (ha : as.Pairwise fun a b => R (ka a) (ka b)) (hb : bs.Pairwise fun a b => R (kb a) (kb b)) :
    (mergeBy (fun a b => compare (ka a) (kb b)) left right both as bs).Pairwise
      fun x y => R (out x) (out y) := by
  fun_induction mergeBy (fun a b => compare (ka a) (kb b)) left right both as bs with
  | case1 bs =>
    rw [pairwise_map]
    apply hb.imp
    intro a b hab
    rw [hright, hright]
    exact hab
  | case2 as _ =>
    rw [pairwise_map]
    apply ha.imp
    intro a b hab
    rw [hleft, hleft]
    exact hab
  | case3 a as b bs hab ih =>
    have hab : R (ka a) (kb b) := hlt (compare_lt_iff_lt.mp hab)
    obtain ⟨haa, has⟩ := pairwise_cons.mp ha
    apply List.Pairwise.cons _ (ih has hb)
    intro y hy
    rw [hleft]
    rcases key_of_mem_mergeBy ka kb out hleft hright hboth hy with ⟨c, hc, hy⟩ | ⟨c, hc, hy⟩
    · rw [hy]
      exact haa c hc
    · rw [hy]
      rcases mem_cons.mp hc with hc | hc
      · rw [hc]
        exact hab
      · exact htrans hab ((pairwise_cons.mp hb).1 c hc)
  | case4 a as b bs hab ih =>
    have hab : R (kb b) (ka a) := hlt (compare_gt_iff_gt.mp hab)
    obtain ⟨hbb, hbs⟩ := pairwise_cons.mp hb
    apply List.Pairwise.cons _ (ih ha hbs)
    intro y hy
    rw [hright]
    rcases key_of_mem_mergeBy ka kb out hleft hright hboth hy with ⟨c, hc, hy⟩ | ⟨c, hc, hy⟩
    · rw [hy]
      rcases mem_cons.mp hc with hc | hc
      · rw [hc]
        exact hab
      · exact htrans hab ((pairwise_cons.mp ha).1 c hc)
    · rw [hy]
      exact hbb c hc
  | case5 a as b bs heq ih =>
    have heq : ka a = kb b := compare_eq_iff_eq.mp heq
    obtain ⟨haa, has⟩ := pairwise_cons.mp ha
    obtain ⟨hbb, hbs⟩ := pairwise_cons.mp hb
    apply List.Pairwise.cons _ (ih has hbs)
    intro y hy
    rw [hboth a b heq]
    rcases key_of_mem_mergeBy ka kb out hleft hright hboth hy with ⟨c, hc, hy⟩ | ⟨c, hc, hy⟩
    · rw [hy]
      exact haa c hc
    · rw [hy, heq]
      exact hbb c hc

end Keys

/-- A sorted stream with the members of a second one in place of its own. -/
@[grind] def overrideMerge (key : α → κ) : List α → List α → List α
  | fixed, [] => fixed
  | fixed, m :: ms =>
    fixed.takeWhile (fun a => decide (key a < key m)) ++
      m :: overrideMerge key ((fixed.dropWhile fun a => decide (key a < key m)).dropWhile
        fun a => decide (key a = key m)) ms

theorem mem_takeWhile_lt {key : α → κ} (h : xs.Pairwise fun a b => key a ≤ key b)
    (k : κ) (a : α) : a ∈ xs.takeWhile (fun a => decide (key a < k)) ↔ a ∈ xs ∧ key a < k := by
  induction xs with
  | nil => simp
  | cons x xs ih =>
    obtain ⟨hx, hxs⟩ := pairwise_cons.mp h
    by_cases hk : key x < k
    · rw [takeWhile_cons, if_pos (decide_eq_true hk), mem_cons, ih hxs, mem_cons]
      constructor
      · rintro (ha | ha)
        · exact ⟨Or.inl ha, ha ▸ hk⟩
        · exact ⟨Or.inr ha.1, ha.2⟩
      · rintro ⟨ha | ha, hlt⟩
        · exact Or.inl ha
        · exact Or.inr ⟨ha, hlt⟩
    · rw [takeWhile_cons, if_neg (by simpa using hk)]
      apply iff_of_false not_mem_nil
      rintro ⟨ha, hlt⟩
      rcases mem_cons.mp ha with ha | ha
      · exact hk (ha ▸ hlt)
      · exact hk ((hx a ha).trans_lt hlt)

theorem mem_dropWhile_lt {key : α → κ} (h : xs.Pairwise fun a b => key a ≤ key b)
    (k : κ) (a : α) : a ∈ xs.dropWhile (fun a => decide (key a < k)) ↔ a ∈ xs ∧ k ≤ key a := by
  induction xs with
  | nil => simp
  | cons x xs ih =>
    obtain ⟨hx, hxs⟩ := pairwise_cons.mp h
    by_cases hk : key x < k
    · rw [dropWhile_cons, if_pos (decide_eq_true hk), ih hxs, mem_cons]
      constructor
      · intro ha
        exact ⟨Or.inr ha.1, ha.2⟩
      · rintro ⟨ha | ha, hle⟩
        · rw [ha] at hle
          exact absurd hle hk.not_ge
        · exact ⟨ha, hle⟩
    · rw [dropWhile_cons, if_neg (by simpa using hk)]
      constructor
      · intro ha
        refine ⟨ha, ?_⟩
        rcases mem_cons.mp ha with ha | ha
        · rw [ha]
          exact not_lt.mp hk
        · exact (not_lt.mp hk).trans (hx a ha)
      · exact And.left

theorem mem_dropWhile_eq {key : α → κ} (h : xs.Pairwise fun a b => key a ≤ key b)
    (k : κ) (hk : ∀ a ∈ xs, k ≤ key a) (a : α) :
    a ∈ xs.dropWhile (fun a => decide (key a = k)) ↔ a ∈ xs ∧ k < key a := by
  induction xs with
  | nil => simp
  | cons x xs ih =>
    obtain ⟨hx, hxs⟩ := pairwise_cons.mp h
    by_cases he : key x = k
    · rw [dropWhile_cons, if_pos (decide_eq_true he),
        ih hxs (fun b hb => hk b (mem_cons_of_mem x hb)), mem_cons]
      constructor
      · intro ha
        exact ⟨Or.inr ha.1, ha.2⟩
      · rintro ⟨ha | ha, hlt⟩
        · rw [ha, he] at hlt
          exact absurd hlt (lt_irrefl _)
        · exact ⟨ha, hlt⟩
    · have hlt : k < key x := lt_of_le_of_ne (hk x mem_cons_self) (fun h => he h.symm)
      rw [dropWhile_cons, if_neg (by simpa using he)]
      constructor
      · intro ha
        refine ⟨ha, ?_⟩
        rcases mem_cons.mp ha with ha | ha
        · rw [ha]
          exact hlt
        · exact hlt.trans_le (hx a ha)
      · exact And.left

theorem takeWhile_congr {p q : α → Bool} (h : ∀ a ∈ xs, p a = q a) :
    xs.takeWhile p = xs.takeWhile q ∧ xs.dropWhile p = xs.dropWhile q := by
  induction xs with
  | nil => exact ⟨rfl, rfl⟩
  | cons x xs ih =>
    have hx := h x mem_cons_self
    obtain ⟨ht, hd⟩ := ih fun a ha => h a (mem_cons_of_mem x ha)
    rw [takeWhile_cons, takeWhile_cons, dropWhile_cons, dropWhile_cons, hx, ht,
      hd]
    exact ⟨rfl, rfl⟩

theorem takeWhile_dropWhile {p q : α → Bool} (xs : List α) :
    (xs.dropWhile fun a => q a && p a).takeWhile q = (xs.takeWhile q).dropWhile p := by
  induction xs with
  | nil => rfl
  | cons x xs ih =>
    cases hq : q x with
    | false => simp [hq]
    | true =>
      cases hp : p x with
      | true => simp [hq, hp, ih]
      | false => simp [hq, hp]

theorem dropWhile_dropWhile_and {p q : α → Bool} (xs : List α) :
    (xs.dropWhile fun a => q a && p a).dropWhile q = xs.dropWhile q := by
  induction xs with
  | nil => rfl
  | cons x xs ih =>
    cases hq : q x with
    | false => simp [hq]
    | true =>
      cases hp : p x with
      | true => simp [hq, hp, ih]
      | false => simp [hq, hp]

theorem mem_takeWhile_eq {key : α → κ} (h : xs.Pairwise fun a b => key a ≤ key b)
    (k : κ) (hk : ∀ a ∈ xs, k ≤ key a) (a : α) :
    a ∈ xs.takeWhile (fun a => decide (key a = k)) ↔ a ∈ xs ∧ key a = k := by
  induction xs with
  | nil => simp
  | cons x xs ih =>
    obtain ⟨hx, hxs⟩ := pairwise_cons.mp h
    by_cases he : key x = k
    · rw [takeWhile_cons, if_pos (decide_eq_true he), mem_cons,
        ih hxs (fun b hb => hk b (mem_cons_of_mem x hb)), mem_cons]
      constructor
      · rintro (ha | ha)
        · exact ⟨Or.inl ha, ha ▸ he⟩
        · exact ⟨Or.inr ha.1, ha.2⟩
      · rintro ⟨ha | ha, hak⟩
        · exact Or.inl ha
        · exact Or.inr ⟨ha, hak⟩
    · have hlt : k < key x := lt_of_le_of_ne (hk x mem_cons_self) (fun h => he h.symm)
      rw [takeWhile_cons, if_neg (by simpa using he)]
      apply iff_of_false not_mem_nil
      rintro ⟨ha, hak⟩
      rcases mem_cons.mp ha with ha | ha
      · exact he (ha ▸ hak)
      · exact (hlt.trans_le (hx a ha)).ne' hak

theorem mem_rest {key : α → κ} (h : xs.Pairwise fun a b => key a ≤ key b) (k : κ)
    (a : α) :
    a ∈ (xs.dropWhile fun a => decide (key a < k)).dropWhile (fun a => decide (key a = k)) ↔
      a ∈ xs ∧ k < key a := by
  have hs : (xs.dropWhile fun a => decide (key a < k)).Pairwise fun a b => key a ≤ key b :=
    h.sublist (dropWhile_sublist _)
  rw [mem_dropWhile_eq hs k (fun b hb => ((mem_dropWhile_lt h k b).mp hb).2),
    mem_dropWhile_lt h]
  constructor
  · intro ha
    exact ⟨ha.1.1, ha.2⟩
  · intro ha
    exact ⟨⟨ha.1, ha.2.le⟩, ha.2⟩

theorem rest_sorted {R : α → α → Prop} {key : α → κ} (h : xs.Pairwise R) (k : κ) :
    ((xs.dropWhile fun a => decide (key a < k)).dropWhile
      fun a => decide (key a = k)).Pairwise R :=
  (h.sublist (dropWhile_sublist _)).sublist (dropWhile_sublist _)

theorem mem_takeWhile_or_dropWhile (p : α → Bool) {a : α} (h : a ∈ xs) :
    a ∈ xs.takeWhile p ∨ a ∈ xs.dropWhile p := by
  rw [← mem_append, takeWhile_append_dropWhile]
  exact h

variable {fixed modified : List α}

theorem mem_overrideMerge_of_mem {key : α → κ} {a : α}
    (h : a ∈ modified ∨ a ∈ fixed ∧ ∀ m ∈ modified, key m ≠ key a) :
    a ∈ overrideMerge key fixed modified := by
  induction modified generalizing fixed with
  | nil =>
    rcases h with h | h
    · cases h
    · exact h.1
  | cons m ms ih =>
    rw [overrideMerge, mem_append, mem_cons]
    rcases h with h | ⟨ha, hn⟩
    · rcases mem_cons.mp h with h | h
      · exact Or.inr (Or.inl h)
      · exact Or.inr (Or.inr (ih (Or.inl h)))
    · rcases mem_takeWhile_or_dropWhile (fun a => decide (key a < key m)) ha with hlow | hrest
      · exact Or.inl hlow
      · right
        right
        apply ih
        refine Or.inr ⟨?_, fun m' hm' => hn m' (mem_cons_of_mem m hm')⟩
        rcases mem_takeWhile_or_dropWhile (fun a => decide (key a = key m)) hrest with
          heq | hlater
        · have hkey := mem_takeWhile_imp heq
          exact absurd (of_decide_eq_true hkey).symm (hn m mem_cons_self)
        · exact hlater

theorem mem_overrideMerge {key : α → κ}
    (hf : fixed.Pairwise fun a b => key a ≤ key b)
    (hm : modified.Pairwise fun a b => key a < key b) (a : α) :
    a ∈ overrideMerge key fixed modified ↔
      a ∈ modified ∨ a ∈ fixed ∧ ∀ m ∈ modified, key m ≠ key a := by
  induction modified generalizing fixed with
  | nil => simp [overrideMerge]
  | cons m ms ih =>
    obtain ⟨hmm, hms⟩ := pairwise_cons.mp hm
    rw [overrideMerge, mem_append, mem_takeWhile_lt hf, mem_cons,
      ih (rest_sorted hf _) hms, mem_rest hf, mem_cons]
    constructor
    · rintro (⟨ha, hlt⟩ | ha | ha | ⟨⟨ha, hgt⟩, hn⟩)
      · refine Or.inr ⟨ha, ?_⟩
        intro y hy he
        rcases mem_cons.mp hy with hy | hy
        · rw [hy] at he
          exact hlt.ne he.symm
        · exact (hlt.trans (hmm y hy)).ne he.symm
      · exact Or.inl (Or.inl ha)
      · exact Or.inl (Or.inr ha)
      · refine Or.inr ⟨ha, ?_⟩
        intro y hy
        rcases mem_cons.mp hy with hy | hy
        · rw [hy]
          exact hgt.ne
        · exact hn y hy
    · rintro ((ha | ha) | ⟨ha, hn⟩)
      · exact Or.inr (Or.inl ha)
      · exact Or.inr (Or.inr (Or.inl ha))
      · rcases lt_trichotomy (key a) (key m) with hlt | he | hgt
        · exact Or.inl ⟨ha, hlt⟩
        · exact absurd he.symm (hn m mem_cons_self)
        · exact Or.inr (Or.inr (Or.inr ⟨⟨ha, hgt⟩, fun y hy => hn y (mem_cons_of_mem m hy)⟩))

theorem overrideMerge_pairwise {key : α → κ} (R : κ → κ → Prop)
    (hlt : ∀ {a b}, a < b → R a b) (hle : fixed.Pairwise fun a b => key a ≤ key b)
    (hf : fixed.Pairwise fun a b => R (key a) (key b))
    (hm : modified.Pairwise fun a b => key a < key b) :
    (overrideMerge key fixed modified).Pairwise fun a b => R (key a) (key b) := by
  induction modified generalizing fixed with
  | nil => exact hf
  | cons m ms ih =>
    obtain ⟨hmm, hms⟩ := pairwise_cons.mp hm
    rw [overrideMerge, pairwise_append, pairwise_cons]
    have habove : ∀ a ∈ overrideMerge key ((fixed.dropWhile fun a => decide (key a < key m)).dropWhile
        fun a => decide (key a = key m)) ms, key m < key a := by
      intro a ha
      rcases (mem_overrideMerge (rest_sorted hle _) hms a).mp ha with ha | ⟨ha, _⟩
      · exact hmm a ha
      · exact ((mem_rest hle _ a).mp ha).2
    refine ⟨hf.sublist (takeWhile_sublist _),
      ⟨fun a ha => hlt (habove a ha), ih (rest_sorted hle _) (rest_sorted hf _) hms⟩, ?_⟩
    intro a ha b hb
    have ham := ((mem_takeWhile_lt hle _ a).mp ha).2
    rcases mem_cons.mp hb with hb | hb
    · rw [hb]
      exact hlt ham
    · exact hlt (ham.trans (habove b hb))

theorem flatMap_by_key {β : Type} {key : α → κ} (f : α → List β)
    (hx : xs.Pairwise fun a b => key a ≤ key b) {ks : List κ} (hk : ks.Pairwise (· < ·))
    (hmem : ∀ a ∈ xs, f a ≠ [] → key a ∈ ks) :
    xs.flatMap f = ks.flatMap fun k => xs.flatMap fun a => if key a = k then f a else [] := by
  induction xs with
  | nil => simp
  | cons x xs ih =>
    obtain ⟨hle, hxs⟩ := pairwise_cons.mp hx
    have hrest := ih hxs fun a ha => hmem a (mem_cons_of_mem x ha)
    rw [flatMap_cons, hrest]
    simp only [flatMap_cons]
    by_cases hf : f x = []
    · simp only [hf, nil_append, ite_self]
    · obtain ⟨before, after, rfl⟩ := append_of_mem (hmem x mem_cons_self hf)
      obtain ⟨_, hafter, hbefore⟩ := pairwise_append.mp hk
      have hlow : ∀ k ∈ before, k < key x := fun k hkb => hbefore k hkb _ mem_cons_self
      have hhigh : ∀ k ∈ after, key x < k := (pairwise_cons.mp hafter).1
      have hnone : ∀ k, k < key x → (xs.flatMap fun a => if key a = k then f a else []) = [] := by
        intro k hlt
        rw [flatMap_eq_nil_iff]
        intro a ha
        exact if_neg (hlt.trans_le (hle a ha)).ne'
      have hzero : (before.flatMap fun k => (if key x = k then f x else []) ++
          xs.flatMap fun a => if key a = k then f a else []) = [] := by
        rw [flatMap_eq_nil_iff]
        intro k hkb
        rw [if_neg (hlow k hkb).ne', hnone k (hlow k hkb), nil_append]
      have hzero' : (before.flatMap fun k => xs.flatMap fun a => if key a = k then f a else []) =
          [] := by
        rw [flatMap_eq_nil_iff]
        exact fun k hkb => hnone k (hlow k hkb)
      have hsame : (after.flatMap fun k => (if key x = k then f x else []) ++
          xs.flatMap fun a => if key a = k then f a else []) =
          after.flatMap fun k => xs.flatMap fun a => if key a = k then f a else [] := by
        apply flatMap_congr
        intro k hka
        rw [if_neg (hhigh k hka).ne, nil_append]
      rw [flatMap_append, flatMap_append, flatMap_cons, flatMap_cons, hzero,
        hzero', hsame, if_pos rfl, nil_append, nil_append, append_assoc]

theorem flatMap_at_mem {β : Type} {key : α → κ} (f : α → List β)
    (hx : xs.Pairwise fun a b => key a < key b) {a : α} (ha : a ∈ xs) :
    (xs.flatMap fun b => if key b = key a then f b else []) = f a := by
  obtain ⟨before, after, rfl⟩ := append_of_mem ha
  obtain ⟨_, hafter, hbefore⟩ := pairwise_append.mp hx
  have hlow : (before.flatMap fun b => if key b = key a then f b else []) = [] := by
    rw [flatMap_eq_nil_iff]
    exact fun b hb => if_neg (hbefore b hb a mem_cons_self).ne
  have hhigh : (after.flatMap fun b => if key b = key a then f b else []) = [] := by
    rw [flatMap_eq_nil_iff]
    exact fun b hb => if_neg ((pairwise_cons.mp hafter).1 b hb).ne'
  rw [flatMap_append, flatMap_cons, hlow, hhigh, if_pos rfl, nil_append,
    append_nil]

theorem flatMap_takeWhile_dropWhile {β : Type} (p : α → Bool) (g : α → List β) (xs : List α) :
    (xs.takeWhile p).flatMap g ++ (xs.dropWhile p).flatMap g = xs.flatMap g := by
  rw [← flatMap_append, takeWhile_append_dropWhile]

theorem flatMap_overrideMerge {β : Type} {key : α → κ} (f : α → List β)
    (hf : fixed.Pairwise fun a b => key a ≤ key b)
    (hm : modified.Pairwise fun a b => key a < key b) (k : κ) :
    ((overrideMerge key fixed modified).flatMap fun a => if key a = k then f a else []) =
      if k ∈ modified.map key then modified.flatMap fun a => if key a = k then f a else []
      else fixed.flatMap fun a => if key a = k then f a else [] := by
  set g : α → List β := fun a => if key a = k then f a else [] with hg
  have hnil : ∀ xs : List α, (∀ a ∈ xs, key a ≠ k) → xs.flatMap g = [] := by
    intro xs h
    rw [flatMap_eq_nil_iff]
    exact fun a ha => if_neg (h a ha)
  induction modified generalizing fixed with
  | nil => rfl
  | cons m ms ih =>
    obtain ⟨hlt, hms⟩ := pairwise_cons.mp hm
    set rest := (fixed.dropWhile fun a => decide (key a < key m)).dropWhile
      fun a => decide (key a = key m) with hrest
    have hrestle : rest.Pairwise fun a b => key a ≤ key b := rest_sorted hf (key m)
    have hmerge : (overrideMerge key fixed (m :: ms)).flatMap g =
        (fixed.takeWhile fun a => decide (key a < key m)).flatMap g ++
          (g m ++ (overrideMerge key rest ms).flatMap g) := by
      rw [overrideMerge, flatMap_append, flatMap_cons]
    rw [hmerge, map_cons, flatMap_cons]
    by_cases hkm : key m = k
    · have hlow : (fixed.takeWhile fun a => decide (key a < key m)).flatMap g = [] := by
        apply hnil
        intro a ha he
        have := ((mem_takeWhile_lt hf (key m) a).mp ha).2
        rw [hkm, ← he] at this
        exact lt_irrefl _ this
      have hhigh : (overrideMerge key rest ms).flatMap g = [] := by
        apply hnil
        intro a ha he
        rcases (mem_overrideMerge hrestle hms a).mp ha with ha | ⟨ha, _⟩
        · exact (hlt a ha).ne (hkm.trans he.symm)
        · exact ((mem_rest hf (key m) a).mp ha).2.ne (hkm.trans he.symm)
      have hms' : ms.flatMap g = [] := hnil ms fun a ha he => (hlt a ha).ne (hkm.trans he.symm)
      rw [hlow, hhigh, hms', if_pos (by rw [hkm]; exact mem_cons_self), nil_append]
    · have hgm : g m = [] := if_neg hkm
      have hin : k ∈ key m :: ms.map key ↔ k ∈ ms.map key := by
        rw [mem_cons, or_iff_right (Ne.symm hkm)]
      rw [hgm, nil_append, nil_append, ih hrestle hms]
      by_cases hk : k ∈ ms.map key
      · rw [if_pos hk, if_pos (hin.mpr hk)]
        have hlow : (fixed.takeWhile fun a => decide (key a < key m)).flatMap g = [] := by
          apply hnil
          intro a ha he
          obtain ⟨b, hb, hbk⟩ := mem_map.mp hk
          have h1 := ((mem_takeWhile_lt hf (key m) a).mp ha).2
          have h2 := hlt b hb
          rw [he] at h1
          rw [hbk] at h2
          exact lt_irrefl _ (h1.trans h2)
        rw [hlow, nil_append]
      · rw [if_neg hk, if_neg fun h => hk (hin.mp h)]
        have heq : ((fixed.dropWhile fun a => decide (key a < key m)).takeWhile
            fun a => decide (key a = key m)).flatMap g = [] := by
          apply hnil
          intro a ha he
          have hd := mem_takeWhile_imp ha
          exact hkm ((of_decide_eq_true hd).symm.trans he)
        have hsplit := flatMap_takeWhile_dropWhile (fun a => decide (key a = key m)) g
          (fixed.dropWhile fun a => decide (key a < key m))
        rw [heq, nil_append] at hsplit
        rw [hrest, hsplit, flatMap_takeWhile_dropWhile]

@[grind] def collapse (key : α → κ) : List α → List α
  | [] => []
  | [a] => [a]
  | a :: b :: rest =>
    if key a = key b then collapse key (b :: rest) else a :: collapse key (b :: rest)

theorem mem_of_mem_collapse {key : α → κ} {a : α} (h : a ∈ collapse key xs) :
    a ∈ xs := by
  induction xs with
  | nil => exact h
  | cons x xs ih =>
    cases xs with
    | nil => exact h
    | cons y ys =>
      rw [collapse] at h
      split_ifs at h
      · exact mem_cons_of_mem x (ih h)
      · rcases mem_cons.mp h with h | h
        · rw [h]
          exact mem_cons_self
        · exact mem_cons_of_mem x (ih h)

theorem collapse_sorted {key : α → κ} (h : xs.Pairwise fun a b => key a ≤ key b) :
    (collapse key xs).Pairwise fun a b => key a < key b := by
  induction xs with
  | nil => exact List.Pairwise.nil
  | cons x xs ih =>
    obtain ⟨hx, hxs⟩ := pairwise_cons.mp h
    cases xs with
    | nil => exact pairwise_singleton _ _
    | cons y ys =>
      rw [collapse]
      split_ifs with he
      · exact ih hxs
      · apply List.Pairwise.cons _ (ih hxs)
        intro z hz
        have hxy : key x < key y := lt_of_le_of_ne (hx y mem_cons_self) he
        rcases mem_cons.mp (mem_of_mem_collapse hz) with hz | hz
        · rw [hz]
          exact hxy
        · exact hxy.trans_le ((pairwise_cons.mp hxs).1 z hz)

theorem collapse_of_sorted {key : α → κ}
    (h : xs.Pairwise fun a b => key a < key b) : collapse key xs = xs := by
  induction xs with
  | nil => rfl
  | cons x xs ih =>
    obtain ⟨hx, hxs⟩ := pairwise_cons.mp h
    cases xs with
    | nil => rfl
    | cons y ys => rw [collapse, if_neg (hx y mem_cons_self).ne, ih hxs]

end SkipPlatform.SortedMerge
