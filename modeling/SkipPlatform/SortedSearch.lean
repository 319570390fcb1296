import Mathlib.Data.List.Basic
import Mathlib.Order.Lattice
import Mathlib.Order.Lex

set_option autoImplicit false

/-! Bisection with a three-way probe. A probe answers `gt` where the wanted position is
further right and `lt` where it is further left. -/
namespace SkipPlatform.SortedSearch
open List

/-- `n` is one past the upper end of the interval. -/
def findFirstBy (delta : ℕ → Ordering) (l n : ℕ) : ℕ :=
  if l < n then
    if delta (l + (n - 1 - l) / 2) = .gt then findFirstBy delta (l + (n - 1 - l) / 2 + 1) n
    else findFirstBy delta l (l + (n - 1 - l) / 2)
  else l
termination_by n - l

def scanEq (delta : ℕ → Ordering) (i n : ℕ) : List ℕ :=
  if i < n then if delta i = .eq then i :: scanEq delta (i + 1) n else [] else []
termination_by n - i

def findAllBy (delta : ℕ → Ordering) (l n : ℕ) : List ℕ := scanEq delta (findFirstBy delta l n) n

theorem findFirstBy_spec (delta : ℕ → Ordering) (l n : ℕ) (h : l ≤ n)
    (hmono : ∀ i j, i ≤ j → j < n → delta j = .gt → delta i = .gt) :
    (∀ i, l ≤ i → i < findFirstBy delta l n → delta i = .gt) ∧
      ∀ i, findFirstBy delta l n ≤ i → i < n → delta i ≠ .gt := by
  fun_induction findFirstBy delta l n with
  | case1 l n hlt hgt ih =>
    obtain ⟨hbelow, habove⟩ := ih (by omega) hmono
    refine ⟨?_, habove⟩
    intro i hli hi
    by_cases hm : i ≤ l + (n - 1 - l) / 2
    · exact hmono i _ hm (by omega) hgt
    · exact hbelow i (by omega) hi
  | case2 l n hlt hgt ih =>
    obtain ⟨hbelow, habove⟩ := ih (by omega) fun i j hij hj => hmono i j hij (by omega)
    refine ⟨hbelow, ?_⟩
    intro i hi hin
    by_cases hm : i < l + (n - 1 - l) / 2
    · exact habove i hi hm
    · intro hgti
      exact hgt (hmono _ i (by omega) hin hgti)
  | case3 l n hlt => exact ⟨fun i hli hi => by omega, fun i hi hin => by omega⟩

theorem findFirstBy_congr (delta delta' : ℕ → Ordering) (l n : ℕ)
    (h : ∀ i, i < n → delta i = delta' i) :
    findFirstBy delta l n = findFirstBy delta' l n := by
  fun_induction findFirstBy delta l n with
  | case1 l n hlt hgt ih =>
    rw [findFirstBy.eq_def delta' l n, if_pos hlt, ← h _ (by omega), if_pos hgt]
    exact ih h
  | case2 l n hlt hgt ih =>
    rw [findFirstBy.eq_def delta' l n, if_pos hlt, ← h _ (by omega), if_neg hgt]
    exact ih fun i hi => h i (by omega)
  | case3 l n hlt => rw [findFirstBy.eq_def delta' l n, if_neg hlt]

section Lists
variable {α : Type}

def probe (xs : List α) (f : α → Ordering) (i : ℕ) : Ordering := (xs[i]?.map f).getD .lt

def findFirst (xs : List α) (f : α → Ordering) : ℕ := findFirstBy (probe xs f) 0 xs.length

def findAll (xs : List α) (f : α → Ordering) : List α :=
  (findAllBy (probe xs f) 0 xs.length).filterMap fun i => xs[i]?

theorem probe_eq {xs : List α} (f : α → Ordering) {i : ℕ} (h : i < xs.length) :
    probe xs f i = f xs[i] := by
  simp [probe, h]

theorem findFirst_cut (xs : List α) (f : α → Ordering)
    (hmono : xs.Pairwise fun x y => f y = .gt → f x = .gt) :
    (∀ x ∈ xs.take (findFirst xs f), f x = .gt) ∧ ∀ x ∈ xs.drop (findFirst xs f), f x ≠ .gt := by
  have hprobe : ∀ i j, i ≤ j → j < xs.length → probe xs f j = .gt → probe xs f i = .gt := by
    intro i j hij hj hgt
    rcases Nat.lt_or_eq_of_le hij with hlt | rfl
    · have hi : i < xs.length := by omega
      rw [probe_eq f hj] at hgt
      rw [probe_eq f hi]
      exact pairwise_iff_getElem.mp hmono i j hi hj hlt hgt
    · exact hgt
  obtain ⟨hbelow, habove⟩ := findFirstBy_spec (probe xs f) 0 xs.length (Nat.zero_le _) hprobe
  constructor
  · intro x hx
    obtain ⟨i, hi, rfl⟩ := mem_take_iff_getElem.mp hx
    have hi' : i < findFirst xs f ∧ i < xs.length := by omega
    rw [← probe_eq f hi'.2]
    exact hbelow i (Nat.zero_le _) hi'.1
  · intro x hx
    obtain ⟨i, hi, rfl⟩ := mem_drop_iff_getElem.mp hx
    rw [← probe_eq f]
    exact habove _ (by unfold findFirst; omega) (by omega)

theorem scanEq_eq (xs : List α) (f : α → Ordering) (i : ℕ) :
    (scanEq (probe xs f) i xs.length).filterMap (fun i => xs[i]?) =
      (xs.drop i).takeWhile fun x => decide (f x = .eq) := by
  generalize hn : xs.length = n
  fun_induction scanEq (probe xs f) i n with
  | case1 i hlt heq ih =>
    subst hn
    rw [drop_eq_getElem_cons hlt]
    rw [probe_eq f hlt] at heq
    rw [takeWhile_cons_of_pos (by simpa using heq), filterMap_cons]
    simp [hlt, ih]
  | case2 i hlt hne =>
    subst hn
    rw [drop_eq_getElem_cons hlt]
    rw [probe_eq f hlt] at hne
    rw [takeWhile_cons_of_neg (by simpa using hne)]
    rfl
  | case3 i hlt =>
    rw [drop_eq_nil_of_le (by omega)]
    rfl

theorem findAll_eq_filter (xs : List α) (f : α → Ordering)
    (hgt : xs.Pairwise fun x y => f y = .gt → f x = .gt)
    (hlt : xs.Pairwise fun x y => f x = .lt → f y = .lt) :
    findAll xs f = xs.filter fun x => decide (f x = .eq) := by
  obtain ⟨hbelow, habove⟩ := findFirst_cut xs f hgt
  have htail : ∀ ys : List α, (∀ y ∈ ys, f y ≠ .gt) →
      (ys.Pairwise fun x y => f x = .lt → f y = .lt) →
      ys.takeWhile (fun x => decide (f x = .eq)) = ys.filter fun x => decide (f x = .eq) := by
    intro ys
    induction ys with
    | nil => exact fun _ _ => rfl
    | cons y ys ih =>
      intro hne hp
      obtain ⟨hy, hys⟩ := pairwise_cons.mp hp
      cases hf : f y with
      | lt =>
        have hnone : ∀ z ∈ ys, ¬(decide (f z = .eq) = true) := by
          intro z hz
          simp [hy z hz hf]
        rw [takeWhile_cons_of_neg (by simp [hf]), filter_cons_of_neg (by simp [hf]),
          filter_eq_nil_iff.mpr hnone]
      | eq =>
        rw [takeWhile_cons_of_pos (by simp [hf]), filter_cons_of_pos (by simp [hf]),
          ih (fun z hz => hne z (mem_cons_of_mem _ hz)) hys]
      | gt => exact absurd hf (hne y mem_cons_self)
  unfold findAll findAllBy
  rw [scanEq_eq]
  change (xs.drop (findFirst xs f)).takeWhile _ = _
  rw [htail _ habove (hlt.sublist (drop_sublist _ _))]
  have hnone : (xs.take (findFirst xs f)).filter (fun x => decide (f x = .eq)) = [] := by
    rw [filter_eq_nil_iff]
    intro x hx
    simp [hbelow x hx]
  calc (xs.drop (findFirst xs f)).filter (fun x => decide (f x = .eq))
      = (xs.take (findFirst xs f)).filter (fun x => decide (f x = .eq)) ++
          (xs.drop (findFirst xs f)).filter (fun x => decide (f x = .eq)) := by
        rw [hnone, nil_append]
    _ = xs.filter (fun x => decide (f x = .eq)) := by
        rw [← filter_append, take_append_drop]

end Lists

section Keys
variable {α β : Type} [LinearOrder β]

theorem pairwise_compare_gt {xs : List α} {g : α → β} (key : β)
    (h : xs.Pairwise fun x y => g x ≤ g y) :
    xs.Pairwise fun x y => compare key (g y) = .gt → compare key (g x) = .gt := by
  refine h.imp ?_
  intro x y hxy hgt
  rw [compare_gt_iff_gt] at hgt ⊢
  exact hxy.trans_lt hgt

theorem pairwise_compare_lt {xs : List α} {g : α → β} (key : β)
    (h : xs.Pairwise fun x y => g x ≤ g y) :
    xs.Pairwise fun x y => compare key (g x) = .lt → compare key (g y) = .lt := by
  refine h.imp ?_
  intro x y hxy hlt
  rw [compare_lt_iff_lt] at hlt ⊢
  exact hlt.trans_le hxy

theorem findAll_compare (xs : List α) (g : α → β) (key : β)
    (h : xs.Pairwise fun x y => g x ≤ g y) :
    findAll xs (fun x => compare key (g x)) = xs.filter fun x => decide (g x = key) := by
  rw [findAll_eq_filter xs _ (pairwise_compare_gt key h) (pairwise_compare_lt key h)]
  refine filter_congr ?_
  intro x _
  simp only [compare_eq_iff_eq, decide_eq_decide]
  exact eq_comm

theorem getElem?_findFirst_compare (xs : List α) (g : α → β) (key : β)
    (h : xs.Pairwise fun x y => g x ≤ g y) :
    (xs[findFirst xs fun x => compare key (g x)]?).filter (fun x => decide (g x = key)) =
      xs.find? fun x => decide (g x = key) := by
  obtain ⟨hbelow, habove⟩ := findFirst_cut xs _ (pairwise_compare_gt key h)
  generalize findFirst xs (fun x => compare key (g x)) = r at hbelow habove
  have hsplit : xs.find? (fun x => decide (g x = key)) =
      (xs.drop r).find? fun x => decide (g x = key) := by
    have hnone : (xs.take r).find? (fun x => decide (g x = key)) = none := by
      rw [List.find?_eq_none]
      intro x hx
      have := compare_gt_iff_gt.mp (hbelow x hx)
      simpa using this.ne
    calc xs.find? (fun x => decide (g x = key))
        = (xs.take r ++ xs.drop r).find? (fun x => decide (g x = key)) := by
          rw [take_append_drop]
      _ = (xs.drop r).find? (fun x => decide (g x = key)) := by
          rw [List.find?_append, hnone, Option.none_or]
  rw [hsplit]
  have hsorted : (xs.drop r).Pairwise fun x y => g x ≤ g y := h.sublist (drop_sublist _ _)
  have hget : xs[r]? = (xs.drop r).head? := by rw [List.head?_drop]
  rw [hget]
  cases hd : xs.drop r with
  | nil => rfl
  | cons y ys =>
    rw [hd] at habove hsorted
    by_cases hy : g y = key
    · simp [hy]
    · have hlt : key < g y := by
        have hng := habove y mem_cons_self
        rw [ne_eq, compare_gt_iff_gt, not_lt] at hng
        exact lt_of_le_of_ne hng (fun he => hy he.symm)
      have hnone : ys.find? (fun x => decide (g x = key)) = none := by
        rw [List.find?_eq_none]
        intro z hz
        have := hlt.trans_le ((pairwise_cons.mp hsorted).1 z hz)
        simpa using this.ne'
      simp [hy, hnone]

end Keys
/-- The recursion of a walk over a sorted array: the midpoint of an interval, then the two
halves. -/
def bisect {α β : Type} (nil : β) (node : α → β → β → β) (xs : List α) : β :=
  match h : xs[(xs.length - 1) / 2]? with
  | none => nil
  | some x =>
    node x (bisect nil node (xs.take ((xs.length - 1) / 2)))
      (bisect nil node (xs.drop ((xs.length - 1) / 2 + 1)))
termination_by xs.length
decreasing_by
  all_goals
    have hlt := (List.getElem?_eq_some_iff.mp h).1
    first | rw [length_take] | rw [length_drop]
    omega

@[simp] theorem bisect_nil {α β : Type} (nil : β) (node : α → β → β → β) :
    bisect nil node [] = nil := by
  rw [bisect]
  rfl

theorem bisect_node {α β : Type} (nil : β) (node : α → β → β → β) (l r : List α) (x : α)
    (mid : l.length = (l.length + r.length) / 2) :
    bisect nil node (l ++ x :: r) = node x (bisect nil node l) (bisect nil node r) := by
  have hpivot : ((l ++ x :: r).length - 1) / 2 = l.length := by
    rw [length_append, length_cons]
    omega
  have hget : (l ++ x :: r)[((l ++ x :: r).length - 1) / 2]? = some x := by
    rw [hpivot]
    simp
  have htake : (l ++ x :: r).take (((l ++ x :: r).length - 1) / 2) = l := by
    rw [hpivot]
    simp
  have hdrop : (l ++ x :: r).drop (((l ++ x :: r).length - 1) / 2 + 1) = r := by
    rw [hpivot]
    simp
  rw [bisect]
  split
  · rename_i h
    rw [hget] at h
    cases h
  · rename_i y h
    rw [hget] at h
    cases h
    rw [htake, hdrop]

theorem exists_midpoint {α : Type} {xs : List α} (h : xs ≠ []) :
    ∃ (l : List α) (x : α) (r : List α),
      xs = l ++ x :: r ∧ l.length = (l.length + r.length) / 2 := by
  have hpos : 0 < xs.length := length_pos_iff.mpr h
  have hlt : (xs.length - 1) / 2 < xs.length := by omega
  refine ⟨xs.take ((xs.length - 1) / 2), xs[(xs.length - 1) / 2],
    xs.drop ((xs.length - 1) / 2 + 1), ?_, ?_⟩
  · rw [← drop_eq_getElem_cons hlt, take_append_drop]
  · rw [length_take, length_drop]
    omega

theorem bisect_induction {α : Type} {P : List α → Prop} (nil : P [])
    (node : ∀ (l : List α) (x : α) (r : List α), l.length = (l.length + r.length) / 2 →
      P l → P r → P (l ++ x :: r)) (xs : List α) : P xs := by
  induction hn : xs.length using Nat.strongRecOn generalizing xs with
  | ind n ih =>
    by_cases hxs : xs = []
    · rw [hxs]
      exact nil
    · obtain ⟨l, x, r, hsplit, hmid⟩ := exists_midpoint hxs
      subst hsplit
      rw [length_append, length_cons] at hn
      exact node l x r hmid (ih l.length (by omega) l rfl) (ih r.length (by omega) r rfl)

end SkipPlatform.SortedSearch
