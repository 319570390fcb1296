import SkipPlatform.FixedDir

set_option autoImplicit false

/-! What the searches and the walks over a sorted array of rows return, index by index. -/
namespace SkipPlatform
open List

namespace SortedSearch

theorem scanEq_range (delta : ℕ → Ordering) (i n : ℕ) :
    ∃ k, scanEq delta i n = range' i k ∧ i + k ≤ max i n := by
  fun_induction scanEq delta i n with
  | case1 i hlt heq ih =>
    obtain ⟨k, hk, hle⟩ := ih
    exact ⟨k + 1, by rw [hk, range'_succ], by omega⟩
  | case2 i hlt hne => exact ⟨0, rfl, by omega⟩
  | case3 i hlt => exact ⟨0, rfl, by omega⟩

theorem findFirstBy_le (delta : ℕ → Ordering) (l n : ℕ) (h : l ≤ n) :
    findFirstBy delta l n ≤ n := by
  fun_induction findFirstBy delta l n with
  | case1 l n hlt hgt ih => exact ih (by omega)
  | case2 l n hlt hgt ih => exact (ih (by omega)).trans (by omega)
  | case3 l n hlt => exact h

theorem mem_scanEq (delta : ℕ → Ordering) (i n j : ℕ) :
    j ∈ scanEq delta i n ↔ i ≤ j ∧ j < n ∧ ∀ m, i ≤ m → m ≤ j → delta m = .eq := by
  fun_induction scanEq delta i n with
  | case1 i hlt heq ih =>
    rw [mem_cons, ih]
    constructor
    · rintro (rfl | ⟨hij, hj, hall⟩)
      · refine ⟨Nat.le_refl _, hlt, ?_⟩
        intro m h h'
        rw [Nat.le_antisymm h' h]
        exact heq
      · refine ⟨by omega, hj, ?_⟩
        intro m h h'
        rcases Nat.lt_or_eq_of_le h with h | rfl
        · exact hall m h h'
        · exact heq
    · rintro ⟨hij, hj, hall⟩
      rcases Nat.lt_or_eq_of_le hij with h | rfl
      · exact Or.inr ⟨h, hj, fun m hm => hall m (by omega)⟩
      · exact Or.inl rfl
  | case2 i hlt hne =>
    refine iff_of_false not_mem_nil ?_
    rintro ⟨hij, -, hall⟩
    exact hne (hall i (Nat.le_refl _) hij)
  | case3 i hlt => exact iff_of_false not_mem_nil (by omega)

variable {α β : Type} [LinearOrder β] (xs : List α) (g : α → β) (key : β)

theorem findFirst_exact (sorted : xs.Pairwise fun x y => g x ≤ g y) :
    findFirst xs (fun x => compare key (g x)) ≤ xs.length ∧
      ∀ i (h : i < xs.length), i < findFirst xs (fun x => compare key (g x)) ↔ g xs[i] < key := by
  obtain ⟨below, above⟩ := findFirst_cut xs _ (pairwise_compare_gt key sorted)
  constructor
  · exact findFirstBy_le _ 0 _ (Nat.zero_le _)
  · intro i h
    constructor
    · intro hi
      exact compare_gt_iff_gt.mp (below _ (mem_take_iff_getElem.mpr ⟨i, by omega, rfl⟩))
    · intro hlt
      by_contra hi
      refine above xs[i] ?_ (compare_gt_iff_gt.mpr hlt)
      exact mem_drop_iff_getElem.mpr
        ⟨i - findFirst xs (fun x => compare key (g x)), by omega, by congr 1; omega⟩

theorem mem_findAllBy (sorted : xs.Pairwise fun x y => g x ≤ g y) (i : ℕ) (h : i < xs.length) :
    i ∈ findAllBy (probe xs fun x => compare key (g x)) 0 xs.length ↔ g xs[i] = key := by
  obtain ⟨-, cut⟩ := findFirst_exact xs g key sorted
  unfold findAllBy
  rw [mem_scanEq]
  change findFirst xs _ ≤ i ∧ _ ↔ _
  constructor
  · rintro ⟨first, _, hall⟩
    have here := hall i first (Nat.le_refl _)
    rw [probe_eq _ h, compare_eq_iff_eq] at here
    exact here.symm
  · intro here
    have first : ¬i < findFirst xs (fun x => compare key (g x)) := by
      rw [cut i h, here]
      exact lt_irrefl key
    refine ⟨by omega, h, ?_⟩
    intro m hm hmi
    have hlen : m < xs.length := by omega
    have notBelow : ¬g xs[m] < key := by
      rw [← cut m hlen]
      exact not_lt.mpr hm
    have le : g xs[m] ≤ g xs[i] := by
      rcases Nat.lt_or_eq_of_le hmi with hlt | rfl
      · exact pairwise_iff_getElem.mp sorted m i hlen h hlt
      · exact le_rfl
    rw [probe_eq _ hlen, compare_eq_iff_eq]
    exact le_antisymm (not_lt.mp notBelow) (le.trans here.le)

end SortedSearch

namespace FixedDir
open SortedSearch
variable {K S T : Type} [LinearOrder K] [LinearOrder S]

theorem getChangesAcc_perm {data : List (TaggedRow K S T)} (h : Tagged data) (after : ℕ) :
    (getChangesAcc after data).Perm
      (((data.map Prod.fst).filter fun row => decide (after ≤ row.tick)).map FixedRow.key) := by
  induction h with
  | nil =>
    have none : getChangesAcc after ([] : List (TaggedRow K S T)) = [] := bisect_nil _ _
    rw [none]
    exact Perm.nil
  | node l r x mid bound left right ihl ihr =>
    rw [getChangesAcc_node after l r x mid, map_append, map_cons, filter_append, filter_cons,
      map_append]
    by_cases hx : x.2 < after
    · have none : ∀ y ∈ l ++ x :: r, ¬decide (after ≤ y.1.tick) = true := by
        intro y hy
        have := bound y hy
        simp only [decide_eq_true_eq]
        omega
      have left : (l.map Prod.fst).filter (fun row => decide (after ≤ row.tick)) = [] := by
        simpa using fun y n hy => by simpa using none (y, n) (by simp [hy])
      have right : (r.map Prod.fst).filter (fun row => decide (after ≤ row.tick)) = [] := by
        simpa using fun y n hy => by simpa using none (y, n) (by simp [hy])
      rw [if_pos hx, left, right, if_neg (none x (by simp))]
      exact Perm.nil
    · rw [if_neg hx]
      by_cases ha : after ≤ x.1.tick
      · rw [if_pos ha, if_pos (decide_eq_true ha), map_cons]
        exact ((ihl.append ihr).cons x.1.key).trans perm_middle.symm
      · rw [if_neg ha, if_neg (by simpa using ha)]
        exact ihl.append ihr

/-- The index found is the first row not below the key, the rows found are those of the key in
one piece, and the walks see the rows that are recent enough, each once. -/
theorem searches_exact (rows : List (FixedRow K S T))
    (sorted : rows.Pairwise fun a b => a.place ≤ b.place) (key : K) (source : S) (after : ℕ) :
    (findFirst rows (fun row => compare key row.key) ≤ rows.length ∧
      ∀ i (h : i < rows.length),
        i < findFirst rows (fun row => compare key row.key) ↔ rows[i].key < key) ∧
    (∃ first n, findAllBy (probe rows fun row => compare key row.key) 0 rows.length =
        range' first n ∧ ∀ i (h : i < rows.length), i ∈ range' first n ↔ rows[i].key = key) ∧
    (∃ first n, findAllBy (probe rows fun row =>
          (compare key row.key).then (compare source row.source)) 0 rows.length =
        range' first n ∧ ∀ i (h : i < rows.length), i ∈ range' first n ↔
          rows[i].key = key ∧ rows[i].source = source) ∧
    (computeTags rows).1.map Prod.fst = rows ∧
    (getChangesAcc after (computeTags rows).1).Perm
      ((rows.filter fun row => decide (after ≤ row.tick)).map FixedRow.key) ∧
    getKeyChangesAfter after key (computeTags rows).1 = recent after key rows := by
  have keys : rows.Pairwise fun a b => a.key ≤ b.key := sorted.imp key_le_of_place
  obtain ⟨same, tagged, -⟩ := computeTags_spec rows
  refine ⟨findFirst_exact rows FixedRow.key key keys, ?_, ?_, same, ?_, ?_⟩
  · obtain ⟨n, hn, -⟩ := scanEq_range (probe rows fun row => compare key row.key)
      (findFirst rows fun row => compare key row.key) rows.length
    refine ⟨_, n, hn, ?_⟩
    intro i h
    rw [← hn]
    exact mem_findAllBy rows FixedRow.key key keys i h
  · simp only [compare_place]
    obtain ⟨n, hn, -⟩ := scanEq_range
      (probe rows fun row => compare (toLex (key, source) : K ×ₗ S) row.place)
      (findFirst rows fun row => compare (toLex (key, source) : K ×ₗ S) row.place) rows.length
    refine ⟨_, n, hn, ?_⟩
    intro i h
    rw [← hn]
    have mem := mem_findAllBy rows FixedRow.place (toLex (key, source)) sorted i h
    exact mem.trans (by simp [FixedRow.place])
  · rw [show rows.filter (fun row => decide (after ≤ row.tick)) =
      ((computeTags rows).1.map Prod.fst).filter fun row => decide (after ≤ row.tick) by rw [same]]
    exact getChangesAcc_perm tagged after
  · conv_rhs => rw [← same]
    exact getKeyChangesAfter_eq tagged after key (by rw [same]; exact keys)

theorem searches_exact_twins :
    (findAllBy (probe [(⟨1, 7, 0, 2⟩ : FixedRow ℕ ℕ ℕ), ⟨1, 8, 0, 3⟩] fun row =>
      compare 1 row.key) 0 2) ≠ [] := by
  obtain ⟨-, ⟨first, n, found, mem⟩, -⟩ := searches_exact
    [(⟨1, 7, 0, 2⟩ : FixedRow ℕ ℕ ℕ), ⟨1, 8, 0, 3⟩]
    (by simp [FixedRow.place, Prod.Lex.toLex_le_toLex]) 1 0 3
  intro none
  have here := (mem 0 (by decide)).mpr rfl
  rw [← found] at here
  rw [show [(⟨1, 7, 0, 2⟩ : FixedRow ℕ ℕ ℕ), ⟨1, 8, 0, 3⟩].length = 2 from rfl, none] at here
  exact absurd here not_mem_nil

end FixedDir
end SkipPlatform
