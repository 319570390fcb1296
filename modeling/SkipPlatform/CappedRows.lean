import Mathlib.Tactic

set_option autoImplicit false

/-! Rows of sized items in the order of their keys, and what of them fits into a capacity: the
first items, the last one cut to the place that is left. -/
namespace SkipPlatform.CappedRows
open List

section Rows
variable {K F : Type} [LinearOrder K]

def filesAt (rows : List (K × List F)) (key : K) : List F :=
  rows.flatMap fun x => if x.1 = key then x.2 else []

def Sorted (rows : List (K × List F)) : Prop := rows.Pairwise fun a b => a.1 < b.1

def filled (rows : List (K × List F)) : List (K × List F) := rows.filter fun x => !x.2.isEmpty

theorem filesAt_append (rows more : List (K × List F)) (key : K) :
    filesAt (rows ++ more) key = filesAt rows key ++ filesAt more key := flatMap_append

variable {rows : List (K × List F)}

theorem filesAt_eq_nil {key : K}
    (h : ∀ x ∈ rows, x.1 = key → x.2 = []) : filesAt rows key = [] := by
  rw [filesAt, flatMap_eq_nil_iff]
  intro x hx
  split
  · rename_i same
    exact h x hx same
  · rfl

theorem filesAt_of_mem (h : Sorted rows) {x : K × List F}
    (hx : x ∈ rows) : filesAt rows x.1 = x.2 := by
  induction rows with
  | nil => cases hx
  | cons y rows ih =>
    obtain ⟨first, rest⟩ := pairwise_cons.mp h
    change (if y.1 = x.1 then y.2 else []) ++ filesAt rows x.1 = x.2
    rcases mem_cons.mp hx with rfl | later
    · rw [if_pos rfl, filesAt_eq_nil fun z hz same => absurd same.symm (first z hz).ne,
        append_nil]
    · rw [if_neg (first x later).ne, nil_append]
      exact ih rest later

theorem filesAt_filter (p : K → Bool) (rows : List (K × List F)) (key : K) :
    filesAt (rows.filter fun x => p x.1) key = if p key then filesAt rows key else [] := by
  induction rows with
  | nil => exact (ite_self _).symm
  | cons y rows ih =>
    change _ = if p key then (if y.1 = key then y.2 else []) ++ filesAt rows key else []
    by_cases same : y.1 = key
    · cases hp : p key with
      | true =>
        rw [hp, if_pos rfl] at ih
        rw [filter_cons_of_pos (by rw [same, hp]), if_pos rfl, ← ih]
        rfl
      | false =>
        rw [hp] at ih
        rw [filter_cons_of_neg (by simp [same, hp]), ih]
        rfl
    · have here : filesAt ((y :: rows).filter fun x => p x.1) key =
          filesAt (rows.filter fun x => p x.1) key := by
        cases hp : p y.1 with
        | true =>
          rw [filter_cons_of_pos (by simp [hp])]
          change (if y.1 = key then y.2 else []) ++ _ = _
          rw [if_neg same, nil_append]
          rfl
        | false => rw [filter_cons_of_neg (by simp [hp])]
      rw [here, ih, if_neg same, nil_append]

theorem sorted_filled (h : Sorted rows) : Sorted (filled rows) :=
  h.filter _

theorem mem_filled (h : Sorted rows) {x : K × List F} :
    x ∈ filled rows ↔ filesAt rows x.1 = x.2 ∧ x.2 ≠ [] := by
  rw [filled, mem_filter, Bool.not_eq_true', isEmpty_eq_false_iff]
  constructor
  · rintro ⟨hx, nonempty⟩
    exact ⟨filesAt_of_mem h hx, nonempty⟩
  · rintro ⟨same, nonempty⟩
    refine ⟨?_, nonempty⟩
    by_contra absent
    refine nonempty (same ▸ filesAt_eq_nil fun y hy key => ?_)
    have found := filesAt_of_mem h hy
    rw [key, same] at found
    exact absurd (Prod.ext key found.symm ▸ hy : x ∈ rows) absent

theorem filled_eq {rows rows' : List (K × List F)} (h : Sorted rows) (h' : Sorted rows')
    (same : ∀ key, filesAt rows key = filesAt rows' key) : filled rows = filled rows' := by
  have asymm : ∀ a b : K × List F, a ∈ filled rows → b ∈ filled rows' →
      a.1 < b.1 → b.1 < a.1 → a = b := fun a b _ _ hab hba => absurd hab hba.asymm
  have perm : (filled rows).Perm (filled rows') := by
    rw [perm_ext_iff_of_nodup]
    · intro x
      rw [mem_filled h, mem_filled h', same]
    · exact (sorted_filled h).imp fun hab same => hab.ne (congrArg Prod.fst same)
    · exact (sorted_filled h').imp fun hab same => hab.ne (congrArg Prod.fst same)
  exact perm.eq_of_pairwise asymm (sorted_filled h) (sorted_filled h')

theorem filesAt_filled (rows : List (K × List F)) (key : K) :
    filesAt (filled rows) key = filesAt rows key := by
  induction rows with
  | nil => rfl
  | cons x rows ih =>
    change _ = (if x.1 = key then x.2 else []) ++ filesAt rows key
    cases empty : x.2.isEmpty with
    | true =>
      rw [isEmpty_iff.mp empty, ite_self, nil_append, ← ih, filled, filled,
        filter_cons_of_neg (by simp [empty])]
    | false =>
      rw [← ih, filled, filled, filter_cons_of_pos (by simp [empty])]
      rfl

theorem filter_append_filter {p : K → Bool} (h : Sorted rows)
    (down : ∀ a b : K, a < b → p b = true → p a = true) :
    (rows.filter fun x => p x.1) ++ (rows.filter fun x => !p x.1) = rows := by
  induction rows with
  | nil => rfl
  | cons y rows ih =>
    obtain ⟨first, rest⟩ := pairwise_cons.mp h
    cases hp : p y.1 with
    | true =>
      rw [filter_cons_of_pos (by simp [hp]), filter_cons_of_neg (by simp [hp]),
        cons_append, ih rest]
    | false =>
      have none : rows.filter (fun x => p x.1) = [] := by
        rw [filter_eq_nil_iff]
        intro x hx accepted
        have := down y.1 x.1 (first x hx) accepted
        rw [hp] at this
        cases this
      have all : rows.filter (fun x => !p x.1) = rows := by
        have := ih rest
        rwa [none, nil_append] at this
      rw [filter_cons_of_neg (by simp [hp]), filter_cons_of_pos (by simp [hp]), none,
        all, nil_append]

end Rows

variable {K F : Type} (size : F → ℕ) (cut : F → ℤ → F)

@[grind] def takeFiles : ℕ → List F → List F
  | _, [] => []
  | n, f :: fs =>
    if n = 0 then []
    else if n < size f then [cut f (size f - n)]
    else f :: takeFiles (n - size f) fs

def total (files : List F) : ℕ := (files.map size).sum

@[grind] def takeRows : ℕ → List (K × List F) → List (K × List F)
  | _, [] => []
  | n, x :: rows => (x.1, takeFiles size cut n x.2) :: takeRows (n - total size x.2) rows

def rowsTotal (rows : List (K × List F)) : ℕ := (rows.map fun x => total size x.2).sum

theorem takeFiles_zero (files : List F) : takeFiles size cut 0 files = [] := by
  cases files with
  | nil => rfl
  | cons f fs => exact if_pos rfl

theorem takeFiles_of_lt {n : ℕ} {files : List F} (h : total size files < n) :
    takeFiles size cut n files = files := by
  induction files generalizing n with
  | nil => rfl
  | cons f fs ih =>
    change size f + total size fs < n at h
    rw [takeFiles, if_neg (by omega), if_neg (by omega), ih (by omega)]

theorem takeFiles_nonempty {n : ℕ} {files : List F} (hn : 0 < n) (h : files ≠ []) :
    takeFiles size cut n files ≠ [] := by
  cases files with
  | nil => exact absurd rfl h
  | cons f fs =>
    rw [takeFiles, if_neg (by omega)]
    split <;> exact cons_ne_nil _ _

theorem takeRows_append (n : ℕ) (rows more : List (K × List F)) :
    takeRows size cut n (rows ++ more) =
      takeRows size cut n rows ++ takeRows size cut (n - rowsTotal size rows) more := by
  induction rows generalizing n with
  | nil => rfl
  | cons x rows ih =>
    rw [cons_append, takeRows, ih, Nat.sub_sub]
    rfl

theorem takeRows_of_lt {n : ℕ} {rows : List (K × List F)} (h : rowsTotal size rows < n) :
    takeRows size cut n rows = rows := by
  induction rows generalizing n with
  | nil => rfl
  | cons x rows ih =>
    change total size x.2 + rowsTotal size rows < n at h
    rw [takeRows, takeFiles_of_lt size cut (by omega), ih (by omega)]

theorem fst_takeRows (n : ℕ) (rows : List (K × List F)) :
    (takeRows size cut n rows).map Prod.fst = rows.map Prod.fst := by
  induction rows generalizing n with
  | nil => rfl
  | cons x rows ih => rw [takeRows, map_cons, ih, map_cons]

theorem rowsTotal_filled (rows : List (K × List F)) :
    rowsTotal size (filled rows) = rowsTotal size rows := by
  induction rows with
  | nil => rfl
  | cons x rows ih =>
    change _ = total size x.2 + rowsTotal size rows
    cases hx : x.2 with
    | nil =>
      rw [filled, filter_cons_of_neg (by simp [hx])]
      exact ih.trans (Nat.zero_add _).symm
    | cons f fs =>
      rw [filled, filter_cons_of_pos (by simp [hx]), ← hx, ← ih]
      rfl

theorem rowsTotal_sublist {rows rows' : List (K × List F)} (h : rows.Sublist rows') :
    rowsTotal size rows ≤ rowsTotal size rows' := (h.map _).sum_le_sum fun _ _ => Nat.zero_le _

section Ordered
variable [LinearOrder K]

theorem sorted_takeRows {n : ℕ} {rows : List (K × List F)} (h : Sorted rows) :
    Sorted (takeRows size cut n rows) := by
  have keys : (rows.map Prod.fst).Pairwise (· < ·) := pairwise_map.mpr h
  rw [← fst_takeRows size cut n rows] at keys
  exact pairwise_map.mp keys

theorem filesAt_takeRows_zero (rows : List (K × List F)) (key : K) :
    filesAt (takeRows size cut 0 rows) key = [] := by
  induction rows with
  | nil => rfl
  | cons x rows ih =>
    change (if x.1 = key then takeFiles size cut 0 x.2 else []) ++
      filesAt (takeRows size cut (0 - total size x.2) rows) key = []
    rw [takeFiles_zero, ite_self, Nat.zero_sub, ih, nil_append]

theorem filesAt_takeRows_filled (n : ℕ) (rows : List (K × List F)) (key : K) :
    filesAt (takeRows size cut n (filled rows)) key = filesAt (takeRows size cut n rows) key := by
  induction rows generalizing n with
  | nil => rfl
  | cons x rows ih =>
    cases hx : x.2 with
    | nil =>
      have skip : filesAt (takeRows size cut n (x :: rows)) key =
          filesAt (takeRows size cut n rows) key := by
        change (if x.1 = key then takeFiles size cut n x.2 else []) ++
          filesAt (takeRows size cut (n - total size x.2) rows) key = _
        rw [hx]
        exact (congrArg (· ++ _) (ite_self _)).trans (nil_append _)
      rw [filled, filter_cons_of_neg (by simp [hx]), skip]
      exact ih n
    | cons f fs =>
      rw [filled, filter_cons_of_pos (by simp [hx])]
      exact congrArg ((if x.1 = key then takeFiles size cut n x.2 else []) ++ ·) (ih _)

theorem filesAt_takeRows_congr {rows rows' : List (K × List F)} (h : Sorted rows)
    (h' : Sorted rows') (same : ∀ key, filesAt rows key = filesAt rows' key) (n : ℕ) (key : K) :
    filesAt (takeRows size cut n rows) key = filesAt (takeRows size cut n rows') key := by
  rw [← filesAt_takeRows_filled, filled_eq h h' same, filesAt_takeRows_filled]

theorem rowsTotal_congr {rows rows' : List (K × List F)} (h : Sorted rows)
    (h' : Sorted rows') (same : ∀ key, filesAt rows key = filesAt rows' key) :
    rowsTotal size rows = rowsTotal size rows' := by
  rw [← rowsTotal_filled, filled_eq h h' same, rowsTotal_filled]

end Ordered

end SkipPlatform.CappedRows
