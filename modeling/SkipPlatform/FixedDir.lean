import Mathlib.Data.List.Sort
import SkipPlatform.SortedSearch
import SkipPlatform.DMap

set_option autoImplicit false
set_option linter.unusedSectionVars false

/-! The fixed part of a directory: a sorted array of rows, searched by bisection, in
which the midpoint of each interval keeps the youngest tick of the interval. -/
namespace SkipPlatform
open List SortedSearch

/-- `tick` is the `current` field of the row's tick range. -/
structure FixedRow (K S T : Type) where
  key : K
  value : T
  source : S
  tick : ℕ

namespace FixedRow
variable {K S T : Type}

/-- What `FixedRow.compare` compares. -/
def place (r : FixedRow K S T) : K ×ₗ S := toLex (r.key, r.source)

end FixedRow

/-- A row with the `max` field of its tick range. -/
abbrev TaggedRow (K S T : Type) := FixedRow K S T × ℕ

/-- The midpoint of every interval of the bisection bounds the ticks of the interval. -/
inductive Tagged {K S T : Type} : List (TaggedRow K S T) → Prop
  | nil : Tagged []
  | node (l r : List (TaggedRow K S T)) (x : TaggedRow K S T)
      (mid : l.length = (l.length + r.length) / 2)
      (bound : ∀ y ∈ l ++ x :: r, y.1.tick ≤ x.2) (left : Tagged l) (right : Tagged r) :
      Tagged (l ++ x :: r)

namespace FixedDir
variable {K S T : Type}

/-- `computeTags_`: the tagged rows of an interval and its youngest tick. -/
def computeTags : List (FixedRow K S T) → List (TaggedRow K S T) × ℕ :=
  bisect ([], 0) fun elt left right =>
    let top := max elt.tick (max left.2 right.2)
    (left.1 ++ (elt, top) :: right.1, top)

theorem computeTags_node (l r : List (FixedRow K S T)) (x : FixedRow K S T)
    (mid : l.length = (l.length + r.length) / 2) :
    computeTags (l ++ x :: r) =
      ((computeTags l).1 ++ (x, max x.tick (max (computeTags l).2 (computeTags r).2)) ::
        (computeTags r).1, max x.tick (max (computeTags l).2 (computeTags r).2)) :=
  bisect_node _ _ l r x mid

theorem computeTags_spec (rows : List (FixedRow K S T)) :
    (computeTags rows).1.map Prod.fst = rows ∧ Tagged (computeTags rows).1 ∧
      ∀ r ∈ rows, r.tick ≤ (computeTags rows).2 := by
  induction rows using bisect_induction with
  | nil =>
    have h : computeTags ([] : List (FixedRow K S T)) = ([], 0) := bisect_nil _ _
    rw [h]
    exact ⟨rfl, .nil, by simp⟩
  | node l x r mid ihl ihr =>
    obtain ⟨hlmap, hltag, hlmax⟩ := ihl
    obtain ⟨hrmap, hrtag, hrmax⟩ := ihr
    rw [computeTags_node l r x mid]
    set left := computeTags l
    set right := computeTags r
    set top := max x.tick (max left.2 right.2) with htop
    have hmap : (left.1 ++ (x, top) :: right.1).map Prod.fst = l ++ x :: r := by
      rw [map_append, map_cons, hlmap, hrmap]
    have hmax : ∀ y ∈ l ++ x :: r, y.tick ≤ top := by
      intro y hy
      simp only [mem_append, mem_cons] at hy
      rcases hy with hy | hy | hy
      · have := hlmax y hy
        omega
      · rw [hy]
        omega
      · have := hrmax y hy
        omega
    have hlen : left.1.length = l.length := by rw [← hlmap, length_map]
    have hren : right.1.length = r.length := by rw [← hrmap, length_map]
    refine ⟨hmap, .node _ _ _ (by omega) ?_ hltag hrtag, hmax⟩
    intro z hz
    apply hmax
    rw [← hmap]
    exact mem_map_of_mem hz

end FixedDir

structure FixedDir (K S T : Type) [LinearOrder K] [LinearOrder S] where
  data : List (TaggedRow K S T)
  sorted : (data.map Prod.fst).Pairwise (fun a b => a.place ≤ b.place)
  tagged : Tagged data

namespace FixedDir
variable {K S T : Type} [LinearOrder K] [LinearOrder S]

def sort (rows : List (FixedRow K S T)) : List (FixedRow K S T) :=
  rows.mergeSort fun a b => decide (a.place ≤ b.place)

theorem sort_sorted (rows : List (FixedRow K S T)) :
    (sort rows).Pairwise (fun a b => a.place ≤ b.place) := by
  have h : (sort rows).Pairwise fun a b => decide (a.place ≤ b.place) = true := by
    apply pairwise_mergeSort
    · intro a b c hab hbc
      rw [decide_eq_true_iff] at hab hbc ⊢
      exact hab.trans hbc
    · intro a b
      simpa using le_total a.place b.place
  exact h.imp fun hab => of_decide_eq_true hab

def create (rows : List (FixedRow K S T)) : FixedDir K S T :=
  ⟨(computeTags (sort rows)).1, by
    rw [(computeTags_spec (sort rows)).1]
    exact sort_sorted rows, (computeTags_spec (sort rows)).2.1⟩

def rows (d : FixedDir K S T) : List (FixedRow K S T) := d.data.map Prod.fst

def size (d : FixedDir K S T) : ℕ := d.data.length

theorem rows_create (rs : List (FixedRow K S T)) : (create rs).rows = sort rs :=
  (computeTags_spec (sort rs)).1

theorem mem_rows_create {rs : List (FixedRow K S T)} {r : FixedRow K S T} :
    r ∈ (create rs).rows ↔ r ∈ rs := by
  rw [rows_create]
  exact mem_mergeSort

theorem rows_create_of_sorted {rs : List (FixedRow K S T)}
    (h : rs.Pairwise (fun a b => a.place ≤ b.place)) : (create rs).rows = rs := by
  rw [rows_create]
  exact mergeSort_of_pairwise (h.imp fun hab => decide_eq_true hab)

def getPos (d : FixedDir K S T) (key : K) : ℕ :=
  findFirst d.rows fun row => compare key row.key

def getAll (d : FixedDir K S T) (key : K) : List (FixedRow K S T) :=
  findAll d.rows fun row => compare key row.key

def getAllSourceKey (d : FixedDir K S T) (source : S) (key : K) : List (FixedRow K S T) :=
  findAll d.rows fun row => (compare key row.key).then (compare source row.source)

def getIter (d : FixedDir K S T) (key : K) : List (ℕ × S × T) :=
  (d.getAll key).map fun row => (row.tick, row.source, row.value)

def getArraySourceKey (d : FixedDir K S T) (source : S) (key : K) : List T :=
  (d.getAllSourceKey source key).map FixedRow.value

def getChangesAcc (after : ℕ) : List (TaggedRow K S T) → List K :=
  bisect [] fun elt left right =>
    if elt.2 < after then []
    else (if after ≤ elt.1.tick then [elt.1.key] else []) ++ left ++ right

def getChangesAfter (d : FixedDir K S T) (tick : ℕ) : SortedSet K :=
  (getChangesAcc tick d.data).foldl (fun s k => s.set k ()) .empty

/-- The rows of `key` pushed by the walk over an interval. -/
def getKeyChangesAfter (after : ℕ) (key : K) : List (TaggedRow K S T) → List (ℕ × S × T) :=
  bisect [] fun elt left right =>
    if after ≤ elt.2 then
      (if key ≤ elt.1.key then left else []) ++
        (if after ≤ elt.1.tick then
          (if elt.1.key = key then [(elt.1.tick, elt.1.source, elt.1.value)] else []) else []) ++
        (if elt.1.key ≤ key then right else [])
    else []

def getIterAfter (d : FixedDir K S T) (tick : ℕ) (key : K) : List (ℕ × S × T) :=
  getKeyChangesAfter tick key d.data

variable (d : FixedDir K S T)

theorem rows_sorted : d.rows.Pairwise (fun a b => a.place ≤ b.place) :=
  d.sorted

theorem key_le_of_place {a b : FixedRow K S T} (h : a.place ≤ b.place) : a.key ≤ b.key := by
  rcases Prod.Lex.toLex_le_toLex.mp h with h | ⟨h, _⟩
  · exact h.le
  · exact h.le

theorem keys_sorted : d.rows.Pairwise (fun a b => a.key ≤ b.key) :=
  d.rows_sorted.imp key_le_of_place

theorem getAll_eq (key : K) :
    d.getAll key = d.rows.filter fun row => decide (row.key = key) :=
  findAll_compare d.rows FixedRow.key key d.keys_sorted

theorem compare_place (key : K) (source : S) (row : FixedRow K S T) :
    (compare key row.key).then (compare source row.source) =
      compare (toLex (key, source) : K ×ₗ S) row.place := by
  cases hk : compare key row.key with
  | lt =>
    rw [compare_lt_iff_lt] at hk
    exact (compare_lt_iff_lt.mpr (Prod.Lex.toLex_lt_toLex.mpr (Or.inl hk))).symm
  | gt =>
    rw [compare_gt_iff_gt] at hk
    exact (compare_gt_iff_gt.mpr (Prod.Lex.toLex_lt_toLex.mpr (Or.inl hk))).symm
  | eq =>
    rw [compare_eq_iff_eq] at hk
    change compare source row.source = _
    cases hs : compare source row.source with
    | lt =>
      rw [compare_lt_iff_lt] at hs
      exact (compare_lt_iff_lt.mpr (Prod.Lex.toLex_lt_toLex.mpr (Or.inr ⟨hk, hs⟩))).symm
    | gt =>
      rw [compare_gt_iff_gt] at hs
      exact (compare_gt_iff_gt.mpr (Prod.Lex.toLex_lt_toLex.mpr (Or.inr ⟨hk.symm, hs⟩))).symm
    | eq =>
      rw [compare_eq_iff_eq] at hs
      rw [hk, hs]
      exact (compare_eq_iff_eq.mpr rfl).symm

theorem getAllSourceKey_eq (source : S) (key : K) :
    d.getAllSourceKey source key =
      d.rows.filter fun row => decide (row.key = key ∧ row.source = source) := by
  unfold getAllSourceKey
  simp only [compare_place]
  rw [findAll_compare d.rows FixedRow.place _ d.rows_sorted]
  apply filter_congr
  intro row _
  simp [FixedRow.place]

theorem getChangesAcc_node (after : ℕ) (l r : List (TaggedRow K S T)) (x : TaggedRow K S T)
    (mid : l.length = (l.length + r.length) / 2) :
    getChangesAcc after (l ++ x :: r) =
      if x.2 < after then []
      else (if after ≤ x.1.tick then [x.1.key] else []) ++ getChangesAcc after l ++
        getChangesAcc after r :=
  bisect_node _ _ l r x mid

theorem mem_getChangesAcc {data : List (TaggedRow K S T)} (h : Tagged data) (after : ℕ) (k : K) :
    k ∈ getChangesAcc after data ↔ ∃ y ∈ data, y.1.key = k ∧ after ≤ y.1.tick := by
  induction h with
  | nil =>
    have h : getChangesAcc after ([] : List (TaggedRow K S T)) = [] := bisect_nil _ _
    simp [h]
  | node l r x mid bound left right ihl ihr =>
    rw [getChangesAcc_node after l r x mid]
    by_cases hx : x.2 < after
    · rw [if_pos hx]
      apply iff_of_false not_mem_nil
      intro ⟨y, hy, _, hle⟩
      have := bound y hy
      omega
    · rw [if_neg hx, mem_append, mem_append, ihl, ihr]
      simp only [mem_append, mem_cons, or_and_right, exists_or, exists_eq_left]
      have hkey : k ∈ (if after ≤ x.1.tick then [x.1.key] else []) ↔
          x.1.key = k ∧ after ≤ x.1.tick := by
        by_cases ha : after ≤ x.1.tick
        · simp [ha, eq_comm]
        · simp [ha]
      rw [hkey, or_assoc, or_left_comm]

theorem mem_getChangesAfter {d : FixedDir K S T} {after : ℕ} {k : K} :
    k ∈ (d.getChangesAfter after).keys ↔ ∃ r ∈ d.rows, r.key = k ∧ after ≤ r.tick := by
  unfold getChangesAfter
  rw [DMap.mem_foldl_set, mem_getChangesAcc d.tagged]
  simp [SortedMap.keys, rows]

theorem getKeyChangesAfter_node (after : ℕ) (key : K) (l r : List (TaggedRow K S T))
    (x : TaggedRow K S T) (mid : l.length = (l.length + r.length) / 2) :
    getKeyChangesAfter after key (l ++ x :: r) =
      if after ≤ x.2 then
        (if key ≤ x.1.key then getKeyChangesAfter after key l else []) ++
          (if after ≤ x.1.tick then
            (if x.1.key = key then [(x.1.tick, x.1.source, x.1.value)] else []) else []) ++
          (if x.1.key ≤ key then getKeyChangesAfter after key r else [])
      else [] :=
  bisect_node _ _ l r x mid

/-- The rows of a key that are recent enough, as `getIter` would show them. -/
def recent (after : ℕ) (key : K) (rows : List (FixedRow K S T)) : List (ℕ × S × T) :=
  (rows.filter fun row => decide (row.key = key ∧ after ≤ row.tick)).map fun row =>
    (row.tick, row.source, row.value)

theorem recent_eq_nil {after : ℕ} {key : K} {rows : List (FixedRow K S T)}
    (h : ∀ r ∈ rows, r.key = key → r.tick < after) : recent after key rows = [] := by
  have hnil : rows.filter (fun row => decide (row.key = key ∧ after ≤ row.tick)) = [] := by
    rw [filter_eq_nil_iff]
    intro r hr hd
    have hkt := of_decide_eq_true hd
    have := h r hr hkt.1
    omega
  rw [recent, hnil]
  rfl

theorem getKeyChangesAfter_eq {data : List (TaggedRow K S T)} (h : Tagged data) (after : ℕ)
    (key : K) (hs : (data.map Prod.fst).Pairwise fun a b => a.key ≤ b.key) :
    getKeyChangesAfter after key data = recent after key (data.map Prod.fst) := by
  induction h with
  | nil => exact bisect_nil _ _
  | node l r x mid bound left right ihl ihr =>
    rw [map_append, map_cons, pairwise_append, pairwise_cons] at hs
    obtain ⟨hl, ⟨hxr, hr⟩, hlx⟩ := hs
    rw [getKeyChangesAfter_node after key l r x mid, ihl hl, ihr hr]
    by_cases hx : after ≤ x.2
    · rw [if_pos hx]
      have hleft : (if key ≤ x.1.key then recent after key (l.map Prod.fst) else []) =
          recent after key (l.map Prod.fst) := by
        by_cases hk : key ≤ x.1.key
        · rw [if_pos hk]
        · rw [if_neg hk, recent_eq_nil]
          intro y hy hyk
          have := hlx y hy x.1 mem_cons_self
          exact absurd (hyk ▸ this) hk
      have hright : (if x.1.key ≤ key then recent after key (r.map Prod.fst) else []) =
          recent after key (r.map Prod.fst) := by
        by_cases hk : x.1.key ≤ key
        · rw [if_pos hk]
        · rw [if_neg hk, recent_eq_nil]
          intro y hy hyk
          exact absurd (hyk ▸ hxr y hy) hk
      rw [hleft, hright]
      unfold recent
      rw [map_append, map_cons, filter_append, filter_cons, map_append,
        append_assoc]
      by_cases ht : after ≤ x.1.tick
      · by_cases hk : x.1.key = key
        · simp [ht, hk]
        · simp [hk]
      · simp [ht]
    · rw [if_neg hx, recent_eq_nil]
      intro y hy _
      obtain ⟨z, hz, hzy⟩ := mem_map.mp hy
      have := bound z hz
      rw [hzy] at this
      omega

theorem getIterAfter_eq (after : ℕ) (key : K) :
    d.getIterAfter after key = recent after key d.rows :=
  getKeyChangesAfter_eq d.tagged after key d.keys_sorted

end FixedDir
end SkipPlatform
