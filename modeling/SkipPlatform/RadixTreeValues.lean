import SkipPlatform.RadixTreeItems
import Mathlib.Data.List.Induction

set_option autoImplicit false

/-! The iterator over the items of a persistent vector. It takes the number of children of a node
from the size of the root, for all nodes of a level. -/
namespace SkipPlatform.Persistent
open List RawSlots
variable {T : Type}

variable {a : List (Option T)} {l : List T}

theorem holds_mapM (h : Holds a 0 l) :
    (List.range l.length).mapM (readSlot a) = some l := by
  induction l using List.reverseRecOn with
  | nil => rfl
  | append_singleton l x ih =>
    have parts := holds_append.mp h
    have value := h.readSlot_getElem List.getElem?_concat_length
    rw [Nat.zero_add] at value
    rw [length_append, length_singleton, range_succ, mapM_append,
      ih parts.1]
    simp [value]

theorem holds_all {start : ℕ} (h : Holds a start l)
    (length : a.length = start + l.length) : a.drop start = l.map some := by
  refine ext_getElem? fun i => ?_
  rw [List.getElem?_drop, List.getElem?_map]
  cases found : l[i]? with
  | none =>
    have beyond := List.getElem?_eq_none_iff.mp found
    rw [List.getElem?_eq_none (by omega)]
    rfl
  | some x => exact holds_iff.mp h i x found

theorem mapM_some (l : List T) : (l.map some).mapM id = some l := by
  induction l with
  | nil => rfl
  | cons x l ih => simp [ih]

theorem iterate_leaf {heap : Heap T} {elements : ℕ}
    (array : heap[elements]? = some a) (length : a.length = l.length) (holds : Holds a 0 l)
    (rootSize : ℤ) (shift : ℕ) :
    (Node.leaf elements).iterate heap rootSize shift = some (.ok l) := by
  have all := holds_all holds (length.trans (Nat.zero_add _).symm)
  rw [drop_zero] at all
  rw [Node.iterate, array, Option.bind_some, all, mapM_some]
  rfl

theorem iterate_leaves {heap : Heap T} {elements : Fin 32 → Node} {leaves : List ℕ}
    (h : Leaves 1 (.internal elements) leaves)
    (arrays : ∀ p elements, leaves[p]? = some elements → ∃ a, heap[elements]? = some a ∧
      a.length = 32 ∧ Holds a 0 ((l.drop (32 * p)).take 32))
    (size : 32 * leaves.length ≤ l.length) (rootSize : ℤ) {n : ℕ} (le : n ≤ leaves.length) :
    (List.range n).foldl (fun yielded i =>
      Node.andThen yielded ((elements (Fin.ofNat 32 i)).iterate heap rootSize (1 - 1)))
        (some (.ok [])) = some (.ok (l.take (32 * n))) := by
  induction n with
  | zero => rfl
  | succ n ih =>
    have bound := h.length_le
    have small : n < 32 := by omega
    have index : ((Fin.ofNat 32 n : Fin 32) : ℕ) = n := Nat.mod_eq_of_lt small
    have node := h.child (Fin.ofNat 32 n)
    rw [index, pow_zero, Nat.mul_one, if_pos (Nat.lt_of_succ_le le)] at node
    obtain ⟨array, leaf, single⟩ := node
    have found : leaves[n]? = some array := by
      have first := part_getElem? 0 leaves n (Nat.one_pos : 0 < 32 ^ 0)
      rw [single, pow_zero, Nat.mul_one, Nat.add_zero] at first
      exact first.symm
    obtain ⟨a, there, length, holds⟩ := arrays n array found
    have count : ((l.drop (32 * n)).take 32).length = 32 := by
      rw [length_take, length_drop]
      omega
    rw [range_succ, foldl_append, ih (Nat.le_of_succ_le le), foldl_cons,
      foldl_nil, leaf, iterate_leaf there (length.trans count.symm) holds, Nat.mul_succ, take_add]
    rfl

namespace RadixTreeVector

variable {leaves : List ℕ} {v : RadixTreeVector} {heap : Heap T} {l : List T}

theorem Items.iterate_small
    (h : Items heap v leaves l) (more : leaves ≠ []) (small : leaves.length < 32) :
    v.root.iterate heap v.rootSize v.shift = some (.ok (l.take v.rootSize)) := by
  have root := h.shape.root
  have size := h.size
  have rootSize := h.shape.rootSize
  rw [if_neg more] at root
  have level : v.shift = 0 ∨ v.shift = 1 := by
    rcases h.shape.least with zero | least
    · exact Or.inl zero
    · by_contra deep
      rw [not_or] at deep
      have power : 32 ^ 1 ≤ 32 ^ (v.shift - 1) := Nat.pow_le_pow_right (by decide) (by omega)
      omega
  rcases level with zero | one
  · rw [zero] at root ⊢
    obtain ⟨array, node, single⟩ := root
    obtain ⟨a, there, length, holds⟩ := h.leaf 0 array (by rw [single]; rfl)
    have whole : v.rootSize = 32 := by
      rw [rootSize, single]
      rfl
    rw [Nat.mul_zero, drop_zero] at holds
    have count : (l.take 32).length = 32 := by
      rw [length_take]
      omega
    rw [node, whole]
    exact iterate_leaf there (length.trans count.symm) holds _ _
  · rw [one] at root ⊢
    obtain ⟨elements, node, -⟩ := id root
    rw [node] at root ⊢
    have digit : (child (v.rootSize : ℤ) 1 : ℕ) = leaves.length := by
      rw [child_val, pow_one, rootSize]
      omega
    rw [Node.iterate, digit]
    have all := iterate_leaves root h.leaf (by omega) v.rootSize (Nat.le_refl leaves.length)
    rw [← rootSize] at all
    exact all

theorem mapM_length {a : List (Option T)} (h : a.mapM id = some l) :
    l.length = a.length := by
  induction a generalizing l with
  | nil =>
    cases h
    rfl
  | cons x a ih =>
    rw [mapM_cons] at h
    obtain ⟨y, -, rest⟩ := Option.bind_eq_some_iff.mp h
    obtain ⟨ys, more, same⟩ := Option.bind_eq_some_iff.mp rest
    cases same
    rw [length_cons, length_cons, ih more]

variable {items : List T}

theorem andThen_eq {yielded more : Outcome (List T)}
    (h : Node.andThen yielded more = some (.ok items)) :
    ∃ before after, yielded = some (.ok before) ∧ more = some (.ok after) ∧
      before ++ after = items := by
  unfold Node.andThen at h
  split at h
  · next before =>
    obtain ⟨outcome, found, same⟩ := Option.map_eq_some_iff.mp h
    cases outcome with
    | error exn => cases same
    | ok after =>
      cases same
      exact ⟨before, after, rfl, found, rfl⟩
  · next other => exact absurd h (other items)

theorem fold_length {next : ℕ → Outcome (List T)} {bound n : ℕ}
    (each : ∀ i more, next i = some (.ok more) → more.length ≤ bound)
    (yielded : (List.range n).foldl (fun yielded i => Node.andThen yielded (next i))
      (some (.ok [])) = some (.ok items)) : items.length ≤ n * bound := by
  induction n generalizing items with
  | zero =>
    cases yielded
    exact Nat.zero_le _
  | succ n ih =>
    rw [range_succ, foldl_append, foldl_cons, foldl_nil] at yielded
    obtain ⟨before, more, earlier, found, rfl⟩ := andThen_eq yielded
    have old := ih earlier
    have new := each n more found
    rw [length_append, Nat.succ_mul]
    omega

theorem iterate_length {shift : ℕ} {node : Node}
    (h : Leaves shift node leaves)
    (arrays : ∀ r ∈ leaves, ∀ a, heap[r]? = some a → a.length = 32) (rootSize : ℤ)
    (yielded : node.iterate heap rootSize shift = some (.ok items)) :
    items.length ≤ 32 * 31 ^ shift := by
  induction shift generalizing node leaves items with
  | zero =>
    obtain ⟨array, rfl, rfl⟩ := h
    rw [Node.iterate] at yielded
    obtain ⟨values, read, same⟩ := Option.map_eq_some_iff.mp yielded
    obtain ⟨a, there, read⟩ := Option.bind_eq_some_iff.mp read
    cases same
    have length := arrays array mem_cons_self a there
    rw [mapM_length read, length]
    exact Nat.le_refl _
  | succ shift ih =>
    obtain ⟨elements, rfl, -⟩ := id h
    rw [Node.iterate, Nat.add_sub_cancel] at yielded
    have digit : (child rootSize (shift + 1) : ℕ) ≤ 31 :=
      Nat.le_of_lt_succ (child rootSize (shift + 1)).isLt
    have count : items.length ≤ child rootSize (shift + 1) * (32 * 31 ^ shift) := by
      refine fold_length (fun i more found => ?_) yielded
      have node := h.child (Fin.ofNat 32 i)
      split at node
      · refine ih node (fun r mem => arrays r ?_) found
        exact mem_of_mem_drop (mem_of_mem_take mem)
      · rw [node] at found
        cases found
    have product := Nat.mul_le_mul_right (32 * 31 ^ shift) digit
    rw [pow_succ]
    omega

theorem Items.iterate_large
    (h : Items heap v leaves l) (large : 32 ≤ leaves.length)
    (yielded : v.root.iterate heap v.rootSize v.shift = some (.ok items)) :
    items.length < v.rootSize := by
  have root := h.shape.root
  have rootSize := h.shape.rootSize
  have ne : leaves ≠ [] := ne_nil_of_length_pos (by omega)
  have arrays : ∀ r ∈ leaves, ∀ a, heap[r]? = some a → a.length = 32 := by
    intro r mem a there
    obtain ⟨p, found⟩ := mem_iff_getElem?.mp mem
    obtain ⟨b, there', length, -⟩ := h.leaf p r found
    cases there.symm.trans there'
    exact length
  rw [if_neg ne] at root
  have bound := root.length_le
  obtain ⟨shift, level⟩ : ∃ shift, v.shift = shift + 1 := by
    refine Nat.exists_eq_succ_of_ne_zero fun zero => ?_
    rw [zero, pow_zero] at bound
    omega
  rw [level] at root bound yielded
  obtain ⟨elements, node, -⟩ := id root
  rw [node] at root yielded
  rw [Node.iterate, Nat.add_sub_cancel] at yielded
  have count : items.length ≤ child v.rootSize (shift + 1) * (32 * 31 ^ shift) := by
    refine fold_length (fun i more found => ?_) yielded
    have part := root.child (Fin.ofNat 32 i)
    split at part
    · refine iterate_length part (fun r mem => arrays r ?_) v.rootSize found
      exact mem_of_mem_drop (mem_of_mem_take mem)
    · rw [part] at found
      cases found
  have pos : 0 < 32 ^ shift := Nat.pow_pos (by decide)
  have digit : (child v.rootSize (shift + 1) : ℕ) = leaves.length / 32 ^ shift % 32 := by
    have quotient : (v.rootSize : ℤ) / 32 ^ (shift + 1) =
        ((leaves.length / 32 ^ shift : ℕ) : ℤ) := by
      rw [rootSize, pow_succ', Nat.mul_comm]
      push_cast
      rw [mul_comm (leaves.length : ℤ) 32, Int.mul_ediv_mul_of_pos _ _ (by decide)]
    rw [child_val, quotient]
    omega
  rw [digit] at count
  by_cases full : leaves.length = 32 ^ (shift + 1)
  · have zero : leaves.length / 32 ^ shift % 32 = 0 := by
      rw [full, pow_succ', Nat.mul_div_cancel _ pos]
    rw [zero, Nat.zero_mul] at count
    omega
  · have least := h.shape.least
    rw [level, Nat.add_sub_cancel] at least
    have deep : shift ≠ 0 := by
      rintro rfl
      rw [Nat.zero_add, pow_one] at bound full
      omega
    have power : 31 ^ shift < 32 ^ shift := Nat.pow_lt_pow_left (by decide) deep
    have some : 0 < leaves.length / 32 ^ shift := by
      rcases least with zero | least
      · exact absurd zero (Nat.succ_ne_zero shift)
      · exact Nat.div_pos (Nat.le_of_lt least) pos
    have mod := Nat.mod_le (leaves.length / 32 ^ shift) 32
    have whole := Nat.div_mul_le_self leaves.length (32 ^ shift)
    calc items.length ≤ leaves.length / 32 ^ shift % 32 * (32 * 31 ^ shift) := count
      _ ≤ leaves.length / 32 ^ shift * (32 * 31 ^ shift) := Nat.mul_le_mul_right _ mod
      _ = 32 * (leaves.length / 32 ^ shift * 31 ^ shift) := by ring
      _ < 32 * (leaves.length / 32 ^ shift * 32 ^ shift) :=
        Nat.mul_lt_mul_of_pos_left (Nat.mul_lt_mul_of_pos_left power some) (by decide)
      _ ≤ 32 * leaves.length := Nat.mul_le_mul_left _ whole
      _ = v.rootSize := rootSize.symm

theorem few_of_values
    (h : Items heap v leaves l) (yielded : v.values heap = some (.ok l)) : l.length < 1024 := by
  have size := h.size
  have rootSize := h.shape.rootSize
  have tailSize := h.tailSize
  by_cases small : leaves.length < 32
  · omega
  · exfalso
    have none : leaves ≠ [] := by
      intro none
      rw [none] at small
      exact small (by decide)
    obtain ⟨a, array, -, holds⟩ := h.tail
    have tail := holds_mapM holds
    have root := h.shape.root
    rw [h.tail_length] at tail
    rw [if_neg none] at root
    rw [values, array, Option.bind_some, tail, root.isNull, if_neg Bool.false_ne_true] at yielded
    obtain ⟨items, after, found, last, same⟩ := andThen_eq yielded
    have few := h.iterate_large (Nat.not_lt.mp small) found
    cases last
    have length := congrArg List.length same
    rw [length_append, h.tail_length] at length
    omega

theorem values_of_few
    (h : Items heap v leaves l) (few : l.length < 1024) : v.values heap = some (.ok l) := by
  have size := h.size
  have rootSize := h.shape.rootSize
  have tailSize := h.tailSize
  obtain ⟨a, array, -, holds⟩ := h.tail
  have tail := holds_mapM holds
  rw [h.tail_length] at tail
  unfold values
  rw [array, Option.bind_some, tail]
  by_cases none : leaves = []
  · have root := h.shape.root
    rw [if_pos none] at root
    have zero : v.rootSize = 0 := by
      rw [rootSize, none]
      rfl
    have null : Node.null.isNull = true := rfl
    rw [root.1, if_pos null, zero, drop_zero]
    rfl
  · have root := h.shape.root
    have small : leaves.length < 32 := by omega
    rw [if_neg none] at root
    rw [root.isNull, if_neg Bool.false_ne_true, h.iterate_small none small]
    exact congrArg (fun items => some (Except.ok items)) (take_append_drop v.rootSize l)

/-- The iterator yields the items exactly of the vectors with fewer than 1024 of them. -/
theorem values_iff {heap : Heap T} {v : RadixTreeVector} {leaves : List ℕ} {l : List T}
    (h : Items heap v leaves l) : v.values heap = some (.ok l) ↔ l.length < 1024 :=
  ⟨few_of_values h, values_of_few h⟩

theorem values_iff_range : ∃ heap v, mcreateFromItems [] (List.range 70) = some (.ok (heap, v)) ∧
    (v.values heap = some (.ok (List.range 70)) ↔ (List.range 70).length < 1024) := by
  have start := items_mcreate ([] : Heap ℕ)
  obtain ⟨heap, v, leaves, made, items, -⟩ := start.pushAll not_mem_nil (List.range 70)
  rw [nil_append] at items
  exact ⟨heap, v, made, values_iff items⟩

theorem values_many {T : Type} {l : List T} (many : 1024 ≤ l.length) : ∃ heap v,
    mcreateFromItems [] l = some (.ok (heap, v)) ∧ v.values heap ≠ some (.ok l) := by
  have start := items_mcreate ([] : Heap T)
  obtain ⟨heap, v, leaves, made, items, -⟩ := start.pushAll not_mem_nil l
  rw [nil_append] at items
  exact ⟨heap, v, made, fun yielded => Nat.not_lt.mpr many (few_of_values items yielded)⟩

theorem values_1024 : ∃ heap v, mcreateFromItems [] (List.range 1024) = some (.ok (heap, v)) ∧
    v.values heap ≠ some (.ok (List.range 1024)) :=
  values_many (by rw [length_range])

end RadixTreeVector
end SkipPlatform.Persistent
