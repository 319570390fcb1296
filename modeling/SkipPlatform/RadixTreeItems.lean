import SkipPlatform.RadixTreeLeaves

set_option autoImplicit false

/-! The items of a persistent vector, what its operations make of them and of the heap. -/
namespace SkipPlatform.Persistent
open List RawSlots
variable {T : Type}

namespace RadixTreeVector

/-- The tree of a vector has these leaves, and no level more than they need. -/
structure Shape (v : RadixTreeVector) (leaves : List ℕ) : Prop where
  root : if leaves = [] then v.root = .null ∧ v.shift = 0 else Leaves v.shift v.root leaves
  least : v.shift = 0 ∨ 32 ^ (v.shift - 1) < leaves.length
  rootSize : v.rootSize = 32 * leaves.length

/-- The vector has the items `l`. -/
structure Items (heap : Heap T) (v : RadixTreeVector) (leaves : List ℕ) (l : List T) : Prop where
  shape : Shape v leaves
  size : l.length = v.rootSize + v.tailSize
  tailSize : v.tailSize < 32
  leaf : ∀ p elements, leaves[p]? = some elements → ∃ a, heap[elements]? = some a ∧
    a.length = 32 ∧ Holds a 0 ((l.drop (32 * p)).take 32)
  tail : ∃ a, heap[v.tail]? = some a ∧ a.length = 32 ∧ Holds a 0 (l.drop v.rootSize)

structure Changes (heap heap' : Heap T) (v v' : RadixTreeVector) (leaves leaves' : List ℕ) :
    Prop where
  kept : ∀ r, r < heap.length → r ≠ v.tail → heap'[r]? = heap[r]?
  tail : v'.tail = v.tail ∨ heap.length ≤ v'.tail
  leaves : ∀ r ∈ leaves', r ∈ leaves ∨ r = v.tail ∨ heap.length ≤ r
  apart : v'.tail ∉ leaves'
  length : heap.length ≤ heap'.length

theorem Changes.trans {heap heap₁ heap' : Heap T} {v v₁ v' : RadixTreeVector}
    {leaves leaves₁ leaves' : List ℕ} (h : Changes heap heap₁ v v₁ leaves leaves₁)
    (h' : Changes heap₁ heap' v₁ v' leaves₁ leaves') : Changes heap heap' v v' leaves leaves' := by
  have grown := h.length
  refine ⟨fun r below other => ?_, ?_, fun r mem => ?_, h'.apart, h.length.trans h'.length⟩
  · rw [h'.kept r (Nat.lt_of_lt_of_le below grown), h.kept r below other]
    rcases h.tail with same | fresh
    · rw [same]
      exact other
    · omega
  · rcases h'.tail with same | fresh
    · rw [same]
      exact h.tail
    · exact Or.inr (grown.trans fresh)
  · rcases h'.leaves r mem with old | tail | fresh
    · exact h.leaves r old
    · rw [tail]
      exact Or.inr (h.tail)
    · exact Or.inr (Or.inr (grown.trans fresh))

variable {v : RadixTreeVector} {leaves : List ℕ} {l : List T}

theorem Items.congr {heap heap' : Heap T}
    (h : Items heap v leaves l) (same : ∀ r, r ∈ leaves ∨ r = v.tail → heap'[r]? = heap[r]?) :
    Items heap' v leaves l := by
  refine ⟨h.shape, h.size, h.tailSize, fun p elements found => ?_, ?_⟩
  · rw [same elements (Or.inl (mem_of_getElem? found))]
    exact h.leaf p elements found
  · rw [same v.tail (Or.inr rfl)]
    exact h.tail

variable {heap : Heap T}

theorem Items.tail_lt
    (h : Items heap v leaves l) : v.tail < heap.length := by
  obtain ⟨a, found, -⟩ := h.tail
  exact (List.getElem?_eq_some_iff.mp found).1

theorem Items.leaf_lt
    (h : Items heap v leaves l) {r : ℕ} (mem : r ∈ leaves) : r < heap.length := by
  obtain ⟨p, found⟩ := mem_iff_getElem?.mp mem
  obtain ⟨a, there, -⟩ := h.leaf p r found
  exact (List.getElem?_eq_some_iff.mp there).1

theorem Items.tail_length
    (h : Items heap v leaves l) : (l.drop v.rootSize).length = v.tailSize := by
  rw [length_drop, h.size, Nat.add_sub_cancel_left]

theorem part_append {l l' : List T} {p : ℕ} (le : 32 * p + 32 ≤ l.length) :
    ((l ++ l').drop (32 * p)).take 32 = (l.drop (32 * p)).take 32 := by
  rw [drop_append_of_le_length (by omega), take_append_of_le_length]
  rw [length_drop]
  omega

theorem part_set {i p : ℕ} {value : T} (apart : i < 32 * p ∨ 32 * p + 32 ≤ i) :
    ((l.set i value).drop (32 * p)).take 32 = (l.drop (32 * p)).take 32 := by
  refine ext_getElem? fun q => ?_
  by_cases lt : q < 32
  · rw [List.getElem?_take_of_lt lt, List.getElem?_take_of_lt lt, List.getElem?_drop,
      List.getElem?_drop, List.getElem?_set_ne]
    omega
  · rw [List.getElem?_take_eq_none (Nat.not_lt.mp lt), List.getElem?_take_eq_none (Nat.not_lt.mp lt)]

theorem Items.leaf_le
    (h : Items heap v leaves l) {p elements : ℕ} (found : leaves[p]? = some elements) :
    32 * p + 32 ≤ v.rootSize := by
  have lt := (List.getElem?_eq_some_iff.mp found).1
  rw [h.shape.rootSize]
  omega

theorem Shape.leaves_lt (h : Shape v leaves)
    {i : ℕ} (lt : i < v.rootSize) :
    Leaves v.shift v.root leaves ∧ position i v.shift = i / 32 ∧ i / 32 < leaves.length := by
  have size := h.rootSize
  have root := h.root
  have some : leaves ≠ [] := by
    rintro rfl
    rw [length_nil] at size
    omega
  rw [if_neg some] at root
  have bound := root.length_le
  have inside : i / 32 < leaves.length := by omega
  exact ⟨root, position_eq (Nat.lt_of_lt_of_le inside bound), inside⟩

theorem leafChild_natCast (i : ℕ) : (leafChild (i : ℤ) : ℕ) = i % 32 := by
  rw [leafChild, child_val, pow_zero, Int.ediv_one]
  omega

theorem tailIndex_eq (v : RadixTreeVector) {index : ℤ} (ge : v.rootSize ≤ index)
    (lt : index < 2 ^ 63) : v.tailIndex index = index - v.rootSize := by
  rw [tailIndex, Int.bmod_eq_of_le]
  · omega
  · omega

variable {index : Int64}

theorem Items.get_inside
    (h : Items heap v leaves l) {i : ℕ} {x : T} (eq : index.toInt = i)
    (found : l[i]? = some x) : v.get heap index = some (.ok x) := by
  have lt := (List.getElem?_eq_some_iff.mp found).1
  have size := h.size
  have bits := index.toInt_lt
  unfold get
  rw [eq] at bits ⊢
  by_cases inRoot : i < v.rootSize
  · obtain ⟨root, place, inside⟩ := h.shape.leaves_lt inRoot
    have there := List.getElem?_eq_getElem inside
    obtain ⟨a, array, -, holds⟩ := h.leaf (i / 32) _ there
    have slot : ((l.drop (32 * (i / 32))).take 32)[i % 32]? = some x := by
      rw [List.getElem?_take_of_lt (Nat.mod_lt i (by decide)), List.getElem?_drop,
        Nat.div_add_mod, found]
    have value := holds.readSlot_getElem slot
    rw [Nat.zero_add] at value
    rw [if_pos ⟨Int.natCast_nonneg i, Int.ofNat_lt.mpr inRoot⟩, root.get, place, there]
    dsimp only
    rw [array, Option.bind_some, leafChild_natCast, value]
    rfl
  · obtain ⟨a, array, -, holds⟩ := h.tail
    have slot : (l.drop v.rootSize)[i - v.rootSize]? = some x := by
      rw [List.getElem?_drop, Nat.add_sub_cancel' (Nat.not_lt.mp inRoot), found]
    have value := holds.readSlot_getElem slot
    have place := v.tailIndex_eq (Int.ofNat_le.mpr (Nat.not_lt.mp inRoot)) bits
    have inTail : v.tailIndex i < v.tailSize := by omega
    have nonneg : 0 ≤ v.tailIndex i := by omega
    have nat : (v.tailIndex i).toNat = i - v.rootSize := by omega
    rw [Nat.zero_add] at value
    rw [if_neg (by omega), if_pos inTail, if_pos nonneg, array, Option.bind_some, nat, value]
    rfl

theorem get_outside
    (outside : index.toInt < 0 ∨ (v.size : ℤ) ≤ index.toInt)
    (safe : 0 ≤ index.toInt ∨ (v.tailSize : ℤ) ≤ v.tailIndex index.toInt) :
    v.get heap index = some (.error .outOfBounds) := by
  have bits := index.toInt_lt
  have size : (v.size : ℤ) = v.rootSize + v.tailSize := rfl
  have notRoot : ¬ (0 ≤ index.toInt ∧ index.toInt < v.rootSize) := by omega
  have notTail : ¬ v.tailIndex index.toInt < v.tailSize := by
    rcases safe with nonneg | wraps
    · rw [v.tailIndex_eq (by omega) bits]
      omega
    · omega
  unfold get
  rw [if_neg notRoot, if_neg notTail]

theorem Items.set_inside
    (h : Items heap v leaves l) (apart : v.tail ∉ leaves) {i : ℕ}
    (eq : index.toInt = i) (lt : i < l.length) (value : T) :
    ∃ heap' v' leaves', v.set heap index value = some (.ok (heap', v')) ∧
      Items heap' v' leaves' (l.set i value) ∧ Changes heap heap' v v' leaves leaves' := by
  have size := h.size
  have bits := index.toInt_lt
  have tailLt := h.tail_lt
  unfold set
  rw [eq] at bits ⊢
  by_cases inRoot : i < v.rootSize
  · obtain ⟨root, place, inside⟩ := h.shape.leaves_lt inRoot
    have there := List.getElem?_eq_getElem inside
    obtain ⟨a, array, length, holds⟩ := h.leaf (i / 32) _ there
    have room := h.leaf_le there
    have slot : i % 32 < ((l.drop (32 * (i / 32))).take 32).length := by
      rw [length_take, length_drop]
      omega
    obtain ⟨a', wrote, length', holds'⟩ := holds.set slot value
    have deeper := root.set heap i value
    rw [place, there] at deeper
    obtain ⟨root', eq', leaves'⟩ := deeper
    rw [Nat.zero_add] at wrote
    rw [array, Option.bind_some, leafChild_natCast, wrote] at eq'
    have read : ∀ r, r < heap.length → (heap ++ [a'])[r]? = heap[r]? :=
      fun r below => List.getElem?_append_left below
    refine ⟨heap ++ [a'], { v with root := root' }, leaves.set (i / 32) heap.length, ?_, ?_, ?_⟩
    · rw [if_pos (Int.ofNat_lt.mpr inRoot), eq']
      rfl
    · refine ⟨⟨?_, ?_, ?_⟩, ?_, h.tailSize, fun p elements found => ?_, ?_⟩
      · rw [if_neg]
        · exact leaves'
        · rw [set_eq_nil_iff]
          exact ne_nil_of_length_pos (Nat.zero_lt_of_lt inside)
      · rw [length_set]
        exact h.shape.least
      · rw [length_set]
        exact h.shape.rootSize
      · rw [length_set]
        exact size
      · by_cases here : i / 32 = p
        · subst here
          rw [List.getElem?_set_self inside] at found
          cases found
          refine ⟨a', List.getElem?_concat_length, length'.trans length, ?_⟩
          rw [drop_set, if_neg (by omega), take_set]
          have offset : i - 32 * (i / 32) = i % 32 := by omega
          rw [offset]
          exact holds'
        · rw [List.getElem?_set_ne here] at found
          obtain ⟨b, there', length'', holds''⟩ := h.leaf p elements found
          have below := (List.getElem?_eq_some_iff.mp there').1
          refine ⟨b, (read elements below).trans there', length'', ?_⟩
          rw [part_set (by omega)]
          exact holds''
      · obtain ⟨b, there', length'', holds''⟩ := h.tail
        refine ⟨b, (read v.tail tailLt).trans there', length'', ?_⟩
        have same : (l.set i value).drop v.rootSize = l.drop v.rootSize :=
          drop_set_of_lt inRoot
        dsimp only
        rw [same]
        exact holds''
    · refine ⟨fun r below _ => read r below, Or.inl rfl, fun r mem => ?_, fun mem => ?_, ?_⟩
      · rcases mem_or_eq_of_mem_set mem with old | new
        · exact Or.inl old
        · exact Or.inr (Or.inr (Nat.le_of_eq new.symm))
      · rcases mem_or_eq_of_mem_set mem with old | new
        · exact apart old
        · exact absurd new (Nat.ne_of_lt tailLt)
      · rw [length_append]
        exact Nat.le_add_right _ _
  · obtain ⟨a, array, length, holds⟩ := h.tail
    have place := v.tailIndex_eq (Int.ofNat_le.mpr (Nat.not_lt.mp inRoot)) bits
    have inTail : v.tailIndex i < v.tailSize := by omega
    have nonneg : 0 ≤ v.tailIndex i := by omega
    have nat : (v.tailIndex i).toNat = i - v.rootSize := by omega
    have slot : i - v.rootSize < (l.drop v.rootSize).length := by
      rw [h.tail_length]
      omega
    obtain ⟨a', wrote, length', holds'⟩ := holds.set slot value
    rw [Nat.zero_add] at wrote
    have read : ∀ r, r ≠ v.tail → (heap.set v.tail a')[r]? = heap[r]? :=
      fun r other => List.getElem?_set_ne (Ne.symm other)
    refine ⟨heap.set v.tail a', v, leaves, ?_, ?_, ?_⟩
    · rw [if_neg (by omega), if_pos inTail, if_pos nonneg, array, Option.bind_some, nat, wrote]
      rfl
    · refine ⟨h.shape, ?_, h.tailSize, fun p elements found => ?_, a', ?_, length'.trans length, ?_⟩
      · rw [length_set]
        exact size
      · obtain ⟨b, there', length'', holds''⟩ := h.leaf p elements found
        have room := h.leaf_le found
        have other : elements ≠ v.tail :=
          fun same => apart (same ▸ mem_of_getElem? found)
        refine ⟨b, (read elements other).trans there', length'', ?_⟩
        rw [part_set (by omega)]
        exact holds''
      · exact List.getElem?_set_self tailLt
      · rw [drop_set, if_neg (by omega)]
        exact holds'
    · refine ⟨fun r _ other => read r other, Or.inl rfl, fun r mem => Or.inl mem, apart, ?_⟩
      rw [length_set]

theorem Items.set_outside
    (h : Items heap v leaves l) (value : T)
    (outside : index.toInt < 0 ∨ (v.size : ℤ) ≤ index.toInt)
    (safe : 0 ≤ index.toInt ∨ v.rootSize ≤ 32 * position index.toInt v.shift) :
    ∃ exn, v.set heap index value = some (.error exn) := by
  have bits := index.toInt_lt
  have size : (v.size : ℤ) = v.rootSize + v.tailSize := rfl
  unfold set
  rcases outside with negative | beyond
  · have missing : v.rootSize ≤ 32 * position index.toInt v.shift := by omega
    refine ⟨.invariantViolation, ?_⟩
    rw [if_pos (by omega)]
    have root := h.shape.root
    by_cases none : leaves = []
    · rw [if_pos none] at root
      rw [root.1]
      rfl
    · rw [if_neg none] at root
      have deeper := root.set heap index.toInt value
      rw [List.getElem?_eq_none] at deeper
      · rw [deeper]
        rfl
      · rw [h.shape.rootSize] at missing
        omega
  · refine ⟨.outOfBounds, ?_⟩
    rw [if_neg (by omega), v.tailIndex_eq (by omega) bits, if_neg (by omega)]

theorem items_mcreate (heap : Heap T) :
    Items (mcreate heap).1 (mcreate heap).2 [] ([] : List T) := by
  refine ⟨⟨⟨rfl, rfl⟩, Or.inl rfl, rfl⟩, rfl, Nat.succ_pos 31, fun p elements found => ?_, ?_⟩
  · cases found
  · exact ⟨arrayMake, List.getElem?_concat_length, length_replicate, trivial⟩

theorem Items.clone {heap : Heap T} {v : RadixTreeVector} {leaves : List ℕ} {l : List T}
    (h : Items heap v leaves l) : ∃ heap' v', v.clone heap = some (.ok (heap', v')) ∧
      Items heap' v' leaves l ∧ v'.tail = heap.length ∧ ∃ a, heap' = heap ++ [a] := by
  obtain ⟨a, array, length, holds⟩ := h.tail
  refine ⟨heap ++ [a], { v with tail := heap.length }, ?_, ?_, rfl, a, rfl⟩
  · rw [RadixTreeVector.clone, array]
    rfl
  · refine ⟨⟨h.shape.root, h.shape.least, h.shape.rootSize⟩, h.size, h.tailSize,
      fun p elements found => ?_, a, List.getElem?_concat_length, length, holds⟩
    have below := h.leaf_lt (mem_of_getElem? found)
    rw [List.getElem?_append_left below]
    exact h.leaf p elements found

theorem Shape.pushTail {v : RadixTreeVector} {leaves : List ℕ} (h : Shape v leaves) :
    ∃ v', v.pushTail = .ok v' ∧
      Shape { v' with rootSize := v'.rootSize + branchFactor } (leaves ++ [v.tail]) := by
  have size : v.rootSize + branchFactor = 32 * (leaves ++ [v.tail]).length := by
    rw [h.rootSize, length_append, length_singleton]
    rfl
  have ne : leaves ++ [v.tail] ≠ [] := append_ne_nil_of_right_ne_nil _ (cons_ne_nil _ _)
  have root := h.root
  unfold RadixTreeVector.pushTail
  by_cases none : leaves = []
  · rw [if_pos none] at root
    have null : v.root.isNull = true := by
      rw [root.1]
      rfl
    refine ⟨_, if_pos null, ?_, Or.inl root.2, size⟩
    rw [if_neg ne, root.2, none]
    exact ⟨v.tail, rfl, rfl⟩
  · rw [if_neg none] at root
    rw [root.isNull, if_neg Bool.false_ne_true]
    have bound := root.length_le
    by_cases room : v.rootSize + branchFactor ≤ branchFactor * 32 ^ v.shift
    · have room' : leaves.length + 1 ≤ 32 ^ v.shift := by
        rw [h.rootSize] at room
        change 32 * leaves.length + 32 ≤ 32 * 32 ^ v.shift at room
        omega
      obtain ⟨shift, level⟩ : ∃ shift, v.shift = shift + 1 := by
        refine Nat.exists_eq_succ_of_ne_zero fun zero => ?_
        rw [zero, pow_zero] at room'
        exact none (length_eq_zero_iff.mp (Nat.le_zero.mp (Nat.le_of_succ_le_succ room')))
      rw [level] at root room'
      have last : position (v.rootSize : ℕ) (shift + 1) = leaves.length := by
        rw [position_eq]
        · rw [h.rootSize, Nat.mul_div_cancel_left _ (by decide)]
        · rw [h.rootSize, Nat.mul_div_cancel_left _ (by decide)]
          exact room'
      obtain ⟨root', eq, leaves'⟩ := root.pushTail v.tail last
      rw [if_pos room, level, eq]
      refine ⟨_, rfl, ?_, ?_, size⟩
      · rw [if_neg ne]
        exact leaves'
      · right
        have least := h.least
        rw [length_append]
        rw [level] at least
        rcases least with zero | least
        · cases zero
        · exact Nat.lt_of_lt_of_le least (Nat.le_add_right _ _)
    · have full : leaves.length = 32 ^ v.shift := by
        rw [h.rootSize] at room
        change ¬ 32 * leaves.length + 32 ≤ 32 * 32 ^ v.shift at room
        omega
      have pos : 0 < 32 ^ v.shift := Nat.pow_pos (by decide)
      have length : (leaves ++ [v.tail]).length = 32 ^ v.shift + 1 := by
        rw [length_append, full]
        rfl
      rw [if_neg room]
      refine ⟨_, rfl, ?_, ?_, size⟩
      · rw [if_neg ne]
        refine ⟨_, rfl, ne, ?_, fun i => ?_⟩
        · rw [length, pow_succ]
          omega
        · rw [length]
          by_cases second : i = 1
          · subst second
            have rest : part v.shift (leaves ++ [v.tail]) (1 : Fin 32) = [v.tail] := by
              rw [part, Fin.val_one, Nat.one_mul, ← full, drop_left, take_of_length_le]
              rw [full]
              exact pos
            rw [if_pos (by simp), Function.update_self, rest]
            exact .branchLadder v.shift v.tail
          · rw [Function.update_of_ne second]
            by_cases first : i = 0
            · subst first
              have whole : part v.shift (leaves ++ [v.tail]) (0 : Fin 32) = leaves := by
                rw [part, Fin.val_zero, Nat.zero_mul, drop_zero, ← full, take_left]
              rw [if_pos (by simp), Function.update_self, whole]
              exact root
            · have index : 2 ≤ (i : ℕ) := by
                have notZero : (i : ℕ) ≠ 0 := fun zero => first (Fin.ext zero)
                have notOne : (i : ℕ) ≠ 1 := fun one => second (Fin.ext one)
                omega
              have product := Nat.mul_le_mul_right (32 ^ v.shift) index
              rw [if_neg (by omega), Function.update_of_ne first]
      · right
        rw [length, Nat.add_sub_cancel]
        exact Nat.lt_succ_self _

theorem Items.push {heap : Heap T} {v : RadixTreeVector} {leaves : List ℕ} {l : List T}
    (h : Items heap v leaves l) (apart : v.tail ∉ leaves) (value : T) :
    ∃ heap' v' leaves', v.push heap value = some (.ok (heap', v')) ∧
      Items heap' v' leaves' (l ++ [value]) ∧ Changes heap heap' v v' leaves leaves' := by
  have size := h.size
  have tailLt := h.tail_lt
  have tailSize := h.tailSize
  obtain ⟨a, array, length, holds⟩ := h.tail
  have last := h.tail_length
  obtain ⟨a', wrote, length', holds'⟩ := holds.concat value (by omega)
  rw [Nat.zero_add, last] at wrote
  have items : (l ++ [value]).drop v.rootSize = l.drop v.rootSize ++ [value] :=
    drop_append_of_le_length (by omega)
  have kept : ∀ r, r ≠ v.tail → (heap.set v.tail a')[r]? = heap[r]? :=
    fun r other => List.getElem?_set_ne (Ne.symm other)
  have leaf : ∀ p elements, leaves[p]? = some elements →
      ∃ a, (heap.set v.tail a')[elements]? = some a ∧ a.length = 32 ∧
        Holds a 0 (((l ++ [value]).drop (32 * p)).take 32) := by
    intro p elements found
    have room := h.leaf_le found
    have other : elements ≠ v.tail := fun same => apart (same ▸ mem_of_getElem? found)
    rw [kept elements other, part_append (by omega)]
    exact h.leaf p elements found
  have tail : (heap.set v.tail a')[v.tail]? = some a' := List.getElem?_set_self tailLt
  unfold RadixTreeVector.push
  rw [array, Option.bind_some, wrote, Option.map_some]
  by_cases full : v.tailSize + 1 = branchFactor
  · obtain ⟨v₁, pushed, shape⟩ := h.shape.pushTail
    have read : ∀ r, r < heap.length →
        (heap.set v.tail a' ++ [arrayMake])[r]? = (heap.set v.tail a')[r]? := by
      intro r below
      refine List.getElem?_append_left ?_
      rw [length_set]
      exact below
    have grown : v₁.rootSize = v.rootSize := by
      have before := h.shape.rootSize
      have after := shape.rootSize
      rw [length_append, length_singleton] at after
      change v₁.rootSize + 32 = _ at after
      omega
    refine ⟨heap.set v.tail a' ++ [arrayMake],
      { v₁ with
        rootSize := v₁.rootSize + branchFactor
        tailSize := 0
        tail := (heap.set v.tail a').length }, leaves ++ [v.tail], ?_, ?_, ?_⟩
    · dsimp only
      rw [if_pos full, pushed]
      rfl
    · refine ⟨⟨shape.root, shape.least, shape.rootSize⟩, ?_, Nat.succ_pos 31, fun p elements found => ?_,
        arrayMake, List.getElem?_concat_length, length_replicate, ?_⟩
      · rw [length_append, size, grown, Nat.add_zero, Nat.add_assoc, ← full]
        rfl
      · rw [List.getElem?_append] at found
        split at found
        · obtain ⟨b, there, rest⟩ := leaf p elements found
          have below := h.leaf_lt (mem_of_getElem? found)
          exact ⟨b, (read elements below).trans there, rest⟩
        · next beyond =>
          have first : p = leaves.length := by
            have lt := (List.getElem?_eq_some_iff.mp found).1
            rw [length_singleton] at lt
            omega
          subst first
          rw [Nat.sub_self] at found
          cases found
          refine ⟨a', (read v.tail tailLt).trans tail, length'.trans length, ?_⟩
          rw [← h.shape.rootSize, items, take_of_length_le]
          · exact holds'
          · rw [length_append, last]
            exact Nat.le_of_eq full
      · rw [drop_eq_nil_of_le]
        · exact trivial
        · rw [length_append, size, grown]
          change v.rootSize + v.tailSize + 1 ≤ v.rootSize + branchFactor
          omega
    · refine ⟨fun r below other => (read r below).trans (kept r other), ?_, fun r mem => ?_, ?_, ?_⟩
      · right
        rw [length_set]
      · rcases mem_append.mp mem with old | new
        · exact Or.inl old
        · exact Or.inr (Or.inl (mem_singleton.mp new))
      · intro mem
        rw [length_set] at mem
        rcases mem_append.mp mem with old | new
        · exact absurd (h.leaf_lt old) (Nat.lt_irrefl _)
        · exact absurd (mem_singleton.mp new) (Nat.ne_of_gt tailLt)
      · rw [length_append, length_set]
        exact Nat.le_add_right _ _
  · refine ⟨heap.set v.tail a', { v with tailSize := v.tailSize + 1 }, leaves, ?_, ?_, ?_⟩
    · dsimp only
      rw [if_neg full]
    · refine ⟨⟨h.shape.root, h.shape.least, h.shape.rootSize⟩, ?_, ?_, leaf, a', tail,
        length'.trans length, ?_⟩
      · rw [length_append, size]
        rfl
      · change v.tailSize + 1 ≠ 32 at full
        change v.tailSize + 1 < 32
        omega
      · dsimp only
        rw [items]
        exact holds'
    · refine ⟨fun r _ other => kept r other, Or.inl rfl, fun r mem => Or.inl mem, apart, ?_⟩
      rw [length_set]

theorem Items.pushAll {heap : Heap T} {v : RadixTreeVector} {leaves : List ℕ} {l : List T}
    (h : Items heap v leaves l) (apart : v.tail ∉ leaves) (items : List T) :
    ∃ heap' v' leaves', v.pushAll heap items = some (.ok (heap', v')) ∧
      Items heap' v' leaves' (l ++ items) ∧ Changes heap heap' v v' leaves leaves' := by
  induction items generalizing heap v leaves l with
  | nil =>
    refine ⟨heap, v, leaves, rfl, ?_, fun _ _ _ => rfl, Or.inl rfl, fun r mem => Or.inl mem,
      apart, Nat.le_refl _⟩
    rw [append_nil]
    exact h
  | cons x items ih =>
    obtain ⟨heap₁, v₁, leaves₁, pushed, h₁, changes₁⟩ := h.push apart x
    obtain ⟨heap', v', leaves', all, h', changes'⟩ := ih h₁ changes₁.apart
    rw [append_assoc] at h'
    refine ⟨heap', v', leaves', ?_, h', changes₁.trans changes'⟩
    rw [RadixTreeVector.pushAll, pushed]
    exact all

theorem takeSlot_eq {a : List (Option T)} {x : T} (h : Holds a 0 (l ++ [x])) :
    ∃ a', takeSlot a l.length = some (x, a') ∧ a'.length = a.length ∧ Holds a' 0 l := by
  have value := h.readSlot_getElem List.getElem?_concat_length
  rw [Nat.zero_add] at value
  refine ⟨a.set l.length none, ?_, length_set, ?_⟩
  · rw [takeSlot, value]
    rfl
  · refine (holds_append.mp h).1.congr fun i _ below => List.getElem?_set_ne ?_
    omega

theorem Shape.popTail {v : RadixTreeVector} {leaves : List ℕ} (h : Shape v leaves)
    (more : leaves ≠ []) :
    ∃ root leaf v', v.root.popTail v.shift (v.rootSize - branchFactor : ℤ) = .ok (root, leaf) ∧
      leaves.getLast? = some leaf ∧ v.nextRoot root = .ok v' ∧ Shape v' leaves.dropLast ∧
      v'.tailSize = v.tailSize ∧ v'.tail = v.tail := by
  have pos := length_pos_iff.mpr more
  have size : v.rootSize - branchFactor = 32 * leaves.dropLast.length := by
    rw [h.rootSize, length_dropLast]
    change 32 * leaves.length - 32 = _
    omega
  have root := h.root
  rw [if_neg more] at root
  have bound := root.length_le
  have index : (v.rootSize - branchFactor : ℤ) = ((32 * (leaves.length - 1) : ℕ) : ℤ) := by
    rw [h.rootSize]
    change ((32 * leaves.length : ℕ) : ℤ) - ((32 : ℕ) : ℤ) = _
    omega
  have last : position (v.rootSize - branchFactor : ℤ) v.shift + 1 = leaves.length := by
    rw [index, position_eq]
    · rw [Nat.mul_div_cancel_left _ (by decide)]
      omega
    · rw [Nat.mul_div_cancel_left _ (by decide)]
      omega
  obtain ⟨root', leaf, popped, got, rest⟩ := root.popTail last
  have length : leaves.dropLast.length = leaves.length - 1 := length_dropLast
  by_cases single : leaves.length = 1
  · rw [if_pos single] at rest
    have none : leaves.dropLast = [] := by
      rw [← length_eq_zero_iff]
      omega
    have level : v.shift = 0 := by
      rcases h.least with zero | least
      · exact zero
      · have one := Nat.one_le_pow (v.shift - 1) 32 (by decide)
        omega
    refine ⟨root', leaf, { v with root := root', rootSize := v.rootSize - branchFactor }, popped,
      got, if_neg ?_, ⟨?_, Or.inl level, size⟩, rfl, rfl⟩
    · rw [rest]
      exact fun both => both.1 rfl
    · rw [if_pos none]
      exact ⟨rest, level⟩
  · rw [if_neg single] at rest
    have ne : leaves.dropLast ≠ [] := by
      rw [← length_pos_iff]
      omega
    by_cases flat : v.rootSize - branchFactor ≤ branchFactor * 32 ^ (v.shift - 1)
    · obtain ⟨shift, level⟩ : ∃ shift, v.shift = shift + 1 := by
        refine Nat.exists_eq_succ_of_ne_zero fun zero => ?_
        rw [zero, pow_zero] at bound
        omega
      have few : leaves.dropLast.length ≤ 32 ^ shift := by
        rw [size, level, Nat.add_sub_cancel] at flat
        change 32 * leaves.dropLast.length ≤ 32 * 32 ^ shift at flat
        omega
      rw [level] at rest
      obtain ⟨elements, rfl, -⟩ := id rest
      have first := rest.child 0
      have whole : part shift leaves.dropLast (0 : Fin 32) = leaves.dropLast := by
        rw [part, Fin.val_zero, Nat.zero_mul, drop_zero, take_of_length_le few]
      rw [if_pos (by rw [Fin.val_zero, Nat.zero_mul]; omega), whole] at first
      have least := h.least
      rw [level, Nat.add_sub_cancel] at least
      refine ⟨_, leaf,
        { v with
          root := elements 0
          rootSize := v.rootSize - branchFactor
          shift := v.shift - 1 }, popped, got, if_pos ⟨Bool.false_ne_true, flat⟩, ⟨?_, ?_, size⟩,
        rfl, rfl⟩
      · rw [if_neg ne]
        change Leaves (v.shift - 1) (elements 0) leaves.dropLast
        rw [level]
        exact first
      · change v.shift - 1 = 0 ∨ 32 ^ (v.shift - 1 - 1) < leaves.dropLast.length
        rw [level, Nat.add_sub_cancel]
        cases shift with
        | zero => exact Or.inl rfl
        | succ shift =>
          right
          rcases least with zero | least
          · cases zero
          · have grow : 32 ^ (shift + 1) = 32 * 32 ^ shift := pow_succ' 32 shift
            rw [Nat.add_sub_cancel]
            omega
    · have deep : v.shift ≠ 0 := by
        intro zero
        rw [zero, pow_zero] at bound
        omega
      refine ⟨root', leaf, { v with root := root', rootSize := v.rootSize - branchFactor }, popped,
        got, if_neg fun both => flat both.2, ⟨?_, ?_, size⟩, rfl, rfl⟩
      · rw [if_neg ne]
        exact rest
      · right
        rw [size] at flat
        change ¬ 32 * leaves.dropLast.length ≤ 32 * 32 ^ (v.shift - 1) at flat
        change 32 ^ (v.shift - 1) < leaves.dropLast.length
        omega

theorem Items.pop {heap : Heap T} {v : RadixTreeVector} {leaves : List ℕ} {l : List T} {x : T}
    (h : Items heap v leaves (l ++ [x])) (apart : v.tail ∉ leaves) :
    ∃ heap' v' leaves', v.pop heap = some (.ok (x, heap', v')) ∧ Items heap' v' leaves' l ∧
      Changes heap heap' v v' leaves leaves' := by
  have size := h.size
  have tailLt := h.tail_lt
  have tailSize := h.tailSize
  rw [length_append, length_singleton] at size
  unfold RadixTreeVector.pop
  by_cases inTail : v.tailSize > 0
  · obtain ⟨a, array, length, holds⟩ := h.tail
    rw [drop_append_of_le_length (by omega)] at holds
    have last : (l.drop v.rootSize).length = v.tailSize - 1 := by
      rw [length_drop]
      omega
    obtain ⟨a', taken, length', holds'⟩ := takeSlot_eq holds
    have kept : ∀ r, r ≠ v.tail → (heap.set v.tail a')[r]? = heap[r]? :=
      fun r other => List.getElem?_set_ne (Ne.symm other)
    rw [last] at taken
    rw [if_pos inTail, array, Option.bind_some, taken]
    refine ⟨_, _, leaves, rfl, ?_, ?_⟩
    · refine ⟨⟨h.shape.root, h.shape.least, h.shape.rootSize⟩, ?_, ?_, fun p elements found => ?_,
        a', List.getElem?_set_self tailLt, length'.trans length, holds'⟩
      · change l.length = v.rootSize + (v.tailSize - 1)
        omega
      · change v.tailSize - 1 < 32
        omega
      · have room := h.leaf_le found
        have other : elements ≠ v.tail := fun same => apart (same ▸ mem_of_getElem? found)
        have items := h.leaf p elements found
        rw [part_append (by omega)] at items
        rw [kept elements other]
        exact items
    · refine ⟨fun r _ other => kept r other, Or.inl rfl, fun r mem => Or.inl mem, apart, ?_⟩
      rw [length_set]
  · have more : leaves ≠ [] := by
      rintro rfl
      have none := h.shape.rootSize
      rw [length_nil] at none
      omega
    have pos := length_pos_iff.mpr more
    have rootSize := h.shape.rootSize
    obtain ⟨root, leaf, v₁, popped, got, next, shape, -, sameTail⟩ := h.shape.popTail more
    have found : leaves[leaves.length - 1]? = some leaf := by
      rw [← List.getLast?_eq_getElem?]
      exact got
    obtain ⟨a, array, length, holds⟩ := h.leaf _ _ found
    have start : 32 * (leaves.length - 1) ≤ l.length := by omega
    have count : (l.drop (32 * (leaves.length - 1))).length = 31 := by
      rw [length_drop]
      omega
    have items : ((l ++ [x]).drop (32 * (leaves.length - 1))).take 32 =
        l.drop (32 * (leaves.length - 1)) ++ [x] := by
      rw [drop_append_of_le_length start, take_of_length_le]
      rw [length_append, count]
      exact Nat.le_refl _
    rw [items] at holds
    obtain ⟨a', taken, length', holds'⟩ := takeSlot_eq holds
    rw [count] at taken
    have taken' : takeSlot a (branchFactor - 1) = some (x, a') := taken
    have size₁ := shape.rootSize
    rw [length_dropLast] at size₁
    rw [if_neg inTail, if_pos (by omega), RadixTreeVector.popTail, popped]
    dsimp only
    rw [next]
    dsimp only
    rw [array, Option.bind_some, taken']
    refine ⟨_, _, leaves.dropLast, rfl, ?_, ?_⟩
    · refine ⟨⟨shape.root, shape.least, shape.rootSize⟩, ?_, Nat.lt_succ_self 31,
        fun p elements found' => ?_, a', List.getElem?_concat_length, length'.trans length, ?_⟩
      · change l.length = v₁.rootSize + 31
        omega
      · have old : leaves[p]? = some elements := by
          rw [List.getElem?_dropLast] at found'
          split at found'
          · exact found'
          · cases found'
        have below := (List.getElem?_eq_some_iff.mp found').1
        rw [length_dropLast] at below
        have items := h.leaf p elements old
        rw [part_append (by omega)] at items
        rw [List.getElem?_append_left (h.leaf_lt (mem_of_getElem? old))]
        exact items
      · change Holds a' 0 (l.drop v₁.rootSize)
        rw [size₁]
        exact holds'
    · refine ⟨fun r below _ => List.getElem?_append_left below, Or.inr (Nat.le_refl _),
        fun r mem => Or.inl (dropLast_subset _ mem), fun mem => ?_, ?_⟩
      · exact absurd (h.leaf_lt (dropLast_subset _ mem)) (Nat.lt_irrefl _)
      · rw [length_append]
        exact Nat.le_add_right _ _

theorem Items.pop_nil
    (h : Items heap v leaves ([] : List T)) : v.pop heap = some (.error .outOfBounds) := by
  have size := h.size
  rw [length_nil] at size
  unfold RadixTreeVector.pop
  rw [if_neg (by omega), if_neg (by omega)]

end RadixTreeVector
end SkipPlatform.Persistent
