import SkipPlatform.RadixTreeVector
import Mathlib.Tactic.Ring
import Mathlib.Tactic.Linarith
import Mathlib.Data.List.TakeDrop

set_option autoImplicit false

/-! The leaves of a tree in order, and what the operations on nodes make of them. -/
namespace SkipPlatform.Persistent
open List RawSlots
variable {T : Type}

/-- The part of the leaves under child `i` of a node at level `shift + 1`. -/
def part (shift : ℕ) (leaves : List ℕ) (i : ℕ) : List ℕ :=
  (leaves.drop (i * 32 ^ shift)).take (32 ^ shift)

/-- The arrays of the leaves of a node at level `shift`: all the parts but the last are full. -/
def Leaves : ℕ → Node → List ℕ → Prop
  | 0, node, leaves => ∃ elements, node = .leaf elements ∧ leaves = [elements]
  | shift + 1, node, leaves =>
    ∃ elements, node = .internal elements ∧ leaves ≠ [] ∧ leaves.length ≤ 32 ^ (shift + 1) ∧
      ∀ i : Fin 32, if i * 32 ^ shift < leaves.length then
        Leaves shift (elements i) (part shift leaves i) else elements i = .null

theorem part_length (shift : ℕ) (leaves : List ℕ) (i : ℕ) :
    (part shift leaves i).length = min (32 ^ shift) (leaves.length - i * 32 ^ shift) := by
  rw [part, length_take, length_drop]

theorem part_getElem? (shift : ℕ) (leaves : List ℕ) (i : ℕ) {p : ℕ} (lt : p < 32 ^ shift) :
    (part shift leaves i)[p]? = leaves[i * 32 ^ shift + p]? := by
  rw [part, List.getElem?_take_of_lt lt, List.getElem?_drop]

variable {leaves : List ℕ} {shift : ℕ}

theorem Leaves.length_le {node : Node} (h : Leaves shift node leaves) :
    leaves.length ≤ 32 ^ shift := by
  cases shift with
  | zero =>
    obtain ⟨elements, -, rfl⟩ := h
    exact Nat.le_refl _
  | succ shift =>
    obtain ⟨elements, -, -, bound, -⟩ := h
    exact bound

theorem Leaves.isNull {shift : ℕ} {node : Node} {leaves : List ℕ} (h : Leaves shift node leaves) :
    node.isNull = false := by
  cases shift with
  | zero =>
    obtain ⟨elements, rfl, -⟩ := h
    rfl
  | succ shift =>
    obtain ⟨elements, rfl, -⟩ := h
    rfl

/-- The position among the leaves of a node at level `shift`. -/
def position (index : ℤ) (shift : ℕ) : ℕ := (index / 32 % 32 ^ shift).toNat

theorem position_lt (index : ℤ) (shift : ℕ) : position index shift < 32 ^ shift := by
  have pos : (0 : ℤ) < 32 ^ shift := pow_pos (by decide) shift
  have nonneg := Int.emod_nonneg (index / 32) pos.ne'
  have lt := Int.emod_lt_of_pos (index / 32) pos
  rw [position, Int.toNat_lt nonneg]
  exact_mod_cast lt

theorem emod_mul (a : ℤ) {b : ℤ} (pos : 0 < b) : a % (b * 32) = a / b % 32 * b + a % b := by
  have low := Int.emod_nonneg a pos.ne'
  have low' := Int.emod_lt_of_pos a pos
  have high := Int.emod_nonneg (a / b) (by decide : (32 : ℤ) ≠ 0)
  have high' := Int.emod_lt_of_pos (a / b) (by decide : (0 : ℤ) < 32)
  have whole : a = a / b % 32 * b + a % b + b * 32 * (a / b / 32) := by
    have outer := Int.emod_add_mul_ediv a b
    have inner := Int.emod_add_mul_ediv (a / b) 32
    calc a = a % b + b * (a / b) := outer.symm
      _ = a % b + b * (a / b % 32 + 32 * (a / b / 32)) := by rw [inner]
      _ = a / b % 32 * b + a % b + b * 32 * (a / b / 32) := by ring
  have bound : a / b % 32 * b + a % b < b * 32 := by nlinarith
  rw [Int.emod_eq_iff (by positivity)]
  refine ⟨add_nonneg (mul_nonneg high pos.le) low, ?_, ?_⟩
  · rw [Int.natAbs_of_nonneg (by positivity)]
    exact bound
  · exact ⟨-(a / b / 32), by linarith⟩

theorem child_val (index : ℤ) (shift : ℕ) :
    (child index shift : ℕ) = (index / 32 ^ shift % 32).toNat := rfl

theorem position_succ (index : ℤ) (shift : ℕ) :
    position index (shift + 1) = child index (shift + 1) * 32 ^ shift + position index shift := by
  have pos : (0 : ℤ) < 32 ^ shift := pow_pos (by decide) shift
  have digit : index / 32 ^ (shift + 1) = index / 32 / 32 ^ shift := by
    rw [pow_succ', Int.ediv_ediv_of_nonneg (by decide)]
  have high := Int.emod_nonneg (index / 32 / 32 ^ shift) (by decide : (32 : ℤ) ≠ 0)
  have low := Int.emod_nonneg (index / 32) pos.ne'
  have unit : (32 ^ shift : ℤ).toNat = 32 ^ shift := by
    rw [Int.toNat_pow_of_nonneg (by decide)]
    rfl
  rw [child_val, digit, position, position, pow_succ, emod_mul _ pos,
    Int.toNat_add (mul_nonneg high pos.le) low, Int.toNat_mul high pos.le, unit]

theorem position_eq {index shift : ℕ} (lt : index / 32 < 32 ^ shift) :
    position index shift = index / 32 := by
  rw [position]
  have cast : (index : ℤ) / 32 % 32 ^ shift = ((index / 32 % 32 ^ shift : ℕ) : ℤ) := by
    push_cast
    rfl
  rw [cast, Int.toNat_natCast, Nat.mod_eq_of_lt lt]

theorem Leaves.child {elements : Fin 32 → Node}
    (h : Leaves (shift + 1) (.internal elements) leaves) (i : Fin 32) :
    if i * 32 ^ shift < leaves.length then Leaves shift (elements i) (part shift leaves i)
      else elements i = .null := by
  obtain ⟨elements', same, -, -, parts⟩ := h
  cases same
  exact parts i

theorem Leaves.get {shift : ℕ} {node : Node} {leaves : List ℕ} (h : Leaves shift node leaves)
    (heap : Heap T) (index : ℤ) :
    node.get heap shift index =
      match leaves[position index shift]? with
      | none => some (.error .invariantViolation)
      | some elements =>
        ((heap[elements]?).bind fun elements => readSlot elements (leafChild index)).map .ok := by
  induction shift generalizing node leaves with
  | zero =>
    obtain ⟨elements, rfl, rfl⟩ := h
    have first : position index 0 = 0 := Nat.lt_one_iff.mp (position_lt index 0)
    rw [first]
    rfl
  | succ shift ih =>
    obtain ⟨elements, rfl, -⟩ := id h
    have below := position_lt index shift
    have part := h.child (Persistent.child index (shift + 1))
    rw [Node.get, Nat.add_sub_cancel, position_succ, ← part_getElem? shift leaves _ below]
    split at part
    · exact ih part
    · next outside =>
      rw [part, List.getElem?_eq_none]
      · rfl
      · rw [part_length]
        omega

theorem Leaves.update {shift : ℕ} {elements : Fin 32 → Node} {leaves leaves' : List ℕ}
    (h : Leaves (shift + 1) (.internal elements) leaves) {i : Fin 32} {node : Node}
    (some : leaves' ≠ []) (bound : leaves'.length ≤ 32 ^ (shift + 1))
    (here : if i * 32 ^ shift < leaves'.length then Leaves shift node (part shift leaves' i)
      else node = .null)
    (others : ∀ j : Fin 32, j ≠ i → part shift leaves' j = part shift leaves j) :
    Leaves (shift + 1) (.internal (Function.update elements i node)) leaves' := by
  refine ⟨_, rfl, some, bound, fun j => ?_⟩
  by_cases same : j = i
  · subst same
    rw [Function.update_self]
    exact here
  · rw [Function.update_of_ne same, others j same]
    have old := h.child j
    have length := congrArg List.length (others j same)
    have pos : 0 < 32 ^ shift := Nat.pow_pos (by decide)
    rw [part_length, part_length] at length
    have inside : (j : ℕ) * 32 ^ shift < leaves'.length ↔ (j : ℕ) * 32 ^ shift < leaves.length := by
      omega
    rw [if_congr inside rfl rfl]
    exact old

theorem part_set_self (shift : ℕ) (leaves : List ℕ) (i p fresh : ℕ) : part shift (leaves.set (i * 32 ^ shift + p) fresh) i =
      (part shift leaves i).set p fresh := by
  rw [part, part, drop_set, if_neg (Nat.not_lt.mpr (Nat.le_add_right _ _)),
    Nat.add_sub_cancel_left, take_set]

theorem part_congr {leaves leaves' : List ℕ} {i : ℕ}
    (same : ∀ p, p < 32 ^ shift → leaves'[i * 32 ^ shift + p]? = leaves[i * 32 ^ shift + p]?) :
    part shift leaves' i = part shift leaves i := by
  refine ext_getElem? fun p => ?_
  by_cases lt : p < 32 ^ shift
  · rw [part_getElem? shift _ _ lt, part_getElem? shift _ _ lt, same p lt]
  · rw [List.getElem?_eq_none, List.getElem?_eq_none]
    · rw [part_length]
      omega
    · rw [part_length]
      omega

theorem index_ne {shift i j p q : ℕ} (ne : j ≠ i) (ltp : p < 32 ^ shift) (ltq : q < 32 ^ shift) :
    j * 32 ^ shift + q ≠ i * 32 ^ shift + p := by
  intro same
  have pos : 0 < 32 ^ shift := Nat.pow_pos (by decide)
  have digits := congrArg (fun index => index / 32 ^ shift) same
  rw [Nat.mul_comm j, Nat.mul_comm i, Nat.mul_add_div pos, Nat.mul_add_div pos,
    Nat.div_eq_of_lt ltp, Nat.div_eq_of_lt ltq] at digits
  exact ne digits

theorem Leaves.set {shift : ℕ} {node : Node} {leaves : List ℕ} (h : Leaves shift node leaves)
    (heap : Heap T) (index : ℤ) (value : T) :
    match leaves[position index shift]? with
    | none => node.set heap shift index value = some (.error .invariantViolation)
    | some elements =>
      ∃ node', (node.set heap shift index value =
        ((heap[elements]?).bind fun elements => writeSlot elements (leafChild index) value).map
          fun nextElements => .ok (heap ++ [nextElements], node')) ∧
        Leaves shift node' (leaves.set (position index shift) heap.length) := by
  induction shift generalizing node leaves with
  | zero =>
    obtain ⟨elements, rfl, rfl⟩ := h
    have first : position index 0 = 0 := Nat.lt_one_iff.mp (position_lt index 0)
    rw [first]
    exact ⟨_, rfl, _, rfl, rfl⟩
  | succ shift ih =>
    obtain ⟨elements, rfl, ne, bound, -⟩ := id h
    have below := position_lt index shift
    have old := h.child (Persistent.child index (shift + 1))
    rw [position_succ, ← part_getElem? shift leaves _ below]
    rw [Node.set, Nat.add_sub_cancel]
    split at old
    · next inside =>
      have deeper := ih old
      cases found : (part shift leaves (Persistent.child index (shift + 1)))[position index
          shift]? with
      | none =>
        rw [found] at deeper
        dsimp only at deeper ⊢
        rw [deeper]
        rfl
      | some array =>
        rw [found] at deeper
        obtain ⟨node', eq, leaves'⟩ := deeper
        refine ⟨.internal (Function.update elements (Persistent.child index (shift + 1)) node'),
          ?_, ?_⟩
        · rw [eq, Option.map_map]
          rfl
        · refine h.update ?_ ?_ ?_ fun j other => ?_
          · rw [ne_eq, set_eq_nil_iff]
            exact ne
          · rw [length_set]
            exact bound
          · rw [length_set, if_pos inside, part_set_self]
            exact leaves'
          · refine part_congr fun q lt => List.getElem?_set_ne ?_
            exact (index_ne (fun same => other (Fin.ext same)) below lt).symm
    · next outside =>
      have missing : (part shift leaves (Persistent.child index (shift + 1)))[position index
          shift]? = none := by
        rw [List.getElem?_eq_none]
        rw [part_length]
        omega
      rw [missing, old]
      rfl

theorem Leaves.branchLadder (shift tail : ℕ) :
    Leaves shift (Node.branchLadder shift tail) [tail] := by
  induction shift with
  | zero => exact ⟨tail, rfl, rfl⟩
  | succ shift ih =>
    have pos : 0 < 32 ^ shift := Nat.pow_pos (by decide)
    refine ⟨_, rfl, cons_ne_nil _ _, Nat.one_le_pow _ _ (by decide), fun i => ?_⟩
    by_cases first : i = 0
    · subst first
      have whole : part shift [tail] (0 : Fin 32) = [tail] := by
        rw [part, Fin.val_zero, Nat.zero_mul, drop_zero, take_of_length_le]
        exact pos
      rw [if_pos (by simp), Function.update_self, whole]
      exact ih
    · have after : ¬ (i : ℕ) * 32 ^ shift < [tail].length := by
        have index : 0 < (i : ℕ) := Nat.pos_of_ne_zero fun zero => first (Fin.ext zero)
        have product := Nat.mul_pos index pos
        rw [length_singleton]
        omega
      rw [if_neg after, Function.update_of_ne first]

theorem part_concat_of_ne {tail i p j : ℕ} (ne : j ≠ i)
    (lt : p < 32 ^ shift) (last : leaves.length = i * 32 ^ shift + p) :
    part shift (leaves ++ [tail]) j = part shift leaves j := by
  refine part_congr fun q below => ?_
  have apart := index_ne ne lt below
  rw [← last] at apart
  rcases Nat.lt_or_gt_of_ne apart with before | after
  · exact List.getElem?_append_left before
  · rw [List.getElem?_eq_none (Nat.le_of_lt after), List.getElem?_eq_none]
    rw [length_append]
    exact after

theorem part_concat_self {tail i p : ℕ} (lt : p < 32 ^ shift)
    (last : leaves.length = i * 32 ^ shift + p) :
    part shift (leaves ++ [tail]) i = part shift leaves i ++ [tail] := by
  rw [part, part, drop_append_of_le_length (by omega), take_of_length_le,
    take_of_length_le]
  · rw [length_drop]
    omega
  · rw [length_append, length_drop, length_singleton]
    omega

theorem Leaves.pushTail {shift : ℕ} {node : Node} {leaves : List ℕ}
    (h : Leaves (shift + 1) node leaves) {index : ℤ} (tail : ℕ)
    (last : position index (shift + 1) = leaves.length) :
    ∃ node', node.pushTail (shift + 1) index tail = .ok node' ∧
      Leaves (shift + 1) node' (leaves ++ [tail]) := by
  induction shift generalizing node leaves with
  | zero =>
    obtain ⟨elements, rfl, ne, bound, -⟩ := id h
    have digit := position_succ index 0
    have below := position_lt index 0
    rw [last] at digit
    rw [Node.pushTail, if_pos rfl]
    refine ⟨_, rfl, h.update ?_ ?_ ?_ fun j other => ?_⟩
    · exact append_ne_nil_of_left_ne_nil ne _
    · have lt := position_lt index 1
      rw [last] at lt
      rw [length_append]
      exact lt
    · rw [if_pos]
      · rw [part_concat_self below digit]
        refine ⟨tail, rfl, ?_⟩
        rw [append_eq_singleton_iff]
        left
        refine ⟨?_, rfl⟩
        rw [← length_eq_zero_iff, part_length]
        omega
      · rw [length_append, length_singleton]
        omega
    · exact part_concat_of_ne (fun same => other (Fin.ext same)) below digit
  | succ shift ih =>
    obtain ⟨elements, rfl, ne, bound, -⟩ := id h
    have digit := position_succ index (shift + 1)
    have below := position_lt index (shift + 1)
    have room := position_lt index (shift + 1 + 1)
    rw [last] at digit room
    have old := h.child (Persistent.child index (shift + 1 + 1))
    have ne' : leaves ++ [tail] ≠ [] := append_ne_nil_of_left_ne_nil ne _
    have bound' : (leaves ++ [tail]).length ≤ 32 ^ (shift + 1 + 1) := by
      rw [length_append]
      exact room
    have inside : (Persistent.child index (shift + 1 + 1) : ℕ) * 32 ^ (shift + 1) <
        (leaves ++ [tail]).length := by
      rw [length_append, length_singleton]
      omega
    rw [Node.pushTail, Nat.add_sub_cancel, if_neg (Nat.succ_ne_zero shift)]
    split at old
    · next present =>
      -- the child has leaves and room for one more
      have last' : position index (shift + 1) =
          (part (shift + 1) leaves (Persistent.child index (shift + 1 + 1))).length := by
        rw [part_length]
        omega
      obtain ⟨node', eq, leaves'⟩ := ih old last'
      rw [old.isNull, if_neg Bool.false_ne_true, eq]
      refine ⟨_, rfl, h.update ne' bound' ?_ fun j other => ?_⟩
      · rw [if_pos inside, part_concat_self below digit]
        exact leaves'
      · exact part_concat_of_ne (fun same => other (Fin.ext same)) below digit
    · next absent =>
      have null : Node.null.isNull = true := rfl
      rw [old, if_pos null]
      refine ⟨_, rfl, h.update ne' bound' ?_ fun j other => ?_⟩
      · have none : part (shift + 1) leaves (Persistent.child index (shift + 1 + 1)) = [] := by
          rw [← length_eq_zero_iff, part_length]
          omega
        rw [if_pos inside, part_concat_self below digit, none]
        exact .branchLadder (shift + 1) tail
      · exact part_concat_of_ne (fun same => other (Fin.ext same)) below digit

theorem part_dropLast_of_ne {i p j : ℕ} (ne : j ≠ i)
    (lt : p < 32 ^ shift) (last : leaves.length = i * 32 ^ shift + p + 1) :
    part shift leaves.dropLast j = part shift leaves j := by
  refine part_congr fun q below => ?_
  have apart := index_ne ne lt below
  rw [List.getElem?_dropLast]
  split
  · rfl
  · rw [List.getElem?_eq_none]
    omega

theorem part_dropLast_self {i p : ℕ} (lt : p < 32 ^ shift)
    (last : leaves.length = i * 32 ^ shift + p + 1) :
    part shift leaves.dropLast i = (part shift leaves i).dropLast := by
  rw [part, part, take_of_length_le, take_of_length_le,
    dropLast_drop_eq_drop_dropLast]
  · rw [length_drop]
    omega
  · rw [length_drop, length_dropLast]
    omega

theorem part_getLast? {i p : ℕ} (lt : p < 32 ^ shift)
    (last : leaves.length = i * 32 ^ shift + p + 1) :
    (part shift leaves i).getLast? = leaves.getLast? := by
  rw [List.getLast?_eq_getElem?, List.getLast?_eq_getElem?, part_length]
  have inner : min (32 ^ shift) (leaves.length - i * 32 ^ shift) - 1 = p := by omega
  rw [inner, part_getElem? shift leaves i lt, last, Nat.add_sub_cancel]

theorem Leaves.popTail {shift : ℕ} {node : Node} {leaves : List ℕ} (h : Leaves shift node leaves)
    {index : ℤ} (last : position index shift + 1 = leaves.length) :
    ∃ node' tail, node.popTail shift index = .ok (node', tail) ∧ leaves.getLast? = some tail ∧
      if leaves.length = 1 then node' = .null else Leaves shift node' leaves.dropLast := by
  induction shift generalizing node leaves with
  | zero =>
    obtain ⟨elements, rfl, rfl⟩ := h
    exact ⟨.null, elements, rfl, rfl, rfl⟩
  | succ shift ih =>
    obtain ⟨elements, rfl, ne, bound, -⟩ := id h
    have digit := position_succ index shift
    have below := position_lt index shift
    have old := h.child (Persistent.child index (shift + 1))
    have whole : leaves.length = (Persistent.child index (shift + 1) : ℕ) * 32 ^ shift +
        position index shift + 1 := by rw [← last, digit]
    rw [if_pos (by omega)] at old
    have last' : position index shift + 1 =
        (part shift leaves (Persistent.child index (shift + 1))).length := by
      rw [part_length]
      omega
    obtain ⟨node', tail, eq, got, rest⟩ := ih old last'
    rw [part_getLast? below whole] at got
    rw [Node.popTail, Nat.add_sub_cancel, eq]
    by_cases single : leaves.length = 1
    · -- the whole node has one leaf
      have product : (Persistent.child index (shift + 1) : ℕ) * 32 ^ shift = 0 := by omega
      have pos : 0 < 32 ^ shift := Nat.pow_pos (by decide)
      have zero : Persistent.child index (shift + 1) = 0 :=
        Fin.ext ((Nat.mul_eq_zero.mp product).resolve_right pos.ne')
      rw [if_pos (by omega)] at rest
      have gone : Persistent.child index (shift + 1) = 0 ∧ node'.isNull = true :=
        ⟨zero, rest ▸ rfl⟩
      refine ⟨node', tail, ?_, got, ?_⟩
      · exact congrArg Except.ok (if_pos gone)
      · rw [if_pos single]
        exact rest
    · have kept : ¬ (Persistent.child index (shift + 1) = 0 ∧ node'.isNull = true) := by
        rintro ⟨zero, null⟩
        rw [zero, Fin.val_zero, Nat.zero_mul, Nat.zero_add] at whole
        rw [if_neg (by omega)] at rest
        rw [rest.isNull] at null
        cases null
      refine ⟨_, tail, congrArg Except.ok (if_neg kept), got, ?_⟩
      rw [if_neg single]
      refine h.update ?_ ?_ ?_ fun j other => ?_
      · rw [← length_pos_iff, length_dropLast]
        have pos := length_pos_iff.mpr ne
        omega
      · rw [length_dropLast]
        omega
      · rw [length_dropLast, part_dropLast_self below whole]
        split at rest
        · next alone =>
          rw [if_neg (by omega)]
          exact rest
        · next more =>
          rw [if_pos (by omega)]
          exact rest
      · exact part_dropLast_of_ne (fun same => other (Fin.ext same)) below whole

end SkipPlatform.Persistent
