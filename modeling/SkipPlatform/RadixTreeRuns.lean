import SkipPlatform.RadixTreeItems

set_option autoImplicit false

/-! Runs over versions of persistent vectors: each version is a list, whatever is done to the others
that share arrays with it. -/
namespace SkipPlatform.Persistent
open List RawSlots
variable {T : Type}

structure Store (T : Type) where
  heap : Heap T
  pool : List RadixTreeVector

inductive Op (T : Type) where
  | mcreate (capacity : Int64)
  | mcreateFromItems (items : List T)
  | clone (i : ℕ)
  | push (i : ℕ) (value : T)
  | pop (i : ℕ)
  | set (i : ℕ) (index : Int64) (value : T)
  | get (i : ℕ) (index : Int64)
  | size (i : ℕ)

/-- `absent` is the answer for a version that is not there. -/
inductive Result (T : Type) where
  | done
  | item (value : T)
  | count (n : ℕ)
  | thrown
  | absent

namespace Store

def extend (s : Store T) (outcome : Outcome (Heap T × RadixTreeVector)) :
    Option (Result T × Store T) :=
  outcome.map fun outcome =>
    match outcome with
    | .error _ => (.thrown, s)
    | .ok (heap, v) => (.done, ⟨heap, s.pool ++ [v]⟩)

/-- An operation that changes version `i`. -/
def change (s : Store T) (i : ℕ) (outcome : Outcome (Result T × Heap T × RadixTreeVector)) :
    Option (Result T × Store T) :=
  outcome.map fun outcome =>
    match outcome with
    | .error _ => (.thrown, s)
    | .ok (result, heap, v) => (result, ⟨heap, s.pool.set i v⟩)

def onVersion (s : Store T) (i : ℕ) (f : RadixTreeVector → Option (Result T × Store T)) :
    Option (Result T × Store T) :=
  match s.pool[i]? with
  | none => some (.absent, s)
  | some v => f v

/-- `none` is an access to memory outside of an array. -/
def step (s : Store T) : Op T → Option (Result T × Store T)
  | .mcreate capacity =>
    if 0 ≤ capacity.toInt then s.extend (some (.ok (RadixTreeVector.mcreate s.heap)))
    else some (.thrown, s)
  | .mcreateFromItems items => s.extend (RadixTreeVector.mcreateFromItems s.heap items)
  | .clone i => s.onVersion i fun v => s.extend (v.clone s.heap)
  | .push i value => s.onVersion i fun v =>
    s.change i ((v.push s.heap value).map fun outcome => outcome.map fun next => (.done, next))
  | .pop i => s.onVersion i fun v =>
    s.change i ((v.pop s.heap).map fun outcome =>
      outcome.map fun next => (.item next.1, next.2))
  | .set i index value => s.onVersion i fun v =>
    s.change i ((v.set s.heap index value).map fun outcome =>
      outcome.map fun next => (.done, next))
  | .get i index => s.onVersion i fun v =>
    (v.get s.heap index).map fun outcome =>
      match outcome with
      | .error _ => (.thrown, s)
      | .ok value => (.item value, s)
  | .size i => s.onVersion i fun v => some (.count v.size, s)

def run (s : Store T) : List (Op T) → Option (List (Result T) × Store T)
  | [] => some ([], s)
  | op :: ops =>
    (s.step op).bind fun (result, s) => (s.run ops).map fun (results, s) => (result :: results, s)

end Store

def inside (l : List T) (index : Int64) : Option ℕ :=
  if 0 ≤ index.toInt ∧ index.toInt < l.length then some index.toInt.toNat else none

def listOn (lists : List (List T)) (i : ℕ) (f : List T → Result T × List (List T)) :
    Result T × List (List T) :=
  match lists[i]? with
  | none => (.absent, lists)
  | some l => f l

def listStep (lists : List (List T)) : Op T → Result T × List (List T)
  | .mcreate capacity => if 0 ≤ capacity.toInt then (.done, lists ++ [[]]) else (.thrown, lists)
  | .mcreateFromItems items => (.done, lists ++ [items])
  | .clone i => listOn lists i fun l => (.done, lists ++ [l])
  | .push i value => listOn lists i fun l => (.done, lists.set i (l ++ [value]))
  | .pop i => listOn lists i fun l =>
    match l.getLast? with
    | none => (.thrown, lists)
    | some value => (.item value, lists.set i l.dropLast)
  | .set i index value => listOn lists i fun l =>
    match inside l index with
    | none => (.thrown, lists)
    | some index => (.done, lists.set i (l.set index value))
  | .get i index => listOn lists i fun l =>
    match (inside l index).bind (l[·]?) with
    | none => (.thrown, lists)
    | some value => (.item value, lists)
  | .size i => listOn lists i fun l => (.count l.length, lists)

def listRun (lists : List (List T)) : List (Op T) → List (Result T) × List (List T)
  | [] => ([], lists)
  | op :: ops =>
    let (result, lists) := listStep lists op
    let (results, lists) := listRun lists ops
    (result :: results, lists)

/-- The versions are the lists, and no version writes to an array of another. -/
structure Refines (s : Store T) (lists : List (List T)) (leaves : ℕ → List ℕ) : Prop where
  length : s.pool.length = lists.length
  items : ∀ (i : ℕ) (v : RadixTreeVector) l, s.pool[i]? = some v → lists[i]? = some l →
    RadixTreeVector.Items s.heap v (leaves i) l
  apart : ∀ (i : ℕ) (v : RadixTreeVector) j, s.pool[i]? = some v → j < s.pool.length → v.tail ∉ leaves j
  tails : ∀ (i j : ℕ) (v w : RadixTreeVector), s.pool[i]? = some v → s.pool[j]? = some w → v.tail = w.tail → i = j

variable {leaves : ℕ → List ℕ} {lists : List (List T)} {s : Store T}

theorem Refines.version
    (h : Refines s lists leaves) {i : ℕ} {v : RadixTreeVector} (found : s.pool[i]? = some v) :
    ∃ l, lists[i]? = some l ∧ RadixTreeVector.Items s.heap v (leaves i) l := by
  have lt := (List.getElem?_eq_some_iff.mp found).1
  rw [h.length] at lt
  exact ⟨_, List.getElem?_eq_getElem lt, h.items i v _ found (List.getElem?_eq_getElem lt)⟩

theorem Refines.missing
    (h : Refines s lists leaves) {i : ℕ} (found : s.pool[i]? = none) : lists[i]? = none := by
  rw [List.getElem?_eq_none_iff] at found ⊢
  rw [← h.length]
  exact found

theorem Refines.change
    (h : Refines s lists leaves) {i : ℕ} {v v' : RadixTreeVector} {heap' : Heap T}
    {leaves' : List ℕ} {l' : List T} (found : s.pool[i]? = some v)
    (items : RadixTreeVector.Items heap' v' leaves' l')
    (changes : RadixTreeVector.Changes s.heap heap' v v' (leaves i) leaves') :
    Refines ⟨heap', s.pool.set i v'⟩ (lists.set i l') (Function.update leaves i leaves') := by
  have lt := (List.getElem?_eq_some_iff.mp found).1
  -- the tail of another version is an old array, other than the tail of this one
  have other : ∀ (j : ℕ) (w : RadixTreeVector), j ≠ i → s.pool[j]? = some w →
      w.tail < s.heap.length ∧ w.tail ≠ v.tail := by
    intro j w ne there
    obtain ⟨l, -, items⟩ := h.version there
    exact ⟨items.tail_lt, fun same => ne (h.tails j i w v there found same)⟩
  have old : ∀ j, j ≠ i → j < s.pool.length → ∀ r ∈ leaves j, r < s.heap.length ∧ r ≠ v.tail := by
    intro j ne below r mem
    obtain ⟨l, -, items⟩ := h.version (List.getElem?_eq_getElem below)
    exact ⟨items.leaf_lt mem, fun same => h.apart i v j found below (same ▸ mem)⟩
  refine ⟨?_, fun j w l there list => ?_, fun j w k there below => ?_,
    fun j k w w' there there' same => ?_⟩
  · rw [length_set, length_set]
    exact h.length
  · by_cases here : j = i
    · subst here
      rw [List.getElem?_set_self lt] at there
      rw [List.getElem?_set_self (h.length ▸ lt)] at list
      cases there
      cases list
      rw [Function.update_self]
      exact items
    · dsimp only at there list
      rw [List.getElem?_set_ne (Ne.symm here)] at there list
      rw [Function.update_of_ne here]
      have below := (List.getElem?_eq_some_iff.mp there).1
      refine (h.items j w l there list).congr fun r mem => ?_
      rcases mem with leaf | tail
      · obtain ⟨lt, ne⟩ := old j here below r leaf
        exact changes.kept r lt ne
      · obtain ⟨lt, ne⟩ := other j w here there
        rw [tail]
        exact changes.kept w.tail lt ne
  · dsimp only at there below
    rw [length_set] at below
    by_cases here : j = i
    · subst here
      rw [List.getElem?_set_self lt] at there
      cases there
      by_cases own : k = j
      · rw [own, Function.update_self]
        exact changes.apart
      · rw [Function.update_of_ne own]
        intro mem
        obtain ⟨lt, ne⟩ := old k own below _ mem
        rcases changes.tail with same | fresh
        · exact ne same
        · omega
    · rw [List.getElem?_set_ne (Ne.symm here)] at there
      obtain ⟨lt, ne⟩ := other j w here there
      by_cases own : k = i
      · subst own
        rw [Function.update_self]
        intro mem
        rcases changes.leaves _ mem with leaf | tail | fresh
        · exact h.apart j w k there below leaf
        · exact ne tail
        · omega
      · rw [Function.update_of_ne own]
        exact h.apart j w k there below
  · dsimp only at there there'
    by_cases first : j = i
    · subst first
      rw [List.getElem?_set_self lt] at there
      cases there
      by_cases second : k = j
      · exact second.symm
      · rw [List.getElem?_set_ne (Ne.symm second)] at there'
        obtain ⟨lt, ne⟩ := other k w' second there'
        rcases changes.tail with kept | fresh
        · exact absurd (same.symm.trans kept) ne
        · omega
    · rw [List.getElem?_set_ne (Ne.symm first)] at there
      obtain ⟨lt, ne⟩ := other j w first there
      by_cases second : k = i
      · subst second
        rw [List.getElem?_set_self (by assumption)] at there'
        cases there'
        rcases changes.tail with kept | fresh
        · exact absurd (same.trans kept) ne
        · omega
      · rw [List.getElem?_set_ne (Ne.symm second)] at there'
        exact h.tails j k w w' there there' same

theorem Refines.extend
    (h : Refines s lists leaves) {v' : RadixTreeVector} {heap' : Heap T} {leaves' : List ℕ}
    {l' : List T} (items : RadixTreeVector.Items heap' v' leaves' l')
    (kept : ∀ r, r < s.heap.length → heap'[r]? = s.heap[r]?) (fresh : s.heap.length ≤ v'.tail)
    (own : v'.tail ∉ leaves')
    (shared : ∀ r ∈ leaves', s.heap.length ≤ r ∨ ∃ j, j < s.pool.length ∧ r ∈ leaves j) :
    Refines ⟨heap', s.pool ++ [v']⟩ (lists ++ [l'])
      (Function.update leaves s.pool.length leaves') := by
  have old : ∀ j, j < s.pool.length → ∀ r ∈ leaves j, r < s.heap.length := by
    intro j below r mem
    obtain ⟨l, -, items⟩ := h.version (List.getElem?_eq_getElem below)
    exact items.leaf_lt mem
  have tails : ∀ (j : ℕ) (w : RadixTreeVector), s.pool[j]? = some w → w.tail < s.heap.length := by
    intro j w there
    obtain ⟨l, -, items⟩ := h.version there
    exact items.tail_lt
  have which : ∀ (j : ℕ) (w : RadixTreeVector), (s.pool ++ [v'])[j]? = some w →
      (j < s.pool.length ∧ s.pool[j]? = some w) ∨ (j = s.pool.length ∧ w = v') := by
    intro j w there
    rw [List.getElem?_append] at there
    split at there
    · next below => exact Or.inl ⟨below, there⟩
    · next beyond =>
      have lt := (List.getElem?_eq_some_iff.mp there).1
      rw [length_singleton] at lt
      have last : j = s.pool.length := by omega
      subst last
      rw [Nat.sub_self] at there
      cases there
      exact Or.inr ⟨rfl, rfl⟩
  refine ⟨?_, fun j w l there list => ?_, fun j w k there below => ?_,
    fun j k w w' there there' same => ?_⟩
  · rw [length_append, length_append, h.length]
    rfl
  · rcases which j w there with ⟨below, there⟩ | ⟨rfl, rfl⟩
    · rw [List.getElem?_append_left (h.length ▸ below)] at list
      rw [Function.update_of_ne (Nat.ne_of_lt below)]
      refine (h.items j w l there list).congr fun r mem => ?_
      rcases mem with leaf | tail
      · exact kept r (old j below r leaf)
      · rw [tail]
        exact kept w.tail (tails j w there)
    · rw [h.length, List.getElem?_concat_length] at list
      cases list
      rw [Function.update_self]
      exact items
  · dsimp only at below
    rw [length_append, length_singleton] at below
    by_cases last : k = s.pool.length
    · rw [last, Function.update_self]
      rcases which j w there with ⟨-, there⟩ | ⟨-, rfl⟩
      · intro mem
        have lt := tails j w there
        rcases shared _ mem with new | ⟨i, inPool, leaf⟩
        · omega
        · exact h.apart j w i there inPool leaf
      · exact own
    · rw [Function.update_of_ne last]
      have earlier : k < s.pool.length := by omega
      rcases which j w there with ⟨-, there⟩ | ⟨-, rfl⟩
      · exact h.apart j w k there earlier
      · intro mem
        have lt := old k earlier _ mem
        omega
  · rcases which j w there with ⟨-, old₁⟩ | ⟨rfl, new₁⟩
    · rcases which k w' there' with ⟨-, old₂⟩ | ⟨-, new₂⟩
      · exact h.tails j k w w' old₁ old₂ same
      · have lt := tails j w old₁
        rw [new₂] at same
        omega
    · rcases which k w' there' with ⟨-, old₂⟩ | ⟨rfl, -⟩
      · have lt := tails k w' old₂
        rw [new₁] at same
        omega
      · rfl

/-- The inputs for which an operation does what it does on lists. An index may be negative where the
size of the root cannot be subtracted from it, in a `get`, or where no leaf has it, in a `set`. -/
def Op.Safe (s : Store T) : Op T → Prop
  | .get i index => ∀ v, s.pool[i]? = some v →
      0 ≤ index.toInt ∨ (v.tailSize : ℤ) ≤ v.tailIndex index.toInt
  | .set i index _ => ∀ v, s.pool[i]? = some v →
      0 ≤ index.toInt ∨ v.rootSize ≤ 32 * position index.toInt v.shift
  | _ => True

def SafeRun : Store T → List (Op T) → Prop
  | _, [] => True
  | s, op :: ops => op.Safe s ∧ ∀ result s', s.step op = some (result, s') → SafeRun s' ops

theorem inside_some {l : List T} {index : Int64} {i : ℕ} (h : inside l index = some i) :
    index.toInt = i ∧ i < l.length := by
  unfold inside at h
  split at h
  · cases h
    omega
  · cases h

theorem inside_none {l : List T} {index : Int64} (h : inside l index = none) :
    index.toInt < 0 ∨ (l.length : ℤ) ≤ index.toInt := by
  unfold inside at h
  split at h
  · cases h
  · omega

theorem step_refines
    (h : Refines s lists leaves) (op : Op T) (safe : op.Safe s) :
    ∃ s' leaves', s.step op = some ((listStep lists op).1, s') ∧
      Refines s' (listStep lists op).2 leaves' := by
  -- an operation on a version that is not there
  have absent : ∀ (i : ℕ) (f : RadixTreeVector → Option (Result T × Store T))
      (g : List T → Result T × List (List T)),
      (∀ v l, s.pool[i]? = some v → lists[i]? = some l →
        RadixTreeVector.Items s.heap v (leaves i) l → v.tail ∉ leaves i →
          ∃ s' leaves', f v = some ((g l).1, s') ∧ Refines s' (g l).2 leaves') →
      ∃ s' leaves', s.onVersion i f = some ((listOn lists i g).1, s') ∧
        Refines s' (listOn lists i g).2 leaves' := by
    intro i f g there
    unfold Store.onVersion listOn
    cases found : s.pool[i]? with
    | none =>
      rw [h.missing found]
      exact ⟨s, leaves, rfl, h⟩
    | some v =>
      obtain ⟨l, list, items⟩ := h.version found
      rw [list]
      exact there v l found list items
        (h.apart i v i found (List.getElem?_eq_some_iff.mp found).1)
  cases op with
  | mcreate capacity =>
    rw [Store.step, listStep]
    split
    · refine ⟨_, _, rfl, h.extend (RadixTreeVector.items_mcreate s.heap) (fun r lt => ?_)
        (Nat.le_refl _) not_mem_nil fun r mem => absurd mem not_mem_nil⟩
      exact List.getElem?_append_left lt
    · exact ⟨s, leaves, rfl, h⟩
  | mcreateFromItems items =>
    have start := RadixTreeVector.items_mcreate s.heap
    obtain ⟨heap', v', leaves', made, items', changes⟩ :=
      start.pushAll not_mem_nil items
    have length : (RadixTreeVector.mcreate s.heap).1.length = s.heap.length + 1 :=
      length_append
    have tail : (RadixTreeVector.mcreate s.heap).2.tail = s.heap.length := rfl
    refine ⟨_, _, ?_, h.extend items' (fun r lt => ?_) ?_ changes.apart fun r mem => ?_⟩
    · rw [Store.step, RadixTreeVector.mcreateFromItems, made]
      rfl
    · rw [changes.kept r (by omega) (by omega)]
      exact List.getElem?_append_left lt
    · rcases changes.tail with same | fresh
      · exact Nat.le_of_eq (tail.symm.trans same.symm)
      · omega
    · rcases changes.leaves r mem with old | same | fresh
      · exact absurd old not_mem_nil
      · exact Or.inl (Nat.le_of_eq (tail.symm.trans same.symm))
      · exact Or.inl (by omega)
  | clone i =>
    refine absent i _ _ fun v l found list items apart => ?_
    obtain ⟨heap', v', made, items', tail, a, rfl⟩ := items.clone
    rw [made]
    refine ⟨_, _, rfl, h.extend items' (fun r lt => ?_) (Nat.le_of_eq tail.symm) ?_
      fun r mem => Or.inr ⟨i, (List.getElem?_eq_some_iff.mp found).1, mem⟩⟩
    · exact List.getElem?_append_left lt
    · intro mem
      exact absurd (items.leaf_lt mem) (tail ▸ Nat.lt_irrefl _)
  | push i value =>
    refine absent i _ _ fun v l found list items apart => ?_
    obtain ⟨heap', v', leaves', pushed, items', changes⟩ := items.push apart value
    rw [pushed]
    exact ⟨_, _, rfl, h.change found items' changes⟩
  | pop i =>
    refine absent i _ _ fun v l found list items apart => ?_
    rcases eq_nil_or_concat' l with rfl | ⟨l, x, rfl⟩
    · rw [items.pop_nil]
      exact ⟨s, leaves, rfl, h⟩
    · obtain ⟨heap', v', leaves', popped, items', changes⟩ := items.pop apart
      rw [popped, List.getLast?_concat, dropLast_concat]
      exact ⟨_, _, rfl, h.change found items' changes⟩
  | set i index value =>
    refine absent i _ _ fun v l found list items apart => ?_
    cases place : inside l index with
    | none =>
      have outside := inside_none place
      rw [items.size] at outside
      obtain ⟨exn, thrown⟩ := items.set_outside value outside (safe v found)
      rw [thrown]
      exact ⟨s, leaves, rfl, h⟩
    | some k =>
      obtain ⟨eq, lt⟩ := inside_some place
      obtain ⟨heap', v', leaves', done, items', changes⟩ := items.set_inside apart eq lt value
      rw [done]
      exact ⟨_, _, rfl, h.change found items' changes⟩
  | get i index =>
    refine absent i _ _ fun v l found list items apart => ?_
    cases place : inside l index with
    | none =>
      have outside := inside_none place
      rw [items.size] at outside
      rw [RadixTreeVector.get_outside outside (safe v found)]
      exact ⟨s, leaves, rfl, h⟩
    | some k =>
      obtain ⟨eq, lt⟩ := inside_some place
      have there := List.getElem?_eq_getElem lt
      rw [items.get_inside eq there, Option.bind_some, there]
      exact ⟨s, leaves, rfl, h⟩
  | size i =>
    refine absent i _ _ fun v l found list items apart => ?_
    dsimp only
    rw [items.size]
    exact ⟨s, leaves, rfl, h⟩

theorem run_refines
    (h : Refines s lists leaves) (ops : List (Op T)) (safe : SafeRun s ops) :
    ∃ s' leaves', s.run ops = some ((listRun lists ops).1, s') ∧
      Refines s' (listRun lists ops).2 leaves' := by
  induction ops generalizing s lists leaves with
  | nil => exact ⟨s, leaves, rfl, h⟩
  | cons op ops ih =>
    obtain ⟨s₁, leaves₁, first, h₁⟩ := step_refines h op safe.1
    obtain ⟨s', leaves', rest, h'⟩ := ih h₁ (safe.2 _ _ first)
    refine ⟨s', leaves', ?_, h'⟩
    rw [Store.run, first, Option.bind_some]
    dsimp only
    rw [rest]
    rfl

def Store.empty : Store T := ⟨[], []⟩

theorem refines_empty : Refines (Store.empty : Store T) [] fun _ => [] := by
  refine ⟨rfl, fun i v l found => ?_, fun i v j found => ?_, fun i j v w found => ?_⟩
  · cases found
  · cases found
  · cases found

/-- Every version of a run of safe operations is its list: the answers are those of lists, and the
versions at the end have the sizes and the items of the lists. -/
theorem run_safe (ops : List (Op T)) (safe : SafeRun Store.empty ops) :
    ∃ s', Store.empty.run ops = some ((listRun [] ops).1, s') ∧
      s'.pool.length = (listRun ([] : List (List T)) ops).2.length ∧
      ∀ (i : ℕ) (v : RadixTreeVector) l, s'.pool[i]? = some v → (listRun [] ops).2[i]? = some l →
        v.size = l.length ∧ ∀ (index : Int64) (k : ℕ) x, index.toInt = k → l[k]? = some x →
          v.get s'.heap index = some (.ok x) := by
  obtain ⟨s', leaves', done, h⟩ := run_refines refines_empty ops safe
  refine ⟨s', done, h.length, fun i v l found list => ?_⟩
  have items := h.items i v l found list
  exact ⟨items.size.symm, fun index k x eq there => items.get_inside eq there⟩

/-- A vector of 33 items, its clone with another item set, and the last items popped. -/
theorem run_safe_clone :
    ∃ s', Store.empty.run [.mcreateFromItems (List.replicate 33 0), .clone 0, .set 1 5 7, .pop 0,
        .pop 0, .get 1 32, .get 0 5, .get 0 31] =
        some ([.done, .done, .done, .item 0, .item 0, .item 0, .item 0, .thrown], s') ∧
      s'.pool.length = 2 ∧
      ∀ (i : ℕ) (v : RadixTreeVector) l, s'.pool[i]? = some v →
        [List.replicate 31 0, (List.replicate 33 0).set 5 7][i]? = some l →
        v.size = l.length ∧ ∀ (index : Int64) (k : ℕ) x, index.toInt = k → l[k]? = some x →
          v.get s'.heap index = some (.ok x) :=
  run_safe [.mcreateFromItems (List.replicate 33 0), .clone 0, .set 1 5 7, .pop 0, .pop 0,
    .get 1 32, .get 0 5, .get 0 31]
    ⟨trivial, fun _ _ _ => ⟨trivial, fun _ _ _ => ⟨fun _ _ => Or.inl (by decide), fun _ _ _ =>
      ⟨trivial, fun _ _ _ => ⟨trivial, fun _ _ _ => ⟨fun _ _ => Or.inl (by decide), fun _ _ _ =>
        ⟨fun _ _ => Or.inl (by decide), fun _ _ _ => ⟨fun _ _ => Or.inl (by decide),
          fun _ _ _ => trivial⟩⟩⟩⟩⟩⟩⟩⟩

/-- The index -1 is outside of every vector: a `get` reads before the tail, and a `set` replaces the
last item of a full leaf. -/
theorem negative_index :
    Store.empty.run [.mcreateFromItems [7], .get 0 (-1)] = (none : Option (List (Result ℕ) × _)) ∧
      ∃ s', Store.empty.run [.mcreateFromItems (List.replicate 32 0), .set 0 (-1) 7, .get 0 31] =
        some ([.done, .done, .item 7], s') :=
  ⟨rfl, _, rfl⟩

end SkipPlatform.Persistent
