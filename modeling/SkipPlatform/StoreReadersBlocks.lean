import Mathlib.Data.List.Basic
import SkipPlatform.StoreReaders

set_option autoImplicit false
set_option linter.unusedSectionVars false

namespace SkipPlatform.StoreReaders
open List
variable {D K : Type} [LinearOrder D] [LinearOrder K]

abbrev Ascending (xs : List (ArrowKey D K)) : Prop := xs.Pairwise (· < ·)

/-- `pre` and `post` are the two sides of the position where `key` belongs. -/
structure Cut (key : ArrowKey D K) (pre post : List (ArrowKey D K)) : Prop where
  below : ∀ x ∈ pre, x < key
  above : ∀ x ∈ post, key ≤ x

theorem Cut.lookup {key : ArrowKey D K} {pre post : List (ArrowKey D K)} (h : Cut key pre post)
    (hs : Ascending (pre ++ post)) :
    (pre ++ post)[pre.length]? = some key ↔ key ∈ pre ++ post := by
  rw [List.getElem?_append_right le_rfl, Nat.sub_self]
  cases post with
  | nil =>
    have hn : key ∉ pre := fun hk => lt_irrefl _ (h.below key hk)
    simp [hn]
  | cons y ys =>
    have hn : key ∉ pre := fun hk => lt_irrefl _ (h.below key hk)
    have hy : key ≤ y := h.above y mem_cons_self
    have hys : ∀ z ∈ ys, y < z := (pairwise_cons.mp (pairwise_append.mp hs).2.1).1
    simp only [List.getElem?_cons_zero, Option.some.injEq, mem_append, hn, false_or,
      mem_cons]
    constructor
    · exact fun he => Or.inl he.symm
    · rintro (he | hk)
      · exact he.symm
      · exact absurd (hys key hk) hy.not_gt

theorem insertIdx_length {α : Type} (x : α) (pre post : List α) :
    (pre ++ post).insertIdx pre.length x = pre ++ x :: post := by
  induction pre with
  | nil => rfl
  | cons y ys ih => simpa using ih

theorem Cut.insert_ascending {key : ArrowKey D K} {pre post : List (ArrowKey D K)}
    (h : Cut key pre post) (hs : Ascending (pre ++ post)) (hk : key ∉ pre ++ post) :
    Ascending (pre ++ key :: post) := by
  obtain ⟨hpre, hpost, hc⟩ := pairwise_append.mp hs
  refine pairwise_append.mpr ⟨hpre, pairwise_cons.mpr ⟨?_, hpost⟩, ?_⟩
  · intro y hy
    refine lt_of_le_of_ne (h.above y hy) ?_
    rintro rfl
    exact hk (mem_append_right _ hy)
  · intro x hx y hy
    rcases mem_cons.mp hy with rfl | hy
    · exact h.below x hx
    · exact hc x hx y hy

theorem lowerBoundFrom_cut (values : Block D K) (key : ArrowKey D K) (lo hi : ℕ)
    (h : hi ≤ values.length) (hs : Ascending values) (hle : lo ≤ hi)
    (hlo : ∀ x ∈ values.take lo, x < key) (hhi : ∀ x ∈ values.drop hi, key ≤ x) :
    lowerBoundFrom values key lo hi h ≤ values.length ∧
      Cut key (values.take (lowerBoundFrom values key lo hi h))
        (values.drop (lowerBoundFrom values key lo hi h)) := by
  fun_induction lowerBoundFrom values key lo hi h with
  | case1 lo hi h hlt hmid ih =>
    refine ih (by omega) ?_ hhi
    intro x hx
    have hb : (lo + hi) / 2 < values.length := by omega
    rw [take_succ_eq_append_getElem hb, mem_append, mem_singleton] at hx
    have hsplit := hs
    rw [← take_append_drop ((lo + hi) / 2) values, drop_eq_getElem_cons hb] at hsplit
    rcases hx with hx | rfl
    · exact ((pairwise_append.mp hsplit).2.2 x hx _ mem_cons_self).trans hmid
    · exact hmid
  | case2 lo hi h hlt hmid ih =>
    refine ih (by omega) hlo ?_
    intro x hx
    have hb : (lo + hi) / 2 < values.length := by omega
    have hsplit := hs
    rw [← take_append_drop ((lo + hi) / 2) values, drop_eq_getElem_cons hb] at hsplit
    rw [drop_eq_getElem_cons hb] at hx
    rcases mem_cons.mp hx with rfl | hx
    · exact not_lt.mp hmid
    · exact (not_lt.mp hmid).trans
        ((pairwise_cons.mp (pairwise_append.mp hsplit).2.1).1 x hx).le
  | case3 lo hi h hlt =>
    have he : lo = hi := by omega
    subst he
    exact ⟨h, hlo, hhi⟩

theorem lowerBound_cut (values : Block D K) (key : ArrowKey D K) (hs : Ascending values) :
    ∃ pre post, values = pre ++ post ∧ pre.length = lowerBound values key ∧ Cut key pre post := by
  obtain ⟨hle, hc⟩ := lowerBoundFrom_cut values key 0 values.length le_rfl hs (Nat.zero_le _)
    (by simp) (by simp)
  exact ⟨_, _, (take_append_drop _ values).symm, length_take_of_le hle, hc⟩

theorem arrayIndex_cut (values : List (ArrowKey D K)) (key : ArrowKey D K)
    (hs : Ascending values) :
    ∃ pre post, values = pre ++ post ∧ pre.length = DependencyReaders.arrayIndex key values ∧
      Cut key pre post := by
  induction values with
  | nil => exact ⟨[], [], rfl, rfl, ⟨by simp, by simp⟩⟩
  | cons v vs ih =>
    obtain ⟨hv, hvs⟩ := pairwise_cons.mp hs
    by_cases hlt : v < key
    · obtain ⟨pre, post, he, hlen, hc⟩ := ih hvs
      refine ⟨v :: pre, post, by rw [he]; rfl, ?_, ?_, hc.above⟩
      · simp [DependencyReaders.arrayIndex, hlt, hlen]
      · intro x hx
        rcases mem_cons.mp hx with rfl | hx
        · exact hlt
        · exact hc.below x hx
    · refine ⟨[], v :: vs, rfl, ?_, by simp, ?_⟩
      · simp [DependencyReaders.arrayIndex, hlt]
      · intro x hx
        rcases mem_cons.mp hx with rfl | hx
        · exact not_lt.mp hlt
        · exact (not_lt.mp hlt).trans (hv x hx).le

/-- The entries of a block index: every block is filed under its own first reader,
holds at most 64 readers, and the blocks follow each other in order. -/
structure BlocksOk (es : List (Entry D K)) : Prop where
  first : ∀ e ∈ es, e.2.head? = some e.1
  small : ∀ e ∈ es, e.2.length ≤ 64
  ascending : Ascending (es.flatMap Prod.snd)

variable {es : List (Entry D K)}

theorem BlocksOk.first_mem (h : BlocksOk es) {e : Entry D K}
    (he : e ∈ es) : e.1 ∈ e.2 := mem_of_head? (h.first e he)

theorem BlocksOk.first_le (h : BlocksOk es) {e : Entry D K}
    (he : e ∈ es) {x : ArrowKey D K} (hx : x ∈ e.2) : e.1 ≤ x := by
  have hp := (pairwise_flatMap.mp h.ascending).1 e he
  have hf := h.first e he
  cases hv : e.2 with
  | nil => rw [hv] at hx; cases hx
  | cons v vs =>
    rw [hv] at hf hx hp
    cases hf
    rcases mem_cons.mp hx with rfl | hx
    · exact le_rfl
    · exact ((pairwise_cons.mp hp).1 x hx).le

theorem BlocksOk.keys_ascending (h : BlocksOk es) :
    es.Pairwise (fun a b => a.1 < b.1) := by
  refine ((pairwise_flatMap.mp h.ascending).2).imp_of_mem ?_
  intro a b ha hb hab
  exact hab _ (h.first_mem ha) _ (h.first_mem hb)

def entry : Block D K → List (Entry D K)
  | [] => []
  | v :: vs => [(v, v :: vs)]

theorem flatMap_entry (vs : Block D K) : (entry vs).flatMap Prod.snd = vs := by
  cases vs <;> simp [entry]

theorem entry_ok {vs : Block D K} {e : Entry D K} (he : e ∈ entry vs) :
    e.2 = vs ∧ vs.head? = some e.1 := by
  cases vs with
  | nil => cases he
  | cons v vs =>
    rcases mem_singleton.mp he with rfl
    exact ⟨rfl, rfl⟩

theorem mem_indexBlock (m : SortedMap (ArrowKey D K) (Block D K)) (vs : Block D K)
    (x : Entry D K) :
    x ∈ (indexBlock m vs).items ↔ x ∈ entry vs ∨ vs.head? ≠ some x.1 ∧ x ∈ m.items := by
  cases vs with
  | nil => simp [indexBlock, entry]
  | cons v vs =>
    simp only [indexBlock, SortedMap.mem_items_set, entry, mem_singleton, List.head?_cons,
      ne_eq, Option.some.injEq]
    exact or_congr_right (and_congr_left' ⟨fun h he => h he.symm, fun h he => h he.symm⟩)

theorem reindex (m : SortedMap (ArrowKey D K) (Block D K)) (pre post : List (Entry D K))
    (vs : Block D K) (n : ℕ) (hok : BlocksOk (pre ++ post))
    (hm : ∀ x : Entry D K, vs.head? ≠ some x.1 → (x ∈ m.items ↔ x ∈ pre ++ post))
    (hs : Ascending (pre.flatMap Prod.snd ++ vs ++ post.flatMap Prod.snd))
    (hn : 0 < n) (hlen : n ≤ 64) (hdrop : vs.length ≤ n + 64) :
    ∃ new : List (Entry D K), BlocksOk (pre ++ new ++ post) ∧ new.flatMap Prod.snd = vs ∧
      (if vs.length ≤ 64 then indexBlock m vs
        else indexBlock (indexBlock m (vs.take n)) (vs.drop n)).items = pre ++ new ++ post := by
  have build : ∀ new : List (Entry D K), new.flatMap Prod.snd = vs →
      (∀ e ∈ new, e.2.head? = some e.1) → (∀ e ∈ new, e.2.length ≤ 64) →
      BlocksOk (pre ++ new ++ post) := by
    intro new hf hfirst hsmall
    refine ⟨?_, ?_, by simpa only [flatMap_append, hf] using hs⟩
    · intro e he
      rw [mem_append, mem_append] at he
      rcases he with (he | he) | he
      · exact hok.first e (mem_append_left _ he)
      · exact hfirst e he
      · exact hok.first e (mem_append_right _ he)
    · intro e he
      rw [mem_append, mem_append] at he
      rcases he with (he | he) | he
      · exact hok.small e (mem_append_left _ he)
      · exact hsmall e he
      · exact hok.small e (mem_append_right _ he)
  have apart : ∀ x ∈ pre ++ post, x.1 ∉ vs := by
    intro x hx hv
    obtain ⟨hpv, _, hall⟩ := pairwise_append.mp hs
    have hmem := hok.first_mem hx
    rcases mem_append.mp hx with hx | hx
    · exact lt_irrefl _ ((pairwise_append.mp hpv).2.2 x.1
        (mem_flatMap.mpr ⟨x, hx, hmem⟩) x.1 hv)
    · exact lt_irrefl _ (hall x.1 (mem_append_right _ hv) x.1
        (mem_flatMap.mpr ⟨x, hx, hmem⟩))
  have outside : ∀ x ∈ pre ++ post, vs.head? ≠ some x.1 :=
    fun x hx he => apart x hx (mem_of_head? he)
  by_cases hle : vs.length ≤ 64
  · have hfirst : ∀ e ∈ entry vs, e.2.head? = some e.1 := by
      intro e he
      obtain ⟨h1, h2⟩ := entry_ok he
      rw [h1, h2]
    have hsmall : ∀ e ∈ entry vs, e.2.length ≤ 64 := by
      intro e he
      rw [(entry_ok he).1]
      exact hle
    have hok' := build _ (flatMap_entry vs) hfirst hsmall
    refine ⟨entry vs, hok', flatMap_entry vs, ?_⟩
    rw [if_pos hle]
    refine SortedMap.items_eq_of_mem hok'.keys_ascending ?_
    intro x
    rw [mem_indexBlock]
    constructor
    · rintro (hx | ⟨hx, hx'⟩)
      · simp [hx]
      · have := (hm x hx).mp hx'
        simp only [mem_append] at this ⊢
        tauto
    · intro hx
      by_cases he : x ∈ entry vs
      · exact Or.inl he
      · have hx' : x ∈ pre ++ post := by
          simp only [mem_append] at hx ⊢
          tauto
        exact Or.inr ⟨outside x hx', (hm x (outside x hx')).mpr hx'⟩
  · have hnew : (entry (vs.take n) ++ entry (vs.drop n)).flatMap Prod.snd = vs := by
      rw [flatMap_append, flatMap_entry, flatMap_entry, take_append_drop]
    have hfirst : ∀ e ∈ entry (vs.take n) ++ entry (vs.drop n), e.2.head? = some e.1 := by
      intro e he
      rcases mem_append.mp he with he | he <;>
        · obtain ⟨h1, h2⟩ := entry_ok he
          rw [h1, h2]
    have hsmall : ∀ e ∈ entry (vs.take n) ++ entry (vs.drop n), e.2.length ≤ 64 := by
      intro e he
      rcases mem_append.mp he with he | he
      · rw [(entry_ok he).1, length_take]
        omega
      · rw [(entry_ok he).1, length_drop]
        omega
    have hok' := build _ hnew hfirst hsmall
    refine ⟨_, hok', hnew, ?_⟩
    rw [if_neg hle]
    refine SortedMap.items_eq_of_mem hok'.keys_ascending ?_
    have headTake : (vs.take n).head? = vs.head? := by
      rw [List.head?_take, if_neg (by omega)]
    have dropMem : ∀ x : ArrowKey D K, (vs.drop n).head? = some x → x ∈ vs.drop n :=
      fun x hx => mem_of_head? hx
    intro x
    rw [mem_indexBlock, mem_indexBlock, headTake]
    constructor
    · rintro (hx | ⟨_, hx | ⟨hx, hx'⟩⟩)
      · simp [hx]
      · simp [hx]
      · have := (hm x hx).mp hx'
        simp only [mem_append] at this ⊢
        tauto
    · intro hx
      by_cases hd : x ∈ entry (vs.drop n)
      · exact Or.inl hd
      · by_cases ht : x ∈ entry (vs.take n)
        · refine Or.inr ⟨?_, Or.inl ht⟩
          intro he
          obtain ⟨_, h2⟩ := entry_ok ht
          have hp := (pairwise_append.mp hs).1
          have hv := (pairwise_append.mp hp).2.1
          rw [← take_append_drop n vs] at hv
          exact lt_irrefl _ ((pairwise_append.mp hv).2.2 x.1 (mem_of_head? h2) x.1
            (dropMem _ he))
        · have hx' : x ∈ pre ++ post := by
            simp only [mem_append] at hx ⊢
            tauto
          refine Or.inr ⟨?_, Or.inr ⟨outside x hx', (hm x (outside x hx')).mpr hx'⟩⟩
          intro he
          exact apart x hx' (drop_subset n vs (dropMem _ he))

namespace ReaderBlockSet

variable (key : ArrowKey D K)

variable (t : SortedTree (ArrowKey D K) (Block D K))

theorem blockForLoop_spec
    (ht : t.Ordered) (previous : Option (Entry D K)) :
    ((∀ e ∈ t.items, key < e.1) ∧ blockForLoop key t previous = previous) ∨
      ∃ pre e post, t.items = pre ++ e :: post ∧ blockForLoop key t previous = some e ∧
        e.1 ≤ key ∧ ∀ e' ∈ post, key < e'.1 := by
  induction t generalizing previous with
  | nil => exact Or.inl ⟨by simp [SortedTree.items], rfl⟩
  | node n h k v l r ihl ihr =>
    obtain ⟨hl, hr, hlk, hkr⟩ := SortedTree.ordered_node.mp ht
    simp only [blockForLoop, SortedTree.items]
    by_cases hk : key < k
    · rw [if_pos hk]
      have hright : ∀ e ∈ r.items, key < e.1 := fun e he => hk.trans (hkr e he)
      rcases ihl hl previous with ⟨hall, he⟩ | ⟨pre, e, post, hi, he, hle, hpost⟩
      · refine Or.inl ⟨?_, he⟩
        intro e he
        rcases mem_append.mp he with he | he
        · exact hall e he
        · rcases mem_cons.mp he with rfl | he
          · exact hk
          · exact hright e he
      · refine Or.inr ⟨pre, e, post ++ (k, v) :: r.items, by simp [hi], he, hle, ?_⟩
        intro e' he'
        rcases mem_append.mp he' with he' | he'
        · exact hpost e' he'
        · rcases mem_cons.mp he' with rfl | he'
          · exact hk
          · exact hright e' he'
    · rw [if_neg hk]
      rcases ihr hr (some (k, v)) with ⟨hall, he⟩ | ⟨pre, e, post, hi, he, hle, hpost⟩
      · exact Or.inr ⟨l.items, (k, v), r.items, rfl, he, not_lt.mp hk, hall⟩
      · exact Or.inr ⟨l.items ++ (k, v) :: pre, e, post, by simp [hi], he, hle, hpost⟩

theorem blockFor_spec (b : ReaderBlockSet D K) (hok : BlocksOk b.blocks.items)
    (key : ArrowKey D K) :
    (b.blocks.items = [] ∧ b.blockFor key = none) ∨
      ∃ pre e post, b.blocks.items = pre ++ e :: post ∧ b.blockFor key = some e ∧
        (∀ x ∈ pre.flatMap Prod.snd, x < key) ∧ ∀ x ∈ post.flatMap Prod.snd, key < x := by
  have above : ∀ post : List (Entry D K), (∀ e ∈ post, e ∈ b.blocks.items) →
      (∀ e ∈ post, key < e.1) → ∀ x ∈ post.flatMap Prod.snd, key < x := by
    intro post hsub hpost x hx
    obtain ⟨e, he, hxe⟩ := mem_flatMap.mp hx
    exact (hpost e he).trans_le (hok.first_le (hsub e he) hxe)
  rcases blockForLoop_spec key b.blocks.tree b.blocks.ordered none with
    ⟨hall, he⟩ | ⟨pre, e, post, hi, he, hle, hpost⟩
  · unfold blockFor
    rw [he]
    simp only [SortedMap.minimum_eq_head]
    cases hi : b.blocks.items with
    | nil => exact Or.inl ⟨rfl, rfl⟩
    | cons e post =>
      refine Or.inr ⟨[], e, post, rfl, rfl, by simp, ?_⟩
      refine above post (fun e' he' => ?_) (fun e' he' => hall e' ?_)
      · rw [hi]
        exact mem_cons_of_mem _ he'
      · change e' ∈ b.blocks.items
        rw [hi]
        exact mem_cons_of_mem _ he'
  · change b.blocks.items = _ at hi
    refine Or.inr ⟨pre, e, post, hi, by unfold blockFor; rw [he], ?_, ?_⟩
    · intro x hx
      have hasc := hok.ascending
      rw [hi, flatMap_append, flatMap_cons] at hasc
      have hmem : e.1 ∈ e.2 := hok.first_mem (by rw [hi]; simp)
      exact ((pairwise_append.mp hasc).2.2 x hx e.1
        (mem_append_left _ hmem)).trans_le hle
    · exact above post (fun e' he' => by rw [hi]; simp [he']) hpost

theorem neighborLoop_before
    (ht : t.Ordered) (found : Option (Entry D K)) :
    ((∀ e ∈ t.items, key ≤ e.1) ∧ neighborLoop key true t found = found) ∨
      ∃ pre e post, t.items = pre ++ e :: post ∧ neighborLoop key true t found = some e ∧
        e.1 < key ∧ ∀ e' ∈ post, key ≤ e'.1 := by
  induction t generalizing found with
  | nil => exact Or.inl ⟨by simp [SortedTree.items], rfl⟩
  | node n h k v l r ihl ihr =>
    obtain ⟨hl, hr, hlk, hkr⟩ := SortedTree.ordered_node.mp ht
    simp only [neighborLoop, SortedTree.items, if_true, decide_eq_true_eq]
    by_cases hk : k < key
    · rw [if_pos hk]
      rcases ihr hr (some (k, v)) with ⟨hall, he⟩ | ⟨pre, e, post, hi, he, hle, hpost⟩
      · exact Or.inr ⟨l.items, (k, v), r.items, rfl, he, hk, hall⟩
      · exact Or.inr ⟨l.items ++ (k, v) :: pre, e, post, by simp [hi], he, hle, hpost⟩
    · rw [if_neg hk]
      have hright : ∀ e ∈ r.items, key ≤ e.1 := fun e he => ((not_lt.mp hk).trans_lt (hkr e he)).le
      rcases ihl hl found with ⟨hall, he⟩ | ⟨pre, e, post, hi, he, hle, hpost⟩
      · refine Or.inl ⟨?_, he⟩
        intro e he
        rcases mem_append.mp he with he | he
        · exact hall e he
        · rcases mem_cons.mp he with rfl | he
          · exact not_lt.mp hk
          · exact hright e he
      · refine Or.inr ⟨pre, e, post ++ (k, v) :: r.items, by simp [hi], he, hle, ?_⟩
        intro e' he'
        rcases mem_append.mp he' with he' | he'
        · exact hpost e' he'
        · rcases mem_cons.mp he' with rfl | he'
          · exact not_lt.mp hk
          · exact hright e' he'

theorem neighborLoop_after
    (ht : t.Ordered) (found : Option (Entry D K)) :
    ((∀ e ∈ t.items, e.1 ≤ key) ∧ neighborLoop key false t found = found) ∨
      ∃ pre e post, t.items = pre ++ e :: post ∧ neighborLoop key false t found = some e ∧
        key < e.1 ∧ ∀ e' ∈ pre, e'.1 ≤ key := by
  induction t generalizing found with
  | nil => exact Or.inl ⟨by simp [SortedTree.items], rfl⟩
  | node n h k v l r ihl ihr =>
    obtain ⟨hl, hr, hlk, hkr⟩ := SortedTree.ordered_node.mp ht
    simp only [neighborLoop, SortedTree.items, Bool.false_eq_true, if_false, decide_eq_true_eq]
    by_cases hk : key < k
    · rw [if_pos hk]
      rcases ihl hl (some (k, v)) with ⟨hall, he⟩ | ⟨pre, e, post, hi, he, hle, hpre⟩
      · exact Or.inr ⟨l.items, (k, v), r.items, rfl, he, hk, hall⟩
      · exact Or.inr ⟨pre, e, post ++ (k, v) :: r.items, by simp [hi], he, hle, hpre⟩
    · rw [if_neg hk]
      have hleft : ∀ e ∈ l.items, e.1 ≤ key := fun e he => ((hlk e he).trans_le (not_lt.mp hk)).le
      rcases ihr hr found with ⟨hall, he⟩ | ⟨pre, e, post, hi, he, hle, hpre⟩
      · refine Or.inl ⟨?_, he⟩
        intro e he
        rcases mem_append.mp he with he | he
        · exact hleft e he
        · rcases mem_cons.mp he with rfl | he
          · exact not_lt.mp hk
          · exact hall e he
      · refine Or.inr ⟨l.items ++ (k, v) :: pre, e, post, by simp [hi], he, hle, ?_⟩
        intro e' he'
        rcases mem_append.mp he' with he' | he'
        · exact hleft e' he'
        · rcases mem_cons.mp he' with rfl | he'
          · exact not_lt.mp hk
          · exact hpre e' he'

end ReaderBlockSet
end SkipPlatform.StoreReaders
