import Mathlib.Data.List.Flatten
import Mathlib.Data.List.Perm.Subperm
import SkipPlatform.StoreReadersBlocks

set_option autoImplicit false
set_option linter.unusedSectionVars false

/-! The tree, the short array and the block index hold the same readers after the
same operations. -/
namespace SkipPlatform.StoreReaders
open List
variable {D K : Type} [LinearOrder D] [LinearOrder K]

theorem ascending_unique {xs ys : List (ArrowKey D K)} (hx : Ascending xs) (hy : Ascending ys)
    (h : ∀ x, x ∈ xs ↔ x ∈ ys) : xs = ys := by
  have hp : xs.Perm ys := (perm_ext_iff_of_nodup (hx.imp fun hab => hab.ne)
    (hy.imp fun hab => hab.ne)).mpr h
  exact hp.eq_of_pairwise (fun a b _ _ hab hba => absurd hab hba.not_gt) hx hy

theorem mem_without (xs ys : List (ArrowKey D K)) (key : ArrowKey D K)
    (h : Ascending (xs ++ key :: ys)) (x : ArrowKey D K) :
    x ∈ xs ++ ys ↔ x ≠ key ∧ x ∈ xs ++ key :: ys := by
  obtain ⟨_, hys, hxs⟩ := pairwise_append.mp h
  have hne : x ∈ xs ++ ys → x ≠ key := by
    intro hx
    rcases mem_append.mp hx with hx | hx
    · exact (hxs x hx key mem_cons_self).ne
    · exact ((pairwise_cons.mp hys).1 x hx).ne'
  constructor
  · intro hx
    refine ⟨hne hx, ?_⟩
    exact ((sublist_cons_self key ys).append_left xs).subset hx
  · intro hx
    rcases mem_append.mp hx.2 with hm | hm
    · exact mem_append_left _ hm
    · exact mem_append_right _ ((mem_cons.mp hm).resolve_left hx.1)

theorem BlocksOk.of_sublist {es es' : List (Entry D K)} (h : BlocksOk es)
    (hs : es'.Sublist es) : BlocksOk es' :=
  ⟨fun e he => h.first e (hs.subset he), fun e he => h.small e (hs.subset he),
    h.ascending.sublist (hs.flatMap _)⟩

theorem BlocksOk.blocks_apart {es : List (Entry D K)} (h : BlocksOk es) {e e' : Entry D K}
    (he : e ∈ es) (he' : e' ∈ es) (hlt : e.1 < e'.1) : ∀ x ∈ e.2, ∀ y ∈ e'.2, x < y := by
  have hkeys := pairwise_iff_getElem.mp h.keys_ascending
  have hblocks := pairwise_iff_getElem.mp (pairwise_flatMap.mp h.ascending).2
  obtain ⟨i, hi, rfl⟩ := mem_iff_getElem.mp he
  obtain ⟨j, hj, rfl⟩ := mem_iff_getElem.mp he'
  have hij : i < j := by
    by_contra hge
    rcases Nat.lt_or_eq_of_le (not_lt.mp hge) with hji | rfl
    · exact absurd hlt (hkeys j i hj hi hji).not_gt
    · exact lt_irrefl _ hlt
  exact hblocks i j hi hj hij

theorem flatMap_focus (pre post : List (Entry D K)) (e : Entry D K) :
    (pre ++ e :: post).flatMap Prod.snd =
      pre.flatMap Prod.snd ++ e.2 ++ post.flatMap Prod.snd := by
  rw [flatMap_append, flatMap_cons, append_assoc]

theorem mem_unfile (m : SortedMap (ArrowKey D K) (Block D K)) (pre post : List (Entry D K))
    (first : ArrowKey D K) (old vs : Block D K) (hi : m.items = pre ++ (first, old) :: post)
    (x : Entry D K) (hx : vs.head? ≠ some x.1) :
    x ∈ (if vs.head? ≠ some first then m.remove first else m).items ↔ x ∈ pre ++ post := by
  have hsorted := m.items_sorted
  rw [hi] at hsorted
  obtain ⟨_, hpost, hpre⟩ := pairwise_append.mp hsorted
  have hne : x ∈ pre ++ post → x.1 ≠ first := by
    intro hm
    rcases mem_append.mp hm with hm | hm
    · exact (hpre x hm (first, old) mem_cons_self).ne
    · exact ((pairwise_cons.mp hpost).1 x hm).ne'
  have hitems : x ∈ m.items ↔ x = (first, old) ∨ x ∈ pre ++ post := by
    rw [hi]
    simp only [mem_append, mem_cons]
    tauto
  by_cases hh : vs.head? = some first
  · have hxf : x ≠ (first, old) := by
      intro he
      apply hx
      rw [he, hh]
    rw [if_neg (not_not.mpr hh), hitems]
    exact or_iff_right hxf
  · rw [if_pos hh, SortedMap.mem_items_remove, hitems]
    constructor
    · intro h
      refine h.2.resolve_left ?_
      intro he
      exact h.1 (congrArg Prod.fst he)
    · exact fun h => ⟨hne h, Or.inr h⟩

namespace ReaderBlockSet

variable (b : ReaderBlockSet D K)

theorem values_eq : b.values = b.blocks.items.flatMap Prod.snd := by
  unfold values SortedMap.values
  rw [flatMap_def]

structure Ok (b : ReaderBlockSet D K) : Prop where
  blocks : BlocksOk b.blocks.items
  count : b.count = b.values.length

theorem Ok.ascending {b : ReaderBlockSet D K} (h : b.Ok) : Ascending b.values := by
  rw [b.values_eq]
  exact h.blocks.ascending

theorem fromSorted_ok (vs : Block D K) (hs : Ascending vs) (hlen : vs.length ≤ 64)
    (hne : vs ≠ []) : ∃ b, fromSorted vs = some b ∧ b.Ok ∧ b.values = vs := by
  cases vs with
  | nil => exact absurd rfl hne
  | cons v vs =>
    have hitems : (SortedMap.singleton v (v :: vs)).items = [(v, v :: vs)] := rfl
    have hvalues : values ⟨.singleton v (v :: vs), (v :: vs).length⟩ = v :: vs := by
      rw [values_eq, hitems]
      simp
    refine ⟨_, rfl, ⟨⟨?_, ?_, ?_⟩, ?_⟩, hvalues⟩
    · intro e he
      rw [hitems] at he
      rw [mem_singleton.mp he]
      rfl
    · intro e he
      rw [hitems] at he
      rw [mem_singleton.mp he]
      exact hlen
    · rw [← values_eq, hvalues]
      exact hs
    · rw [hvalues]

theorem replace_ok (hok : b.Ok) (pre post : List (Entry D K))
    (first : ArrowKey D K) (old vs : Block D K) (count : ℕ)
    (hi : b.blocks.items = pre ++ (first, old) :: post)
    (hs : Ascending (pre.flatMap Prod.snd ++ vs ++ post.flatMap Prod.snd))
    (hlen : vs.length ≤ 96)
    (hcount : count = (pre.flatMap Prod.snd ++ vs ++ post.flatMap Prod.snd).length) :
    let blocks := if vs.head? ≠ some first then b.blocks.remove first else b.blocks
    let blocks := if vs.length ≤ 64 then indexBlock blocks vs
      else indexBlock (indexBlock blocks (vs.take 32)) (vs.drop 32)
    Ok ⟨blocks, count⟩ ∧
      values ⟨blocks, count⟩ = pre.flatMap Prod.snd ++ vs ++ post.flatMap Prod.snd := by
  intro blocks₀ blocks₁
  have hsub : BlocksOk (pre ++ post) := by
    refine hok.blocks.of_sublist ?_
    rw [hi]
    exact (sublist_cons_self _ _).append_left pre
  obtain ⟨new, hnew, hflat, hitems⟩ := reindex blocks₀ pre post vs 32 hsub
    (fun x hx => mem_unfile b.blocks pre post first old vs hi x hx) hs (by omega) (by omega)
    (by omega)
  have hvalues : values ⟨blocks₁, count⟩ =
      pre.flatMap Prod.snd ++ vs ++ post.flatMap Prod.snd := by
    rw [values_eq]
    change blocks₁.items.flatMap Prod.snd = _
    rw [hitems, flatMap_append, flatMap_append, hflat]
  refine ⟨⟨?_, ?_⟩, hvalues⟩
  · change BlocksOk blocks₁.items
    rw [hitems]
    exact hnew
  · rw [hvalues]
    exact hcount

theorem set_spec (hok : b.Ok) (hne : b.values ≠ [])
    (key : ArrowKey D K) :
    ∃ b', b.set key = some b' ∧ b'.Ok ∧ ∀ x, x ∈ b'.values ↔ x = key ∨ x ∈ b.values := by
  rcases blockFor_spec b hok.blocks key with ⟨hnil, _⟩ | ⟨pre, e, post, hi, hf, hbelow, habove⟩
  · exact absurd (by rw [b.values_eq, hnil]; rfl) hne
  · have hasc := hok.blocks.ascending
    rw [hi, flatMap_focus] at hasc
    have hvasc : Ascending e.2 :=
      (pairwise_append.mp (pairwise_append.mp hasc).1).2.1
    have hbv : b.values = pre.flatMap Prod.snd ++ e.2 ++ post.flatMap Prod.snd := by
      rw [b.values_eq, hi, flatMap_focus]
    obtain ⟨p, q, hpq, hlen, hcut⟩ := lowerBound_cut e.2 key hvasc
    unfold set
    simp only [hf]
    by_cases hk : e.2[lowerBound e.2 key]? = some key
    · refine ⟨b, by rw [if_pos hk], hok, ?_⟩
      intro x
      constructor
      · exact Or.inr
      · rintro (rfl | hx)
        · rw [hbv]
          simp [mem_of_getElem? hk]
        · exact hx
    · rw [if_neg hk]
      have hnot : key ∉ p ++ q := by
        rw [← hlen, hpq, hcut.lookup (hpq ▸ hvasc)] at hk
        exact hk
      have hins : e.2.insertIdx (lowerBound e.2 key) key = p ++ key :: q := by
        rw [← hlen, hpq, insertIdx_length]
      have hwhole : Cut key (pre.flatMap Prod.snd ++ p) (q ++ post.flatMap Prod.snd) := by
        constructor
        · intro x hx
          rcases mem_append.mp hx with hx | hx
          · exact hbelow x hx
          · exact hcut.below x hx
        · intro x hx
          rcases mem_append.mp hx with hx | hx
          · exact hcut.above x hx
          · exact (habove x hx).le
      have hs : Ascending (pre.flatMap Prod.snd ++ (p ++ key :: q) ++ post.flatMap Prod.snd) := by
        have hnotall : key ∉ (pre.flatMap Prod.snd ++ p) ++ (q ++ post.flatMap Prod.snd) := by
          intro hmem
          simp only [mem_append] at hmem hnot
          have h1 : key ∉ pre.flatMap Prod.snd := fun h => lt_irrefl _ (hbelow key h)
          have h2 : key ∉ post.flatMap Prod.snd := fun h => lt_irrefl _ (habove key h)
          tauto
        have := hwhole.insert_ascending (by rw [hpq] at hasc; simpa using hasc) hnotall
        simpa using this
      have hsmall : e.2.length ≤ 64 := hok.blocks.small e (by rw [hi]; simp)
      have hlength : e.2.length = p.length + q.length := by
        rw [hpq, length_append]
      obtain ⟨hok', hvalues⟩ := replace_ok b hok pre post e.1 e.2 (p ++ key :: q) (b.count + 1) hi hs
        (by simp only [length_append, length_cons]; omega)
        (by rw [hok.count, hbv]; simp only [length_append, length_cons]; omega)
      rw [hins]
      refine ⟨_, rfl, hok', ?_⟩
      intro x
      rw [hvalues, hbv, hpq]
      simp only [mem_append, mem_cons]
      tauto

theorem neighbor_eq_before (pre post : List (Entry D K))
    (e : Entry D K) (hi : b.blocks.items = pre ++ e :: post) :
    b.neighbor e.1 true = pre.getLast? := by
  have hsorted := b.blocks.items_sorted
  rw [hi] at hsorted
  obtain ⟨_, hpost, hpre⟩ := pairwise_append.mp hsorted
  have hfilter : b.blocks.items.filter (fun x => decide (x.1 < e.1)) = pre := by
    rw [hi, filter_append, filter_cons_of_neg (by simp), filter_eq_self.mpr,
      filter_eq_nil_iff.mpr, append_nil]
    · intro x hx
      simpa using ((pairwise_cons.mp hpost).1 x hx).le
    · intro x hx
      simpa using hpre x hx e mem_cons_self
  rcases neighborLoop_before e.1 b.blocks.tree b.blocks.ordered none with
    ⟨hall, hn⟩ | ⟨pre', e', post', hi', hn, hlt, hge⟩
  · have hnil : pre = [] := by
      rw [← hfilter, filter_eq_nil_iff]
      intro x hx
      simpa using hall x hx
    rw [hnil]
    exact hn
  · have hpre' : pre = pre' ++ [e'] := by
      change b.blocks.items = _ at hi'
      have hs' := b.blocks.items_sorted
      rw [hi'] at hs'
      rw [← hfilter, hi', filter_append, filter_cons_of_pos (by simpa using hlt),
        filter_eq_self.mpr, filter_eq_nil_iff.mpr]
      · intro x hx
        simpa using hge x hx
      · intro x hx
        simpa using ((pairwise_append.mp hs').2.2 x hx e' mem_cons_self).trans hlt
    rw [hpre', List.getLast?_concat]
    exact hn

theorem neighbor_eq_after (pre post : List (Entry D K))
    (e : Entry D K) (hi : b.blocks.items = pre ++ e :: post) :
    b.neighbor e.1 false = post.head? := by
  have hsorted := b.blocks.items_sorted
  rw [hi] at hsorted
  obtain ⟨_, hpost, hpre⟩ := pairwise_append.mp hsorted
  have hfilter : b.blocks.items.filter (fun x => decide (e.1 < x.1)) = post := by
    rw [hi, filter_append, filter_cons_of_neg (by simp), filter_eq_nil_iff.mpr,
      filter_eq_self.mpr, nil_append]
    · intro x hx
      simpa using (pairwise_cons.mp hpost).1 x hx
    · intro x hx
      simpa using (hpre x hx e mem_cons_self).le
  rcases neighborLoop_after e.1 b.blocks.tree b.blocks.ordered none with
    ⟨hall, hn⟩ | ⟨pre', e', post', hi', hn, hlt, hle⟩
  · have hnil : post = [] := by
      rw [← hfilter, filter_eq_nil_iff]
      intro x hx
      simpa using hall x hx
    rw [hnil]
    exact hn
  · have hpost' : post = e' :: post' := by
      change b.blocks.items = _ at hi'
      have hs' := b.blocks.items_sorted
      rw [hi'] at hs'
      have htail := (pairwise_cons.mp (pairwise_append.mp hs').2.1).1
      rw [← hfilter, hi', filter_append, filter_cons_of_pos (by simpa using hlt),
        filter_eq_nil_iff.mpr, filter_eq_self.mpr, nil_append]
      · intro x hx
        simpa using hlt.trans (htail x hx)
      · intro x hx
        simpa using hle x hx
    rw [hpost']
    exact hn

theorem join_ok (hok : b.Ok) (pre post : List (Entry D K))
    (a c : Entry D K) (m : SortedMap (ArrowKey D K) (Block D K))
    (hi : b.blocks.items = pre ++ a :: c :: post)
    (hm : ∀ x, x ∈ m.items ↔ x.1 ≠ a.1 ∧ x.1 ≠ c.1 ∧ x ∈ b.blocks.items)
    (hshort : a.2.length + c.2.length ≤ 128) :
    let blocks := if (a.2 ++ c.2).length ≤ 64 then indexBlock m (a.2 ++ c.2)
      else indexBlock (indexBlock m ((a.2 ++ c.2).take ((a.2 ++ c.2).length / 2)))
        ((a.2 ++ c.2).drop ((a.2 ++ c.2).length / 2))
    Ok ⟨blocks, b.count⟩ ∧ values ⟨blocks, b.count⟩ = b.values := by
  intro blocks
  have hbv : b.values = pre.flatMap Prod.snd ++ (a.2 ++ c.2) ++ post.flatMap Prod.snd := by
    rw [b.values_eq, hi]
    simp
  have hsorted := b.blocks.items_sorted
  rw [hi] at hsorted
  obtain ⟨_, hrest, hpre⟩ := pairwise_append.mp hsorted
  obtain ⟨ha, hc⟩ := pairwise_cons.mp hrest
  have hsub : BlocksOk (pre ++ post) := by
    refine hok.blocks.of_sublist ?_
    rw [hi]
    exact ((sublist_cons_self _ _).trans (sublist_cons_self _ _)).append_left pre
  have hmem : ∀ x : Entry D K, x ∈ m.items ↔ x ∈ pre ++ post := by
    intro x
    rw [hm, hi]
    simp only [mem_append, mem_cons]
    constructor
    · intro h
      have h1 : x ≠ a := fun he => h.1 (congrArg Prod.fst he)
      have h2 : x ≠ c := fun he => h.2.1 (congrArg Prod.fst he)
      tauto
    · intro h
      refine ⟨?_, ?_, by tauto⟩
      · rcases h with h | h
        · exact (hpre x h a (by simp)).ne
        · exact (ha x (by simp [h])).ne'
      · rcases h with h | h
        · exact (hpre x h c (by simp)).ne
        · exact ((pairwise_cons.mp hc).1 x h).ne'
  have hpos : 0 < a.2.length := length_pos_of_mem
    (hok.blocks.first_mem (by rw [hi]; simp))
  have hpos' : 0 < c.2.length := length_pos_of_mem
    (hok.blocks.first_mem (by rw [hi]; simp))
  have hlength : (a.2 ++ c.2).length = a.2.length + c.2.length := length_append
  obtain ⟨new, hnew, hflat, hitems⟩ := reindex m pre post (a.2 ++ c.2) ((a.2 ++ c.2).length / 2)
    hsub (fun x _ => hmem x) (hbv ▸ hok.ascending) (by omega) (by omega) (by omega)
  have hvalues : values ⟨blocks, b.count⟩ = b.values := by
    rw [values_eq, hbv]
    change blocks.items.flatMap Prod.snd = _
    rw [hitems, flatMap_append, flatMap_append, hflat]
  refine ⟨⟨?_, ?_⟩, hvalues⟩
  · change BlocksOk blocks.items
    rw [hitems]
    exact hnew
  · rw [hvalues]
    exact hok.count

theorem rebalance_ok (hok : b.Ok) (pre post : List (Entry D K))
    (u : ArrowKey D K) (updated : Block D K) (hi : b.blocks.items = pre ++ (u, updated) :: post)
    (hshort : updated.length ≤ 64) :
    (b.rebalance u updated).Ok ∧ (b.rebalance u updated).values = b.values := by
  have hbefore := neighbor_eq_before b pre post (u, updated) hi
  have hafter := neighbor_eq_after b pre post (u, updated) hi
  have hsorted := b.blocks.items_sorted
  rw [hi] at hsorted
  obtain ⟨_, hpost, hpre⟩ := pairwise_append.mp hsorted
  unfold rebalance
  simp only [hbefore, hafter]
  rcases eq_nil_or_concat pre with hnil | ⟨front, other, hlast⟩
  · subst hnil
    cases post with
    | nil => exact ⟨hok, rfl⟩
    | cons other rest =>
      have hlt : u < other.1 := (pairwise_cons.mp hpost).1 other mem_cons_self
      have hsmall : other.2.length ≤ 64 := hok.blocks.small other (by rw [hi]; simp)
      simp only [List.getLast?_nil, List.head?_cons, Option.or_some, Option.getD_none]
      rw [if_neg hlt.not_gt]
      refine join_ok b hok [] rest (u, updated) other _ hi ?_ (by simp only; omega)
      intro x
      rw [SortedMap.mem_items_remove, SortedMap.mem_items_remove]
      tauto
  · rw [concat_eq_append] at hlast
    subst hlast
    have hlt : other.1 < u := hpre other (by simp) (u, updated) mem_cons_self
    have hsmall : other.2.length ≤ 64 := hok.blocks.small other (by rw [hi]; simp)
    simp only [List.getLast?_concat, Option.some_or]
    rw [if_pos hlt]
    refine join_ok b hok front post other (u, updated) _ (by rw [hi]; simp) ?_
      (by simp only; omega)
    intro x
    rw [SortedMap.mem_items_remove, SortedMap.mem_items_remove]

theorem remove_spec (hok : b.Ok) (key : ArrowKey D K) :
    (b.remove key).Ok ∧ ∀ x, x ∈ (b.remove key).values ↔ x ≠ key ∧ x ∈ b.values := by
  have hunchanged : key ∉ b.values → ∀ x, x ∈ b.values ↔ x ≠ key ∧ x ∈ b.values := by
    intro hk x
    constructor
    · intro hx
      refine ⟨?_, hx⟩
      intro he
      exact hk (he ▸ hx)
    · exact And.right
  rcases blockFor_spec b hok.blocks key with ⟨hnil, hf⟩ | ⟨pre, e, post, hi, hf, hbelow, habove⟩
  · have hempty : b.values = [] := by rw [b.values_eq, hnil]; rfl
    unfold remove
    simp only [hf]
    exact ⟨hok, hunchanged (by rw [hempty]; simp)⟩
  · have hasc := hok.blocks.ascending
    rw [hi, flatMap_focus] at hasc
    have hvasc : Ascending e.2 :=
      (pairwise_append.mp (pairwise_append.mp hasc).1).2.1
    have hbv : b.values = pre.flatMap Prod.snd ++ e.2 ++ post.flatMap Prod.snd := by
      rw [b.values_eq, hi, flatMap_focus]
    obtain ⟨p, q, hpq, hlen, hcut⟩ := lowerBound_cut e.2 key hvasc
    unfold remove
    simp only [hf]
    by_cases hk : e.2[lowerBound e.2 key]? = some key
    · rw [if_neg (not_not.mpr hk)]
      have hq : ∃ q', q = key :: q' := by
        rw [← hlen, hpq, List.getElem?_append_right le_rfl, Nat.sub_self] at hk
        cases q with
        | nil => cases hk
        | cons y ys =>
          simp only [List.getElem?_cons_zero, Option.some.injEq] at hk
          exact ⟨ys, by rw [hk]⟩
      obtain ⟨q', rfl⟩ := hq
      have herase : e.2.eraseIdx (lowerBound e.2 key) = p ++ q' := by
        rw [← hlen, hpq, eraseIdx_append_of_length_le le_rfl, Nat.sub_self]
        rfl
      have hs : Ascending (pre.flatMap Prod.snd ++ (p ++ q') ++ post.flatMap Prod.snd) := by
        refine hasc.sublist ?_
        rw [hpq]
        exact (((sublist_cons_self _ _).append_left p).append_left _).append_right _
      have hsmall : e.2.length ≤ 64 := hok.blocks.small e (by rw [hi]; simp)
      have hlength : e.2.length = p.length + q'.length + 1 := by
        rw [hpq, length_append, length_cons]
        omega
      have hshort : (p ++ q').length ≤ 64 := by
        rw [length_append]
        omega
      have hkey : ∀ x, x ∈ pre.flatMap Prod.snd ++ (p ++ q') ++ post.flatMap Prod.snd ↔
          x ≠ key ∧ x ∈ b.values := by
        intro x
        rw [hpq] at hasc
        have hw := mem_without (pre.flatMap Prod.snd ++ p) (q' ++ post.flatMap Prod.snd) key
          (by simpa only [append_assoc, cons_append] using hasc) x
        rw [hbv, hpq]
        simpa only [append_assoc, cons_append] using hw
      obtain ⟨hok', hvalues⟩ := replace_ok b hok pre post e.1 e.2 (p ++ q') (b.count - 1) hi hs
        (by omega)
        (by rw [hok.count, hbv]; simp only [length_append] at hlength ⊢; omega)
      simp only [if_pos hshort] at hok' hvalues
      rw [herase]
      cases hup : p ++ q' with
      | nil =>
        rw [hup] at hok' hvalues hkey
        exact ⟨hok', fun x => by rw [hvalues]; exact hkey x⟩
      | cons u us =>
        rw [hup] at hok' hvalues hkey hshort
        simp only
        by_cases hbal : (u :: us).length < 16 ∧ b.count - 1 > 8
        · rw [if_pos hbal]
          have hfile : ∃ pre' post', (indexBlock (if (u :: us).head? ≠ some e.1 then
              b.blocks.remove e.1 else b.blocks) (u :: us)).items = pre' ++ (u, u :: us) :: post' := by
            apply append_of_mem
            rw [mem_indexBlock]
            exact Or.inl (by simp [entry])
          obtain ⟨pre', post', hfile⟩ := hfile
          obtain ⟨hok'', hvalues'⟩ := rebalance_ok _ hok' pre' post' u (u :: us) hfile hshort
          exact ⟨hok'', fun x => by rw [hvalues', hvalues]; exact hkey x⟩
        · rw [if_neg hbal]
          exact ⟨hok', fun x => by rw [hvalues]; exact hkey x⟩
    · rw [if_pos hk]
      refine ⟨hok, hunchanged ?_⟩
      rw [← hlen, hpq, hcut.lookup (hpq ▸ hvasc)] at hk
      rw [hbv, hpq]
      simp only [mem_append] at hk ⊢
      have h1 : key ∉ pre.flatMap Prod.snd := fun h => lt_irrefl _ (hbelow key h)
      have h2 : key ∉ post.flatMap Prod.snd := fun h => lt_irrefl _ (habove key h)
      tauto

theorem hasSiblingLoop_spec (a : ArrowKey D K) (t : SortedTree (ArrowKey D K) (Block D K))
    (ht : t.Ordered) (previous : Block D K) :
    ((∃ e ∈ t.items, a.arrow = e.1.arrow) ∧ hasSiblingLoop a t previous = true) ∨
      ((∀ e ∈ t.items, a.arrow < e.1.arrow) ∧ hasSiblingLoop a t previous =
        previous.any (fun reader => decide (a.arrow = reader.arrow))) ∨
      ∃ pre e post, t.items = pre ++ e :: post ∧ e.1.arrow < a.arrow ∧
        (∀ e' ∈ post, a.arrow < e'.1.arrow) ∧ hasSiblingLoop a t previous =
          e.2.any (fun reader => decide (a.arrow = reader.arrow)) := by
  induction t generalizing previous with
  | nil => exact Or.inr (Or.inl ⟨by simp [SortedTree.items], rfl⟩)
  | node n h k v l r ihl ihr =>
    obtain ⟨hl, hr, hlk, hkr⟩ := SortedTree.ordered_node.mp ht
    have hroot : (k, v) ∈ (SortedTree.node n h k v l r).items := by simp [SortedTree.items]
    rcases hc : compare a.arrow k.arrow with _ | _ | _
    · have hlt := compare_lt_iff_lt.mp hc
      have hright : ∀ e ∈ r.items, a.arrow < e.1.arrow :=
        fun e he => hlt.trans_le (ArrowKey.arrow_mono (hkr e he).le)
      simp only [hasSiblingLoop, hc, SortedTree.items]
      rcases ihl hl previous with ⟨⟨e, he, ha⟩, hs⟩ | ⟨hall, hs⟩ | ⟨pre, e, post, hi, hle, hpost, hs⟩
      · exact Or.inl ⟨⟨e, mem_append_left _ he, ha⟩, hs⟩
      · refine Or.inr (Or.inl ⟨?_, hs⟩)
        intro e he
        rcases mem_append.mp he with he | he
        · exact hall e he
        · rcases mem_cons.mp he with rfl | he
          · exact hlt
          · exact hright e he
      · refine Or.inr (Or.inr ⟨pre, e, post ++ (k, v) :: r.items, by simp [hi], hle, ?_, hs⟩)
        intro e' he'
        rcases mem_append.mp he' with he' | he'
        · exact hpost e' he'
        · rcases mem_cons.mp he' with rfl | he'
          · exact hlt
          · exact hright e' he'
    · have heq := compare_eq_iff_eq.mp hc
      exact Or.inl ⟨⟨_, hroot, heq⟩, by simp only [hasSiblingLoop, hc]⟩
    · have hgt := compare_gt_iff_gt.mp hc
      simp only [hasSiblingLoop, hc, SortedTree.items]
      rcases ihr hr v with ⟨⟨e, he, ha⟩, hs⟩ | ⟨hall, hs⟩ | ⟨pre, e, post, hi, hle, hpost, hs⟩
      · exact Or.inl ⟨⟨e, by simp [he], ha⟩, hs⟩
      · exact Or.inr (Or.inr ⟨l.items, (k, v), r.items, rfl, hgt, hall, hs⟩)
      · exact Or.inr (Or.inr ⟨l.items ++ (k, v) :: pre, e, post, by simp [hi], hle, hpost, hs⟩)

/-- Readers of one arrow are consecutive: unless one of them starts a block, all of
them are in the last block that starts below the arrow. -/
theorem hasSibling_eq (hok : b.Ok) (a : ArrowKey D K) :
    b.hasSibling a = b.values.any (fun reader => decide (a.arrow = reader.arrow)) := by
  have above : ∀ e ∈ b.blocks.items, a.arrow < e.1.arrow → ∀ x ∈ e.2, a.arrow ≠ x.arrow := by
    intro e he hlt x hx heq
    have hle := ArrowKey.arrow_mono (hok.blocks.first_le he hx)
    exact absurd (heq ▸ hlt) hle.not_gt
  rw [Bool.eq_iff_iff, b.values_eq]
  simp only [any_eq_true, mem_flatMap, decide_eq_true_eq]
  unfold hasSibling
  rcases hasSiblingLoop_spec a b.blocks.tree b.blocks.ordered [] with
    ⟨⟨e, he, ha⟩, hs⟩ | ⟨hall, hs⟩ | ⟨pre, e, post, hi, hlt, hpost, hs⟩
  · rw [hs]
    exact iff_of_true rfl ⟨e.1, ⟨e, he, hok.blocks.first_mem he⟩, ha⟩
  · rw [hs]
    refine iff_of_false (by simp) ?_
    rintro ⟨x, ⟨e, he, hx⟩, heq⟩
    exact above e he (hall e he) x hx heq
  · change b.blocks.items = _ at hi
    rw [hs, any_eq_true]
    simp only [decide_eq_true_eq]
    constructor
    · rintro ⟨x, hx, heq⟩
      exact ⟨x, ⟨e, by rw [hi]; simp, hx⟩, heq⟩
    · rintro ⟨x, ⟨e', he', hx⟩, heq⟩
      have hasc := hok.blocks.ascending
      have hcase : e' ∈ pre ∨ e' = e ∨ e' ∈ post := by
        rw [hi] at he'
        simpa using he'
      rcases hcase with hin | rfl | hin
      · rw [hi, flatMap_focus, append_assoc] at hasc
        have hxe : x < e.1 := (pairwise_append.mp hasc).2.2 x
          (mem_flatMap.mpr ⟨e', hin, hx⟩) e.1
          (mem_append_left _ (hok.blocks.first_mem (by rw [hi]; simp)))
        exact absurd (heq ▸ hlt) (ArrowKey.arrow_mono hxe.le).not_gt
      · exact ⟨x, hx, heq⟩
      · exact absurd heq (above e' he' (hpost e' hin) x hx)

end ReaderBlockSet

namespace DependencyReaders

theorem treeHasSibling_eq (a : ArrowKey D K) (t : SortedTree (ArrowKey D K) Unit)
    (ht : t.Ordered) :
    treeHasSibling a t = true ↔ ∃ x ∈ t.items, a.arrow = x.1.arrow := by
  induction t with
  | nil => simp [treeHasSibling, SortedTree.items]
  | node n h k v l r ihl ihr =>
    obtain ⟨hl, hr, hlk, hkr⟩ := SortedTree.ordered_node.mp ht
    simp only [treeHasSibling, SortedTree.items, mem_append, mem_cons]
    rcases hc : compare a.arrow k.arrow with _ | _ | _
    · have hlt := compare_lt_iff_lt.mp hc
      simp only [ihl hl]
      constructor
      · rintro ⟨x, hx, heq⟩
        exact ⟨x, Or.inl hx, heq⟩
      · rintro ⟨x, hx | rfl | hx, heq⟩
        · exact ⟨x, hx, heq⟩
        · exact absurd heq hlt.ne
        · exact absurd heq (hlt.trans_le (ArrowKey.arrow_mono (hkr x hx).le)).ne
    · have heq := compare_eq_iff_eq.mp hc
      exact iff_of_true rfl ⟨(k, v), Or.inr (Or.inl rfl), heq⟩
    · have hgt := compare_gt_iff_gt.mp hc
      simp only [ihr hr]
      constructor
      · rintro ⟨x, hx, heq⟩
        exact ⟨x, Or.inr (Or.inr hx), heq⟩
      · rintro ⟨x, hx | rfl | hx, heq⟩
        · exact absurd heq ((ArrowKey.arrow_mono (hlk x hx).le).trans_lt hgt).ne'
        · exact absurd heq hgt.ne'
        · exact ⟨x, hx, heq⟩

/-- The reader set holds exactly the readers of `s`, in its own representation. -/
structure Represents (r : DependencyReaders D K) (s : Set (ArrowKey D K)) : Prop where
  ascending : Ascending r.values
  mem : ∀ x, x ∈ r.values ↔ x ∈ s
  size : r.size = r.values.length
  short : ∀ vs, r = readerArray vs → vs.length ≤ 8
  blocks : ∀ b, r = readerBlocks b → b.Ok ∧ 8 < b.count

theorem Represents.hasSibling_eq {r : DependencyReaders D K} {s : Set (ArrowKey D K)}
    (h : r.Represents s) (a : ArrowKey D K) :
    r.hasSibling a = r.values.any (fun reader => decide (a.arrow = reader.arrow)) := by
  cases r with
  | readerArray values => rfl
  | readerTree tree =>
    rw [Bool.eq_iff_iff]
    unfold hasSibling values
    simp only
    rw [treeHasSibling_eq a tree.tree tree.ordered]
    simp only [SortedMap.keys, any_map, any_eq_true, Function.comp, decide_eq_true_eq]
    rfl
  | readerBlocks blocks => exact ReaderBlockSet.hasSibling_eq blocks (h.blocks blocks rfl).1 a

variable {s : Set (ArrowKey D K)}

theorem represents_array {vs : List (ArrowKey D K)}
    (hs : Ascending vs) (hlen : vs.length ≤ 8) (hm : ∀ x, x ∈ vs ↔ x ∈ s) :
    Represents (readerArray vs) s := by
  refine ⟨hs, hm, rfl, ?_, fun _ hb => nomatch hb⟩
  intro vs' hvs
  cases hvs
  exact hlen

theorem represents_tree {t : SortedMap (ArrowKey D K) Unit}
    (hm : ∀ x, x ∈ t.keys ↔ x ∈ s) : Represents (readerTree t) s := by
  refine ⟨t.keys_sorted, hm, ?_, (fun _ hv => nomatch hv), fun _ hb => nomatch hb⟩
  change t.size = t.keys.length
  rw [t.size_eq_length, SortedMap.keys, length_map]

theorem represents_blocks {b : ReaderBlockSet D K} (hok : b.Ok)
    (hcount : 8 < b.count) (hm : ∀ x, x ∈ b.values ↔ x ∈ s) : Represents (readerBlocks b) s := by
  refine ⟨hok.ascending, hm, hok.count, (fun _ hv => nomatch hv), ?_⟩
  intro b' hb
  cases hb
  exact ⟨hok, hcount⟩

theorem mem_keys_set (t : SortedMap (ArrowKey D K) Unit) (key x : ArrowKey D K) :
    x ∈ (t.set key ()).keys ↔ x = key ∨ x ∈ t.keys := by
  simp only [SortedMap.mem_keys, SortedMap.maybeGet_set]
  by_cases h : x = key <;> simp [h]

theorem mem_keys_createFromIterator (vs : List (ArrowKey D K))
    (t : SortedMap (ArrowKey D K) Unit) (x : ArrowKey D K) :
    x ∈ ((vs.map fun value => (value, ())).foldl (fun m y => m.set y.1 y.2) t).keys ↔
      x ∈ vs ∨ x ∈ t.keys := by
  induction vs generalizing t with
  | nil => simp
  | cons v vs ih =>
    simp only [map_cons, foldl_cons]
    rw [ih, mem_keys_set]
    simp only [mem_cons]
    tauto

theorem length_of_insert {xs ys : List (ArrowKey D K)} {key : ArrowKey D K}
    (hx : Ascending xs) (hy : Ascending ys) (hk : key ∉ xs)
    (hm : ∀ x, x ∈ ys ↔ x = key ∨ x ∈ xs) : ys.length = xs.length + 1 := by
  have hn : (key :: xs).Nodup := nodup_cons.mpr ⟨hk, hx.imp fun hab => hab.ne⟩
  have hp : ys.Perm (key :: xs) :=
    (perm_ext_iff_of_nodup (hy.imp fun hab => hab.ne) hn).mpr (by simpa using hm)
  simpa using hp.length_eq

variable {r : DependencyReaders D K}

theorem set_represents
    (h : r.Represents s) (key : ArrowKey D K) (blockReaders : Bool) :
    ∃ r', r.set key blockReaders = some r' ∧ r'.Represents (insert key s) := by
  cases r with
  | readerTree tree =>
    refine ⟨_, rfl, represents_tree ?_⟩
    intro x
    rw [mem_keys_set]
    exact or_congr_right (h.mem x)
  | readerBlocks blocks =>
    obtain ⟨hok, hcount⟩ := h.blocks blocks rfl
    have hne : blocks.values ≠ [] := by
      intro he
      have := hok.count
      rw [he, length_nil] at this
      omega
    obtain ⟨b', hb', hok', hm⟩ := ReaderBlockSet.set_spec blocks hok hne key
    refine ⟨readerBlocks b', by simp [set, hb'], represents_blocks hok' ?_ ?_⟩
    · have hsub : blocks.values ⊆ b'.values := fun x hx => (hm x).mpr (Or.inr hx)
      have hnd : blocks.values.Nodup := hok.ascending.imp fun hab => hab.ne
      have := (List.Nodup.subperm hnd hsub).length_le
      rw [hok'.count]
      rw [hok.count] at hcount
      omega
    · intro x
      rw [hm]
      exact or_congr_right (h.mem x)
  | readerArray values =>
    have hasc : Ascending values := h.ascending
    have hmem : ∀ x, x ∈ values ↔ x ∈ s := h.mem
    have hshort : values.length ≤ 8 := h.short values rfl
    obtain ⟨pre, post, hv, hlen, hcut⟩ := arrayIndex_cut values key hasc
    unfold set
    simp only
    by_cases hk : values[arrayIndex key values]? = some key
    · rw [if_pos hk]
      refine ⟨_, rfl, represents_array hasc hshort ?_⟩
      intro x
      rw [hmem]
      constructor
      · exact Or.inr
      · rintro (rfl | hx)
        · exact (hmem x).mp (mem_of_getElem? hk)
        · exact hx
    · rw [if_neg hk]
      have hnot : key ∉ values := by
        rw [← hlen, hv, hcut.lookup (hv ▸ hasc)] at hk
        rw [hv]
        exact hk
      by_cases hroom : values.length < 8
      · rw [if_pos hroom]
        have hins : values.insertIdx (arrayIndex key values) key = pre ++ key :: post := by
          rw [← hlen, hv, insertIdx_length]
        refine ⟨_, rfl, represents_array ?_ ?_ ?_⟩
        · rw [hins]
          exact hcut.insert_ascending (hv ▸ hasc) (hv ▸ hnot)
        · rw [hins]
          rw [hv] at hroom
          simp only [length_append, length_cons] at hroom ⊢
          omega
        · intro x
          rw [hins]
          change _ ↔ x = key ∨ x ∈ s
          rw [← hmem, hv]
          simp only [mem_append, mem_cons]
          tauto
      · rw [if_neg hroom]
        cases blockReaders with
        | false =>
          refine ⟨_, rfl, represents_tree ?_⟩
          intro x
          rw [mem_keys_set, SortedMap.createFromIterator, mem_keys_createFromIterator]
          change _ ↔ x = key ∨ x ∈ s
          rw [← hmem]
          simp [SortedMap.keys]
        | true =>
          have hne : values ≠ [] := by
            intro he
            rw [he, length_nil] at hroom
            omega
          obtain ⟨b, hb, hok, hbv⟩ :=
            ReaderBlockSet.fromSorted_ok values hasc (by omega) hne
          obtain ⟨b', hb', hok', hm⟩ := ReaderBlockSet.set_spec b hok (hbv ▸ hne) key
          have hset : ((ReaderBlockSet.fromSorted values).bind fun x => x.set key) = some b' := by
            rw [hb, Option.bind_some, hb']
          rw [if_pos rfl, hset]
          rw [hbv] at hm
          refine ⟨_, rfl, represents_blocks hok' ?_ ?_⟩
          · have := length_of_insert hasc hok'.ascending hnot hm
            rw [hok'.count]
            omega
          · intro x
            rw [hm]
            exact or_congr_right (hmem x)

theorem remove_represents
    (h : r.Represents s) (key : ArrowKey D K) (compact : Bool) :
    (r.remove key compact).Represents (s \ {key}) := by
  have hdiff : ∀ x, x ∈ s \ {key} ↔ x ≠ key ∧ x ∈ s := by
    intro x
    rw [Set.mem_sdiff, Set.mem_singleton_iff, and_comm]
  cases r with
  | readerArray values =>
    have hasc : Ascending values := h.ascending
    have hmem : ∀ x, x ∈ values ↔ x ∈ s := h.mem
    refine represents_array (hasc.filter _) ?_ ?_
    · exact (length_filter_le _ _).trans (h.short values rfl)
    · intro x
      rw [mem_filter, decide_eq_true_iff, hdiff, hmem, and_comm]
  | readerTree tree =>
    have hmem : ∀ x, x ∈ tree.keys ↔ x ∈ s := h.mem
    have hkeys : ∀ x, x ∈ (tree.remove key).keys ↔ x ∈ s \ {key} := by
      intro x
      rw [hdiff, ← hmem, SortedMap.mem_keys, SortedMap.maybeGet_remove, SortedMap.mem_keys]
      by_cases hx : x = key <;> simp [hx]
    unfold remove
    simp only
    by_cases hc : compact = true ∧ (tree.remove key).size ≤ 8
    · rw [if_pos hc]
      refine represents_array (tree.remove key).keys_sorted ?_ hkeys
      have hsize := hc.2
      rw [SortedMap.size_eq_length] at hsize
      rw [SortedMap.keys, length_map]
      exact hsize
    · rw [if_neg hc]
      exact represents_tree hkeys
  | readerBlocks blocks =>
    have hmem : ∀ x, x ∈ blocks.values ↔ x ∈ s := h.mem
    obtain ⟨hok', hm⟩ := ReaderBlockSet.remove_spec blocks (h.blocks blocks rfl).1 key
    have hvalues : ∀ x, x ∈ (blocks.remove key).values ↔ x ∈ s \ {key} := by
      intro x
      rw [hm, hdiff, hmem]
    unfold remove
    simp only
    by_cases hc : (blocks.remove key).count ≤ 8
    · rw [if_pos hc]
      exact represents_array hok'.ascending (hok'.count ▸ hc) hvalues
    · rw [if_neg hc]
      exact represents_blocks hok' (not_le.mp hc) hvalues

variable (compact blocks : Bool)

theorem empty_represents :
    (empty compact blocks : DependencyReaders D K).Represents ∅ := by
  unfold empty
  cases compact <;> cases blocks
  · exact represents_tree (by simp [SortedMap.keys])
  all_goals exact represents_array List.Pairwise.nil (Nat.zero_le _) (by simp)

inductive Op (D K : Type) where
  | set (key : ArrowKey D K)
  | remove (key : ArrowKey D K)

def Op.apply (compact blocks : Bool) (r : DependencyReaders D K) :
    Op D K → Option (DependencyReaders D K)
  | .set key => r.set key blocks
  | .remove key => some (r.remove key compact)

/-- The reader set of a `Deps` made with these two flags, after `ops`. -/
def run (compact blocks : Bool) (ops : List (Op D K)) : Option (DependencyReaders D K) :=
  ops.foldlM (Op.apply compact blocks) (empty compact blocks)

def Op.effect (s : Set (ArrowKey D K)) : Op D K → Set (ArrowKey D K)
  | .set key => insert key s
  | .remove key => s \ {key}

theorem apply_represents
    (h : r.Represents s) (compact blocks : Bool) (op : Op D K) :
    ∃ r', op.apply compact blocks r = some r' ∧ r'.Represents (op.effect s) := by
  cases op with
  | set key => exact set_represents h key blocks
  | remove key => exact ⟨_, rfl, remove_represents h key compact⟩

theorem foldlM_represents (ops : List (Op D K)) (h : r.Represents s) :
    ∃ r', ops.foldlM (Op.apply compact blocks) r = some r' ∧
      r'.Represents (ops.foldl Op.effect s) := by
  induction ops generalizing r s with
  | nil => exact ⟨r, rfl, h⟩
  | cons op ops ih =>
    obtain ⟨r₁, h₁, hr₁⟩ := apply_represents h compact blocks op
    obtain ⟨r₂, h₂, hr₂⟩ := ih hr₁
    exact ⟨r₂, by rw [foldlM_cons, h₁]; exact h₂, hr₂⟩

theorem run_represents (ops : List (Op D K)) :
    ∃ r, run compact blocks ops = some r ∧ r.Represents (ops.foldl Op.effect ∅) :=
  foldlM_represents compact blocks ops (empty_represents compact blocks)

structure SameAnswers (r r' : DependencyReaders D K) : Prop where
  values : r.values = r'.values
  size : r.size = r'.size
  hasSibling : ∀ arrow, r.hasSibling arrow = r'.hasSibling arrow
  hasChild : ∀ child, r.hasChild child = r'.hasChild child

theorem Represents.sameAnswers {r r' : DependencyReaders D K}
    (h : r.Represents s) (h' : r'.Represents s) : SameAnswers r r' := by
  have hv : r.values = r'.values :=
    ascending_unique h.ascending h'.ascending fun x => (h.mem x).trans (h'.mem x).symm
  refine ⟨hv, ?_, ?_, ?_⟩
  · rw [h.size, h'.size, hv]
  · intro arrow
    rw [h.hasSibling_eq, h'.hasSibling_eq, hv]
  · intro child
    unfold hasChild
    rw [hv]

/-- After any operations the tree (no flag), the compact array (`compact` only) and
the blocks (`blocks`, with or without `compact`) answer alike, their values are
sorted without repetition, and a block index is well formed. -/
theorem run_agree (ops : List (Op D K)) (compact : Bool) :
    ∃ tree array blocks : DependencyReaders D K,
      run false false ops = some tree ∧ run true false ops = some array ∧
      run compact true ops = some blocks ∧ SameAnswers tree array ∧ SameAnswers tree blocks ∧
      Ascending tree.values ∧ tree.size = tree.values.length ∧
      (∀ x, x ∈ tree.values ↔ x ∈ ops.foldl Op.effect ∅) ∧
      ∀ b, blocks = readerBlocks b → ∀ e ∈ b.blocks.items,
        e.2 ≠ [] ∧ e.2.head? = some e.1 ∧ e.2.length ≤ 64 ∧ Ascending e.2 ∧
          ∀ e' ∈ b.blocks.items, e.1 < e'.1 → ∀ x ∈ e.2, ∀ y ∈ e'.2, x < y := by
  obtain ⟨tree, htree, hrt⟩ := run_represents false false ops
  obtain ⟨array, harray, hra⟩ := run_represents true false ops
  obtain ⟨blocks, hblocks, hrb⟩ := run_represents compact true ops
  refine ⟨tree, array, blocks, htree, harray, hblocks, hrt.sameAnswers hra,
    hrt.sameAnswers hrb, hrt.ascending, hrt.size, hrt.mem, ?_⟩
  intro b hb e he
  have hok := (hrb.blocks b hb).1.blocks
  have hfirst := hok.first e he
  refine ⟨?_, hfirst, hok.small e he, (pairwise_flatMap.mp hok.ascending).1 e he, ?_⟩
  · intro hnil
    rw [hnil] at hfirst
    cases hfirst
  · exact fun e' he' hlt => hok.blocks_apart he he' hlt

end DependencyReaders
end SkipPlatform.StoreReaders
