import SkipPlatform.EagerDirChunks

set_option autoImplicit false
set_option linter.unusedSectionVars false

/-! Whatever the collector answers, the passes together call `mapRow` once for every key of
the parent in the range, in order. -/
namespace SkipPlatform
open List SortedMerge StoreSourceMap

namespace SortedMerge
variable {α κ : Type} [LinearOrder κ]

theorem overrideMerge_append {key : α → κ} {xs : List α} (ys : List α) (m : α) (ms : List α)
    (h : ∀ x ∈ xs, key x < key m) :
    overrideMerge key (xs ++ ys) (m :: ms) = xs ++ overrideMerge key ys (m :: ms) := by
  have hall : ∀ x ∈ xs, decide (key x < key m) = true := fun x hx => decide_eq_true (h x hx)
  rw [overrideMerge, overrideMerge, takeWhile_append_of_pos hall,
    dropWhile_append_of_pos hall, append_assoc]

theorem overrideMerge_cons {key : α → κ} {xs : List α} (m : α) (ms : List α)
    (h : ∀ x ∈ xs, ¬key x < key m) :
    overrideMerge key xs (m :: ms) =
      m :: overrideMerge key (xs.dropWhile fun a => decide (key a = key m)) ms := by
  have htake : xs.takeWhile (fun a => decide (key a < key m)) = [] := by
    cases xs with
    | nil => rfl
    | cons x xs => exact takeWhile_cons_of_neg (by simpa using h x mem_cons_self)
  have hdrop : xs.dropWhile (fun a => decide (key a < key m)) = xs := by
    cases xs with
    | nil => rfl
    | cons x xs => exact dropWhile_cons_of_neg (by simpa using h x mem_cons_self)
  rw [overrideMerge, htake, hdrop, nil_append]

end SortedMerge

namespace Reducer
variable {K S F : Type} [LinearOrder K] [LinearOrder S]

theorem groupRows_cons (r : FixedRow K S (List F)) (rest : List (FixedRow K S (List F))) :
    groupRows (r :: rest) =
      (r.key, ((r :: rest).takeWhile fun x => decide (x.key = r.key)).flatMap FixedRow.value) ::
        groupRows ((r :: rest).dropWhile fun x => decide (x.key = r.key)) := by
  induction rest generalizing r with
  | nil =>
    rw [takeWhile_cons_of_pos (by simp), dropWhile_cons_of_pos (by simp)]
    simp [groupRows]
  | cons next rest ih =>
    have htake : ((r :: next :: rest).takeWhile fun x => decide (x.key = r.key)) =
        r :: (next :: rest).takeWhile fun x => decide (x.key = r.key) :=
      takeWhile_cons_of_pos (by simp)
    have hdrop : ((r :: next :: rest).dropWhile fun x => decide (x.key = r.key)) =
        (next :: rest).dropWhile fun x => decide (x.key = r.key) :=
      dropWhile_cons_of_pos (by simp)
    rw [htake, hdrop, flatMap_cons, groupRows]
    by_cases hkey : r.key = next.key
    · rw [ih next, hkey]
      exact if_pos rfl
    · have hne : ¬next.key = r.key := fun h => hkey h.symm
      have htake' : ((next :: rest).takeWhile fun x => decide (x.key = r.key)) = [] :=
        takeWhile_cons_of_neg (by simpa using hne)
      have hdrop' : ((next :: rest).dropWhile fun x => decide (x.key = r.key)) = next :: rest :=
        dropWhile_cons_of_neg (by simpa using hne)
      rw [htake', hdrop', ih next]
      change (if r.key = next.key then _ else _) = _
      rw [if_neg hkey, flatMap_nil, append_nil]

theorem dropWhile_of_imp {α : Type} {p q : α → Bool} (h : ∀ x, q x = true → p x = true)
    (xs : List α) : (xs.dropWhile q).dropWhile p = xs.dropWhile p := by
  induction xs with
  | nil => rfl
  | cons x xs ih =>
    by_cases hq : q x = true
    · rw [dropWhile_cons_of_pos hq, dropWhile_cons_of_pos (h x hq), ih]
    · rw [dropWhile_cons_of_neg hq]

theorem groupRows_dropWhile (p : K → Bool) (rows : List (FixedRow K S (List F))) :
    groupRows (rows.dropWhile fun x => p x.key) =
      (groupRows rows).dropWhile fun x => p x.1 := by
  induction h : rows.length using Nat.strong_induction_on generalizing rows with
  | _ n ih =>
    cases rows with
    | nil => rfl
    | cons r rest =>
      rw [groupRows_cons]
      by_cases hp : p r.key = true
      · have hrest : ((r :: rest).dropWhile fun x => decide (x.key = r.key)) =
            rest.dropWhile fun x => decide (x.key = r.key) :=
          dropWhile_cons_of_pos (by simp)
        have hlength : (rest.dropWhile fun x => decide (x.key = r.key)).length < n := by
          have := length_dropWhile_le (fun x => decide (x.key = r.key)) rest
          rw [length_cons] at h
          omega
        have himp : ∀ x : FixedRow K S (List F), decide (x.key = r.key) = true → p x.key = true := by
          intro x hx
          rw [of_decide_eq_true hx]
          exact hp
        rw [← dropWhile_of_imp himp, hrest, ih _ hlength _ rfl,
          dropWhile_cons_of_pos (by simpa using hp)]
      · rw [dropWhile_cons_of_neg (by simpa using hp),
          dropWhile_cons_of_neg (by simpa using hp), groupRows_cons]

end Reducer

namespace EagerDir
variable {D K F : Type} [LinearOrder D] [StoreKey K]

def fixedFiles (parent : EagerDir D K F) (group : K × List F) : List F :=
  match parent.reducer with
  | none => group.2
  | some compact => compact.getArray group.1

def fixedCalls (parent : EagerDir D K F) (fixed : List (FixedRow K (Source D K) (List F))) :
    List (K × List F) :=
  (Reducer.groupRows fixed).map fun group => (group.1, parent.fixedFiles group)

theorem fixedCalls_cons (parent : EagerDir D K F) (r : FixedRow K (Source D K) (List F))
    (rest : List (FixedRow K (Source D K) (List F))) :
    parent.fixedCalls (r :: rest) =
      (r.key, parent.fixedFiles (r.key,
        ((r :: rest).takeWhile fun x => decide (x.key = r.key)).flatMap FixedRow.value)) ::
          parent.fixedCalls ((r :: rest).dropWhile fun x => decide (x.key = r.key)) := by
  unfold fixedCalls
  rw [Reducer.groupRows_cons, map_cons]

theorem fixedCalls_dropWhile (parent : EagerDir D K F) (p : K → Bool)
    (fixed : List (FixedRow K (Source D K) (List F))) :
    parent.fixedCalls (fixed.dropWhile fun x => p x.key) =
      (parent.fixedCalls fixed).dropWhile fun x => p x.1 := by
  unfold fixedCalls
  rw [Reducer.groupRows_dropWhile, dropWhile_map]
  rfl

variable {fixed : List (FixedRow K (Source D K) (List F))}

theorem fixedCalls_sorted (parent : EagerDir D K F)
    (h : fixed.Pairwise fun a b => a.key ≤ b.key) :
    (parent.fixedCalls fixed).Pairwise fun a b => a.1 < b.1 := by
  unfold fixedCalls
  rw [pairwise_map]
  exact (groupRows_spec h).1

variable {parent : EagerDir D K F}

theorem mem_fixedCalls
    (h : fixed.Pairwise fun a b => a.key ≤ b.key) {x : K × List F}
    (hx : x ∈ parent.fixedCalls fixed) : ∃ r ∈ fixed, r.key = x.1 := by
  obtain ⟨group, hgroup, rfl⟩ := mem_map.mp hx
  exact (((groupRows_spec h).2 group).mp hgroup).1

variable {row : FixedRow K (Source D K) (List F)}

theorem fixedMapData_eq {current : ℕ}
    (h : parent.fixedData.data.rows[current]? = some row) :
    let group := (parent.fixedData.data.rows.drop current).takeWhile
      fun r => decide (r.key = row.key)
    parent.fixedMapData row current =
      ((row.key, parent.fixedFiles (row.key, group.flatMap FixedRow.value)),
        current + group.length) := by
  intro group
  obtain ⟨hlt, hrow⟩ := List.getElem?_eq_some_iff.mp h
  have hgroup : group = row :: (parent.fixedData.data.rows.drop (current + 1)).takeWhile
      fun r => decide (r.key = row.key) := by
    change List.takeWhile _ _ = _
    rw [drop_eq_getElem_cons hlt, hrow]
    exact takeWhile_cons_of_pos (by simp)
  unfold fixedMapData fixedFiles
  dsimp only
  split
  · rename_i hfast
    rw [Bool.and_eq_true, Option.isNone_iff_eq_none] at hfast
    obtain ⟨hred, hany⟩ := hfast
    rw [Option.any_eq_true] at hany
    obtain ⟨next, hnext, hne⟩ := hany
    obtain ⟨hlt', hnext'⟩ := List.getElem?_eq_some_iff.mp hnext
    have hnone : ((parent.fixedData.data.rows.drop (current + 1)).takeWhile
        fun r => decide (r.key = row.key)) = [] := by
      rw [drop_eq_getElem_cons hlt', hnext']
      exact takeWhile_cons_of_neg (by simpa using hne)
    rw [hgroup, hnone, hred]
    simp
  · rfl

def inEnd (stop : Option K) (key : K) : Bool := stop.all fun endKey => decide (key ≤ endKey)

variable {stop : Option K}

theorem inEnd_of_le {key key' : K} (hle : key' ≤ key)
    (h : inEnd stop key = true) : inEnd stop key' = true := by
  cases stop with
  | none => rfl
  | some endKey => exact decide_eq_true (hle.trans (of_decide_eq_true h))

theorem rangeEnd_lt (parent : EagerDir D K F) (stop : Option K) :
    parent.rangeEnd stop < parent.fixedData.data.rows.length := by
  unfold rangeEnd
  cases stop with
  | none =>
    dsimp only
    omega
  | some key =>
    dsimp only
    omega

theorem inEnd_of_rangeEnd (stop : Option K) {i : ℕ}
    (hrow : parent.fixedData.data.rows[i]? = some row)
    (hi : (i : ℤ) ≤ parent.rangeEnd stop) : inEnd stop row.key = true := by
  cases stop with
  | none => rfl
  | some key =>
    obtain ⟨hbelow, _⟩ := SortedSearch.findFirst_cut parent.fixedData.data.rows _
      (SortedSearch.pairwise_compare_gt key parent.fixedData.data.keys_sorted)
    unfold rangeEnd at hi
    dsimp only at hi
    set pos := parent.fixedData.data.getPos key with hpos
    apply decide_eq_true
    by_cases hlt : i < pos
    · have hmem : row ∈ parent.fixedData.data.rows.take pos :=
        mem_take_iff_getElem.mpr (by
          obtain ⟨hlen, hget⟩ := List.getElem?_eq_some_iff.mp hrow
          exact ⟨i, by omega, hget⟩)
      exact (compare_gt_iff_gt.mp (hbelow row hmem)).le
    · have hiseq : i = pos := by
        split_ifs at hi <;> omega
      rw [hiseq] at hrow
      rw [hrow, Option.any_some] at hi
      by_contra hne
      have hdec : decide (row.key ≠ key) = true := by
        apply decide_eq_true
        exact fun he => hne he.le
      rw [if_pos hdec] at hi
      omega

theorem le_rangeEnd {i : ℕ}
    (hrow : parent.fixedData.data.rows[i]? = some row)
    (hin : inEnd stop row.key = true)
    (hfirst : ∀ r ∈ parent.fixedData.data.rows.take i, r.key < row.key) :
    (i : ℤ) ≤ parent.rangeEnd stop := by
  obtain ⟨hlen, hget⟩ := List.getElem?_eq_some_iff.mp hrow
  unfold rangeEnd
  cases stop with
  | none =>
    dsimp only
    omega
  | some key =>
    have hle : row.key ≤ key := of_decide_eq_true hin
    obtain ⟨_, habove⟩ := SortedSearch.findFirst_cut parent.fixedData.data.rows _
      (SortedSearch.pairwise_compare_gt key parent.fixedData.data.keys_sorted)
    dsimp only
    set pos := parent.fixedData.data.getPos key with hpos
    by_cases hlt : i < pos
    · split_ifs <;> omega
    · have hat : ∀ j (hj : j < parent.fixedData.data.rows.length), pos ≤ j →
          key ≤ (parent.fixedData.data.rows[j]).key := by
        intro j hj hle'
        have hmem : parent.fixedData.data.rows[j] ∈ parent.fixedData.data.rows.drop pos :=
          mem_drop_iff_getElem.mpr ⟨j - pos, by omega, by congr 1; omega⟩
        have hne := habove _ hmem
        rwa [ne_eq, compare_gt_iff_gt, not_lt] at hne
      have hposlt : pos < parent.fixedData.data.rows.length := by omega
      have hiseq : i = pos := by
        by_contra hne
        have hmem : parent.fixedData.data.rows[pos] ∈ parent.fixedData.data.rows.take i :=
          mem_take_iff_getElem.mpr ⟨pos, by omega, rfl⟩
        have hlow := hfirst _ hmem
        exact absurd (hlow.trans_le hle) (hat pos hposlt le_rfl).not_gt
      have hkey : row.key = key := by
        apply le_antisymm hle
        rw [← hget]
        exact hat i hlen (by omega)
      have hdec : ¬decide (row.key ≠ key) = true := by simp [hkey]
      rw [← hiseq, hrow, Option.any_some, if_neg hdec]
      omega

/-- `fixed` are the rows of the range that the loops come to from `current`. -/
structure Stands (parent : EagerDir D K F) (stop : Option K) (current : ℕ)
    (fixed : List (FixedRow K (Source D K) (List F))) : Prop where
  split : fixed ≠ [] → ∃ beyond, parent.fixedData.data.rows.drop current = fixed ++ beyond ∧
    ∀ r ∈ beyond, inEnd stop r.key = false
  within : ∀ r ∈ fixed, inEnd stop r.key = true
  low : ∀ r ∈ parent.fixedData.data.rows.take current, ∀ r' ∈ fixed, r.key < r'.key
  done : fixed = [] → parent.rangeEnd stop < current

namespace Stands
variable {parent : EagerDir D K F} {stop : Option K} {current : ℕ}
  {fixed : List (FixedRow K (Source D K) (List F))}

theorem sorted (h : parent.Stands stop current fixed) :
    fixed.Pairwise fun a b => a.key ≤ b.key := by
  by_cases hnil : fixed = []
  · rw [hnil]
    exact List.Pairwise.nil
  · obtain ⟨beyond, hsplit, _⟩ := h.split hnil
    have hdrop := parent.fixedData.data.keys_sorted.sublist
      (drop_sublist current parent.fixedData.data.rows)
    rw [hsplit] at hdrop
    exact (pairwise_append.mp hdrop).1

theorem fixedAt_nil (h : parent.Stands stop current []) :
    parent.fixedAt (parent.rangeEnd stop) current = none := by
  have hdone := h.done rfl
  unfold fixedAt
  exact if_neg (by omega)

variable {rest : List (FixedRow K (Source D K) (List F))} {r : FixedRow K (Source D K) (List F)}

theorem getElem (h : parent.Stands stop current (r :: rest)) :
    parent.fixedData.data.rows[current]? = some r := by
  obtain ⟨beyond, hsplit, _⟩ := h.split (cons_ne_nil r rest)
  rw [← List.head?_drop, hsplit]
  rfl

theorem current_le (h : parent.Stands stop current (r :: rest)) :
    (current : ℤ) ≤ parent.rangeEnd stop :=
  le_rangeEnd h.getElem (h.within r mem_cons_self)
    fun x hx => h.low x hx r mem_cons_self

theorem fixedAt_cons (h : parent.Stands stop current (r :: rest)) :
    parent.fixedAt (parent.rangeEnd stop) current = some r := by
  unfold fixedAt
  rw [if_pos h.current_le, h.getElem]

theorem group_eq (h : parent.Stands stop current (r :: rest)) :
    (parent.fixedData.data.rows.drop current).takeWhile (fun x => decide (x.key = r.key)) =
      (r :: rest).takeWhile fun x => decide (x.key = r.key) := by
  obtain ⟨beyond, hsplit, hbeyond⟩ := h.split (cons_ne_nil r rest)
  have hin := h.within r mem_cons_self
  have hnone : beyond.takeWhile (fun x => decide (x.key = r.key)) = [] := by
    cases beyond with
    | nil => rfl
    | cons b beyond =>
      apply takeWhile_cons_of_neg
      intro hb
      have hout := hbeyond b mem_cons_self
      rw [of_decide_eq_true hb, hin] at hout
      cases hout
  rw [hsplit, takeWhile_append, hnone, append_nil]
  split_ifs with hlength
  · exact (( takeWhile_prefix _).eq_of_length hlength).symm
  · rfl

theorem later (h : parent.Stands stop current (r :: rest)) :
    ∀ x ∈ (r :: rest).dropWhile (fun x => decide (x.key = r.key)), r.key < x.key := by
  intro x hx
  have hle : ∀ a ∈ r :: rest, r.key ≤ a.key := by
    intro a ha
    rcases mem_cons.mp ha with ha | ha
    · rw [ha]
    · exact (pairwise_cons.mp h.sorted).1 a ha
  exact ((mem_dropWhile_eq h.sorted r.key hle x).mp hx).2

theorem advance (h : parent.Stands stop current (r :: rest)) :
    parent.Stands stop
      (current + ((r :: rest).takeWhile fun x => decide (x.key = r.key)).length)
      ((r :: rest).dropWhile fun x => decide (x.key = r.key)) := by
  obtain ⟨beyond, hsplit, hbeyond⟩ := h.split (cons_ne_nil r rest)
  set group := (r :: rest).takeWhile fun x => decide (x.key = r.key) with hgroup
  set later := (r :: rest).dropWhile fun x => decide (x.key = r.key) with hlater
  have hjoin : group ++ later = r :: rest := takeWhile_append_dropWhile
  have hdrop : parent.fixedData.data.rows.drop (current + group.length) = later ++ beyond := by
    rw [← drop_drop, hsplit, ← hjoin, append_assoc, drop_left]
  have htake : parent.fixedData.data.rows.take (current + group.length) =
      parent.fixedData.data.rows.take current ++ group := by
    rw [take_add, hsplit, ← hjoin, append_assoc, take_left]
  have hmem : ∀ x ∈ later, x ∈ r :: rest := fun x hx => (dropWhile_sublist _).subset hx
  have habove : ∀ x ∈ later, r.key < x.key := h.later
  constructor
  · exact fun _ => ⟨beyond, hdrop, hbeyond⟩
  · exact fun x hx => h.within x (hmem x hx)
  · intro x hx x' hx'
    rw [htake] at hx
    rcases mem_append.mp hx with hx | hx
    · exact h.low x hx x' (hmem x' hx')
    · have hkey := mem_takeWhile_imp hx
      rw [of_decide_eq_true hkey]
      exact habove x' hx'
  · intro hnil
    by_contra hle
    have hlt := rangeEnd_lt parent stop
    obtain ⟨row, hrow⟩ : ∃ row, parent.fixedData.data.rows[current + group.length]? = some row :=
      ⟨_, List.getElem?_eq_getElem (by omega)⟩
    have hin := inEnd_of_rangeEnd stop hrow (by omega)
    rw [← List.head?_drop, hdrop, hnil, nil_append] at hrow
    have hout := hbeyond row (mem_of_head? hrow)
    rw [hin] at hout
    cases hout

theorem nil (hlt : parent.rangeEnd stop < current) : parent.Stands stop current [] := by
  constructor
  · exact fun h => absurd rfl h
  · exact fun _ hx => absurd hx not_mem_nil
  · exact fun _ _ _ hx => absurd hx not_mem_nil
  · exact fun _ => hlt

theorem dropWhile_of_lt {key : K} (h : key < r.key) :
    ((r :: rest).dropWhile fun x => decide (x.key = key)) = r :: rest :=
  dropWhile_cons_of_neg (by simpa using h.ne')

/-- The rows of a key with later writes are passed over. Where these are the last of the
range, only the first of them counts. -/
theorem skip (h : parent.Stands stop current fixed) {key : K} (hle : ∀ r ∈ fixed, key ≤ r.key) :
    parent.Stands stop (parent.skipKey (parent.rangeEnd stop) key current)
      (fixed.dropWhile fun x => decide (x.key = key)) := by
  have htake : ((parent.fixedData.data.rows.take (parent.rangeEnd stop + 1).toNat).drop current) =
      (parent.fixedData.data.rows.drop current).take
        ((parent.rangeEnd stop + 1).toNat - current) := drop_take ..
  unfold skipKey
  rw [htake, ← take_takeWhile]
  cases fixed with
  | nil =>
    have hdone := h.done rfl
    have hzero : (parent.rangeEnd stop + 1).toNat - current = 0 := by omega
    rw [hzero, take_zero]
    exact h
  | cons r rest =>
    have hcurrent := h.current_le
    rcases (hle r mem_cons_self).lt_or_eq with hlt | heq
    · obtain ⟨beyond, hsplit, _⟩ := h.split (cons_ne_nil r rest)
      have hnone : ((parent.fixedData.data.rows.drop current).takeWhile
          fun x => decide (x.key = key)) = [] := by
        rw [hsplit, cons_append]
        exact takeWhile_cons_of_neg (by simpa using hlt.ne')
      rw [hnone, take_nil, dropWhile_of_lt hlt]
      exact h
    · subst heq
      rw [h.group_eq, length_take]
      have hnext := h.advance
      set group := (r :: rest).takeWhile fun x => decide (x.key = r.key) with hgroup
      by_cases hfits : group.length ≤ (parent.rangeEnd stop + 1).toNat - current
      · rw [min_eq_right hfits]
        exact hnext
      · have hnil : ((r :: rest).dropWhile fun x => decide (x.key = r.key)) = [] := by
          cases hlater : (r :: rest).dropWhile fun x => decide (x.key = r.key) with
          | nil => rfl
          | cons x later =>
            rw [hlater] at hnext
            have := hnext.current_le
            omega
        rw [hnil, min_eq_left (by omega)]
        apply nil
        omega

end Stands

def before (bound : Option K) (key : K) : Bool := bound.all fun b => decide (key < b)

/-- A pass over fixed rows, up to a bound, that leaves `fixed'` to come. -/
structure FixedRun (parent : EagerDir D K F) (stop bound : Option K)
    (fixed : List (FixedRow K (Source D K) (List F))) (p : Pass K F)
    (fixed' : List (FixedRow K (Source D K) (List F))) : Prop where
  stands : parent.Stands stop p.current fixed'
  calls : parent.fixedCalls fixed = p.calls ++ parent.fixedCalls fixed'
  below : ∀ x ∈ p.calls, before bound x.1 = true
  ended : p.lastSkipped = none → ∀ r ∈ fixed', before bound r.key = false
  suspended : ∀ last, p.lastSkipped = some last →
    (∃ files, (last, files) ∈ p.calls) ∧ ∀ r ∈ fixed', last < r.key

theorem FixedRun.stay {stop bound : Option K} {current asked : ℕ}
    (h : parent.Stands stop current fixed)
    (hbound : ∀ r ∈ fixed, before bound r.key = false) :
    parent.FixedRun stop bound fixed ⟨[], none, current, asked⟩ fixed := by
  constructor
  · exact h
  · rfl
  · exact fun x hx => absurd hx not_mem_nil
  · exact fun _ => hbound
  · intro last hlast
    cases hlast

theorem FixedRun.cons {parent : EagerDir D K F} {stop bound : Option K}
    {r : FixedRow K (Source D K) (List F)} {rest fixed' : List (FixedRow K (Source D K) (List F))}
    {p : Pass K F} {call : K × List F}
    (h : parent.FixedRun stop bound ((r :: rest).dropWhile fun x => decide (x.key = r.key)) p fixed')
    (hcall : parent.fixedCalls (r :: rest) =
      call :: parent.fixedCalls ((r :: rest).dropWhile fun x => decide (x.key = r.key)))
    (hbound : before bound call.1 = true) :
    parent.FixedRun stop bound (r :: rest) { p with calls := call :: p.calls } fixed' := by
  constructor
  · exact h.stands
  · rw [hcall, h.calls]
    rfl
  · intro x hx
    rcases mem_cons.mp hx with hx | hx
    · rw [hx]
      exact hbound
    · exact h.below x hx
  · exact h.ended
  · intro last hlast
    obtain ⟨⟨files, hfiles⟩, hrest⟩ := h.suspended last hlast
    exact ⟨⟨files, mem_cons_of_mem _ hfiles⟩, hrest⟩

theorem fixedLoop_run (shouldGC : Option (ℕ → Bool))
    (bound : Option K) {current : ℕ} (asked : ℕ) (h : parent.Stands stop current fixed) :
    ∃ fixed', parent.FixedRun stop bound fixed
      (parent.fixedLoop shouldGC (parent.rangeEnd stop) bound current asked) fixed' := by
  induction hlength : fixed.length using Nat.strong_induction_on
    generalizing fixed current asked with
  | _ n ih =>
    rw [fixedLoop]
    cases fixed with
    | nil =>
      split
      · exact ⟨[], .stay h fun r hr => absurd hr not_mem_nil⟩
      · rename_i row hrow
        rw [h.fixedAt_nil] at hrow
        cases hrow
    | cons r rest =>
      split
      · rename_i hnone
        rw [h.fixedAt_cons] at hnone
        cases hnone
      · rename_i row hrow
        rw [h.fixedAt_cons] at hrow
        cases hrow
        by_cases hbound : (bound.all fun key => decide (r.key < key)) = true
        · have hnext := h.advance
          have hcons := parent.fixedCalls_cons r rest
          rw [if_pos hbound, fixedMapData_eq h.getElem, h.group_eq]
          dsimp only
          split_ifs with hsuspend
          · refine ⟨_, hnext, hcons, ?_, ?_, ?_⟩
            · intro x hx
              rw [mem_singleton.mp hx]
              exact hbound
            · intro hnone
              cases hnone
            · intro last hlast
              cases hlast
              exact ⟨⟨_, mem_singleton_self _⟩, h.later⟩
          · have hshorter : ((r :: rest).dropWhile fun x => decide (x.key = r.key)).length < n := by
              rw [dropWhile_cons_of_pos (by simp)]
              have := length_dropWhile_le (fun x => decide (x.key = r.key)) rest
              rw [length_cons] at hlength
              omega
            obtain ⟨fixed', hrun⟩ := ih _ hshorter (asked + 1) hnext rfl
            exact ⟨fixed', hrun.cons hcons hbound⟩
        · rw [if_neg hbound]
          refine ⟨r :: rest, .stay h ?_⟩
          intro x hx
          have hle : r.key ≤ x.key := by
            rcases mem_cons.mp hx with hx | hx
            · rw [hx]
            · exact (pairwise_cons.mp h.sorted).1 x hx
          cases bound with
          | none => exact absurd rfl hbound
          | some b =>
            have hnot : ¬r.key < b := fun hlt => hbound (decide_eq_true hlt)
            exact decide_eq_false fun hlt => hnot (hle.trans_lt hlt)

/-- The calls for the rest of a range: fixed rows and keys with later writes. -/
def callsOf (parent : EagerDir D K F) (stop : Option K) (keys : List K)
    (fixed : List (FixedRow K (Source D K) (List F))) : List (K × List F) :=
  overrideMerge Prod.fst (parent.fixedCalls fixed)
    ((keys.filter (inEnd stop)).map fun key => (key, parent.getArrayRaw key))

/-- A pass over the rest of a range. Suspended at a key, it leaves the keys above it. -/
structure RangeRun (parent : EagerDir D K F) (stop : Option K) (keys : List K)
    (fixed : List (FixedRow K (Source D K) (List F))) (p : Pass K F)
    (fixed' : List (FixedRow K (Source D K) (List F))) : Prop where
  stands : parent.Stands stop p.current fixed'
  ended : p.lastSkipped = none → p.calls = parent.callsOf stop keys fixed
  suspended : ∀ last, p.lastSkipped = some last →
    parent.callsOf stop keys fixed =
        p.calls ++ parent.callsOf stop (keys.filter fun key => decide (last < key)) fixed' ∧
      (∃ files, (last, files) ∈ p.calls) ∧ ∀ r ∈ fixed', last < r.key

variable {keys : List K}

theorem mem_callsOf
    (hkeys : keys.Pairwise (· < ·)) (hfixed : fixed.Pairwise fun a b => a.key ≤ b.key)
    {x : K × List F} (hx : x ∈ parent.callsOf stop keys fixed) :
    x.1 ∈ keys ∨ ∃ r ∈ fixed, r.key = x.1 := by
  have hm : ((keys.filter (inEnd stop)).map fun key =>
      (key, parent.getArrayRaw key)).Pairwise fun a b => a.1 < b.1 := by
    rw [pairwise_map]
    exact hkeys.filter _
  have hf := (parent.fixedCalls_sorted hfixed).imp le_of_lt
  rcases (mem_overrideMerge hf hm x).mp hx with hx | hx
  · obtain ⟨key, hkey, rfl⟩ := mem_map.mp hx
    exact Or.inl (mem_filter.mp hkey).1
  · exact Or.inr (mem_fixedCalls hfixed hx.1)

theorem RangeRun.ofFixed
    {fixed fixed' : List (FixedRow K (Source D K) (List F))} {p : Pass K F}
    (h : parent.FixedRun stop none fixed p fixed')
    (hkeys : ∀ key ∈ keys, inEnd stop key = false) :
    parent.RangeRun stop keys fixed p fixed' := by
  have hnone : ∀ ks : List K, (∀ key ∈ ks, key ∈ keys) →
      ∀ fs, parent.callsOf stop ks fs = parent.fixedCalls fs := by
    intro ks hsub fs
    have hempty : ks.filter (inEnd stop) = [] := by
      rw [filter_eq_nil_iff]
      intro key hkey hin
      rw [hkeys key (hsub key hkey)] at hin
      cases hin
    unfold callsOf
    rw [hempty]
    rfl
  constructor
  · exact h.stands
  · intro hlast
    have hnil : fixed' = [] := by
      cases fixed' with
      | nil => rfl
      | cons r rest => cases h.ended hlast r mem_cons_self
    rw [hnone keys (fun _ hk => hk), h.calls, hnil]
    exact (append_nil _).symm
  · intro last hlast
    rw [hnone keys (fun _ hk => hk), hnone _ fun _ hk => (mem_filter.mp hk).1]
    exact ⟨h.calls, h.suspended last hlast⟩

theorem callsOf_append {key : K} (keys : List K)
    {fixed fixed' : List (FixedRow K (Source D K) (List F))} {calls : List (K × List F)}
    (hin : inEnd stop key = true)
    (hcalls : parent.fixedCalls fixed = calls ++ parent.fixedCalls fixed')
    (hbelow : ∀ x ∈ calls, before (some key) x.1 = true) :
    parent.callsOf stop (key :: keys) fixed =
      calls ++ parent.callsOf stop (key :: keys) fixed' := by
  unfold callsOf
  rw [filter_cons_of_pos hin, map_cons, hcalls]
  apply overrideMerge_append
  exact fun x hx => of_decide_eq_true (hbelow x hx)

theorem callsOf_cons {key : K} (hin : inEnd stop key = true)
    (hsorted : fixed.Pairwise fun a b => a.key ≤ b.key) (hle : ∀ r ∈ fixed, key ≤ r.key) :
    parent.callsOf stop (key :: keys) fixed = (key, parent.getArrayRaw key) ::
      parent.callsOf stop keys (fixed.dropWhile fun r => decide (r.key = key)) := by
  have hnot : ∀ x ∈ parent.fixedCalls fixed, ¬x.1 < key := by
    intro x hx
    obtain ⟨r, hr, hkey⟩ := mem_fixedCalls hsorted hx
    rw [← hkey]
    exact (hle r hr).not_gt
  unfold callsOf
  rw [filter_cons_of_pos hin, map_cons, overrideMerge_cons _ _ hnot,
    ← fixedCalls_dropWhile parent fun k => decide (k = key)]

theorem subMapData_run (shouldGC : Option (ℕ → Bool))
    (hkeys : keys.Pairwise (· < ·)) {current : ℕ} (asked : ℕ)
    (h : parent.Stands stop current fixed) :
    ∃ fixed', parent.RangeRun stop keys fixed
      (parent.subMapData shouldGC (parent.rangeEnd stop) stop keys current asked) fixed' := by
  induction keys generalizing current asked fixed with
  | nil =>
    obtain ⟨fixed', hrun⟩ := fixedLoop_run shouldGC none asked h
    exact ⟨fixed', .ofFixed hrun fun _ hk => absurd hk not_mem_nil⟩
  | cons key keys ih =>
    obtain ⟨habove, hrest⟩ := pairwise_cons.mp hkeys
    rw [subMapData]
    split_ifs with hpast
    · obtain ⟨fixed', hrun⟩ := fixedLoop_run shouldGC none asked h
      refine ⟨fixed', .ofFixed hrun ?_⟩
      cases stop with
      | none => cases hpast
      | some endKey =>
        have hlt : endKey < key := of_decide_eq_true hpast
        intro k hk
        apply decide_eq_false
        rcases mem_cons.mp hk with hk | hk
        · rw [hk]
          exact hlt.not_ge
        · exact (hlt.trans (habove k hk)).not_ge
    · have hin : inEnd stop key = true := by
        cases stop with
        | none => rfl
        | some endKey =>
          have hnot : ¬endKey < key := fun hlt => hpast (decide_eq_true hlt)
          exact decide_eq_true (not_lt.mp hnot)
      obtain ⟨fixed₁, hbefore⟩ := fixedLoop_run shouldGC (some key) asked h
      have happend := callsOf_append keys hin hbefore.calls hbefore.below
      dsimp only
      generalize parent.fixedLoop shouldGC (parent.rangeEnd stop) (some key) current asked = b
        at hbefore happend
      cases hskipped : b.lastSkipped with
      | some last =>
        obtain ⟨⟨files, hfiles⟩, hlater⟩ := hbefore.suspended last hskipped
        have hlast : last < key := of_decide_eq_true (hbefore.below _ hfiles)
        have hall : ((key :: keys).filter fun k => decide (last < k)) = key :: keys := by
          rw [filter_eq_self]
          intro k hk
          apply decide_eq_true
          rcases mem_cons.mp hk with hk | hk
          · rw [hk]
            exact hlast
          · exact hlast.trans (habove k hk)
        refine ⟨fixed₁, hbefore.stands, ?_, ?_⟩
        · intro hnone
          rw [hskipped] at hnone
          cases hnone
        · intro last' hlast'
          rw [hskipped] at hlast'
          cases hlast'
          rw [hall]
          exact ⟨happend, ⟨files, hfiles⟩, hlater⟩
      | none =>
        have hle : ∀ r ∈ fixed₁, key ≤ r.key := by
          intro r hr
          have hnot := hbefore.ended hskipped r hr
          exact not_lt.mp (of_decide_eq_false hnot)
        have hsorted := hbefore.stands.sorted
        have hskip := hbefore.stands.skip hle
        have hlater : ∀ r ∈ fixed₁.dropWhile (fun r => decide (r.key = key)), key < r.key :=
          fun r hr => ((mem_dropWhile_eq hsorted key hle r).mp hr).2
        rw [callsOf_cons hin hsorted hle] at happend
        dsimp only
        split_ifs with hsuspend
        · have hall : ((key :: keys).filter fun k => decide (key < k)) = keys := by
            rw [filter_cons_of_neg (by simp), filter_eq_self]
            exact fun k hk => decide_eq_true (habove k hk)
          refine ⟨_, hskip, ?_, ?_⟩
          · intro hnone
            cases hnone
          · intro last hlast
            cases hlast
            rw [happend, hall, append_assoc]
            exact ⟨rfl, ⟨_, mem_append_right _ (mem_singleton_self _)⟩, hlater⟩
        · obtain ⟨fixed₂, hrun⟩ := ih hrest (b.asked + 1) hskip
          refine ⟨fixed₂, hrun.stands, ?_, ?_⟩
          · intro hnone
            rw [happend, ← hrun.ended hnone]
            exact append_assoc _ _ _
          · intro last hlast
            obtain ⟨hcalls, ⟨files, hfiles⟩, hlater'⟩ := hrun.suspended last hlast
            have hkey : key < last := by
              have hmem := mem_callsOf hrest hskip.sorted
                (hcalls ▸ mem_append_left _ hfiles)
              rcases hmem with hmem | ⟨r, hr, heq⟩
              · exact habove last hmem
              · exact lt_of_lt_of_eq (hlater r hr) heq
            rw [filter_cons_of_neg (by simpa using hkey.le), happend, hcalls]
            refine ⟨?_, ⟨files, mem_append_right _ hfiles⟩, hlater'⟩
            simp only [append_assoc, cons_append, nil_append]

end EagerDir
end SkipPlatform
