import SkipPlatform.EagerDirReaders

set_option autoImplicit false
set_option linter.unusedSectionVars false

/-! The purge of a directory. The rows of the new fixed part are those of the entries,
without the tombstones up to the limit. -/
namespace SkipPlatform.EagerDir
open List SortedMerge StoreSourceMap
variable {D K F : Type} [LinearOrder D] [StoreKey K]

abbrev PlacedEntry (D K F : Type) := K × Entry (Source D K) F

theorem flattenKey_eq (key : K) (fixed : List (PlacedEntry D K F))
    (es : List (Entry (Source D K) F)) :
    flattenKey key fixed es =
      (overrideMerge FixedDataMap.placeOf (fixed.takeWhile fun x => decide (x.1 = key))
        (es.map fun e => (key, e)), fixed.dropWhile fun x => decide (x.1 = key)) := by
  induction es generalizing fixed with
  | nil => rfl
  | cons e es ih =>
    set own := fixed.takeWhile fun x => decide (x.1 = key) with hown
    have hkey : ∀ x ∈ own, x.1 = key := by
      intro x hx
      have hx' := mem_takeWhile_imp hx
      exact of_decide_eq_true hx'
    have hlt : ∀ x ∈ own, decide (FixedDataMap.placeOf x < FixedDataMap.placeOf (key, e)) =
        decide (x.2.source < e.source) := by
      intro x hx
      unfold FixedDataMap.placeOf
      rw [hkey x hx]
      exact decide_eq_decide.mpr FixedDataMap.source_lt
    have heq : ∀ x ∈ own, @decide (FixedDataMap.placeOf x = FixedDataMap.placeOf (key, e))
        (LinearOrder.toDecidableEq _ _) = decide (x.2.source = e.source) := by
      intro x hx
      apply decide_eq_decide.mpr
      unfold FixedDataMap.placeOf
      rw [hkey x hx]
      simp
    have hrest : ∀ x ∈ own.dropWhile (fun x => decide (x.2.source < e.source)), x ∈ own :=
      fun x hx => (dropWhile_sublist _).subset hx
    have hbefore : (fixed.takeWhile fun x => decide (x.1 = key) && decide (x.2.source < e.source)) =
        own.takeWhile fun x => decide (x.2.source < e.source) := by
      rw [hown, takeWhile_takeWhile]
      exact (takeWhile_congr fun x _ => by simp [and_comm]).1
    rw [flattenKey, ih, map_cons, overrideMerge, dropWhile_dropWhile_and,
      dropWhile_dropWhile_and, takeWhile_dropWhile, takeWhile_dropWhile, ← hown,
      (takeWhile_congr hlt).1, (takeWhile_congr hlt).2,
      (takeWhile_congr fun x hx => heq x (hrest x hx)).2, hbefore]

theorem placeOf_fst_le {x y : PlacedEntry D K F}
    (h : FixedDataMap.placeOf x ≤ FixedDataMap.placeOf y) : x.1 ≤ y.1 := by
  rcases Prod.Lex.toLex_le_toLex.mp h with h | ⟨h, _⟩
  · exact h.le
  · exact h.le

theorem placeOf_lt_of_fst {x y : PlacedEntry D K F} (h : x.1 < y.1) :
    FixedDataMap.placeOf x < FixedDataMap.placeOf y := Prod.Lex.toLex_lt_toLex.mpr (Or.inl h)

theorem keyed_sorted {es : List (Entry (Source D K) F)} (key : K)
    (h : es.Pairwise fun a b => a.source < b.source) :
    (es.map fun e => (key, e)).Pairwise fun a b =>
      FixedDataMap.placeOf a < FixedDataMap.placeOf b := by
  rw [pairwise_map]
  exact h.imp FixedDataMap.source_lt.mpr

section Flatten
variable {fixed : List (PlacedEntry D K F)}
  (hs : fixed.Pairwise fun a b => FixedDataMap.placeOf a ≤ FixedDataMap.placeOf b)
include hs

theorem fst_sorted : fixed.Pairwise fun a b => a.1 ≤ b.1 := hs.imp placeOf_fst_le

theorem flattenRows_cons (key : K) (map : DataMapValue (Source D K) F)
    (rest : List (K × DataMapValue (Source D K) F)) :
    flattenRows fixed ((key, map) :: rest) =
      (fixed.takeWhile fun x => decide (x.1 < key)) ++
        overrideMerge FixedDataMap.placeOf
          ((fixed.dropWhile fun x => decide (x.1 < key)).takeWhile fun x => decide (x.1 = key))
          (map.items.map fun e => (key, e)) ++
        flattenRows ((fixed.dropWhile fun x => decide (x.1 < key)).dropWhile
          fun x => decide (x.1 = key)) rest := by
  rw [flattenRows, flattenKey_eq]

theorem own_sorted (key : K) :
    ((fixed.dropWhile fun x => decide (x.1 < key)).takeWhile fun x => decide (x.1 = key)).Pairwise
      fun a b => FixedDataMap.placeOf a ≤ FixedDataMap.placeOf b :=
  (hs.sublist (dropWhile_sublist _)).sublist (takeWhile_sublist _)

theorem mem_own (key : K) (x : PlacedEntry D K F) :
    x ∈ ((fixed.dropWhile fun x => decide (x.1 < key)).takeWhile fun x => decide (x.1 = key)) ↔
      x ∈ fixed ∧ x.1 = key := by
  have hdrop := fst_sorted (hs.sublist (dropWhile_sublist fun x => decide (x.1 < key)))
  rw [mem_takeWhile_eq hdrop key fun y hy => ((mem_dropWhile_lt (fst_sorted hs) key y).mp hy).2,
    mem_dropWhile_lt (fst_sorted hs)]
  constructor
  · intro h
    exact ⟨h.1.1, h.2⟩
  · intro h
    exact ⟨⟨h.1, h.2.ge⟩, h.2⟩

theorem mem_ownMerge (key : K) (map : DataMapValue (Source D K) F) (x : PlacedEntry D K F) :
    x ∈ overrideMerge FixedDataMap.placeOf
        ((fixed.dropWhile fun x => decide (x.1 < key)).takeWhile fun x => decide (x.1 = key))
        (map.items.map fun e => (key, e)) ↔
      x.1 = key ∧ (x.2 ∈ map.items ∨
        x ∈ fixed ∧ ∀ m ∈ map.items, m.source ≠ x.2.source) := by
  rw [mem_overrideMerge (own_sorted hs key) (keyed_sorted key map.items_sorted), mem_own hs]
  constructor
  · rintro (h | ⟨⟨h, hk⟩, hn⟩)
    · obtain ⟨e, he, rfl⟩ := mem_map.mp h
      exact ⟨rfl, Or.inl he⟩
    · refine ⟨hk, Or.inr ⟨h, ?_⟩⟩
      intro m hm hms
      apply hn (key, m) (mem_map_of_mem hm)
      unfold FixedDataMap.placeOf
      rw [hk, hms]
  · rintro ⟨hk, h | ⟨h, hn⟩⟩
    · exact Or.inl (mem_map.mpr ⟨x.2, h, by rw [← hk]⟩)
    · refine Or.inr ⟨⟨h, hk⟩, ?_⟩
      intro y hy he
      obtain ⟨m, hm, rfl⟩ := mem_map.mp hy
      exact hn m hm (Prod.mk.inj (toLex.injective he)).2

theorem mem_flattenRows {items : List (K × DataMapValue (Source D K) F)}
    (hi : items.Pairwise fun a b => a.1 < b.1) (x : PlacedEntry D K F) :
    x ∈ flattenRows fixed items ↔ (∃ v, (x.1, v) ∈ items ∧ x.2 ∈ v.items) ∨
      x ∈ fixed ∧ ∀ v, (x.1, v) ∈ items → ∀ m ∈ v.items, m.source ≠ x.2.source := by
  induction items generalizing fixed with
  | nil => simp [flattenRows]
  | cons item rest ih =>
    obtain ⟨key, map⟩ := item
    obtain ⟨hkey, hrest⟩ := pairwise_cons.mp hi
    rw [flattenRows_cons hs, mem_append, mem_append, mem_takeWhile_lt (fst_sorted hs),
      mem_ownMerge hs, ih (rest_sorted hs key) hrest, mem_rest (fst_sorted hs)]
    have hcons : ∀ v, (x.1, v) ∈ (key, map) :: rest ↔ (x.1 = key ∧ v = map) ∨ (x.1, v) ∈ rest := by
      intro v
      rw [mem_cons, Prod.mk.injEq]
    have hgt : ∀ v, (x.1, v) ∈ rest → key < x.1 := fun v hv => hkey _ hv
    simp only [hcons]
    rcases lt_trichotomy x.1 key with hlt | heq | hlt
    · have hno : ∀ v, (x.1, v) ∉ rest := fun v hv => hlt.not_gt (hgt v hv)
      simp [hlt, hlt.ne, hlt.not_gt, hno]
    · have hno : ∀ v, (x.1, v) ∉ rest := fun v hv => heq.not_gt (hgt v hv)
      simp [heq] at hno ⊢
      simp [hno]
    · simp [hlt, hlt.ne', hlt.not_gt]

theorem flattenRows_pairwise (R : K ×ₗ Source D K → K ×ₗ Source D K → Prop)
    (hlt : ∀ {a b}, a < b → R a b)
    (hR : fixed.Pairwise fun a b => R (FixedDataMap.placeOf a) (FixedDataMap.placeOf b))
    {items : List (K × DataMapValue (Source D K) F)} (hi : items.Pairwise fun a b => a.1 < b.1) :
    (flattenRows fixed items).Pairwise fun a b =>
      R (FixedDataMap.placeOf a) (FixedDataMap.placeOf b) := by
  induction items generalizing fixed with
  | nil => exact hR
  | cons item rest ih =>
    obtain ⟨key, map⟩ := item
    obtain ⟨hkey, hrest⟩ := pairwise_cons.mp hi
    have hlater : ∀ y ∈ flattenRows ((fixed.dropWhile fun x => decide (x.1 < key)).dropWhile
        fun x => decide (x.1 = key)) rest, key < y.1 := by
      intro y hy
      rcases (mem_flattenRows (rest_sorted hs key) hrest y).mp hy with ⟨v, hv, _⟩ | ⟨hy, _⟩
      · exact hkey _ hv
      · exact ((mem_rest (fst_sorted hs) key y).mp hy).2
    rw [flattenRows_cons hs, append_assoc, pairwise_append, pairwise_append]
    have hown := (hR.sublist (dropWhile_sublist fun x => decide (x.1 < key))).sublist
      (takeWhile_sublist fun x => decide (x.1 = key))
    refine ⟨hR.sublist (takeWhile_sublist _),
      ⟨overrideMerge_pairwise R hlt (own_sorted hs key) hown
        (keyed_sorted key map.items_sorted), ih (rest_sorted hs key) (rest_sorted hR key) hrest, ?_⟩,
      ?_⟩
    · intro a ha b hb
      have hak := ((mem_ownMerge hs key map a).mp ha).1
      exact hlt (placeOf_lt_of_fst (hak ▸ hlater b hb))
    · intro a ha b hb
      have hak := ((mem_takeWhile_lt (fst_sorted hs) key a).mp ha).2
      apply hlt
      apply placeOf_lt_of_fst
      rcases mem_append.mp hb with hb | hb
      · rw [((mem_ownMerge hs key map b).mp hb).1]
        exact hak
      · exact hak.trans (hlater b hb)

end Flatten
def flattened (d : EagerDir D K F) : List (PlacedEntry D K F) :=
  collapse FixedDataMap.placeOf (flattenRows d.fixedData.getIterAll d.data.items)

theorem flattened_sorted (d : EagerDir D K F) :
    d.flattened.Pairwise fun a b => FixedDataMap.placeOf a < FixedDataMap.placeOf b :=
  collapse_sorted (flattenRows_pairwise d.fixedData.getIterAll_sorted (· ≤ ·) le_of_lt
    d.fixedData.getIterAll_sorted d.data.items_sorted)

def valueRow (x : PlacedEntry D K F) : Option (FixedRow K (Source D K) (List F)) :=
  if x.2.files.isEmpty then none else some ⟨x.1, x.2.files, x.2.source, x.2.tick⟩

def tombRow (limit : ℕ) (x : PlacedEntry D K F) : Option (FixedRow K (Source D K) (Source D K)) :=
  if x.2.files.isEmpty && decide (limit < x.2.tick) then
    some ⟨x.1, x.2.writer, x.2.source, x.2.tick⟩
  else none

theorem valueRow_eq_some {x : PlacedEntry D K F} {r : FixedRow K (Source D K) (List F)} :
    valueRow x = some r ↔ x.2.files ≠ [] ∧ ⟨x.1, x.2.files, x.2.source, x.2.tick⟩ = r := by
  unfold valueRow
  by_cases hf : x.2.files = []
  · simp [hf]
  · simp [hf]

theorem tombRow_eq_some {limit : ℕ} {x : PlacedEntry D K F}
    {r : FixedRow K (Source D K) (Source D K)} :
    tombRow limit x = some r ↔
      x.2.files = [] ∧ limit < x.2.tick ∧ ⟨x.1, x.2.writer, x.2.source, x.2.tick⟩ = r := by
  unfold tombRow
  by_cases hf : x.2.files = []
  · by_cases ht : limit < x.2.tick
    · simp [hf, ht]
    · simp [hf, ht]
  · simp [hf]

theorem flatten_apart (d : EagerDir D K F) (limit : ℕ) :
    ∀ x ∈ d.flattened.filterMap valueRow, ∀ y ∈ d.flattened.filterMap (tombRow limit),
      x.place ≠ y.place := by
  intro r hr r' hr' he
  obtain ⟨x, hx, hxr⟩ := mem_filterMap.mp hr
  obtain ⟨y, hy, hyr⟩ := mem_filterMap.mp hr'
  obtain ⟨hxf, hxr⟩ := valueRow_eq_some.mp hxr
  obtain ⟨hyf, _, hyr⟩ := tombRow_eq_some.mp hyr
  rw [← hxr, ← hyr] at he
  have hxy : x = y := unique_of_sorted d.flattened_sorted hx hy he
  rw [hxy] at hxf
  exact hxf hyf

def flattenData (d : EagerDir D K F) (limit : ℕ) : FixedDataMap K (Source D K) F :=
  .create (d.flattened.filterMap valueRow) (d.flattened.filterMap (tombRow limit))
    (d.flatten_apart limit)

/-- `none` is a violated invariant. -/
def purge (d : EagerDir D K F) (limit : ℕ) : Option (EagerDir D K F) :=
  if d.tombLimit.any fun tombLimit => decide (limit ≤ tombLimit) then some d
  else
    d.purgeOld.map fun fixedOld =>
      { d with
        tombLimit := some limit
        data := .empty
        old := .empty
        fixedData := d.flattenData limit
        fixedOld := fixedOld }

variable {d : EagerDir D K F}

theorem mem_flattened (h : d.fixedData.Distinct) (x : PlacedEntry D K F) :
    x ∈ d.flattened ↔ x.2 ∈ d.entries x.1 := by
  have hstrict := flattenRows_pairwise d.fixedData.getIterAll_sorted (· < ·) id
    (FixedDataMap.getIterAll_strict h) d.data.items_sorted
  unfold flattened
  rw [collapse_of_sorted hstrict,
    mem_flattenRows d.fixedData.getIterAll_sorted d.data.items_sorted, mem_entries,
    ← FixedDataMap.mem_getIter]
  simp only [DataMap.mem_items]
  unfold DataMap.value
  cases hv : d.data.maybeGet x.1 with
  | none => simp
  | some v => simp

theorem writer_eq_source (h : d.Valid) {key : K}
    {e : Entry (Source D K) F} (he : e ∈ d.entries key) (hf : e.files ≠ []) :
    e.writer = e.source := by
  rcases mem_entries.mp he with hi | ⟨hfix, _⟩
  · rcases (DataMapValue.mem_items (h.data.coherent key) e).mp hi with hm | ht
    · obtain ⟨⟨s, ⟨w, fs⟩, t⟩, hx, rfl⟩ := mem_map.mp hm
      cases fs with
      | nil => exact absurd rfl hf
      | cons f fs => exact ((h.data.coherent key).written hx).1
    · obtain ⟨y, _, rfl⟩ := mem_map.mp ht
      exact absurd rfl hf
  · obtain ⟨r, _, _, rfl⟩ := row_of_files hfix hf
    rfl

section Purged
variable {d : EagerDir D K F} (h : d.Valid) (limit : ℕ)
include h

theorem rows_flattenData :
    (d.flattenData limit).data.rows = d.flattened.filterMap valueRow ∧
      (d.flattenData limit).tombs.rows = d.flattened.filterMap (tombRow limit) ∧
        (d.flattenData limit).Distinct := by
  have hvalues : (d.flattened.filterMap valueRow).Pairwise fun a b => a.place < b.place := by
    rw [pairwise_filterMap]
    apply d.flattened_sorted.imp
    intro x y hxy r hr r' hr'
    rw [← (valueRow_eq_some.mp hr).2, ← (valueRow_eq_some.mp hr').2]
    exact hxy
  have htombs : (d.flattened.filterMap (tombRow limit)).Pairwise
      fun a b => a.place < b.place := by
    rw [pairwise_filterMap]
    apply d.flattened_sorted.imp
    intro x y hxy r hr r' hr'
    rw [← (tombRow_eq_some.mp hr).2.2, ← (tombRow_eq_some.mp hr').2.2]
    exact hxy
  have hv := FixedDir.rows_create_of_sorted (hvalues.imp le_of_lt)
  have ht := FixedDir.rows_create_of_sorted (htombs.imp le_of_lt)
  refine ⟨hv, ht, ?_, ?_⟩
  · change (FixedDir.create _).rows.Pairwise _
    rw [hv]
    exact hvalues
  · change (FixedDir.create _).rows.Pairwise _
    rw [ht]
    exact htombs

theorem mem_flattenData (key : K) (e : Entry (Source D K) F) :
    e ∈ (d.flattenData limit).getIter key ↔
      e ∈ d.entries key ∧ (e.files ≠ [] ∨ limit < e.tick) := by
  obtain ⟨hv, ht, _⟩ := rows_flattenData h limit
  rw [FixedDataMap.mem_getIter, FixedDataMap.mem_getIterAll, hv, ht]
  simp only [mem_filterMap, valueRow_eq_some, tombRow_eq_some, mem_flattened h.distinct]
  constructor
  · rintro (⟨r, ⟨x, hx, hf, rfl⟩, hr⟩ | ⟨r, ⟨x, hx, hf, hl, rfl⟩, hr⟩)
    · cases hr
      have hw := writer_eq_source h hx hf
      obtain ⟨k, t, s, w, fs⟩ := x
      cases hw
      exact ⟨hx, Or.inl hf⟩
    · cases hr
      obtain ⟨k, t, s, w, fs⟩ := x
      cases hf
      exact ⟨hx, Or.inr hl⟩
  · rintro ⟨he, hkeep⟩
    by_cases hf : e.files = []
    · have hl : limit < e.tick := hkeep.resolve_left fun hn => hn hf
      refine Or.inr ⟨_, ⟨(key, e), he, hf, hl, rfl⟩, ?_⟩
      obtain ⟨t, s, w, fs⟩ := e
      cases hf
      rfl
    · refine Or.inl ⟨_, ⟨(key, e), he, hf, rfl⟩, ?_⟩
      have hw := writer_eq_source h he hf
      obtain ⟨t, s, w, fs⟩ := e
      cases hw
      rfl

variable {d' : EagerDir D K F}

theorem valid_flattenData (hdata : d'.data = .empty)
    (hfixed : d'.fixedData = d.flattenData limit) : d'.Valid := by
  have hnone : ∀ k, (d'.data.value k).items = [] := by
    intro k
    rw [hdata]
    exact DataMap.value_of_none (DataMap.maybeGet_empty k)
  constructor
  · rw [hfixed]
    exact (rows_flattenData h limit).2.2
  · rw [hdata]
    exact DataMap.valid_empty
  · intro k e he
    rw [hnone k] at he
    cases he
  · intro k r _ _ e he
    rw [hnone k] at he
    cases he

theorem mem_entries_flattenData (hdata : d'.data = .empty)
    (hfixed : d'.fixedData = d.flattenData limit) (key : K) (e : Entry (Source D K) F) :
    e ∈ d'.entries key ↔ e ∈ d.entries key ∧ (e.files ≠ [] ∨ limit < e.tick) := by
  rw [← mem_flattenData h, ← hfixed, mem_entries, hdata,
    DataMap.value_of_none (DataMap.maybeGet_empty key)]
  simp

theorem until_flattenData (hdata : d'.data = .empty)
    (hfixed : d'.fixedData = d.flattenData limit) {now : ℕ} (hu : d.Until now) : d'.Until now := by
  constructor
  · intro k e he
    rw [hfixed] at he
    have he' := ((mem_flattenData h limit k e).mp he).1
    rcases mem_entries.mp he' with he' | ⟨he', _⟩
    · exact hu.data k e he'
    · exact hu.fixed k e he'
  · intro k e he
    rw [hdata, DataMap.value_of_none (DataMap.maybeGet_empty k)] at he
    cases he

end Purged

theorem purge_cases {d d' : EagerDir D K F} {limit : ℕ} (hp : d.purge limit = some d') :
    d' = d ∨ ∃ fixedOld, d' =
      { d with
        tombLimit := some limit
        data := .empty
        old := .empty
        fixedData := d.flattenData limit
        fixedOld := fixedOld } := by
  unfold purge at hp
  split_ifs at hp
  · exact Or.inl (Option.some.inj hp).symm
  · obtain ⟨fixedOld, _, hd⟩ := Option.map_eq_some_iff.mp hp
    exact Or.inr ⟨fixedOld, hd.symm⟩

def compacts (d : EagerDir D K F) : Bool := (d.oldRows.bind getMetadata).isSome

def OldValid (d : EagerDir D K F) : Prop := ∃ rows, d.fixedOld.Holds rows

variable {rows : List (StoreSourceMap.Row D K)}

theorem getOld_eq
    (h : d.fixedOld.Holds rows)
    (source : Source D K) :
    d.getOld source =
      some ((d.old.maybeGet source).getD ((lookup rows source).getD .empty)) := by
  unfold getOld
  cases d.old.maybeGet source with
  | some minfo => rfl
  | none =>
    rw [h.maybeGet]
    rfl

theorem getOld_writeEntry [DecidableEq F] (d : EagerDir D K F) (ctx : WriteContext D K)
    (origSource writer : Source D K) (k : K) (rvalues : List F) (source : Source D K) :
    (d.writeEntry ctx origSource writer k rvalues).getOld source = d.getOld source := by
  unfold writeEntry
  simp only
  split_ifs <;> rfl

theorem getOld_setOld (d : EagerDir D K F) (source source' : Source D K)
    (info : MInfo D K) : (d.setOld source info).getOld source' =
      if source' = source then some info else d.getOld source' := by
  unfold setOld getOld
  simp only [SortedMap.maybeGet_set]
  split_ifs <;> rfl

def keptRows (rows old : List (StoreSourceMap.Row D K)) : List (StoreSourceMap.Row D K) :=
  (overrideMerge Prod.fst rows old).filter fun row =>
    match row.2 with
    | .empty => false
    | _ => true

theorem keptRows_sorted {rows old : List (StoreSourceMap.Row D K)}
    (hr : rows.Pairwise fun a b => a.1 < b.1)
    (ho : old.Pairwise fun a b => a.1 < b.1) :
    (keptRows rows old).Pairwise fun a b => a.1 < b.1 :=
  (overrideMerge_pairwise (· < ·) id (hr.imp le_of_lt) hr ho).filter _

theorem mem_keptRows {rows old : List (StoreSourceMap.Row D K)}
    (hr : rows.Pairwise fun a b => a.1 < b.1)
    (ho : old.Pairwise fun a b => a.1 < b.1) (row : StoreSourceMap.Row D K) :
    row ∈ keptRows rows old ↔
      (row ∈ old ∨ row ∈ rows ∧ ∀ m ∈ old, m.1 ≠ row.1) ∧ row.2 ≠ .empty := by
  unfold keptRows
  rw [mem_filter, mem_overrideMerge (hr.imp le_of_lt) ho]
  apply and_congr_right
  intro _
  obtain ⟨source, minfo⟩ := row
  cases minfo <;> simp

theorem lookup_keptRows
    (hr : rows.Pairwise fun a b => a.1 < b.1)
    (old : SortedMap (Source D K) (MInfo D K)) (source : Source D K) :
    (lookup (keptRows rows old.items) source).getD .empty =
      (old.maybeGet source).getD ((lookup rows source).getD .empty) := by
  have ho := old.items_sorted
  have hk := keptRows_sorted hr ho
  set answer := (old.maybeGet source).getD ((lookup rows source).getD .empty) with hanswer
  have hmem : ∀ minfo, (source, minfo) ∈ keptRows rows old.items ↔
      answer = minfo ∧ minfo ≠ .empty := by
    intro minfo
    rw [mem_keptRows hr ho]
    apply and_congr_left
    intro hne
    cases hold : old.maybeGet source with
    | some m =>
      have hm := SortedMap.maybeGet_eq_some.mp hold
      rw [hanswer, hold, Option.getD_some, ← SortedMap.maybeGet_eq_some, hold]
      constructor
      · rintro (he | ⟨_, hno⟩)
        · exact Option.some.inj he
        · exact absurd rfl (hno (source, m) hm)
      · intro he
        exact Or.inl (congrArg some he)
    | none =>
      have hno := SortedMap.maybeGet_eq_none.mp hold
      rw [hanswer, hold, Option.getD_none, ← lookup_eq_some hr]
      constructor
      · rintro (he | ⟨he, _⟩)
        · exact absurd he (hno minfo)
        · rw [he]
          rfl
      · intro he
        refine Or.inr ⟨?_, ?_⟩
        · cases hl : lookup rows source with
          | none =>
            rw [hl] at he
            exact absurd he.symm hne
          | some m =>
            rw [hl] at he
            rw [← he]
            rfl
        · intro m hm hs
          obtain ⟨s, i⟩ := m
          cases hs
          exact hno i hm
  by_cases hempty : answer = .empty
  · have hnone : lookup (keptRows rows old.items) source = none := by
      rw [lookup_eq_none]
      intro row hrow hs
      obtain ⟨s, minfo⟩ := row
      cases hs
      have := (hmem minfo).mp hrow
      exact this.2 (this.1 ▸ hempty)
    rw [hnone, hempty]
    rfl
  · rw [(lookup_eq_some hk).mpr ((hmem answer).mpr ⟨rfl, hempty⟩)]
    rfl

theorem oldRows_eq
    (h : d.fixedOld.Holds rows) :
    d.oldRows = some (keptRows rows d.old.items) := by
  unfold oldRows
  rw [h.items]
  rfl

theorem purgeOld_spec
    (h : d.fixedOld.Holds rows)
    (hc : d.compacts = false) :
    ∃ m, d.purgeOld = some m ∧ m.Holds (keptRows rows d.old.items) := by
  have hk := keptRows_sorted h.sorted d.old.items_sorted
  have hmeta : getMetadata (keptRows rows d.old.items) = none := by
    unfold compacts at hc
    rw [oldRows_eq h] at hc
    exact Option.not_isSome_iff_eq_none.mp (by rw [← Bool.not_eq_true] at hc; exact hc)
  have hnodup : ((keptRows rows d.old.items).map Prod.fst).Nodup := by
    rw [List.Nodup, pairwise_map]
    exact hk.imp ne_of_lt
  have hsort : sortBy (keptRows rows d.old.items) = keptRows rows d.old.items := by
    apply eq_of_mem_iff Prod.fst (FixedSourceMap.sortBy_strict hnodup) hk
    intro row
    exact mem_mergeSort
  obtain ⟨m, hm, hholds⟩ := FixedSourceMap.create_holds hnodup hmeta false
  rw [hsort] at hholds
  refine ⟨m, ?_, hholds⟩
  unfold purgeOld
  rw [oldRows_eq h]
  exact hm

structure SameReads (limit : ℕ) (d d' : EagerDir D K F) : Prop where
  getArrayRaw : ∀ key, d'.getArrayRaw key = d.getArrayRaw key
  getArraySourceKey : ∀ source key, d'.getArraySourceKey source key = d.getArraySourceKey source key
  getOld : ∀ source, d'.getOld source = d.getOld source
  getChangesAfter : ∀ tick, limit < tick →
    (d'.getChangesAfter tick).1 = (d.getChangesAfter tick).1 ∧
      (d'.getChangesAfter tick).2.keys = (d.getChangesAfter tick).2.keys

theorem SameReads.refl (limit : ℕ) (d : EagerDir D K F) : SameReads limit d d :=
  ⟨fun _ => rfl, fun _ _ => rfl, fun _ => rfl, fun _ _ => ⟨rfl, rfl⟩⟩

theorem keys_eq_of_mem {s s' : SortedSet K} (h : ∀ k, k ∈ s.keys ↔ k ∈ s'.keys) :
    s.keys = s'.keys :=
  eq_of_mem_iff id s.keys_sorted s'.keys_sorted h

theorem purge_spec (h : d.Valid) (hold : d.OldValid)
    (hc : d.compacts = false) (limit now : ℕ) (hu : d.Until now) :
    ∃ d', d.purge limit = some d' ∧ d'.Valid ∧ d'.OldValid ∧ d'.Until now ∧
      SameReads limit d d' := by
  by_cases hdone : d.tombLimit.any (fun tombLimit => decide (limit ≤ tombLimit)) = true
  · refine ⟨d, ?_, h, hold, hu, .refl limit d⟩
    unfold purge
    rw [if_pos hdone]
  obtain ⟨rows, hrows⟩ := hold
  obtain ⟨m, hm, hholds⟩ := purgeOld_spec hrows hc
  set d' : EagerDir D K F :=
    { d with
      tombLimit := some limit
      data := .empty
      old := .empty
      fixedData := d.flattenData limit
      fixedOld := m } with hd'
  have hpurge : d.purge limit = some d' := by
    unfold purge
    rw [if_neg hdone, hm]
    rfl
  have hvalid : d'.Valid := valid_flattenData h limit rfl rfl
  have hentries : ∀ key e, e ∈ d'.entries key ↔
      e ∈ d.entries key ∧ (e.files ≠ [] ∨ limit < e.tick) :=
    mem_entries_flattenData h limit rfl rfl
  have hsource : ∀ source key,
      d'.getArraySourceKey source key = d.getArraySourceKey source key := by
    intro source key
    apply getArraySourceKey_congr hvalid h
    intro e _ hf
    rw [hentries]
    simp [hf]
  refine ⟨d', hpurge, hvalid, ⟨_, hholds⟩, until_flattenData h limit rfl rfl hu, ?_⟩
  · constructor
    · intro key
      have hfiles : d'.filesOf key = d.filesOf key :=
        filesOf_congr hvalid h fun source => hsource source key
      unfold getArrayRaw
      rw [hfiles]
    · exact hsource
    · intro source
      have hnew : d'.fixedOld.Holds (keptRows rows d.old.items) := hholds
      rw [getOld_eq hnew, getOld_eq hrows, ← lookup_keptRows hrows.sorted]
      rfl
    · intro tick htick
      have hlimit : ∀ l, d.tombLimit = some l → l < tick := by
        intro l hl
        rw [hl, Option.any_some, decide_eq_true_iff] at hdone
        omega
      have hlimit' : ∀ l, d'.tombLimit = some l → l < tick := by
        intro l hl
        cases hl
        exact htick
      refine ⟨by rw [getChangesAfter_eq hlimit, getChangesAfter_eq hlimit'], ?_⟩
      apply keys_eq_of_mem
      intro k
      rw [mem_getChangesAfter hvalid hlimit', mem_getChangesAfter h hlimit]
      simp only [hentries]
      constructor
      · rintro ⟨e, ⟨he, _⟩, ht⟩
        exact ⟨e, he, ht⟩
      · rintro ⟨e, he, ht⟩
        exact ⟨e, ⟨he, Or.inr (htick.trans_le ht)⟩, ht⟩

end SkipPlatform.EagerDir
