import SkipPlatform.FixedDirKeys

set_option autoImplicit false
set_option linter.unusedSectionVars false

/-! The compact layouts of the fixed part of a directory. Each one drops what a check over all
rows shows to be redundant and rebuilds it when a row is read; the searches are those of the
plain layout, on the rebuilt rows. -/
namespace SkipPlatform.FixedDirLayouts
open List SortedSearch StoreSourceMap

inductive File (V F : Type) where
  | rowValues (row : StoreSourceMap.RowValues V)
  | other (file : F)

section Layouts
variable {D K F : Type} [LinearOrder D] [RankedKey K]

abbrev Files (K F : Type) [RankedKey K] := List (File (RankedKey.Val K) F)

abbrev Row (D K F : Type) [RankedKey K] := FixedRow K (Source D K) (Files K F)

/-- A row with the `max` field of its tick range. -/
abbrev Tagging (D K F : Type) [RankedKey K] := TaggedRow K (Source D K) (Files K F)

def compareSource (p q : Source D K) : Ordering :=
  (compare p.dirName q.dirName).then (RankedKey.compare p.baseName q.baseName)

/-- `FixedRow.compare`. -/
def compareRow (a b : Row D K F) : Ordering :=
  (RankedKey.compare a.key b.key).then (compareSource a.source b.source)

def sort (vec : List (Row D K F)) : List (Row D K F) :=
  vec.mergeSort fun a b => (compareRow a b).isLE

structure SharedSingletonRow (K F : Type) [RankedKey K] where
  key : K
  file : File (RankedKey.Val K) F
  sourceKey : K
  tick : ℕ
  maxTick : ℕ

structure CompactRow (K : Type) [RankedKey K] where
  values : List (Option (RankedKey.Val K))
  repeatCount : ℕ
  tick : ℕ
  maxTick : ℕ
  sourceKey : Option K

structure FixedDirMetadata (D K : Type) [RankedKey K] where
  sourceDir : D
  kinds : RankedKey.Kinds K

inductive FixedData (D K F : Type) [RankedKey K] where
  | fixed (data : List (Tagging D K F))
  | singleton (sourceDir : D) (tag : ℕ) (data : List (K × File (RankedKey.Val K) F))
  | sharedSingleton (sourceDir : D) (data : List (SharedSingletonRow K F))
  | compact (metadata : FixedDirMetadata D K) (data : List (CompactRow K))

namespace FixedData

/-- The rows that `get` rebuilds. -/
def rows : FixedData D K F → List (Tagging D K F)
  | fixed data => data
  | singleton sourceDir tag data =>
    data.map fun d => (⟨d.1, [d.2], ⟨sourceDir, d.1⟩, tag⟩, tag)
  | sharedSingleton sourceDir data =>
    data.map fun row => (⟨row.key, [row.file], ⟨sourceDir, row.sourceKey⟩, row.tick⟩, row.maxTick)
  | compact metadata data =>
    data.map fun row =>
      let rowValues := ⟨row.values, row.repeatCount⟩
      let rowKey := RankedKey.rowKey rowValues metadata.kinds
      (⟨rowKey, [.rowValues rowValues], ⟨metadata.sourceDir, row.sourceKey.getD rowKey⟩, row.tick⟩,
        row.maxTick)

def size (d : FixedData D K F) : ℕ := d.rows.length

def getIter (d : FixedData D K F) (key : K) : List (ℕ × Source D K × Files K F) :=
  (findAll d.rows fun row => RankedKey.compare key row.1.key).map fun row =>
    (row.1.tick, row.1.source, row.1.value)

def getArraySourceKey (d : FixedData D K F) (source : Source D K) (key : K) :
    List (Files K F) :=
  (findAll d.rows fun row =>
    (RankedKey.compare key row.1.key).then (compareSource source row.1.source)).map fun row => row.1.value

def getChangesAfter (d : FixedData D K F) (tick : ℕ) : SortedSet (RankedKey.Rank K) :=
  ((bisect [] (fun elt left right =>
    if elt.2 < tick then []
    else (if tick ≤ elt.1.tick then [elt.1.key] else []) ++ left ++ right) d.rows).map
      RankedKey.rank).foldl (fun s k => s.set k ()) .empty

def getIterAfter (d : FixedData D K F) (tick : ℕ) (key : K) :
    List (ℕ × Source D K × Files K F) :=
  bisect [] (fun elt left right =>
    if tick ≤ elt.2 then
      (if RankedKey.compare key elt.1.key ≠ .gt then left else []) ++
        (if tick ≤ elt.1.tick then
          (if RankedKey.compare elt.1.key key = .eq then
            [(elt.1.tick, elt.1.source, elt.1.value)] else []) else []) ++
        (if RankedKey.compare key elt.1.key ≠ .lt then right else [])
    else []) d.rows

end FixedData

namespace FixedDir

def create (vec : List (Row D K F)) : FixedData D K F :=
  .fixed (SkipPlatform.FixedDir.computeTags (sort vec)).1

end FixedDir

namespace SharedSingletonFixedDir

def strip (row : Tagging D K F) : Option (SharedSingletonRow K F) := do
  let file ← row.1.value[0]?
  return ⟨row.1.key, file, row.1.source.baseName, row.1.tick, row.2⟩

def create (vec : List (Row D K F)) : Option (FixedData D K F) :=
  match vec with
  | [] => some (FixedDir.create vec)
  | first :: _ =>
    if ∀ row ∈ vec, row.value.length = 1 ∧ row.source.dirName = first.source.dirName then do
      let data ← (SkipPlatform.FixedDir.computeTags (sort vec)).1.mapM strip
      return .sharedSingleton first.source.dirName data
    else some (FixedDir.create vec)

end SharedSingletonFixedDir

namespace SingletonFixedDir

def strip (row : Row D K F) : Option (K × File (RankedKey.Val K) F) := do
  let file ← row.value[0]?
  return (row.key, file)

def create (vec : List (Row D K F)) : Option (FixedData D K F) :=
  match vec with
  | [] => SharedSingletonFixedDir.create vec
  | first :: _ =>
    if ∀ row ∈ vec, row.value.length = 1 ∧ row.source.dirName = first.source.dirName ∧
        row.source.baseName = row.key ∧ row.tick = first.tick then do
      let data ← (sort vec).mapM strip
      return .singleton first.source.dirName first.tick data
    else SharedSingletonFixedDir.create vec

end SingletonFixedDir

namespace CompactFixedDir

def metadataLoop (possibleResult : Option (FixedDirMetadata D K)) :
    List (Row D K F) → Option (FixedDirMetadata D K)
  | [] => possibleResult
  | elt :: rest =>
    match RankedKey.asRowKey elt.key, elt.value with
    | some (row1, k), [.rowValues row2] =>
      match possibleResult with
      | none =>
        if row1 ≠ row2 then none else metadataLoop (some ⟨elt.source.dirName, k⟩) rest
      | some metadata =>
        if k ≠ metadata.kinds ∨ elt.source.dirName ≠ metadata.sourceDir then none
        else if row1 ≠ row2 then none
        else metadataLoop (some metadata) rest
    | _, _ => none

def getMetadata (data : List (Row D K F)) : Option (FixedDirMetadata D K) :=
  metadataLoop none data

/-- Nothing where an invariant fails or the source's comparison rejects the key. -/
def stripMetadata (row : Tagging D K F) : Option (CompactRow K) :=
  match row.1.value with
  | [.rowValues values] =>
    if RankedKey.comparable row.1.source.baseName row.1.key then
      some ⟨values.values, values.repeatCount, row.1.tick, row.2,
        if RankedKey.compare row.1.source.baseName row.1.key ≠ .eq then some row.1.source.baseName
        else none⟩
    else none
  | _ => none

def createWithMetadata (data : List (Row D K F)) (metadata : FixedDirMetadata D K) :
    Option (FixedData D K F) := do
  let data ← (SkipPlatform.FixedDir.computeTags (sort data)).1.mapM stripMetadata
  return .compact metadata data

def create (vec : List (Row D K F)) : Option (FixedData D K F) :=
  match getMetadata vec with
  | none => SingletonFixedDir.create vec
  | some metadata => createWithMetadata vec metadata

end CompactFixedDir

abbrev Rank (K : Type) [RankedKey K] := RankedKey.Rank K

def logicalSource (source : Source D K) : D ×ₗ Rank K :=
  toLex (source.dirName, RankedKey.rank source.baseName)

def logicalRow (row : Row D K F) : FixedRow (Rank K) (D ×ₗ Rank K) (Files K F) :=
  ⟨RankedKey.rank row.key, row.value, logicalSource row.source, row.tick⟩

def logicalTagging (row : Tagging D K F) : TaggedRow (Rank K) (D ×ₗ Rank K) (Files K F) :=
  (logicalRow row.1, row.2)

def logicalEntry (entry : ℕ × Source D K × Files K F) : ℕ × (D ×ₗ Rank K) × Files K F :=
  (entry.1, logicalSource entry.2.1, entry.2.2)

theorem compareSource_eq (p q : Source D K) :
    compareSource p q = compare (logicalSource p) (logicalSource q) := by
  unfold compareSource
  rw [RankedKey.compare_rank]
  exact order_lex _ _ _ _

theorem compareRow_eq (a b : Row D K F) :
    compareRow a b = compare (logicalRow a).place (logicalRow b).place := by
  unfold compareRow
  rw [RankedKey.compare_rank, compareSource_eq]
  exact order_lex _ _ _ _

variable (vec : List (Row D K F))

theorem map_sort :
    (sort vec).map logicalRow = SkipPlatform.FixedDir.sort (vec.map logicalRow) := by
  apply map_mergeSort
  intro a _ b _
  rw [compareRow_eq, Bool.eq_iff_iff, decide_eq_true_iff, Ordering.isLE_iff_ne_gt,
    ← not_lt, ← compare_gt_iff_gt]

theorem tagged_map {A B A' B' T T' : Type} {data : List (TaggedRow A B T)} (h : Tagged data)
    (f : FixedRow A B T → FixedRow A' B' T') (hf : ∀ row, (f row).tick = row.tick) :
    Tagged (data.map fun row => (f row.1, row.2)) := by
  induction h with
  | nil => exact .nil
  | node l r x mid bound left right ihl ihr =>
    rw [map_append, map_cons]
    apply Tagged.node
    · rw [length_map, length_map]
      exact mid
    · intro y hy
      have hmap : y ∈ (l ++ x :: r).map fun row => (f row.1, row.2) := by
        rw [map_append, map_cons]
        exact hy
      obtain ⟨z, hz, hzy⟩ := mem_map.mp hmap
      rw [← hzy]
      change (f z.1).tick ≤ x.2
      rw [hf]
      exact bound z hz
    · exact ihl
    · exact ihr

theorem tagged_const {A B T : Type} (c : ℕ) (data : List (FixedRow A B T))
    (h : ∀ row ∈ data, row.tick ≤ c) : Tagged (data.map fun row => (row, c)) := by
  induction data using bisect_induction with
  | nil => exact .nil
  | node l x r mid ihl ihr =>
    rw [map_append, map_cons]
    apply Tagged.node
    · rw [length_map, length_map]
      exact mid
    · intro y hy
      have hmap : y ∈ (l ++ x :: r).map fun row => (row, c) := by
        rw [map_append, map_cons]
        exact hy
      obtain ⟨z, hz, hzy⟩ := mem_map.mp hmap
      rw [← hzy]
      exact h z hz
    · exact ihl fun row hrow => h row (mem_append_left _ hrow)
    · exact ihr fun row hrow => h row (mem_append_right _ (mem_cons_of_mem _ hrow))

theorem findAll_map {α β : Type} (g : α → β) (xs : List α) (f : β → Ordering) :
    findAll (xs.map g) f = (findAll xs fun x => f (g x)).map g := by
  have hprobe : probe (xs.map g) f = probe xs fun x => f (g x) := by
    funext i
    unfold probe
    rw [List.getElem?_map, Option.map_map]
    rfl
  unfold findAll
  rw [hprobe, length_map, map_filterMap]
  simp only [List.getElem?_map]

variable {α β γ : Type}

theorem bisect_map (g : α → β) (nil : γ) (node : β → γ → γ → γ) (xs : List α) :
    bisect nil node (xs.map g) = bisect nil (fun x => node (g x)) xs := by
  induction xs using bisect_induction with
  | nil =>
    rw [map_nil, bisect_nil, bisect_nil]
  | node l x r mid ihl ihr =>
    have hmid : (l.map g).length = ((l.map g).length + (r.map g).length) / 2 := by
      rw [length_map, length_map]
      exact mid
    rw [map_append, map_cons, bisect_node _ _ _ _ _ hmid, bisect_node _ _ _ _ _ mid, ihl,
      ihr]

theorem map_bisect (h : β → γ) (nil : β) (node : α → β → β → β)
    (node' : α → γ → γ → γ) (hnode : ∀ x a b, h (node x a b) = node' x (h a) (h b))
    (xs : List α) : h (bisect nil node xs) = bisect (h nil) node' xs := by
  induction xs using bisect_induction with
  | nil => rw [bisect_nil, bisect_nil]
  | node l x r mid ihl ihr =>
    rw [bisect_node _ _ _ _ _ mid, bisect_node _ _ _ _ _ mid, hnode, ihl, ihr]

namespace FixedData

/-- The rows are in order and their tags are right, up to logical equality. -/
structure WellPlaced (d : FixedData D K F) : Prop where
  sorted : ((d.rows.map logicalTagging).map Prod.fst).Pairwise fun a b => a.place ≤ b.place
  tagged : Tagged (d.rows.map logicalTagging)

def logical (d : FixedData D K F) (h : d.WellPlaced) :
    SkipPlatform.FixedDir (Rank K) (D ×ₗ Rank K) (Files K F) :=
  ⟨d.rows.map logicalTagging, h.sorted, h.tagged⟩

variable (d : FixedData D K F)

theorem rows_logical (h : d.WellPlaced) :
    (d.logical h).rows = d.rows.map fun row => logicalRow row.1 := by
  change (d.rows.map logicalTagging).map Prod.fst = _
  rw [map_map]
  rfl

theorem getIter_logical (h : d.WellPlaced) (key : K) :
    (d.getIter key).map logicalEntry = (d.logical h).getIter (RankedKey.rank key) := by
  unfold getIter SkipPlatform.FixedDir.getIter SkipPlatform.FixedDir.getAll
  rw [rows_logical, findAll_map, map_map, map_map]
  simp only [RankedKey.compare_rank]
  rfl

theorem getArraySourceKey_logical (h : d.WellPlaced)
    (source : Source D K) (key : K) :
    d.getArraySourceKey source key =
      (d.logical h).getArraySourceKey (logicalSource source) (RankedKey.rank key) := by
  unfold getArraySourceKey SkipPlatform.FixedDir.getArraySourceKey
    SkipPlatform.FixedDir.getAllSourceKey
  rw [rows_logical, findAll_map, map_map]
  simp only [RankedKey.compare_rank, compareSource_eq]
  rfl

theorem getChangesAfter_logical (h : d.WellPlaced) (tick : ℕ) :
    d.getChangesAfter tick = (d.logical h).getChangesAfter tick := by
  unfold getChangesAfter SkipPlatform.FixedDir.getChangesAfter SkipPlatform.FixedDir.getChangesAcc
  change _ = (bisect [] _ (d.rows.map logicalTagging)).foldl _ _
  rw [bisect_map]
  congr 1
  rw [map_bisect (List.map RankedKey.rank) [] _ fun (elt : Tagging D K F) left right =>
    if elt.2 < tick then []
    else (if tick ≤ elt.1.tick then [RankedKey.rank elt.1.key] else []) ++ left ++ right]
  · rfl
  · intro x a b
    split_ifs <;> simp

theorem getIterAfter_logical (h : d.WellPlaced) (tick : ℕ) (key : K) :
    (d.getIterAfter tick key).map logicalEntry =
      (d.logical h).getIterAfter tick (RankedKey.rank key) := by
  unfold getIterAfter SkipPlatform.FixedDir.getIterAfter SkipPlatform.FixedDir.getKeyChangesAfter
  change _ = bisect [] _ (d.rows.map logicalTagging)
  rw [bisect_map]
  rw [map_bisect (List.map logicalEntry) [] _ fun (elt : Tagging D K F) left right =>
    if tick ≤ elt.2 then
      (if RankedKey.rank key ≤ RankedKey.rank elt.1.key then left else []) ++
        (if tick ≤ elt.1.tick then
          (if RankedKey.rank elt.1.key = RankedKey.rank key then
            [(elt.1.tick, logicalSource elt.1.source, elt.1.value)] else []) else []) ++
        (if RankedKey.rank elt.1.key ≤ RankedKey.rank key then right else [])
    else []]
  · rfl
  · intro x a b
    simp only [RankedKey.compare_rank, ne_eq, compare_gt_iff_gt, compare_lt_iff_lt, not_lt,
      compare_eq_iff_eq]
    split_ifs <;> simp [logicalEntry]

/-- Two representations of which no operation shows a difference, but for keys that compare
equal. -/
structure Agrees (d d' : FixedData D K F) : Prop where
  size : d.size = d'.size
  get : d.rows.map (fun row => logicalRow row.1) = d'.rows.map fun row => logicalRow row.1
  getIter : ∀ key, (d.getIter key).map logicalEntry = (d'.getIter key).map logicalEntry
  getIterAfter : ∀ tick key,
    (d.getIterAfter tick key).map logicalEntry = (d'.getIterAfter tick key).map logicalEntry
  getArraySourceKey : ∀ source key, d.getArraySourceKey source key = d'.getArraySourceKey source key
  getChangesAfter : ∀ tick, (d.getChangesAfter tick).keys = (d'.getChangesAfter tick).keys

theorem agrees_of_rows {d d' : FixedData D K F} (h : d.WellPlaced) (h' : d'.WellPlaced)
    (hrows : d.rows.map (fun row => logicalRow row.1) = d'.rows.map fun row => logicalRow row.1) :
    d.Agrees d' := by
  have hlogical : (d.logical h).rows = (d'.logical h').rows := by
    rw [rows_logical, rows_logical, hrows]
  constructor
  · have hlen := congrArg List.length hrows
    rw [length_map, length_map] at hlen
    exact hlen
  · exact hrows
  · intro key
    rw [getIter_logical d h, getIter_logical d' h']
    unfold SkipPlatform.FixedDir.getIter SkipPlatform.FixedDir.getAll
    rw [hlogical]
  · intro tick key
    rw [getIterAfter_logical d h, getIterAfter_logical d' h', SkipPlatform.FixedDir.getIterAfter_eq,
      SkipPlatform.FixedDir.getIterAfter_eq, hlogical]
  · intro source key
    rw [getArraySourceKey_logical d h, getArraySourceKey_logical d' h']
    unfold SkipPlatform.FixedDir.getArraySourceKey SkipPlatform.FixedDir.getAllSourceKey
    rw [hlogical]
  · intro tick
    have hk := SortedMap.keys_sorted (d.getChangesAfter tick)
    have hk' := SortedMap.keys_sorted (d'.getChangesAfter tick)
    have hperm : (d.getChangesAfter tick).keys.Perm (d'.getChangesAfter tick).keys := by
      rw [perm_ext_iff_of_nodup (hk.imp ne_of_lt) (hk'.imp ne_of_lt)]
      intro k
      rw [getChangesAfter_logical d h, getChangesAfter_logical d' h',
        SkipPlatform.FixedDir.mem_getChangesAfter, SkipPlatform.FixedDir.mem_getChangesAfter,
        hlogical]
    exact hperm.eq_of_pairwise' (r := (· ≤ ·)) (hk.imp le_of_lt) (hk'.imp le_of_lt)

end FixedData

def tags (vec : List (Row D K F)) : List (Tagging D K F) :=
  (SkipPlatform.FixedDir.computeTags (sort vec)).1

theorem map_fst_tags : (tags vec).map Prod.fst = sort vec :=
  (SkipPlatform.FixedDir.computeTags_spec (sort vec)).1

theorem mem_of_tags {vec : List (Row D K F)} {row : Tagging D K F} (h : row ∈ tags vec) :
    row.1 ∈ vec := by
  have hsort : row.1 ∈ sort vec := by
    rw [← map_fst_tags]
    exact mem_map_of_mem h
  exact mem_mergeSort.mp hsort

theorem exists_tag {vec : List (Row D K F)} {row : Row D K F} (h : row ∈ vec) :
    ∃ top, (row, top) ∈ tags vec := by
  have hsort : row ∈ (tags vec).map Prod.fst := by
    rw [map_fst_tags]
    exact mem_mergeSort.mpr h
  obtain ⟨⟨r, top⟩, hr, heq⟩ := mem_map.mp hsort
  cases heq
  exact ⟨top, hr⟩

theorem logical_rows (rows : List (Tagging D K F)) :
    (rows.map logicalTagging).map Prod.fst = (rows.map Prod.fst).map logicalRow := by
  rw [map_map, map_map]
  rfl

theorem logical_fst (rows : List (Tagging D K F)) :
    rows.map (fun row => logicalRow row.1) = (rows.map Prod.fst).map logicalRow := by
  rw [map_map]
  rfl

theorem sorted_logical :
    ((sort vec).map logicalRow).Pairwise fun a b => a.place ≤ b.place := by
  rw [map_sort]
  exact SkipPlatform.FixedDir.sort_sorted _

theorem FixedDir.wellPlaced :
    (FixedDir.create vec : FixedData D K F).WellPlaced := by
  constructor
  · change (((tags vec).map logicalTagging).map Prod.fst).Pairwise _
    rw [logical_rows, map_fst_tags]
    exact sorted_logical vec
  · exact tagged_map (SkipPlatform.FixedDir.computeTags_spec (sort vec)).2.1 logicalRow
      fun _ => rfl

theorem agrees_of_tagging {d : FixedData D K F} {vec : List (Row D K F)}
    (h : d.rows.map logicalTagging = (tags vec).map logicalTagging) :
    d.Agrees (FixedDir.create vec) := by
  have hplain := FixedDir.wellPlaced vec
  have hd : d.WellPlaced := by
    constructor
    · rw [h]
      exact hplain.sorted
    · rw [h]
      exact hplain.tagged
  apply FixedData.agrees_of_rows hd hplain
  have hfst := congrArg (List.map Prod.fst) h
  rw [logical_rows, logical_rows, map_map, map_map] at hfst
  exact hfst

theorem FixedDir.agrees :
    (FixedDir.create vec : FixedData D K F).Agrees (FixedDir.create vec) :=
  agrees_of_tagging rfl

theorem map_of_mapM {strip : α → Option β} {rebuild : β → γ} (image : α → γ)
    {xs : List α} (h : ∀ x ∈ xs, ∃ y, strip x = some y ∧ rebuild y = image x) :
    ∃ ys, xs.mapM strip = some ys ∧ ys.map rebuild = xs.map image := by
  induction xs with
  | nil => exact ⟨[], rfl, rfl⟩
  | cons x xs ih =>
    obtain ⟨y, hy, hyx⟩ := h x mem_cons_self
    obtain ⟨ys, hys, hmap⟩ := ih fun z hz => h z (mem_cons_of_mem _ hz)
    refine ⟨y :: ys, ?_, ?_⟩
    · rw [mapM_cons, hy, hys]
      rfl
    · rw [map_cons, map_cons, hyx, hmap]

theorem exists_single {α : Type} {xs : List α} (h : xs.length = 1) : ∃ x, xs = [x] :=
  length_eq_one_iff.mp h

theorem SharedSingletonFixedDir.create_agrees :
    ∃ d, SharedSingletonFixedDir.create vec = some d ∧ d.Agrees (FixedDir.create vec) := by
  cases vec with
  | nil => exact ⟨_, rfl, FixedDir.agrees []⟩
  | cons first rest =>
    rw [create]
    by_cases hall : ∀ row ∈ first :: rest,
        row.value.length = 1 ∧ row.source.dirName = first.source.dirName
    · rw [if_pos hall]
      have hback : ∀ row ∈ tags (first :: rest), ∃ y, strip row = some y ∧
          logicalTagging (⟨y.key, [y.file], ⟨first.source.dirName, y.sourceKey⟩, y.tick⟩,
            y.maxTick) = logicalTagging row := by
        intro row hrow
        obtain ⟨hone, hdir⟩ := hall row.1 (mem_of_tags hrow)
        obtain ⟨file, hfile⟩ := exists_single hone
        refine ⟨⟨row.1.key, file, row.1.source.baseName, row.1.tick, row.2⟩, ?_, ?_⟩
        · unfold strip
          rw [hfile]
          rfl
        · unfold logicalTagging logicalRow logicalSource
          rw [hfile, hdir]
      obtain ⟨data, hdata, hmap⟩ := map_of_mapM _ hback
      refine ⟨.sharedSingleton first.source.dirName data, ?_, ?_⟩
      · unfold tags at hdata
        rw [hdata]
        rfl
      · apply agrees_of_tagging
        rw [← hmap, FixedData.rows, map_map]
        rfl
    · rw [if_neg hall]
      exact ⟨_, rfl, FixedDir.agrees _⟩

theorem SingletonFixedDir.create_agrees (vec : List (Row D K F)) :
    ∃ d, SingletonFixedDir.create vec = some d ∧ d.Agrees (FixedDir.create vec) := by
  cases vec with
  | nil => exact SharedSingletonFixedDir.create_agrees []
  | cons first rest =>
    rw [create]
    by_cases hall : ∀ row ∈ first :: rest, row.value.length = 1 ∧
        row.source.dirName = first.source.dirName ∧ row.source.baseName = row.key ∧
        row.tick = first.tick
    · rw [if_pos hall]
      have hback : ∀ row ∈ sort (first :: rest), ∃ y, strip row = some y ∧
          (⟨y.1, [y.2], ⟨first.source.dirName, y.1⟩, first.tick⟩ : Row D K F) = row := by
        intro row hrow
        obtain ⟨hone, hdir, hbase, htick⟩ := hall row (mem_mergeSort.mp hrow)
        obtain ⟨file, hfile⟩ := exists_single hone
        refine ⟨(row.key, file), ?_, ?_⟩
        · unfold strip
          rw [hfile]
          rfl
        · obtain ⟨key, value, ⟨dir, base⟩, tick⟩ := row
          change value = [file] at hfile
          change dir = _ at hdir
          change base = key at hbase
          change tick = _ at htick
          rw [hfile, hdir, hbase, htick]
      obtain ⟨data, hdata, hmap⟩ := map_of_mapM id hback
      rw [map_id] at hmap
      refine ⟨.singleton first.source.dirName first.tick data, ?_, ?_⟩
      · rw [hdata]
        rfl
      · have hrows : (FixedData.singleton first.source.dirName first.tick data).rows =
            (sort (first :: rest)).map fun row => (row, first.tick) := by
          rw [← hmap, FixedData.rows, map_map]
          rfl
        have hfst : (FixedData.singleton first.source.dirName first.tick data).rows.map Prod.fst =
            sort (first :: rest) := by
          rw [hrows, map_map]
          exact map_id _
        have hd : (FixedData.singleton first.source.dirName first.tick data).WellPlaced := by
          constructor
          · rw [logical_rows, hfst]
            exact sorted_logical _
          · rw [hrows]
            apply tagged_map _ logicalRow fun _ => rfl
            apply tagged_const
            intro row hrow
            exact (hall row (mem_mergeSort.mp hrow)).2.2.2.le
        apply FixedData.agrees_of_rows hd (FixedDir.wellPlaced _)
        rw [logical_fst, logical_fst, hfst]
        change _ = ((tags (first :: rest)).map Prod.fst).map logicalRow
        rw [map_fst_tags]
    · rw [if_neg hall]
      exact SharedSingletonFixedDir.create_agrees _

namespace CompactFixedDir

/-- What the metadata says of a row: its file is the row of its key. -/
def Described (metadata : FixedDirMetadata D K) (row : Row D K F) : Prop :=
  row.source.dirName = metadata.sourceDir ∧
    ∃ values, row.key = RankedKey.rowKey values metadata.kinds ∧ row.value = [.rowValues values]

theorem metadataLoop_some {metadata result : FixedDirMetadata D K} {rows : List (Row D K F)}
    (h : metadataLoop (some metadata) rows = some result) :
    result = metadata ∧ ∀ row ∈ rows, Described metadata row := by
  induction rows with
  | nil =>
    cases h
    exact ⟨rfl, nofun⟩
  | cons elt rest ih =>
    rw [metadataLoop] at h
    split at h
    · rename_i row1 k row2 hview hvalue
      dsimp only at h
      split_ifs at h with hsame hrow
      obtain ⟨hresult, hrest⟩ := ih h
      refine ⟨hresult, ?_⟩
      intro row hmem
      rcases mem_cons.mp hmem with heq | hmem
      · rw [heq]
        have hk : k = metadata.kinds := by
          by_contra hne
          exact hsame (Or.inl hne)
        have hd : elt.source.dirName = metadata.sourceDir := by
          by_contra hne
          exact hsame (Or.inr hne)
        have hkey := RankedKey.rowKey_of_some elt.key row1 k hview
        have heq12 : row1 = row2 := not_not.mp hrow
        refine ⟨hd, row1, ?_, ?_⟩
        · rw [hkey, hk]
        · rw [hvalue, heq12]
      · exact hrest row hmem
    · cases h

variable {metadata : FixedDirMetadata D K}

theorem getMetadata_some {rows : List (Row D K F)}
    (h : getMetadata rows = some metadata) : ∀ row ∈ rows, Described metadata row := by
  unfold getMetadata at h
  cases rows with
  | nil => cases h
  | cons elt rest =>
    rw [metadataLoop] at h
    split at h
    · rename_i row1 k row2 hview hvalue
      dsimp only at h
      split_ifs at h with hrow
      obtain ⟨hresult, hrest⟩ := metadataLoop_some h
      subst hresult
      intro row hmem
      rcases mem_cons.mp hmem with heq | hmem
      · rw [heq]
        have hkey := RankedKey.rowKey_of_some elt.key row1 k hview
        have heq12 : row1 = row2 := not_not.mp hrow
        refine ⟨rfl, row1, hkey, ?_⟩
        rw [hvalue, heq12]
      · exact hrest row hmem
    · cases h

theorem createWithMetadata_agrees {vec : List (Row D K F)}
    (hmeta : getMetadata vec = some metadata)
    (h : ∀ row ∈ vec, RankedKey.comparable row.source.baseName row.key = true) :
    ∃ d, createWithMetadata vec metadata = some d ∧ d.Agrees (FixedDir.create vec) := by
  have hback : ∀ row ∈ tags vec, ∃ y, stripMetadata row = some y ∧
      logicalTagging ((⟨RankedKey.rowKey ⟨y.values, y.repeatCount⟩ metadata.kinds,
        [.rowValues ⟨y.values, y.repeatCount⟩], ⟨metadata.sourceDir,
          y.sourceKey.getD (RankedKey.rowKey ⟨y.values, y.repeatCount⟩ metadata.kinds)⟩, y.tick⟩,
        y.maxTick) : Tagging D K F) = logicalTagging row := by
    intro row hrow
    obtain ⟨hdir, values, hkey, hvalue⟩ := getMetadata_some hmeta row.1 (mem_of_tags hrow)
    refine ⟨⟨values.values, values.repeatCount, row.1.tick, row.2,
      if RankedKey.compare row.1.source.baseName row.1.key ≠ .eq then some row.1.source.baseName
      else none⟩, ?_, ?_⟩
    · unfold stripMetadata
      rw [hvalue]
      dsimp only
      rw [if_pos (h row.1 (mem_of_tags hrow))]
    · unfold logicalTagging logicalRow logicalSource
      dsimp only
      have hbase : RankedKey.rank ((if RankedKey.compare row.1.source.baseName row.1.key ≠ .eq then
          some row.1.source.baseName else none).getD row.1.key) =
          RankedKey.rank row.1.source.baseName := by
        by_cases hc : RankedKey.compare row.1.source.baseName row.1.key ≠ .eq
        · rw [if_pos hc]
          rfl
        · rw [if_neg hc]
          have heq := not_not.mp hc
          rw [RankedKey.compare_rank, compare_eq_iff_eq] at heq
          exact heq.symm
      rw [← hkey, hbase, hvalue, hdir]
  obtain ⟨data, hdata, hmap⟩ := map_of_mapM _ hback
  refine ⟨.compact metadata data, ?_, ?_⟩
  · unfold createWithMetadata
    unfold tags at hdata
    rw [hdata]
    rfl
  · apply agrees_of_tagging
    rw [← hmap, FixedData.rows, map_map]
    rfl

theorem stripMetadata_rejects {row : Tagging D K F}
    (h : RankedKey.comparable row.1.source.baseName row.1.key = false) :
    stripMetadata row = none := by
  unfold stripMetadata
  split
  · rw [h]
    rfl
  · rfl

theorem mapM_eq_none {α β : Type} {f : α → Option β} {xs : List α} {x : α} (hx : x ∈ xs)
    (h : f x = none) : xs.mapM f = none := by
  induction xs with
  | nil => cases hx
  | cons y ys ih =>
    rw [mapM_cons]
    rcases mem_cons.mp hx with heq | hmem
    · rw [← heq, h]
      rfl
    · rw [ih hmem]
      cases f y with
      | none => rfl
      | some b => rfl

theorem createWithMetadata_rejects {vec : List (Row D K F)}
    {row : Row D K F} (hrow : row ∈ vec)
    (h : RankedKey.comparable row.source.baseName row.key = false) :
    createWithMetadata vec metadata = none := by
  obtain ⟨top, htop⟩ := exists_tag hrow
  have hnone : (tags vec).mapM stripMetadata = (none : Option (List (CompactRow K))) :=
    mapM_eq_none htop (stripMetadata_rejects h)
  unfold createWithMetadata
  unfold tags at hnone
  rw [hnone]
  rfl

end CompactFixedDir

/-- Every constructor but that of the compact layout always gives a directory that answers as
the plain one does; the compact one does exactly when the rows have no common metadata or no
source's comparison rejects the key of its row. -/
theorem layouts_agree_iff (vec : List (Row D K F)) :
    ((∃ d, SharedSingletonFixedDir.create vec = some d ∧ d.Agrees (FixedDir.create vec)) ∧
      (∃ d, SingletonFixedDir.create vec = some d ∧ d.Agrees (FixedDir.create vec)) ∧
      ∃ d, CompactFixedDir.create vec = some d ∧ d.Agrees (FixedDir.create vec)) ↔
    (CompactFixedDir.getMetadata vec = none ∨
      ∀ row ∈ vec, RankedKey.comparable row.source.baseName row.key = true) := by
  have hshared := SharedSingletonFixedDir.create_agrees vec
  have hsingle := SingletonFixedDir.create_agrees vec
  rw [and_iff_right hshared, and_iff_right hsingle, CompactFixedDir.create]
  cases hmeta : CompactFixedDir.getMetadata vec with
  | none => exact iff_of_true hsingle (Or.inl rfl)
  | some metadata =>
    constructor
    · intro ⟨d, hd, _⟩
      right
      intro row hrow
      by_contra hno
      dsimp only at hd
      rw [CompactFixedDir.createWithMetadata_rejects hrow (Bool.eq_false_iff.mpr hno)] at hd
      cases hd
    · intro hcond
      rcases hcond with hnone | hall
      · cases hnone
      · exact CompactFixedDir.createWithMetadata_agrees hmeta hall

end Layouts

def namedRow : Row ℕ DirKey Unit :=
  let values : StoreSourceMap.RowValues ℤ := ⟨[some 1], 1⟩
  ⟨.rowKey values FixedSourceMap.sampleKinds, [.rowValues values], ⟨0, .dirName 7⟩, 1⟩

/-- Stripping the row compares the name of the directory with the key of the row. -/
theorem compact_rejects_namedRow :
    ¬ ∃ d, CompactFixedDir.create [namedRow] = some d ∧ d.Agrees (FixedDir.create [namedRow]) := by
  have hmeta : CompactFixedDir.getMetadata [namedRow] =
      some ⟨0, FixedSourceMap.sampleKinds⟩ := rfl
  have hnone : CompactFixedDir.create [namedRow] = none := by
    unfold CompactFixedDir.create
    rw [hmeta]
    exact CompactFixedDir.createWithMetadata_rejects (mem_singleton.mpr rfl) rfl
  intro ⟨d, hd, _⟩
  rw [hnone] at hd
  cases hd

end SkipPlatform.FixedDirLayouts
