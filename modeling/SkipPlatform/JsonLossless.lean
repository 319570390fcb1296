import SkipPlatform.JsonRoundTrip

set_option autoImplicit false

/-! Flattening a JSON value loses nothing exactly when its field names are plain. -/
namespace SkipPlatform.SKJSON
open List SkipPlatform.SqlCsv
variable {F : Type} {internFieldNames : List (List Char) → List (List Char)}

def orderedByPath (rows : List (Row F)) : List (Row F) :=
  rows.mergeSort fun x y => decide (x.path ≤ y.path)

theorem orderedByPath_perm (rows : List (Row F)) : (orderedByPath rows).Perm rows :=
  mergeSort_perm rows _

variable {A : Type}

theorem expand_nodup {objects : List (PathElement × List (List PathElement × A))}
    (heads : (objects.map Prod.fst).Nodup) (each : ∀ obj ∈ objects, (obj.2.map Prod.fst).Nodup) :
    ((expand objects).map Prod.fst).Nodup := by
  induction objects with
  | nil => exact nodup_nil
  | cons obj objects ih =>
    rw [map_cons, nodup_cons] at heads
    rw [expand_cons, map_append, map_map]
    refine nodup_append'.mpr ⟨?_, ih heads.2 fun obj member =>
      each obj (mem_cons_of_mem _ member), ?_⟩
    · have one := (each obj mem_cons_self).map (f := List.cons obj.1) fun _ _ same =>
        (List.cons.inj same).2
      rwa [map_map] at one
    · intro path here there
      obtain ⟨row, -, rfl⟩ := mem_map.mp here
      obtain ⟨row', member, same⟩ := mem_map.mp there
      obtain ⟨obj', inside, rest, -, rfl⟩ := mem_expand.mp member
      have head : obj'.1 = obj.1 := (List.cons.inj same).1
      exact heads.1 (head ▸ mem_map_of_mem inside)

variable {json : CJSON F}

theorem CJSON.leaves_nodup (h : json.WellFormed) :
    (json.leaves.map Prod.fst).Nodup := by
  induction json using children_induction with
  | leaf json none =>
    rw [leaves_leaf none]
    exact nodup_singleton _
  | node json some ih =>
    rw [leaves_node some]
    refine expand_nodup ?_ fun obj member => ?_
    · rw [map_map]
      exact h.heads_nodup
    · obtain ⟨child, inside, rfl⟩ := mem_map.mp member
      exact ih child inside (h.child child inside)

theorem CJSON.leaf_of_mem_leaves (row : List PathElement × CJSON F)
    (member : row ∈ json.leaves) : row.2.leaf = row.2 ∧ row.2.leaves = [([], row.2)] := by
  induction json using children_induction generalizing row with
  | leaf json none =>
    rw [leaves_leaf none, mem_singleton] at member
    rw [member]
    cases json <;> exact ⟨rfl, leaves_leaf rfl⟩
  | node json some ih =>
    rw [leaves_node some] at member
    obtain ⟨obj, within, rest, found, rfl⟩ := mem_expand.mp member
    obtain ⟨child, inside, rfl⟩ := mem_map.mp within
    exact ih child inside rest found

theorem CJSON.plain_of_mem_leaves (h : json.WellFormed) (plain : json.PlainNames)
    (row : List PathElement × CJSON F) (member : row ∈ json.leaves) : ∀ e ∈ row.1, e.Plain := by
  induction json using children_induction generalizing row with
  | leaf json none =>
    rw [leaves_leaf none, mem_singleton] at member
    rw [member]
    exact forall_mem_nil _
  | node json some ih =>
    rw [leaves_node some] at member
    obtain ⟨obj, within, rest, found, rfl⟩ := mem_expand.mp member
    obtain ⟨child, inside, rfl⟩ := mem_map.mp within
    have both := h.plainNames_iff.mp plain child inside
    intro e there
    rcases mem_cons.mp there with rfl | there
    · exact both.1
    · exact ih child inside (h.child child inside) both.2 rest found e there

theorem CJSON.plainNames_of_leaves (h : json.WellFormed)
    (letters : ∀ row ∈ json.leaves, ∀ name, .PEField name ∈ row.1 → ∀ c ∈ name, c ∉ delimiters) :
    json.PlainNames := by
  induction json using children_induction with
  | leaf json none =>
    rw [h.plainNames_iff, none]
    exact forall_mem_nil _
  | node json some ih =>
    rw [leaves_node some] at letters
    have deeper (child : PathElement × CJSON F) (inside : child ∈ json.children)
        (row : List PathElement × CJSON F) (found : row ∈ child.2.leaves) :=
      letters _ (mem_expand.mpr ⟨_, mem_map_of_mem inside, row, found, rfl⟩)
    refine h.plainNames_iff.mpr fun child inside => ⟨?_, ih child inside (h.child child inside)
      fun row found name member => deeper child inside row found name
        (mem_cons_of_mem _ member)⟩
    obtain ⟨row, found⟩ := exists_mem_of_ne_nil _ child.2.leaves_ne_nil
    have names := deeper child inside row found
    cases h with
    | scalar h =>
      cases json with
      | CJArray => cases h
      | CJObject => cases h
      | _ => cases inside
    | array length all =>
      obtain ⟨vi, member, rfl⟩ := mem_map.mp inside
      have below := snd_lt_of_mem_zipIdx member
      rw [PathElement.Plain, ofNat_toInt (by omega)]
      exact Int.natCast_nonneg _
    | object length nodup valid all =>
      obtain ⟨kv, member, rfl⟩ := mem_map.mp inside
      exact ⟨(valid kv.1 (of_mem_zip member).1).1, names kv.1 mem_cons_self⟩

theorem flatten_perm (id : List Char) (h : json.WellFormed) :
    (flatten [(id, json)]).Perm
      (json.leaves.map fun row => leafRow id (pathToString row.1) row.2) := by
  have rows := flattenHelper_perm id [] h
  rw [flatten, flatMap_singleton]
  exact rows

theorem orderedByPath_leaves (id : List Char) (h : json.WellFormed) :
    (orderedByPath (flatten [(id, json)])).Perm
      (json.leaves.map fun row => leafRow id (pathToString row.1) row.2) :=
  (orderedByPath_perm _).trans (flatten_perm id h)

theorem orderedByPath_id (id : List Char) (h : json.WellFormed) :
    ∀ row ∈ orderedByPath (flatten [(id, json)]), row.id = id := by
  intro row member
  obtain ⟨leaf, -, rfl⟩ := mem_map.mp ((orderedByPath_leaves id h).mem_iff.mp member)
  exact leafRow_id id _ _

theorem orderedByPath_some (id : List Char) (h : json.WellFormed) :
    orderedByPath (flatten [(id, json)]) ≠ [] := by
  intro none
  have rows := orderedByPath_leaves id h
  rw [none, nil_perm, map_eq_nil_iff] at rows
  exact json.leaves_ne_nil rows

variable {value : CJSON F}

theorem rowEntry_leafRow {id : List Char} {path : List PathElement}
    (plain : ∀ e ∈ path, e.Plain) (leaf : value.leaf = value) :
    rowEntry (leafRow id (pathToString path) value) = .ok (path, value) := by
  rw [rowEntry, leafRow_path, parsePath_pathToString plain, rowValue_leafRow, leaf]
  rfl

def entryOf (row : Row F) : List PathElement × CJSON F :=
  match rowEntry row with
  | .ok entry => entry
  | .error _ => ([], .CJNull)

theorem mapM_entryOf {rows : List (Row F)} (h : ∀ row ∈ rows, ∃ entry, rowEntry row = .ok entry) :
    rows.mapM rowEntry = .ok (rows.map entryOf) := by
  induction rows with
  | nil => rfl
  | cons row rows ih =>
    obtain ⟨entry, read⟩ := h row mem_cons_self
    have one : entryOf row = entry := by rw [entryOf, read]
    rw [mapM_cons, read, ih fun other member => h other (mem_cons_of_mem _ member),
      map_cons, one]
    rfl

theorem reconstruct_one {rows : List (Row F)} {id : List Char} {entries : Paths F}
    (h : buildPathValueIter none [] rows = .ok [(id, entries)]) :
    reconstruct rows internFieldNames =
      (reconstructHelper internFieldNames entries).map fun json => [(id, json)] := by
  rw [reconstruct, h]
  simp only [bind, Except.bind, mapM_cons, mapM_nil]
  cases reconstructHelper internFieldNames entries <;> rfl

theorem pathToString_injOn {a b : List PathElement} (ha : ∀ e ∈ a, e.Plain)
    (hb : ∀ e ∈ b, e.Plain) (same : pathToString a = pathToString b) : a = b := by
  have parsed := parsePath_pathToString ha
  rw [same, parsePath_pathToString hb] at parsed
  exact (Except.ok.inj parsed).symm

theorem reconstruct_flatten (intern : ∀ names, internFieldNames names = names) (id : List Char)
    (h : json.WellFormed) (plain : json.PlainNames) :
    reconstruct (orderedByPath (flatten [(id, json)])) internFieldNames =
      .ok [(id, json.sortFields)] := by
  have rows := orderedByPath_leaves id h
  have entry : ∀ leaf ∈ json.leaves,
      rowEntry (leafRow id (pathToString leaf.1) leaf.2) = .ok leaf := fun leaf member =>
    rowEntry_leafRow (CJSON.plain_of_mem_leaves h plain leaf member)
      (CJSON.leaf_of_mem_leaves leaf member).1
  have readable : ∀ row ∈ orderedByPath (flatten [(id, json)]), ∃ entry, rowEntry row = .ok entry := by
    intro row member
    obtain ⟨leaf, inside, rfl⟩ := mem_map.mp (rows.mem_iff.mp member)
    exact ⟨leaf, entry leaf inside⟩
  have entries : ((orderedByPath (flatten [(id, json)])).map entryOf).Perm json.leaves := by
    have moved := rows.map entryOf
    rw [map_map] at moved
    refine moved.trans (List.Perm.of_eq ?_)
    conv_rhs => rw [← map_id json.leaves]
    refine map_congr_left fun leaf member => ?_
    rw [Function.comp_apply, entryOf, entry leaf member]
    rfl
  have paths : ((orderedByPath (flatten [(id, json)])).map Row.path).Nodup := by
    have moved := rows.map Row.path
    rw [map_map] at moved
    refine moved.nodup_iff.mpr ((CJSON.leaves_nodup h).of_map.map_on ?_)
    intro a ha b hb same
    simp only [Function.comp_apply, leafRow_path] at same
    exact inj_on_of_nodup_map (CJSON.leaves_nodup h) ha hb (pathToString_injOn
      (CJSON.plain_of_mem_leaves h plain a ha) (CJSON.plain_of_mem_leaves h plain b hb) same)
  have ordered : (orderedByPath (flatten [(id, json)])).Pairwise fun x y => x.path < y.path := by
    have ordered := mergeSort_ordered Row.path (flatten [(id, json)])
    exact (ordered.and (pairwise_map.mp paths)).imp fun both => lt_of_le_of_ne both.1 both.2
  have sorted : ((orderedByPath (flatten [(id, json)])).map entryOf).Pairwise
      fun a b => pathToString a.1 < pathToString b.1 := by
    have printed : ∀ row ∈ orderedByPath (flatten [(id, json)]),
        pathToString (entryOf row).1 = row.path := by
      intro row member
      obtain ⟨leaf, inside, rfl⟩ := mem_map.mp (rows.mem_iff.mp member)
      rw [entryOf, entry leaf inside, leafRow_path]
    refine pairwise_map.mpr (ordered.imp_of_mem fun ha hb less => ?_)
    rwa [printed _ ha, printed _ hb]
  rw [reconstruct_one (buildPathValueIter_rows (orderedByPath_some id h) (orderedByPath_id id h)
    ordered (mapM_entryOf readable)), reconstructHelper_rows intern h plain entries sorted]
  rfl

theorem map_leaf {x : Except Exn A} {f : A → CJSON F}
    (scalar : ∀ a, (f a).isScalar = true) (h : x.map f = .ok value) : value.isScalar = true := by
  obtain ⟨a, -, rfl⟩ := map_eq_ok h
  exact scalar a

theorem leaves_of_rowValue {row : Row F} (h : rowValue row = .ok value) :
    value.leaves = [([], value)] := by
  have scalar {json : CJSON F} (h : json.isScalar = true) : json.leaves = [([], json)] := by
    cases json with
    | CJArray => cases h
    | CJObject => cases h
    | _ => exact CJSON.leaves_leaf rfl
  unfold rowValue at h
  split at h
  · cases h
    exact scalar rfl
  · exact scalar (map_leaf (fun _ => rfl) h)
  · exact scalar (map_leaf (fun _ => rfl) h)
  · exact scalar (map_leaf (fun _ => rfl) h)
  · exact scalar (map_leaf (fun _ => rfl) h)
  · cases h
    exact CJSON.leaves_leaf rfl
  · cases h
    exact CJSON.leaves_leaf rfl

theorem elements_of_named {elements : List (PathElement × A)}
    (h : elements.filterMap indexed = []) :
    (elements.filterMap named).map (fun kv => (.PEField kv.1, kv.2)) = elements := by
  induction elements with
  | nil => rfl
  | cons element elements ih =>
    obtain ⟨e, a⟩ := element
    cases e with
    | PEField name =>
      exact congrArg (List.cons (PathElement.PEField name, a)) (ih h)
    | PEIndex n => cases h

theorem elements_of_indexed {elements : List (PathElement × A)}
    (h : elements.filterMap named = []) :
    (elements.filterMap indexed).map (fun nv => (.PEIndex nv.1, nv.2)) = elements := by
  induction elements with
  | nil => rfl
  | cons element elements ih =>
    obtain ⟨e, a⟩ := element
    cases e with
    | PEField name => cases h
    | PEIndex n => exact congrArg (List.cons (PathElement.PEIndex n, a)) (ih h)

theorem zipIdx_of_checkIndices {arr : List (BitVec 64 × A)} {i : ℕ}
    (h : checkIndices i arr = .ok ()) :
    ((arr.map Prod.snd).zipIdx i).map (fun vi => (BitVec.ofNat 64 vi.2, vi.1)) = arr := by
  induction arr generalizing i with
  | nil => rfl
  | cons nv arr ih =>
    rw [checkIndices] at h
    split at h
    · cases h
    · rename_i same
      rw [map_cons, zipIdx_cons, map_cons, ih h, ← not_not.mp same]

theorem leaves_container (intern : ∀ names, internFieldNames names = names)
    {elements : List (PathElement × CJSON F)} (some : elements ≠ []) {result : CJSON F}
    (h : container internFieldNames elements = .ok result) :
    result.leaves.Perm (expand (elements.map fun element => (element.1, element.2.leaves))) := by
  have known (children : List (PathElement × CJSON F)) (same : result.children = children)
      (moved : children.Perm elements) :
      result.leaves.Perm (expand (elements.map fun element => (element.1, element.2.leaves))) := by
    have filled : result.children ≠ [] := by
      rw [same]
      rintro rfl
      exact some moved.nil_eq.symm
    rw [CJSON.leaves_node filled, same]
    exact expand_perm (moved.map _)
  unfold container at h
  dsimp only at h
  split at h
  · rename_i noArray
    rw [createFields] at h
    split at h
    · cases h
      have fields := elements_of_named (List.isEmpty_iff.mp noArray)
      have moved := (sortedByName_perm (sortedByName (elements.filterMap named))).trans
        (sortedByName_perm _)
      generalize sortedByName (sortedByName (elements.filterMap named)) = sorted at *
      refine known (sorted.map fun kv => (.PEField kv.1, kv.2)) ?_ ?_
      · rw [intern, CJSON.children, zip_map', map_map]
        rfl
      · rw [← fields]
        exact moved.map _
    · cases h
  · split at h
    · rename_i noFields
      obtain ⟨_, checked, rfl⟩ := map_eq_ok h
      have array := elements_of_indexed (List.isEmpty_iff.mp noFields)
      have moved : (sortedByIndex (elements.filterMap indexed)).Perm (elements.filterMap indexed) :=
        mergeSort_perm _ _
      have indices := zipIdx_of_checkIndices checked
      generalize sortedByIndex (elements.filterMap indexed) = sorted at *
      refine known (sorted.map fun nv => (.PEIndex nv.1, nv.2)) ?_ ?_
      · conv_rhs => rw [← indices, map_map]
        rfl
      · rw [← array]
        exact moved.map _
    · cases h

theorem expand_subperm {l l' : List (PathElement × List (List PathElement × A))}
    (h : List.Forall₂ (fun a b => b.1 = a.1 ∧ b.2.Subperm a.2) l l') :
    (expand l').Subperm (expand l) := by
  induction h with
  | nil => exact List.Subperm.refl _
  | @cons a b l l' both _ ih =>
    rw [expand_cons, expand_cons, both.1]
    obtain ⟨rows, same, inside⟩ := both.2
    have mapped : (b.2.map fun row => (a.1 :: row.1, row.2)).Subperm
        (a.2.map fun row => (a.1 :: row.1, row.2)) := ⟨_, same.map _, inside.map _⟩
    exact mapped.append ih

theorem related_mem {A B : Type} {R : A → B → Prop} {l : List A} {l' : List B}
    (h : List.Forall₂ R l l') : List.Forall₂ (fun a b => a ∈ l ∧ R a b) l l' := by
  induction h with
  | nil => exact .nil
  | cons related _ ih =>
    exact .cons ⟨mem_cons_self, related⟩
      (ih.imp fun _ _ both => ⟨mem_cons_of_mem _ both.1, both.2⟩)

theorem leaves_subperm (intern : ∀ names, internFieldNames names = names) {rows : Paths F}
    (some : rows ≠ []) (values : ∀ row ∈ rows, row.2.leaves = [([], row.2)]) {result : CJSON F}
    (h : reconstructHelper internFieldNames rows = .ok result) : result.leaves.Subperm rows := by
  induction size : depth rows using Nat.strong_induction_on generalizing rows result with
  | _ n ih =>
    cases collected : collectObjects [] rows with
    | error value =>
      rw [reconstructHelper_value internFieldNames collected] at h
      cases h
      have member := collectObjects_error collected
      rw [values _ member]
      exact (singleton_sublist.mpr member).subperm
    | ok objects =>
      rw [reconstructHelper_eq internFieldNames collected] at h
      obtain ⟨elements, built, made⟩ := bind_eq_ok h
      have filled := collectObjects_some collected (forall_mem_nil _)
      have whole := collectObjects_expand collected
      rw [show expand ([] : Objects F) = [] from rfl, nil_append] at whole
      have related := mapM_ok built
      have parts : List.Forall₂ (fun a b => b.1 = a.1 ∧ b.2.Subperm a.2) objects
          (elements.map fun element => (element.1, element.2.leaves)) := by
        refine forall₂_map_right_iff.mpr ((related_mem related).imp fun obj element both => ?_)
        obtain ⟨value, valued, rfl⟩ := map_eq_ok both.2
        refine ⟨rfl, ih _ ?_ (filled obj both.1) (fun row member => ?_) valued rfl⟩
        · rw [← size, ← whole]
          exact depth_object both.1 (filled obj both.1)
        · have there : (obj.1 :: row.1, row.2) ∈ rows := by
            rw [← whole]
            exact mem_expand.mpr ⟨obj, both.1, row, member, rfl⟩
          exact (values _ there :)
      have nonempty : elements ≠ [] := by
        intro none
        rw [none, forall₂_nil_right_iff] at related
        rw [related] at whole
        exact some whole.symm
      have leaves := leaves_container intern nonempty made
      rw [← whole]
      exact leaves.subperm.trans (expand_subperm parts)

theorem CJSON.sortFields_sortFields (h : json.WellFormed) :
    json.sortFields.sortFields = json.sortFields := by
  induction h with
  | @scalar json h =>
    cases json with
    | CJArray => cases h
    | CJObject => cases h
    | _ => simp [sortFields]
  | array length all ih =>
    rw [sortFields_array, sortFields_array, map_map]
    exact congrArg CJArray (map_congr_left ih)
  | @object cols values length nodup names all ih =>
    have keys : ((cols.zip values).map Prod.fst).Nodup := by
      rwa [map_fst_zip (Nat.le_of_eq length)]
    have sorted : sortedByName ((sortedByName (cols.zip values)).map fun kv =>
        (kv.1, kv.2.sortFields)) =
          (sortedByName (cols.zip values)).map fun kv => (kv.1, kv.2.sortFields) :=
      mergeSort_key Prod.fst (List.Perm.refl _)
        (pairwise_map.mpr (sortedByName_sorted keys))
    rw [sortFields_object, sortFields_object, zip_map', sorted, map_map, map_map]
    refine congrArg (CJObject _) (map_congr_left fun kv member => ?_)
    exact ih kv.2 (of_mem_zip (mem_sortedByName.mp member)).2

theorem related_and {A B : Type} {R S : A → B → Prop} {l : List A} {l' : List B}
    (h : List.Forall₂ R l l') (h' : List.Forall₂ S l l') :
    List.Forall₂ (fun a b => R a b ∧ S a b) l l' := by
  induction h with
  | nil => exact .nil
  | cons related _ ih =>
    cases h' with
    | cons related' rest => exact .cons ⟨related, related'⟩ (ih rest)

theorem eq_of_sum_eq {A B : Type} {f : A → ℕ} {g : B → ℕ} {l : List A} {l' : List B}
    (h : List.Forall₂ (fun a b => g b ≤ f a) l l') (same : (l'.map g).sum = (l.map f).sum) :
    List.Forall₂ (fun a b => g b = f a) l l' := by
  have le {l : List A} {l' : List B} (h : List.Forall₂ (fun a b => g b ≤ f a) l l') :
      (l'.map g).sum ≤ (l.map f).sum := by
    induction h with
    | nil => exact Nat.le_refl _
    | cons less _ ih =>
      rw [map_cons, map_cons, sum_cons, sum_cons]
      exact Nat.add_le_add less ih
  induction h with
  | nil => exact .nil
  | cons less rest ih =>
    have others := le rest
    rw [map_cons, map_cons, sum_cons, sum_cons] at same
    exact .cons (by omega) (ih (by omega))

theorem plain_of_reconstruct (intern : ∀ names, internFieldNames names = names) {id : List Char}
    {json result : CJSON F} (h : json.WellFormed)
    (made : reconstruct (orderedByPath (flatten [(id, json)])) internFieldNames = .ok [(id, result)])
    (same : result.Same json) : json.PlainNames := by
  have rows := orderedByPath_leaves id h
  obtain ⟨objects, iterated, -⟩ := bind_eq_ok made
  obtain ⟨entries, read, rfl⟩ := buildPathValueIter_one (orderedByPath_some id h)
    (orderedByPath_id id h) iterated
  rw [reconstruct_one iterated] at made
  obtain ⟨value, valued, one⟩ := map_eq_ok made
  cases one
  have related := mapM_ok read
  have length : entries.length = json.leaves.length := by
    rw [← related.length_eq, rows.length_eq, length_map]
  have entry : List.Forall₂ (fun (row : Row F) (entry : List PathElement × CJSON F) =>
      parsePath row.path = .ok entry.1 ∧ rowValue row = .ok entry.2)
      (orderedByPath (flatten [(id, json)])) entries := by
    refine related.imp fun row entry both => ?_
    obtain ⟨path, parsed, both⟩ := bind_eq_ok both
    obtain ⟨value, valued, both⟩ := bind_eq_ok both
    cases both
    exact ⟨parsed, valued⟩
  have some : entries ≠ [] := by
    intro none
    rw [none] at length
    exact json.leaves_ne_nil (length_eq_zero_iff.mp length.symm)
  have inside : result.leaves.Subperm entries := by
    refine leaves_subperm intern some (fun leaf member => ?_) valued
    obtain ⟨row, -, both⟩ := exists_of_related entry member
    exact leaves_of_rowValue both.2
  have leaves : result.leaves.Perm json.leaves := by
    have sorted := result.leaves_sortFields
    rw [same] at sorted
    exact sorted.symm.trans json.leaves_sortFields
  have paths : entries.Perm json.leaves :=
    (inside.perm_of_length_le (by rw [length, leaves.length_eq])).symm.trans leaves
  have shorter := entry.imp fun row entry both => (parsePath_length both.1).1
  have sums : (entries.map fun entry => (pathToString entry.1).length).sum =
      ((orderedByPath (flatten [(id, json)])).map fun row => row.path.length).sum := by
    have read := (paths.map fun entry => (pathToString entry.1).length).sum_eq
    have printed := (rows.map fun row => row.path.length).sum_eq
    rw [map_map] at printed
    rw [read, printed]
    refine congrArg List.sum (map_congr_left fun leaf _ => ?_)
    rw [Function.comp_apply, leafRow_path]
  have whole := eq_of_sum_eq shorter sums
  refine CJSON.plainNames_of_leaves h fun leaf member name there => ?_
  obtain ⟨row, -, both⟩ := exists_of_related (related_and entry whole) (paths.mem_iff.mpr member)
  exact (parsePath_length both.1.1).2 both.2 name there

/-- A JSON value is made again of its rows, up to the order of the fields of objects, exactly when
no field name has a character at which a name in a path ends. -/
theorem reconstruct_iff (intern : ∀ names, internFieldNames names = names) (id : List Char)
    {json : CJSON F} (h : json.WellFormed) :
    (∃ result, reconstruct (orderedByPath (flatten [(id, json)])) internFieldNames =
      .ok [(id, result)] ∧ result.Same json) ↔ json.PlainNames := by
  constructor
  · rintro ⟨result, made, same⟩
    exact plain_of_reconstruct intern h made same
  · intro plain
    exact ⟨json.sortFields, reconstruct_flatten intern id h plain, json.sortFields_sortFields h⟩

/-- An object with a field that is an array, and a field of a given name. -/
def sampleObject (name : List Char) : CJSON F :=
  .CJObject [['a'], name] [.CJArray [.CJInt 1, .CJArray []], .CJNull]

theorem sampleObject_wellFormed {name : List Char} (differs : ['a'] ≠ name)
    (valid : name ≠ [] ∧ '\x00' ∉ name) : (sampleObject name : CJSON F).WellFormed := by
  refine .object rfl (nodup_cons.mpr ⟨?_, nodup_singleton _⟩) ?_ ?_
  · rw [mem_singleton]
    exact differs
  · intro other member
    rcases mem_cons.mp member with rfl | member
    · decide
    · rw [mem_singleton.mp member]
      exact valid
  · intro value member
    rcases mem_cons.mp member with rfl | member
    · refine .array (Nat.lt_of_lt_of_le (Nat.lt_succ_self 2) (by decide)) fun element inside => ?_
      rcases mem_cons.mp inside with rfl | inside
      · exact .scalar rfl
      · rw [mem_singleton.mp inside]
        exact .array (Nat.two_pow_pos 63) (forall_mem_nil _)
    · rw [mem_singleton.mp member]
      exact .scalar rfl

theorem reconstruct_iff_sample :
    (∃ result, reconstruct (orderedByPath (flatten [(['1'], (sampleObject ['b'] : CJSON ℕ))])) id =
      .ok [(['1'], result)] ∧ result.Same (sampleObject ['b'])) ↔
        (sampleObject ['b'] : CJSON ℕ).PlainNames :=
  reconstruct_iff (fun _ => rfl) ['1'] (sampleObject_wellFormed (by decide) (by decide))

/-- An underscore ends a name. -/
theorem underscore_lost :
    ¬ ∃ result, reconstruct (orderedByPath
      (flatten [(['1'], (sampleObject ['a', '_', 'b'] : CJSON ℕ))])) id = .ok [(['1'], result)] ∧
        result.Same (sampleObject ['a', '_', 'b']) := by
  rintro ⟨result, made, same⟩
  have plain := plain_of_reconstruct (fun _ => rfl)
    (sampleObject_wellFormed (by decide) (by decide)) made same
  cases plain with
  | scalar h => cases h
  | object names all =>
    exact names ['a', '_', 'b'] (mem_cons_of_mem _ mem_cons_self) '_' (by decide)
      (by decide)

end SkipPlatform.SKJSON
