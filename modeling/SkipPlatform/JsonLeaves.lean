import SkipPlatform.JsonFlatten

set_option autoImplicit false

/-! The leaves of a JSON value, with their paths, and what reconstructing makes of them. -/
namespace SkipPlatform.SKJSON
open List SkipPlatform.SqlCsv
variable {F : Type}

theorem flatMap_attach {A B : Type} (l : List A) (f : A → List B) :
    (l.attach.flatMap fun x => f x.1) = l.flatMap f := by
  conv_rhs => rw [← attach_map_subtype_val l, flatMap_map]

theorem mapM_attach {A B : Type} (l : List A) (f : A → Except Exn B) :
    (l.attach.mapM fun x => f x.1) = l.mapM f := by
  conv_rhs => rw [← attach_map_subtype_val l, mapM_map]
  rfl

def CJSON.leaves (json : CJSON F) : Paths F :=
  match json with
  | .CJArray arr =>
    if arr.isEmpty then [([], .CJArray [])]
    else arr.zipIdx.attach.flatMap fun ⟨vi, _⟩ =>
      vi.1.leaves.map fun row => (.PEIndex (BitVec.ofNat 64 vi.2) :: row.1, row.2)
  | .CJObject cols values =>
    if (cols.zip values).isEmpty then [([], .CJObject [] [])]
    else (cols.zip values).attach.flatMap fun ⟨kv, _⟩ =>
      kv.2.leaves.map fun row => (.PEField kv.1 :: row.1, row.2)
  | json => [([], json)]
termination_by sizeOf json
decreasing_by
  · have less := sizeOf_lt_of_mem (fst_mem_of_mem_zipIdx ‹vi ∈ arr.zipIdx›)
    simp only [CJSON.CJArray.sizeOf_spec]
    omega
  · have less := CJSON.sizeOf_field ‹kv ∈ cols.zip values›
    simp only [CJSON.CJObject.sizeOf_spec]
    omega

/-- The value with the fields of every object in the order of their names. -/
def CJSON.sortFields (json : CJSON F) : CJSON F :=
  match json with
  | .CJArray arr => .CJArray (arr.map sortFields)
  | .CJObject cols values =>
    let fields := sortedByName (cols.zip values)
    .CJObject (fields.map Prod.fst) (fields.attach.map fun ⟨kv, _⟩ => kv.2.sortFields)
  | json => json
termination_by sizeOf json
decreasing_by
  · have less := sizeOf_lt_of_mem ‹_ ∈ arr›
    simp only [CJSON.CJArray.sizeOf_spec]
    omega
  · have less := CJSON.sizeOf_field (mem_sortedByName.mp ‹kv ∈ sortedByName _›)
    simp only [CJSON.CJObject.sizeOf_spec]
    omega

def CJSON.Same (json other : CJSON F) : Prop := json.sortFields = other.sortFields

def CJSON.isScalar : CJSON F → Bool
  | .CJArray _ => false
  | .CJObject _ _ => false
  | _ => true

/-- An array has a length that is an integer; an object has one name for each value, no name twice,
and no name that is empty or has a null. -/
inductive CJSON.WellFormed : CJSON F → Prop
  | scalar {json : CJSON F} (h : json.isScalar = true) : WellFormed json
  | array {arr : List (CJSON F)} (length : arr.length < 2 ^ 63) (all : ∀ v ∈ arr, WellFormed v) :
      WellFormed (.CJArray arr)
  | object {cols : List (List Char)} {values : List (CJSON F)}
      (length : cols.length = values.length) (nodup : cols.Nodup)
      (names : ∀ name ∈ cols, name ≠ [] ∧ '\x00' ∉ name) (all : ∀ v ∈ values, WellFormed v) :
      WellFormed (.CJObject cols values)

inductive CJSON.PlainNames : CJSON F → Prop
  | scalar {json : CJSON F} (h : json.isScalar = true) : PlainNames json
  | array {arr : List (CJSON F)} (all : ∀ v ∈ arr, PlainNames v) : PlainNames (.CJArray arr)
  | object {cols : List (List Char)} {values : List (CJSON F)}
      (names : ∀ name ∈ cols, ∀ c ∈ name, c ∉ delimiters) (all : ∀ v ∈ values, PlainNames v) :
      PlainNames (.CJObject cols values)

def CJSON.children : CJSON F → List (PathElement × CJSON F)
  | .CJArray arr => arr.zipIdx.map fun vi => (.PEIndex (BitVec.ofNat 64 vi.2), vi.1)
  | .CJObject cols values => (cols.zip values).map fun kv => (.PEField kv.1, kv.2)
  | _ => []

def CJSON.leaf : CJSON F → CJSON F
  | .CJArray _ => .CJArray []
  | .CJObject _ _ => .CJObject [] []
  | json => json

theorem CJSON.children_induction {motive : CJSON F → Prop}
    (leaf : ∀ json, json.children = [] → motive json)
    (node : ∀ json, json.children ≠ [] → (∀ child ∈ json.children, motive child.2) → motive json)
    (json : CJSON F) : motive json := by
  by_cases none : json.children = []
  · exact leaf json none
  · refine node json none fun child member => ?_
    have less : sizeOf child.2 < sizeOf json := by
      cases json with
      | CJArray arr =>
        obtain ⟨vi, found, rfl⟩ := mem_map.mp member
        have less := sizeOf_lt_of_mem (fst_mem_of_mem_zipIdx found)
        simp only [CJArray.sizeOf_spec]
        omega
      | CJObject cols values =>
        obtain ⟨kv, found, rfl⟩ := mem_map.mp member
        have less := sizeOf_field found
        simp only [CJObject.sizeOf_spec]
        omega
      | _ => cases member
    exact children_induction leaf node child.2
termination_by sizeOf json

variable {json : CJSON F}

theorem CJSON.leaves_leaf (h : json.children = []) :
    json.leaves = [([], json.leaf)] := by
  cases json with
  | CJArray arr =>
    rw [children, map_eq_nil_iff, zipIdx_eq_nil_iff] at h
    rw [leaves, h]
    rfl
  | CJObject cols values =>
    rw [children, map_eq_nil_iff] at h
    rw [leaves, if_pos (List.isEmpty_iff.mpr h)]
    rfl
  | _ => simp [leaves, leaf]

theorem CJSON.leaves_node (h : json.children ≠ []) :
    json.leaves = expand (json.children.map fun child => (child.1, child.2.leaves)) := by
  cases json with
  | CJArray arr =>
    have some : ¬ arr.isEmpty = true := by
      rw [List.isEmpty_iff]
      rintro rfl
      exact h rfl
    rw [leaves, if_neg some]
    rw [flatMap_attach arr.zipIdx fun vi => vi.1.leaves.map fun row =>
      (.PEIndex (BitVec.ofNat 64 vi.2) :: row.1, row.2)]
    simp only [expand, children, flatMap_map]
  | CJObject cols values =>
    have some : ¬ (cols.zip values).isEmpty = true := by
      rw [List.isEmpty_iff]
      intro none
      exact h (by rw [children, none, map_nil])
    rw [leaves, if_neg some]
    rw [flatMap_attach (cols.zip values) fun kv => kv.2.leaves.map fun row =>
      (.PEField kv.1 :: row.1, row.2)]
    simp only [expand, children, flatMap_map]
  | _ => exact absurd rfl h

theorem expand_perm {A : Type} {objects objects' : List (PathElement × List (List PathElement × A))}
    (h : objects.Perm objects') : (expand objects).Perm (expand objects') :=
  h.flatMap_right _

theorem expand_map_perm {A B : Type} {l : List A} {head : A → PathElement}
    {rows rows' : A → List (List PathElement × B)} (h : ∀ a ∈ l, (rows a).Perm (rows' a)) :
    (expand (l.map fun a => (head a, rows a))).Perm (expand (l.map fun a => (head a, rows' a))) := by
  simp only [expand, flatMap_map]
  exact List.Perm.flatMap_left l fun a member => (h a member).map _

theorem sortedByName_perm {A : Type} (fields : List (List Char × A)) :
    (sortedByName fields).Perm fields := mergeSort_perm fields _

theorem CJSON.sortFields_array (arr : List (CJSON F)) :
    (CJArray arr).sortFields = .CJArray (arr.map sortFields) := by rw [sortFields]

theorem CJSON.sortFields_object (cols : List (List Char)) (values : List (CJSON F)) :
    (CJObject cols values).sortFields =
      .CJObject ((sortedByName (cols.zip values)).map Prod.fst)
        ((sortedByName (cols.zip values)).map fun kv => kv.2.sortFields) := by
  rw [sortFields]
  congr 1
  exact attach_map_val (f := fun kv : List Char × CJSON F => kv.2.sortFields)

theorem CJSON.sortFields_leaf (h : json.children = []) :
    json.sortFields = json.leaf := by
  cases json with
  | CJArray arr =>
    rw [children, map_eq_nil_iff, zipIdx_eq_nil_iff] at h
    rw [sortFields_array, h]
    rfl
  | CJObject cols values =>
    rw [children, map_eq_nil_iff] at h
    have none : sortedByName ([] : List (List Char × CJSON F)) = [] := mergeSort_nil
    rw [sortFields_object, h, none]
    rfl
  | _ => simp [sortFields, leaf]

theorem CJSON.children_sortFields (json : CJSON F) :
    json.sortFields.children.Perm
      (json.children.map fun child => (child.1, child.2.sortFields)) := by
  cases json with
  | CJArray arr =>
    rw [sortFields_array, children, children, map_map, zipIdx_map, map_map]
    exact List.Perm.refl _
  | CJObject cols values =>
    rw [sortFields_object, children, children, map_map, zip_map', map_map]
    exact (sortedByName_perm _).map _
  | _ => simp [sortFields, children]

theorem CJSON.leaves_sortFields (json : CJSON F) : json.sortFields.leaves.Perm json.leaves := by
  induction json using children_induction with
  | leaf json none =>
    have sorted : json.sortFields.children = [] := by
      have same := json.children_sortFields
      rw [none, map_nil] at same
      exact same.eq_nil
    rw [leaves_leaf sorted, leaves_leaf none, sortFields_leaf none]
    cases json <;> exact List.Perm.refl _
  | node json some ih =>
    have same := json.children_sortFields
    have sorted : json.sortFields.children ≠ [] := by
      intro none
      rw [none] at same
      exact some (map_eq_nil_iff.mp same.nil_eq.symm)
    rw [leaves_node sorted, leaves_node some]
    have moved := expand_perm (same.map fun child => (child.1, child.2.leaves))
    rw [map_map] at moved
    exact moved.trans (expand_map_perm fun child member => ih child member)

theorem CJSON.WellFormed.child {json : CJSON F} (h : json.WellFormed) :
    ∀ child ∈ json.children, child.2.WellFormed := by
  intro child member
  cases h with
  | scalar h =>
    cases json with
    | CJArray => cases h
    | CJObject => cases h
    | _ => cases member
  | array length all =>
    obtain ⟨vi, found, rfl⟩ := mem_map.mp member
    exact all vi.1 (fst_mem_of_mem_zipIdx found)
  | object length nodup names all =>
    obtain ⟨kv, found, rfl⟩ := mem_map.mp member
    exact all kv.2 (of_mem_zip found).2

theorem CJSON.WellFormed.leaf_eq (h : json.WellFormed)
    (none : json.children = []) : json.leaf = json := by
  cases h with
  | scalar h =>
    cases json with
    | CJArray => cases h
    | CJObject => cases h
    | _ => rfl
  | array length all =>
    rw [children, map_eq_nil_iff, zipIdx_eq_nil_iff] at none
    rw [none]
    rfl
  | @object cols values length nodup names all =>
    rw [children, map_eq_nil_iff, zip_eq_nil_iff] at none
    have both : cols = [] ∧ values = [] := by
      rcases none with rfl | rfl
      · exact ⟨rfl, length_eq_zero_iff.mp length.symm⟩
      · exact ⟨length_eq_zero_iff.mp length, rfl⟩
    rw [both.1, both.2]
    rfl

theorem CJSON.WellFormed.heads_nodup (h : json.WellFormed) :
    (json.children.map Prod.fst).Nodup := by
  cases h with
  | scalar h =>
    cases json with
    | CJArray => cases h
    | CJObject => cases h
    | _ => exact nodup_nil
  | @array arr length all =>
    have heads : ((CJArray arr).children.map Prod.fst) =
        (List.range arr.length).map fun i => .PEIndex (BitVec.ofNat 64 i) := by
      rw [children, map_map, range_eq_range', ← zipIdx_map_snd 0 arr, map_map]
      rfl
    rw [heads]
    refine List.Nodup.map_on ?_ nodup_range
    intro i small j small' same
    rw [mem_range] at small small'
    have values := congrArg BitVec.toNat (PathElement.PEIndex.inj same)
    rwa [BitVec.toNat_ofNat, BitVec.toNat_ofNat, Nat.mod_eq_of_lt (by omega),
      Nat.mod_eq_of_lt (by omega)] at values
  | @object cols values length nodup names all =>
    have heads : ((CJObject cols values).children.map Prod.fst) = cols.map .PEField := by
      rw [children, map_map]
      conv_rhs => rw [← map_fst_zip (Nat.le_of_eq length), map_map]
      rfl
    rw [heads]
    exact nodup.map fun _ _ same => PathElement.PEField.inj same

theorem CJSON.WellFormed.plainNames_iff (h : json.WellFormed) :
    json.PlainNames ↔ ∀ child ∈ json.children, child.1.Plain ∧ child.2.PlainNames := by
  cases h with
  | scalar h =>
    refine ⟨fun _ child member => ?_, fun _ => .scalar h⟩
    cases json with
    | CJArray => cases h
    | CJObject => cases h
    | _ => cases member
  | @array arr length all =>
    constructor
    · intro plain child member
      obtain ⟨vi, found, rfl⟩ := mem_map.mp member
      have below : vi.2 < arr.length := snd_lt_of_mem_zipIdx found
      cases plain with
      | scalar h => cases h
      | array plain =>
        refine ⟨?_, plain vi.1 (fst_mem_of_mem_zipIdx found)⟩
        rw [PathElement.Plain, ofNat_toInt (by omega)]
        exact Int.natCast_nonneg _
    · refine fun plain => .array fun v member => ?_
      rw [← zipIdx_map_fst 0 arr] at member
      obtain ⟨vi, found, rfl⟩ := mem_map.mp member
      exact (plain _ (mem_map.mpr ⟨vi, found, rfl⟩)).2
  | @object cols values length nodup names all =>
    constructor
    · intro plain child member
      obtain ⟨kv, found, rfl⟩ := mem_map.mp member
      have both := of_mem_zip found
      cases plain with
      | scalar h => cases h
      | object letters plain =>
        exact ⟨⟨(names kv.1 both.1).1, letters kv.1 both.1⟩, plain kv.2 both.2⟩
    · refine fun plain => .object (fun name member => ?_) fun v member => ?_
      · rw [← map_fst_zip (Nat.le_of_eq length)] at member
        obtain ⟨kv, found, rfl⟩ := mem_map.mp member
        exact (plain _ (mem_map.mpr ⟨kv, found, rfl⟩)).1.2
      · rw [← map_snd_zip (Nat.le_of_eq length.symm)] at member
        obtain ⟨kv, found, rfl⟩ := mem_map.mp member
        exact (plain _ (mem_map.mpr ⟨kv, found, rfl⟩)).2

def leafRow (id pathStr : List Char) (json : CJSON F) : Row F :=
  match json with
  | .CJNull => ⟨id, pathStr, none, none, none, none⟩
  | .CJBool b => ⟨id, pathStr, some .PTBool, some (if b then 1 else 0), none, none⟩
  | .CJInt i => ⟨id, pathStr, some .PTInt, some i, none, none⟩
  | .CJFloat f => ⟨id, pathStr, some .PTFloat, none, some f, none⟩
  | .CJString s => ⟨id, pathStr, some .PTString, none, none, some s⟩
  | .CJArray _ => ⟨id, pathStr, some .PTEmptyArray, none, none, none⟩
  | .CJObject _ _ => ⟨id, pathStr, some .PTEmptyObject, none, none, none⟩

theorem leafRow_id (id pathStr : List Char) (json : CJSON F) :
    (leafRow id pathStr json).id = id := by
  cases json <;> rfl

theorem leafRow_path (id pathStr : List Char) (json : CJSON F) :
    (leafRow id pathStr json).path = pathStr := by
  cases json <;> rfl

theorem rowValue_leafRow (id pathStr : List Char) (json : CJSON F) :
    rowValue (leafRow id pathStr json) = .ok json.leaf := by
  cases json with
  | CJBool b => cases b <;> rfl
  | _ => rfl

variable {path : List PathElement}

theorem flattenHelper_array {id pathStr : List Char}
    {arr : List (CJSON F)} (h : arr ≠ []) :
    flattenHelper id path pathStr (.CJArray arr) = (CJSON.CJArray arr).children.flatMap fun child =>
      flattenHelper id (child.1 :: path) (mkPath (child.1 :: path)) child.2 := by
  rw [flattenHelper, if_neg (by simpa using h)]
  rw [flatMap_attach arr.zipIdx fun vi => flattenHelper id (.PEIndex (BitVec.ofNat 64 vi.2) :: path)
    (mkPath (.PEIndex (BitVec.ofNat 64 vi.2) :: path)) vi.1]
  simp only [CJSON.children, flatMap_map]

theorem flattenHelper_object {id pathStr : List Char}
    {cols : List (List Char)} {values : List (CJSON F)} (h : values ≠ []) :
    flattenHelper id path pathStr (.CJObject cols values) =
      (sortedByName (cols.zip values)).flatMap fun kv =>
        flattenHelper id (.PEField kv.1 :: path) (mkPath (.PEField kv.1 :: path)) kv.2 := by
  rw [flattenHelper, if_neg (by simpa using h)]
  exact flatMap_attach (sortedByName (cols.zip values)) fun kv =>
    flattenHelper id (.PEField kv.1 :: path) (mkPath (.PEField kv.1 :: path)) kv.2

theorem flattenHelper_leaf {id pathStr : List Char}
    (h : json.WellFormed) (none : json.children = []) :
    flattenHelper id path pathStr json = [leafRow id pathStr json] := by
  rw [← h.leaf_eq none]
  cases json with
  | CJBool b => cases b <;> simp [flattenHelper, leafRow, CJSON.leaf]
  | _ => simp [flattenHelper, leafRow, CJSON.leaf]

theorem flattenHelper_perm (id : List Char) (path : List PathElement)
    (h : json.WellFormed) : (flattenHelper id path (mkPath path) json).Perm
      (json.leaves.map fun row => leafRow id (pathToString (path.reverse ++ row.1)) row.2) := by
  induction json using CJSON.children_induction generalizing path with
  | leaf json none =>
    rw [flattenHelper_leaf h none, CJSON.leaves_leaf none, h.leaf_eq none, map_singleton,
      append_nil]
    exact List.Perm.refl _
  | node json some ih =>
    have elements : (flattenHelper id path (mkPath path) json).Perm (json.children.flatMap
        fun child => flattenHelper id (child.1 :: path) (mkPath (child.1 :: path)) child.2) := by
      cases json with
      | CJArray arr =>
        rw [flattenHelper_array (by rintro rfl; exact some rfl)]
      | CJObject cols values =>
        have filled : values ≠ [] := by
          rintro rfl
          exact some (by rw [CJSON.children, zip_nil_right, map_nil])
        rw [flattenHelper_object filled, CJSON.children, flatMap_map]
        exact (sortedByName_perm _).flatMap_right _
      | _ => exact absurd rfl some
    refine elements.trans ?_
    rw [CJSON.leaves_node some, expand, map_flatMap, flatMap_map]
    refine List.Perm.flatMap_left _ fun child member => ?_
    have rows := ih child member (child.1 :: path) (h.child child member)
    rw [reverse_cons] at rows
    simpa only [map_map, Function.comp_def, append_assoc, singleton_append]
      using rows

theorem reconstructHelper_eq (internFieldNames : List (List Char) → List (List Char))
    {rows : Paths F} {objects : Objects F} (h : collectObjects [] rows = .ok objects) :
    reconstructHelper internFieldNames rows = (objects.mapM fun obj =>
      (reconstructHelper internFieldNames obj.2).map fun json => (obj.1, json)).bind
        (container internFieldNames) := by
  rw [reconstructHelper]
  split
  · rename_i failed
    rw [h] at failed
    cases failed
  · rename_i same
    rw [h] at same
    cases same
    rw [mapM_attach objects fun obj =>
      (reconstructHelper internFieldNames obj.2).map fun json => (obj.1, json)]
    rfl

theorem reconstructHelper_value (internFieldNames : List (List Char) → List (List Char))
    {rows : Paths F} {value : CJSON F} (h : collectObjects [] rows = .error value) :
    reconstructHelper internFieldNames rows = .ok value := by
  rw [reconstructHelper]
  split
  · rename_i same
    rw [h] at same
    cases same
    rfl
  · rename_i found
    rw [h] at found
    cases found

end SkipPlatform.SKJSON
