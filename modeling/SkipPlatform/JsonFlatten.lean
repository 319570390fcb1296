import SkipPlatform.JsonPath
import Mathlib.Data.List.Sort
import Mathlib.Order.Lex
import Mathlib.Data.List.Lex

set_option autoImplicit false

/-! JSON values as rows, one for each leaf, and the values that are made of such rows. Floats are
of any type `F`; they are only moved. -/
namespace SkipPlatform.SKJSON
open List SkipPlatform.SqlCsv
variable {F : Type}

/-- The fields of an object are two arrays of one length, their names and their values. -/
inductive CJSON (F : Type)
  | CJNull
  | CJBool (b : Bool)
  | CJInt (i : BitVec 64)
  | CJFloat (f : F)
  | CJString (s : List Char)
  | CJArray (arr : List (CJSON F))
  | CJObject (cols : List (List Char)) (values : List (CJSON F))

inductive PrimType
  | PTInt
  | PTBool
  | PTFloat
  | PTString
  | PTEmptyArray
  | PTEmptyObject
deriving DecidableEq

structure Row (F : Type) where
  id : List Char
  path : List Char
  type : Option PrimType
  int : Option (BitVec 64)
  float : Option F
  string : Option (List Char)

def sortedByName {A : Type} (fields : List (List Char × A)) : List (List Char × A) :=
  fields.mergeSort fun x y => decide (x.1 ≤ y.1)

def sortedByIndex {A : Type} (array : List (BitVec 64 × A)) : List (BitVec 64 × A) :=
  array.mergeSort fun x y => decide (x.1.toInt ≤ y.1.toInt)

theorem mem_sortedByName {A : Type} {fields : List (List Char × A)} {kv : List Char × A} :
    kv ∈ sortedByName fields ↔ kv ∈ fields := (mergeSort_perm fields _).mem_iff

theorem CJSON.sizeOf_field {cols : List (List Char)} {values : List (CJSON F)}
    {kv : List Char × CJSON F} (h : kv ∈ cols.zip values) : sizeOf kv.2 < sizeOf values :=
  sizeOf_lt_of_mem (of_mem_zip (b := kv.2) h).2

def mkPath (path : List PathElement) : List Char := pathToString path.reverse

def flattenHelper (id : List Char) (path : List PathElement) (pathStr : List Char)
    (json : CJSON F) : List (Row F) :=
  match json with
  | .CJNull => [⟨id, pathStr, none, none, none, none⟩]
  | .CJBool true => [⟨id, pathStr, some .PTBool, some 1, none, none⟩]
  | .CJBool false => [⟨id, pathStr, some .PTBool, some 0, none, none⟩]
  | .CJInt i => [⟨id, pathStr, some .PTInt, some i, none, none⟩]
  | .CJFloat f => [⟨id, pathStr, some .PTFloat, none, some f, none⟩]
  | .CJString s => [⟨id, pathStr, some .PTString, none, none, some s⟩]
  | .CJArray arr =>
    if arr.isEmpty then [⟨id, pathStr, some .PTEmptyArray, none, none, none⟩]
    else arr.zipIdx.attach.flatMap fun ⟨vi, _⟩ =>
      let newPath := .PEIndex (BitVec.ofNat 64 vi.2) :: path
      flattenHelper id newPath (mkPath newPath) vi.1
  | .CJObject cols values =>
    if values.isEmpty then [⟨id, pathStr, some .PTEmptyObject, none, none, none⟩]
    else (sortedByName (cols.zip values)).attach.flatMap fun ⟨kv, _⟩ =>
      let newPath := .PEField kv.1 :: path
      flattenHelper id newPath (mkPath newPath) kv.2
termination_by sizeOf json
decreasing_by
  · have less := sizeOf_lt_of_mem (fst_mem_of_mem_zipIdx ‹vi ∈ arr.zipIdx›)
    simp only [CJSON.CJArray.sizeOf_spec]
    omega
  · have less := CJSON.sizeOf_field (mem_sortedByName.mp ‹kv ∈ sortedByName _›)
    simp only [CJSON.CJObject.sizeOf_spec]
    omega

def flatten (rows : List (List Char × CJSON F)) : List (Row F) :=
  rows.flatMap fun row => flattenHelper row.1 [] [] row.2

def fromSome {A : Type} : Option A → Except Exn A
  | none => .error (.InvariantViolation "fromSome called on None".toList)
  | some x => .ok x

def rowValue (row : Row F) : Except Exn (CJSON F) :=
  match row.type with
  | none => .ok .CJNull
  | some .PTInt => (fromSome row.int).map .CJInt
  | some .PTBool => (fromSome row.int).map fun i => .CJBool (i != 0)
  | some .PTFloat => (fromSome row.float).map .CJFloat
  | some .PTString => (fromSome row.string).map .CJString
  | some .PTEmptyArray => .ok (.CJArray [])
  | some .PTEmptyObject => .ok (.CJObject [] [])

abbrev Paths (F : Type) := List (List PathElement × CJSON F)

/-- What a row does with the rows before it: an object that is complete is yielded. -/
def yieldObject (lastRow : Option (Row F)) (row : Row F) (objectPaths : Paths F) :
    Except Exn (List (List Char × Paths F) × Paths F) :=
  match lastRow with
  | none => .ok ([], objectPaths)
  | some lrow =>
    if row.id < lrow.id then
      .error (.ReconstructError
        ("Object id out of order: ".toList ++ lrow.id ++ ['/'] ++ row.id))
    else if lrow.id = row.id then
      if row.path < lrow.path then
        .error (.ReconstructError
          ("Object path out of order: ".toList ++ lrow.path ++ ['/'] ++ row.path))
      else if lrow.path = row.path then
        .error (.ReconstructError ("Path defined multiple times: ".toList ++ row.id ++ row.path))
      else .ok ([], objectPaths)
    else .ok ([(lrow.id, objectPaths)], [])

def buildPathValueIter (lastRow : Option (Row F)) (objectPaths : Paths F) :
    List (Row F) → Except Exn (List (List Char × Paths F))
  | [] =>
    match lastRow with
    | some lrow => .ok (if objectPaths.isEmpty then [] else [(lrow.id, objectPaths)])
    | none => .ok []
  | row :: rows => do
      let (yielded, objectPaths) ← yieldObject lastRow row objectPaths
      let path ← parsePath row.path
      let value ← rowValue row
      let rest ← buildPathValueIter (some row) (objectPaths ++ [(path, value)]) rows
      .ok (yielded ++ rest)

abbrev Objects (F : Type) := List (PathElement × Paths F)

def pushRow (objects : Objects F) (head : PathElement) (row : List PathElement × CJSON F) :
    Objects F :=
  match objects.getLast? with
  | some last =>
    if head = last.1 then objects.dropLast ++ [(last.1, last.2 ++ [row])]
    else objects ++ [(head, [row])]
  | none => objects ++ [(head, [row])]

/-- The rows by the heads of their paths; the value of a row without a path is returned at once. -/
def collectObjects (objects : Objects F) : Paths F → Except (CJSON F) (Objects F)
  | [] => .ok objects
  | ([], value) :: _ => .error value
  | (head :: tail, value) :: rows => collectObjects (pushRow objects head (tail, value)) rows

def strictlyIncreasing : List (List Char) → Bool
  | x :: y :: rest => decide (x < y) && strictlyIncreasing (y :: rest)
  | _ => true

def createFields (fields : List (List Char × CJSON F))
    (internFieldNames : List (List Char) → List (List Char)) : Except Exn (CJSON F) :=
  let fields := sortedByName fields
  if strictlyIncreasing (fields.map Prod.fst) then
    .ok (.CJObject (internFieldNames (fields.map Prod.fst)) (fields.map Prod.snd))
  else .error (.InvariantViolation "assert".toList)

def checkIndices {A : Type} (i : ℕ) : List (BitVec 64 × A) → Except Exn Unit
  | [] => .ok ()
  | (n, _) :: arr =>
    if n ≠ BitVec.ofNat 64 i then
      .error (.ReconstructError
        ("Missing array index: ".toList ++ intToString (BitVec.ofNat 64 i)))
    else checkIndices (i + 1) arr

def indexed {A : Type} : PathElement × A → Option (BitVec 64 × A)
  | (.PEIndex n, a) => some (n, a)
  | _ => none

def named {A : Type} : PathElement × A → Option (List Char × A)
  | (.PEField name, a) => some (name, a)
  | _ => none

def container (internFieldNames : List (List Char) → List (List Char))
    (elements : List (PathElement × CJSON F)) : Except Exn (CJSON F) :=
  let array := elements.filterMap indexed
  let fields := elements.filterMap named
  if array.isEmpty then createFields (sortedByName fields) internFieldNames
  else if fields.isEmpty then
    let arr := sortedByIndex array
    (checkIndices 0 arr).map fun _ => .CJArray (arr.map Prod.snd)
  else .error (.ReconstructError "JSON is both an object and an array".toList)

def expand {A : Type} (objects : List (PathElement × List (List PathElement × A))) :
    List (List PathElement × A) :=
  objects.flatMap fun obj => obj.2.map fun row => (obj.1 :: row.1, row.2)

theorem expand_pushRow (objects : Objects F) (head : PathElement)
    (row : List PathElement × CJSON F) :
    expand (pushRow objects head row) = expand objects ++ [(head :: row.1, row.2)] := by
  unfold pushRow
  cases objects using List.reverseRecOn with
  | nil => rfl
  | append_singleton objects last =>
    rw [List.getLast?_concat]
    dsimp only
    split
    · rename_i same
      rw [dropLast_concat, same]
      simp [expand]
    · simp [expand]

variable {rows : Paths F} {objects objects' : Objects F}

theorem collectObjects_expand
    (h : collectObjects objects rows = .ok objects') : expand objects' = expand objects ++ rows := by
  fun_induction collectObjects objects rows with
  | case1 objects =>
    cases h
    rw [append_nil]
  | case2 => cases h
  | case3 objects head tail value rows ih =>
    rw [ih h, expand_pushRow, append_assoc, singleton_append]

variable {row : List PathElement × CJSON F}

theorem pushRow_some {objects : Objects F} {head : PathElement} (h : ∀ obj ∈ objects, obj.2 ≠ []) :
    ∀ obj ∈ pushRow objects head row, obj.2 ≠ [] := by
  have pushed (paths : Paths F) (rest : Objects F) (head : PathElement)
      (others : ∀ obj ∈ rest, obj.2 ≠ []) :
      ∀ obj ∈ rest ++ [(head, paths ++ [row])], obj.2 ≠ [] := by
    intro obj member
    rcases mem_append.mp member with member | member
    · exact others obj member
    · rw [mem_singleton.mp member]
      exact append_ne_nil_of_right_ne_nil _ (cons_ne_nil _ _)
  unfold pushRow
  split
  · split
    · exact pushed _ _ _ fun obj member => h obj (mem_of_mem_dropLast member)
    · exact pushed [] _ _ h
  · exact pushed [] _ _ h

theorem pushRow_chain {objects : Objects F} {head : PathElement} (h :
    (objects.map Prod.fst).IsChain (· ≠ ·)) :
    ((pushRow objects head row).map Prod.fst).IsChain (· ≠ ·) := by
  unfold pushRow
  cases objects using List.reverseRecOn with
  | nil => exact List.IsChain.singleton _
  | append_singleton objects last =>
    rw [List.getLast?_concat]
    dsimp only
    split
    · rw [dropLast_concat]
      rw [map_append] at h ⊢
      exact h
    · rename_i differs
      rw [map_append, map_append] at *
      refine List.IsChain.append h (List.IsChain.singleton _) ?_
      intro x last' y first
      rw [map_singleton, List.getLast?_concat, Option.mem_some_iff] at last'
      rw [map_singleton, List.head?_cons, Option.mem_some_iff] at first
      rw [← last', ← first]
      exact fun same => differs same.symm

theorem collectObjects_some
    (h : collectObjects objects rows = .ok objects') (some : ∀ obj ∈ objects, obj.2 ≠ []) :
    ∀ obj ∈ objects', obj.2 ≠ [] := by
  fun_induction collectObjects objects rows with
  | case1 objects =>
    cases h
    exact some
  | case2 => cases h
  | case3 objects head tail value rows ih => exact ih h (pushRow_some some)

theorem collectObjects_chain
    (h : collectObjects objects rows = .ok objects')
    (chain : (objects.map Prod.fst).IsChain (· ≠ ·)) :
    (objects'.map Prod.fst).IsChain (· ≠ ·) := by
  fun_induction collectObjects objects rows with
  | case1 objects =>
    cases h
    exact chain
  | case2 => cases h
  | case3 objects head tail value rows ih => exact ih h (pushRow_chain chain)

def depth : Paths F → ℕ
  | [] => 0
  | row :: rows => max (row.1.length + 1) (depth rows)

theorem le_depth (h : row ∈ rows) :
    row.1.length < depth rows := by
  induction rows with
  | nil => cases h
  | cons first rows ih =>
    rw [depth]
    rcases mem_cons.mp h with rfl | h
    · exact Nat.le_max_left _ _
    · exact Nat.lt_of_lt_of_le (ih h) (Nat.le_max_right _ _)

theorem depth_le {d : ℕ} (h : ∀ row ∈ rows, row.1.length < d) :
    depth rows ≤ d := by
  induction rows with
  | nil => exact Nat.zero_le _
  | cons first rows ih =>
    rw [depth]
    exact Nat.max_le.mpr ⟨h first mem_cons_self,
      ih fun row member => h row (mem_cons_of_mem first member)⟩

theorem depth_object {objects : Objects F} {obj : PathElement × Paths F} (h : obj ∈ objects)
    (some : obj.2 ≠ []) : depth obj.2 < depth (expand objects) := by
  obtain ⟨row, member⟩ := exists_mem_of_ne_nil _ some
  have deeper : ∀ row ∈ obj.2, row.1.length + 1 < depth (expand objects) := by
    intro row member
    have whole : (obj.1 :: row.1, row.2) ∈ expand objects :=
      mem_flatMap.mpr ⟨obj, h, mem_map.mpr ⟨row, member, rfl⟩⟩
    exact le_depth whole
  have first := deeper row member
  have all : depth obj.2 ≤ depth (expand objects) - 1 :=
    depth_le fun row member => by
      have := deeper row member
      omega
  omega

def reconstructHelper (internFieldNames : List (List Char) → List (List Char))
    (pathValueIter : Paths F) : Except Exn (CJSON F) :=
  match _h : collectObjects [] pathValueIter with
  | .error value => .ok value
  | .ok objects => do
      let elements ← objects.attach.mapM fun ⟨obj, _⟩ =>
        (reconstructHelper internFieldNames obj.2).map fun json => (obj.1, json)
      container internFieldNames elements
termination_by depth pathValueIter
decreasing_by
  have deeper := depth_object ‹obj ∈ objects›
    (collectObjects_some _h (forall_mem_nil _) obj ‹obj ∈ objects›)
  rw [collectObjects_expand _h] at deeper
  exact deeper

def reconstruct (rows : List (Row F)) (internFieldNames : List (List Char) → List (List Char)) :
    Except Exn (List (List Char × CJSON F)) := do
  let objects ← buildPathValueIter none [] rows
  objects.mapM fun (objectID, paths) =>
    (reconstructHelper internFieldNames paths).map fun json => (objectID, json)

end SkipPlatform.SKJSON
