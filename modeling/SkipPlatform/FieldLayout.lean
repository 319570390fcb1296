import Mathlib.Data.Finset.Insert
import Mathlib.Data.Int.Bitwise
import Mathlib.Logic.Function.Basic
import Mathlib.Order.Basic
import SkipPlatform.SortedMap

set_option autoImplicit false

/-! The offsets of the fields of all classes. The classes that share a field by inheritance agree on
its offset; the offsets of connected classes are chosen together. -/
namespace SkipPlatform.FieldLayout

inductive ScalarKind where
  | float
  | integer
  | gcPointer
  | nonGCPointer
  deriving DecidableEq

def ScalarKind.typeOrder : ScalarKind → ℕ
  | gcPointer => 0
  | nonGCPointer => 1
  | integer => 3
  | float => 4

structure ScalarType where
  bitSize : ℤ
  bitAlignment : ℤ
  llvmTypeName : String
  kind : ScalarKind
  nonneg : 0 ≤ bitSize
  aligned : ∃ k ≤ 6, bitAlignment = 2 ^ k
  deriving DecidableEq

structure SpecializationConfig where
  ptrBitSize : ℤ
  word : ptrBitSize = 32 ∨ ptrBitSize = 64

namespace ScalarType

def isGCPointer (t : ScalarType) : Bool := t.kind = .gcPointer

def compare (t other : ScalarType) : Ordering :=
  (Ord.compare other.isGCPointer t.isGCPointer).then <|
    (Ord.compare other.bitAlignment t.bitAlignment).then <|
      (Ord.compare other.bitSize t.bitSize).then <|
        Ord.compare t.kind.typeOrder other.kind.typeOrder

def gcPointer (config : SpecializationConfig) : ScalarType where
  bitSize := config.ptrBitSize
  bitAlignment := config.ptrBitSize
  llvmTypeName := "ptr"
  kind := .gcPointer
  nonneg := by
    cases config.word <;> omega
  aligned := by
    cases config.word with
    | inl h => exact ⟨5, by omega, h⟩
    | inr h => exact ⟨6, by omega, h⟩

end ScalarType

def roundUp (a align : ℤ) : ℤ := (a + align - 1).land (-align)

def alignField (offset : ℤ) (typ : ScalarType) (isCppExport : Bool) : ℤ :=
  let bitAlignment := if isCppExport ∧ typ.bitAlignment < 8 then 8 else typ.bitAlignment
  let n := roundUp offset bitAlignment
  let last := n + typ.bitSize
  if (n.xor (last - 1)).land (-64) ≠ 0 ∧ typ.bitSize ≤ 64 then roundUp n 64 else n

structure LayoutSlot (N : Type) where
  name : N
  bitOffset : ℤ
  typ : ScalarType

def LayoutSlot.endBitOffset {N : Type} (s : LayoutSlot N) : ℤ := s.bitOffset + s.typ.bitSize

/-- `prevIndex` is where the last search ended and `prevType` what it searched for. -/
structure LayoutBuilder (N : Type) where
  fields : List (LayoutSlot N)
  prevIndex : ℕ
  prevType : ScalarType

namespace LayoutBuilder
variable {N : Type}

def mcreate (config : SpecializationConfig) (fields : List (LayoutSlot N)) : LayoutBuilder N :=
  ⟨fields, 0, .gcPointer config⟩

/-- The scan for a hole before one of the fields from `index` on. -/
def scan (typ : ScalarType) : List (LayoutSlot N) → ℕ → ℤ → Bool × ℕ × ℤ
  | [], index, offset => (false, index, offset)
  | f :: rest, index, offset =>
    if offset + typ.bitSize ≤ f.bitOffset then (true, index, offset)
    else scan typ rest (index + 1)
      (if offset < f.endBitOffset then alignField f.endBitOffset typ false else offset)

/-- A search that is at least as hard as the previous one starts where that one ended. -/
def startIndex (b : LayoutBuilder N) (typ : ScalarType) : ℕ :=
  if b.prevType.bitSize ≤ typ.bitSize ∧ b.prevType.bitAlignment ≤ typ.bitAlignment then b.prevIndex
  else 0

def startOffset (b : LayoutBuilder N) (index : ℕ) (startBitOffset : ℤ) : ℤ :=
  if index = 0 then startBitOffset
  else
    match b.fields[index - 1]? with
    | none => startBitOffset
    | some prev => max startBitOffset prev.endBitOffset

def findOffset (b : LayoutBuilder N) (startBitOffset : ℤ) (typ : ScalarType) :
    ℤ × LayoutBuilder N :=
  if typ.bitSize = 0 then (0, { b with prevIndex := 0, prevType := typ })
  else
    let index := b.startIndex typ
    let offset := alignField (b.startOffset index startBitOffset) typ false
    match scan typ (b.fields.drop index) index offset with
    | (true, index, offset) => (offset, { b with prevIndex := index, prevType := typ })
    | (false, index, offset) =>
      match b.fields.getLast? with
      | none => (offset, { b with prevIndex := index, prevType := typ })
      | some last => (max offset (alignField last.endBitOffset typ false),
          { b with prevIndex := b.fields.length, prevType := typ })

def reservePrevOffset (b : LayoutBuilder N) (name : N) (offset : ℤ) (resetIndex : Bool) :
    LayoutBuilder N :=
  { b with
    fields := b.fields.insertIdx b.prevIndex ⟨name, offset, b.prevType⟩
    prevIndex := if resetIndex then 0 else b.prevIndex + 1 }

end LayoutBuilder

structure SField (ID N : Type) where
  name : N
  sclassID : ID
  index : ℤ

structure SClass (ID N : Type) where
  id : ID
  fields : List (SField ID N)
  isArray : Bool
  isValueClass : Bool
  cppExport : Bool
  scalarType : ScalarType

def SClass.maybeGetField {ID N : Type} [DecidableEq N] (sc : SClass ID N) (name : N) :
    Option (SField ID N) := sc.fields.find? fun f => f.name = name

/-- What the layout reads of the specializer. The sets of classes are lists in their order. -/
structure Specializer (ID N : Type) where
  sclass : ID → SClass ID N
  supertypes : ID → List ID
  subtypes : ID → List ID
  config : SpecializationConfig

structure FieldLayoutConstraint (ID N : Type) where
  name : N
  typ : ScalarType
  types : List ID

def FieldLayoutConstraint.compare {ID N : Type} (c1 c2 : FieldLayoutConstraint ID N) : Ordering :=
  (Ord.compare c2.types.length c1.types.length).then (c1.typ.compare c2.typ)

/-- `layouts` are those that the classes have so far. -/
structure FieldLayoutChooser (ID N : Type) where
  layouts : ID → Option (List (LayoutSlot N))
  classAlreadyProcessed : Finset ID
  fieldsDone : Finset (ID × N)

section Chooser

variable {ID N : Type} [LinearOrder ID] [DecidableEq N] (sp : Specializer ID N)

def hasField (id : ID) (name : N) : Bool := ((sp.sclass id).maybeGetField name).isSome

/-- The classes that were reached by a field so far, and the fields that are done. -/
structure Reached (ID N : Type) where
  fieldsDone : Finset (ID × N)
  types : List ID

def visitSuper (name : N) (s : Reached ID N) (superID : ID) : Reached ID N :=
  if (superID, name) ∈ s.fieldsDone then s
  else ⟨insert (superID, name) s.fieldsDone,
    if hasField sp superID name then s.types ++ [superID] else s.types⟩

/-- `none` is a subtype without a field of its supertype. -/
def visitSub (name : N) (s : Reached ID N) (subID : ID) : Option (Reached ID N) :=
  if (subID, name) ∈ s.fieldsDone then some s
  else if hasField sp subID name then
    some ⟨insert (subID, name) s.fieldsDone, s.types ++ [subID]⟩
  else none

def visit (name : N) (s : Reached ID N) (sid : ID) : Option (Reached ID N) :=
  (sp.subtypes sid).foldlM (visitSub sp name) ((sp.supertypes sid).foldl (visitSuper sp name) s)

def constrainLoop (name : N) : ℕ → ℕ → Reached ID N → Option (Reached ID N)
  | 0, _, _ => none
  | fuel + 1, i, s =>
    match s.types[i]? with
    | none => some s
    | some sid => (visit sp name s sid).bind (constrainLoop name fuel (i + 1))

def fieldType (field : SField ID N) : ScalarType := (sp.sclass field.sclassID).scalarType

def constrainConnectedClassesWithField (fuel : ℕ) (fieldsDone : Finset (ID × N)) (start : SClass ID N)
    (field : SField ID N) : Option (Finset (ID × N) × FieldLayoutConstraint ID N) :=
  (constrainLoop sp field.name fuel 0 ⟨fieldsDone, [start.id]⟩).map fun s =>
    (s.fieldsDone, ⟨field.name, fieldType sp field, s.types⟩)

structure Connecting (ID N : Type) where
  fieldsDone : Finset (ID × N)
  classAlreadyProcessed : Finset ID
  constraints : List (FieldLayoutConstraint ID N)
  connectedClassesStack : List ID

def pushClass (s : Connecting ID N) (csid : ID) : Connecting ID N :=
  if csid ∈ s.classAlreadyProcessed then s
  else
    { s with
      classAlreadyProcessed := insert csid s.classAlreadyProcessed
      connectedClassesStack := csid :: s.connectedClassesStack }

def connectField (fuel : ℕ) (sclass : SClass ID N) (s : Connecting ID N) (field : SField ID N) :
    Option (Connecting ID N) :=
  if (sclass.id, field.name) ∈ s.fieldsDone then some s
  else
    (constrainConnectedClassesWithField sp fuel (insert (sclass.id, field.name) s.fieldsDone) sclass
      field).map fun r =>
        r.2.types.foldl pushClass
          { s with fieldsDone := r.1, constraints := s.constraints ++ [r.2] }

def connectLoop (inner : ℕ) : ℕ → Connecting ID N → Option (Connecting ID N)
  | 0, _ => none
  | fuel + 1, s =>
    match s.connectedClassesStack with
    | [] => some s
    | sid :: rest =>
      ((sp.sclass sid).fields.foldlM (connectField sp inner (sp.sclass sid))
        { s with connectedClassesStack := rest }).bind (connectLoop inner fuel)

def buildConstraintsForConnectedClasses (fuel : ℕ) (flc : FieldLayoutChooser ID N)
    (start : SClass ID N) : Option (FieldLayoutChooser ID N × List (FieldLayoutConstraint ID N)) :=
  (connectLoop sp fuel fuel ⟨flc.fieldsDone, flc.classAlreadyProcessed, [], [start.id]⟩).map fun s =>
    (⟨flc.layouts, s.classAlreadyProcessed, s.fieldsDone⟩, s.constraints)

/-- The search for an offset that all classes of a constraint have free. -/
structure Search (ID N : Type) where
  offset : ℤ
  done : Bool
  needReset : Bool
  builders : ID → LayoutBuilder N

def searchClass (typ : ScalarType) (s : Search ID N) (sid : ID) : Search ID N :=
  let r := (s.builders sid).findOffset (max s.offset 0) typ
  let s := { s with builders := Function.update s.builders sid r.2 }
  if r.1 ≠ s.offset then
    if s.offset ≥ 0 then { s with offset := r.1, done := false, needReset := true }
    else { s with offset := r.1 }
  else s

def searchLoop (typ : ScalarType) (types : List ID) : ℕ → Search ID N → Option (Search ID N)
  | 0, _ => none
  | fuel + 1, s =>
    let s := types.foldl (searchClass typ) { s with done := true }
    if s.done then some s else searchLoop typ types fuel s

def reserveClass (name : N) (offset : ℤ) (needReset : Bool) (builders : ID → LayoutBuilder N)
    (sid : ID) : ID → LayoutBuilder N :=
  Function.update builders sid ((builders sid).reservePrevOffset name offset needReset)

def assignConstraint (fuel : ℕ) (builders : ID → LayoutBuilder N)
    (constraint : FieldLayoutConstraint ID N) : Option (ID → LayoutBuilder N) :=
  (searchLoop constraint.typ constraint.types fuel ⟨-1, false, false, builders⟩).map fun s =>
    constraint.types.foldl (reserveClass constraint.name s.offset s.needReset) s.builders

/-- A class has a builder when it is in a constraint. `none` is a violated invariant. -/
def assignFieldOffsets (fuel : ℕ) (flc : FieldLayoutChooser ID N)
    (constraints : List (FieldLayoutConstraint ID N)) : Option (FieldLayoutChooser ID N) :=
  let sorted := constraints.mergeSort fun c1 c2 => (c1.compare c2).isLE
  let classes := sorted.flatMap FieldLayoutConstraint.types
  (sorted.foldlM (assignConstraint fuel) fun _ => .mcreate sp.config []).bind fun builders =>
    if classes.all fun sid => (sp.sclass sid).fields.length = (builders sid).fields.length then
      some { flc with
        layouts := fun sid => if sid ∈ classes then some (builders sid).fields else flc.layouts sid }
    else none

def cppExportSlot (s : ℤ × List (LayoutSlot N)) (field : SField ID N) : ℤ × List (LayoutSlot N) :=
  let offset := alignField s.1 (fieldType sp field) true
  (offset + (fieldType sp field).bitSize, s.2 ++ [⟨field.name, offset, fieldType sp field⟩])

def layoutCppExportClass (fields : List (SField ID N)) : List (LayoutSlot N) :=
  ((fields.mergeSort fun f g => decide (f.index ≤ g.index)).foldl (cppExportSlot sp) (0, [])).2

def setLayout (flc : FieldLayoutChooser ID N) (id : ID) (layout : List (LayoutSlot N)) :
    FieldLayoutChooser ID N :=
  { flc with layouts := Function.update flc.layouts id (some layout) }

def layoutFixed (flc : FieldLayoutChooser ID N) (id : ID) : FieldLayoutChooser ID N :=
  if (sp.sclass id).cppExport then
    setLayout { flc with classAlreadyProcessed := insert id flc.classAlreadyProcessed } id
      (layoutCppExportClass sp (sp.sclass id).fields)
  else flc

def layoutClass (fuel : ℕ) (flc : FieldLayoutChooser ID N) (id : ID) :
    Option (FieldLayoutChooser ID N) :=
  let sc := sp.sclass id
  if sc.isArray ∨ sc.isValueClass then some flc
  else if sc.fields = [] then some (setLayout flc id [])
  else if id ∈ flc.classAlreadyProcessed then some flc
  else
    (buildConstraintsForConnectedClasses sp fuel
      { flc with classAlreadyProcessed := insert id flc.classAlreadyProcessed } sc).bind fun r =>
        if r.2 = [] then some (setLayout r.1 id []) else assignFieldOffsets sp fuel r.1 r.2

def runClasses (fuel : ℕ) (layouts : ID → Option (List (LayoutSlot N))) (classes : List ID) :
    Option (FieldLayoutChooser ID N) :=
  classes.foldlM (layoutClass sp fuel) (classes.foldl (layoutFixed sp) ⟨layouts, ∅, ∅⟩)

end Chooser

structure FieldLayoutShapeFile (ID N : Type) where
  id : ID
  fields : List N
  subtypes : List ID

section Groups

variable {ID N : Type} [LinearOrder ID] [DecidableEq N]

def findRoot (parents : ID → ID) : ℕ → ID → Option ID
  | 0, _ => none
  | fuel + 1, root => if parents root = root then some root else findRoot parents fuel (parents root)

def compressPath (root : ID) : ℕ → (ID → ID) → ID → Option (ID → ID)
  | 0, _, _ => none
  | fuel + 1, parents, node =>
    if parents node = node then some parents
    else compressPath root fuel (Function.update parents node root) (parents node)

def fieldLayoutRoot (fuel : ℕ) (parents : ID → ID) (start : ID) : Option (ID × (ID → ID)) :=
  (findRoot parents fuel start).bind fun root =>
    (compressPath root fuel parents start).map fun parents => (root, parents)

/-- `none` is a subtype without a shape. -/
def joinSubtype (fuel : ℕ) (shapes : List (FieldLayoutShapeFile ID N))
    (shape : FieldLayoutShapeFile ID N) (parents : ID → ID) (sub : ID) : Option (ID → ID) :=
  if sub = shape.id then some parents
  else
    (shapes.find? fun other => other.id = sub).bind fun other =>
      if shape.fields.any fun name => name ∈ other.fields then
        (fieldLayoutRoot fuel parents shape.id).bind fun left =>
          (fieldLayoutRoot fuel left.2 sub).map fun right =>
            if left.1 < right.1 then Function.update right.2 right.1 left.1
            else Function.update right.2 left.1 right.1
      else some parents

def joinShape (fuel : ℕ) (shapes : List (FieldLayoutShapeFile ID N)) (parents : ID → ID)
    (shape : FieldLayoutShapeFile ID N) : Option (ID → ID) :=
  shape.subtypes.foldlM (joinSubtype fuel shapes shape) parents

def addMember (fuel : ℕ) (s : (ID → ID) × SortedMap ID (SortedSet ID))
    (shape : FieldLayoutShapeFile ID N) : Option ((ID → ID) × SortedMap ID (SortedSet ID)) :=
  (fieldLayoutRoot fuel s.1 shape.id).map fun root =>
    (root.2, s.2.set root.1 (((s.2.maybeGet root.1).getD .empty).set shape.id ()))

def planFieldLayoutGroups (fuel : ℕ) (shapes : List (FieldLayoutShapeFile ID N)) :
    Option (SortedMap ID (List ID)) :=
  (shapes.foldlM (joinShape fuel shapes) id).bind fun parents =>
    (shapes.foldlM (addMember fuel) (parents, .empty)).map fun s => s.2.map fun _ ids => ids.keys

variable (sp : Specializer ID N)

/-- The layouts of one group; the layout of the root is written as it is. -/
def layoutSpecializerGroup (fuel : ℕ) (layouts : ID → Option (List (LayoutSlot N)))
    (classes : List ID) : Option (FieldLayoutChooser ID N) :=
  runClasses sp fuel layouts classes

def shapeOf (id : ID) : FieldLayoutShapeFile ID N :=
  ⟨id, (sp.sclass id).fields.map SField.name, sp.subtypes id⟩

end Groups

end SkipPlatform.FieldLayout
