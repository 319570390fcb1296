import SkipPlatform.SqlCsvRoundTrip

set_option autoImplicit false
set_option linter.unusedSectionVars false

/-! Clients that name the columns they want. A row of the table is written with the columns of
the client's schema, looked up by name; a row of the client is rebuilt with those columns of the
table that the client's schema defines in the same way. -/
namespace SkipPlatform.SqlSchema
open List

inductive OnConflict where
  | ignore
  | replace
deriving DecidableEq

inductive IKind where
  | none
  | asc
  | desc
deriving DecidableEq

structure CCPrimaryKey where
  constraintName : Option String := none
  order : IKind := .none
  autoincrement : Bool := false
  onConflict : Option OnConflict := none
deriving DecidableEq

structure CCNotNull where
  constraintName : Option String := none
  onConflict : Option OnConflict := none
deriving DecidableEq

structure CCUnique where
  constraintName : Option String := none
  onConflict : Option OnConflict := none
deriving DecidableEq

/-- The expression of a `DEFAULT` constraint: a literal, a name of the clock, or anything else
in parentheses. -/
inductive DefaultExpr (V X : Type) where
  | null
  | value (v : V)
  | currentTime
  | currentDate
  | currentTimestamp
  | other (expr : X)
deriving DecidableEq

structure CCDefault (V X : Type) where
  constraintName : Option String := none
  expr : DefaultExpr V X
deriving DecidableEq

structure ColumnDefinition (T V X : Type) where
  name : String
  ty : T
  primary : Option CCPrimaryKey := none
  notNull : Option CCNotNull := none
  unique : Option CCUnique := none
  default : Option (CCDefault V X) := none
deriving DecidableEq

structure RowValues (V : Type) where
  values : List (Option V)
  repeatCount : ℕ
deriving DecidableEq

inductive SchemaError where
  | missingRequiredColumn (name : String)
  | unknownColumn (name : String)
deriving DecidableEq

section Columns
variable {T V X : Type} [DecidableEq T] [DecidableEq V] [DecidableEq X]

def columnIdx (source : List (ColumnDefinition T V X)) (name : String) : Option ℕ :=
  source.findIdx? fun col => decide (col.name = name)

/-- The positions of the client's columns in the table; no schema asks for all columns. -/
def buildCSVSchemaTransform (source : List (ColumnDefinition T V X))
    (columns : Option (List (ColumnDefinition T V X))) : Except SchemaError (List ℕ) :=
  match columns with
  | none => .ok (List.range source.length)
  | some target =>
    match source.find? fun sourceCol =>
        sourceCol.notNull.isSome && sourceCol.default.isNone && !target.contains sourceCol with
    | some sourceCol => .error (.missingRequiredColumn sourceCol.name)
    | none =>
      target.mapM fun targetCol =>
        match columnIdx source targetCol.name with
        | none => .error (.unknownColumn targetCol.name)
        | some idx => .ok idx

end Columns

namespace RowValues
variable {V : Type}

def fieldString (text : V → List Char) : Option V → List Char
  | none => []
  | some v => text v

/-- The row as CSV, in the order of the indices. A row of one value is written as it is;
`none` is for an index that is not there. -/
def toStringSingle (text : V → List Char) (row : RowValues V) (indices : List ℕ) :
    Option (List Char) :=
  if row.values.length = 1 then row.values[0]?.map (fieldString text)
  else do
    let result ← indices.dropLast.mapM fun i => row.values[i]?.map (fieldString text)
    let last ← indices.getLast?
    let v ← row.values[last]?
    return result.flatMap (fun field => field ++ [',']) ++ fieldString text v

def toKVString (text : V → List Char) (row : RowValues V) (indices : List ℕ) :
    Option (List Char) :=
  (row.toStringSingle text indices).map fun fields =>
    Nat.toDigits 10 row.repeatCount ++ '\t' :: fields ++ ['\n']

end RowValues

inductive ColumnTranslation (V X : Type) where
  | sourceIdx (idx : ℕ)
  | null
  | default (expr : DefaultExpr V X)

/-- `none` is for an expression that is no default value. -/
def evaluateDefault {V X : Type} (strftime : String → V) : DefaultExpr V X → Option (Option V)
  | .null => some none
  | .value v => some (some v)
  | .currentTime => some (some (strftime "%H:%M:%S"))
  | .currentDate => some (some (strftime "%Y-%m-%d"))
  | .currentTimestamp => some (some (strftime "%Y-%m-%d %H:%M:%S"))
  | .other _ => none

section Translation
variable {T V X : Type} [DecidableEq T] [DecidableEq V] [DecidableEq X]

def columnTranslation (sourceSchema : List (ColumnDefinition T V X))
    (colDef : ColumnDefinition T V X) : Option (ColumnTranslation V X) :=
  match sourceSchema.idxOf? colDef with
  | some idx => some (.sourceIdx idx)
  | none =>
    match colDef.default with
    | some d => some (.default d.expr)
    | none => if colDef.notNull.isNone then some .null else none

/-- `none` is for a column that the client had to send. -/
def translateFromSourceSchema (sourceSchema actualSchema : List (ColumnDefinition T V X)) :
    Option (List (ColumnTranslation V X)) :=
  actualSchema.mapM (columnTranslation sourceSchema)

end Translation

namespace ColumnTranslation
variable {V X : Type}

def value (strftime : String → V) (row : RowValues V) :
    ColumnTranslation V X → Option (Option V)
  | .null => some none
  | .sourceIdx idx => row.values[idx]?
  | .default expr => evaluateDefault strftime expr

def translate (strftime : String → V) (rowConstructor : List (ColumnTranslation V X))
    (row : RowValues V) : Option (RowValues V) :=
  (rowConstructor.mapM (value strftime row)).map fun values => ⟨values, row.repeatCount⟩

end ColumnTranslation

/-- The row of a client: the values at the positions of its columns. -/
def RowValues.project {V : Type} (row : RowValues V) (indices : List ℕ) : RowValues V :=
  ⟨indices.map fun i => row.values[i]?.join, row.repeatCount⟩

section Accepted
variable {T V X : Type} [DecidableEq T] [DecidableEq V] [DecidableEq X]
  {source target : List (ColumnDefinition T V X)} {indices : List ℕ}

theorem mapM_ok {α β ε : Type} {f : α → Except ε β} {xs : List α} {ys : List β}
    (h : xs.mapM f = .ok ys) : List.Forall₂ (fun x y => f x = .ok y) xs ys := by
  induction xs generalizing ys with
  | nil =>
    cases h
    exact .nil
  | cons x xs ih =>
    rw [mapM_cons] at h
    cases hx : f x with
    | error err =>
      rw [hx] at h
      cases h
    | ok y =>
      rw [hx] at h
      cases hxs : xs.mapM f with
      | error err =>
        simp [hxs, bind, Except.bind] at h
      | ok rest =>
        have hys : y :: rest = ys := by
          simpa [hxs, bind, Except.bind, pure, Except.pure] using h
        rw [← hys]
        exact .cons hx (ih hxs)

theorem of_accepted (h : buildCSVSchemaTransform source (some target) = .ok indices) :
    (∀ col ∈ source, col.notNull.isSome = true → col.default = none → col ∈ target) ∧
      List.Forall₂ (fun col idx => columnIdx source col.name = some idx) target indices := by
  unfold buildCSVSchemaTransform at h
  dsimp only at h
  split at h
  · cases h
  · rename_i hrequired
    rw [List.find?_eq_none] at hrequired
    constructor
    · intro col hcol hnotNull hdefault
      by_contra hno
      apply hrequired col hcol
      rw [hnotNull, hdefault]
      simpa using hno
    · apply (mapM_ok h).imp
      intro col idx hidx
      split at hidx
      · cases hidx
      · rename_i i hi
        cases hidx
        exact hi

theorem columnIdx_lt {name : String} {idx : ℕ} (h : columnIdx source name = some idx) :
    idx < source.length := by
  obtain ⟨hlt, _⟩ := List.findIdx?_eq_some_iff_getElem.mp h
  exact hlt

end Accepted

theorem mapM_eq_some_iff {α β : Type} {f : α → Option β} {xs : List α} {ys : List β} :
    xs.mapM f = some ys ↔ List.Forall₂ (fun x y => f x = some y) xs ys := by
  induction xs generalizing ys with
  | nil =>
    rw [mapM_nil, forall₂_nil_left_iff]
    exact ⟨fun h => (Option.some.inj h).symm, fun h => congrArg some h.symm⟩
  | cons x xs ih =>
    rw [mapM_cons, Option.bind_eq_bind, Option.bind_eq_some_iff]
    constructor
    · rintro ⟨y, hy, hrest⟩
      rw [Option.bind_eq_bind, Option.bind_eq_some_iff] at hrest
      obtain ⟨rest, hrest, hys⟩ := hrest
      have heq : y :: rest = ys := Option.some.inj hys
      rw [← heq]
      exact .cons hy (ih.mp hrest)
    · intro h
      cases h with
      | cons hy hrest =>
        refine ⟨_, hy, ?_⟩
        rw [ih.mpr hrest]
        rfl

theorem isSome_mapM {α β : Type} {f : α → Option β} {xs : List α} :
    (xs.mapM f).isSome = true ↔ ∀ x ∈ xs, (f x).isSome = true := by
  induction xs with
  | nil => exact ⟨fun _ x hx => absurd hx not_mem_nil, fun _ => rfl⟩
  | cons x xs ih =>
    rw [forall_mem_cons, ← ih, mapM_cons]
    cases f x with
    | none => simp
    | some y =>
      cases xs.mapM f with
      | none => simp
      | some ys => simp

namespace RowValues
variable {V : Type} {text : V → List Char}

def joined (text : V → List Char) : List (Option V) → List Char
  | [] => []
  | [v] => fieldString text v
  | v :: w :: vs => fieldString text v ++ ',' :: joined text (w :: vs)

theorem joined_concat (vs : List (Option V)) (v : Option V) :
    joined text (vs ++ [v]) =
      vs.flatMap (fun w => fieldString text w ++ [',']) ++ fieldString text v := by
  induction vs with
  | nil => rfl
  | cons w vs ih =>
    have hcons : joined text (w :: (vs ++ [v])) =
        fieldString text w ++ ',' :: joined text (vs ++ [v]) := by
      cases vs with
      | nil => rfl
      | cons x vs => rfl
    rw [cons_append, hcons, ih]
    simp

/-- What is written are the fields of the projected row. A table of one column, whose rows
are written as they are, is asked for that column once. -/
theorem toStringSingle_project (text : V → List Char) {row : RowValues V} {indices : List ℕ}
    (hne : indices ≠ [])
    (hlt : ∀ i ∈ indices, i < row.values.length)
    (hsingle : row.values.length = 1 → indices.length = 1) :
    row.toStringSingle text indices = some (joined text (row.project indices).values) := by
  have hget : ∀ i ∈ indices, row.values[i]? = some (row.values[i]?.join) := by
    intro i hi
    rw [List.getElem?_eq_getElem (hlt i hi)]
    rfl
  unfold toStringSingle
  split_ifs with hone
  · obtain ⟨i, hi⟩ := length_eq_one_iff.mp (hsingle hone)
    have hzero : i = 0 := by
      have := hlt i (by simp [hi])
      omega
    have hfirst := hget 0 (by simp [hi, hzero])
    rw [hi, hzero, hfirst]
    rfl
  · have hsplit := dropLast_append_getLast hne
    have hinit : (indices.dropLast.mapM fun i => row.values[i]?.map (fieldString text)) =
        some (indices.dropLast.map fun i => fieldString text row.values[i]?.join) := by
      rw [mapM_eq_some_iff, forall₂_map_right_iff, forall₂_same]
      intro i hi
      rw [hget i (dropLast_subset _ hi)]
      rfl
    have hlast := hget _ (getLast_mem hne)
    rw [hinit, List.getLast?_eq_getLast_of_ne_nil hne]
    change (row.values[indices.getLast hne]?.bind fun v => _) = _
    rw [hlast]
    unfold project
    conv_rhs => rw [← hsplit, map_append, map_singleton, joined_concat]
    rw [flatMap_map, flatMap_map]
    rfl

theorem project_range (row : RowValues V) : row.project (List.range row.values.length) = row := by
  have hvalues : (List.range row.values.length).map (fun i => row.values[i]?.join) = row.values := by
    apply ext_getElem
    · simp
    · intro i h h'
      simp [h']
  unfold project
  rw [hvalues]

end RowValues

section RoundTrip
variable {T V X : Type} [DecidableEq T] [DecidableEq V] [DecidableEq X]
  {source target : List (ColumnDefinition T V X)} {indices : List ℕ}

structure Rebuilt (strftime : String → V) (target source : List (ColumnDefinition T V X))
    (row rebuilt : RowValues V) : Prop where
  repeatCount : rebuilt.repeatCount = row.repeatCount
  size : rebuilt.values.length = source.length
  kept : ∀ (i : ℕ) col, source[i]? = some col → col ∈ target → columnIdx source col.name = some i →
    rebuilt.values[i]? = row.values[i]?
  null : ∀ (i : ℕ) col, source[i]? = some col → col ∉ target → col.default = none →
    rebuilt.values[i]? = some none
  default : ∀ (i : ℕ) col d, source[i]? = some col → col ∉ target → col.default = some d →
    rebuilt.values[i]? = evaluateDefault strftime d.expr

variable {col : ColumnDefinition T V X}

theorem columnTranslation_mem (h : col ∈ target) :
    ∃ j, target[j]? = some col ∧ columnTranslation target col = some (.sourceIdx j) := by
  have hsome : (target.idxOf? col).isSome = true := by
    rw [isSome_idxOf?]
    exact h
  obtain ⟨j, hj⟩ := Option.isSome_iff_exists.mp hsome
  obtain ⟨hlt, hget, _⟩ := List.idxOf?_eq_some_iff.mp hj
  refine ⟨j, List.getElem?_eq_some_iff.mpr ⟨hlt, hget⟩, ?_⟩
  unfold columnTranslation
  rw [hj]

theorem columnTranslation_not_mem (h : col ∉ target) :
    columnTranslation target col =
      match col.default with
      | some d => some (.default d.expr)
      | none => if col.notNull.isNone then some .null else none := by
  unfold columnTranslation
  rw [List.idxOf?_eq_none_iff.mpr h]

theorem getElem_project {row : RowValues V}
    (hindices : List.Forall₂ (fun col idx => columnIdx source col.name = some idx) target indices)
    (hrow : row.values.length = source.length) {j : ℕ}
    (hj : target[j]? = some col) :
    ∃ i, columnIdx source col.name = some i ∧
      (row.project indices).values[j]? = row.values[i]? ∧ i < row.values.length := by
  obtain ⟨hlt, hget⟩ := List.getElem?_eq_some_iff.mp hj
  have hlt' : j < indices.length := hindices.length_eq ▸ hlt
  have hidx : columnIdx source target[j].name = some indices[j] :=
    List.Forall₂.get hindices hlt hlt'
  rw [hget] at hidx
  have hbound : indices[j] < row.values.length := hrow ▸ columnIdx_lt hidx
  refine ⟨indices[j], hidx, ?_, hbound⟩
  unfold RowValues.project
  rw [List.getElem?_map, List.getElem?_eq_getElem hlt', List.getElem?_eq_getElem hbound]
  simp [List.getElem?_eq_getElem hbound]

theorem isSome_value_iff (strftime : String → V) {row : RowValues V}
    (hindices : List.Forall₂ (fun col idx => columnIdx source col.name = some idx) target indices)
    (hrow : row.values.length = source.length)
    {translation : ColumnTranslation V X} (h : columnTranslation target col = some translation) :
    (translation.value strftime (row.project indices)).isSome = true ↔
      (col ∉ target → ∀ d, col.default = some d →
        (evaluateDefault strftime d.expr).isSome = true) := by
  by_cases hmem : col ∈ target
  · obtain ⟨j, hj, htranslation⟩ := columnTranslation_mem hmem
    rw [htranslation] at h
    cases h
    obtain ⟨i, _, hvalue, hlt⟩ := getElem_project hindices hrow hj
    have hsome : ((row.project indices).values[j]?).isSome = true := by
      rw [hvalue, List.getElem?_eq_getElem hlt]
      rfl
    exact ⟨fun _ hno => absurd hmem hno, fun _ => hsome⟩
  · rw [columnTranslation_not_mem hmem] at h
    cases hdefault : col.default with
    | some d =>
      rw [hdefault] at h
      cases h
      constructor
      · intro hvalue _ d' hd
        cases hd
        exact hvalue
      · exact fun hvalue => hvalue hmem d rfl
    | none =>
      rw [hdefault] at h
      dsimp only at h
      split_ifs at h
      cases h
      constructor
      · intro _ _ d hd
        cases hd
      · exact fun _ => rfl

theorem getElem_translate {strftime : String → V} {row rebuilt : RowValues V}
    {rowConstructor : List (ColumnTranslation V X)}
    (hconstructor : translateFromSourceSchema target source = some rowConstructor)
    (h : ColumnTranslation.translate strftime rowConstructor row = some rebuilt) :
    rebuilt.repeatCount = row.repeatCount ∧ rebuilt.values.length = source.length ∧
      ∀ (i : ℕ) col, source[i]? = some col → ∃ translation,
        columnTranslation target col = some translation ∧
          rebuilt.values[i]? = translation.value strftime row := by
  obtain ⟨values, hvalues, hrebuilt⟩ := Option.map_eq_some_iff.mp h
  have hcolumns := mapM_eq_some_iff.mp hconstructor
  have hcells := mapM_eq_some_iff.mp hvalues
  have hlength := hcolumns.length_eq
  have hlength' := hcells.length_eq
  rw [← hrebuilt]
  refine ⟨rfl, (hlength.trans hlength').symm, ?_⟩
  intro i col hcol
  obtain ⟨hlt, hget⟩ := List.getElem?_eq_some_iff.mp hcol
  have hlt' : i < rowConstructor.length := hlength ▸ hlt
  have hlt'' : i < values.length := hlength' ▸ hlt'
  have htranslation := hcolumns.get hlt hlt'
  have hvalue := hcells.get hlt' hlt''
  change columnTranslation target source[i] = _ at htranslation
  rw [hget] at htranslation
  refine ⟨rowConstructor[i], htranslation, ?_⟩
  rw [List.getElem?_eq_getElem hlt'']
  exact hvalue.symm

theorem forall_mem_iff {α β : Type} {R : α → β → Prop} {p : α → Prop} {q : β → Prop}
    {xs : List α} {ys : List β} (h : List.Forall₂ R xs ys) (hpq : ∀ x y, R x y → (q y ↔ p x)) :
    (∀ y ∈ ys, q y) ↔ ∀ x ∈ xs, p x := by
  induction h with
  | nil => exact ⟨fun _ x hx => absurd hx not_mem_nil, fun _ y hy => absurd hy not_mem_nil⟩
  | cons hxy _ ih => rw [forall_mem_cons, forall_mem_cons, hpq _ _ hxy, ih]

theorem toStringSingle_accepted (text : V → List Char)
    (haccept : buildCSVSchemaTransform source (some target) = .ok indices)
    (hne : target ≠ []) (hsingle : source.length = 1 → target.length = 1)
    (row : RowValues V) (hrow : row.values.length = source.length) :
    row.toStringSingle text indices =
      some (RowValues.joined text (row.project indices).values) := by
  obtain ⟨_, hindices⟩ := of_accepted haccept
  have hlength : target.length = indices.length := hindices.length_eq
  apply RowValues.toStringSingle_project
  · intro hnil
    rw [hnil] at hlength
    exact hne (length_eq_zero_iff.mp hlength)
  · intro i hi
    obtain ⟨j, hj, hget⟩ := getElem_of_mem hi
    have hidx := List.Forall₂.get hindices (hlength.symm ▸ hj) hj
    rw [hrow, ← hget]
    exact columnIdx_lt hidx
  · exact fun h => hlength ▸ hsingle (hrow ▸ h)

/-- A row written with the columns of an accepted schema is the line of the client's row, and
this row is rebuilt: the columns that the client defines as the table does keep their values,
the others are `NULL` or their default. It fails only where a default is none. -/
theorem schema_round_trip (text : V → List Char) (strftime : String → V)
    (haccept : buildCSVSchemaTransform source (some target) = .ok indices)
    (hne : target ≠ []) (hsingle : source.length = 1 → target.length = 1)
    (row : RowValues V) (hrow : row.values.length = source.length) :
    (∃ line, row.toKVString text indices = some line ∧
      (row.project indices).toKVString text (List.range target.length) = some line) ∧
    (row.project indices).values.length = target.length ∧
    ∃ rowConstructor, translateFromSourceSchema target source = some rowConstructor ∧
      ((ColumnTranslation.translate strftime rowConstructor (row.project indices)).isSome = true ↔
        ∀ col ∈ source, col ∉ target → ∀ d, col.default = some d →
          (evaluateDefault strftime d.expr).isSome = true) ∧
      ∀ rebuilt,
        ColumnTranslation.translate strftime rowConstructor (row.project indices) = some rebuilt →
          Rebuilt strftime target source row rebuilt := by
  obtain ⟨hrequired, hindices⟩ := of_accepted haccept
  have hwritten := toStringSingle_accepted text haccept hne hsingle row hrow
  have hsize : (row.project indices).values.length = target.length := by
    unfold RowValues.project
    rw [length_map, hindices.length_eq]
  refine ⟨?_, hsize, ?_⟩
  · have hwhole := (row.project indices).project_range
    rw [hsize] at hwhole
    have hrange : List.range target.length ≠ [] := by
      rw [ne_eq, range_eq_nil, length_eq_zero_iff]
      exact hne
    have hread := RowValues.toStringSingle_project text hrange
      (fun i hi => hsize ▸ mem_range.mp hi) fun h => (length_range.trans hsize.symm).trans h
    rw [hwhole] at hread
    unfold RowValues.toKVString
    rw [hwritten, hread]
    exact ⟨_, rfl, rfl⟩
  · have htranslates : ∀ col ∈ source, (columnTranslation target col).isSome = true := by
      intro col hcol
      by_cases hmem : col ∈ target
      · obtain ⟨j, _, htranslation⟩ := columnTranslation_mem hmem
        rw [htranslation]
        rfl
      · rw [columnTranslation_not_mem hmem]
        cases hdefault : col.default with
        | some d => rfl
        | none =>
          have hnull : col.notNull.isNone = true := by
            rw [Option.isNone_iff_eq_none, ← Option.not_isSome_iff_eq_none]
            exact fun hnotNull => hmem (hrequired col hcol hnotNull hdefault)
          dsimp only
          rw [if_pos hnull]
          rfl
    obtain ⟨rowConstructor, hconstructor⟩ := Option.isSome_iff_exists.mp (isSome_mapM.mpr htranslates)
    refine ⟨rowConstructor, hconstructor, ?_, ?_⟩
    · have hcolumns := mapM_eq_some_iff.mp hconstructor
      unfold ColumnTranslation.translate
      rw [Option.isSome_map, isSome_mapM]
      exact forall_mem_iff hcolumns fun col translation htranslation =>
        isSome_value_iff strftime hindices hrow htranslation
    · intro rebuilt hrebuilt
      obtain ⟨hrepeat, hlength', hvalues⟩ := getElem_translate hconstructor hrebuilt
      constructor
      · exact hrepeat
      · exact hlength'
      · intro i col hcol hmem hfirst
        obtain ⟨translation, htranslation, hvalue⟩ := hvalues i col hcol
        obtain ⟨j, hj, hidx⟩ := columnTranslation_mem hmem
        obtain ⟨i', hi', hcell, _⟩ := getElem_project hindices hrow hj
        rw [hidx] at htranslation
        cases htranslation
        rw [hfirst] at hi'
        cases hi'
        rw [hvalue]
        exact hcell
      · intro i col hcol hmem hnone
        obtain ⟨translation, htranslation, hvalue⟩ := hvalues i col hcol
        rw [columnTranslation_not_mem hmem, hnone] at htranslation
        dsimp only at htranslation
        split_ifs at htranslation
        cases htranslation
        exact hvalue
      · intro i col d hcol hmem hdefault
        obtain ⟨translation, htranslation, hvalue⟩ := hvalues i col hcol
        rw [columnTranslation_not_mem hmem, hdefault] at htranslation
        cases htranslation
        exact hvalue

end RoundTrip

section Csv
open SqlCsv (ColumnType)
variable {X : Type} [DecidableEq X]

theorem joined_csv (vs : List (Option CValue)) :
    RowValues.joined SqlCsv.toStringWithFormat vs = SqlCsv.joined vs := by
  have hfield : ∀ v : Option CValue,
      RowValues.fieldString SqlCsv.toStringWithFormat v = SqlCsv.fieldString v := by
    intro v
    cases v with
    | none => rfl
    | some v => rfl
  induction vs with
  | nil => rfl
  | cons v vs ih =>
    cases vs with
    | nil => exact hfield v
    | cons w vs =>
      rw [RowValues.joined, SqlCsv.joined, hfield, ih]

theorem accepted_row_read {F : Type} (toFloatOption : List Char → Option F)
    {source target : List (ColumnDefinition ColumnType CValue X)} {indices : List ℕ}
    (haccept : buildCSVSchemaTransform source (some target) = .ok indices)
    (hne : target ≠ []) (hsingle : source.length = 1 → target.length = 1)
    (row : RowValues CValue) (hrow : row.values.length = source.length)
    (hfits : List.Forall₂ SqlCsv.FitsColumn
      (target.map fun col => ⟨col.ty, col.notNull.isSome⟩) (row.project indices).values)
    (hbasic : ∀ v ∈ (row.project indices).values, SqlCsv.BasicValue v) :
    ∃ line, row.toStringSingle SqlCsv.toStringWithFormat indices = some line ∧
      ((SqlCsv.lex false [] line).bind fun fields =>
        SqlCsv.computeInsertRow (target.map fun col => ⟨col.ty, col.notNull.isSome⟩)
          (fields.map (SqlCsv.parseCSVValue toFloatOption))) =
        some (row.project indices).values := by
  refine ⟨_, toStringSingle_accepted _ haccept hne hsingle row hrow, ?_⟩
  rw [joined_csv]
  have hlength := hfits.length_eq
  rw [length_map] at hlength
  cases hvalues : (row.project indices).values with
  | nil =>
    rw [hvalues] at hlength
    exact absurd (length_eq_zero_iff.mp hlength) hne
  | cons v vs =>
    rw [hvalues] at hfits hbasic
    rw [SqlCsv.lex_joined v vs hbasic, Option.bind_some]
    exact SqlCsv.computeInsertRow_tokens toFloatOption _ _ hfits

def sampleTable : List (ColumnDefinition ColumnType CValue Empty) :=
  [{ name := "a", ty := .integer, notNull := some {} },
    { name := "b", ty := .integer, default := some { expr := .value (.int 7) } },
    { name := "c", ty := .text }]

def sampleClient : List (ColumnDefinition ColumnType CValue Empty) :=
  [{ name := "c", ty := .text }, { name := "a", ty := .integer, notNull := some {} }]

theorem accepted_row_read_client :
    ∃ line, (⟨[some (.int 1), some (.int 5), some (.string "x")], 1⟩ :
        RowValues CValue).toStringSingle SqlCsv.toStringWithFormat [2, 0] = some line ∧
      ((SqlCsv.lex false [] line).bind fun fields =>
        SqlCsv.computeInsertRow (sampleClient.map fun col => ⟨col.ty, col.notNull.isSome⟩)
          (fields.map (SqlCsv.parseCSVValue fun _ => (none : Option ℕ)))) =
        some [some (.string "x"), some (.int 1)] := by
  have haccept : buildCSVSchemaTransform sampleTable (some sampleClient) = .ok [2, 0] := by
    decide +kernel
  exact accepted_row_read (fun _ => none) haccept (cons_ne_nil _ _) (fun h => absurd h (by decide))
    ⟨[some (.int 1), some (.int 5), some (.string "x")], 1⟩ rfl
    (.cons rfl (.cons rfl .nil)) (by simp [RowValues.project, SqlCsv.BasicValue, SqlCsv.Basic])

theorem schema_round_trip_sample :
    ∃ rowConstructor, translateFromSourceSchema sampleClient sampleTable = some rowConstructor ∧
      ∀ rebuilt, ColumnTranslation.translate (fun _ => .string "") rowConstructor
          ⟨[some (.string "x"), some (.int 1)], 1⟩ = some rebuilt →
        Rebuilt (fun _ => .string "") sampleClient sampleTable
          ⟨[some (.int 1), some (.int 5), some (.string "x")], 1⟩ rebuilt := by
  have haccept : buildCSVSchemaTransform sampleTable (some sampleClient) = .ok [2, 0] := by
    decide +kernel
  obtain ⟨_, _, rowConstructor, hconstructor, _, hrebuilt⟩ :=
    schema_round_trip SqlCsv.toStringWithFormat (fun _ => .string "") haccept
      (cons_ne_nil _ _) (fun h => absurd h (by decide))
      ⟨[some (.int 1), some (.int 5), some (.string "x")], 1⟩ rfl
  exact ⟨rowConstructor, hconstructor, hrebuilt⟩

/-- A client that leaves out the default of a column: the column is written, but not read, and
the row (1, 5, x) comes back as (1, 7, x). A default that is no literal cannot be read at
all. -/
theorem columns_lost :
    let client : List (ColumnDefinition ColumnType CValue Empty) :=
      [{ name := "a", ty := .integer, notNull := some {} }, { name := "b", ty := .integer },
        { name := "c", ty := .text }]
    let row : RowValues CValue := ⟨[some (.int 1), some (.int 5), some (.string "x")], 1⟩
    let computed : List (ColumnDefinition ColumnType CValue String) :=
      [{ name := "a", ty := .integer },
        { name := "b", ty := .integer, default := some { expr := .other "1 + 2" } }]
    (buildCSVSchemaTransform sampleTable (some client) = .ok [0, 1, 2] ∧
      row.toKVString SqlCsv.toStringWithFormat [0, 1, 2] = some "1\t1,5,\"x\"\n".toList ∧
      ((translateFromSourceSchema client sampleTable).bind fun rowConstructor =>
        ColumnTranslation.translate (fun _ => .string "") rowConstructor row) =
          some ⟨[some (.int 1), some (.int 7), some (.string "x")], 1⟩) ∧
    buildCSVSchemaTransform computed (some (computed.take 1)) = .ok [0] ∧
      ((translateFromSourceSchema (computed.take 1) computed).bind fun rowConstructor =>
        ColumnTranslation.translate (fun _ => CValue.string "") rowConstructor
          ⟨[some (.int 1)], 1⟩) = none := by
  decide +kernel

end Csv
end SkipPlatform.SqlSchema
