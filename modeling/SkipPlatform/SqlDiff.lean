import SkipPlatform.SqlValue

set_option autoImplicit false

/-! Diffs of a table that come from another replica. A table has its rows by the source that wrote
them, with the tick of the write; a table with a primary key is written so that the last writer
wins, another one row by row. -/
namespace SkipPlatform

abbrev Row (V : Type) := List (Option V)

/-- A row of a table by its source. A row that was removed is there with no repetition. -/
structure RowEntry (V : Type) where
  values : Row V
  source : ℕ
  writer : ℕ
  tick : ℕ
  repeatCount : ℕ
deriving DecidableEq

namespace RowEntry

variable {V : Type}

def path (e : RowEntry V) : Row V × ℕ := (e.values, e.source)

def live (e : RowEntry V) : Bool := 0 < e.repeatCount

end RowEntry

structure TableDir (V : Type) where
  entries : List (RowEntry V)
  nodup : (entries.map RowEntry.path).Nodup

namespace TableDir

variable {V : Type} [DecidableEq V]

def live (t : TableDir V) : List (RowEntry V) := t.entries.filter RowEntry.live

def repeatAt (t : TableDir V) (values : Row V) (source : ℕ) : ℕ :=
  ((t.entries.find? (·.path = (values, source))).map (·.repeatCount)).getD 0

def count (t : TableDir V) (values : Row V) : ℕ :=
  ((t.entries.filter (·.values = values)).map (·.repeatCount)).sum

theorem nodup_replace {entries : List (RowEntry V)} (h : (entries.map RowEntry.path).Nodup)
    (e : RowEntry V) : ((entries.filter (·.path ≠ e.path) ++ [e]).map RowEntry.path).Nodup := by
  rw [List.map_append]
  refine List.nodup_append.mpr ⟨h.sublist (List.filter_sublist.map _),
    List.nodup_singleton _, ?_⟩
  intro a ha b hb
  obtain ⟨x, hx, rfl⟩ := List.mem_map.mp ha
  rw [List.mem_singleton.mp hb]
  simpa using (List.mem_filter.mp hx).2

/-- A write of the same row as before leaves the tick of the old one. -/
def writeEntry (t : TableDir V) (tick source writer : ℕ) (values : Row V) (repeatCount : ℕ) :
    TableDir V :=
  if t.repeatAt values source = repeatCount then t
  else
    { entries := t.entries.filter (·.path ≠ (values, source)) ++
        [⟨values, source, writer, tick, repeatCount⟩]
      nodup := nodup_replace t.nodup ⟨values, source, writer, tick, repeatCount⟩ }

end TableDir

structure RowKey (V : Type) where
  values : Row V
  kinds : List ℕ

def compareKinds : List ℕ → List ℕ → Ordering
  | [], [] => .eq
  | [], _ :: _ => .lt
  | _ :: _, [] => .gt
  | a :: as, b :: bs => (compare a b).then (compareKinds as bs)

section Compare

variable {V : Type} [LinearOrder V]

/-- The columns of `kinds`, all of them in ascending order. -/
def compareRows (kinds : List ℕ) (x y : Row V) : Ordering :=
  match kinds with
  | [] => .eq
  | idx :: kinds =>
    if idx ≥ x.length ∧ idx ≥ y.length then .eq
    else if idx ≥ x.length then .lt
    else if idx ≥ y.length then .gt
    else
      match x.getD idx none, y.getD idx none with
      | none, none => compareRows kinds x y
      | none, some _ => .lt
      | some _, none => .gt
      | some v1, some v2 => (compare v1 v2).then (compareRows kinds x y)

def RowKey.compare (x y : RowKey V) : Ordering :=
  (compareKinds x.kinds y.kinds).then (compareRows x.kinds x.values y.values)

end Compare

/-- An index over the columns `fields`, of which the first `size` were asked for. -/
structure IndexDescr where
  fields : List ℕ
  size : ℕ
  unique : Bool
deriving DecidableEq

/-- `indexes` are the indexes of the table in the order of their names. All of them have all
columns as fields. -/
structure TableSchema where
  columns : ℕ
  primary : Option ℕ
  indexes : List IndexDescr

def createIndex (columns : ℕ) (cols : List ℕ) (unique : Bool) : IndexDescr where
  fields := cols ++ (List.range columns).filter (· ∉ cols)
  size := cols.length
  unique := unique

namespace TableSchema

variable {V : Type}

def kinds (schema : TableSchema) : List ℕ := List.range schema.columns

/-- The key of a row in the directory of an index. An index that does not reorder the columns is
the table itself. -/
def indexKey (schema : TableSchema) (index : IndexDescr) (values : Row V) : RowKey V :=
  if index.fields = schema.kinds then ⟨values, schema.kinds⟩
  else ⟨index.fields.map fun field => values.getD field none, schema.kinds⟩

def project (index : IndexDescr) (values : Row V) : Row V :=
  (index.fields.take index.size).map fun field => values.getD field none

variable [DecidableEq V]

def conflict (index : IndexDescr) (t : TableDir V) : Bool :=
  index.unique && (t.live.any (·.repeatCount ≠ 1) ||
    t.live.any fun e => t.live.any fun e' =>
      e.path ≠ e'.path && project index e.values = project index e'.values)

def hasConflict (schema : TableSchema) (t : TableDir V) : Bool :=
  schema.indexes.any (conflict · t)

end TableSchema

structure Diff (V : Type) where
  writer : ℕ
  checkpoint : Option ℕ
  snapshot : Option ℕ
  rows : List (RowValues V)

structure ReplicaTable (V : Type) where
  tick : ℕ
  dir : TableDir V
  watermark : Option ℕ

section Strategies

variable {V : Type} [LinearOrder V]

def isOld (snapshot writer : ℕ) (e : RowEntry V) : Bool := e.tick < snapshot || e.source = writer

def removeOld (snapshot writer tick : ℕ) (t : TableDir V) (values : Row V) : TableDir V :=
  ((t.live.filter fun e => e.values = values && isOld snapshot writer e).map (·.source)).foldl
    (fun t source => t.writeEntry tick source writer values 0) t

def assignRow (snapshot writer tick : ℕ) (t : TableDir V) (row : RowValues V) : TableDir V :=
  let t := removeOld snapshot writer tick t row.values
  if 0 < row.repeatCount then t.writeEntry tick writer writer row.values row.repeatCount else t

def rowLt (kinds : List ℕ) (values : Row V) (row : RowValues V) : Bool :=
  match compareRows kinds values row.values with
  | .lt => true
  | .eq => 1 < row.repeatCount
  | .gt => false

/-- The walk over an index from `start` on, which ends at the first key that has another value in
its first column. -/
def isVisited (schema : TableSchema) (index : IndexDescr) (t : TableDir V) (start : RowKey V)
    (primaryKey : Option V) (e : RowEntry V) : Bool :=
  (start.compare (schema.indexKey index e.values) ≠ .gt) &&
  t.live.all fun e' =>
    (start.compare (schema.indexKey index e'.values) = .gt) ||
    ((schema.indexKey index e'.values).compare (schema.indexKey index e.values) = .gt) ||
    ((schema.indexKey index e'.values).values.getD 0 none = primaryKey)

/-- The entries that a row with a primary key meets. The table is read with the keys of the
index. -/
def lwwFound (schema : TableSchema) (primaryIdx : ℕ) (index : IndexDescr) (t : TableDir V)
    (row : RowValues V) : List (RowEntry V) :=
  let primaryKey := row.values.getD primaryIdx none
  let start : RowKey V := ⟨[primaryKey], index.fields⟩
  let keys := (t.live.filter (isVisited schema index t start primaryKey)).map fun e =>
    schema.indexKey index e.values
  t.live.filter fun e => keys.any fun key => key.values = e.values

def isLoser (kinds : List ℕ) (snapshot writer : ℕ) (row : RowValues V) (e : RowEntry V) : Bool :=
  isOld snapshot writer e || rowLt kinds e.values row

def lwwRow (schema : TableSchema) (primaryIdx : ℕ) (index : IndexDescr)
    (snapshot writer tick : ℕ) (t : TableDir V) (row : RowValues V) : TableDir V :=
  if row.repeatCount < 1 then removeOld snapshot writer tick t row.values
  else
    let found := lwwFound schema primaryIdx index t row
    if found.all (isLoser schema.kinds snapshot writer row) then
      (found.foldl (fun t e => t.writeEntry tick e.source writer e.values 0) t).writeEntry tick
        writer writer row.values row.repeatCount
    else t

def applyRow (schema : TableSchema) (snapshot writer tick : ℕ) (t : TableDir V)
    (row : RowValues V) : Except String (TableDir V) :=
  match schema.primary with
  | none => .ok (assignRow snapshot writer tick t row)
  | some primaryIdx =>
    match schema.indexes with
    | [] => .error "invariant"
    | index :: _ => .ok (lwwRow schema primaryIdx index snapshot writer tick t row)

def applyRows (schema : TableSchema) (snapshot writer : ℕ) :
    ℕ → TableDir V → List (RowValues V) → Except String (ℕ × TableDir V)
  | tick, t, [] => .ok (tick, t)
  | tick, t, row :: rows => do
    let t ← applyRow schema snapshot writer tick t row
    if schema.hasConflict t then .error "UNIQUE constraint failed"
    else applyRows schema snapshot writer (tick + 1) t rows

def shouldShortCircuitUpdate (checkpoint watermark : Option ℕ) : Bool :=
  match checkpoint, watermark with
  | some x, some y => x ≤ y
  | _, _ => false

def checkpointAndAck (checkpoint : Option ℕ) (s : ReplicaTable V) : ReplicaTable V :=
  match checkpoint with
  | none => s
  | some val =>
    if 0 < val then { s with watermark := some (max val (s.watermark.getD 0)) } else s

/-- A diff is refused as a whole when the user may not write one of its rows, or when a row breaks
a unique index. -/
def applyDiffStrategy (schema : TableSchema) (privacyIsOk : TableDir V → Bool) (diff : Diff V)
    (s : ReplicaTable V) : Except String (ReplicaTable V) :=
  if shouldShortCircuitUpdate diff.checkpoint s.watermark then
    .ok (checkpointAndAck diff.checkpoint s)
  else if !privacyIsOk s.dir then .error "PrivacyWriteViolation"
  else do
    let (tick, t) ← applyRows schema (diff.snapshot.getD 0) diff.writer s.tick s.dir diff.rows
    return checkpointAndAck diff.checkpoint { s with tick := tick, dir := t }

end Strategies
end SkipPlatform
