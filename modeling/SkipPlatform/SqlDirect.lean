import SkipPlatform.SqlValue
import Mathlib.Data.List.Sort
import Mathlib.Tactic

set_option autoImplicit false

/-! A query over one table, printed as its rows are found, and evaluated into a directory that is
then shown. -/
namespace SkipPlatform.SqlDirect

variable {V : Type}

abbrev Values (V : Type) := List (Option V)

def intMax : ℤ := 2 ^ 63 - 1

def kMaxOutputRowsTable : ℕ := 1024

inductive OutputFormat where
  | table
  | csv
  | json
  | sql
  | js
deriving DecidableEq

inductive Answer where
  | null
  | undef
  | defined (n : ℤ)

namespace Answer

def passes : Answer → Bool
  | null => false
  | undef => true
  | defined n => n != 0

end Answer

/-- A key of a table with its files, which have the values that the key stands for. -/
structure KeyFiles (V : Type) where
  isRowKey : Bool
  files : List (RowValues V)
  same : ∀ f ∈ files, ∀ g ∈ files, f.values = g.values

structure Table (V : Type) where
  keys : List (KeyFiles V)
  bounded : ((keys.flatMap KeyFiles.files).map RowValues.repeatCount).sum ≤ intMax.toNat

/-- `select params from ... where ... limit ...`. -/
structure Query (V : Type) where
  whereVal : Values V → Answer
  params : List (Values V → Option V)
  limit : Option ℤ
  format : OutputFormat

/-- What goes to the output: a table with a mark when rows are missing, or one row after the
other. -/
inductive Output (V : Type) where
  | nothing
  | table (data : List (Values V)) (trailing : Bool)
  | items (rows : List (Values V))

namespace Output

def rows : Output V → List (Values V)
  | nothing => []
  | table data _ => data
  | items rows => rows

end Output

namespace Query

def evalRow (q : Query V) (values : Values V) (repeatCount : ℕ) : Option (RowValues V) :=
  if q.params.isEmpty then none else some ⟨q.params.map (· values), repeatCount⟩

structure TableLoop (V : Type) where
  data : List (Values V)
  i : ℤ
  trailing : Bool
  limited : Bool

def pushCopies (limit : ℤ) (values : Values V) : ℕ → TableLoop V → TableLoop V
  | 0, s => s
  | n + 1, s =>
    let s := { s with i := s.i + 1 }
    if s.i ≥ limit then { s with limited := true }
    else if s.data.length > kMaxOutputRowsTable then { s with trailing := true }
    else pushCopies limit values n { s with data := s.data ++ [values] }

def tableFiles (q : Query V) (limit : ℤ) : List (RowValues V) → TableLoop V → TableLoop V
  | [], s => s
  | file :: files, s =>
    if !(q.whereVal file.values).passes then q.tableFiles limit files s
    else
      match q.evalRow file.values file.repeatCount with
      | none => s
      | some row =>
        let s := pushCopies limit row.values row.repeatCount s
        if s.trailing || s.limited then s else q.tableFiles limit files s

def tableKeys (q : Query V) (limit : ℤ) : List (KeyFiles V) → TableLoop V → TableLoop V
  | [], s => s
  | key :: keys, s =>
    let s := q.tableFiles limit key.files s
    if s.trailing || s.limited then s else q.tableKeys limit keys s

/-- `thrown` is the exception that ends the loop. -/
structure ItemLoop (V : Type) where
  printed : List (Values V)
  i : ℤ
  thrown : Bool

def printCopies (limit : ℤ) (values : Values V) : ℕ → ItemLoop V → ItemLoop V
  | 0, s => s
  | n + 1, s =>
    let s := { s with printed := s.printed ++ [values], i := s.i + 1 }
    if s.i ≥ limit then { s with thrown := true } else printCopies limit values n s

def itemFiles (q : Query V) (limit : ℤ) : List (RowValues V) → ItemLoop V → ItemLoop V
  | [], s => s
  | file :: files, s =>
    if !(q.whereVal file.values).passes then q.itemFiles limit files s
    else
      match q.evalRow file.values file.repeatCount with
      | none => q.itemFiles limit files s
      | some row =>
        let s := printCopies limit row.values row.repeatCount s
        if s.thrown then s else q.itemFiles limit files s

def itemKeys (q : Query V) (limit : ℤ) : List (KeyFiles V) → ItemLoop V → ItemLoop V
  | [], s => s
  | key :: keys, s =>
    let s := q.itemFiles limit key.files s
    if s.thrown then s else q.itemKeys limit keys s

def direct (q : Query V) (t : Table V) : Output V :=
  let limit := q.limit.getD intMax
  match q.format with
  | .table =>
    let s := q.tableKeys limit t.keys ⟨[], 0, false, false⟩
    .table s.data s.trailing
  | _ => .items (q.itemKeys limit t.keys ⟨[], 0, false⟩).printed

def setRepeat (file : RowValues V) (repeatCount : ℤ) : Option (RowValues V) :=
  if repeatCount ≥ 0 then some { file with repeatCount := repeatCount.toNat } else none

def filterFiles (q : Query V) : List (RowValues V) → ℤ → Option (List (RowValues V) × ℤ)
  | [], toAdd => some ([], toAdd)
  | file :: files, toAdd =>
    if !(q.whereVal file.values).passes then q.filterFiles files toAdd
    else
      let fsize : ℤ := file.repeatCount
      let kept :=
        if fsize > toAdd then setRepeat file (file.repeatCount - (fsize - toAdd)) else some file
      match kept with
      | none => none
      | some file =>
        let toAdd := toAdd - (if fsize > toAdd then toAdd else fsize)
        if toAdd = 0 then some ([file], 0)
        else (q.filterFiles files toAdd).map (fun r => (file :: r.1, r.2))

def filterKeys (q : Query V) : List (KeyFiles V) → ℤ → Option (List (List (RowValues V)))
  | [], _ => some []
  | key :: keys, toAdd =>
    match q.filterFiles key.files toAdd with
    | none => none
    | some (vec, toAdd) =>
      if toAdd = 0 then some [vec] else (q.filterKeys keys toAdd).map (vec :: ·)

def syncData (q : Query V) (t : Table V) (capacity : ℤ) : Option (List (List (RowValues V))) :=
  if capacity = 0 then some [] else q.filterKeys t.keys capacity

def mapFiles (q : Query V) : List (RowValues V) → Option (RowValues V)
  | [] => none
  | entry :: files =>
    q.evalRow entry.values ((entry :: files).map RowValues.repeatCount).sum

def evalSelectTableRow (q : Query V) (values : Values V) (repeatCount : ℕ) :
    Option (RowValues V) :=
  if (q.whereVal values).passes then q.evalRow values repeatCount else none

def evalSelectTableRows (q : Query V) (key : KeyFiles V) : List (RowValues V) :=
  match key.files with
  | [] => []
  | inputRow :: inputRows =>
    if key.isRowKey then
      (q.evalSelectTableRow inputRow.values
        ((inputRow :: inputRows).map RowValues.repeatCount).sum).toList
    else (inputRow :: inputRows).filterMap fun row =>
      q.evalSelectTableRow row.values row.repeatCount

def initRepeatRow : List (RowValues V) → List (RowValues V)
  | [] => []
  | row :: rows => [⟨row.values, ((row :: rows).map RowValues.repeatCount).sum⟩]

section Normal

variable [LinearOrder V]

/-- The order of the keys of rows: column by column, NULL before the values. -/
def isLe : Values V → Values V → Bool
  | [], _ => true
  | _ :: _, [] => false
  | x :: xs, y :: ys =>
    if x = y then isLe xs ys
    else
      match x, y with
      | none, _ => true
      | some _, none => false
      | some a, some b => decide (a < b)

/-- The files of a directory whose keys are the values of its rows, in the order of the keys. -/
def files (writes : List (RowValues V)) : List (List (RowValues V)) :=
  (((writes.map RowValues.values).dedup).mergeSort isLe).map fun key =>
    writes.filter (fun row => row.values = key)

def evalSelect (q : Query V) (t : Table V) : Option (List (List (RowValues V))) :=
  match q.limit with
  | none => some ((files (t.keys.flatMap q.evalSelectTableRows)).map initRepeatRow)
  | some limit => (q.syncData t limit).map fun filtered => files (filtered.filterMap q.mapFiles)

end Normal

def showCopies (values : Values V) : ℕ → List (Values V) → Option (List (Values V))
  | 0, data => some data
  | n + 1, data =>
    if data.length > kMaxOutputRowsTable then none else showCopies values n (data ++ [values])

def showRows : List (RowValues V) → List (Values V) → Option (List (Values V))
  | [], data => some data
  | row :: rows, data => (showCopies row.values row.repeatCount data).bind (showRows rows)

def showSelect (format : OutputFormat) (dir : List (List (RowValues V))) : Output V :=
  match format with
  | .table =>
    match showRows dir.flatten [] with
    | none => .nothing
    | some data => .table data false
  | _ => .items (dir.flatten.flatMap RowValues.copies)

def normal [LinearOrder V] (q : Query V) (t : Table V) : Option (Output V) :=
  (q.evalSelect t).map (showSelect q.format)

end Query
end SkipPlatform.SqlDirect
