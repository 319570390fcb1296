import SkipPlatform.EagerDirMap
import SkipPlatform.SqlValue

set_option autoImplicit false

/-! Unique indexes of a table. Two maps follow an index: one has the rows by the columns of the
index, the other throws when a key of the first has more than one row. -/
namespace SkipPlatform.SqlUnique
open EagerDir
open StoreSourceMap (Source)

/-- `values` are the columns of the index with their values, `rows` the rows in conflict. -/
inductive Failure (V : Type) where
  | conflict (msg : String) (values : List (ℕ × Option V)) (rows : List (RowValues V))
  | broken

/-- `fields` has all columns, those of the index first; `size` is the number of these. Keys of an
index compare the columns in order, keys of the projection those of the index alone. -/
structure UniqueIndex (D K V : Type) where
  fields : List ℕ
  size : ℕ
  indexKey : List (Option V) → K
  projKey : List (Option V) → K
  projKey_injective : Function.Injective projKey
  indexName : D
  projName : D
  sinkName : D

variable {D K V : Type} [LinearOrder D] [StoreKey K] [DecidableEq V]

namespace UniqueIndex

def columnIndices (u : UniqueIndex D K V) : List ℕ := u.fields.take u.size

def needsReordering (u : UniqueIndex D K V) : Bool := u.fields ≠ List.range u.fields.length

def project (u : UniqueIndex D K V) (row : RowValues V) : List (Option V) :=
  u.columnIndices.map fun i => row.values.getD i none

def toArray (u : UniqueIndex D K V) (row : RowValues V) : List (ℕ × Option V) :=
  u.columnIndices.map fun i => (i, row.values.getD i none)

def indexMap (u : UniqueIndex D K V) : RowFun K (RowValues V) (Failure V) := fun _ rows =>
  match rows with
  | [] => .ok .empty
  | row :: _ => .ok (.singleton (u.indexKey (u.fields.map fun i => row.values.getD i none)) rows)

def projLoop (u : UniqueIndex D K V) (rows : List (RowValues V)) :
    SortedMap K (List (RowValues V)) → List (RowValues V) →
      Except (Failure V) (SortedMap K (List (RowValues V)))
  | result, [] => .ok result
  | result, v :: rest =>
    let k := u.projKey (u.project v)
    if v.repeatCount ≠ 1 then .error (.conflict "UNIQUE constraint failed" (u.toArray v) rows)
    else projLoop u rows (result.set k ((result.maybeGet k).getD [] ++ [v])) rest

def projMap (u : UniqueIndex D K V) : RowFun K (RowValues V) (Failure V) := fun _ rows =>
  u.projLoop rows .empty rows

def sinkMap (u : UniqueIndex D K V) : RowFun K (RowValues V) (Failure V) := fun _ rows =>
  if 1 < (rows.map RowValues.repeatCount).sum then
    .error (.conflict "UNIQUE constraint failed" ((rows.head?.map u.toArray).getD []) rows)
  else .ok .empty

end UniqueIndex

/-- The directories of a unique index. There is none for the index itself when its columns are in
the order of the table. -/
structure Check (D K V : Type) [LinearOrder D] [StoreKey K] where
  spec : UniqueIndex D K V
  index : Option (Tracked D K (RowValues V))
  proj : Tracked D K (RowValues V)
  sink : Tracked D K (RowValues V)

namespace Check

/-- The projection and the sink of one update, after the directory that they follow. -/
def updateProj (ctx : WriteContext D K) (input : Tracked D K (RowValues V)) (c : Check D K V) :
    Except (Failure V × Check D K V) (Check D K V) :=
  match mapRows c.spec.projMap .broken ctx input.dir c.proj input.dirty.keys with
  | .error e => .error (e.1, { c with proj := e.2 })
  | .ok proj =>
    match mapRows c.spec.sinkMap .broken ctx proj.dir c.sink proj.dirty.keys with
    | .error e => .error (e.1, { c with proj := proj, sink := e.2 })
    | .ok sink => .ok { c with proj := proj.clean, sink := sink.clean }

def update (ctx : WriteContext D K) (table : Tracked D K (RowValues V)) (c : Check D K V) :
    Except (Failure V × Check D K V) (Check D K V) :=
  match c.index with
  | none => c.updateProj ctx table
  | some index =>
    match mapRows c.spec.indexMap .broken ctx table.dir index table.dirty.keys with
    | .error e => .error (e.1, { c with index := some e.2 })
    | .ok index => ({ c with index := some index.clean } : Check D K V).updateProj ctx index

/-- `createIndex` on a table that may have rows already. -/
def create (tick : ℕ) (table : EagerDir D K (RowValues V)) (u : UniqueIndex D K V) :
    Except (Failure V) (Check D K V) := do
  if u.needsReordering then
    let index ← createMapped u.indexMap .broken u.indexName tick table
    let proj ← createMapped u.projMap .broken u.projName tick index.dir
    let sink ← createMapped u.sinkMap .broken u.sinkName tick proj.dir
    return ⟨u, some index, proj, sink⟩
  else
    let proj ← createMapped u.projMap .broken u.projName tick table
    let sink ← createMapped u.sinkMap .broken u.sinkName tick proj.dir
    return ⟨u, none, proj, sink⟩

end Check

structure Ctx (D K V : Type) [LinearOrder D] [StoreKey K] where
  tick : ℕ
  table : Tracked D K (RowValues V)
  checks : List (Check D K V)
  sourceOverride : Option (Source D K)

namespace Ctx

def updateChecks (ctx : WriteContext D K) (table : Tracked D K (RowValues V)) :
    List (Check D K V) → Except (Failure V × List (Check D K V)) (List (Check D K V))
  | [] => .ok []
  | c :: rest =>
    match c.update ctx table with
    | .error e => .error (e.1, e.2 :: rest)
    | .ok c' =>
      match updateChecks ctx table rest with
      | .error e => .error (e.1, c' :: e.2)
      | .ok rest' => .ok (c' :: rest')

def update (ctx : Ctx D K V) : Except (Failure V × Ctx D K V) (Ctx D K V) :=
  match updateChecks ⟨ctx.tick, ctx.sourceOverride⟩ ctx.table ctx.checks with
  | .error e => .error (e.1, { ctx with checks := e.2 })
  | .ok checks =>
    .ok { ctx with tick := ctx.tick + 1, table := ctx.table.clean, checks := checks }

abbrev Edit (D K V : Type) := K × Source D K × Source D K × List (RowValues V)

def writeEntry (ctx : Ctx D K V) (e : Edit D K V) : Ctx D K V :=
  { ctx with
    table := ctx.table.write ⟨ctx.tick, ctx.sourceOverride⟩ e.2.1 e.2.2.1 e.1 e.2.2.2 }

def writeMany (ctx : Ctx D K V) (edits : List (Edit D K V)) : Ctx D K V :=
  edits.foldl writeEntry ctx

def replaceFromSaved (_ctx saved : Ctx D K V) : Ctx D K V where
  tick := saved.tick
  table := saved.table
  checks := saved.checks
  sourceOverride := saved.sourceOverride

end Ctx

/-- `keyRow` are the values of a key of the table, `rowLt` compares them with a row. -/
structure TableKeys (K V : Type) where
  rowKey : List (Option V) → K
  keyRow : K → List (Option V)
  rowLt : List (Option V) → RowValues V → Bool

section Statements

variable (keys : TableKeys K V)

def insertTable (ctx : Ctx D K V) (rows : List (RowValues V × Source D K)) : Ctx D K V :=
  ctx.writeMany (rows.map fun r => (keys.rowKey r.1.values, r.2, r.2, [r.1]))

/-- The removal of every source of a key. `writer` is the path that is made for the key. -/
def removeKey (writer : K → Source D K) (table : EagerDir D K (RowValues V)) (key : K) :
    List (Ctx.Edit D K V) :=
  (table.unsafeGetDataIterWithoutTombs key).map fun e => (key, e.source, writer key, [])

/-- `selected` are the keys of the rows that the condition selects. -/
def deleteRows (writer : K → Source D K) (selected : List K) (ctx : Ctx D K V) : Ctx D K V :=
  selected.foldl (fun ctx key => ctx.writeMany (removeKey writer ctx.table.dir key)) ctx

/-- The new rows of an update by their keys. The rows of one key are one row with their counts
added. -/
def updatedRows (sets : RowValues V → List (Option V)) (table : EagerDir D K (RowValues V))
    (selected : List K) : SortedMap K (List (RowValues V)) :=
  selected.foldl
    (fun sink key =>
      match table.filesOf key with
      | [] => sink
      | row :: rows =>
        let repeatCount := ((row :: rows).map RowValues.repeatCount).sum
        let new : RowValues V := ⟨sets ⟨row.values, repeatCount⟩, repeatCount⟩
        let newKey := keys.rowKey new.values
        sink.set newKey ((sink.maybeGet newKey).getD [] ++ [new])) .empty

def updateRows (writer : K → Source D K) (deleteDir : D) (sets : RowValues V → List (Option V))
    (selected : List K) (ctx : Ctx D K V) : Ctx D K V :=
  let sink := updatedRows keys sets ctx.table.dir selected
  (deleteRows writer selected ctx).writeMany
    (sink.items.map fun x => (x.1, ⟨deleteDir, x.1⟩, ⟨deleteDir, x.1⟩, x.2))

inductive OnConflict (D K V : Type) where
  | abort
  | ignore
  | replace (writer : K → Source D K)
  | update (writer : K → Source D K) (deleteDir : D) (sets : RowValues V → List (Option V))
      (selected : List K)

def insertUpdate (ctx : Ctx D K V) (rows : List (RowValues V × Source D K)) :
    Except (Failure V × Ctx D K V) (Ctx D K V) :=
  (insertTable keys ctx rows).update

/-- The loop of `INSERT OR REPLACE`. It does not end when the fuel is used up. -/
def insertReplace (writer : K → Source D K) (rows : List (RowValues V × Source D K)) :
    ℕ → Ctx D K V → Except (Failure V × Ctx D K V) (Ctx D K V)
  | 0, ctx => .error (.broken, ctx)
  | fuel + 1, copy =>
    match insertUpdate keys copy rows with
    | .ok ctx => .ok ctx
    | .error (.broken, ctx) => .error (.broken, ctx)
    | .error (.conflict _ _ rowValues, ctx) =>
      let ctx := ctx.replaceFromSaved copy
      let isDifferent := rows.any fun row =>
        rowValues.any fun row2 => decide (row2.repeatCount ≠ 0) && decide (row.1 ≠ row2)
      if isDifferent then
        let edits := rowValues.flatMap fun row =>
          removeKey writer ctx.table.dir (keys.rowKey row.values)
        match (ctx.writeMany edits).update with
        | .error e => .error e
        | .ok ctx => insertReplace writer rows fuel ctx
      else .ok ctx

def insert (fuel : ℕ) (onConflict : OnConflict D K V) (rows : List (RowValues V × Source D K))
    (ctx : Ctx D K V) : Except (Failure V × Ctx D K V) (Ctx D K V) :=
  match onConflict with
  | .abort => insertUpdate keys ctx rows
  | .ignore =>
    let copy := ctx
    match insertUpdate keys ctx rows with
    | .error (.conflict _ _ _, ctx) => .ok (ctx.replaceFromSaved copy)
    | outcome => outcome
  | .replace writer => insertReplace keys writer rows fuel ctx
  | .update writer deleteDir sets selected =>
    let copy := ctx
    match insertUpdate keys ctx rows with
    | .error (.conflict _ _ _, ctx) =>
      (updateRows keys writer deleteDir sets selected (ctx.replaceFromSaved copy)).update
    | outcome => outcome

def replacedEdits (snapshot : Option ℕ) (writer : Source D K) (table : EagerDir D K (RowValues V))
    (key : K) : List (Ctx.Edit D K V) :=
  ((table.unsafeGetDataIterWithoutTombs key).filter fun e =>
    decide (e.tick < snapshot.getD 0) || decide (e.source = writer)).map fun e =>
      (key, e.source, writer, [])

def assignEdits (snapshot : Option ℕ) (writer : Source D K) (table : EagerDir D K (RowValues V))
    (row : RowValues V) : List (Ctx.Edit D K V) :=
  let key := keys.rowKey row.values
  replacedEdits snapshot writer table key ++
    if row.repeatCount > 0 then [(key, writer, writer, [row])] else []

/-- The entries of the table at the keys of the index that have the primary key of the row. -/
def lwwFound (index table : EagerDir D K (RowValues V)) (startKey : K) (primaryKey : Option V) :
    List (K × Entry (Source D K) (RowValues V)) :=
  (((index.unsafeGetFileIterNoReducer (some startKey)).filter fun x => !x.2.isEmpty).takeWhile
    fun x => decide ((keys.keyRow x.1).getD 0 none = primaryKey)).flatMap fun x =>
      (table.unsafeGetDataIterWithoutTombs x.1).map fun e => (x.1, e)

def lwwEdits (snapshot : Option ℕ) (writer : Source D K) (index table : EagerDir D K (RowValues V))
    (startKey : Option V → K) (primaryIdx : ℕ) (row : RowValues V) : List (Ctx.Edit D K V) :=
  if row.repeatCount < 1 then replacedEdits snapshot writer table (keys.rowKey row.values)
  else
    let primaryKey := row.values.getD primaryIdx none
    let found := lwwFound keys index table (startKey primaryKey) primaryKey
    if found.all fun x => decide (x.2.tick < snapshot.getD 0) || decide (x.2.source = writer) ||
        keys.rowLt (keys.keyRow x.1) row then
      (found.map fun x => (x.1, x.2.source, writer, [])) ++
        [(keys.rowKey row.values, writer, writer, [row])]
    else []

def rebuildEdits (snapshot : Option ℕ) (writer : Source D K) (table : EagerDir D K (RowValues V)) :
    List (Ctx.Edit D K V) :=
  table.unsafeGetFileIter.flatMap fun x => replacedEdits snapshot writer table x.1

/-- `index` is the directory of the index of the primary key. -/
inductive Strategy (D K V : Type) [LinearOrder D] [StoreKey K] where
  | assignRows
  | lwwRows (primaryIdx : ℕ) (index : Ctx D K V → EagerDir D K (RowValues V))
      (startKey : Option V → K)

def rowEdits (strategy : Strategy D K V) (snapshot : Option ℕ) (writer : Source D K)
    (ctx : Ctx D K V) (row : RowValues V) : List (Ctx.Edit D K V) :=
  match strategy with
  | .assignRows => assignEdits keys snapshot writer ctx.table.dir row
  | .lwwRows primaryIdx index startKey =>
    lwwEdits keys snapshot writer (index ctx) ctx.table.dir startKey primaryIdx row

def applyRows (strategy : Strategy D K V) (snapshot : Option ℕ) (writer : Source D K) :
    List (RowValues V) → Ctx D K V → Except (Failure V × Ctx D K V) (Ctx D K V)
  | [], ctx => ctx.update
  | row :: rows, ctx =>
    match (ctx.writeMany (rowEdits keys strategy snapshot writer ctx row)).update with
    | .error e => .error e
    | .ok ctx => applyRows strategy snapshot writer rows ctx

/-- A statement of a transaction, where an insertion has no `OR` clause. -/
inductive Change (D K V : Type) where
  | insert (rows : List (RowValues V × Source D K))
  | insertSelect (selectDir : D) (rows : List (K × List (RowValues V)))
  | delete (writer : K → Source D K) (selected : List K)
  | update (writer : K → Source D K) (deleteDir : D) (sets : RowValues V → List (Option V))
      (selected : List K)

def applyChange (ctx : Ctx D K V) : Change D K V → Ctx D K V
  | .insert rows => insertTable keys ctx rows
  | .insertSelect selectDir rows =>
    ctx.writeMany (rows.map fun x => (x.1, ⟨selectDir, x.1⟩, ⟨selectDir, x.1⟩, x.2))
  | .delete writer selected => deleteRows writer selected ctx
  | .update writer deleteDir sets selected => updateRows keys writer deleteDir sets selected ctx

/-- The statements of a transaction, or one alone, go to the root together. -/
inductive Stmt (D K V : Type) [LinearOrder D] [StoreKey K] where
  | insert (fuel : ℕ) (onConflict : OnConflict D K V) (rows : List (RowValues V × Source D K))
  | transaction (changes : List (Change D K V))
  | diff (strategy : Strategy D K V) (snapshot : Option ℕ) (writer : Source D K)
      (sourceOverride : Option (Source D K)) (rows : List (RowValues V))
  | rebuild (snapshot : Option ℕ) (writer : Source D K)

/-- No diff goes to the root under a source override. -/
def Stmt.Plain : Stmt D K V → Prop
  | .diff _ _ _ sourceOverride _ => sourceOverride = none
  | _ => True

def exec (ctx : Ctx D K V) : Stmt D K V → Except (Failure V × Ctx D K V) (Ctx D K V)
  | .insert fuel onConflict rows => insert keys fuel onConflict rows ctx
  | .transaction changes => (changes.foldl (applyChange keys) ctx).update
  | .diff strategy snapshot writer sourceOverride rows =>
    (applyRows keys strategy snapshot writer rows
      { ctx with sourceOverride := sourceOverride.or ctx.sourceOverride }).map
        fun ctx => { ctx with sourceOverride := none }
  | .rebuild snapshot writer =>
    (ctx.writeMany (rebuildEdits snapshot writer ctx.table.dir)).update

/-- A statement, or the purge of some directories at the end of one. -/
inductive Step (D K V : Type) [LinearOrder D] [StoreKey K] where
  | statement (stmt : Stmt D K V)
  | purge (limit : D → Option ℕ)

def Step.Plain : Step D K V → Prop
  | .statement stmt => stmt.Plain
  | .purge _ => True

def purgeDir (limit : D → Option ℕ) (t : Tracked D K (RowValues V)) :
    Option (Tracked D K (RowValues V)) :=
  match limit t.dir.dirName with
  | none => some t
  | some limit => (t.dir.purge limit).map fun d => { t with dir := d }

def purgeIndex (limit : D → Option ℕ) :
    Option (Tracked D K (RowValues V)) → Option (Option (Tracked D K (RowValues V)))
  | none => some none
  | some index => (purgeDir limit index).map some

def purgeCheck (limit : D → Option ℕ) (c : Check D K V) : Option (Check D K V) := do
  let index ← purgeIndex limit c.index
  let proj ← purgeDir limit c.proj
  let sink ← purgeDir limit c.sink
  return ⟨c.spec, index, proj, sink⟩

def purgeAll (limit : D → Option ℕ) (ctx : Ctx D K V) : Option (Ctx D K V) := do
  let table ← purgeDir limit ctx.table
  let checks ← ctx.checks.mapM (purgeCheck limit)
  return { ctx with table := table, checks := checks }

/-- The root after a step: when anything throws it is the one from before. -/
def step (root : Ctx D K V) : Step D K V → Ctx D K V
  | .statement stmt =>
    match exec keys root stmt with
    | .ok ctx => ctx
    | .error _ => root
  | .purge limit => (purgeAll limit root).getD root

def run (root : Ctx D K V) (steps : List (Step D K V)) : Ctx D K V :=
  steps.foldl (step keys) root

end Statements

/-- A table with unique indexes; a table is created before its indexes. -/
def createTable (tick : ℕ) (table : EagerDir D K (RowValues V)) (indexes : List (UniqueIndex D K V)) :
    Except (Failure V) (Ctx D K V) :=
  (indexes.mapM (Check.create tick table)).map fun checks => ⟨tick, ⟨table, .empty⟩, checks, none⟩

end SkipPlatform.SqlUnique
