import SkipPlatform.SqlDiff
import Mathlib.Data.Nat.Digits.Defs
import Mathlib.Logic.Function.Basic

set_option autoImplicit false

/-! The statements of a transaction. A statement that reads what it writes works on a copy of the
table, in a directory with a version, and the copies are linked by sinks. The commit takes the
latest version of each table. -/
namespace SkipPlatform.SqlTransaction
open List

abbrev Name := List Char

/-- Tables and indexes have their versions in one map, by their names. -/
inductive Descr where
  | table (name : Name)
  | index (name : Name)
deriving DecidableEq

namespace Descr

def name : Descr → Name
  | table name => name
  | index name => name

end Descr

inductive DirName where
  | root (descr : Descr)
  | next (descr : Descr) (version : ℕ)
deriving DecidableEq

namespace DirName

def nextText : List Char := ['/', 'n', 'e', 'x', 't', '/']

def digitChar (digit : ℕ) : Char := Char.ofNat (digit + 48)

def versionText (version : ℕ) : List Char := (Nat.digits 10 version).reverse.map digitChar

def text : DirName → List Char
  | root descr => '/' :: descr.name ++ ['/']
  | next descr version => nextText ++ descr.name ++ ['/'] ++ versionText version ++ ['/']

end DirName

def toInt (chars : List Char) : ℕ := chars.foldl (fun n c => n * 10 + (c.toNat - 48)) 0

/-- The directory of the table, and its version, from the text of a directory name. -/
def makeInputDirName : List Char → List Char × ℕ
  | '/' :: 'n' :: 'e' :: 'x' :: 't' :: '/' :: rest =>
    ('/' :: rest.takeWhile (· ≠ '/') ++ ['/'],
      toInt (((rest.dropWhile (· ≠ '/')).drop 1).takeWhile (· ≠ '/')))
  | dirName => (dirName, 0)

structure TableMap where
  version : ℕ
  map : Descr → Option (ℕ × DirName)

/-- The context of a transaction. `sinks` are the copies that were made, from the old directory
to the new one. -/
structure Delta (V : Type) where
  dirs : DirName → List (Row V)
  sinks : List (DirName × DirName)
  tableMap : Option TableMap
  sym : ℕ

/-- The tables with their unique indexes, and the indexes with their tables. -/
structure Catalog (V : Type) where
  tables : List Name
  indexes : List Name
  tableOf : Name → Name
  unique : Name → List (Row V) → Bool

instance lawfulRow {V : Type} [DecidableEq V] : LawfulBEq (Row V) := inferInstance

abbrev Database (V : Type) := Name → List (Row V)

/-- The rows that are removed from a directory, and those that are added. -/
structure Change (V : Type) where
  removed : List (Row V)
  added : List (Row V)

section Directories

variable {V : Type} [DecidableEq V]

def Change.apply (c : Change V) (rows : List (Row V)) : List (Row V) :=
  rows.diff c.removed ++ c.added

def follows (cat : Catalog V) : DirName → DirName
  | .root (.index name) => .root (.table (cat.tableOf name))
  | dirName => dirName

/-- A sink passes on what changes in the directory that was copied. -/
def runSinks (c : Change V) (sinks : List (DirName × DirName)) (changed : List DirName)
    (dirs : DirName → List (Row V)) : DirName → List (Row V) :=
  match sinks with
  | [] => dirs
  | (old, new) :: sinks =>
    if old ∈ changed then
      runSinks c sinks (new :: changed) (Function.update dirs new (c.apply (dirs new)))
    else runSinks c sinks changed dirs

def write (d : Delta V) (dirName : DirName) (c : Change V) : Delta V :=
  { d with
    dirs := runSinks c d.sinks [dirName]
      (Function.update d.dirs dirName (c.apply (d.dirs dirName))) }

def genSym (d : Delta V) : ℕ × Delta V := (d.sym, { d with sym := d.sym + 1 })

def updateTableMap (d : Delta V) : Delta V :=
  match d.tableMap with
  | none =>
    let (_, d) := genSym d
    let (version, d) := genSym d
    { d with tableMap := some ⟨version, fun _ => none⟩ }
  | some tableMap =>
    let (version, d) := genSym d
    { d with tableMap := some { tableMap with version } }

def dirDescrCopy (cat : Catalog V) (d : Delta V) (dirName nextName : DirName) : Delta V :=
  { d with
    dirs := Function.update d.dirs nextName (d.dirs (follows cat dirName))
    sinks := d.sinks ++ [(follows cat dirName, nextName)] }

def copyLatest (cat : Catalog V) (descr : Descr) (d : Delta V) (tableMap : TableMap)
    (old : DirName) : DirName × Delta V :=
  let nextName := DirName.next descr tableMap.version
  (nextName, { dirDescrCopy cat d old nextName with
    tableMap := some { tableMap with
      map := Function.update tableMap.map descr (some (tableMap.version, nextName)) } })

/-- The directory of the current version, which is made when there is none. -/
def getLatestDescr (cat : Catalog V) (descr : Descr) (d : Delta V) : DirName × Delta V :=
  match d.tableMap with
  | none => (.root descr, d)
  | some tableMap =>
    match tableMap.map descr with
    | none => copyLatest cat descr d tableMap (.root descr)
    | some (version, old) =>
      if version = tableMap.version then (old, d) else copyLatest cat descr d tableMap old

end Directories

/-- A table that a statement reads, by an index when its conditions have one. -/
structure Source where
  name : Name
  index : Option Name

/-- The statements as they are compiled. A condition, the new values and a query are over the rows
of the tables that they read. -/
inductive Stmt (V : Type) where
  | insertValues (table : Name) (rows : List (Row V))
  | insertSelect (table : Name) (reads : List Source) (select : List (List (Row V)) → List (Row V))
  | delete (table : Name) (index : Option Name) (reads : List Source)
      (cond : List (List (Row V)) → Row V → Bool)
  | update (table : Name) (index : Option Name) (reads : List Source)
      (cond : List (List (Row V)) → Row V → Bool) (sets : List (List (Row V)) → Row V → Row V)

section Statements

variable {V : Type} [DecidableEq V] (cat : Catalog V)

def readSource (d : Delta V) (source : Source) : List (Row V) × Delta V :=
  let (dirName, d) := getLatestDescr cat (.table source.name) d
  match source.index with
  | none => (d.dirs dirName, d)
  | some index =>
    let (dirName, d) := getLatestDescr cat (.index index) d
    (d.dirs (follows cat dirName), d)

def readSources (d : Delta V) : List Source → List (List (Row V)) × Delta V
  | [] => ([], d)
  | source :: sources =>
    let (rows, d) := readSource cat d source
    let (rest, d) := readSources d sources
    (rows :: rest, d)

/-- The unique indexes are those of the table itself; its copies have none. -/
def insertValues (d : Delta V) (table : Name) (rows : List (Row V)) :
    Except String (Delta V) :=
  let (dirName, d) := getLatestDescr cat (.table table) d
  let d := write d dirName ⟨[], rows⟩
  if cat.unique table (d.dirs (.root (.table table))) then .ok d
  else .error "UNIQUE constraint failed"

def insertInto (d : Delta V) (table : Name) (rows : List (Row V)) : Delta V :=
  let (dirName, d) := getLatestDescr cat (.table table) d
  write d dirName ⟨[], rows⟩

def insertSelect (d : Delta V) (table : Name) (reads : List Source)
    (select : List (List (Row V)) → List (Row V)) : Delta V :=
  let (contents, d) := readSources cat d reads
  insertInto cat (updateTableMap d) table (select contents)

/-- The rows that are selected are removed from the next version of the table. -/
def delete (d : Delta V) (table : Name) (index : Option Name) (reads : List Source)
    (cond : List (List (Row V)) → Row V → Bool) : List (Row V) × List (List (Row V)) × Delta V :=
  let (rows, d) := readSource cat d ⟨table, index⟩
  let (contents, d) := readSources cat d reads
  let selected := rows.filter (cond contents)
  let d := updateTableMap d
  let (dirName, d) := getLatestDescr cat (.table table) d
  let d := write d dirName ⟨(d.dirs dirName).filter (· ∈ selected), []⟩
  (selected, contents, updateTableMap d)

/-- The new rows are written to a version after the one of the old rows. -/
def update (d : Delta V) (table : Name) (index : Option Name) (reads : List Source)
    (cond : List (List (Row V)) → Row V → Bool) (sets : List (List (Row V)) → Row V → Row V) :
    Delta V :=
  let (selected, contents, d) := delete cat d table index reads cond
  insertInto cat (updateTableMap d) table (selected.map (sets contents))

def Stmt.run (d : Delta V) : Stmt V → Except String (Delta V)
  | .insertValues table rows => SqlTransaction.insertValues cat d table rows
  | .insertSelect table reads select => .ok (SqlTransaction.insertSelect cat d table reads select)
  | .delete table index reads cond => .ok (SqlTransaction.delete cat d table index reads cond).2.2
  | .update table index reads cond sets =>
    .ok (SqlTransaction.update cat d table index reads cond sets)

def runStmts (d : Delta V) : List (Stmt V) → Except String (Delta V)
  | [] => .ok d
  | stmt :: stmts => do
    let d ← stmt.run cat d
    runStmts d stmts

def start (db : Database V) : Delta V where
  dirs := fun dirName =>
    match dirName with
    | .root (.table name) => db name
    | _ => []
  sinks := []
  tableMap := none
  sym := 1

def changedDirs (d : Delta V) : List DirName :=
  cat.tables.map (fun name => .root (.table name)) ++ d.sinks.map Prod.snd

/-- The last of the directories with the largest version is taken for a table. -/
def importNext (target : List Char) (dirNames : List DirName) : Option (ℕ × DirName) :=
  dirNames.foldl (fun found dirName =>
    if (makeInputDirName dirName.text).1 = target then
      match found with
      | some (iversion, _) =>
        if iversion > (makeInputDirName dirName.text).2 then found
        else some ((makeInputDirName dirName.text).2, dirName)
      | none => some ((makeInputDirName dirName.text).2, dirName)
    else found) none

theorem importNext_best {target : List Char} {dirNames : List DirName} {best : DirName}
    {version : ℕ} (hbest : makeInputDirName best.text = (target, version))
    (hmax : ∀ dirName ∈ dirNames, (makeInputDirName dirName.text).1 = target →
      (makeInputDirName dirName.text).2 ≤ version ∧
        ((makeInputDirName dirName.text).2 = version → dirName = best))
    (hmem : best ∈ dirNames) : importNext target dirNames = some (version, best) := by
  have hfold : ∀ (rest : List DirName) (found : Option (ℕ × DirName)),
      (∀ dirName ∈ rest, dirName ∈ dirNames) →
      (∀ pair, found = some pair → pair.1 ≤ version ∧ (pair.1 = version → pair.2 = best)) →
      (best ∈ rest ∨ found = some (version, best)) →
      rest.foldl (fun found dirName =>
        if (makeInputDirName dirName.text).1 = target then
          match found with
          | some (iversion, _) =>
            if iversion > (makeInputDirName dirName.text).2 then found
            else some ((makeInputDirName dirName.text).2, dirName)
          | none => some ((makeInputDirName dirName.text).2, dirName)
        else found) found = some (version, best) := by
    intro rest
    induction rest with
    | nil =>
      intro found _ _ hend
      rcases hend with hend | hend
      · exact absurd hend not_mem_nil
      · exact hend
    | cons dirName rest ih =>
      intro found hsub hfound hend
      have hrest : ∀ name ∈ rest, name ∈ dirNames := fun name hname =>
        hsub name (mem_cons_of_mem dirName hname)
      rw [foldl_cons]
      by_cases htarget : (makeInputDirName dirName.text).1 = target
      · have hle := hmax dirName (hsub dirName mem_cons_self) htarget
        rw [if_pos htarget]
        have hnew : ∀ pair, some ((makeInputDirName dirName.text).2, dirName) = some pair →
            pair.1 ≤ version ∧ (pair.1 = version → pair.2 = best) := by
          intro pair hpair
          cases hpair
          exact hle
        have hhead : best = dirName → some ((makeInputDirName dirName.text).2, dirName) =
            some (version, best) := by
          intro heq
          rw [← heq, hbest]
        cases hpair : found with
        | none =>
          refine ih _ hrest hnew ?_
          rcases hend with hend | hend
          · rcases mem_cons.mp hend with heq | hend
            · exact .inr (hhead heq)
            · exact .inl hend
          · rw [hpair] at hend
            cases hend
        | some pair =>
          have hpairs := hfound pair hpair
          simp only
          split_ifs with hgt
          · refine ih _ hrest (fun other hother => ?_) ?_
            · cases hother
              exact hpairs
            · rcases hend with hend | hend
              · rcases mem_cons.mp hend with heq | hend
                · rw [← heq, hbest] at hgt
                  omega
                · exact .inl hend
              · rw [hpair] at hend
                exact .inr hend
          · refine ih _ hrest hnew ?_
            rcases hend with hend | hend
            · rcases mem_cons.mp hend with heq | hend
              · exact .inr (hhead heq)
              · exact .inl hend
            · rw [hpair] at hend
              cases hend
              have hsame : (makeInputDirName dirName.text).2 = version := by
                have hle' := hle.1
                have hgt' : ¬version > (makeInputDirName dirName.text).2 := hgt
                omega
              exact .inr (hhead (hle.2 hsame).symm)
      · rw [if_neg htarget]
        refine ih _ hrest hfound ?_
        rcases hend with hend | hend
        · rcases mem_cons.mp hend with heq | hend
          · rw [← heq, hbest] at htarget
            exact absurd rfl htarget
          · exact .inl hend
        · exact .inr hend
  exact hfold dirNames none (fun _ h => h) (fun _ h => by cases h) (.inl hmem)

def exported (db : Database V) (d : Delta V) : Database V := fun name =>
  if name ∈ cat.tables then
    match importNext (DirName.root (.table name)).text (changedDirs cat d) with
    | some (_, dirName) => d.dirs dirName
    | none => db name
  else db name

def exportToRoot (db : Database V) (d : Delta V) : Except String (Database V) :=
  if cat.tables.all fun name => cat.unique name (exported cat db d name) then
    .ok (exported cat db d)
  else .error "UNIQUE constraint failed"

def runTransaction (db : Database V) (stmts : List (Stmt V)) : Except String (Database V) := do
  let d ← runStmts cat (start db) stmts
  exportToRoot cat db d

def runOneByOne (db : Database V) : List (Stmt V) → Except String (Database V)
  | [] => .ok db
  | stmt :: stmts => do
    let db ← runTransaction cat db [stmt]
    runOneByOne db stmts

end Statements
end SkipPlatform.SqlTransaction
