import SkipPlatform.SqlDiffPrivacy

set_option autoImplicit false

/-! The check whether a user may read a row, over the databases that are reached by writes that the
check of writes accepts. -/
namespace SkipPlatform.SqlPrivacyReads
open List

inductive ReadResult where
  | ok
  | notAdmin (userID groupID : String)
  | cannotRead (userID : String) (groupID : Option String)
deriving DecidableEq

def userIDIdx : ℕ := 1

def groupsAccessIdx : ℕ := 4

section Check

variable (c : PolicyContext) (user : String)

def checkReadAccess (access : AccessSolver) (groupIdxOption : Option ℕ) (row : Row CValue) :
    Except String ReadResult :=
  match groupIdxOption with
  | none => .ok .ok
  | some colNbr => do
    match ← Row.getString row colNbr with
    | none => return .cannotRead user none
    | some groupID =>
      if ← access.canRead c.privacy groupID then return .ok
      else return .cannotRead user (some groupID)

def checkUserCanReadGroup (row : Row CValue) : Except String ReadResult := do
  let access ← AccessSolver.create c.privacy user
  let ownerGroupID ← Row.stringOr row ownerIDIdx "ownerID is a non-null string in skdb_groups"
  if ← access.canRead c.privacy ownerGroupID then return .ok
  else checkReadAccess c user access (some groupsAccessIdx) row

/-- Permissions are seen by the user they are for, by everybody if they are for everybody, and by
the administrators and owners of their group. -/
def checkUserCanReadPermission (access : AccessSolver) (row groupRow : Row CValue)
    (groupID : String) : Except String ReadResult :=
  match row.getD userIDIdx none with
  | none => .ok .ok
  | some userID =>
    if userID = .string user then .ok .ok
    else do
      let adminID ← Row.stringOr groupRow adminIDIdx "Undexpected value for col adminID"
      let ownerID ← Row.stringOr groupRow ownerIDIdx "Undexpected value for col ownerID"
      if ← access.canRead c.privacy adminID then return .ok
      else if ← access.canRead c.privacy ownerID then return .ok
      else return .notAdmin user groupID

def checkUserCanReadRow (table : WrittenTable) (groupIdxOption : Option ℕ) (row : Row CValue) :
    Except String ReadResult := do
  let access ← AccessSolver.create c.privacy user
  match table with
  | .skdbGroups => checkUserCanReadGroup c user row
  | .skdbGroupPermissions =>
    let groupID ← Row.stringOr row groupIDIdx
      "groupID is a non-null string in skdb_group_permissions"
    match ← c.groupIndexGet groupID with
    | none => .error "fromSome called on None"
    | some groupRow =>
      match ← checkUserCanReadGroup c user groupRow with
      | .ok => checkUserCanReadPermission c user access row groupRow groupID
      | reasonUserCantSeeGroup => return reasonUserCantSeeGroup
  | .other _ => checkReadAccess c user access groupIdxOption row

end Check

inductive ColumnType where
  | integer
  | text
deriving DecidableEq

structure Column where
  name : String
  ty : ColumnType
  notNull : Bool
deriving DecidableEq

def Column.accepts (column : Column) : Option CValue → Bool
  | none => !column.notNull
  | some (.int _) => column.ty = .integer
  | some (.string _) => column.ty = .text

/-- The columns of the tables that are not predefined, with their names in lower case. -/
abbrev Catalog := String → List Column

def columns (catalog : Catalog) : WrittenTable → List Column
  | .skdbGroups =>
    [⟨"groupid", .text, false⟩, ⟨"skdb_author", .text, false⟩, ⟨"adminid", .text, true⟩,
      ⟨"ownerid", .text, true⟩, ⟨"skdb_access", .text, true⟩]
  | .skdbGroupPermissions =>
    [⟨"groupid", .text, true⟩, ⟨"userid", .text, false⟩, ⟨"permissions", .integer, true⟩,
      ⟨"skdb_access", .text, true⟩]
  | .other name =>
    if name = "skdb_user_permissions" then
      [⟨"userid", .text, false⟩, ⟨"permissions", .integer, true⟩, ⟨"skdb_access", .text, true⟩]
    else catalog name

def colNbr (columns : List Column) (name : String) : Option ℕ :=
  columns.findIdx? fun column => column.name = name

def getAuthorIdx (columns : List Column) : Option ℕ := colNbr columns "skdb_author"

def getAccessIdx (columns : List Column) : Option ℕ := colNbr columns "skdb_access"

def Conforms (columns : List Column) (row : Row CValue) : Prop :=
  List.Forall₂ (fun column value => Column.accepts column value = true) columns row

abbrev Database := WrittenTable → List (Row CValue)

def stringOf : Option CValue → Option String
  | some (.string s) => some s
  | _ => none

def userPermission : Row CValue → Option (Option String × BitVec 64)
  | [userID, some (.int permissions), _] => some (stringOf userID, permissions)
  | _ => none

def groupPermission : Row CValue → Option ((String × Option String) × BitVec 64)
  | [some (.string groupID), userID, some (.int permissions), _] =>
    some ((groupID, stringOf userID), permissions)
  | _ => none

/-- What the checks read of a database once the privacy layer is initialised. -/
def policy (db : Database) : PolicyContext where
  privacy :=
    { tick := 0
      skdbUserPermissions :=
        { rows := (db (.other "skdb_user_permissions")).filterMap userPermission
          index := some ((db (.other "skdb_user_permissions")).filterMap userPermission) }
      skdbGroupPermissions :=
        { rows := (db .skdbGroupPermissions).filterMap groupPermission
          index := some ((db .skdbGroupPermissions).filterMap groupPermission) } }
  groups := some (db .skdbGroups)

/-- Rows that a user, or root, inserts into a table or deletes from it. -/
structure Write where
  user : Option String
  table : WrittenTable
  rows : List (RowValues CValue)

def writeRow (rows : List (Row CValue)) (row : RowValues CValue) : List (Row CValue) :=
  if row.repeatCount = 0 then rows.filter fun values => values ≠ row.values
  else rows ++ [row.values]

def write (db : Database) (w : Write) : Database := fun table =>
  if table = w.table then w.rows.foldl writeRow (db table) else db table

structure Accepted (catalog : Catalog) (db : Database) (w : Write) : Prop where
  conforms : ∀ row ∈ w.rows, Conforms (columns catalog w.table) row.values
  allowed : ∀ user, w.user = some user →
    privacyIsOk (policy db)
      { table := w.table
        authorCol := getAuthorIdx (columns catalog w.table)
        accessCol := getAccessIdx (columns catalog w.table) } user w.rows = .ok true

/-- The databases that are reached by accepted writes that meet `P`, from empty tables. -/
inductive Run (catalog : Catalog) (P : Database → Write → Prop) : Database → Prop where
  | start : Run catalog P fun _ => []
  | step {db : Database} {w : Write} (h : Run catalog P db) (ha : Accepted catalog db w)
      (hp : P db w) : Run catalog P (write db w)

def HasGroup (db : Database) (row : Row CValue) : Prop :=
  ∃ groupRow ∈ db .skdbGroups, groupRow.getD groupIDIdx none = row.getD groupIDIdx none

/-- What the check of a row needs of it: a permission needs its group, and the access column of
another table is NULL or a string. -/
def Decided (catalog : Catalog) (db : Database) (table : WrittenTable) (row : Row CValue) : Prop :=
  match table with
  | .skdbGroups => True
  | .skdbGroupPermissions => HasGroup db row
  | .other _ =>
    ∀ colNbr, getAccessIdx (columns catalog table) = some colNbr →
      ∀ n, row.getD colNbr none ≠ some (.int n)

/-- A write of permissions inserts them for groups that are there, and a write of groups leaves a
row of every group that a permission names. -/
def KeepsGroups (db : Database) (w : Write) : Prop :=
  (w.table = .skdbGroupPermissions →
    ∀ row ∈ w.rows, row.repeatCount ≠ 0 → HasGroup db row.values) ∧
  (w.table = .skdbGroups → ∀ row ∈ db .skdbGroupPermissions, HasGroup (write db w) row)

section Decisions

theorem canRead_decides (a : AccessSolver) (c : PrivacyContext) (groupID : String)
    (h : c.skdbGroupPermissions.index.isSome = true) :
    ∃ b, a.canRead c groupID = .ok b := by
  have hno : ∀ a : AccessSolver, ∃ p, a.getPermissionsNoCache c groupID = .ok p := by
    intro a
    obtain ⟨index, hindex⟩ := Option.isSome_iff_exists.mp h
    unfold AccessSolver.getPermissionsNoCache
    by_cases hg : groupID = a.userID
    · exact ⟨a.userMask, if_pos hg⟩
    · rw [if_neg hg]
      simp only [PermissionTable.getIndex, hindex, bind, Except.bind, pure, Except.pure]
      split
      · exact ⟨_, rfl⟩
      · exact ⟨_, rfl⟩
  unfold AccessSolver.canRead AccessSolver.getPermissions
  dsimp only
  split
  · obtain ⟨p, hp⟩ := hno (a.enterTick c)
    rw [hp]
    exact ⟨p.canRead, rfl⟩
  · exact ⟨_, rfl⟩

theorem create_decides (c : PrivacyContext) (user : String)
    (h : c.skdbUserPermissions.index.isSome = true) :
    ∃ a, AccessSolver.create c user = .ok a := by
  obtain ⟨p, hp⟩ := (AccessSolver.userPermissions_isOk c user).mpr h
  exact ⟨_, AccessSolver.create_of_userPermissions hp⟩

variable (c : PolicyContext) (user : String)

theorem checkReadAccess_decides_iff (access : AccessSolver) (groupIdxOption : Option ℕ)
    (row : Row CValue) (h : c.privacy.skdbGroupPermissions.index.isSome = true) :
    (∃ r, checkReadAccess c user access groupIdxOption row = .ok r) ↔
      ∀ colNbr, groupIdxOption = some colNbr → ∀ n, row.getD colNbr none ≠ some (.int n) := by
  cases groupIdxOption with
  | none =>
    constructor
    · intro _ colNbr hc
      cases hc
    · intro _
      exact ⟨_, rfl⟩
  | some colNbr =>
    unfold checkReadAccess Row.getString
    dsimp only
    constructor
    · intro hr k hk n hn
      cases hk
      obtain ⟨r, hr⟩ := hr
      rw [hn] at hr
      cases hr
    · intro hn
      cases hv : row.getD colNbr none with
      | none => exact ⟨_, rfl⟩
      | some v =>
        cases v with
        | int n => exact absurd hv (hn colNbr rfl n)
        | string groupID =>
          obtain ⟨b, hb⟩ := canRead_decides access c.privacy groupID h
          simp only [bind, Except.bind, hb]
          cases b
          · exact ⟨_, rfl⟩
          · exact ⟨_, rfl⟩

theorem checkUserCanReadGroup_decides (row : Row CValue)
    (hu : c.privacy.skdbUserPermissions.index.isSome = true)
    (hg : c.privacy.skdbGroupPermissions.index.isSome = true)
    (ho : ∃ ownerID, row.getD ownerIDIdx none = some (.string ownerID))
    (ha : ∀ n, row.getD groupsAccessIdx none ≠ some (.int n)) :
    ∃ r, checkUserCanReadGroup c user row = .ok r := by
  obtain ⟨access, haccess⟩ := create_decides c.privacy user hu
  obtain ⟨ownerID, ho⟩ := ho
  obtain ⟨b, hb⟩ := canRead_decides access c.privacy ownerID hg
  unfold checkUserCanReadGroup Row.stringOr
  simp only [haccess, ho, hb, bind, Except.bind]
  cases b with
  | true => exact ⟨_, rfl⟩
  | false =>
    apply (checkReadAccess_decides_iff c user access (some groupsAccessIdx) row hg).mpr
    intro colNbr hc
    cases hc
    exact ha

theorem checkUserCanReadPermission_decides (access : AccessSolver) (row groupRow : Row CValue)
    (groupID : String) (hg : c.privacy.skdbGroupPermissions.index.isSome = true)
    (ha : ∃ adminID, groupRow.getD adminIDIdx none = some (.string adminID))
    (ho : ∃ ownerID, groupRow.getD ownerIDIdx none = some (.string ownerID)) :
    ∃ r, checkUserCanReadPermission c user access row groupRow groupID = .ok r := by
  obtain ⟨adminID, ha⟩ := ha
  obtain ⟨ownerID, ho⟩ := ho
  obtain ⟨b1, hb1⟩ := canRead_decides access c.privacy adminID hg
  obtain ⟨b2, hb2⟩ := canRead_decides access c.privacy ownerID hg
  unfold checkUserCanReadPermission
  cases row.getD userIDIdx none with
  | none => exact ⟨_, rfl⟩
  | some userID =>
    dsimp only
    by_cases hu : userID = .string user
    · rw [if_pos hu]
      exact ⟨_, rfl⟩
    · rw [if_neg hu]
      simp only [Row.stringOr, ha, ho, bind, Except.bind, hb1, hb2]
      cases b1
      · cases b2
        · exact ⟨_, rfl⟩
        · exact ⟨_, rfl⟩
      · exact ⟨_, rfl⟩

end Decisions

section Rows

variable {catalog : Catalog}

variable {row : Row CValue}

theorem conforms_getD {columns : List Column} (h : Conforms columns row)
    (n : ℕ) (column : Column) (hc : columns[n]? = some column) :
    column.accepts (row.getD n none) = true := by
  have hl := List.Forall₂.length_eq h
  obtain ⟨hn, he⟩ := List.getElem?_eq_some_iff.mp hc
  have hr : n < row.length := by omega
  have hcell := (forall₂_iff_get.mp h).2 n hn hr
  have hg : row.getD n none = row.get ⟨n, hr⟩ := by
    rw [getD_eq_getElem?_getD, List.getElem?_eq_getElem hr]
    rfl
  rw [hg, ← he]
  exact hcell

theorem accepts_text {column : Column} {value : Option CValue} (ht : column.ty = .text)
    (h : column.accepts value = true) : (∀ n, value ≠ some (.int n)) ∧
      (column.notNull = true → ∃ s, value = some (.string s)) := by
  cases value with
  | none =>
    constructor
    · intro n hn
      cases hn
    · intro hn
      rw [Column.accepts, hn] at h
      cases h
  | some v =>
    cases v with
    | int n => simp [Column.accepts, ht] at h
    | string s =>
      constructor
      · intro n hn
        cases hn
      · intro _
        exact ⟨s, rfl⟩

theorem mem_foldl_writeRow (ws : List (RowValues CValue)) (rows : List (Row CValue))
    (row : Row CValue) (h : row ∈ ws.foldl writeRow rows) :
    row ∈ rows ∨ ∃ w ∈ ws, w.values = row ∧ w.repeatCount ≠ 0 := by
  induction ws generalizing rows with
  | nil => exact Or.inl h
  | cons w ws ih =>
    rcases ih (writeRow rows w) h with hr | ⟨x, hx, hv⟩
    · unfold writeRow at hr
      by_cases hw : w.repeatCount = 0
      · rw [if_pos hw] at hr
        exact Or.inl (mem_of_mem_filter hr)
      · rw [if_neg hw] at hr
        rcases mem_append.mp hr with hr | hr
        · exact Or.inl hr
        · exact Or.inr ⟨w, mem_cons_self, (mem_singleton.mp hr).symm, hw⟩
    · exact Or.inr ⟨x, mem_cons_of_mem _ hx, hv⟩

theorem mem_write (db : Database) (w : Write) (table : WrittenTable) (row : Row CValue)
    (h : row ∈ write db w table) :
    row ∈ db table ∨ table = w.table ∧ ∃ x ∈ w.rows, x.values = row ∧ x.repeatCount ≠ 0 := by
  unfold write at h
  by_cases ht : table = w.table
  · rw [if_pos ht] at h
    rcases mem_foldl_writeRow w.rows (db table) row h with hr | hr
    · exact Or.inl hr
    · exact Or.inr ⟨ht, hr⟩
  · rw [if_neg ht] at h
    exact Or.inl h

theorem write_other (db : Database) (w : Write) (table : WrittenTable) (h : table ≠ w.table) :
    write db w table = db table :=
  if_neg h

variable {db : Database}

theorem run_conforms {P : Database → Write → Prop} (h : Run catalog P db)
    (table : WrittenTable) : ∀ row ∈ db table, Conforms (columns catalog table) row := by
  induction h with
  | start =>
    intro row hm
    cases hm
  | step h ha hp ih =>
    rename_i db w
    intro row hm
    rcases mem_write db w table row hm with hr | ⟨ht, x, hx, hv, -⟩
    · exact ih row hr
    · subst ht hv
      exact ha.conforms x hx

theorem run_weaken {P Q : Database → Write → Prop} (hpq : ∀ db w, P db w → Q db w)
    (h : Run catalog P db) : Run catalog Q db := by
  induction h with
  | start => exact Run.start
  | step h ha hp ih => exact Run.step ih ha (hpq _ _ hp)

theorem run_hasGroup (h : Run catalog KeepsGroups db) :
    ∀ row ∈ db .skdbGroupPermissions, HasGroup db row := by
  induction h with
  | start =>
    intro row hm
    cases hm
  | step h ha hp ih =>
    rename_i db w
    intro row hm
    by_cases hg : w.table = .skdbGroups
    · have hd : write db w .skdbGroupPermissions = db .skdbGroupPermissions :=
        write_other db w _ (by rw [hg]; decide)
      rw [hd] at hm
      exact hp.2 hg row hm
    · have hd : write db w .skdbGroups = db .skdbGroups := write_other db w _ (Ne.symm hg)
      have hold : HasGroup db row := by
        rcases mem_write db w _ row hm with hr | ⟨ht, x, hx, hv, hn⟩
        · exact ih row hr
        · subst hv
          exact hp.1 ht.symm x hx hn
      unfold HasGroup at hold ⊢
      rw [hd]
      exact hold

theorem text_cell (hconf : ∀ table, ∀ row ∈ db table, Conforms (columns catalog table) row)
    {table : WrittenTable} (hrow : row ∈ db table) (n : ℕ) (column : Column)
    (hc : (columns catalog table)[n]? = some column) (ht : column.ty = .text) :
    (∀ k, row.getD n none ≠ some (.int k)) ∧
      (column.notNull = true → ∃ s, row.getD n none = some (.string s)) :=
  accepts_text ht (conforms_getD (hconf table row hrow) n column hc)

theorem groupRow_decides
    (hconf : ∀ table, ∀ row ∈ db table, Conforms (columns catalog table) row) (user : String)
    (hrow : row ∈ db .skdbGroups) :
    ∃ r, checkUserCanReadGroup (policy db) user row = .ok r :=
  checkUserCanReadGroup_decides (policy db) user row rfl rfl
    ((text_cell hconf hrow ownerIDIdx _ rfl rfl).2 rfl)
    (text_cell hconf hrow groupsAccessIdx _ rfl rfl).1

theorem checkUserCanReadRow_iff
    (hconf : ∀ table, ∀ row ∈ db table, Conforms (columns catalog table) row) (user : String)
    (table : WrittenTable) (hrow : row ∈ db table) :
    (∃ r, checkUserCanReadRow (policy db) user table (getAccessIdx (columns catalog table)) row =
      .ok r) ↔ Decided catalog db table row := by
  obtain ⟨access, haccess⟩ := create_decides (policy db).privacy user rfl
  unfold checkUserCanReadRow
  simp only [haccess, bind, Except.bind]
  cases table with
  | skdbGroups =>
    constructor
    · intro _
      trivial
    · intro _
      exact groupRow_decides hconf user hrow
  | other name =>
    exact checkReadAccess_decides_iff (policy db) user access _ row rfl
  | skdbGroupPermissions =>
    obtain ⟨groupID, hg⟩ := (text_cell hconf hrow groupIDIdx _ rfl rfl).2 rfl
    have hfind : ∀ groupRow, (db .skdbGroups).find?
        (fun r => r.getD groupIDIdx none = some (.string groupID)) = some groupRow →
        groupRow ∈ db .skdbGroups ∧ groupRow.getD groupIDIdx none = some (.string groupID) := by
      intro groupRow hf
      exact ⟨List.mem_of_find?_eq_some hf, by simpa using List.find?_some hf⟩
    simp only [Row.stringOr, hg, PolicyContext.groupIndexGet, policy]
    cases hf : (db .skdbGroups).find?
        (fun r => r.getD groupIDIdx none = some (.string groupID)) with
    | none =>
      constructor
      · intro hr
        obtain ⟨r, hr⟩ := hr
        cases hr
      · intro hd
        obtain ⟨groupRow, hm, he⟩ := hd
        rw [hg] at he
        have hno := List.find?_eq_none.mp hf groupRow hm
        exact absurd (by simpa using he) hno
    | some groupRow =>
      obtain ⟨hm, he⟩ := hfind groupRow hf
      obtain ⟨r, hr⟩ := groupRow_decides hconf user hm
      obtain ⟨r2, hr2⟩ := checkUserCanReadPermission_decides (policy db) user access row groupRow
        groupID rfl ((text_cell hconf hm adminIDIdx _ rfl rfl).2 rfl)
        ((text_cell hconf hm ownerIDIdx _ rfl rfl).2 rfl)
      unfold policy at hr hr2
      constructor
      · intro _
        exact ⟨groupRow, hm, by rw [he, hg]⟩
      · intro _
        dsimp only
        rw [hr]
        cases r with
        | ok => exact ⟨r2, hr2⟩
        | notAdmin userID groupID => exact ⟨_, rfl⟩
        | cannotRead userID groupID => exact ⟨_, rfl⟩

/-- In every database that is reached the check of a row ends with an answer if and only if the row
is decided; and if all writes keep the groups of the permissions, this is so for the rows of
every table whose access column, if it has one, is a text. -/
theorem read_decides_iff (catalog : Catalog) (db : Database) :
    (Run catalog (fun _ _ => True) db → ∀ (user : String) (table : WrittenTable),
      ∀ row ∈ db table,
        ((∃ r, checkUserCanReadRow (policy db) user table (getAccessIdx (columns catalog table)) row =
          .ok r) ↔ Decided catalog db table row)) ∧
    (Run catalog KeepsGroups db → ∀ (user : String) (table : WrittenTable),
      (∀ n column, getAccessIdx (columns catalog table) = some n →
        (columns catalog table)[n]? = some column → column.ty = .text) →
      ∀ row ∈ db table,
        ∃ r, checkUserCanReadRow (policy db) user table (getAccessIdx (columns catalog table)) row =
          .ok r) := by
  constructor
  · intro h user table row hrow
    exact checkUserCanReadRow_iff (run_conforms h) user table hrow
  · intro h user table ht row hrow
    apply (checkUserCanReadRow_iff (run_conforms h) user table hrow).mpr
    cases table with
    | skdbGroups => trivial
    | skdbGroupPermissions => exact run_hasGroup h row hrow
    | other name =>
      intro n hn
      have hlt : n < (columns catalog (.other name)).length :=
        (List.findIdx?_eq_some_iff_getElem.mp hn).1
      have hc : (columns catalog (.other name))[n]? = some (columns catalog (.other name))[n] :=
        List.getElem?_eq_getElem hlt
      exact (text_cell (run_conforms h) hrow n _ hc (ht n _ hn hc)).1

end Rows
/-- The user `ann` gives `bob` a permission in a group that is not there. -/
def strayPermission : Write where
  user := some "ann"
  table := .skdbGroupPermissions
  rows := [⟨[some (.string "g"), some (.string "bob"), some (.int 4), some (.string "g")], 1⟩]

def newGroup : Write where
  user := none
  table := .skdbGroups
  rows := [⟨[some (.string "g"), none, some (.string "ann"), some (.string "ann"),
    some (.string "g")], 1⟩]

theorem newGroup_run : Run (fun _ => []) KeepsGroups (write (fun _ => []) newGroup) := by
  apply Run.step Run.start
  · constructor
    · intro row hrow
      rw [mem_singleton.mp hrow]
      refine List.Forall₂.cons ?_ (List.Forall₂.cons ?_ (List.Forall₂.cons ?_
        (List.Forall₂.cons ?_ (List.Forall₂.cons ?_ List.Forall₂.nil)))) <;> decide
    · intro user hu
      cases hu
  · constructor
    · intro ht
      cases ht
    · intro _ row hm
      cases hm

theorem read_decides_newGroup :
    ((∃ r, checkUserCanReadRow (policy (write (fun _ => []) newGroup)) "bob" .skdbGroups
      (getAccessIdx (columns (fun _ => []) .skdbGroups))
      [some (.string "g"), none, some (.string "ann"), some (.string "ann"),
        some (.string "g")] = .ok r) ↔
      Decided (fun _ => []) (write (fun _ => []) newGroup) .skdbGroups
        [some (.string "g"), none, some (.string "ann"), some (.string "ann"),
          some (.string "g")]) :=
  (read_decides_iff (fun _ => []) (write (fun _ => []) newGroup)).1
    (run_weaken (fun _ _ _ => trivial) newGroup_run) "bob" .skdbGroups _ (mem_singleton.mpr rfl)

theorem read_fails_without_group :
    ¬ ∀ (catalog : Catalog) (db : Database), Run catalog (fun _ _ => True) db →
      ∀ (user : String) (table : WrittenTable), ∀ row ∈ db table,
        ∃ r, checkUserCanReadRow (policy db) user table (getAccessIdx (columns catalog table)) row =
          .ok r := by
  intro h
  have hrun : Run (fun _ => []) (fun _ _ => True) (write (fun _ => []) strayPermission) := by
    apply Run.step Run.start
    · constructor
      · intro row hrow
        rw [mem_singleton.mp hrow]
        refine List.Forall₂.cons ?_ (List.Forall₂.cons ?_ (List.Forall₂.cons ?_
          (List.Forall₂.cons ?_ List.Forall₂.nil))) <;> decide
      · intro user hu
        cases hu
        rfl
    · trivial
  obtain ⟨r, hr⟩ := h _ _ hrun "ann" .skdbGroupPermissions _ (mem_singleton.mpr rfl)
  have he : checkUserCanReadRow (policy (write (fun _ => []) strayPermission)) "ann"
      .skdbGroupPermissions (some 3)
      [some (.string "g"), some (.string "bob"), some (.int 4), some (.string "g")] =
      .error "fromSome called on None" := rfl
  have hc : getAccessIdx (columns (fun _ => []) .skdbGroupPermissions) = some 3 := by decide
  rw [hc, he] at hr
  cases hr

end SkipPlatform.SqlPrivacyReads
