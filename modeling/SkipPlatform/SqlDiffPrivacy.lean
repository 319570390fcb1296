import SkipPlatform.SqlDiffLosses
import SkipPlatform.SqlPrivacy

set_option autoImplicit false

/-! The rows that the diff of a user may remove. The rows of the diff are checked before any of
them is applied. -/
namespace SkipPlatform
open List

inductive AccessResultError where
  | nullAuthor (userID : String)
  | wrongAuthor (userID foundUserName : String)
  | wrongAuthorType (userID : String)
  | notOwner (userID groupID : String)
  | notAdmin (userID groupID : String)
  | cannotDelete (userID groupID : String)
  | cannotInsert (userID groupID : String)
  | cannotDeleteFromTable (userID tableName : String)
  | cannotInsertIntoTable (userID tableName : String)
deriving DecidableEq

inductive AccessResult where
  | ok
  | error (e : AccessResultError)
deriving DecidableEq

inductive WrittenTable where
  | skdbGroups
  | skdbGroupPermissions
  | other (tableName : String)
deriving DecidableEq

namespace WrittenTable

def tableName : WrittenTable → String
  | skdbGroups => "skdb_groups"
  | skdbGroupPermissions => "skdb_group_permissions"
  | other name => name

end WrittenTable

/-! The columns of `skdb_groups` are `groupID`, `skdb_author`, `adminID`, `ownerID` and
`skdb_access`; the first one of `skdb_group_permissions` is `groupID`. -/

def groupIDIdx : ℕ := 0

def adminIDIdx : ℕ := 2

def ownerIDIdx : ℕ := 3

/-- What the check reads: the permission tables, and the rows of `skdb_groups` by the index. -/
structure PolicyContext where
  privacy : PrivacyContext
  groups : Option (List (Row CValue))

namespace Row

def stringOr (row : Row CValue) (col : ℕ) (message : String) : Except String String :=
  match row.getD col none with
  | some (.string id) => .ok id
  | _ => .error message

def getString (row : Row CValue) (col : ℕ) : Except String (Option String) :=
  match row.getD col none with
  | none => .ok none
  | some (.string v) => .ok (some v)
  | some (.int _) => .error "Expected a string"

end Row

namespace PolicyContext

def groupIndexGet (c : PolicyContext) (groupID : String) : Except String (Option (Row CValue)) :=
  match c.groups with
  | none => .error "Privacy layer not initialized"
  | some rows => .ok (rows.find? (·.getD groupIDIdx none = some (.string groupID)))

end PolicyContext

section Check

variable (c : PolicyContext) (access : AccessSolver)

def checkGroups (row : RowValues CValue) : Except String AccessResult := do
  let ownerID ← Row.stringOr row.values ownerIDIdx "ownerID is a non-null string in skdb_groups"
  if row.repeatCount = 0 then
    if ← access.canDelete c.privacy ownerID then return .ok
    else
      let groupID ← Row.stringOr row.values groupIDIdx
        "groupID is a non-null string in skdb_groups"
      return .error (.notOwner access.userID groupID)
  else return .ok

def canWriteIn (row : RowValues CValue) (groupID : String) : Except String Bool :=
  if row.repeatCount = 0 then access.canDelete c.privacy groupID
  else access.canInsert c.privacy groupID

/-- Only an administrator of a group, or its owner, changes the permissions in it. There is no
answer when there is no such group. -/
def hasAdminPrivileges (row : RowValues CValue) (groupID : String) :
    Except String (Option Bool) := do
  match ← c.groupIndexGet groupID with
  | some r =>
    let adminID ← Row.stringOr r adminIDIdx "Undexpected value for col adminID"
    let ownerID ← Row.stringOr r ownerIDIdx "Undexpected value for col ownerID"
    if ← canWriteIn c access row adminID then return some true
    else return some (← canWriteIn c access row ownerID)
  | none => return none

def checkAuthor (authorIdxOption : Option ℕ) (row : RowValues CValue) : AccessResult :=
  match authorIdxOption with
  | none => .ok
  | some authorIdx =>
    match row.values.getD authorIdx none with
    | none => .error (.nullAuthor access.userID)
    | some (.string n) =>
      if n ≠ access.userID then .error (.wrongAuthor access.userID n) else .ok
    | some (.int _) => .error (.wrongAuthorType access.userID)

def isOwnGroup (table : WrittenTable) (row : RowValues CValue) (groupID : String) :
    Except String Bool :=
  match table with
  | .skdbGroups => do return (← Row.getString row.values groupIDIdx) = some groupID
  | _ => .ok false

def checkAccess (table : WrittenTable) (groupIdxOption : Option ℕ) (row : RowValues CValue) :
    Except String AccessResult :=
  match groupIdxOption with
  | none =>
    if row.repeatCount = 0 then
      .ok (.error (.cannotDeleteFromTable access.userID table.tableName))
    else .ok (.error (.cannotInsertIntoTable access.userID table.tableName))
  | some groupIdx => do
    match ← Row.getString row.values groupIdx with
    | none => return .ok
    | some groupID =>
      if row.repeatCount = 0 then
        if ← access.canDelete c.privacy groupID then return .ok
        else return .error (.cannotDelete access.userID groupID)
      else if ← isOwnGroup table row groupID then return .ok
      else if ← access.canInsert c.privacy groupID then return .ok
      else return .error (.cannotInsert access.userID groupID)

def checkAuthorAndAccess (table : WrittenTable) (authorIdxOption groupIdxOption : Option ℕ)
    (row : RowValues CValue) : Except String AccessResult :=
  match checkAuthor access authorIdxOption row with
  | .ok => checkAccess c access table groupIdxOption row
  | .error e => .ok (.error e)

def checkUserCanWriteRow (table : WrittenTable) (authorIdxOption groupIdxOption : Option ℕ)
    (row : RowValues CValue) : Except String AccessResult := do
  match table with
  | .skdbGroups =>
    match ← checkGroups c access row with
    | .ok => checkAuthorAndAccess c access table authorIdxOption groupIdxOption row
    | .error e => return .error e
  | .skdbGroupPermissions =>
    let groupID ← Row.stringOr row.values groupIDIdx
      "groupID is a non-null string in skdb_group_permissions"
    match ← hasAdminPrivileges c access row groupID with
    | none => return .ok
    | some true => checkAuthorAndAccess c access table authorIdxOption groupIdxOption row
    | some false => return .error (.notAdmin access.userID groupID)
  | .other _ => checkAuthorAndAccess c access table authorIdxOption groupIdxOption row

end Check

structure WritePolicy where
  table : WrittenTable
  authorCol : Option ℕ
  accessCol : Option ℕ

def privacyIsOk (c : PolicyContext) (policy : WritePolicy) (userFile : String) :
    List (RowValues CValue) → Except String Bool := fun rows => do
  let accessSolver ← AccessSolver.create c.privacy userFile
  rows.foldlM (fun ok row => do
    if ok then
      match ← checkUserCanWriteRow c accessSolver policy.table policy.authorCol policy.accessCol row
        with
      | .ok => return true
      | .error _ => return false
    else return false) true

def MayDelete (c : PolicyContext) (policy : WritePolicy) (userFile : String) (values : Row CValue) :
    Prop :=
  ∃ accessSolver, AccessSolver.create c.privacy userFile = .ok accessSolver ∧
    checkUserCanWriteRow c accessSolver policy.table policy.authorCol policy.accessCol ⟨values, 0⟩ =
      .ok .ok

section Accepted

variable {c : PolicyContext} {policy : WritePolicy} {userFile : String}

theorem foldlM_check {check : RowValues CValue → Except String AccessResult}
    {rows : List (RowValues CValue)} {start : Bool}
    (h : rows.foldlM (fun ok row => do
      if ok then
        match ← check row with
        | .ok => return true
        | .error _ => return false
      else return false) start = (.ok true : Except String Bool)) :
    start = true ∧ ∀ row ∈ rows, check row = .ok .ok := by
  induction rows generalizing start with
  | nil =>
    cases h
    exact ⟨rfl, fun row hrow => absurd hrow not_mem_nil⟩
  | cons row rows ih =>
    rw [foldlM_cons] at h
    cases start with
    | false =>
      have hstart := (ih h).1
      cases hstart
    | true =>
      cases hcheck : check row with
      | error message =>
        simp only [hcheck, if_true] at h
        cases h
      | ok result =>
        simp only [hcheck, if_true] at h
        cases result with
        | ok =>
          refine ⟨rfl, fun x hx => ?_⟩
          rcases mem_cons.mp hx with rfl | htail
          · exact hcheck
          · exact (ih h).2 x htail
        | error e =>
          have hstart := (ih h).1
          cases hstart

theorem mayDelete_of_accepted {rows : List (RowValues CValue)}
    (h : privacyIsOk c policy userFile rows = .ok true) {row : RowValues CValue} (hrow : row ∈ rows)
    (hrepeat : row.repeatCount < 1) : MayDelete c policy userFile row.values := by
  unfold privacyIsOk at h
  cases hsolver : AccessSolver.create c.privacy userFile with
  | error message =>
    rw [hsolver] at h
    cases h
  | ok accessSolver =>
    rw [hsolver] at h
    have hcheck := (foldlM_check h).2 row hrow
    have hdelete : row = ⟨row.values, 0⟩ := by
      cases row
      simp only [RowValues.mk.injEq, true_and]
      simp only at hrepeat
      omega
    rw [hdelete] at hcheck
    exact ⟨accessSolver, hsolver, hcheck⟩

def accepts (c : PolicyContext) (policy : WritePolicy) (userFile : String) (diff : Diff CValue) :
    TableDir CValue → Bool :=
  fun _ =>
    match privacyIsOk c policy userFile diff.rows with
    | .ok ok => ok
    | .error _ => false

variable {schema : TableSchema} {diff : Diff CValue} {s s' : ReplicaTable CValue}

theorem applied_of_ok
    (hnew : shouldShortCircuitUpdate diff.checkpoint s.watermark = false)
    (h : applyDiffStrategy schema (accepts c policy userFile diff) diff s = .ok s') :
    privacyIsOk c policy userFile diff.rows = .ok true ∧
      ∃ tick, applyRows schema (diff.snapshot.getD 0) diff.writer s.tick s.dir diff.rows =
        .ok (tick, s'.dir) := by
  unfold applyDiffStrategy at h
  rw [hnew] at h
  simp only [Bool.false_eq_true, if_false] at h
  by_cases hprivacy : (!accepts c policy userFile diff s.dir) = true
  · rw [if_pos hprivacy] at h
    cases h
  · rw [if_neg hprivacy] at h
    constructor
    · unfold accepts at hprivacy
      cases hok : privacyIsOk c policy userFile diff.rows with
      | error message =>
        rw [hok] at hprivacy
        simp at hprivacy
      | ok ok =>
        rw [hok] at hprivacy
        simpa using hprivacy
    · cases hrows : applyRows schema (diff.snapshot.getD 0) diff.writer s.tick s.dir diff.rows with
      | error message =>
        rw [hrows] at h
        cases h
      | ok result =>
        rw [hrows] at h
        cases h
        refine ⟨result.1, ?_⟩
        rw [checkpointAndAck_dir]

/-- A diff that is accepted and applied removes only rows that the user may delete exactly when
every row is spared or is one of those. -/
theorem removes_only_deletable_iff (hschema : schema.WellFormed)
    (hsized : s.dir.Sized schema.columns) (hconsistent : Consistent schema s.dir)
    (hrows : ∀ row ∈ diff.rows, row.values.length = schema.columns)
    (hnew : shouldShortCircuitUpdate diff.checkpoint s.watermark = false)
    (h : applyDiffStrategy schema (accepts c policy userFile diff) diff s = .ok s') :
    (∀ values, Loses s.dir s'.dir values → MayDelete c policy userFile values) ↔
      ∀ values, MayDelete c policy userFile values ∨
        Spared schema hschema (diff.snapshot.getD 0) diff.writer s.dir diff.rows values := by
  obtain ⟨hprivacy, tick, happly⟩ := applied_of_ok hnew h
  refine forall_congr' fun values => ?_
  by_cases hmay : MayDelete c policy userFile values
  · exact ⟨fun _ => .inl hmay, fun _ _ => hmay⟩
  · have hdelete : ∀ x ∈ diff.rows, x.values = values → 1 ≤ x.repeatCount := by
      intro x hx hvalues
      by_contra hlt
      refine hmay ?_
      rw [← hvalues]
      exact mayDelete_of_accepted hprivacy hx (by omega)
    rw [loses_iff_not_spared hschema hsized hconsistent hrows happly hdelete]
    constructor
    · intro hlost
      right
      by_contra hnot
      exact hmay (hlost hnot)
    · intro hspared hnot
      rcases hspared with hspared | hspared
      · exact hspared
      · exact absurd hspared hnot

end Accepted

/-! The group `g` has the owner `alice`; another user inserts a group of that name. -/

def sampleGroupRow (userID : String) : Row CValue :=
  [some (.string "g"), some (.string userID), some (.string userID), some (.string userID),
    some (.string "g")]

def sampleGroupsSchema : TableSchema where
  columns := 5
  primary := some 0
  indexes := [createIndex 5 [0] true]

def sampleGroupsPolicy : WritePolicy where
  table := .skdbGroups
  authorCol := some 1
  accessCol := some 4

def sampleGroupsContext : PolicyContext where
  privacy := ⟨5, ⟨[], some []⟩, ⟨[], some []⟩⟩
  groups := some [sampleGroupRow "alice"]

def sampleGroups : ReplicaTable CValue where
  tick := 10
  dir := ⟨[⟨sampleGroupRow "alice", 7, 7, 2, 1⟩], nodup_singleton _⟩
  watermark := none

def sampleGroupsDiff : Diff CValue where
  writer := 3
  checkpoint := some 9
  snapshot := some 4
  rows := [⟨sampleGroupRow "mallory", 1⟩]

def sampleGroupsAfter : Except String (ReplicaTable CValue) :=
  applyDiffStrategy sampleGroupsSchema
    (accepts sampleGroupsContext sampleGroupsPolicy "mallory" sampleGroupsDiff) sampleGroupsDiff
    sampleGroups

theorem exists_ok_of_map {α β : Type} {x : Except String α} {f : α → β} {y : β}
    (h : x.map f = .ok y) : ∃ a, x = .ok a ∧ f a = y := by
  cases x with
  | error message => cases h
  | ok a =>
    cases h
    exact ⟨a, rfl, rfl⟩

theorem sampleGroupsSchema_wellFormed : sampleGroupsSchema.WellFormed where
  fields := by
    intro index hindex
    rw [mem_singleton.mp hindex]
    decide
  primary := by
    intro primaryIdx hprimary
    cases hprimary
    exact ⟨by decide, _, mem_cons_self, rfl, by decide⟩

theorem live_sampleGroups :
    sampleGroups.dir.live = [⟨sampleGroupRow "alice", 7, 7, 2, 1⟩] := rfl

theorem removes_only_deletable_iff_sample : ∃ s', sampleGroupsAfter = .ok s' ∧
    ((∀ values, Loses sampleGroups.dir s'.dir values →
        MayDelete sampleGroupsContext sampleGroupsPolicy "mallory" values) ↔
      ∀ values, MayDelete sampleGroupsContext sampleGroupsPolicy "mallory" values ∨
        Spared sampleGroupsSchema sampleGroupsSchema_wellFormed 4 3 sampleGroups.dir
          sampleGroupsDiff.rows values) := by
  have hafter : sampleGroupsAfter.map (fun s => s.dir.live.map (·.values)) =
      .ok [sampleGroupRow "mallory"] := by decide +kernel
  obtain ⟨s', hs', _⟩ := exists_ok_of_map hafter
  refine ⟨s', hs', removes_only_deletable_iff sampleGroupsSchema_wellFormed ?_ ?_ ?_ rfl hs'⟩
  · intro e he
    rw [live_sampleGroups] at he
    rw [mem_singleton.mp he]
    rfl
  · exact Consistent.of_single live_sampleGroups rfl
  · intro row hrow
    rw [mem_singleton.mp hrow]
    rfl

/-- The row of the group is replaced by one that has the other user as its owner, who may not
delete it. -/
theorem sampleGroups_replaced : ∃ s', sampleGroupsAfter = .ok s' ∧
    s'.dir.live.map (·.values) = [sampleGroupRow "mallory"] ∧
    Loses sampleGroups.dir s'.dir (sampleGroupRow "alice") ∧
    ¬MayDelete sampleGroupsContext sampleGroupsPolicy "mallory" (sampleGroupRow "alice") := by
  have hafter : sampleGroupsAfter.map (fun s => (s.dir.live.map (·.values),
      decide (Loses sampleGroups.dir s.dir (sampleGroupRow "alice")))) =
        .ok ([sampleGroupRow "mallory"], true) := by decide +kernel
  obtain ⟨s', hs', hvalue⟩ := exists_ok_of_map hafter
  refine ⟨s', hs', congrArg Prod.fst hvalue, of_decide_eq_true (congrArg Prod.snd hvalue), ?_⟩
  intro h
  obtain ⟨accessSolver, hsolver, hcheck⟩ := h
  cases hsolver
  revert hcheck
  decide +kernel

end SkipPlatform
