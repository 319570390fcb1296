import Mathlib.Data.String.Basic
import Mathlib.Tactic
import SkipPlatform.SortedMap

set_option autoImplicit false

/-! The access solver, which answers whether a user may read, insert or delete in a group. It
reads the unique indexes of the permission tables, which follow their tables one by one while the
context is updated, and keeps the answers of one tick in a cache. The tick moves when the update
is done, and the update itself makes checks. -/
namespace SkipPlatform

def kDeletePermission : BitVec 64 := 1

def kInsertPermission : BitVec 64 := 2

def kReadPermission : BitVec 64 := 4

structure Permission where
  perm : BitVec 64
deriving DecidableEq

namespace Permission

def none : Permission := ⟨0⟩

def all : Permission := ⟨7⟩

def canRead (p : Permission) : Bool := p.perm &&& kReadPermission != 0

def canInsert (p : Permission) : Bool := p.perm &&& kInsertPermission != 0

def canDelete (p : Permission) : Bool := p.perm &&& kDeletePermission != 0

def and (x y : Permission) : Permission := ⟨x.perm &&& y.perm⟩

def SameRights (x y : Permission) : Prop :=
  x.canRead = y.canRead ∧ x.canInsert = y.canInsert ∧ x.canDelete = y.canDelete

theorem and_twoPow_ne_zero (x : BitVec 64) {i : ℕ} (hi : i < 64) :
    (x &&& BitVec.twoPow 64 i != 0) = x.getLsbD i := by
  rw [BitVec.and_twoPow]
  cases hx : x.getLsbD i with
  | false => simp
  | true =>
    have hne : BitVec.twoPow 64 i ≠ 0 := by
      intro h
      have hbit := congrArg (fun y : BitVec 64 => y.getLsbD i) h
      simp [hi] at hbit
    simpa using hne

theorem canRead_eq (p : Permission) : p.canRead = p.perm.getLsbD 2 := by
  have hbit : kReadPermission = BitVec.twoPow 64 2 := by decide
  unfold canRead
  rw [hbit]
  exact and_twoPow_ne_zero p.perm (by omega)

theorem canInsert_eq (p : Permission) : p.canInsert = p.perm.getLsbD 1 := by
  have hbit : kInsertPermission = BitVec.twoPow 64 1 := by decide
  unfold canInsert
  rw [hbit]
  exact and_twoPow_ne_zero p.perm (by omega)

theorem canDelete_eq (p : Permission) : p.canDelete = p.perm.getLsbD 0 := by
  have hbit : kDeletePermission = BitVec.twoPow 64 0 := by decide
  unfold canDelete
  rw [hbit]
  exact and_twoPow_ne_zero p.perm (by omega)

theorem sameRights_and {x y : Permission} (h : SameRights x y) (z : Permission) :
    SameRights (x.and z) (y.and z) := by
  unfold SameRights at *
  simp only [canRead_eq, canInsert_eq, canDelete_eq] at *
  simp only [and, BitVec.getLsbD_and]
  rw [h.1, h.2.1, h.2.2]
  simp

end Permission

/-- The rows of a permission table, and its `unique/proj/` directory. A row that is repeated
is listed as often as it is repeated. -/
structure PermissionTable (K : Type) where
  rows : List (K × BitVec 64)
  index : Option (List (K × BitVec 64))

namespace PermissionTable

variable {K : Type} [DecidableEq K]

def getIndex (t : PermissionTable K) : Except String (List (K × BitVec 64)) :=
  match t.index with
  | none => .error "Privacy layer not initialized"
  | some index => .ok index

def indexGet (index : List (K × BitVec 64)) (projKey : K) : Option (BitVec 64) :=
  (index.find? (·.1 = projKey)).map Prod.snd

/-- The projection of the rows, which the mappers of the index refuse when a key is not
unique. -/
def project (t : PermissionTable K) : Except String (PermissionTable K) :=
  if (t.rows.map Prod.fst).Nodup then .ok { t with index := some t.rows }
  else .error "UNIQUE constraint failed"

def createIndex (t : PermissionTable K) : Except String (PermissionTable K) :=
  match t.index with
  | none => t.project
  | some _ => .ok t

def update (t : PermissionTable K) : Except String (PermissionTable K) :=
  match t.index with
  | none => .ok t
  | some _ => t.project

variable {t t' : PermissionTable K}

theorem index_project (h : t.project = .ok t') :
    t'.index = some t.rows := by
  unfold project at h
  split at h
  · cases h
    rfl
  · cases h

theorem index_isSome_update (h : t.update = .ok t') :
    t'.index.isSome = t.index.isSome := by
  unfold update at h
  split at h
  · cases h
    rfl
  · next rows hrows => rw [index_project h, hrows]; rfl

end PermissionTable

structure PrivacyContext where
  tick : ℕ
  skdbUserPermissions : PermissionTable (Option String)
  skdbGroupPermissions : PermissionTable (String × Option String)

namespace PrivacyContext

def updateUserIndex (c : PrivacyContext) : Except String PrivacyContext :=
  c.skdbUserPermissions.update.map fun t => { c with skdbUserPermissions := t }

def updateGroupIndex (c : PrivacyContext) : Except String PrivacyContext :=
  c.skdbGroupPermissions.update.map fun t => { c with skdbGroupPermissions := t }

/-- Every directory is brought up to date, and the tick moves at the end. -/
def update (c : PrivacyContext) : Except String PrivacyContext := do
  let c ← c.updateUserIndex
  let c ← c.updateGroupIndex
  return { c with tick := c.tick + 1 }

end PrivacyContext

structure AccessSolver where
  userID : String
  userMask : Permission
  cache : SortedMap String Permission
  currentTick : ℤ

namespace AccessSolver

def userPermissions (c : PrivacyContext) (userID : String) : Except String Permission := do
  let userIndex ← c.skdbUserPermissions.getIndex
  match PermissionTable.indexGet userIndex (some userID) with
  | none =>
    match PermissionTable.indexGet userIndex none with
    | none => return .all
    | some allUsersPermissions => return ⟨allUsersPermissions⟩
  | some thisUserPermissions => return ⟨thisUserPermissions⟩

def create (c : PrivacyContext) (userID : String) : Except String AccessSolver := do
  let userPermissions ← userPermissions c userID
  return { userID, userMask := userPermissions, cache := .empty, currentTick := -1 }

def getPermissionsNoCache (a : AccessSolver) (c : PrivacyContext) (groupID : String) :
    Except String Permission :=
  if groupID = a.userID then .ok a.userMask
  else do
    let groupIndex ← c.skdbGroupPermissions.getIndex
    let row :=
      match PermissionTable.indexGet groupIndex (groupID, some a.userID) with
      | none => PermissionTable.indexGet groupIndex (groupID, none)
      | some x => some x
    match row with
    | none => return .none
    | some x => return a.userMask.and ⟨x⟩

def enterTick (a : AccessSolver) (c : PrivacyContext) : AccessSolver :=
  if (c.tick : ℤ) ≠ a.currentTick then { a with cache := .empty, currentTick := c.tick } else a

/-- The permissions in a group, and the solver with its cache afterwards. -/
def getPermissions (a : AccessSolver) (c : PrivacyContext) (groupID : String) :
    Except String Permission × AccessSolver :=
  let a := a.enterTick c
  match a.cache.maybeGet groupID with
  | none =>
    match a.getPermissionsNoCache c groupID with
    | .error e => (.error e, a)
    | .ok result => (.ok result, { a with cache := a.cache.set groupID result })
  | some x => (.ok x, a)

def canRead (a : AccessSolver) (c : PrivacyContext) (groupID : String) : Except String Bool :=
  (a.getPermissions c groupID).1.map Permission.canRead

def canInsert (a : AccessSolver) (c : PrivacyContext) (groupID : String) : Except String Bool :=
  (a.getPermissions c groupID).1.map Permission.canInsert

def canDelete (a : AccessSolver) (c : PrivacyContext) (groupID : String) : Except String Bool :=
  (a.getPermissions c groupID).1.map Permission.canDelete

/-- The two solvers answer the three questions alike about every group. -/
def SameAnswers (a b : AccessSolver) (c : PrivacyContext) : Prop :=
  ∀ groupID, a.canRead c groupID = b.canRead c groupID ∧
    a.canInsert c groupID = b.canInsert c groupID ∧ a.canDelete c groupID = b.canDelete c groupID

/-- What the solver remembers of this tick lets the user do what it would read now. -/
def UpToDate (a : AccessSolver) (c : PrivacyContext) : Prop :=
  a.currentTick = c.tick → ∀ groupID p, a.cache.maybeGet groupID = some p →
    ∃ q, a.getPermissionsNoCache c groupID = .ok q ∧ p.SameRights q

variable (a : AccessSolver)

@[simp] theorem enterTick_userID (c : PrivacyContext) :
    (a.enterTick c).userID = a.userID := by
  unfold enterTick
  split <;> rfl

@[simp] theorem enterTick_userMask (c : PrivacyContext) :
    (a.enterTick c).userMask = a.userMask := by
  unfold enterTick
  split <;> rfl

theorem enterTick_currentTick (c : PrivacyContext) :
    (a.enterTick c).currentTick = c.tick := by
  by_cases h : (c.tick : ℤ) = a.currentTick
  · simp [enterTick, h]
  · simp [enterTick, h]

variable {c : PrivacyContext}

/-- What a check answers: what is remembered of this tick, else what is read now. -/
theorem getPermissions_eq (groupID : String) : (a.getPermissions c groupID).1 =
    if a.currentTick = c.tick then
      (a.cache.maybeGet groupID).elim (a.getPermissionsNoCache c groupID) .ok
    else a.getPermissionsNoCache c groupID := by
  have hread : (a.enterTick c).getPermissionsNoCache c groupID =
      a.getPermissionsNoCache c groupID := by
    unfold getPermissionsNoCache
    rw [enterTick_userID, enterTick_userMask]
  have hanswer : (a.getPermissions c groupID).1 = ((a.enterTick c).cache.maybeGet groupID).elim
      (a.getPermissionsNoCache c groupID) .ok := by
    rw [← hread]
    unfold getPermissions
    cases hget : (a.enterTick c).cache.maybeGet groupID with
    | some x => simp [hget]
    | none =>
      simp only [hget, Option.elim_none]
      cases (a.enterTick c).getPermissionsNoCache c groupID <;> rfl
  rw [hanswer]
  by_cases htick : a.currentTick = c.tick
  · rw [if_pos htick, enterTick, if_neg (not_not.mpr htick.symm)]
  · rw [if_neg htick, enterTick, if_pos (Ne.symm htick)]
    rfl

/-- A solver has its user and mask from its creation, and remembers nothing else of the group of
the user alone. -/
structure Created (userID : String) (mask : Permission) (a : AccessSolver) : Prop where
  userID : a.userID = userID
  userMask : a.userMask = mask
  own : ∀ p, a.cache.maybeGet a.userID = some p → p = a.userMask

theorem created_getPermissions {a : AccessSolver} {userID : String} {mask : Permission}
    (h : a.Created userID mask) (c : PrivacyContext) (groupID : String) :
    (a.getPermissions c groupID).2.Created userID mask := by
  have henter : (a.enterTick c).Created userID mask := by
    refine ⟨by rw [enterTick_userID, h.userID], by rw [enterTick_userMask, h.userMask], ?_⟩
    unfold enterTick
    split
    · simp
    · exact h.own
  unfold getPermissions
  cases hget : (a.enterTick c).cache.maybeGet groupID with
  | some x => simpa [hget] using henter
  | none =>
    cases hno : (a.enterTick c).getPermissionsNoCache c groupID with
    | error e => simpa [hget, hno] using henter
    | ok result =>
      simp only [hget, hno]
      refine ⟨henter.userID, henter.userMask, fun p hp => ?_⟩
      simp only [SortedMap.maybeGet_set] at hp
      split at hp
      · next hown =>
        rw [getPermissionsNoCache, if_pos hown.symm] at hno
        exact (Option.some.inj hp).symm.trans (Except.ok.inj hno).symm
      · exact henter.own p hp

theorem create_eq {userID : String} {a : AccessSolver}
    (h : create c userID = .ok a) : userPermissions c userID = .ok a.userMask ∧
      a.userID = userID ∧ a.cache = .empty := by
  unfold create at h
  cases hp : userPermissions c userID with
  | error e => rw [hp] at h; cases h
  | ok p =>
    rw [hp] at h
    cases h
    exact ⟨rfl, rfl, rfl⟩

theorem create_of_userPermissions {userID : String} {p : Permission}
    (h : userPermissions c userID = .ok p) :
    create c userID = .ok { userID, userMask := p, cache := .empty, currentTick := -1 } := by
  unfold create
  rw [h]
  rfl

theorem userPermissions_isOk (c : PrivacyContext) (userID : String) :
    (∃ p, userPermissions c userID = .ok p) ↔ c.skdbUserPermissions.index.isSome = true := by
  unfold userPermissions PermissionTable.getIndex
  cases hindex : c.skdbUserPermissions.index with
  | none => simp [bind, Except.bind]
  | some index =>
    simp only [bind, Except.bind, pure, Except.pure, Option.isSome_some, iff_true]
    cases PermissionTable.indexGet index (some userID) with
    | some x => exact ⟨_, rfl⟩
    | none =>
      cases PermissionTable.indexGet index none with
      | some x => exact ⟨_, rfl⟩
      | none => exact ⟨_, rfl⟩

/-- Masks that let the user do the same give permissions that do. -/
theorem noCache_sameRights {a b : AccessSolver} (hid : a.userID = b.userID)
    (h : a.userMask.SameRights b.userMask) (groupID : String) :
    (∃ p q, a.getPermissionsNoCache c groupID = .ok p ∧ b.getPermissionsNoCache c groupID = .ok q ∧
      p.SameRights q) ∨
    ∃ e, a.getPermissionsNoCache c groupID = .error e ∧
      b.getPermissionsNoCache c groupID = .error e := by
  unfold getPermissionsNoCache
  rw [hid]
  by_cases hg : groupID = b.userID
  · rw [if_pos hg, if_pos hg]
    exact .inl ⟨_, _, rfl, rfl, h⟩
  · rw [if_neg hg, if_neg hg]
    cases c.skdbGroupPermissions.getIndex with
    | error e => exact .inr ⟨e, rfl, rfl⟩
    | ok index =>
      simp only [bind, Except.bind, pure, Except.pure]
      split
      · exact .inl ⟨_, _, rfl, rfl, rfl, rfl, rfl⟩
      · next x _ => exact .inl ⟨_, _, rfl, rfl, Permission.sameRights_and h ⟨x⟩⟩

/-- A solver answers as one that remembers nothing exactly when their users' masks let them do the
same and what it remembers of this tick lets them do what it would read now. -/
theorem sameAnswers_iff {a b : AccessSolver} {userID : String} {mask : Permission}
    (ha : a.Created userID mask) (hb : b.userID = userID) (hfresh : b.currentTick ≠ c.tick) :
    a.SameAnswers b c ↔ mask.SameRights b.userMask ∧ a.UpToDate c := by
  have hid : a.userID = b.userID := ha.userID.trans hb.symm
  unfold SameAnswers canRead canInsert canDelete
  simp only [getPermissions_eq, if_neg hfresh]
  rw [← ha.userMask]
  constructor
  · intro h
    have hmask : a.userMask.SameRights b.userMask := by
      have hself := h a.userID
      have hown : (if a.currentTick = c.tick then (a.cache.maybeGet a.userID).elim
          (a.getPermissionsNoCache c a.userID) .ok else a.getPermissionsNoCache c a.userID) =
          .ok a.userMask := by
        have hno : a.getPermissionsNoCache c a.userID = .ok a.userMask := if_pos rfl
        rw [hno]
        cases hcache : a.cache.maybeGet a.userID with
        | none => exact ite_self _
        | some p =>
          rw [ha.own p hcache]
          exact ite_self _
      have hother : b.getPermissionsNoCache c a.userID = .ok b.userMask := if_pos hid
      rw [hown, hother] at hself
      simp only [Except.map, Except.ok.injEq] at hself
      exact hself
    refine ⟨hmask, fun htick groupID p hp => ?_⟩
    have hgroup := h groupID
    rw [if_pos htick, hp] at hgroup
    obtain ⟨q, q', hq, hq', hsame⟩ | ⟨e, hq, hq'⟩ := noCache_sameRights (c := c) hid hmask groupID
    · rw [hq'] at hgroup
      simp only [Option.elim_some, Except.map, Except.ok.injEq] at hgroup
      exact ⟨q, hq, hgroup.1.trans hsame.1.symm, hgroup.2.1.trans hsame.2.1.symm,
        hgroup.2.2.trans hsame.2.2.symm⟩
    · rw [hq'] at hgroup
      cases hgroup.1
  · rintro ⟨hmask, hcached⟩ groupID
    obtain ⟨q, q', hq, hq', hsame⟩ | ⟨e, hq, hq'⟩ := noCache_sameRights (c := c) hid hmask groupID
    · rw [hq, hq']
      by_cases htick : a.currentTick = c.tick
      · rw [if_pos htick]
        cases hget : a.cache.maybeGet groupID with
        | none =>
          simp only [Option.elim_none, Except.map, Except.ok.injEq]
          exact hsame
        | some p =>
          obtain ⟨r, hr, hp⟩ := hcached htick groupID p hget
          obtain rfl := Except.ok.inj (hq.symm.trans hr)
          simp only [Option.elim_some, Except.map, Except.ok.injEq]
          exact ⟨hp.1.trans hsame.1, hp.2.1.trans hsame.2.1, hp.2.2.trans hsame.2.2⟩
      · rw [if_neg htick]
        simp only [Except.map, Except.ok.injEq]
        exact hsame
    · rw [hq, hq']
      by_cases htick : a.currentTick = c.tick
      · rw [if_pos htick]
        cases hget : a.cache.maybeGet groupID with
        | none => exact ⟨rfl, rfl, rfl⟩
        | some p =>
          obtain ⟨r, hr, -⟩ := hcached htick groupID p hget
          rw [hq] at hr
          cases hr
      · rw [if_neg htick]
        exact ⟨rfl, rfl, rfl⟩

end AccessSolver

structure PrivacyState where
  context : PrivacyContext
  solvers : List AccessSolver

namespace PrivacyState
open AccessSolver

/-- Writes change the rows of a table, whatever they are, also in the middle of an update; the
indexes follow one by one in an update, which ends with `update`. A check and a clone name the
solver by its place. -/
inductive Action where
  | writeUserPermissions (rows : List (Option String × BitVec 64))
  | writeGroupPermissions (rows : List ((String × Option String) × BitVec 64))
  | createGroupIndex
  | updateUserIndex
  | updateGroupIndex
  | update
  | check (i : ℕ) (groupID : String)
  | clone (i : ℕ)

def setContext (s : PrivacyState) : Except String PrivacyContext → PrivacyState
  | .error _ => s
  | .ok c => { s with context := c }

def step (s : PrivacyState) : Action → PrivacyState
  | .writeUserPermissions rows =>
    { s with context.skdbUserPermissions.rows := rows }
  | .writeGroupPermissions rows =>
    { s with context.skdbGroupPermissions.rows := rows }
  | .createGroupIndex =>
    s.setContext (s.context.skdbGroupPermissions.createIndex.map fun t =>
      { s.context with skdbGroupPermissions := t })
  | .updateUserIndex => s.setContext s.context.updateUserIndex
  | .updateGroupIndex => s.setContext s.context.updateGroupIndex
  | .update => s.setContext s.context.update
  | .check i groupID =>
    { s with solvers := s.solvers.modify i fun a => (a.getPermissions s.context groupID).2 }
  | .clone i => { s with solvers := s.solvers ++ (s.solvers[i]?).toList }

def run (s : PrivacyState) (actions : List Action) : PrivacyState := actions.foldl step s

/-- The users' index stays there, and every solver is as it was created. -/
structure Inv (userID : String) (mask : Permission) (s : PrivacyState) : Prop where
  initialized : s.context.skdbUserPermissions.index.isSome = true
  created : ∀ a ∈ s.solvers, a.Created userID mask

variable {userID : String} {mask : Permission} {s : PrivacyState}

theorem inv_setContext (h : s.Inv userID mask) {r : Except String PrivacyContext}
    (hr : ∀ c, r = .ok c → c.skdbUserPermissions.index.isSome =
      s.context.skdbUserPermissions.index.isSome) : (s.setContext r).Inv userID mask := by
  cases r with
  | error e => exact h
  | ok c => exact ⟨(hr c rfl).trans h.initialized, h.created⟩

theorem index_updateUserIndex {c c' : PrivacyContext} (h : c.updateUserIndex = .ok c') :
    c'.skdbUserPermissions.index.isSome = c.skdbUserPermissions.index.isSome := by
  unfold PrivacyContext.updateUserIndex at h
  cases hu : c.skdbUserPermissions.update with
  | error e =>
    rw [hu] at h
    cases h
  | ok users =>
    rw [hu] at h
    cases h
    exact PermissionTable.index_isSome_update hu

theorem users_updateGroupIndex {c c' : PrivacyContext} (h : c.updateGroupIndex = .ok c') :
    c'.skdbUserPermissions = c.skdbUserPermissions := by
  unfold PrivacyContext.updateGroupIndex at h
  cases hg : c.skdbGroupPermissions.update with
  | error e =>
    rw [hg] at h
    cases h
  | ok groups =>
    rw [hg] at h
    cases h
    rfl

theorem index_update {c c' : PrivacyContext} (h : c.update = .ok c') :
    c'.skdbUserPermissions.index.isSome = c.skdbUserPermissions.index.isSome := by
  unfold PrivacyContext.update at h
  cases hu : c.updateUserIndex with
  | error e =>
    rw [hu] at h
    cases h
  | ok c₁ =>
    cases hg : c₁.updateGroupIndex with
    | error e =>
      simp only [hu, bind, Except.bind, hg] at h
      cases h
    | ok c₂ =>
      simp only [hu, bind, Except.bind, hg] at h
      cases h
      rw [← index_updateUserIndex hu, ← users_updateGroupIndex hg]

theorem inv_step (h : s.Inv userID mask) (action : Action) : (s.step action).Inv userID mask := by
  cases action with
  | writeUserPermissions rows => exact ⟨h.initialized, h.created⟩
  | writeGroupPermissions rows => exact ⟨h.initialized, h.created⟩
  | createGroupIndex =>
    refine inv_setContext h fun c hc => ?_
    cases ht : s.context.skdbGroupPermissions.createIndex with
    | error e => rw [ht] at hc; cases hc
    | ok t =>
      rw [ht] at hc
      cases hc
      rfl
  | updateUserIndex => exact inv_setContext h fun c hc => index_updateUserIndex hc
  | updateGroupIndex =>
    exact inv_setContext h fun c hc => by rw [users_updateGroupIndex hc]
  | update => exact inv_setContext h fun c hc => index_update hc
  | check i groupID =>
    refine ⟨h.initialized, fun a ha => ?_⟩
    obtain ⟨j, hj⟩ := List.getElem?_of_mem ha
    simp only [step, List.getElem?_modify] at hj
    cases hs : s.solvers[j]? with
    | none => simp [hs] at hj
    | some b =>
      have hb := h.created b (List.mem_of_getElem? hs)
      by_cases hij : i = j
      · simp [hs, hij] at hj
        exact hj ▸ created_getPermissions hb s.context groupID
      · simp [hs, hij] at hj
        exact hj ▸ hb
  | clone i =>
    refine ⟨h.initialized, fun a ha => ?_⟩
    simp only [step, List.mem_append, Option.mem_toList] at ha
    rcases ha with ha | ha
    · exact h.created a ha
    · exact h.created a (List.mem_of_getElem? ha)

theorem inv_run (h : s.Inv userID mask) (actions : List Action) :
    (s.run actions).Inv userID mask := by
  induction actions generalizing s with
  | nil => exact h
  | cons action actions ih => exact ih (inv_step h action)

theorem inv_create {c : PrivacyContext} {a : AccessSolver} (h : create c userID = .ok a) :
    Inv userID a.userMask ⟨c, [a]⟩ := by
  obtain ⟨hmask, hid, hcache⟩ := create_eq h
  refine ⟨(userPermissions_isOk c userID).mp ⟨_, hmask⟩, fun b hb => ?_⟩
  rw [List.mem_singleton.mp hb]
  refine ⟨hid, rfl, fun p hp => ?_⟩
  rw [hcache] at hp
  cases hp

/-- However checks, writes, steps of updates and clones follow each other, a solver answers as one
that is created now exactly when the user's permissions are now what they were when it was
created and what it remembers of this tick is up to date. -/
theorem sameAnswers_create_iff {c : PrivacyContext} {a₀ : AccessSolver}
    (hcreate : create c userID = .ok a₀) (actions : List Action) :
    ∀ a ∈ (run ⟨c, [a₀]⟩ actions).solvers, ∃ before now fresh,
      userPermissions c userID = .ok before ∧
      userPermissions (run ⟨c, [a₀]⟩ actions).context userID = .ok now ∧
      create (run ⟨c, [a₀]⟩ actions).context userID = .ok fresh ∧
      (a.SameAnswers fresh (run ⟨c, [a₀]⟩ actions).context ↔
        before.SameRights now ∧ a.UpToDate (run ⟨c, [a₀]⟩ actions).context) := by
  intro a ha
  have hinv := inv_run (inv_create hcreate) actions
  obtain ⟨now, hnow⟩ := (userPermissions_isOk _ userID).mpr hinv.initialized
  refine ⟨a₀.userMask, now, _, (create_eq hcreate).1, hnow, create_of_userPermissions hnow, ?_⟩
  exact sameAnswers_iff (hinv.created a ha) rfl (by simp only; omega)

def sampleContext : PrivacyContext := ⟨1, ⟨[], some []⟩, ⟨[], some []⟩⟩

def sampleSolver : AccessSolver := ⟨"ann", .all, .empty, -1⟩

def sampleActions : List Action := [.writeUserPermissions [(some "ann", 0)], .update]

theorem sameAnswers_create_iff_sample : create sampleContext "ann" = .ok sampleSolver ∧
    ∃ before now fresh, userPermissions sampleContext "ann" = .ok before ∧
      userPermissions (run ⟨sampleContext, [sampleSolver]⟩ sampleActions).context "ann" = .ok now ∧
      create (run ⟨sampleContext, [sampleSolver]⟩ sampleActions).context "ann" = .ok fresh ∧
      (sampleSolver.SameAnswers fresh (run ⟨sampleContext, [sampleSolver]⟩ sampleActions).context ↔
        before.SameRights now ∧
          sampleSolver.UpToDate (run ⟨sampleContext, [sampleSolver]⟩ sampleActions).context) :=
  ⟨rfl, sameAnswers_create_iff rfl sampleActions sampleSolver
    (List.mem_cons_self : sampleSolver ∈ [sampleSolver])⟩

/-- Once the user's permissions are taken away, a solver from before still lets the user
read. -/
theorem canRead_after_restriction :
    ∃ fresh, create (run ⟨sampleContext, [sampleSolver]⟩ sampleActions).context "ann" = .ok fresh ∧
      (run ⟨sampleContext, [sampleSolver]⟩ sampleActions).solvers = [sampleSolver] ∧
      create sampleContext "ann" = .ok sampleSolver ∧
      sampleSolver.canRead (run ⟨sampleContext, [sampleSolver]⟩ sampleActions).context "ann" =
        .ok true ∧
      fresh.canRead (run ⟨sampleContext, [sampleSolver]⟩ sampleActions).context "ann" = .ok false :=
  ⟨⟨"ann", ⟨0⟩, .empty, -1⟩, rfl, rfl, rfl, rfl, rfl⟩

end PrivacyState
end SkipPlatform
