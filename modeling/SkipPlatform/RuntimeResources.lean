import Mathlib.Data.Prod.Lex
import SkipPlatform.StoreResolve

set_option autoImplicit false

/-! The resources of a running service: their instances, the sessions subscribed to them,
the garbage that waits to be destroyed, and the operations that change these. -/
namespace SkipPlatform.Resources
open List

structure ResourceDef (J : Type) where
  name : String
  params : J

instance {J : Type} [LinearOrder J] : LinearOrder (ResourceDef J) :=
  LinearOrder.lift' (fun d => toLex (d.name, d.params)) (by
    intro a b h
    have h' : (a.name, a.params) = (b.name, b.params) := h
    cases a
    cases b
    cases h'
    rfl)

structure ResourceInfo (D : Type) where
  dirName : D
  session : String

/-- What a service is asked about its resources; `instantiate` is `buildResource` and the
instantiation of what it builds. -/
structure Service (J D E : Type) where
  needResourceReload : String → Option Bool
  instantiate : ResourceDef J → Except (Exn E) D

structure ServiceDefinition (J D E : Type) where
  runId : String
  service : Service J D E

structure Notifier (E : Type) where
  subscribed : Except (Exn E) Unit
  notify : Except (Exn E) Unit
  close : Except (Exn E) Unit

structure Session (J E : Type) where
  definition : ResourceDef J
  start : ℤ
  notifier : Notifier E

/-- `indexed` is what the directories of identifiers by resource were last computed from. -/
structure Runtime (J D E : Type) [LinearOrder J] where
  resources : SortedMap String (ResourceDef J)
  garbage : SortedMap String ℤ
  sessions : SortedMap String (Session J E)
  service : Option (ServiceDefinition J D E)
  indexed : SortedMap String (ResourceDef J)
  collections : SortedMap (ResourceDef J) (ResourceInfo D)

def kGarbageMillis : ℤ := 30000

def toNatOption (chars : List Char) : Option ℕ :=
  if chars.isEmpty || chars.any (fun c => !c.isDigit) then none
  else some (chars.foldl (fun n c => 10 * n + (c.toNat - 48)) 0)

def toIntOption : List Char → Option ℤ
  | '-' :: chars => (toNatOption chars).map fun n => -(n : ℤ)
  | chars => (toNatOption chars).map fun n => (n : ℤ)

section Operations
variable {J D E : Type} [LinearOrder J]

namespace Runtime

def empty : Runtime J D E := ⟨.empty, .empty, .empty, none, .empty, .empty⟩

def idbyresource (s : Runtime J D E) (definition : ResourceDef J) : List String :=
  (s.indexed.items.filter fun x => decide (x.2 = definition)).map Prod.fst

def availables (s : Runtime J D E) : SortedSet (ResourceDef J) :=
  s.indexed.items.foldl (fun set x => set.set x.2 ()) .empty

def buildCollections (service : Option (ServiceDefinition J D E)) (definitions : List (ResourceDef J)) :
    Except (Exn E) (SortedMap (ResourceDef J) (ResourceInfo D)) :=
  match service with
  | none => .ok .empty
  | some definition =>
    definitions.foldlM (fun m key =>
      (definition.service.instantiate key).map fun dirName =>
        m.set key ⟨dirName, definition.runId⟩) .empty

def update (s : Runtime J D E) : Except (Exn E) (Runtime J D E) :=
  let s := { s with indexed := s.resources }
  (buildCollections s.service s.availables.keys).map fun collections =>
    { s with collections := collections }

def checkGarbage (s : Runtime J D E) (time : ℤ) : Except (Exn E) (Runtime J D E) :=
  let destroyed := (s.garbage.items.filter fun x => decide (kGarbageMillis < time - x.2)).map Prod.fst
  let s' := { s with
    resources := destroyed.foldl SortedMap.remove s.resources
    garbage := destroyed.foldl SortedMap.remove s.garbage }
  if destroyed.isEmpty then .ok s' else s'.update

def updateContext (s : Runtime J D E) (time : ℤ) : Except (Exn E) (Runtime J D E) :=
  s.update.bind fun s => s.checkGarbage time

def destroyReactiveResources (s : Runtime J D E) (keys : List String) : Runtime J D E :=
  { s with
    resources := keys.foldl SortedMap.remove s.resources
    garbage := keys.foldl SortedMap.remove s.garbage }

/-- `closeReactiveResource` when no session is subscribed. -/
def closeUnsubscribed (s : Runtime J D E) (identifier : String) (time : ℤ) :
    Except (Exn E) (Runtime J D E) :=
  if s.garbage.containsKey identifier then .ok s
  else { s with garbage := s.garbage.set identifier time }.updateContext time

def unsubscribe (s : Runtime J D E) (session : String) (time : ℤ) : Except (Exn E) (Runtime J D E) :=
  match s.sessions.maybeGet session with
  | none => .ok s
  | some sub => sub.notifier.close.bind fun _ =>
    { s with sessions := s.sessions.remove session }.closeUnsubscribed session time

def closeReactiveResource (s : Runtime J D E) (identifier : String) (time : ℤ) :
    Except (Exn E) (Runtime J D E) :=
  if s.sessions.containsKey identifier then s.unsubscribe identifier time
  else s.closeUnsubscribed identifier time

def startOf (info : ResourceInfo D) (optWatermark : Option String) : Except (Exn E) ℤ :=
  let start := (info.session ++ "/").toList
  match optWatermark with
  | some watermark =>
    if start.isPrefixOf watermark.toList then
      let digits := watermark.toList.drop start.length
      match toIntOption digits with
      | some tick => .ok tick
      | none => .error (.violation ("String.toInt: parse error on '" ++ String.ofList digits ++ "'"))
    else .ok 0
  | none => .ok 0

def reclaim (s : Runtime J D E) (identifier : String) : Except (Exn E) (Runtime J D E) :=
  if s.garbage.containsKey identifier then
    { s with garbage := s.garbage.remove identifier }.update
  else .ok s

def subscribe (s : Runtime J D E) (identifier : String) (notifier : Notifier E)
    (optWatermark : Option String) (time : ℤ) : Except (Exn E) (ℤ × Runtime J D E) :=
  if s.sessions.containsKey identifier then .ok (-2, s)
  else match s.resources.maybeGet identifier with
  | none => .ok (-1, s)
  | some definition =>
    match s.collections.maybeGet definition with
    | none => .error (.violation "Error: No value for keys")
    | some info => do
      let start ← startOf info optWatermark
      notifier.subscribed
      notifier.notify
      let s := { s with sessions := s.sessions.set identifier ⟨definition, start, notifier⟩ }
      let s ← s.reclaim identifier
      let s ← s.checkGarbage time
      return (0, s)

def createReactiveResource (s : Runtime J D E) (identifier resource : String) (params : J)
    (time : ℤ) : Except (Exn E) (Runtime J D E) :=
  if s.resources.containsKey identifier then
    .error (.violation "A resource instance with specified identifier already exists.")
  else { s with resources := s.resources.set identifier ⟨resource, params⟩ }.updateContext time

def changedTypes (s : Runtime J D E) (service : Service J D E) : List String :=
  (s.availables.keys.filter fun key => (service.needResourceReload key.name).isNone).flatMap
    s.idbyresource

def reload (s : Runtime J D E) (service : Service J D E) (time : ℤ) :
    Except (Exn E) (List String × Runtime J D E) :=
  match s.service with
  | none => .error (.violation "No service loaded")
  | some current =>
    let toclose := s.changedTypes service
    let s := { s.destroyReactiveResources toclose with service := some ⟨current.runId, service⟩ }
    (s.updateContext time).map fun s => (toclose, s)

def closeReactiveSessions (s : Runtime J D E) (sessions : List String) :
    Except (Exn E) (Runtime J D E) :=
  sessions.foldlM (fun s session =>
    match s.sessions.maybeGet session with
    | none => .ok s
    | some sub => sub.notifier.close.map fun _ =>
      { s with sessions := s.sessions.remove session }) s

def initService (s : Runtime J D E) (runId : String) (service : Service J D E) (time : ℤ) :
    Except (Exn E) (Runtime J D E) :=
  if s.service.isSome then .error (.violation "Service already loaded")
  else { s with service := some ⟨runId, service⟩ }.updateContext time

def closeService (s : Runtime J D E) : Except (Exn E) (Runtime J D E) :=
  let todestroy := s.resources.keys
  ((s.destroyReactiveResources todestroy).closeReactiveSessions todestroy).bind fun s =>
    { s with service := none }.update

/-- `dirNameGetter`: the directory that a session is notified of. -/
def dirNameGetter (s : Runtime J D E) (session : Session J E) : Except (Exn E) D :=
  match s.collections.maybeGet session.definition with
  | some info => .ok info.dirName
  | none => .error (.violation "assert")

end Runtime

inductive Operation (J D E : Type) where
  | createReactiveResource (identifier resource : String) (params : J)
  | subscribe (identifier : String) (notifier : Notifier E) (optWatermark : Option String)
  | unsubscribe (session : String)
  | closeReactiveResource (identifier : String)
  | closeReactiveSessions (sessions : List String)
  | updateContext
  | reload (service : Service J D E)
  | initService (runId : String) (service : Service J D E)
  | closeService

namespace Runtime

/-- A transaction on the runtime: the sessions that are left to close, and the state. -/
def perform (s : Runtime J D E) (time : ℤ) :
    Operation J D E → Except (Exn E) (List String × Runtime J D E)
  | .createReactiveResource identifier resource params =>
    (s.createReactiveResource identifier resource params time).map fun s => ([], s)
  | .subscribe identifier notifier optWatermark =>
    (s.subscribe identifier notifier optWatermark time).map fun r => ([], r.2)
  | .unsubscribe session => (s.unsubscribe session time).map fun s => ([], s)
  | .closeReactiveResource identifier =>
    (s.closeReactiveResource identifier time).map fun s => ([], s)
  | .closeReactiveSessions sessions => (s.closeReactiveSessions sessions).map fun s => ([], s)
  | .updateContext => (s.updateContext time).map fun s => ([], s)
  | .reload service => s.reload service time
  | .initService runId service => (s.initService runId service time).map fun s => ([], s)
  | .closeService => s.closeService.map fun s => ([], s)

end Runtime

/-- A runtime, and the open sessions whose resources a reload has destroyed. -/
structure Tracked (J D E : Type) [LinearOrder J] where
  runtime : Runtime J D E
  toclose : List String

def Tracked.step (t : Tracked J D E) (op : ℤ × Operation J D E) : Tracked J D E :=
  match t.runtime.perform op.1 op.2 with
  | .ok (toclose, s) => ⟨s, (t.toclose ++ toclose).filter s.sessions.containsKey⟩
  | .error _ => t

def Tracked.run (t : Tracked J D E) (ops : List (ℤ × Operation J D E)) : Tracked J D E :=
  ops.foldl Tracked.step t

theorem bind_ok {α β : Type} {x : Except (Exn E) α} {f : α → Except (Exn E) β} {b : β}
    (h : x.bind f = .ok b) : ∃ a, x = .ok a ∧ f a = .ok b := by
  cases x with
  | error exn => cases h
  | ok a => exact ⟨a, rfl, h⟩

theorem maybeGet_foldl_remove {K V : Type} [LinearOrder K] (keys : List K) (m : SortedMap K V)
    (k : K) : (keys.foldl SortedMap.remove m).maybeGet k =
      if k ∈ keys then none else m.maybeGet k := by
  induction keys generalizing m with
  | nil => rfl
  | cons key keys ih =>
    rw [foldl_cons, ih, SortedMap.maybeGet_remove]
    by_cases hk : k = key
    · have hmem : k ∈ key :: keys := by
        rw [hk]
        exact mem_cons_self
      rw [if_pos hk, if_pos hmem, ite_self]
    · rw [if_neg hk]
      by_cases hin : k ∈ keys
      · rw [if_pos hin, if_pos (mem_cons_of_mem key hin)]
      · rw [if_neg hin, if_neg]
        intro hmem
        rcases mem_cons.mp hmem with he | he
        · exact hk he
        · exact hin he

variable {s : Runtime J D E}

theorem mem_availables {definition : ResourceDef J} :
    definition ∈ s.availables.keys ↔ ∃ id, s.indexed.maybeGet id = some definition := by
  have hfold : ∀ (xs : List (String × ResourceDef J)) (set : SortedSet (ResourceDef J)),
      definition ∈ (xs.foldl (fun set x => set.set x.2 ()) set).keys ↔
        definition ∈ set.keys ∨ ∃ x ∈ xs, x.2 = definition := by
    intro xs
    induction xs with
    | nil =>
      intro set
      simp
    | cons x xs ih =>
      intro set
      rw [foldl_cons, ih]
      simp only [SortedMap.mem_keys, SortedMap.maybeGet_set, mem_cons, exists_eq_or_imp]
      by_cases hx : definition = x.2
      · simp [hx]
      · rw [if_neg hx]
        simp [Ne.symm hx]
  unfold Runtime.availables
  rw [hfold]
  constructor
  · intro h
    rcases h with h | ⟨x, hx, he⟩
    · cases h
    · exact ⟨x.1, SortedMap.maybeGet_eq_some.mpr (he ▸ hx)⟩
  · intro h
    obtain ⟨id, hid⟩ := h
    exact Or.inr ⟨(id, definition), SortedMap.maybeGet_eq_some.mp hid, rfl⟩

theorem buildCollections_spec {definition : ServiceDefinition J D E}
    {definitions : List (ResourceDef J)} {m : SortedMap (ResourceDef J) (ResourceInfo D)}
    (h : Runtime.buildCollections (some definition) definitions = .ok m) :
    ∀ key ∈ definitions, ∃ info, m.maybeGet key = some info := by
  have hfold : ∀ (keys : List (ResourceDef J)) (m₀ : SortedMap (ResourceDef J) (ResourceInfo D)),
      keys.foldlM (fun m key => (definition.service.instantiate key).map fun dirName =>
        m.set key (⟨dirName, definition.runId⟩ : ResourceInfo D)) m₀ = .ok m →
      ∀ key, (key ∈ keys ∨ ∃ info, m₀.maybeGet key = some info) →
        ∃ info, m.maybeGet key = some info := by
    intro keys
    induction keys with
    | nil =>
      intro m₀ h key hkey
      cases h
      exact hkey.resolve_left not_mem_nil
    | cons first keys ih =>
      intro m₀ h key hkey
      rw [foldlM_cons] at h
      cases hinst : definition.service.instantiate first with
      | error exn =>
        rw [hinst] at h
        cases h
      | ok dirName =>
        rw [hinst] at h
        apply ih _ h key
        rw [SortedMap.maybeGet_set]
        by_cases hfirst : key = first
        · rw [if_pos hfirst]
          exact Or.inr ⟨_, rfl⟩
        · rw [if_neg hfirst]
          rcases hkey with hkey | hkey
          · exact Or.inl ((mem_cons.mp hkey).resolve_left hfirst)
          · exact Or.inr hkey
  intro key hkey
  exact hfold definitions .empty h key (Or.inl hkey)

structure Updated (s : Runtime J D E) : Prop where
  indexed : s.indexed = s.resources
  built : s.service.isSome = true → ∀ id definition, s.resources.maybeGet id = some definition →
    ∃ info, s.collections.maybeGet definition = some info
  unloaded : s.service.isSome = false → ∀ definition, s.collections.maybeGet definition = none

/-- An open session is not in the garbage, and its resource is there unless the session is
to be closed. -/
structure Open (toclose : List String) (s : Runtime J D E) : Prop where
  kept : ∀ id session, s.sessions.maybeGet id = some session → s.garbage.maybeGet id = none
  found : ∀ id session, s.sessions.maybeGet id = some session → id ∉ toclose →
    s.resources.maybeGet id = some session.definition
  loaded : ∀ id session, s.sessions.maybeGet id = some session → id ∉ toclose →
    s.service.isSome = true

theorem Open.mono {toclose toclose' : List String} (h : Open toclose s)
    (hsub : ∀ id session, s.sessions.maybeGet id = some session → id ∈ toclose → id ∈ toclose') :
    Open toclose' s :=
  ⟨h.kept, fun id session hid hno => h.found id session hid fun hin => hno (hsub id session hid hin),
    fun id session hid hno => h.loaded id session hid fun hin => hno (hsub id session hid hin)⟩

theorem update_spec {s s' : Runtime J D E} (h : s.update = .ok s') :
    Updated s' ∧ s'.resources = s.resources ∧ s'.garbage = s.garbage ∧
      s'.sessions = s.sessions ∧ s'.service = s.service := by
  unfold Runtime.update at h
  simp only at h
  cases hbuild : Runtime.buildCollections s.service
      ({ s with indexed := s.resources } : Runtime J D E).availables.keys with
  | error exn =>
    rw [hbuild] at h
    cases h
  | ok m =>
    rw [hbuild] at h
    cases h
    refine ⟨⟨rfl, ?_, ?_⟩, rfl, rfl, rfl, rfl⟩
    · intro hsome id definition hid
      obtain ⟨service, hservice⟩ := Option.isSome_iff_exists.mp hsome
      have hservice' : s.service = some service := hservice
      rw [hservice'] at hbuild
      exact buildCollections_spec hbuild definition (mem_availables.mpr ⟨id, hid⟩)
    · intro hnone definition
      have hservice : s.service = none := by
        cases hs : s.service with
        | none => rfl
        | some service =>
          have hsome : s.service.isSome = false := hnone
          rw [hs] at hsome
          cases hsome
      rw [hservice] at hbuild
      cases hbuild
      rfl

theorem checkGarbage_spec {s s' : Runtime J D E} {time : ℤ} (hu : Updated s)
    (h : s.checkGarbage time = .ok s') :
    Updated s' ∧ s'.sessions = s.sessions ∧ s'.service = s.service ∧
      ∀ id, s.garbage.maybeGet id = none →
        s'.garbage.maybeGet id = none ∧ s'.resources.maybeGet id = s.resources.maybeGet id := by
  unfold Runtime.checkGarbage at h
  simp only at h
  set destroyed :=
    (s.garbage.items.filter fun x => decide (kGarbageMillis < time - x.2)).map Prod.fst with hd
  have hkept : ∀ id, s.garbage.maybeGet id = none → id ∉ destroyed := by
    intro id hid hmem
    rw [hd] at hmem
    obtain ⟨x, hx, he⟩ := mem_map.mp hmem
    have hitem := (mem_filter.mp hx).1
    rw [← he] at hid
    have hfound : s.garbage.maybeGet x.1 = some x.2 := SortedMap.maybeGet_eq_some.mpr hitem
    rw [hid] at hfound
    cases hfound
  have hfields : ∀ id, s.garbage.maybeGet id = none →
      (destroyed.foldl SortedMap.remove s.garbage).maybeGet id = none ∧
        (destroyed.foldl SortedMap.remove s.resources).maybeGet id = s.resources.maybeGet id := by
    intro id hid
    rw [maybeGet_foldl_remove, maybeGet_foldl_remove, if_neg (hkept id hid), if_neg (hkept id hid)]
    exact ⟨hid, rfl⟩
  split_ifs at h with hempty
  · cases h
    have hnil : destroyed = [] := List.isEmpty_iff.mp hempty
    refine ⟨?_, rfl, rfl, hfields⟩
    rw [hnil]
    exact ⟨hu.indexed, hu.built, hu.unloaded⟩
  · obtain ⟨hu', hr, hg, hs, hv⟩ := update_spec h
    refine ⟨hu', hs, hv, ?_⟩
    rw [hr, hg]
    exact hfields

theorem Open.checkGarbage {toclose : List String} {s s' : Runtime J D E} {time : ℤ}
    (ho : Open toclose s) (hu : Updated s) (h : s.checkGarbage time = .ok s') :
    Open toclose s' ∧ Updated s' := by
  obtain ⟨hu', hs, hv, hfields⟩ := checkGarbage_spec hu h
  refine ⟨⟨?_, ?_, ?_⟩, hu'⟩
  · intro id session hid
    rw [hs] at hid
    exact (hfields id (ho.kept id session hid)).1
  · intro id session hid hno
    rw [hs] at hid
    rw [(hfields id (ho.kept id session hid)).2]
    exact ho.found id session hid hno
  · intro id session hid hno
    rw [hs] at hid
    rw [hv]
    exact ho.loaded id session hid hno

theorem Open.update {toclose : List String} {s s' : Runtime J D E} (ho : Open toclose s)
    (h : s.update = .ok s') : Open toclose s' ∧ Updated s' := by
  obtain ⟨hu', hr, hg, hs, hv⟩ := update_spec h
  refine ⟨⟨?_, ?_, ?_⟩, hu'⟩
  · rw [hs, hg]
    exact ho.kept
  · rw [hs, hr]
    exact ho.found
  · rw [hs, hv]
    exact ho.loaded

theorem Open.updateContext {toclose : List String} {s s' : Runtime J D E} {time : ℤ}
    (ho : Open toclose s) (h : s.updateContext time = .ok s') : Open toclose s' ∧ Updated s' := by
  unfold Runtime.updateContext at h
  cases hupdate : s.update with
  | error exn =>
    rw [hupdate] at h
    cases h
  | ok s₁ =>
    rw [hupdate] at h
    obtain ⟨ho₁, hu₁⟩ := ho.update hupdate
    exact ho₁.checkGarbage hu₁ h

section Steps
variable {toclose : List String} {s s' : Runtime J D E} {time : ℤ}

theorem Open.closeUnsubscribed (ho : Open toclose s) (hu : Updated s) {identifier : String}
    (hno : s.sessions.maybeGet identifier = none)
    (h : s.closeUnsubscribed identifier time = .ok s') : Open toclose s' ∧ Updated s' := by
  unfold Runtime.closeUnsubscribed at h
  split_ifs at h
  · cases h
    exact ⟨ho, hu⟩
  · apply Open.updateContext _ h
    refine ⟨?_, ho.found, ho.loaded⟩
    intro id session hid
    have hne : id ≠ identifier := by
      intro he
      rw [he] at hid
      cases hno.symm.trans hid
    change (s.garbage.set identifier time).maybeGet id = none
    rw [SortedMap.maybeGet_set, if_neg hne]
    exact ho.kept id session hid

theorem Open.removeSession (ho : Open toclose s) (session : String) :
    Open toclose { s with sessions := s.sessions.remove session } := by
  have hold : ∀ id sub, (s.sessions.remove session).maybeGet id = some sub →
      s.sessions.maybeGet id = some sub := by
    intro id sub hid
    rw [SortedMap.maybeGet_remove] at hid
    split_ifs at hid
    exact hid
  exact ⟨fun id sub hid => ho.kept id sub (hold id sub hid),
    fun id sub hid => ho.found id sub (hold id sub hid),
    fun id sub hid => ho.loaded id sub (hold id sub hid)⟩

theorem Open.unsubscribe (ho : Open toclose s) (hu : Updated s) {session : String}
    (h : s.unsubscribe session time = .ok s') : Open toclose s' ∧ Updated s' := by
  unfold Runtime.unsubscribe at h
  split at h
  · cases h
    exact ⟨ho, hu⟩
  · rename_i sub hsub
    cases hclose : sub.notifier.close with
    | error exn =>
      rw [hclose] at h
      cases h
    | ok _ =>
      rw [hclose] at h
      apply (ho.removeSession session).closeUnsubscribed ⟨hu.indexed, hu.built, hu.unloaded⟩ _ h
      change (s.sessions.remove session).maybeGet session = none
      rw [SortedMap.maybeGet_remove, if_pos rfl]

theorem Open.closeReactiveResource (ho : Open toclose s) (hu : Updated s) {identifier : String}
    (h : s.closeReactiveResource identifier time = .ok s') : Open toclose s' ∧ Updated s' := by
  unfold Runtime.closeReactiveResource at h
  split_ifs at h with hopen
  · exact ho.unsubscribe hu h
  · apply ho.closeUnsubscribed hu _ h
    rw [SortedMap.containsKey_eq, Bool.not_eq_true, Option.isSome_eq_false_iff,
      Option.isNone_iff_eq_none] at hopen
    exact hopen

theorem Open.subscribe (ho : Open toclose s) (hu : Updated s) {identifier : String}
    {notifier : Notifier E} {optWatermark : Option String} {code : ℤ}
    (h : s.subscribe identifier notifier optWatermark time = .ok (code, s')) :
    Open toclose s' ∧ Updated s' := by
  unfold Runtime.subscribe at h
  split_ifs at h with hopen
  · cases h
    exact ⟨ho, hu⟩
  split at h
  · cases h
    exact ⟨ho, hu⟩
  rename_i definition hdefinition
  split at h
  · cases h
  rename_i info hinfo
  have hloaded : s.service.isSome = true := by
    by_contra hno
    have hnone := hu.unloaded (Bool.not_eq_true _ ▸ hno) definition
    rw [hinfo] at hnone
    cases hnone
  obtain ⟨start, _, h⟩ := bind_ok h
  obtain ⟨_, _, h⟩ := bind_ok h
  obtain ⟨_, _, h⟩ := bind_ok h
  obtain ⟨s₁, hs₁, h⟩ := bind_ok h
  obtain ⟨s₂, hs₂, h⟩ := bind_ok h
  cases h
  set session : Session J E := ⟨definition, start, notifier⟩ with hsession
  have hfound : ∀ id sub, (s.sessions.set identifier session).maybeGet id = some sub →
      id = identifier ∧ sub = session ∨ id ≠ identifier ∧ s.sessions.maybeGet id = some sub := by
    intro id sub hid
    rw [SortedMap.maybeGet_set] at hid
    by_cases hne : id = identifier
    · rw [if_pos hne] at hid
      exact Or.inl ⟨hne, (Option.some.inj hid).symm⟩
    · rw [if_neg hne] at hid
      exact Or.inr ⟨hne, hid⟩
  have hopened : ∀ garbage : SortedMap String ℤ, garbage.maybeGet identifier = none →
      (∀ id, id ≠ identifier → garbage.maybeGet id = s.garbage.maybeGet id) →
        Open toclose { s with sessions := s.sessions.set identifier session, garbage := garbage } := by
    intro garbage hnone hothers
    constructor
    · intro id sub hid
      rcases hfound id sub hid with ⟨he, _⟩ | ⟨hne, hold⟩
      · rw [he]
        exact hnone
      · exact (hothers id hne).trans (ho.kept id sub hold)
    · intro id sub hid hno
      rcases hfound id sub hid with ⟨he, hsub⟩ | ⟨_, hold⟩
      · rw [he, hsub]
        exact hdefinition
      · exact ho.found id sub hold hno
    · intro id sub hid hno
      exact hloaded
  have hready : Open toclose s₁ ∧ Updated s₁ := by
    unfold Runtime.reclaim at hs₁
    split_ifs at hs₁ with hgarbage
    · apply Open.update _ hs₁
      apply hopened (s.garbage.remove identifier)
      · rw [SortedMap.maybeGet_remove, if_pos rfl]
      · intro id hne
        rw [SortedMap.maybeGet_remove, if_neg hne]
    · cases hs₁
      rw [SortedMap.containsKey_eq, Bool.not_eq_true, Option.isSome_eq_false_iff,
        Option.isNone_iff_eq_none] at hgarbage
      exact ⟨hopened s.garbage hgarbage fun _ _ => rfl, ⟨hu.indexed, hu.built, hu.unloaded⟩⟩
  exact hready.1.checkGarbage hready.2 hs₂

theorem Open.createReactiveResource (ho : Open toclose s) {identifier resource : String} {params : J}
    (h : s.createReactiveResource identifier resource params time = .ok s') :
    Open toclose s' ∧ Updated s' := by
  unfold Runtime.createReactiveResource at h
  split_ifs at h with hexists
  apply Open.updateContext _ h
  refine ⟨ho.kept, ?_, ho.loaded⟩
  intro id session hid hno
  have hold := ho.found id session hid hno
  have hne : id ≠ identifier := by
    intro he
    apply hexists
    rw [SortedMap.containsKey_eq, ← he, hold]
    rfl
  change (s.resources.set identifier ⟨resource, params⟩).maybeGet id = _
  rw [SortedMap.maybeGet_set, if_neg hne]
  exact hold

theorem Open.destroy (ho : Open toclose s) (keys : List String) :
    Open (toclose ++ keys) (s.destroyReactiveResources keys) := by
  unfold Runtime.destroyReactiveResources
  constructor
  · intro id session hid
    change (keys.foldl SortedMap.remove s.garbage).maybeGet id = none
    rw [maybeGet_foldl_remove, ho.kept id session hid, ite_self]
  · intro id session hid hno
    rw [mem_append, not_or] at hno
    change (keys.foldl SortedMap.remove s.resources).maybeGet id = _
    rw [maybeGet_foldl_remove, if_neg hno.2]
    exact ho.found id session hid hno.1
  · intro id session hid hno
    rw [mem_append, not_or] at hno
    exact ho.loaded id session hid hno.1

theorem Open.reload (ho : Open toclose s) {service : Service J D E} {returned : List String}
    (h : s.reload service time = .ok (returned, s')) :
    Open (toclose ++ returned) s' ∧ Updated s' := by
  unfold Runtime.reload at h
  split at h
  · cases h
  · rename_i current hcurrent
    simp only at h
    set destroyed : Runtime J D E := { s.destroyReactiveResources (s.changedTypes service) with
      service := some ⟨current.runId, service⟩ } with hdestroyed
    cases hupdate : destroyed.updateContext time with
    | error exn =>
      rw [hupdate] at h
      cases h
    | ok s₁ =>
      rw [hupdate] at h
      cases h
      have hopen := ho.destroy (s.changedTypes service)
      have hloaded : Open (toclose ++ s.changedTypes service) destroyed :=
        ⟨hopen.kept, hopen.found, fun _ _ _ _ => rfl⟩
      exact hloaded.updateContext hupdate

theorem closeReactiveSessions_spec {sessions : List String}
    (h : s.closeReactiveSessions sessions = .ok s') :
    (∃ remaining, s' = { s with sessions := remaining }) ∧
      ∀ id, s'.sessions.maybeGet id = if id ∈ sessions then none else s.sessions.maybeGet id := by
  induction sessions generalizing s with
  | nil =>
    cases h
    exact ⟨⟨_, rfl⟩, fun id => rfl⟩
  | cons session sessions ih =>
    have hnext : ∃ remaining, Runtime.closeReactiveSessions { s with sessions := remaining }
        sessions = .ok s' ∧ ∀ id, remaining.maybeGet id =
          if id = session then none else s.sessions.maybeGet id := by
      unfold Runtime.closeReactiveSessions at h
      rw [foldlM_cons] at h
      cases hsub : s.sessions.maybeGet session with
      | none =>
        rw [hsub] at h
        refine ⟨s.sessions, h, ?_⟩
        intro id
        by_cases he : id = session
        · rw [if_pos he, he]
          exact hsub
        · rw [if_neg he]
      | some sub =>
        rw [hsub] at h
        cases hclose : sub.notifier.close with
        | error exn =>
          simp only [hclose] at h
          cases h
        | ok _ =>
          simp only [hclose] at h
          exact ⟨s.sessions.remove session, h, fun id => SortedMap.maybeGet_remove _ _ _⟩
    obtain ⟨remaining, hrest, hremaining⟩ := hnext
    obtain ⟨⟨last, hlast⟩, hall⟩ := ih hrest
    refine ⟨⟨last, hlast⟩, ?_⟩
    intro id
    rw [hall]
    change (if id ∈ sessions then none else remaining.maybeGet id) = _
    rw [hremaining]
    by_cases he : id = session
    · simp [he]
    · by_cases hin : id ∈ sessions
      · simp [hin]
      · simp [he, hin]

theorem Open.closeReactiveSessions (ho : Open toclose s) (hu : Updated s) {sessions : List String}
    (h : s.closeReactiveSessions sessions = .ok s') : Open toclose s' ∧ Updated s' := by
  obtain ⟨⟨remaining, he⟩, hall⟩ := closeReactiveSessions_spec h
  have hold : ∀ id sub, s'.sessions.maybeGet id = some sub → s.sessions.maybeGet id = some sub := by
    intro id sub hid
    rw [hall] at hid
    split_ifs at hid
    exact hid
  rw [he] at hold ⊢
  exact ⟨⟨fun id sub hid => ho.kept id sub (hold id sub hid),
    fun id sub hid => ho.found id sub (hold id sub hid),
    fun id sub hid => ho.loaded id sub (hold id sub hid)⟩, ⟨hu.indexed, hu.built, hu.unloaded⟩⟩

theorem Open.initService (ho : Open toclose s) {runId : String} {service : Service J D E}
    (h : s.initService runId service time = .ok s') : Open toclose s' ∧ Updated s' := by
  unfold Runtime.initService at h
  split_ifs at h
  apply Open.updateContext _ h
  exact ⟨ho.kept, ho.found, fun _ _ _ _ => rfl⟩

theorem Open.closeService (ho : Open toclose s) (h : s.closeService = .ok s') :
    Open toclose s' ∧ Updated s' := by
  unfold Runtime.closeService at h
  obtain ⟨s₁, hs₁, h⟩ := bind_ok h
  obtain ⟨⟨remaining, he⟩, hall⟩ := closeReactiveSessions_spec hs₁
  have hold : ∀ id sub, s₁.sessions.maybeGet id = some sub →
      id ∉ s.resources.keys ∧ s.sessions.maybeGet id = some sub := by
    intro id sub hid
    rw [hall] at hid
    split_ifs at hid with hin
    exact ⟨hin, hid⟩
  have hgone : ∀ id sub, s₁.sessions.maybeGet id = some sub → id ∈ toclose := by
    intro id sub hid
    obtain ⟨hno, hsub⟩ := hold id sub hid
    by_contra hopen
    exact hno (SortedMap.mem_keys.mpr ⟨_, ho.found id sub hsub hopen⟩)
  apply Open.update _ h
  refine ⟨?_, fun id sub hid hno => absurd (hgone id sub hid) hno,
    fun id sub hid hno => absurd (hgone id sub hid) hno⟩
  intro id sub hid
  have hgarbage : s₁.garbage = s.resources.keys.foldl SortedMap.remove s.garbage := by rw [he]; rfl
  change s₁.garbage.maybeGet id = none
  rw [hgarbage, maybeGet_foldl_remove, ho.kept id sub (hold id sub hid).2, ite_self]

end Steps

theorem map_ok {α β : Type} {x : Except (Exn E) α} {f : α → β} {b : β} (h : x.map f = .ok b) :
    ∃ a, x = .ok a ∧ f a = b := by
  cases x with
  | error exn => cases h
  | ok a => exact ⟨a, rfl, Except.ok.inj h⟩

theorem Open.perform {toclose returned : List String} {s s' : Runtime J D E} {time : ℤ}
    {op : Operation J D E} (ho : Open toclose s) (hu : Updated s)
    (h : s.perform time op = .ok (returned, s')) :
    Open (toclose ++ returned) s' ∧ Updated s' := by
  cases op with
  | reload service => exact ho.reload h
  | createReactiveResource identifier resource params =>
    obtain ⟨s₁, hs₁, he⟩ := map_ok h
    cases he
    rw [append_nil]
    exact ho.createReactiveResource hs₁
  | subscribe identifier notifier optWatermark =>
    obtain ⟨⟨code, s₁⟩, hs₁, he⟩ := map_ok h
    cases he
    rw [append_nil]
    exact ho.subscribe hu hs₁
  | unsubscribe session =>
    obtain ⟨s₁, hs₁, he⟩ := map_ok h
    cases he
    rw [append_nil]
    exact ho.unsubscribe hu hs₁
  | closeReactiveResource identifier =>
    obtain ⟨s₁, hs₁, he⟩ := map_ok h
    cases he
    rw [append_nil]
    exact ho.closeReactiveResource hu hs₁
  | closeReactiveSessions sessions =>
    obtain ⟨s₁, hs₁, he⟩ := map_ok h
    cases he
    rw [append_nil]
    exact ho.closeReactiveSessions hu hs₁
  | updateContext =>
    obtain ⟨s₁, hs₁, he⟩ := map_ok h
    cases he
    rw [append_nil]
    exact ho.updateContext hs₁
  | initService runId service =>
    obtain ⟨s₁, hs₁, he⟩ := map_ok h
    cases he
    rw [append_nil]
    exact ho.initService hs₁
  | closeService =>
    obtain ⟨s₁, hs₁, he⟩ := map_ok h
    cases he
    rw [append_nil]
    exact ho.closeService hs₁

theorem open_step {t : Tracked J D E} (h : Open t.toclose t.runtime ∧ Updated t.runtime)
    (op : ℤ × Operation J D E) :
    Open (t.step op).toclose (t.step op).runtime ∧ Updated (t.step op).runtime := by
  unfold Tracked.step
  split
  · rename_i returned s' hperform
    obtain ⟨ho, hu⟩ := h.1.perform h.2 hperform
    refine ⟨ho.mono ?_, hu⟩
    intro id session hid hin
    apply mem_filter.mpr ⟨hin, _⟩
    rw [SortedMap.containsKey_eq, hid]
    rfl
  · exact h

theorem open_run {t : Tracked J D E} (h : Open t.toclose t.runtime ∧ Updated t.runtime)
    (ops : List (ℤ × Operation J D E)) :
    Open (t.run ops).toclose (t.run ops).runtime ∧ Updated (t.run ops).runtime := by
  induction ops generalizing t with
  | nil => exact h
  | cons op ops ih => exact ih (open_step h op)

theorem open_empty : Open [] (Runtime.empty : Runtime J D E) ∧
    Updated (Runtime.empty : Runtime J D E) := by
  refine ⟨⟨?_, ?_, ?_⟩, ⟨rfl, ?_, fun _ _ => rfl⟩⟩
  · intro id session hid
    cases hid
  · intro id session hid
    cases hid
  · intro id session hid
    cases hid
  · intro hsome
    cases hsome

/-- The identifier of a session is that of a resource with a directory to be notified of. -/
def Resolves (s : Runtime J D E) (id : String) (session : Session J E) : Prop :=
  s.resources.maybeGet id = some session.definition ∧ ∃ dirName, s.dirNameGetter session = .ok dirName

theorem resolves {toclose : List String} (ho : Open toclose s) (hu : Updated s)
    {id : String} {session : Session J E} (hid : s.sessions.maybeGet id = some session)
    (hno : id ∉ toclose) : Resolves s id session := by
  have hfound := ho.found id session hid hno
  obtain ⟨info, hinfo⟩ := hu.built (ho.loaded id session hid hno) id _ hfound
  refine ⟨hfound, info.dirName, ?_⟩
  unfold Runtime.dirNameGetter
  rw [hinfo]

/-- In every run: a resource with an open session is not in the garbage and not destroyed
by a check of it, and the identifier of a session resolves unless the resource fell to
a reload and the session is still to be closed; closing what a reload returns settles
that. -/
theorem run_sessions_resolve (ops : List (ℤ × Operation J D E)) :
    let t := Tracked.run ⟨Runtime.empty, []⟩ ops
    (∀ id session, t.runtime.sessions.maybeGet id = some session →
      t.runtime.garbage.maybeGet id = none ∧
        ∀ time s', t.runtime.checkGarbage time = .ok s' →
          s'.resources.maybeGet id = t.runtime.resources.maybeGet id) ∧
    (∀ id session, t.runtime.sessions.maybeGet id = some session → id ∉ t.toclose →
      Resolves t.runtime id session) ∧
    ∀ service time returned s' s'', t.runtime.reload service time = .ok (returned, s') →
      s'.closeReactiveSessions returned = .ok s'' → ∀ id session,
        s''.sessions.maybeGet id = some session → id ∉ t.toclose → Resolves s'' id session := by
  obtain ⟨ho, hu⟩ := open_run (t := (⟨Runtime.empty, []⟩ : Tracked J D E)) open_empty ops
  refine ⟨?_, fun id session hid hno => resolves ho hu hid hno, ?_⟩
  · intro id session hid
    have hgarbage := ho.kept id session hid
    refine ⟨hgarbage, ?_⟩
    intro time s' hs'
    exact ((checkGarbage_spec hu hs').2.2.2 id hgarbage).2
  · intro service time returned s' s'' hreload hclose id session hid hno
    obtain ⟨ho', hu'⟩ := ho.reload hreload
    obtain ⟨ho'', hu''⟩ := ho'.closeReactiveSessions hu' hclose
    apply resolves ho'' hu'' hid
    intro hin
    rcases mem_append.mp hin with hin | hin
    · exact hno hin
    · rw [(closeReactiveSessions_spec hclose).2, if_pos hin] at hid
      cases hid

end Operations

def sampleService (reloads : Option Bool) : Service ℕ ℕ Unit :=
  ⟨fun _ => reloads, fun definition => .ok definition.params⟩

def quietNotifier : Notifier Unit := ⟨.ok (), .ok (), .ok ()⟩

/-- A resource is instantiated and subscribed to, then its type changes. -/
def changedType : List (ℤ × Operation ℕ ℕ Unit) :=
  [(0, .initService "run" (sampleService (some false))),
    (0, .createReactiveResource "a" "resource" 1),
    (0, .subscribe "a" quietNotifier none),
    (0, .reload (sampleService none))]

theorem changedType_unresolved :
    let t : Tracked ℕ ℕ Unit := Tracked.run ⟨Runtime.empty, []⟩ changedType
    ∃ session, t.runtime.sessions.maybeGet "a" = some session ∧
      t.runtime.resources.maybeGet "a" = none ∧
        t.runtime.dirNameGetter session = .error (.violation "assert") := by
  refine ⟨⟨⟨"resource", 1⟩, 0, quietNotifier⟩, ?_, ?_, ?_⟩
  · rfl
  · rfl
  · rfl

end SkipPlatform.Resources
