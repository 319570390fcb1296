import SkipPlatform.StoreSubscriptions

set_option autoImplicit false
set_option linter.unusedSectionVars false

/-! Commits of a context with one watcher: the client's map follows the directory that
the subscription currently names. -/
namespace SkipPlatform
open SortedMerge StoreSourceMap

/-- `changedDirs` is the global `CHANGED_DIRS`, if the commit's synchronizer set it. -/
structure Commit (D K F : Type) [LinearOrder D] [StoreKey K] where
  steps : List (StoreStep D K F)
  changedDirs : Option (SortedSet D)

structure Session (D K F : Type) [LinearOrder D] [StoreKey K] where
  context : StoreContext D K F
  client : SortedMap K (List F)

structure Watch (D K F : Type) [LinearOrder D] [StoreKey K] where
  dirNameGetter : StoreContext D K F → D
  fromTick : ℕ

variable {D K F : Type} [LinearOrder D] [StoreKey K]

namespace StoreContext

def contents (c : StoreContext D K F) (dirName : D) (key : K) : List F :=
  match c.dirs.maybeGet dirName with
  | some (.eager dir) => dir.getArrayRaw key
  | _ => []

def notifySub (c : StoreContext D K F) (w : Watch D K F) (start : ℕ) :
    Option (Notification K F) :=
  match c.dirs.maybeGet (w.dirNameGetter c) with
  | some (.eager dir) => dir.notifySubWatch start c.tick w.fromTick
  | _ => none

def changedDirNames (c : StoreContext D K F) (changedDirs : Option (SortedSet D)) (start : ℕ) :
    SortedSet D :=
  changedDirs.getD (c.dirs.getChangesAfter start)

def notifyAll (c : StoreContext D K F) (w : Watch D K F) (changedDirs : Option (SortedSet D))
    (start : ℕ) : Option (Notification K F) :=
  if c.tick = start then none
  else if (c.changedDirNames changedDirs start).containsKey (w.dirNameGetter c) then
    c.notifySub w start
  else none

theorem contents_of_eager {c : StoreContext D K F} {dirName : D} {d : EagerDir D K F}
    (h : c.dirs.maybeGet dirName = some (.eager d)) (key : K) :
    c.contents dirName key = d.getArrayRaw key := by
  unfold contents
  rw [h]

end StoreContext

namespace Session
variable [DecidableEq F] (w : Watch D K F)

def subscribe (c : StoreContext D K F) : Session D K F :=
  ⟨c, deliver (c.notifySub w w.fromTick) .empty⟩

def commit (s : Session D K F) (cm : Commit D K F) : Option (Session D K F) :=
  (s.context.run cm.steps).map fun c =>
    ⟨c, deliver (c.notifyAll w cm.changedDirs s.context.tick) s.client⟩

def run (s : Session D K F) (commits : List (Commit D K F)) : Option (Session D K F) :=
  commits.foldlM (commit w) s

/-- The client holds the contents of the directory currently named. -/
def Agrees (s : Session D K F) : Prop :=
  ∀ key, viewOf s.client key = s.context.contents (w.dirNameGetter s.context) key

/-- A commit from `c` to `c'` on which the notification is enough: the directory named is
the one named before, or it is reported as changed and sent as a snapshot. -/
structure Followed (c : StoreContext D K F) (cm : Commit D K F) (c' : StoreContext D K F) :
    Prop where
  accepted : ∀ st ∈ cm.steps, StoreContext.Accepts (fun _ => True) st
  named : ∃ d, c'.dirs.maybeGet (w.dirNameGetter c') = some (.eager d) ∧
    (w.dirNameGetter c' = w.dirNameGetter c ∨
      w.dirNameGetter c' ∈ (c'.changedDirNames cm.changedDirs c.tick).keys ∧
        d.Snapshot c.tick w.fromTick) ∧
    (c.tick ≤ d.created ∨ c.tick ≤ w.fromTick → d.Listed)
  updated : c.tick < c'.tick ∨
    ∀ key, c'.contents (w.dirNameGetter c') key = c.contents (w.dirNameGetter c) key
  reported : ∀ names, cm.changedDirs = some names →
    w.dirNameGetter c' ∈ (c'.dirs.getChangesAfter c.tick).keys → w.dirNameGetter c' ∈ names.keys

def AllFollowed (s : Session D K F) : List (Commit D K F) → Prop
  | [] => True
  | cm :: rest => ∀ s', s.commit w cm = some s' →
    Followed w s.context cm s'.context ∧ s'.AllFollowed rest

/-- The directories of the context can be written and answer for their changes. -/
def Sound (c : StoreContext D K F) : Prop :=
  StoreContext.Follows (fun _ => True) c.tick c c

variable {w}

theorem agrees_unchanged {c c' : StoreContext D K F} {client : SortedMap K (List F)}
    (hclient : ∀ key, viewOf client key = c.contents (w.dirNameGetter c) key)
    (hname : w.dirNameGetter c' = w.dirNameGetter c)
    (hdirs : c'.dirs.maybeGet (w.dirNameGetter c) = c.dirs.maybeGet (w.dirNameGetter c)) (key : K) :
    viewOf client key = c'.contents (w.dirNameGetter c') key := by
  rw [hclient, hname]
  unfold StoreContext.contents
  rw [hdirs]

theorem agrees_notified {c c' : StoreContext D K F} {client : SortedMap K (List F)}
    (hclient : ∀ key, viewOf client key = c.contents (w.dirNameGetter c) key)
    (hf : StoreContext.Follows (fun _ => True) c.tick c c') {d : EagerDir D K F}
    (hd : c'.dirs.maybeGet (w.dirNameGetter c') = some (.eager d))
    (hname : w.dirNameGetter c' = w.dirNameGetter c)
    (hl : c.tick ≤ d.created ∨ c.tick ≤ w.fromTick → d.Listed) (key : K) :
    viewOf (deliver (d.notifySubWatch c.tick c'.tick w.fromTick) client) key =
      d.getArrayRaw key := by
  by_cases hs : d.Snapshot c.tick w.fromTick
  · exact EagerDir.notifySubWatch_snapshot hs hl c'.tick client key
  · have hvalid := (hf.writable _ d hd trivial).1
    obtain ⟨htouched, hother⟩ := EagerDir.notifySubWatch_patch hvalid hs c'.tick client key
    by_cases ht : d.Touched c.tick key
    · exact htouched ht
    · rw [hother ht, hclient]
      cases hf.since _ d hd trivial with
      | fresh created written => exact absurd (Or.inl (Or.inl created)) hs
      | carried old found same changes =>
        rw [StoreContext.contents_of_eager (hname ▸ found)]
        rcases changes.raw key with ht' | hp | hsame
        · exact absurd ht' ht
        · exact absurd (Or.inr hp) hs
        · exact hsame.symm

theorem commit_agrees {s s' : Session D K F} {cm : Commit D K F} (hsound : Sound s.context)
    (hagrees : s.Agrees w) (hc : s.commit w cm = some s')
    (hfollowed : Followed w s.context cm s'.context) : Sound s'.context ∧ s'.Agrees w := by
  obtain ⟨c', hrun, he⟩ := Option.map_eq_some_iff.mp hc
  rw [← he] at hfollowed ⊢
  change Followed w s.context cm c' at hfollowed
  have hf : StoreContext.Follows (fun _ => True) s.context.tick s.context c' :=
    StoreContext.follows_run hsound hfollowed.accepted hrun
  refine ⟨hf.restart le_rfl, ?_⟩
  intro key
  obtain ⟨d, hd, hswitch, hl⟩ := hfollowed.named
  change viewOf (deliver (c'.notifyAll w cm.changedDirs s.context.tick) s.client) key =
    c'.contents (w.dirNameGetter c') key
  unfold StoreContext.notifyAll
  by_cases htick : c'.tick = s.context.tick
  · rw [if_pos htick]
    have hsame := hfollowed.updated.resolve_left (by omega)
    exact (hagrees key).trans (hsame key).symm
  · rw [if_neg htick]
    by_cases hin : w.dirNameGetter c' ∈ (c'.changedDirNames cm.changedDirs s.context.tick).keys
    · have hcontains := SortedMap.containsKey_iff.mpr hin
      have hsub : c'.notifySub w s.context.tick =
          d.notifySubWatch s.context.tick c'.tick w.fromTick := by
        unfold StoreContext.notifySub
        rw [hd]
      rw [if_pos hcontains, hsub, StoreContext.contents_of_eager hd]
      rcases hswitch with hname | ⟨_, hs⟩
      · exact agrees_notified hagrees hf hd hname hl key
      · exact EagerDir.notifySubWatch_snapshot hs hl c'.tick s.client key
    · have hcontains : ¬ (c'.changedDirNames cm.changedDirs s.context.tick).containsKey
          (w.dirNameGetter c') = true := fun hcontains =>
        hin (SortedMap.containsKey_iff.mp hcontains)
      rw [if_neg hcontains]
      have hname : w.dirNameGetter c' = w.dirNameGetter s.context :=
        hswitch.resolve_right fun hsnap => hin hsnap.1
      apply agrees_unchanged hagrees hname
      rw [← hname]
      apply hf.unchanged
      intro hchanged
      apply hin
      unfold StoreContext.changedDirNames
      cases hnames : cm.changedDirs with
      | none => exact hchanged
      | some names => exact hfollowed.reported names hnames hchanged

theorem run_agrees {s s' : Session D K F} {commits : List (Commit D K F)}
    (hsound : Sound s.context) (hagrees : s.Agrees w) (hfollowed : s.AllFollowed w commits)
    (hr : s.run w commits = some s') : s'.Agrees w := by
  induction commits generalizing s with
  | nil =>
    rw [← Option.some.inj hr]
    exact hagrees
  | cons cm rest ih =>
    unfold run at hr
    rw [List.foldlM_cons] at hr
    obtain ⟨s1, hs1, hrest⟩ := Option.bind_eq_some_iff.mp hr
    obtain ⟨hstep, hnext⟩ := hfollowed s1 hs1
    obtain ⟨hsound', hagrees'⟩ := commit_agrees hsound hagrees hs1 hstep
    exact ih hsound' hagrees' hnext hrest

theorem subscribe_agrees {c : StoreContext D K F} {d : EagerDir D K F}
    (hd : c.dirs.maybeGet (w.dirNameGetter c) = some (.eager d)) (hl : d.Listed) :
    (subscribe w c).Agrees w := by
  intro key
  have hsub : c.notifySub w w.fromTick = d.notifySubWatch w.fromTick c.tick w.fromTick := by
    unfold StoreContext.notifySub
    rw [hd]
  change viewOf (deliver (c.notifySub w w.fromTick) .empty) key =
    c.contents (w.dirNameGetter c) key
  rw [hsub, StoreContext.contents_of_eager hd]
  exact EagerDir.notifySubWatch_snapshot (Or.inl (Or.inr le_rfl)) (fun _ => hl) c.tick .empty key

/-- In every run of commits that all follow the subscription, the client holds the
contents of the directory currently named. -/
theorem watch_agrees (w : Watch D K F) {history : List (StoreStep D K F)} {c : StoreContext D K F}
    (hc : (StoreContext.empty : StoreContext D K F).run history = some c)
    (haccepted : ∀ st ∈ history, StoreContext.Accepts (fun _ => True) st) {d : EagerDir D K F}
    (hd : c.dirs.maybeGet (w.dirNameGetter c) = some (.eager d)) (hl : d.Listed)
    {commits : List (Commit D K F)} (hfollowed : (subscribe w c).AllFollowed w commits)
    {s : Session D K F} (hr : (subscribe w c).run w commits = some s) : s.Agrees w := by
  have hf : StoreContext.Follows (fun _ => True) 0 StoreContext.empty c :=
    StoreContext.follows_run StoreContext.follows_empty haccepted hc
  have hsound : Sound (subscribe w c).context := hf.restart le_rfl
  exact run_agrees hsound (subscribe_agrees hd hl) hfollowed hr

end Session

namespace Session
open StoreContext EagerDir

def collections : List (StoreStep ℕ PlainKey ℕ) :=
  [.mkdir none 1 [], .mkdir none 2 [], .mkdir none 3 [],
    .change 1 (.write none (sampleSource 1) (sampleSource 1) (.iid 1) [10]), .advance 1]

/-- The first collection is watched until the third directory has a row. -/
def selected : Watch ℕ PlainKey ℕ where
  dirNameGetter := fun c => if (c.contents 3 (.iid 0)).isEmpty then 1 else 2
  fromTick := 0

def select : Commit ℕ PlainKey ℕ where
  steps := [.change 3 (.write none (sampleSource 0) (sampleSource 0) (.iid 0) [1]), .advance 1]
  changedDirs := none

def append : Commit ℕ PlainKey ℕ where
  steps := [.change 1 (.write none (sampleSource 2) (sampleSource 2) (.iid 1) [20]), .advance 1]
  changedDirs := none

/-- What is known of the context after `collections`. -/
structure Collections (c : StoreContext ℕ PlainKey ℕ) (d1 d2 d3 : EagerDir ℕ PlainKey ℕ) :
    Prop where
  now : c.tick = 1
  first : c.dirs.maybeGet 1 = some (.eager d1)
  second : c.dirs.maybeGet 2 = some (.eager d2)
  third : c.dirs.maybeGet 3 = some (.eager d3)
  ready : d1.Ready ⟨1, none⟩ ∧ d3.Ready ⟨1, none⟩
  value : d1.getArrayRaw (.iid 1) ≠ []
  empty : ∀ key, d2.getArrayRaw key = [] ∧ d3.getArrayRaw key = []
  ticks : ∀ x ∈ c.dirs.itemsWithTick, x.2.2 = 0

theorem collections_run : ∃ c d1 d2 d3,
    (StoreContext.empty : StoreContext ℕ PlainKey ℕ).run collections = some c ∧
      Collections c d1 d2 d3 := by
  have h0 : (StoreContext.empty : StoreContext ℕ PlainKey ℕ).dirs.maybeGet 1 = none := rfl
  obtain ⟨s1, hs1, hi1, hc1⟩ := step_mkdir h0 none []
  have h1 : (StoreContext.empty.setDir 1 (.eager s1.dir)).dirs.maybeGet 2 = none := by
    rw [maybeGet_setDir, if_neg (by decide)]
    rfl
  obtain ⟨s2, hs2, hi2, hc2⟩ := step_mkdir h1 none []
  have h2 : ((StoreContext.empty.setDir 1 (.eager s1.dir)).setDir 2 (.eager s2.dir)).dirs.maybeGet 3 =
      none := by
    rw [maybeGet_setDir, if_neg (by decide), maybeGet_setDir, if_neg (by decide)]
    rfl
  obtain ⟨s3, hs3, hi3, hc3⟩ := step_mkdir h2 none []
  set c3 := ((StoreContext.empty.setDir 1 (.eager s1.dir)).setDir 2 (.eager s2.dir)).setDir 3
    (.eager s3.dir) with hc3def
  obtain ⟨hr1, he1⟩ := make_nil hs1 hi1
  obtain ⟨hr2, he2⟩ := make_nil hs2 hi2
  obtain ⟨hr3, he3⟩ := make_nil hs3 hi3
  have hfirst : c3.dirs.maybeGet 1 = some (.eager s1.dir) := by
    rw [hc3def, maybeGet_setDir, if_neg (by decide), maybeGet_setDir, if_neg (by decide),
      maybeGet_setDir, if_pos rfl]
  set d1 := s1.dir.writeEntry ⟨0, none⟩ (sampleSource 1) (sampleSource 1) (.iid 1) [10] with hd1
  have hwrite : Clocked.step ⟨s1.dir, c3.tick⟩
      (.write none (sampleSource 1) (sampleSource 1) (.iid 1) [10]) = some ⟨d1, c3.tick⟩ := rfl
  have hstep := step_change hfirst hwrite
  set c4 := c3.setDir 1 (.eager d1) with hc4
  refine ⟨{ c4 with tick := c4.tick + 1 }, d1, s2.dir, s3.dir, ?_, ?_⟩
  · unfold StoreContext.run collections
    simp only [List.foldlM_cons, List.foldlM_nil, hc1, hc2, hc3, hstep, Option.bind_eq_bind,
      Option.bind_some, Option.pure_def]
    rfl
  · have hw := ready_writeEntry hr1 (sampleSource 1) (sampleSource 1) (.iid 1) [10]
    constructor
    · rfl
    · change c4.dirs.maybeGet 1 = _
      rw [hc4, maybeGet_setDir, if_pos rfl]
    · change c4.dirs.maybeGet 2 = _
      rw [hc4, maybeGet_setDir, if_neg (by decide), hc3def, maybeGet_setDir, if_neg (by decide),
        maybeGet_setDir, if_pos rfl]
    · change c4.dirs.maybeGet 3 = _
      rw [hc4, maybeGet_setDir, if_neg (by decide), hc3def, maybeGet_setDir, if_pos rfl]
    · exact ⟨⟨hw.valid, hw.ticks.mono (Nat.zero_le 1), hw.plain⟩,
        ⟨hr3.valid, hr3.ticks.mono (Nat.zero_le 1), hr3.plain⟩⟩
    · exact getArrayRaw_write_ne hr1 (sampleSource 1) (.iid 1) 10
    · exact fun key => ⟨he2 key, he3 key⟩
    · intro x hx
      change x ∈ c4.dirs.itemsWithTick at hx
      have hset : ∀ (c : StoreContext ℕ PlainKey ℕ) (name : ℕ) (dir : Dir ℕ PlainKey ℕ),
          c.tick = 0 → (∀ x ∈ c.dirs.itemsWithTick, x.2.2 = 0) →
            ∀ x ∈ (c.setDir name dir).dirs.itemsWithTick, x.2.2 = 0 := by
        intro c name dir htick hall x hx
        rcases (c.dirs.mem_set c.tick name dir x).mp hx with hnew | ⟨_, hold⟩
        · rw [hnew]
          exact htick
        · exact hall x hold
      refine hset c3 1 _ rfl (hset _ 3 _ rfl (hset _ 2 _ rfl (hset _ 1 _ rfl ?_))) x hx
      intro y hy
      cases hy

theorem Collections.write {c : StoreContext ℕ PlainKey ℕ} {d1 d2 d3 : EagerDir ℕ PlainKey ℕ}
    (h : Collections c d1 d2 d3) {name : ℕ} {d : EagerDir ℕ PlainKey ℕ}
    (hd : c.dirs.maybeGet name = some (.eager d)) (source : Source ℕ PlainKey) (key : PlainKey)
    (values : List ℕ) :
    c.run [.change name (.write none source source key values), .advance 1] =
      some ⟨(c.setDir name (.eager (d.writeEntry ⟨1, none⟩ source source key values))).dirs, 2⟩ := by
  have hwrite : Clocked.step ⟨d, c.tick⟩ (.write none source source key values) =
      some ⟨d.writeEntry ⟨c.tick, none⟩ source source key values, c.tick⟩ := rfl
  have hstep := step_change hd hwrite
  unfold StoreContext.run
  simp only [List.foldlM_cons, List.foldlM_nil, hstep, Option.bind_eq_bind, Option.bind_some,
    Option.pure_def]
  change some (⟨_, c.tick + 1⟩ : StoreContext ℕ PlainKey ℕ) = _
  rw [h.now]

theorem Collections.named {c : StoreContext ℕ PlainKey ℕ} {d1 d2 d3 : EagerDir ℕ PlainKey ℕ}
    (h : Collections c d1 d2 d3) : selected.dirNameGetter c = 1 := by
  change (if (c.contents 3 (.iid 0)).isEmpty then 1 else 2) = 1
  rw [contents_of_eager h.third, (h.empty (.iid 0)).2]
  rfl

/-- The newly selected collection did not change, so nothing is sent. -/
theorem select_not_agrees : ∃ c s,
    (StoreContext.empty : StoreContext ℕ PlainKey ℕ).run collections = some c ∧
      (subscribe selected c).run selected [select] = some s ∧ ¬ s.Agrees selected := by
  obtain ⟨c, d1, d2, d3, hc, h⟩ := collections_run
  have hsubscribed : (subscribe selected c).Agrees selected := by
    apply @subscribe_agrees _ _ _ _ _ _ selected c d1
    · rw [h.named]
      exact h.first
    · exact listed_of_plain h.ready.1.valid h.ready.1.plain
  set d3' := d3.writeEntry ⟨1, none⟩ (sampleSource 0) (sampleSource 0) (.iid 0) [1] with hd3'
  set c' : StoreContext ℕ PlainKey ℕ := ⟨(c.setDir 3 (.eager d3')).dirs, 2⟩ with hc'
  have hrun : c.run select.steps = some c' := h.write h.third (sampleSource 0) (.iid 0) [1]
  have hthird : c'.dirs.maybeGet 3 = some (.eager d3') := by
    change (c.setDir 3 (.eager d3')).dirs.maybeGet 3 = _
    rw [maybeGet_setDir, if_pos rfl]
  have hsecond : c'.dirs.maybeGet 2 = some (.eager d2) := by
    change (c.setDir 3 (.eager d3')).dirs.maybeGet 2 = _
    rw [maybeGet_setDir, if_neg (by decide)]
    exact h.second
  have hnamed : selected.dirNameGetter c' = 2 := by
    change (if (c'.contents 3 (.iid 0)).isEmpty then 1 else 2) = 2
    rw [contents_of_eager hthird, if_neg]
    have hne := getArrayRaw_write_ne h.ready.2 (sampleSource 0) (.iid 0) 1
    simpa using hne
  have hunreported : 2 ∉ (c'.dirs.getChangesAfter c.tick).keys := by
    change 2 ∉ ((c.setDir 3 (.eager d3')).dirs.getChangesAfter c.tick).keys
    rw [mem_getChangesAfter_setDir c 3 2 _ le_rfl, not_or]
    refine ⟨by decide, ?_⟩
    intro hin
    obtain ⟨x, hx, _, ht⟩ := DMap.mem_getChangesAfter.mp hin
    rw [h.ticks x hx, h.now] at ht
    omega
  have hsilent : c'.notifyAll selected select.changedDirs c.tick = none := by
    have htick : c'.tick ≠ c.tick := by
      rw [h.now]
      exact Nat.succ_ne_self 1
    unfold StoreContext.notifyAll
    rw [if_neg htick, hnamed, if_neg]
    intro hcontains
    exact hunreported (SortedMap.containsKey_iff.mp hcontains)
  have hcommit : (subscribe selected c).commit selected select =
      some ⟨c', (subscribe selected c).client⟩ := by
    change (c.run select.steps).map _ = _
    rw [hrun]
    change some (Session.mk c' (deliver (c'.notifyAll selected select.changedDirs c.tick)
      (subscribe selected c).client)) = _
    rw [hsilent]
    rfl
  refine ⟨c, ⟨c', (subscribe selected c).client⟩, hc, ?_, ?_⟩
  · unfold run
    rw [List.foldlM_cons, hcommit]
    rfl
  · intro hagrees
    have hclient : viewOf (subscribe selected c).client (.iid 1) = d1.getArrayRaw (.iid 1) := by
      rw [hsubscribed (.iid 1)]
      change c.contents (selected.dirNameGetter c) (.iid 1) = _
      rw [h.named, contents_of_eager h.first]
    have hview : viewOf (subscribe selected c).client (.iid 1) = [] := by
      rw [hagrees (.iid 1)]
      change c'.contents (selected.dirNameGetter c') (.iid 1) = _
      rw [hnamed, contents_of_eager hsecond]
      exact (h.empty (.iid 1)).1
    exact h.value (hclient.symm.trans hview)

/-- A commit that writes to the collection being watched. -/
theorem watch_agrees_append : ∃ c s,
    (StoreContext.empty : StoreContext ℕ PlainKey ℕ).run collections = some c ∧
      (subscribe selected c).run selected [append] = some s ∧ s.Agrees selected := by
  obtain ⟨c, d1, d2, d3, hc, h⟩ := collections_run
  set d1' := d1.writeEntry ⟨1, none⟩ (sampleSource 2) (sampleSource 2) (.iid 1) [20] with hd1'
  set c' : StoreContext ℕ PlainKey ℕ := ⟨(c.setDir 1 (.eager d1')).dirs, 2⟩ with hc'
  have hrun : c.run append.steps = some c' := h.write h.first (sampleSource 2) (.iid 1) [20]
  have hfirst : c'.dirs.maybeGet 1 = some (.eager d1') := by
    change (c.setDir 1 (.eager d1')).dirs.maybeGet 1 = _
    rw [maybeGet_setDir, if_pos rfl]
  have hnamed : selected.dirNameGetter c' = 1 := by
    have hthird : c'.dirs.maybeGet 3 = some (.eager d3) := by
      change (c.setDir 1 (.eager d1')).dirs.maybeGet 3 = _
      rw [maybeGet_setDir, if_neg (by decide)]
      exact h.third
    change (if (c'.contents 3 (.iid 0)).isEmpty then 1 else 2) = 1
    rw [contents_of_eager hthird, (h.empty (.iid 0)).2]
    rfl
  have hready := ready_writeEntry h.ready.1 (sampleSource 2) (sampleSource 2) (.iid 1) [20]
  have hcommit : ∃ s, (subscribe selected c).commit selected append = some s ∧ s.context = c' := by
    refine ⟨⟨c', deliver (c'.notifyAll selected none c.tick) (subscribe selected c).client⟩, ?_, rfl⟩
    change (c.run append.steps).map _ = _
    rw [hrun]
    rfl
  obtain ⟨s, hs, hcontext⟩ := hcommit
  have hrunAll : (subscribe selected c).run selected [append] = some s := by
    unfold run
    rw [List.foldlM_cons, hs]
    rfl
  refine ⟨c, s, hc, hrunAll, ?_⟩
  have hd : c.dirs.maybeGet (selected.dirNameGetter c) = some (.eager d1) := by
    rw [h.named]
    exact h.first
  apply watch_agrees selected hc _ hd (listed_of_plain h.ready.1.valid h.ready.1.plain) _ hrunAll
  · intro st hst creation he
    rw [he] at hst
    simp [collections] at hst
  · intro s' hs'
    rw [hs] at hs'
    rw [← Option.some.inj hs', hcontext]
    refine ⟨?_, trivial⟩
    constructor
    · intro st hst creation he
      rw [he] at hst
      simp [append] at hst
    · refine ⟨d1', hnamed ▸ hfirst, Or.inl (hnamed.trans h.named.symm), ?_⟩
      exact fun _ => listed_of_plain hready.valid hready.plain
    · left
      change c.tick < 2
      rw [h.now]
      decide
    · intro names hnames
      cases hnames

end Session
end SkipPlatform
