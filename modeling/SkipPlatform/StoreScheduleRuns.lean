import SkipPlatform.StoreSchedule

set_option autoImplicit false
set_option linter.unusedSectionVars false

/-! A time belongs to the directory it was drawn for, so the place of an arrow in the
queue names the arrow. -/
namespace SkipPlatform.Schedule
open List
variable {D : Type} [LinearOrder D]

def Names (s : Schedule D) (key : Priority) (arrow : Arrow D) : Prop :=
  s.given.maybeGet (ofLex key).2 = some arrow.parentName ∧
    s.given.maybeGet ((ofLex key).1.getLast.natAbs : ℤ) = some arrow.childName

variable {key : Priority}

theorem Names.unique {s : Schedule D} {arrow other : Arrow D}
    (h : s.Names key arrow) (h' : s.Names key other) : arrow = other := by
  have hparent := h.1.symm.trans h'.1
  have hchild := h.2.symm.trans h'.2
  cases arrow
  cases other
  cases hparent
  cases hchild
  rfl

structure Inv (s : Schedule D) : Prop where
  positive : ∀ time dirName, s.given.maybeGet time = some dirName → 0 < time
  owned : ∀ dirName node, s.dirs.maybeGet dirName = some node →
    s.given.maybeGet node.getTime = some dirName
  queued : ∀ key arrow, s.toUpdate.maybeGet key = some arrow → s.Names key arrow
  deferred : ∀ held, s.held = some held → ∀ key arrow, held.maybeGet key = some arrow →
    s.Names key arrow
  scheduled : ∀ arrow ∈ s.marked, (∃ key, s.toUpdate.maybeGet key = some arrow) ∨
    ∃ held, s.held = some held ∧ ∃ key, held.maybeGet key = some arrow
  same : ∀ pair ∈ s.replaced, pair.1 = pair.2

theorem inv_empty : (empty : Schedule D).Inv where
  positive := fun _ _ h => by cases h
  owned := fun _ _ h => by cases h
  queued := fun _ _ h => by cases h
  deferred := fun _ h => by cases h
  scheduled := fun _ h => by cases h
  same := fun _ h => by cases h

variable {s : Schedule D}

theorem names_stack (h : s.Inv) {dirName parentName : D} {time parentTime : ℤ}
    (ht : s.given.maybeGet time = some dirName)
    (hp : s.given.maybeGet parentTime = some parentName) {timeStack : TimeStack}
    (hlast : timeStack.getLast = time ∨ timeStack.getLast = -time) :
    s.Names (toLex (timeStack, parentTime)) ⟨parentName, dirName⟩ := by
  have hpos := h.positive time dirName ht
  refine ⟨hp, ?_⟩
  have habs : (timeStack.getLast.natAbs : ℤ) = time := by omega
  change s.given.maybeGet (timeStack.getLast.natAbs : ℤ) = some dirName
  rw [habs]
  exact ht

variable {arrow : Arrow D}

theorem inv_enqueue (h : s.Inv) (hn : s.Names key arrow) :
    (s.enqueue key arrow).Inv where
  positive := h.positive
  owned := h.owned
  queued := by
    intro key' arrow' hq
    change (s.toUpdate.set key arrow).maybeGet key' = some arrow' at hq
    rw [SortedMap.maybeGet_set] at hq
    split_ifs at hq with hk
    · cases hq
      rw [hk]
      exact hn
    · exact h.queued key' arrow' hq
  deferred := h.deferred
  scheduled := by
    intro marked hm
    change (∃ key', (s.toUpdate.set key arrow).maybeGet key' = some marked) ∨ _
    rcases h.scheduled marked hm with ⟨key', hq⟩ | hheld
    · left
      by_cases hk : key' = key
      · have heq : arrow = marked := by
          rw [hk] at hq
          exact hn.unique (h.queued key marked hq)
        exact ⟨key, by rw [SortedMap.maybeGet_set, if_pos rfl, heq]⟩
      · exact ⟨key', by rw [SortedMap.maybeGet_set, if_neg hk]; exact hq⟩
    · exact Or.inr hheld
  same := by
    intro pair hp
    unfold enqueue at hp
    cases hq : s.toUpdate.maybeGet key with
    | none =>
      simp only [hq] at hp
      exact h.same pair hp
    | some old =>
      simp only [hq] at hp
      rcases mem_cons.mp hp with hp | hp
      · rw [hp]
        exact (h.queued key old hq).unique hn
      · exact h.same pair hp

theorem maybeGet_enqueue (s : Schedule D) (key : Priority) (arrow : Arrow D) :
    (s.enqueue key arrow).toUpdate.maybeGet key = some arrow := by
  change (s.toUpdate.set key arrow).maybeGet key = some arrow
  rw [SortedMap.maybeGet_set, if_pos rfl]

theorem inv_markDirty (h : s.Inv) {timeStack : TimeStack} {parentTime : ℤ}
    (hn : s.Names (toLex (timeStack, parentTime)) arrow) :
    (s.markDirty timeStack parentTime arrow).Inv := by
  have he : (s.addToUpdate timeStack parentTime arrow).Inv := inv_enqueue h hn
  refine ⟨he.positive, he.owned, he.queued, he.deferred, ?_, he.same⟩
  intro marked hm
  rcases mem_cons.mp hm with hm | hm
  · rw [hm]
    exact Or.inl ⟨_, maybeGet_enqueue s _ arrow⟩
  · exact he.scheduled marked hm

theorem getLast_arrowTimeStack (arrow : Arrow D) (child : Node D) :
    (arrowTimeStack arrow child).getLast = child.getTime ∨
      (arrowTimeStack arrow child).getLast = -child.getTime := by
  unfold arrowTimeStack
  split_ifs
  · exact Or.inr (TimeStack.getLast_negate _)
  · exact Or.inl rfl

theorem names_current (h : s.Inv) {child parent : Node D}
    (hc : s.dirs.maybeGet arrow.childName = some child)
    (hp : s.dirs.maybeGet arrow.parentName = some parent) :
    s.Names (toLex (arrowTimeStack arrow child, parent.getTime)) arrow :=
  names_stack h (h.owned _ child hc) (h.owned _ parent hp) (getLast_arrowTimeStack arrow child)

theorem inv_invalidateReader (h : s.Inv) (reader : Arrow D) : (s.invalidateReader reader).Inv := by
  unfold invalidateReader
  cases hc : s.dirs.maybeGet reader.childName with
  | none => exact h
  | some child =>
    cases hp : s.dirs.maybeGet reader.parentName with
    | none => exact h
    | some parent => exact inv_markDirty h (names_current h hc hp)

variable {dirName : D}

theorem inv_writeEntry {time : ℤ} (childNames : List D) :
    ∀ {s : Schedule D}, s.Inv → s.given.maybeGet time = some dirName →
      (s.writeEntry dirName time childNames).Inv := by
  induction childNames with
  | nil => exact fun h _ => h
  | cons childName rest ih =>
    intro s h ht
    unfold writeEntry
    rw [foldl_cons]
    cases hc : s.dirs.maybeGet childName with
    | none => exact ih h ht
    | some child =>
      cases child with
      | lazy _ => exact ih h ht
      | deleted _ => exact ih h ht
      | eager timeStack parents =>
        have hn : s.Names (toLex (timeStack, time)) ⟨dirName, childName⟩ :=
          names_stack h (h.owned childName _ hc) ht (Or.inl rfl)
        have hm := inv_markDirty h hn
        exact ih hm ht

variable {held : SortedMap Priority (Arrow D)}

theorem inv_restore (h : s.Inv)
    (hn : ∀ key arrow, held.maybeGet key = some arrow → s.Names key arrow) :
    (s.restoreDeferredUpdates held).Inv ∧
      (∀ key arrow, held.maybeGet key = some arrow →
        ∃ key', (s.restoreDeferredUpdates held).toUpdate.maybeGet key' = some arrow) ∧
      (s.restoreDeferredUpdates held).given = s.given ∧
      (s.restoreDeferredUpdates held).dirs = s.dirs ∧
      (s.restoreDeferredUpdates held).marked = s.marked ∧
      (s.restoreDeferredUpdates held).held = s.held ∧
      ∀ key arrow, s.toUpdate.maybeGet key = some arrow →
        ∃ key', (s.restoreDeferredUpdates held).toUpdate.maybeGet key' = some arrow := by
  have hloop : ∀ (items : List (Priority × Arrow D)) (s : Schedule D), s.Inv →
      (∀ x ∈ items, s.Names x.1 x.2) →
      let s' := items.foldl (fun s x => s.enqueue x.1 x.2) s
      s'.Inv ∧ (∀ x ∈ items, ∃ key', s'.toUpdate.maybeGet key' = some x.2) ∧
        s'.given = s.given ∧ s'.dirs = s.dirs ∧ s'.marked = s.marked ∧ s'.held = s.held ∧
        ∀ key arrow, s.toUpdate.maybeGet key = some arrow →
          ∃ key', s'.toUpdate.maybeGet key' = some arrow := by
    intro items
    induction items with
    | nil =>
      intro s h _
      exact ⟨h, fun x hx => absurd hx not_mem_nil, rfl, rfl, rfl, rfl,
        fun key arrow hq => ⟨key, hq⟩⟩
    | cons x items ih =>
      intro s h hnames
      have hx := hnames x mem_cons_self
      have hnames' : ∀ y ∈ items, (s.enqueue x.1 x.2).Names y.1 y.2 := fun y hy =>
        hnames y (mem_cons_of_mem x hy)
      obtain ⟨hinv, hitems, hgiven, hdirs, hmarked, hheld, hkept⟩ := ih _ (inv_enqueue h hx) hnames'
      refine ⟨hinv, ?_, hgiven, hdirs, hmarked, hheld, ?_⟩
      · intro y hy
        rcases mem_cons.mp hy with hy | hy
        · rw [hy]
          exact hkept x.1 x.2 (maybeGet_enqueue s x.1 x.2)
        · exact hitems y hy
      · intro key arrow hq
        by_cases hk : key = x.1
        · have heq : x.2 = arrow := by
            rw [hk] at hq
            exact hx.unique (h.queued x.1 arrow hq)
          rw [← heq]
          exact hkept x.1 x.2 (maybeGet_enqueue s x.1 x.2)
        · apply hkept key arrow
          change (s.toUpdate.set x.1 x.2).maybeGet key = some arrow
          rw [SortedMap.maybeGet_set, if_neg hk]
          exact hq
  obtain ⟨hinv, hitems, hrest⟩ := hloop held.items s h fun x hx =>
    hn x.1 x.2 (SortedMap.maybeGet_eq_some.mpr hx)
  exact ⟨hinv, fun key arrow hq => hitems (key, arrow) (SortedMap.maybeGet_eq_some.mp hq), hrest⟩

/-- An arrow is waiting: in the queue, or set aside by the running update. -/
def Waiting (s : Schedule D) (arrow : Arrow D) : Prop :=
  (∃ key, s.toUpdate.maybeGet key = some arrow) ∨
    ∃ held, s.held = some held ∧ ∃ key, held.maybeGet key = some arrow

theorem inv_marked {marked : List (Arrow D)} (h : { s with marked := marked }.Inv)
    (hm : ∀ arrow ∈ s.marked, arrow ∈ marked ∨ s.Waiting arrow) : s.Inv := by
  refine ⟨h.positive, h.owned, h.queued, h.deferred, ?_, h.same⟩
  intro arrow ha
  rcases hm arrow ha with hin | hw
  · exact h.scheduled arrow hin
  · exact hw

theorem names_currentTime (h : s.Inv) {time : Priority}
    (ht : s.currentTime arrow = some time) : s.Names time arrow := by
  unfold currentTime at ht
  split at ht
  · rename_i child parent hc hp
    cases ht
    exact names_current h hc hp
  · cases ht

theorem getTime_timeStack (s : Schedule D) (time : ℤ) : (s.timeStack time).getLast = time := by
  unfold timeStack
  cases s.currentTimeStack with
  | none => rfl
  | some timeStack => exact TimeStack.getLast_extend timeStack time

variable {s' : Schedule D}

theorem inv_timeStamp (h : s.Inv) {genSym : ℤ}
    (hs : s.timeStamp dirName genSym = some s') :
    s'.Inv ∧ s'.given.maybeGet genSym = some dirName := by
  unfold timeStamp at hs
  split_ifs at hs with hfresh
  cases hs
  have hgiven : ∀ time owner, s.given.maybeGet time = some owner →
      (s.given.set genSym dirName).maybeGet time = some owner := by
    intro time owner ht
    rw [SortedMap.maybeGet_set, if_neg]
    · exact ht
    · intro he
      rw [he, hfresh.2] at ht
      cases ht
  have hnames : ∀ key arrow, s.Names key arrow →
      ({ s with time := genSym, given := s.given.set genSym dirName } : Schedule D).Names key arrow :=
    fun key arrow hn => ⟨hgiven _ _ hn.1, hgiven _ _ hn.2⟩
  refine ⟨⟨?_, ?_, ?_, ?_, h.scheduled, h.same⟩, ?_⟩
  · intro time owner ht
    change (s.given.set genSym dirName).maybeGet time = some owner at ht
    rw [SortedMap.maybeGet_set] at ht
    split_ifs at ht with he
    · rw [he]
      exact hfresh.1
    · exact h.positive time owner ht
  · exact fun name node hd => hgiven _ _ (h.owned name node hd)
  · exact fun key arrow hq => hnames key arrow (h.queued key arrow hq)
  · exact fun held hheld key arrow hq => hnames key arrow (h.deferred held hheld key arrow hq)
  · change (s.given.set genSym dirName).maybeGet genSym = some dirName
    rw [SortedMap.maybeGet_set, if_pos rfl]

theorem inv_setDir (h : s.Inv) {node : Node D}
    (hn : s.given.maybeGet node.getTime = some dirName) : (s.setDir dirName node).Inv := by
  refine ⟨h.positive, ?_, h.queued, h.deferred, h.scheduled, h.same⟩
  intro name node' hd
  change (s.dirs.set dirName node).maybeGet name = some node' at hd
  rw [SortedMap.maybeGet_set] at hd
  split_ifs at hd with he
  · cases hd
    rw [he]
    exact hn
  · exact h.owned name node' hd

theorem inv_removeDir (h : s.Inv)
    (hs : s.removeDir dirName = some s') : s'.Inv := by
  unfold removeDir at hs
  cases hd : s.dirs.maybeGet dirName with
  | none =>
    rw [hd] at hs
    cases hs
    exact h
  | some node =>
    rw [hd] at hs
    have hown := h.owned dirName node hd
    cases node with
    | eager timeStack parents =>
      cases hs
      exact inv_setDir h hown
    | lazy timeStack => cases hs
    | deleted timeStack =>
      cases hs
      exact h

theorem removeMin_spec {queue rest : SortedMap Priority (Arrow D)} (hm : queue.removeMin = some
    (key, arrow, rest)) :
    queue.maybeGet key = some arrow ∧
      (∀ key' arrow', rest.maybeGet key' = some arrow' → queue.maybeGet key' = some arrow') ∧
      ∀ key' arrow', queue.maybeGet key' = some arrow' →
        arrow' = arrow ∨ rest.maybeGet key' = some arrow' := by
  have hitems := SortedMap.items_of_removeMin hm
  simp only [SortedMap.maybeGet_eq_some, hitems, mem_cons]
  refine ⟨Or.inl trivial, fun key' arrow' hr => Or.inr hr, ?_⟩
  intro key' arrow' hq
  rcases hq with hq | hq
  · exact Or.inl (congrArg Prod.snd hq)
  · exact Or.inr hq

theorem inv_popped (h : s.Inv) {rest : SortedMap Priority (Arrow D)}
    (hm : s.toUpdate.removeMin = some (key, arrow, rest)) :
    (({ s with toUpdate := rest } : Schedule D).unmark arrow).Inv := by
  obtain ⟨_, hsub, hrest⟩ := removeMin_spec hm
  refine ⟨h.positive, h.owned, fun key' arrow' hq => h.queued key' arrow' (hsub key' arrow' hq),
    h.deferred, ?_, h.same⟩
  intro arrow' ha
  obtain ⟨hin, hne⟩ := mem_filter.mp ha
  have hne' : arrow' ≠ arrow := of_decide_eq_true hne
  rcases h.scheduled arrow' hin with ⟨key', hq⟩ | hheld
  · exact Or.inl ⟨key', (hrest key' arrow' hq).resolve_left hne'⟩
  · exact Or.inr hheld

theorem mem_unmark {arrow other : Arrow D} (h : other ∈ s.marked) :
    other = arrow ∨ other ∈ (s.unmark arrow).marked := by
  by_cases he : other = arrow
  · exact Or.inl he
  · exact Or.inr (mem_filter.mpr ⟨h, decide_eq_true he⟩)

theorem inv_release (h : s.Inv) (hheld : s.held = some held) :
    ({ s.restoreDeferredUpdates held with held := none } : Schedule D).Inv := by
  obtain ⟨hinv, hback, _, _, hmarked, _, hkept⟩ := inv_restore h (h.deferred held hheld)
  refine ⟨hinv.positive, hinv.owned, hinv.queued, fun _ hnone => (by cases hnone), ?_,
    hinv.same⟩
  intro arrow ha
  change arrow ∈ (s.restoreDeferredUpdates held).marked at ha
  rw [hmarked] at ha
  left
  rcases h.scheduled arrow ha with ⟨key, hq⟩ | ⟨held', hh, key, hq⟩
  · exact hkept key arrow hq
  · rw [hheld] at hh
    cases hh
    exact hback key arrow hq

theorem restore_unmark (s : Schedule D) (arrow : Arrow D) (held : SortedMap Priority (Arrow D)) :
    (s.unmark arrow).restoreDeferredUpdates held = (s.restoreDeferredUpdates held).unmark arrow := by
  unfold restoreDeferredUpdates
  induction held.items generalizing s with
  | nil => rfl
  | cons x items ih => exact ih (s.enqueue x.1 x.2)

theorem inv_dispatch (h : (s.unmark arrow).Inv)
    (hheld : s.held = some held) (eligible before : D → Bool) {queuedTime : Priority}
    (hn : s.Names queuedTime arrow) : (s.dispatch held eligible before queuedTime arrow).Inv := by
  unfold dispatch
  split_ifs
  · have hdeferred : ∀ key arrow', (held.set queuedTime arrow).maybeGet key = some arrow' →
        s.Names key arrow' := by
      intro key arrow' hq
      rw [SortedMap.maybeGet_set] at hq
      split_ifs at hq with hk
      · cases hq
        rw [hk]
        exact hn
      · exact h.deferred held hheld key arrow' hq
    refine ⟨h.positive, h.owned, h.queued, ?_, ?_, h.same⟩
    · intro held' hh
      cases hh
      exact hdeferred
    · intro arrow' ha
      have hnew : (held.set queuedTime arrow).maybeGet queuedTime = some arrow := by
        rw [SortedMap.maybeGet_set, if_pos rfl]
      rcases mem_unmark ha with he | hin
      · rw [he]
        exact Or.inr ⟨_, rfl, queuedTime, hnew⟩
      · rcases h.scheduled arrow' hin with hq | ⟨held', hh, key, hq⟩
        · exact Or.inl hq
        · change s.held = some held' at hh
          rw [hheld] at hh
          cases hh
          right
          refine ⟨_, rfl, ?_⟩
          by_cases hk : key = queuedTime
          · have he : arrow' = arrow := by
              rw [hk] at hq
              exact (h.deferred held hheld queuedTime arrow' hq).unique hn
            exact ⟨queuedTime, he ▸ hnew⟩
          · exact ⟨key, by rw [SortedMap.maybeGet_set, if_neg hk]; exact hq⟩
  · have hrestored := inv_release h hheld
    rw [restore_unmark] at hrestored
    have hnames : ({ (s.restoreDeferredUpdates held).unmark arrow with held := none } :
        Schedule D).Names queuedTime arrow := by
      obtain ⟨_, _, hgiven, _⟩ := inv_restore h (h.deferred held hheld)
      rw [restore_unmark] at hgiven
      have hg : (s.restoreDeferredUpdates held).given = s.given := hgiven
      unfold Names
      change (s.restoreDeferredUpdates held).given.maybeGet _ = _ ∧
        (s.restoreDeferredUpdates held).given.maybeGet _ = _
      rw [hg]
      exact hn
    have hinv := inv_enqueue hrestored hnames
    apply inv_marked (s := { (s.restoreDeferredUpdates held).enqueue queuedTime arrow with held := none })
      hinv
    intro arrow' ha
    rcases mem_unmark (s := s.restoreDeferredUpdates held) ha with he | hin
    · rw [he]
      exact Or.inr (Or.inl ⟨queuedTime, maybeGet_enqueue _ queuedTime arrow⟩)
    · exact Or.inl hin
  · exact h

theorem inv_next (h : s.Inv) (hheld : s.held = some held)
    (eligible before : D → Bool) (hs : s.next held eligible before = some s') :
    s'.Inv := by
  unfold next at hs
  cases hm : s.toUpdate.removeMin with
  | none =>
    rw [hm] at hs
    cases hs
    exact inv_release h hheld
  | some popped =>
    obtain ⟨queuedTime, arrow, rest⟩ := popped
    rw [hm] at hs
    obtain ⟨valid, _, he⟩ := Option.map_eq_some_iff.mp hs
    have hn := h.queued queuedTime arrow (removeMin_spec hm).1
    have hpopped := inv_popped h hm
    have hdispatch := inv_dispatch hpopped hheld eligible before hn
    rw [← he]
    cases valid with
    | false => exact hpopped
    | true =>
      cases hc : s.currentTime arrow with
      | none => exact hdispatch
      | some time =>
        simp only [Bool.not_true, Bool.false_eq_true, if_false]
        split_ifs with hmoved
        · have hnames := names_currentTime h hc
          have hinv := inv_enqueue hpopped hnames
          apply inv_marked (s := ({ s with toUpdate := rest } : Schedule D).enqueue time arrow) hinv
          intro arrow' ha
          rcases mem_unmark (s := s) ha with he | hin
          · rw [he]
            exact Or.inr (Or.inl ⟨time, maybeGet_enqueue _ time arrow⟩)
          · exact Or.inl hin
        · exact hdispatch

theorem inv_step (h : s.Inv) {event : ScheduleEvent D}
    (hs : s.step event = some s') : s'.Inv := by
  cases event with
  | mkdirMulti dirName genSym =>
    have hstamp : ∃ stamped, s.timeStamp dirName genSym = some stamped ∧
        stamped.setDir dirName (.eager (stamped.timeStack genSym) []) = s' := by
      simp only [step] at hs
      split at hs
      · cases hs
      · exact Option.map_eq_some_iff.mp hs
    obtain ⟨stamped, hst, he⟩ := hstamp
    obtain ⟨hinv, hgiven⟩ := inv_timeStamp h hst
    rw [← he]
    exact inv_setDir hinv ((congrArg _ (getTime_timeStack _ _)).trans hgiven)
  | applying dirName genSym =>
    obtain ⟨removed, hr, hst⟩ := Option.bind_eq_some_iff.mp hs
    exact (inv_timeStamp (inv_removeDir h hr) hst).1
  | applied dirName timeStack parents =>
    simp only [step] at hs
    split_ifs at hs with hgiven
    cases hs
    exact inv_setDir h hgiven
  | reuseDir dirName genSym =>
    simp only [step] at hs
    split at hs
    · obtain ⟨stamped, hst, he⟩ := Option.map_eq_some_iff.mp hs
      obtain ⟨hinv, hgiven⟩ := inv_timeStamp h hst
      rw [← he]
      exact inv_setDir hinv ((congrArg _ (getTime_timeStack _ _)).trans hgiven)
    · cases hs
  | createLazy dirName genSym =>
    obtain ⟨stamped, hst, he⟩ := Option.map_eq_some_iff.mp hs
    obtain ⟨hinv, hgiven⟩ := inv_timeStamp h hst
    rw [← he]
    exact inv_setDir hinv ((congrArg _ (getTime_timeStack _ _)).trans hgiven)
  | updatePre dirName genSym =>
    obtain ⟨stamped, hst, he⟩ := Option.map_eq_some_iff.mp hs
    obtain ⟨hinv, hgiven⟩ := inv_timeStamp h hst
    rw [← he]
    exact inv_setDir hinv hgiven
  | importDir dirName node =>
    simp only [step] at hs
    split at hs
    · rename_i hnone
      split_ifs at hs with hpos
      cases hs
      have hstamp : s.timeStamp dirName node.getTime =
          some { s with time := node.getTime, given := s.given.set node.getTime dirName } := by
        unfold timeStamp
        rw [if_pos ⟨hpos, hnone⟩]
      obtain ⟨hinv, hgiven⟩ := inv_timeStamp h hstamp
      have hsame : ({ s with given := s.given.set node.getTime dirName } : Schedule D).Inv :=
        ⟨hinv.positive, hinv.owned, hinv.queued, hinv.deferred, hinv.scheduled, hinv.same⟩
      exact inv_setDir hsame hgiven
    · rename_i owner hgiven
      split_ifs at hs with howner
      cases hs
      rw [howner] at hgiven
      exact inv_setDir h hgiven
  | removeDir dirName => exact inv_removeDir h hs
  | enter arrow timeStack =>
    cases hs
    exact ⟨h.positive, h.owned, h.queued, h.deferred, h.scheduled, h.same⟩
  | leave =>
    cases hs
    exact ⟨h.positive, h.owned, h.queued, h.deferred, h.scheduled, h.same⟩
  | invalidateReader reader =>
    cases hs
    exact inv_invalidateReader h reader
  | written dirName time childNames =>
    simp only [step] at hs
    split_ifs at hs with hgiven
    cases hs
    exact inv_writeEntry childNames h hgiven
  | startUpdate =>
    simp only [step] at hs
    split at hs
    · rename_i hheld
      cases hs
      refine ⟨h.positive, h.owned, h.queued, ?_, ?_, h.same⟩
      · intro held hh key arrow hq
        cases hh
        cases hq
      · intro arrow ha
        rcases h.scheduled arrow ha with hq | ⟨held, hh, _⟩
        · exact Or.inl hq
        · rw [hheld] at hh
          cases hh
    · cases hs
  | next eligible before =>
    obtain ⟨held, hheld, hn⟩ := Option.bind_eq_some_iff.mp hs
    exact inv_next h hheld eligible before hn
  | stopAfter =>
    obtain ⟨held, hheld, he⟩ := Option.map_eq_some_iff.mp hs
    rw [← he]
    exact inv_release h hheld

theorem inv_run (h : s.Inv) {events : List (ScheduleEvent D)}
    (hr : s.run events = some s') : s'.Inv := by
  induction events generalizing s with
  | nil =>
    cases hr
    exact h
  | cons event rest ih =>
    unfold run at hr
    rw [foldlM_cons] at hr
    obtain ⟨s1, hs1, hrest⟩ := Option.bind_eq_some_iff.mp hr
    exact ih (inv_step h hs1) hrest

/-- The event takes the arrow from the queue, to run it or because it no longer is an edge
of the graph. -/
def Ends (s : Schedule D) (event : ScheduleEvent D) (arrow : Arrow D) : Prop :=
  ∃ eligible before key rest, event = .next eligible before ∧
    s.toUpdate.removeMin = some (key, arrow, rest) ∧
      (s.valid arrow = some false ∨
        s.valid arrow = some true ∧ eligible arrow.childName = true ∧
          before arrow.childName = false)

theorem marked_foldl {α : Type} {f : Schedule D → α → Schedule D}
    (hf : ∀ s x, ∀ arrow ∈ s.marked, arrow ∈ (f s x).marked) (xs : List α) (s : Schedule D) :
    ∀ arrow ∈ s.marked, arrow ∈ (xs.foldl f s).marked := by
  induction xs generalizing s with
  | nil => exact fun _ ha => ha
  | cons x xs ih => exact fun arrow ha => ih (f s x) arrow (hf s x arrow ha)

theorem marked_restore (s : Schedule D) (held : SortedMap Priority (Arrow D))
    (ha : arrow ∈ s.marked) : arrow ∈ (s.restoreDeferredUpdates held).marked := by
  apply marked_foldl _ held.items s arrow ha
  intro s x arrow ha
  exact ha

theorem marked_invalidateReader (s : Schedule D) (reader : Arrow D)
    (ha : arrow ∈ s.marked) : arrow ∈ (s.invalidateReader reader).marked := by
  unfold invalidateReader
  split
  · exact ha
  · split
    · exact ha
    · exact mem_cons_of_mem reader ha

theorem marked_writeEntry (s : Schedule D) (dirName : D) (time : ℤ) (childNames : List D)
    (ha : arrow ∈ s.marked) :
    arrow ∈ (s.writeEntry dirName time childNames).marked := by
  apply marked_foldl _ childNames s arrow ha
  intro s childName arrow ha
  split
  · exact mem_cons_of_mem _ ha
  · exact ha

theorem marked_timeStamp {genSym : ℤ}
    (hs : s.timeStamp dirName genSym = some s') : s'.marked = s.marked := by
  unfold timeStamp at hs
  split_ifs at hs
  cases hs
  rfl

theorem marked_removeDir (hs : s.removeDir dirName = some s') :
    s'.marked = s.marked := by
  unfold removeDir at hs
  split at hs
  · cases hs
    rfl
  · cases hs
  · cases hs
    rfl

theorem marked_next {eligible before : D → Bool} (hs : s.next held eligible before = some s')
    (ha : arrow ∈ s.marked) :
    arrow ∈ s'.marked ∨ s.Ends (.next eligible before) arrow := by
  unfold next at hs
  cases hm : s.toUpdate.removeMin with
  | none =>
    rw [hm] at hs
    cases hs
    exact Or.inl (marked_restore s held ha)
  | some popped =>
    obtain ⟨queuedTime, first, rest⟩ := popped
    rw [hm] at hs
    obtain ⟨valid, hv, he⟩ := Option.map_eq_some_iff.mp hs
    have hunmark : (valid = false ∨ valid = true ∧ eligible first.childName = true ∧
        before first.childName = false) →
        arrow ∈ (({ s with toUpdate := rest } : Schedule D).unmark first).marked ∨
          s.Ends (.next eligible before) arrow := by
      intro hends
      rcases mem_unmark (s := s) ha with heq | hin
      · right
        refine ⟨eligible, before, queuedTime, rest, rfl, heq ▸ hm, ?_⟩
        rw [heq]
        rcases hends with hf | ⟨ht, hrest⟩
        · exact Or.inl (hf ▸ hv)
        · exact Or.inr ⟨ht ▸ hv, hrest⟩
      · exact Or.inl hin
    have hdispatch : valid = true →
        arrow ∈ (({ s with toUpdate := rest } : Schedule D).dispatch held eligible before queuedTime
          first).marked ∨ s.Ends (.next eligible before) arrow := by
      intro ht
      unfold dispatch
      split_ifs with heligible hbefore
      · exact Or.inl ha
      · exact Or.inl (marked_restore ({ s with toUpdate := rest } : Schedule D) held ha)
      · apply hunmark
        refine Or.inr ⟨ht, ?_, eq_false_of_ne_true hbefore⟩
        simpa using heligible
    rw [← he]
    cases valid with
    | false => exact hunmark (Or.inl rfl)
    | true =>
      cases hc : s.currentTime first with
      | none => exact hdispatch rfl
      | some time =>
        simp only [Bool.not_true, Bool.false_eq_true, if_false]
        split_ifs
        · exact Or.inl ha
        · exact hdispatch rfl

theorem marked_step {event : ScheduleEvent D} (hs : s.step event = some s')
    (ha : arrow ∈ s.marked) : arrow ∈ s'.marked ∨ s.Ends event arrow := by
  cases event with
  | next eligible before =>
    obtain ⟨held, _, hn⟩ := Option.bind_eq_some_iff.mp hs
    exact marked_next hn ha
  | mkdirMulti dirName genSym =>
    left
    simp only [step] at hs
    split at hs
    · cases hs
    · obtain ⟨stamped, hst, he⟩ := Option.map_eq_some_iff.mp hs
      rw [← he]
      exact marked_timeStamp hst ▸ ha
  | applying dirName genSym =>
    left
    obtain ⟨removed, hr, hst⟩ := Option.bind_eq_some_iff.mp hs
    rw [marked_timeStamp hst, marked_removeDir hr]
    exact ha
  | applied dirName timeStack parents =>
    left
    simp only [step] at hs
    split_ifs at hs
    cases hs
    exact ha
  | reuseDir dirName genSym =>
    left
    simp only [step] at hs
    split at hs
    · obtain ⟨stamped, hst, he⟩ := Option.map_eq_some_iff.mp hs
      rw [← he]
      exact marked_timeStamp hst ▸ ha
    · cases hs
  | createLazy dirName genSym =>
    left
    obtain ⟨stamped, hst, he⟩ := Option.map_eq_some_iff.mp hs
    rw [← he]
    exact marked_timeStamp hst ▸ ha
  | updatePre dirName genSym =>
    left
    obtain ⟨stamped, hst, he⟩ := Option.map_eq_some_iff.mp hs
    rw [← he]
    exact marked_timeStamp hst ▸ ha
  | importDir dirName node =>
    left
    simp only [step] at hs
    split at hs
    · split_ifs at hs
      cases hs
      exact ha
    · split_ifs at hs
      cases hs
      exact ha
  | removeDir dirName =>
    left
    rw [marked_removeDir hs]
    exact ha
  | enter other timeStack =>
    cases hs
    exact Or.inl ha
  | leave =>
    cases hs
    exact Or.inl ha
  | invalidateReader reader =>
    cases hs
    exact Or.inl (marked_invalidateReader s reader ha)
  | written dirName time childNames =>
    left
    simp only [step] at hs
    split_ifs at hs
    cases hs
    exact marked_writeEntry s dirName time childNames ha
  | startUpdate =>
    left
    simp only [step] at hs
    split at hs
    · cases hs
      exact ha
    · cases hs
  | stopAfter =>
    left
    obtain ⟨held, _, he⟩ := Option.map_eq_some_iff.mp hs
    rw [← he]
    exact marked_restore s held ha

/-- Scheduling never overwrites another arrow: arrows queued at one place are the same, an
entry was only ever replaced by its own arrow, and a marked arrow waits until it is run
or stops being an edge. -/
theorem run_schedule {events : List (ScheduleEvent D)} {s : Schedule D}
    (hr : (empty : Schedule D).run events = some s) :
    (∀ arrow other key, s.currentTime arrow = some key → s.currentTime other = some key →
      arrow = other) ∧
    (∀ pair ∈ s.replaced, pair.1 = pair.2) ∧
    (∀ arrow ∈ s.marked, s.Waiting arrow) ∧
    ∀ event s', s.step event = some s' → ∀ arrow ∈ s.marked,
      arrow ∈ s'.marked ∨ s.Ends event arrow := by
  have hinv := inv_run inv_empty hr
  refine ⟨?_, hinv.same, hinv.scheduled, fun event s' hs arrow ha => marked_step hs ha⟩
  intro arrow other key ha ho
  exact (names_currentTime hinv ha).unique (names_currentTime hinv ho)

/-- A map of directory 1 that is created, invalidated twice and held back by an update. -/
def heldBack : List (ScheduleEvent ℕ) :=
  [.mkdirMulti 1 5, .applying 2 6, .applied 2 (.createInput 6) [1], .invalidateReader ⟨1, 2⟩,
    .written 1 5 [2], .startUpdate, .next (fun _ => false) (fun _ => false)]

theorem run_schedule_heldBack : ∃ s : Schedule ℕ, empty.run heldBack = some s ∧
    (∀ arrow other key, s.currentTime arrow = some key → s.currentTime other = some key →
      arrow = other) ∧
    (∀ pair ∈ s.replaced, pair.1 = pair.2) ∧
    (∀ arrow ∈ s.marked, s.Waiting arrow) ∧
    ∀ event s', s.step event = some s' → ∀ arrow ∈ s.marked,
      arrow ∈ s'.marked ∨ s.Ends event arrow := by
  have hsome : ((empty : Schedule ℕ).run heldBack).isSome = true := by decide
  obtain ⟨s, hs⟩ := Option.isSome_iff_exists.mp hsome
  exact ⟨s, hs, run_schedule hs⟩

/-- In every run directories have positive times of their own: no two of them are updated at one
place of the order. -/
theorem run_times {events : List (ScheduleEvent D)} {s : Schedule D}
    (hr : (empty : Schedule D).run events = some s) (dirName : D) :
    ∀ node, s.dirs.maybeGet dirName = some node → 0 < node.getTime ∧
      ∀ other node', s.dirs.maybeGet other = some node' → node.getTime = node'.getTime →
        dirName = other := by
  intro node hnode
  have hinv := inv_run inv_empty hr
  have howned := hinv.owned dirName node hnode
  refine ⟨hinv.positive _ _ howned, fun other node' hnode' htime => ?_⟩
  have howned' := hinv.owned other node' hnode'
  rw [← htime, howned] at howned'
  exact Option.some.inj howned'

theorem run_times_heldBack : ∃ s : Schedule ℕ, empty.run heldBack = some s ∧
    ∀ node, s.dirs.maybeGet 1 = some node → 0 < node.getTime ∧
      ∀ other node', s.dirs.maybeGet other = some node' → node.getTime = node'.getTime →
        1 = other := by
  have hsome : ((empty : Schedule ℕ).run heldBack).isSome = true := by decide
  obtain ⟨s, hs⟩ := Option.isSome_iff_exists.mp hsome
  exact ⟨s, hs, run_times hs 1⟩

end SkipPlatform.Schedule
