import Mathlib.Data.String.Basic
import SkipPlatform.StoreMerge

set_option autoImplicit false
set_option linter.unusedSectionVars false

/-! `resolveContext`: the context that a transaction commits, from the root it finds under
the lock and the working context it brings. -/
namespace SkipPlatform
open List SortedMerge StoreSourceMap StoreContext

inductive Exn (E : Type) where
  | violation (message : String)
  | purgeFailed
  | user (exn : E)

inductive GlobalFile (D E X : Type) [LinearOrder D] where
  | error (exn : Exn E)
  | changedDirs (value : SortedSet D)
  | other (file : X)

/-- The parts of a context that a merge reads or sets; `rest` is what it only clones. -/
structure Context (D K F P E X R : Type) [LinearOrder D] [StoreKey K] where
  store : StoreContext D K F
  deps : StoreDeps.Deps D K P F
  globals : SortedMap String (GlobalFile D E X)
  toPurge : SortedSet D
  rest : R

/-- Each function leaves the mutable contexts it was given as they are when it returns or
raises. -/
structure Synchronizer (C E : Type) where
  importFromRoot : C → ℕ → C → Except (Exn E) Unit × C
  exportToRoot : C → ℕ → C → Except (Exn E) Bool × C
  afterUnlock : C → Except (Exn E) Unit

abbrev LockFunction (C E : Type) := C → C → C → Except (Exn E) Unit × C × C

section Resolve
variable {D K F P E X R : Type} [LinearOrder D] [StoreKey K] [DecidableEq F]

namespace Context

def setGlobal (c : Context D K F P E X R) (name : String) (file : GlobalFile D E X) :
    Context D K F P E X R :=
  { c with globals := c.globals.set name file }

def purge (purgeFrom : StoreContext D K F → EagerDir D K F → ℕ) (c : Context D K F P E X R) :
    Except (Exn E) (Context D K F P E X R) :=
  match c.store.purgeDirs purgeFrom c.toPurge with
  | some store => .ok { c with store := store, toPurge := .empty }
  | none => .error .purgeFailed

end Context

def cloneContextWithError (context : Context D K F P E X R) (error : Exn E) :
    Context D K F P E X R :=
  context.setGlobal "Error" (.error error)

def resolveContext (purgeFrom : StoreContext D K F → EagerDir D K F → ℕ) (tick : ℕ)
    (root delta : Context D K F P E X R)
    (synchronizer : Option (Synchronizer (Context D K F P E X R) E))
    (lockF : Option (LockFunction (Context D K F P E X R) E)) :
    Except (Exn E) (Context D K F P E X R) :=
  match synchronizer with
  | none =>
    if tick = root.store.tick then delta.purge purgeFrom
    else .error (.violation "Concurrent access without synchronizer")
  | some sync =>
    let changedDirs := delta.store.dirs.getChangesAfter tick
    match sync.importFromRoot delta tick root with
    | (.error exn, _) => .ok (cloneContextWithError root exn)
    | (.ok _, delta) =>
      match sync.exportToRoot { root with globals := delta.globals } tick delta with
      | (.error exn, _) => .ok (cloneContextWithError root exn)
      | (.ok hasVersioning, newRoot) =>
        let finish := fun (newRoot : Context D K F P E X R) (changedDirs : SortedSet D) =>
          (if hasVersioning then newRoot
            else newRoot.setGlobal "CHANGED_DIRS" (.changedDirs changedDirs)).purge purgeFrom
        match lockF with
        | none => finish newRoot changedDirs
        | some f =>
          match f newRoot delta root with
          | (.error exn, _) => .ok (cloneContextWithError root exn)
          | (.ok _, locked, _) =>
            finish locked
              (changedDirs.union (locked.store.dirs.getChangesAfter newRoot.store.tick))

/-- The first of the three functions that raises, and what it raises. -/
inductive Raises (sync : Synchronizer (Context D K F P E X R) E)
    (lockF : Option (LockFunction (Context D K F P E X R) E)) (tick : ℕ)
    (root delta : Context D K F P E X R) (exn : Exn E) : Prop
  | importFromRoot (stopped : Context D K F P E X R)
    (h : sync.importFromRoot delta tick root = (.error exn, stopped))
  | exportToRoot (imported stopped : Context D K F P E X R)
    (hi : sync.importFromRoot delta tick root = (.ok (), imported))
    (h : sync.exportToRoot { root with globals := imported.globals } tick imported =
      (.error exn, stopped))
  | lockF (imported newRoot : Context D K F P E X R)
    (stopped : Context D K F P E X R × Context D K F P E X R) (hasVersioning : Bool)
    (f : LockFunction (Context D K F P E X R) E)
    (hi : sync.importFromRoot delta tick root = (.ok (), imported))
    (he : sync.exportToRoot { root with globals := imported.globals } tick imported =
      (.ok hasVersioning, newRoot))
    (hf : lockF = some f) (h : f newRoot imported root = (.error exn, stopped))

/-- Whatever else they change, the two functions import and export the directories as
`import` does. -/
structure Synchronizer.Imports (sync : Synchronizer (Context D K F P E X R) E)
    (gen : D → Source D K) : Prop where
  importFromRoot : ∀ delta tick root delta', sync.importFromRoot delta tick root = (.ok (), delta') →
    importChanges gen delta.store tick root.store = some delta'.store
  exportToRoot : ∀ root tick delta hasVersioning root',
    sync.exportToRoot root tick delta = (.ok hasVersioning, root') →
      importChanges gen root.store tick delta.store = some root'.store

/-- The function run under the lock leaves the input directories alone. -/
def LeavesInputs (f : LockFunction (Context D K F P E X R) E) : Prop :=
  ∀ newRoot delta root locked delta', f newRoot delta root = (.ok (), locked, delta') →
    newRoot.store.SameInputs locked.store ∧ (newRoot.store.Writeable → locked.store.Writeable)

variable {purgeFrom : StoreContext D K F → EagerDir D K F → ℕ} {tick : ℕ}
  {root delta result : Context D K F P E X R}
  {lockF : Option (LockFunction (Context D K F P E X R) E)}

variable {sync : Synchronizer (Context D K F P E X R) E}

theorem resolveContext_raises {exn : Exn E}
    (h : Raises sync lockF tick root delta exn) :
    resolveContext purgeFrom tick root delta (some sync) lockF =
      .ok { root with globals := root.globals.set "Error" (.error exn) } := by
  unfold resolveContext
  cases h with
  | importFromRoot stopped h => simp only [h, cloneContextWithError, Context.setGlobal]
  | exportToRoot imported stopped hi h => simp only [hi, h, cloneContextWithError, Context.setGlobal]
  | lockF imported newRoot stopped hasVersioning f hi he hf h =>
    simp only [hi, he, hf, h, cloneContextWithError, Context.setGlobal]

theorem purge_sameInputs {c : Context D K F P E X R} (hw : c.store.Writeable)
    (h : c.purge purgeFrom = .ok result) : c.store.SameInputs result.store := by
  unfold Context.purge at h
  split at h
  · rename_i store hstore
    cases h
    exact purgeDirs_sameInputs hw hstore
  · cases h

theorem SameInputs.trans {c c' c'' : StoreContext D K F} (h : c.SameInputs c')
    (h' : c'.SameInputs c'') : c.SameInputs c'' := by
  intro dirName d'' hd'' hi
  obtain ⟨d', hd', hi', hsame'⟩ := h' dirName d'' hd'' hi
  obtain ⟨d, hd, hinput, hsame⟩ := h dirName d' hd' hi'
  exact ⟨d, hd, hinput, fun source key => (hsame' source key).trans (hsame source key)⟩

theorem resolveContext_exported
    (hno : ∀ exn, ¬ Raises sync lockF tick root delta exn)
    (hlock : ∀ f, lockF = some f → LeavesInputs f)
    (hw : ∀ imported newRoot hasVersioning, sync.importFromRoot delta tick root = (.ok
    (), imported) →
      sync.exportToRoot { root with globals := imported.globals } tick imported =
        (.ok hasVersioning, newRoot) → newRoot.store.Writeable)
    (h : resolveContext purgeFrom tick root delta (some sync) lockF = .ok result) :
    ∃ imported newRoot hasVersioning,
      sync.importFromRoot delta tick root = (.ok (), imported) ∧
        sync.exportToRoot { root with globals := imported.globals } tick imported =
          (.ok hasVersioning, newRoot) ∧ newRoot.store.SameInputs result.store := by
  unfold resolveContext at h
  simp only at h
  split at h
  · rename_i exn stopped hi
    exact absurd (.importFromRoot stopped hi) (hno exn)
  · rename_i imported hi
    split at h
    · rename_i exn stopped he
      exact absurd (.exportToRoot imported stopped hi he) (hno exn)
    · rename_i hasVersioning newRoot he
      refine ⟨imported, newRoot, hasVersioning, hi, he, ?_⟩
      have hready := hw imported newRoot hasVersioning hi he
      have hfinish : ∀ (c : Context D K F P E X R) (changed : SortedSet D), c.store.Writeable →
          (if hasVersioning then c else c.setGlobal "CHANGED_DIRS" (.changedDirs changed)).purge
            purgeFrom = .ok result → c.store.SameInputs result.store := by
        intro c changed hc hp
        split_ifs at hp
        · exact purge_sameInputs hc hp
        · exact purge_sameInputs (c := c.setGlobal "CHANGED_DIRS" (.changedDirs changed)) hc hp
      split at h
      · exact hfinish newRoot _ hready h
      · rename_i f
        split at h
        · rename_i exn stopped hf
          exact absurd (.lockF imported newRoot stopped hasVersioning f hi he rfl hf) (hno exn)
        · rename_i locked delta' hf
          obtain ⟨hsame, hkeeps⟩ := hlock f rfl newRoot imported root locked delta' hf
          exact SameInputs.trans hsame (hfinish locked _ (hkeeps hready) h)

theorem EagerDir.Merged.congr {r dl d d' : EagerDir D K F} (h : EagerDir.Merged tick r dl d)
    (hsame : ∀ source key, d'.getArraySourceKey source key = d.getArraySourceKey source key) :
    EagerDir.Merged tick r dl d' :=
  ⟨fun source key hd hr => (hsame source key).trans (h.written source key hd hr),
    fun source key hr => (hsame source key).trans (h.kept source key hr)⟩

theorem resolveContext_inputs {gen : D → Source D K} (himports : sync.Imports gen)
    (hroot : root.store.Reachable) (hdelta : delta.store.Reachable) (ht : tick ≤ delta.store.tick)
    (hlock : ∀ f, lockF = some f → LeavesInputs f)
    (hno : ∀ exn, ¬ Raises sync lockF tick root delta exn)
    (h : resolveContext purgeFrom tick root delta (some sync) lockF = .ok result) {dirName : D}
    {d : EagerDir D K F} (hd : result.store.dirs.maybeGet dirName = some (.eager d))
    (hi : d.input = true) :
    ∃ r, root.store.dirs.maybeGet dirName = some (.eager r) ∧ r.input = true ∧
      (∀ dl, delta.store.dirs.maybeGet dirName = some (.eager dl) → isReplicated r = true →
        isReplicated dl = true → ¬ r.PurgedPast tick → ¬ dl.PurgedPast tick →
          EagerDir.Merged tick r dl d) ∧
      ((∀ dl, delta.store.dirs.maybeGet dirName = some (.eager dl) → isReplicated dl = false) →
        ∀ source key, d.getArraySourceKey source key = r.getArraySourceKey source key) := by
  have hw : ∀ imported newRoot hasVersioning,
      sync.importFromRoot delta tick root = (.ok (), imported) →
        sync.exportToRoot { root with globals := imported.globals } tick imported =
          (.ok hasVersioning, newRoot) → newRoot.store.Writeable := by
    intro imported newRoot hasVersioning himp hexp
    exact writeable_merged hroot hdelta ht (himports.importFromRoot _ _ _ _ himp)
      (himports.exportToRoot { root with globals := imported.globals } _ _ _ _ hexp)
  obtain ⟨imported, newRoot, hasVersioning, himp, hexp, hsame⟩ :=
    resolveContext_exported hno hlock hw h
  have himport := himports.importFromRoot _ _ _ _ himp
  have hexport : importChanges gen root.store tick imported.store = some newRoot.store :=
    himports.exportToRoot { root with globals := imported.globals } _ _ _ _ hexp
  obtain ⟨d₀, hd₀, hi₀, hvalues⟩ := hsame dirName d hd hi
  obtain ⟨r, hr, hinput, helse⟩ := merged_elsewhere hroot hdelta ht himport hexport hd₀
  refine ⟨r, hr, hinput.trans hi₀, ?_, ?_⟩
  · intro dl hdl hrrep hdlrep hrp hdlp
    have hmerged := merged_importChanges hroot hdelta ht himport hexport hd₀ hr hdl hrrep
      hdlrep hrp hdlp
    exact hmerged.congr hvalues
  · intro hnone source key
    rw [hvalues, helse hnone]

/-- A merge that raises returns the root with the error; one that does not applies the
writes of the working context to the input directories of the root, except where the
root has writes of its own since the tick. -/
theorem resolveContext_merges (purgeFrom : StoreContext D K F → EagerDir D K F → ℕ) (tick : ℕ)
    (root delta : Context D K F P E X R)
    (lockF : Option (LockFunction (Context D K F P E X R) E)) :
    (∀ sync exn, Raises sync lockF tick root delta exn →
      resolveContext purgeFrom tick root delta (some sync) lockF =
        .ok { root with globals := root.globals.set "Error" (.error exn) }) ∧
    (∀ gen sync result, Synchronizer.Imports sync gen → root.store.Reachable →
      delta.store.Reachable → tick ≤ delta.store.tick → (∀ f, lockF = some f → LeavesInputs f) →
      (∀ exn, ¬ Raises sync lockF tick root delta exn) →
      resolveContext purgeFrom tick root delta (some sync) lockF = .ok result →
        ∀ dirName d, result.store.dirs.maybeGet dirName = some (.eager d) → d.input = true →
          ∃ r, root.store.dirs.maybeGet dirName = some (.eager r) ∧ r.input = true ∧
            (∀ dl, delta.store.dirs.maybeGet dirName = some (.eager dl) → isReplicated r = true →
              isReplicated dl = true → ¬ r.PurgedPast tick → ¬ dl.PurgedPast tick →
                EagerDir.Merged tick r dl d) ∧
            ((∀ dl, delta.store.dirs.maybeGet dirName = some (.eager dl) →
              isReplicated dl = false) → ∀ source key,
                d.getArraySourceKey source key = r.getArraySourceKey source key)) ∧
    ∀ result, delta.store.Reachable →
      resolveContext purgeFrom tick root delta none lockF = .ok result →
        tick = root.store.tick ∧ delta.store.SameInputs result.store := by
  refine ⟨fun sync exn h => resolveContext_raises h, ?_, ?_⟩
  · intro gen sync result himports hroot hdelta ht hlock hno h dirName d hd hi
    exact resolveContext_inputs himports hroot hdelta ht hlock hno h hd hi
  · intro result hdelta h
    unfold resolveContext at h
    simp only at h
    split_ifs at h with htick
    exact ⟨htick, purge_sameInputs hdelta.writeable h⟩

/-- `import` and `export` on the directories alone. -/
def directorySync (gen : D → Source D K) : Synchronizer (Context D K F P E X R) E where
  importFromRoot delta tick root :=
    match importChanges gen delta.store tick root.store with
    | some store => (.ok (), { delta with store := store })
    | none => (.error (.violation "Error import: incompatible dir types"), delta)
  exportToRoot root tick delta :=
    match importChanges gen root.store tick delta.store with
    | some store => (.ok false, { root with store := store })
    | none => (.error (.violation "Error import: incompatible dir types"), root)
  afterUnlock _ := .ok ()

theorem directorySync_imports (gen : D → Source D K) :
    (directorySync gen : Synchronizer (Context D K F P E X R) E).Imports gen := by
  constructor
  · intro delta tick root delta' h
    unfold directorySync at h
    simp only at h
    split at h
    · rename_i store hstore
      cases h
      exact hstore
    · cases h
  · intro root tick delta hasVersioning root' h
    unfold directorySync at h
    simp only at h
    split at h
    · rename_i store hstore
      cases h
      exact hstore
    · cases h

end Resolve

section Samples
open EagerDir

structure Only (c : StoreContext ℕ PlainKey ℕ) (d : EagerDir ℕ PlainKey ℕ) : Prop where
  found : c.dirs.maybeGet 1 = some (.eager d)
  others : ∀ name, name ≠ 1 → c.dirs.maybeGet name = none
  replicated : isReplicated d = true

theorem Only.import (gen : ℕ → Source ℕ PlainKey) {c c' : StoreContext ℕ PlainKey ℕ}
    {d d' : EagerDir ℕ PlainKey ℕ} (h : Only c d) (h' : Only c' d') (tick : ℕ) :
    ∃ c'' d'', importChanges gen c tick c' = some c'' ∧ Only c'' d'' := by
  have hone : importDir gen tick c' c 1 =
      some (c.setDir 1 (.eager (d'.importInto ⟨c.tick, none⟩ gen tick d))) := by
    unfold importDir
    rw [h'.found]
    simp only [if_pos h'.replicated, h.found, if_pos (isReplicated_input h.replicated)]
  have hmem : ∀ name ∈ (c'.dirs.getChangesAfter tick).keys, name = 1 := by
    intro name hn
    by_contra hne
    obtain ⟨x, hx, hxn, _⟩ := DMap.mem_getChangesAfter.mp hn
    exact DMap.maybeGet_eq_none.mp (h'.others name hne) x hx hxn
  have hsorted := (c'.dirs.getChangesAfter tick).keys_sorted
  unfold importChanges
  revert hmem hsorted
  generalize (c'.dirs.getChangesAfter tick).keys = names
  intro hmem hsorted
  cases names with
  | nil => exact ⟨c, d, rfl, h⟩
  | cons name rest =>
    have hname : name = 1 := hmem name mem_cons_self
    have hrest : rest = [] := by
      apply eq_nil_iff_forall_not_mem.mpr
      intro other hother
      have hlt := rel_of_pairwise_cons hsorted hother
      rw [hname, hmem other (mem_cons_of_mem name hother)] at hlt
      exact absurd hlt (lt_irrefl 1)
    rw [hname, hrest, foldlM_cons, hone]
    refine ⟨_, d'.importInto ⟨c.tick, none⟩ gen tick d, rfl, ?_, ?_, ?_⟩
    · rw [maybeGet_setDir, if_pos rfl]
    · intro other hne
      rw [maybeGet_setDir, if_neg hne]
      exact h.others other hne
    · rw [isReplicated_congr (identity_importInto _ gen tick d' d)]
      exact h.replicated

abbrev SampleContext := Context ℕ PlainKey ℕ Unit Unit Unit Unit

def sampleContext (store : StoreContext ℕ PlainKey ℕ) : SampleContext :=
  ⟨store, .empty false false, .empty, .empty, ()⟩

def sampleGen (name : ℕ) : Source ℕ PlainKey := ⟨name, .iid 0⟩

theorem Only.resolve {root delta : StoreContext ℕ PlainKey ℕ} {r dl : EagerDir ℕ PlainKey ℕ}
    (hr : Only root r) (hdl : Only delta dl) (tick : ℕ) :
    (∀ exn, ¬ Raises (directorySync sampleGen) none tick (sampleContext root)
      (sampleContext delta) exn) ∧
    ∃ result d, resolveContext (fun _ _ => 0) tick (sampleContext root) (sampleContext delta)
        (some (directorySync sampleGen)) none = .ok result ∧
      result.store.dirs.maybeGet 1 = some (.eager d) ∧ isReplicated d = true := by
  obtain ⟨delta', dl', himport, hdl'⟩ := hdl.import sampleGen hr tick
  obtain ⟨merged, d, hexport, hd⟩ := hr.import sampleGen hdl' tick
  have himp : (directorySync sampleGen : Synchronizer SampleContext Unit).importFromRoot
      (sampleContext delta) tick (sampleContext root) = (.ok (), sampleContext delta') := by
    unfold directorySync sampleContext
    simp only [himport]
  have hexp : (directorySync sampleGen : Synchronizer SampleContext Unit).exportToRoot
      { sampleContext root with globals := (sampleContext delta').globals } tick
        (sampleContext delta') = (.ok false, sampleContext merged) := by
    unfold directorySync sampleContext
    simp only [hexport]
  constructor
  · intro exn hraises
    cases hraises with
    | importFromRoot stopped h =>
      rw [himp] at h
      cases h
    | exportToRoot imported stopped hi h =>
      rw [himp] at hi
      cases hi
      cases hexp.symm.trans h
    | lockF imported newRoot stopped hasVersioning f hi he hf h => cases hf
  · refine ⟨(sampleContext merged).setGlobal "CHANGED_DIRS"
      (.changedDirs (delta.dirs.getChangesAfter tick)), d, ?_, hd.found, hd.replicated⟩
    unfold resolveContext
    simp only [himp, hexp]
    rfl

variable {d : EagerDir ℕ PlainKey ℕ}

theorem StoreContext.Single.only {c : StoreContext ℕ PlainKey ℕ} {tick : ℕ}
    (h : Single c tick d) : Only c d := ⟨h.found, h.others, h.replicated⟩

def withRow (d : EagerDir ℕ PlainKey ℕ) (id : ℤ) (values : List ℕ) : EagerDir ℕ PlainKey ℕ :=
  d.writeEntry ⟨2, none⟩ (sampleSource id) (sampleSource id) (.iid 1) values

structure SampleRows (d : EagerDir ℕ PlainKey ℕ) : Prop where
  valid : d.Valid
  earlier : d.Until 1
  limit : d.tombLimit = none
  first : d.getArraySourceKey (sampleSource 1) (.iid 1) = [10]
  second : d.getArraySourceKey (sampleSource 2) (.iid 1) = [20]

theorem SampleRows.notPurged (h : SampleRows d) (id : ℤ)
    (values : List ℕ) : ¬ (withRow d id values).PurgedPast 2 := by
  intro hp
  obtain ⟨limit, hl, _⟩ := hp
  unfold withRow at hl
  rw [(writeEntry_frame _ _ _ _ _ _).2.2.2.1, h.limit] at hl
  cases hl

theorem SampleRows.value (h : SampleRows d) (id : ℤ)
    (values : List ℕ) : (withRow d id values).getArraySourceKey (sampleSource id)
    (.iid 1) = values := by
  unfold withRow
  rw [getArraySourceKey_writeEntry h.valid.sound rfl, if_pos ⟨rfl, rfl⟩]

theorem SampleRows.recorded (h : SampleRows d) (id : ℤ)
    {values : List ℕ} (hne : values ≠ d.getArraySourceKey (sampleSource id) (.iid 1)) :
    (withRow d id values).Recorded 2 (sampleSource id) (.iid 1) := by
  refine ⟨_, (mem_entries_writeEntry h.valid hne _ _).mpr (Or.inl ⟨rfl, rfl⟩), ?_, ?_⟩
  · rw [DataMapValue.entryOf_source]
    rfl
  · rw [DataMapValue.entryOf_tick]

theorem SampleRows.unrecorded (h : SampleRows d) {id other : ℤ}
    (hne : id ≠ other) (values : List ℕ) :
    ¬ (withRow d id values).Recorded 2 (sampleSource other) (.iid 1) := by
  unfold withRow
  rw [recorded_writeEntry h.valid]
  · intro hr
    have hle := recorded_le h.earlier hr
    omega
  · intro he
    apply hne
    have hsource : sampleSource id = sampleSource other := (Prod.mk.inj he).2
    unfold sampleSource at hsource
    injection hsource with _ hkey
    injection hkey

theorem two_writers (id id' : ℤ) (values values' : List ℕ) :
    ∃ (c c' : StoreContext ℕ PlainKey ℕ) (d : EagerDir ℕ PlainKey ℕ), SampleRows d ∧
      Single c 2 (withRow d id values) ∧ c.Reachable ∧
        Single c' 2 (withRow d id' values') ∧ c'.Reachable := by
  obtain ⟨before, d, hbefore, h, hlimit, hfirst, hsecond⟩ := twoSources_run
  obtain ⟨start, hstart, h2⟩ := h.advance
  obtain ⟨c, hc, hr⟩ := h2.write (sampleSource id) (.iid 1) values
  obtain ⟨c', hc', hdl⟩ := h2.write (sampleSource id') (.iid 1) values'
  have hreach : ∀ {st c}, start.step st = some c → c.Reachable := by
    intro st c hc
    refine ⟨twoSources ++ [.advance 1, st], ?_⟩
    unfold StoreContext.run at hbefore ⊢
    rw [foldlM_append, hbefore]
    simp only [Option.bind_eq_bind, Option.bind_some, foldlM_cons, hstart, hc,
      foldlM_nil, Option.pure_def]
  exact ⟨c, c', d, ⟨h.ready.valid, h.ready.ticks, hlimit, hfirst, hsecond⟩, hr, hreach hc, hdl,
    hreach hc'⟩

theorem imports_sampleGen :
    (directorySync sampleGen : Synchronizer SampleContext Unit).Imports sampleGen :=
  directorySync_imports sampleGen

/-- Both write the first row: the working context's array is dropped. -/
theorem resolveContext_drops_write :
    ∃ (root delta : StoreContext ℕ PlainKey ℕ) (result : SampleContext)
      (dl d : EagerDir ℕ PlainKey ℕ), root.Reachable ∧ delta.Reachable ∧
      (∀ exn, ¬ Raises (directorySync sampleGen) none 2 (sampleContext root)
        (sampleContext delta) exn) ∧
      resolveContext (fun _ _ => 0) 2 (sampleContext root) (sampleContext delta)
        (some (directorySync sampleGen)) none = .ok result ∧
      delta.dirs.maybeGet 1 = some (.eager dl) ∧ result.store.dirs.maybeGet 1 = some (.eager d) ∧
      dl.Recorded 2 (sampleSource 1) (.iid 1) ∧
      dl.getArraySourceKey (sampleSource 1) (.iid 1) = [12] ∧
      d.getArraySourceKey (sampleSource 1) (.iid 1) = [11] := by
  obtain ⟨root, delta, d₀, hrows, hr, hroot, hdl, hdelta⟩ := two_writers 1 1 [11] [12]
  obtain ⟨hno, result, d, hresult, hd, hrep⟩ := hr.only.resolve hdl.only 2
  have hrecorded : ∀ values, values ≠ [10] →
      (withRow d₀ 1 values).Recorded 2 (sampleSource 1) (.iid 1) := by
    intro values hne
    apply hrows.recorded
    rw [hrows.first]
    exact hne
  refine ⟨root, delta, result, _, d, hroot, hdelta, hno, hresult, hdl.found, hd,
    hrecorded [12] (by decide), hrows.value 1 [12], ?_⟩
  obtain ⟨r, hr', _, hmerged, _⟩ := resolveContext_inputs imports_sampleGen hroot hdelta
    (le_of_eq hdl.now.symm) (fun f hf => by cases hf) hno hresult hd (isReplicated_input hrep)
  have hsame : r = withRow d₀ 1 [11] := by
    cases hr'.symm.trans hr.found
    rfl
  rw [hsame] at hmerged
  have hboth := hmerged _ hdl.found hr.replicated hdl.replicated (hrows.notPurged 1 [11])
    (hrows.notPurged 1 [12])
  rw [hboth.kept _ _ (Or.inl (hrecorded [11] (by decide))), hrows.value]

/-- Each writes a row of its own: both arrays are in the result. -/
theorem resolveContext_merges_two_rows :
    ∃ (root delta : StoreContext ℕ PlainKey ℕ) (result : SampleContext) (d : EagerDir ℕ PlainKey ℕ),
      root.Reachable ∧ delta.Reachable ∧
      resolveContext (fun _ _ => 0) 2 (sampleContext root) (sampleContext delta)
        (some (directorySync sampleGen)) none = .ok result ∧
      result.store.dirs.maybeGet 1 = some (.eager d) ∧
      d.getArraySourceKey (sampleSource 1) (.iid 1) = [12] ∧
      d.getArraySourceKey (sampleSource 2) (.iid 1) = [21] := by
  obtain ⟨root, delta, d₀, hrows, hr, hroot, hdl, hdelta⟩ := two_writers 2 1 [21] [12]
  obtain ⟨hno, result, d, hresult, hd, hrep⟩ := hr.only.resolve hdl.only 2
  obtain ⟨r, hr', _, hmerged, _⟩ := (resolveContext_merges (fun _ _ => 0) 2 (sampleContext root)
    (sampleContext delta) none).2.1 sampleGen _ result imports_sampleGen hroot hdelta
      (le_of_eq hdl.now.symm) (fun f hf => by cases hf) hno hresult 1 d hd
        (isReplicated_input hrep)
  have hsame : r = withRow d₀ 2 [21] := by
    cases hr'.symm.trans hr.found
    rfl
  rw [hsame] at hmerged
  have hboth := hmerged _ hdl.found hr.replicated hdl.replicated (hrows.notPurged 2 [21])
    (hrows.notPurged 1 [12])
  have hdelta1 : (withRow d₀ 1 [12]).Recorded 2 (sampleSource 1) (.iid 1) := by
    apply hrows.recorded
    rw [hrows.first]
    decide
  have hroot2 : (withRow d₀ 2 [21]).Recorded 2 (sampleSource 2) (.iid 1) := by
    apply hrows.recorded
    rw [hrows.second]
    decide
  refine ⟨root, delta, result, d, hroot, hdelta, hresult, hd, ?_, ?_⟩
  · rw [hboth.written _ _ hdelta1 (hrows.unrecorded (by decide) [21]), hrows.value]
  · rw [hboth.kept _ _ (Or.inl hroot2), hrows.value]

end Samples
end SkipPlatform
