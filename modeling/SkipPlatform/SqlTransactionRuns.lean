import SkipPlatform.SqlTransaction

set_option autoImplicit false
set_option linter.unusedSectionVars false

/-! A transaction and its statements one by one. -/
namespace SkipPlatform.SqlTransaction
open List

def Name.Plain (name : Name) : Prop := '/' ∉ name ∧ name ≠ ['n', 'e', 'x', 't']

theorem takeWhile_slash {name : Name} (h : '/' ∉ name) (rest : List Char) :
    (name ++ '/' :: rest).takeWhile (· ≠ '/') = name := by
  rw [takeWhile_append_of_pos]
  · simp
  · intro c hc
    exact decide_eq_true fun heq => h (heq ▸ hc)

theorem dropWhile_slash {name : Name} (h : '/' ∉ name) (rest : List Char) :
    (name ++ '/' :: rest).dropWhile (· ≠ '/') = '/' :: rest := by
  rw [dropWhile_append_of_pos]
  · simp
  · intro c hc
    exact decide_eq_true fun heq => h (heq ▸ hc)

theorem digitChar_toNat {digit : ℕ} (h : digit < 10) :
    (DirName.digitChar digit).toNat - 48 = digit := by
  interval_cases digit <;> rfl

theorem toInt_versionText (version : ℕ) : toInt (DirName.versionText version) = version := by
  have hfold : ∀ digits : List ℕ, (∀ digit ∈ digits, digit < 10) →
      toInt (digits.reverse.map DirName.digitChar) = Nat.ofDigits 10 digits := by
    intro digits hdigits
    unfold toInt
    rw [map_reverse, foldl_reverse]
    induction digits with
    | nil => rfl
    | cons digit digits ih =>
      rw [map_cons, foldr_cons, ih fun d hd => hdigits d (mem_cons_of_mem digit hd),
        digitChar_toNat (hdigits digit mem_cons_self), Nat.ofDigits_cons]
      omega
  unfold DirName.versionText
  rw [hfold _ fun digit hdigit => Nat.digits_lt_base (by omega) hdigit, Nat.ofDigits_digits]

theorem slash_not_mem_versionText (version : ℕ) : '/' ∉ DirName.versionText version := by
  unfold DirName.versionText
  intro h
  obtain ⟨digit, hdigit, hchar⟩ := mem_map.mp h
  have hlt : digit < 10 := Nat.digits_lt_base (by omega) (mem_reverse.mp hdigit)
  interval_cases digit <;> cases hchar

theorem makeInputDirName_next {descr : Descr} (h : '/' ∉ descr.name) (version : ℕ) :
    makeInputDirName (DirName.next descr version).text =
      ((DirName.root descr).text, version) := by
  have htext : (DirName.next descr version).text = '/' :: 'n' :: 'e' :: 'x' :: 't' :: '/' ::
      (descr.name ++ '/' :: (DirName.versionText version ++ '/' :: [])) := by
    simp [DirName.text, DirName.nextText]
  rw [htext, makeInputDirName, takeWhile_slash h, dropWhile_slash h, drop_one, tail_cons,
    takeWhile_slash (slash_not_mem_versionText version), toInt_versionText]
  rfl

theorem makeInputDirName_root {descr : Descr} (h : Name.Plain descr.name) :
    makeInputDirName (DirName.root descr).text = ((DirName.root descr).text, 0) := by
  unfold makeInputDirName
  split
  · next rest htext =>
    have htail : descr.name ++ '/' :: [] = ['n', 'e', 'x', 't'] ++ '/' :: rest := by
      simpa [DirName.text] using htext
    have hname := congrArg (List.takeWhile (· ≠ '/')) htail
    rw [takeWhile_slash h.1, takeWhile_slash (by decide)] at hname
    exact absurd hname h.2
  · rfl

theorem root_text_injective {descr descr' : Descr}
    (h : (DirName.root descr).text = (DirName.root descr').text) : descr.name = descr'.name := by
  have htail : descr.name ++ ['/'] = descr'.name ++ ['/'] := by simpa [DirName.text] using h
  exact append_cancel_right htail

section Versions

variable {V : Type} [DecidableEq V] {cat : Catalog V} {d : Delta V} {descr : Descr}

def DirName.version : DirName → ℕ
  | .root _ => 0
  | .next _ version => version

/-- The directory that a table has now, before a version is made for it. -/
def latestName (d : Delta V) (descr : Descr) : DirName :=
  match d.tableMap with
  | none => .root descr
  | some tableMap =>
    match tableMap.map descr with
    | none => .root descr
    | some (_, dirName) => dirName

def latest (cat : Catalog V) (d : Delta V) (descr : Descr) : List (Row V) :=
  d.dirs (follows cat (latestName d descr))

/-- The copies of a table follow each other in the order of their versions, and the map has the
last one. -/
structure Linked (d : Delta V) : Prop where
  none : d.tableMap = none → d.sinks = []
  version : ∀ tableMap, d.tableMap = some tableMap →
    0 < tableMap.version ∧ tableMap.version < d.sym
  mapped : ∀ tableMap, d.tableMap = some tableMap → ∀ descr version dirName,
    tableMap.map descr = some (version, dirName) → 0 < version ∧ version ≤ tableMap.version ∧
      dirName = .next descr version ∧ dirName ∈ d.sinks.map Prod.snd
  parents : ∀ tableMap, d.tableMap = some tableMap → ∀ sink ∈ d.sinks,
    sink.1.version < tableMap.version
  children : ∀ tableMap, d.tableMap = some tableMap → ∀ sink ∈ d.sinks, ∃ descr version last,
    sink.2 = .next descr version ∧ version ≤ last ∧
      tableMap.map descr = some (last, .next descr last)

theorem latestName_none (h : d.tableMap = none) : latestName d descr = .root descr := by
  unfold latestName
  rw [h]

variable {tableMap : TableMap}

theorem latestName_some (h : d.tableMap = some tableMap) :
    latestName d descr = match tableMap.map descr with
      | none => .root descr
      | some (_, dirName) => dirName := by
  unfold latestName
  rw [h]

theorem follows_version (dirName : DirName) : (follows cat dirName).version = dirName.version := by
  unfold follows
  split <;> rfl

theorem Linked.latestName_cases (h : Linked d) (descr : Descr) :
    latestName d descr = .root descr ∨ ∃ version, latestName d descr = .next descr version := by
  cases hmap : d.tableMap with
  | none => exact .inl (latestName_none hmap)
  | some tableMap =>
    rw [latestName_some hmap]
    cases hdescr : tableMap.map descr with
    | none => exact .inl rfl
    | some pair =>
      exact .inr ⟨pair.1, (h.mapped tableMap hmap descr pair.1 pair.2 hdescr).2.2.1⟩

theorem Linked.follows_latestName_ne {descr' : Descr} {name : Name} (h : Linked d)
    (hne : descr' ≠ .table name) (htable : ∃ other, descr' = .table other) :
    follows cat (latestName d descr') ≠ latestName d (.table name) := by
  obtain ⟨other, rfl⟩ := htable
  rcases h.latestName_cases (.table other) with hroot | ⟨version, hnext⟩
  · rw [hroot]
    rcases h.latestName_cases (.table name) with hroot' | ⟨version', hnext'⟩
    · rw [hroot']
      intro heq
      cases heq
      exact hne rfl
    · rw [hnext']
      intro heq
      cases heq
  · rw [hnext]
    rcases h.latestName_cases (.table name) with hroot' | ⟨version', hnext'⟩
    · rw [hroot']
      intro heq
      cases heq
    · rw [hnext']
      intro heq
      cases heq
      exact hne rfl

theorem Linked.start (db : Database V) : Linked (start db) where
  none := fun _ => rfl
  version := fun _ h => by cases h
  mapped := fun _ h => by cases h
  parents := fun _ h => by cases h
  children := fun _ h => by cases h

theorem updateTableMap_dirs (d : Delta V) : (updateTableMap d).dirs = d.dirs := by
  unfold updateTableMap genSym
  cases d.tableMap <;> rfl

theorem latestName_updateTableMap (d : Delta V) (descr : Descr) :
    latestName (updateTableMap d) descr = latestName d descr := by
  unfold latestName updateTableMap genSym
  cases d.tableMap <;> rfl

theorem latest_updateTableMap (d : Delta V) (descr : Descr) :
    latest cat (updateTableMap d) descr = latest cat d descr := by
  unfold latest
  rw [latestName_updateTableMap, updateTableMap_dirs]

theorem Linked.updateTableMap (h : Linked d) : Linked (updateTableMap d) := by
  cases hmap : d.tableMap with
  | none =>
    have hsinks := h.none hmap
    have hnew : SqlTransaction.updateTableMap d =
        { d with sym := d.sym + 2, tableMap := some ⟨d.sym + 1, fun _ => Option.none⟩ } := by
      unfold SqlTransaction.updateTableMap genSym
      rw [hmap]
    rw [hnew]
    refine ⟨fun hnone => absurd hnone (by simp), fun m hm => ?_, fun m hm => ?_, fun m hm => ?_,
      fun m hm => ?_⟩
    · cases hm
      exact ⟨Nat.succ_pos _, Nat.lt_succ_self _⟩
    · cases hm
      intro descr version dirName hget
      cases hget
    · intro sink hsink
      rw [hsinks] at hsink
      exact absurd hsink not_mem_nil
    · intro sink hsink
      rw [hsinks] at hsink
      exact absurd hsink not_mem_nil
  | some tableMap =>
    have hnew : SqlTransaction.updateTableMap d =
        { d with sym := d.sym + 1, tableMap := some ⟨d.sym, tableMap.map⟩ } := by
      unfold SqlTransaction.updateTableMap genSym
      rw [hmap]
    have hversion := h.version tableMap hmap
    rw [hnew]
    refine ⟨fun hnone => absurd hnone (by simp), fun m hm => ?_, fun m hm => ?_, fun m hm => ?_,
      fun m hm => ?_⟩
    · cases hm
      exact ⟨hversion.1.trans hversion.2, Nat.lt_succ_self _⟩
    · cases hm
      intro descr version dirName hget
      have hmapped := h.mapped tableMap hmap descr version dirName hget
      exact ⟨hmapped.1, hmapped.2.1.trans hversion.2.le, hmapped.2.2⟩
    · cases hm
      intro sink hsink
      have hparent := h.parents tableMap hmap sink hsink
      exact hparent.trans hversion.2
    · cases hm
      exact h.children tableMap hmap

structure Latest (cat : Catalog V) (descr : Descr) (d : Delta V) (dirName : DirName)
    (d' : Delta V) : Prop where
  linked : Linked d'
  name : latestName d' descr = dirName
  rows : ∀ other, latest cat d' other = latest cat d other
  roots : ∀ other, d'.dirs (.root other) = d.dirs (.root other)
  leaf : ∀ sink ∈ d'.sinks, sink.1 ≠ dirName
  next : d.tableMap ≠ none → ∀ other, dirName ≠ .root other
  made : ∀ sink ∈ d'.sinks, sink ∈ d.sinks ∨ ∃ version, sink.2 = .next descr version

theorem Linked.follows_ne_next (h : Linked d)
    (hmap : d.tableMap = some tableMap)
    (hold : (latestName d descr).version < tableMap.version) (other : Descr) :
    follows cat (latestName d other) ≠ .next descr tableMap.version := by
  intro heq
  have hversion : (follows cat (latestName d other)).version = (latestName d other).version :=
    follows_version _
  rcases h.latestName_cases other with hroot | ⟨version, hnext⟩
  · rw [heq, hroot] at hversion
    have hpos := (h.version tableMap hmap).1
    change tableMap.version = 0 at hversion
    omega
  · rw [hnext] at heq
    cases heq
    rw [hnext] at hold
    exact absurd hold (lt_irrefl _)

theorem latestName_copyLatest {old : DirName} (other : Descr)
    (hmap : d.tableMap = some tableMap) :
    latestName (copyLatest cat descr d tableMap old).2 other =
      if other = descr then .next descr tableMap.version else latestName d other := by
  rw [latestName_some (d := (copyLatest cat descr d tableMap old).2) rfl, latestName_some hmap]
  by_cases hother : other = descr
  · subst hother
    rw [if_pos rfl]
    simp only [Function.update_self]
  · rw [if_neg hother]
    simp only [Function.update_of_ne hother]

theorem latest_copyLatest (h : Linked d) (hmap : d.tableMap = some tableMap)
    (hversion : (latestName d descr).version < tableMap.version) (other : Descr) :
    latest cat (copyLatest cat descr d tableMap (latestName d descr)).2 other =
      latest cat d other := by
  unfold latest
  rw [latestName_copyLatest other hmap]
  by_cases hother : other = descr
  · subst hother
    rw [if_pos rfl]
    exact Function.update_self _ _ _
  · rw [if_neg hother]
    exact Function.update_of_ne (h.follows_ne_next hmap hversion other) _ _

theorem linked_copyLatest (h : Linked d) (hmap : d.tableMap = some tableMap)
    (hversion : (latestName d descr).version < tableMap.version) :
    Linked (copyLatest cat descr d tableMap (latestName d descr)).2 := by
  have hcurrent := h.version tableMap hmap
  refine ⟨fun hnone => absurd hnone (by simp [copyLatest]), fun m hm => ?_, fun m hm => ?_,
    fun m hm => ?_, fun m hm => ?_⟩
  · cases hm
    exact hcurrent
  · cases hm
    intro other version dirName hget
    simp only [copyLatest, dirDescrCopy, map_append, mem_append]
    by_cases hother : other = descr
    · subst hother
      simp only [Function.update_self] at hget
      cases hget
      exact ⟨hcurrent.1, le_rfl, rfl, .inr mem_cons_self⟩
    · simp only [Function.update_of_ne hother] at hget
      have hmapped := h.mapped tableMap hmap other version dirName hget
      exact ⟨hmapped.1, hmapped.2.1, hmapped.2.2.1, .inl hmapped.2.2.2⟩
  · cases hm
    intro sink hsink
    rcases mem_append.mp hsink with hsink | hsink
    · exact h.parents tableMap hmap sink hsink
    · rw [mem_singleton.mp hsink]
      show (follows cat (latestName d descr)).version < tableMap.version
      rw [follows_version]
      exact hversion
  · cases hm
    intro sink hsink
    rcases mem_append.mp hsink with hsink | hsink
    · obtain ⟨other, version, last, hname, hle, hget⟩ := h.children tableMap hmap sink hsink
      have hmapped := h.mapped tableMap hmap other last _ hget
      by_cases hother : other = descr
      · subst hother
        exact ⟨other, version, tableMap.version, hname, hle.trans hmapped.2.1,
          Function.update_self _ _ _⟩
      · exact ⟨other, version, last, hname, hle, (Function.update_of_ne hother _ _).trans hget⟩
    · rw [mem_singleton.mp hsink]
      exact ⟨descr, tableMap.version, tableMap.version, rfl, le_rfl, Function.update_self _ _ _⟩

theorem copyLatest_latest (h : Linked d) (hmap : d.tableMap = some tableMap)
    {old : DirName} (hold : latestName d descr = old) (hversion : old.version < tableMap.version) :
    Latest cat descr d (copyLatest cat descr d tableMap old).1
      (copyLatest cat descr d tableMap old).2 := by
  subst hold
  have hlinked : Linked (copyLatest cat descr d tableMap (latestName d descr)).2 :=
    linked_copyLatest h hmap hversion
  refine ⟨hlinked, ?_, latest_copyLatest h hmap hversion, fun other => ?_, ?_, ?_, ?_⟩
  · rw [latestName_copyLatest descr hmap, if_pos rfl]
    rfl
  · have hne : DirName.root other ≠ .next descr tableMap.version := by simp
    simp only [copyLatest, dirDescrCopy]
    rw [Function.update_of_ne hne]
  · intro sink hsink heq
    have hparent := hlinked.parents _ rfl sink hsink
    rw [heq] at hparent
    exact absurd hparent (lt_irrefl _)
  · intro _ other heq
    cases heq
  · intro sink hsink
    rcases mem_append.mp hsink with hsink | hsink
    · exact .inl hsink
    · rw [mem_singleton.mp hsink]
      exact .inr ⟨tableMap.version, rfl⟩

theorem getLatestDescr_latest (h : Linked d) (descr : Descr) :
    Latest cat descr d (getLatestDescr cat descr d).1 (getLatestDescr cat descr d).2 := by
  unfold getLatestDescr
  cases hmap : d.tableMap with
  | none =>
    refine ⟨h, latestName_none hmap, fun _ => rfl, fun _ => rfl, fun sink hsink => ?_,
      fun hsome => absurd hmap hsome, fun sink hsink => .inl hsink⟩
    rw [h.none hmap] at hsink
    exact absurd hsink not_mem_nil
  | some tableMap =>
    simp only
    have hname : latestName d descr = match tableMap.map descr with
        | none => .root descr
        | some (_, dirName) => dirName := latestName_some hmap
    cases hdescr : tableMap.map descr with
    | none =>
      rw [hdescr] at hname
      exact copyLatest_latest h hmap hname (h.version tableMap hmap).1
    | some pair =>
      have hmapped := h.mapped tableMap hmap descr pair.1 pair.2 hdescr
      rw [hdescr] at hname
      simp only
      split_ifs with hcurrent
      · refine ⟨h, hname, fun _ => rfl, fun _ => rfl, fun sink hsink heq => ?_, fun _ other => ?_,
          fun sink hsink => .inl hsink⟩
        · have hparent := h.parents tableMap hmap sink hsink
          rw [heq, hmapped.2.2.1, hcurrent] at hparent
          exact absurd hparent (lt_irrefl _)
        · rw [hmapped.2.2.1]
          exact fun heq => by cases heq
      · refine copyLatest_latest h hmap hname ?_
        rw [hmapped.2.2.1]
        show pair.1 < tableMap.version
        omega

theorem Linked.follows_latestName (h : Linked d) (name : Name) :
    follows cat (latestName d (.table name)) = latestName d (.table name) := by
  rcases h.latestName_cases (.table name) with hroot | ⟨version, hnext⟩
  · rw [hroot]
    rfl
  · rw [hnext]
    rfl

theorem runSinks_of_leaf (c : Change V) (sinks : List (DirName × DirName)) (changed : List DirName)
    (dirs : DirName → List (Row V)) (h : ∀ sink ∈ sinks, sink.1 ∉ changed) :
    runSinks c sinks changed dirs = dirs := by
  induction sinks with
  | nil => rfl
  | cons sink sinks ih =>
    unfold runSinks
    rw [if_neg (h sink mem_cons_self)]
    exact ih fun other hother => h other (mem_cons_of_mem sink hother)

theorem write_dirs {dirName : DirName} (c : Change V) (h : ∀ sink ∈ d.sinks, sink.1 ≠ dirName) :
    (write d dirName c).dirs = Function.update d.dirs dirName (c.apply (d.dirs dirName)) := by
  unfold write
  exact runSinks_of_leaf c d.sinks [dirName] _ fun sink hsink hmem =>
    h sink hsink (mem_singleton.mp hmem)

theorem latestName_write (dirName : DirName) (c : Change V) (descr : Descr) :
    latestName (write d dirName c) descr = latestName d descr := rfl

theorem Linked.write (h : Linked d) (dirName : DirName) (c : Change V) :
    Linked (write d dirName c) := ⟨h.none, h.version, h.mapped, h.parents, h.children⟩

end Versions

section Steps

variable {V : Type} [DecidableEq V] {cat : Catalog V} {d d' : Delta V} {db db' : Database V}

def Catalog.Has (cat : Catalog V) : Descr → Prop
  | .table name => name ∈ cat.tables
  | .index name => name ∈ cat.indexes

/-- The transaction has the rows of the database in its latest versions, and the tables that were
not copied keep their unique indexes. -/
structure Tracked (cat : Catalog V) (d : Delta V) (db : Database V) : Prop where
  linked : Linked d
  rows : ∀ name, latest cat d (.table name) = db name
  known : ∀ sink ∈ d.sinks, ∃ descr version, sink.2 = .next descr version ∧ cat.Has descr
  unique : ∀ name, cat.unique name (d.dirs (.root (.table name))) = true

theorem Tracked.start (hdb : ∀ name, cat.unique name (db name) = true) :
    Tracked cat (start db) db where
  linked := Linked.start db
  rows := fun _ => rfl
  known := fun _ hsink => absurd hsink not_mem_nil
  unique := hdb

theorem sinks_updateTableMap (d : Delta V) : (updateTableMap d).sinks = d.sinks := by
  unfold updateTableMap genSym
  cases d.tableMap <;> rfl

theorem Tracked.updateTableMap (h : Tracked cat d db) : Tracked cat (updateTableMap d) db where
  linked := h.linked.updateTableMap
  rows := fun name => (latest_updateTableMap d _).trans (h.rows name)
  known := by
    rw [sinks_updateTableMap]
    exact h.known
  unique := by
    rw [updateTableMap_dirs]
    exact h.unique

variable {dirName : DirName}

theorem Tracked.latest {descr : Descr} (h : Tracked cat d db)
    (hhas : cat.Has descr) (hlatest : Latest cat descr d dirName d') : Tracked cat d' db where
  linked := hlatest.linked
  rows := fun name => (hlatest.rows _).trans (h.rows name)
  known := by
    intro sink hsink
    rcases hlatest.made sink hsink with hold | ⟨version, hnew⟩
    · exact h.known sink hold
    · exact ⟨descr, version, hnew, hhas⟩
  unique := by
    intro name
    rw [hlatest.roots]
    exact h.unique name

theorem Tracked.write {table : Name} {dirName : DirName} (h : Tracked cat d db)
    (hname : latestName d (.table table) = dirName) (hleaf : ∀ sink ∈ d.sinks, sink.1 ≠ dirName)
    (c : Change V) (hunique : dirName = .root (.table table) →
      cat.unique table (c.apply (db table)) = true) :
    Tracked cat (write d dirName c) (Function.update db table (c.apply (db table))) := by
  have hrows : d.dirs dirName = db table := by
    rw [← h.rows table, SqlTransaction.latest, h.linked.follows_latestName, hname]
  refine ⟨h.linked.write dirName c, fun name => ?_, h.known, fun name => ?_⟩
  · unfold SqlTransaction.latest
    rw [latestName_write, write_dirs c hleaf]
    by_cases hsame : name = table
    · subst hsame
      rw [h.linked.follows_latestName, hname, Function.update_self, Function.update_self, hrows]
    · have hne : follows cat (latestName d (.table name)) ≠ latestName d (.table table) :=
        h.linked.follows_latestName_ne (fun heq => hsame (by cases heq; rfl)) ⟨name, rfl⟩
      rw [hname] at hne
      rw [Function.update_of_ne hne, Function.update_of_ne hsame]
      exact h.rows name
  · rw [write_dirs c hleaf]
    by_cases hroot : DirName.root (.table name) = dirName
    · have htable : name = table := by
        rcases h.linked.latestName_cases (.table table) with hlast | ⟨version, hlast⟩
        · rw [← hname, hlast] at hroot
          cases hroot
          rfl
        · rw [← hname, hlast] at hroot
          cases hroot
      rw [hroot, Function.update_self, hrows, htable]
      exact hunique (by rw [← hroot, htable])
    · rw [Function.update_of_ne hroot]
      exact h.unique name

def Source.WellFormed (cat : Catalog V) (source : Source) : Prop :=
  source.name ∈ cat.tables ∧
    ∀ index, source.index = some index → index ∈ cat.indexes ∧ cat.tableOf index = source.name

/-- An index that is read has the rows of the latest version of its table. -/
def Source.Fresh (cat : Catalog V) (d : Delta V) (source : Source) : Prop :=
  ∀ index, source.index = some index → latest cat d (.index index) = latest cat d (.table source.name)

theorem latest_of_getLatestDescr {descr : Descr}
    (h : Latest cat descr d dirName d') : d'.dirs (follows cat dirName) = latest cat d descr := by
  rw [← h.rows descr, latest, h.name]

structure Read (cat : Catalog V) (d : Delta V) (db : Database V) (d' : Delta V) : Prop where
  tracked : Tracked cat d' db
  same : ∀ descr, latest cat d' descr = latest cat d descr

variable {source : Source}

theorem readSource_read (h : Tracked cat d db) (hwf : source.WellFormed cat)
    (hfresh : source.Fresh cat d) :
    (readSource cat d source).1 = db source.name ∧ Read cat d db (readSource cat d source).2 := by
  have htable : Latest cat (.table source.name) d _ _ :=
    getLatestDescr_latest h.linked (.table source.name)
  have hhas : cat.Has (.table source.name) := hwf.1
  have htracked : Tracked cat _ db := h.latest hhas htable
  have hrows := latest_of_getLatestDescr htable
  unfold readSource
  cases hindex : source.index with
  | none =>
    refine ⟨?_, htracked, htable.rows⟩
    have hname : follows cat (getLatestDescr cat (.table source.name) d).1 =
        (getLatestDescr cat (.table source.name) d).1 := by
      rw [← htable.name, htracked.linked.follows_latestName]
    rw [hname] at hrows
    exact hrows.trans (h.rows source.name)
  | some index =>
    have hlast : Latest cat (.index index) (getLatestDescr cat (.table source.name) d).2 _ _ :=
      getLatestDescr_latest htracked.linked (.index index)
    have hindexed : cat.Has (.index index) := (hwf.2 index hindex).1
    refine ⟨?_, htracked.latest hindexed hlast, fun descr => ?_⟩
    · calc
        _ = latest cat (getLatestDescr cat (.table source.name) d).2 (.index index) :=
          latest_of_getLatestDescr hlast
        _ = latest cat d (.index index) := htable.rows _
        _ = latest cat d (.table source.name) := hfresh index hindex
        _ = db source.name := h.rows source.name
    · exact (hlast.rows descr).trans (htable.rows descr)

theorem Source.Fresh.of_read (h : source.Fresh cat d) (hread : Read cat d db d') :
    source.Fresh cat d' := by
  intro index hindex
  rw [hread.same, hread.same]
  exact h index hindex

theorem readSources_read {sources : List Source} (h : Tracked cat d db)
    (hwf : ∀ source ∈ sources, source.WellFormed cat)
    (hfresh : ∀ source ∈ sources, source.Fresh cat d) :
    (readSources cat d sources).1 = sources.map (db ·.name) ∧
      Read cat d db (readSources cat d sources).2 := by
  induction sources generalizing d with
  | nil => exact ⟨rfl, h, fun _ => rfl⟩
  | cons source sources ih =>
    have hfirst := readSource_read h (hwf source mem_cons_self)
      (hfresh source mem_cons_self)
    have hrest := ih hfirst.2.tracked (fun s hs => hwf s (mem_cons_of_mem source hs))
      fun s hs => (hfresh s (mem_cons_of_mem source hs)).of_read hfirst.2
    refine ⟨?_, hrest.2.tracked, fun descr => (hrest.2.same descr).trans (hfirst.2.same descr)⟩
    show (readSource cat d source).1 :: (readSources cat (readSource cat d source).2 sources).1 = _
    rw [hfirst.1, hrest.1]
    rfl

def Stmt.sources : Stmt V → List Source
  | .insertValues _ _ => []
  | .insertSelect _ reads _ => reads
  | .delete table index reads _ => ⟨table, index⟩ :: reads
  | .update table index reads _ _ => ⟨table, index⟩ :: reads

def Stmt.table : Stmt V → Name
  | .insertValues table _ => table
  | .insertSelect table _ _ => table
  | .delete table _ _ _ => table
  | .update table _ _ _ _ => table

def Stmt.WellFormed (cat : Catalog V) (stmt : Stmt V) : Prop :=
  stmt.table ∈ cat.tables ∧ ∀ source ∈ stmt.sources, source.WellFormed cat

def contents (db : Database V) (reads : List Source) : List (List (Row V)) :=
  reads.map (db ·.name)

def selected (db : Database V) (table : Name) (reads : List Source)
    (cond : List (List (Row V)) → Row V → Bool) : List (Row V) :=
  (db table).filter (cond (contents db reads))

def removal (db : Database V) (table : Name) (reads : List Source)
    (cond : List (List (Row V)) → Row V → Bool) : Change V :=
  ⟨(db table).filter (· ∈ selected db table reads cond), []⟩

def change (db : Database V) (table : Name) (c : Change V) : Database V :=
  Function.update db table (c.apply (db table))

def Stmt.apply (db : Database V) : Stmt V → Database V
  | .insertValues table rows => change db table ⟨[], rows⟩
  | .insertSelect table reads select => change db table ⟨[], select (contents db reads)⟩
  | .delete table _ reads cond => change db table (removal db table reads cond)
  | .update table _ reads cond sets =>
    change (change db table (removal db table reads cond)) table
      ⟨[], (selected db table reads cond).map (sets (contents db reads))⟩

theorem tableMap_updateTableMap (d : Delta V) : (updateTableMap d).tableMap ≠ none := by
  unfold updateTableMap genSym
  cases d.tableMap <;> simp

variable {table : Name}

theorem insertInto_tracked (h : Tracked cat d db) (htable : table ∈ cat.tables)
    (rows : List (Row V)) :
    Tracked cat (insertInto cat (updateTableMap d) table rows) (change db table ⟨[], rows⟩) := by
  have hbumped := h.updateTableMap
  have hlatest : Latest cat (.table table) (updateTableMap d) _ _ :=
    getLatestDescr_latest hbumped.linked (.table table)
  have hhas : cat.Has (.table table) := htable
  exact (hbumped.latest hhas hlatest).write hlatest.name hlatest.leaf ⟨[], rows⟩
    fun hroot => absurd hroot (hlatest.next (tableMap_updateTableMap d) _)

variable {reads : List Source}

theorem insertSelect_tracked
    {select : List (List (Row V)) → List (Row V)} (h : Tracked cat d db)
    (htable : table ∈ cat.tables) (hwf : ∀ source ∈ reads, source.WellFormed cat)
    (hfresh : ∀ source ∈ reads, source.Fresh cat d) :
    Tracked cat (insertSelect cat d table reads select)
      (change db table ⟨[], select (contents db reads)⟩) := by
  have hread := readSources_read h hwf hfresh
  have hcontents : (readSources cat d reads).1 = contents db reads := hread.1
  rw [← hcontents]
  exact insertInto_tracked hread.2.tracked htable _

theorem delete_tracked {index : Option Name}
    {cond : List (List (Row V)) → Row V → Bool} (h : Tracked cat d db)
    (hwf : ∀ source ∈ (⟨table, index⟩ : Source) :: reads, source.WellFormed cat)
    (hfresh : ∀ source ∈ (⟨table, index⟩ : Source) :: reads, source.Fresh cat d) :
    (delete cat d table index reads cond).1 = selected db table reads cond ∧
      (delete cat d table index reads cond).2.1 = contents db reads ∧
      Tracked cat (delete cat d table index reads cond).2.2
        (change db table (removal db table reads cond)) := by
  have hfirst := readSource_read h (hwf _ mem_cons_self) (hfresh _ mem_cons_self)
  have hrest := readSources_read hfirst.2.tracked
    (fun source hsource => hwf source (mem_cons_of_mem _ hsource))
    fun source hsource => (hfresh source (mem_cons_of_mem _ hsource)).of_read hfirst.2
  have hrows : (readSource cat d ⟨table, index⟩).1 = db table := hfirst.1
  have hcontents : (readSources cat (readSource cat d ⟨table, index⟩).2 reads).1 =
      contents db reads := hrest.1
  have hselected : (delete cat d table index reads cond).1 = selected db table reads cond := by
    unfold selected
    rw [← hrows, ← hcontents]
    rfl
  have hbumped := hrest.2.tracked.updateTableMap
  have hlatest : Latest cat (.table table) (updateTableMap
      (readSources cat (readSource cat d ⟨table, index⟩).2 reads).2) _ _ :=
    getLatestDescr_latest hbumped.linked (.table table)
  have hhas : cat.Has (.table table) := (hwf _ mem_cons_self).1
  have hnext := hbumped.latest hhas hlatest
  have hdir : (getLatestDescr cat (.table table) (updateTableMap
      (readSources cat (readSource cat d ⟨table, index⟩).2 reads).2)).2.dirs
        (getLatestDescr cat (.table table) (updateTableMap
          (readSources cat (readSource cat d ⟨table, index⟩).2 reads).2)).1 = db table := by
    rw [← hnext.rows table, latest, hnext.linked.follows_latestName, hlatest.name]
  refine ⟨hselected, hcontents, ?_⟩
  have hwritten := hnext.write hlatest.name hlatest.leaf (removal db table reads cond)
    fun hroot => absurd hroot (hlatest.next (tableMap_updateTableMap _) _)
  have hstate : (delete cat d table index reads cond).2.2 = updateTableMap
      (SqlTransaction.write (getLatestDescr cat (.table table) (updateTableMap
        (readSources cat (readSource cat d ⟨table, index⟩).2 reads).2)).2
        (getLatestDescr cat (.table table) (updateTableMap
          (readSources cat (readSource cat d ⟨table, index⟩).2 reads).2)).1
        (removal db table reads cond)) := by
    unfold delete removal selected
    simp only [hrows, hcontents, hdir]
  rw [hstate]
  exact hwritten.updateTableMap

theorem update_tracked {index : Option Name}
    {cond : List (List (Row V)) → Row V → Bool} {sets : List (List (Row V)) → Row V → Row V}
    (h : Tracked cat d db) (htable : table ∈ cat.tables)
    (hwf : ∀ source ∈ (⟨table, index⟩ : Source) :: reads, source.WellFormed cat)
    (hfresh : ∀ source ∈ (⟨table, index⟩ : Source) :: reads, source.Fresh cat d) :
    Tracked cat (update cat d table index reads cond sets)
      ((Stmt.update table index reads cond sets).apply db) := by
  have hdelete : (delete cat d table index reads cond).1 = selected db table reads cond ∧
      (delete cat d table index reads cond).2.1 = contents db reads ∧
      Tracked cat (delete cat d table index reads cond).2.2
        (change db table (removal db table reads cond)) := delete_tracked h hwf hfresh
  show Tracked cat (insertInto cat (updateTableMap (delete cat d table index reads cond).2.2) table
    ((delete cat d table index reads cond).1.map
      (sets (delete cat d table index reads cond).2.1))) _
  rw [hdelete.1, hdelete.2.1]
  exact insertInto_tracked hdelete.2.2 htable _

theorem insertValues_tracked {rows : List (Row V)} (h : Tracked cat d db)
    (htable : table ∈ cat.tables)
    (hunique : cat.unique table ((⟨[], rows⟩ : Change V).apply (db table)) = true) :
    ∃ d', insertValues cat d table rows = .ok d' ∧
      Tracked cat d' (change db table ⟨[], rows⟩) := by
  have hlatest : Latest cat (.table table) d _ _ := getLatestDescr_latest h.linked (.table table)
  have hhas : cat.Has (.table table) := htable
  have hwritten := (h.latest hhas hlatest).write hlatest.name hlatest.leaf ⟨[], rows⟩
    fun _ => hunique
  refine ⟨_, ?_, hwritten⟩
  unfold insertValues
  simp only
  rw [if_pos (hwritten.unique table)]

theorem Stmt.run_tracked {stmt : Stmt V} (h : Tracked cat d db) (hwf : stmt.WellFormed cat)
    (hfresh : ∀ source ∈ stmt.sources, source.Fresh cat d)
    (hunique : ∀ name ∈ cat.tables, cat.unique name (stmt.apply db name) = true) :
    ∃ d', stmt.run cat d = .ok d' ∧ Tracked cat d' (stmt.apply db) := by
  cases stmt with
  | insertValues table rows =>
    have htable := hunique table hwf.1
    refine insertValues_tracked h hwf.1 ?_
    change cat.unique table (Function.update db table _ table) = true at htable
    rw [Function.update_self] at htable
    exact htable
  | insertSelect table reads select => exact ⟨_, rfl, insertSelect_tracked h hwf.1 hwf.2 hfresh⟩
  | delete table index reads cond => exact ⟨_, rfl, (delete_tracked h hwf.2 hfresh).2.2⟩
  | update table index reads cond sets => exact ⟨_, rfl, update_tracked h hwf.1 hwf.2 hfresh⟩

/-- Names of tables and of indexes are kept apart by the names of their directories. -/
structure Catalog.WellFormed (cat : Catalog V) : Prop where
  tables : ∀ name ∈ cat.tables, Name.Plain name
  indexes : ∀ name ∈ cat.indexes, '/' ∉ name ∧ name ∉ cat.tables

theorem changedDirs_cases {name : Name} (hcat : cat.WellFormed)
    (h : Tracked cat d db) (hname : name ∈ cat.tables) (hmem : dirName ∈ changedDirs cat d)
    (htarget : (makeInputDirName dirName.text).1 = (DirName.root (.table name)).text) :
    (dirName = .root (.table name) ∧ (makeInputDirName dirName.text).2 = 0) ∨
      ∃ version, dirName = .next (.table name) version ∧ dirName ∈ d.sinks.map Prod.snd ∧
        (makeInputDirName dirName.text).2 = version := by
  rcases mem_append.mp hmem with hroot | hsink
  · obtain ⟨other, hother, rfl⟩ := mem_map.mp hroot
    have hplain : Name.Plain (Descr.table other).name := hcat.tables other hother
    rw [makeInputDirName_root hplain] at htarget ⊢
    have hsame : other = name := root_text_injective htarget
    exact .inl ⟨by rw [hsame], rfl⟩
  · obtain ⟨sink, hsinks, rfl⟩ := mem_map.mp hsink
    obtain ⟨descr, version, hnext, hhas⟩ := h.known sink hsinks
    rw [hnext] at htarget hsink ⊢
    cases descr with
    | table other =>
      have hplain : '/' ∉ (Descr.table other).name := (hcat.tables other hhas).1
      rw [makeInputDirName_next hplain] at htarget ⊢
      have hsame : other = name := root_text_injective htarget
      rw [hsame] at hsink ⊢
      exact .inr ⟨version, rfl, hsink, rfl⟩
    | index other =>
      have hindex := hcat.indexes other hhas
      have hplain : '/' ∉ (Descr.index other).name := hindex.1
      rw [makeInputDirName_next hplain] at htarget
      have hsame : other = name := root_text_injective htarget
      rw [hsame] at hindex
      exact absurd hname hindex.2

theorem importNext_latest {name : Name} (hcat : cat.WellFormed) (h : Tracked cat d db)
    (hname : name ∈ cat.tables) :
    importNext (DirName.root (.table name)).text (changedDirs cat d) =
      some ((latestName d (.table name)).version, latestName d (.table name)) := by
  have hroot : DirName.root (.table name) ∈ changedDirs cat d :=
    mem_append_left _ (mem_map.mpr ⟨name, hname, rfl⟩)
  have hplain : Name.Plain (Descr.table name).name := hcat.tables name hname
  cases hmap : d.tableMap with
  | none =>
    rw [latestName_none hmap]
    refine importNext_best (makeInputDirName_root hplain) (fun dirName hmem htarget => ?_) hroot
    rcases changedDirs_cases hcat h hname hmem htarget with hcase | ⟨version, _, hsink, _⟩
    · exact ⟨hcase.2.le, fun _ => hcase.1⟩
    · rw [h.linked.none hmap] at hsink
      exact absurd hsink not_mem_nil
  | some tableMap =>
    have hchildren : ∀ version, DirName.next (.table name) version ∈ d.sinks.map Prod.snd →
        ∃ last, version ≤ last ∧
          tableMap.map (.table name) = some (last, .next (.table name) last) := by
      intro version hsink
      obtain ⟨sink, hsinks, heq⟩ := mem_map.mp hsink
      obtain ⟨descr, found, last, hnext, hle, hget⟩ := h.linked.children tableMap hmap sink hsinks
      rw [heq] at hnext
      cases hnext
      exact ⟨last, hle, hget⟩
    rw [latestName_some hmap]
    cases hget : tableMap.map (.table name) with
    | none =>
      refine importNext_best (makeInputDirName_root hplain) (fun dirName hmem htarget => ?_) hroot
      rcases changedDirs_cases hcat h hname hmem htarget with hcase | ⟨version, heq, hsink, _⟩
      · exact ⟨hcase.2.le, fun _ => hcase.1⟩
      · rw [heq] at hsink
        obtain ⟨last, _, hlast⟩ := hchildren version hsink
        rw [hget] at hlast
        cases hlast
    | some pair =>
      have hmapped := h.linked.mapped tableMap hmap _ pair.1 pair.2 hget
      have hpos := hmapped.1
      simp only [hmapped.2.2.1]
      have hmade : DirName.next (.table name) pair.1 ∈ changedDirs cat d := by
        rw [← hmapped.2.2.1]
        exact mem_append_right _ hmapped.2.2.2
      refine importNext_best (makeInputDirName_next hplain.1 pair.1)
        (fun dirName hmem htarget => ?_) hmade
      rcases changedDirs_cases hcat h hname hmem htarget with hcase | ⟨version, heq, hsink, hread⟩
      · rw [hcase.2]
        exact ⟨Nat.zero_le _, fun hzero => absurd hzero.symm (Nat.ne_of_gt hpos)⟩
      · rw [heq] at hsink
        obtain ⟨last, hle, hlast⟩ := hchildren version hsink
        rw [hget] at hlast
        cases hlast
        rw [hread, heq]
        exact ⟨hle, fun hsame => congrArg (DirName.next (.table name)) hsame⟩

theorem exported_eq (hcat : cat.WellFormed) (h : Tracked cat d db')
    (hkept : ∀ name, name ∉ cat.tables → db' name = db name) : exported cat db d = db' := by
  funext name
  unfold exported
  by_cases hname : name ∈ cat.tables
  · rw [if_pos hname, importNext_latest hcat h hname]
    show d.dirs (latestName d (.table name)) = db' name
    rw [← h.rows name, latest, h.linked.follows_latestName]
  · rw [if_neg hname, hkept name hname]

theorem exportToRoot_eq (hcat : cat.WellFormed) (h : Tracked cat d db')
    (hkept : ∀ name, name ∉ cat.tables → db' name = db name)
    (hunique : ∀ name ∈ cat.tables, cat.unique name (db' name) = true) :
    exportToRoot cat db d = .ok db' := by
  unfold exportToRoot
  rw [exported_eq hcat h hkept, if_pos]
  exact all_eq_true.mpr hunique

/-- Every index that a statement looks up has the rows of the latest version of its table, and no
statement by itself breaks a unique index. -/
def StepsOk (cat : Catalog V) (d : Delta V) (db : Database V) : List (Stmt V) → Prop
  | [] => True
  | stmt :: stmts =>
    (∀ source ∈ stmt.sources, source.Fresh cat d) ∧
      (∀ name ∈ cat.tables, cat.unique name (stmt.apply db name) = true) ∧
      ∀ d', stmt.run cat d = .ok d' → StepsOk cat d' (stmt.apply db) stmts

theorem Stmt.apply_kept {stmt : Stmt V} (hwf : stmt.WellFormed cat) {name : Name}
    (hname : name ∉ cat.tables) : stmt.apply db name = db name := by
  have hne : name ≠ stmt.table := fun heq => hname (heq ▸ hwf.1)
  cases stmt with
  | insertValues table rows => exact Function.update_of_ne hne _ _
  | insertSelect table reads select => exact Function.update_of_ne hne _ _
  | delete table index reads cond => exact Function.update_of_ne hne _ _
  | update table index reads cond sets =>
    exact (Function.update_of_ne hne _ _).trans (Function.update_of_ne hne _ _)

variable {stmts : List (Stmt V)}

theorem runStmts_tracked (h : Tracked cat d db)
    (hwf : ∀ stmt ∈ stmts, stmt.WellFormed cat) (hsteps : StepsOk cat d db stmts)
    (hunique : ∀ name ∈ cat.tables, cat.unique name (db name) = true) :
    ∃ d', runStmts cat d stmts = .ok d' ∧ Tracked cat d' (stmts.foldl Stmt.apply db) ∧
      (∀ name ∈ cat.tables, cat.unique name (stmts.foldl Stmt.apply db name) = true) ∧
      ∀ name, name ∉ cat.tables → stmts.foldl Stmt.apply db name = db name := by
  induction stmts generalizing d db with
  | nil => exact ⟨d, rfl, h, hunique, fun _ _ => rfl⟩
  | cons stmt stmts ih =>
    have hhead := hwf stmt mem_cons_self
    obtain ⟨next, hrun, hnext⟩ := stmt.run_tracked h hhead hsteps.1 hsteps.2.1
    obtain ⟨d', hrest, htracked, hlast, hkept⟩ := ih hnext
      (fun s hs => hwf s (mem_cons_of_mem stmt hs)) (hsteps.2.2 next hrun) hsteps.2.1
    refine ⟨d', ?_, htracked, hlast, fun name hname => ?_⟩
    · unfold runStmts
      rw [hrun]
      exact hrest
    · rw [foldl_cons, hkept name hname, Stmt.apply_kept hhead hname]

theorem Source.fresh_start (hwf : source.WellFormed cat) :
    source.Fresh cat (SqlTransaction.start db) := by
  intro index hindex
  show db (cat.tableOf index) = db source.name
  rw [(hwf.2 index hindex).2]

theorem runTransaction_eq (hcat : cat.WellFormed)
    (hdb : ∀ name, cat.unique name (db name) = true) (hwf : ∀ stmt ∈ stmts, stmt.WellFormed cat)
    (hsteps : StepsOk cat (start db) db stmts) :
    runTransaction cat db stmts = .ok (stmts.foldl Stmt.apply db) := by
  obtain ⟨d', hrun, htracked, hunique, hkept⟩ := runStmts_tracked (Tracked.start hdb) hwf hsteps
    fun name _ => hdb name
  unfold runTransaction
  rw [hrun]
  exact exportToRoot_eq hcat htracked hkept hunique

theorem runOneByOne_eq (hcat : cat.WellFormed)
    (hdb : ∀ name, cat.unique name (db name) = true) (hwf : ∀ stmt ∈ stmts, stmt.WellFormed cat)
    {d : Delta V} (h : Tracked cat d db) (hsteps : StepsOk cat d db stmts) :
    runOneByOne cat db stmts = .ok (stmts.foldl Stmt.apply db) := by
  induction stmts generalizing d db with
  | nil => rfl
  | cons stmt stmts ih =>
    have hhead := hwf stmt mem_cons_self
    have hone : ∀ other ∈ [stmt], other.WellFormed cat := by
      intro other hother
      rw [mem_singleton.mp hother]
      exact hhead
    have hfirst : runTransaction cat db [stmt] = .ok (stmt.apply db) := by
      refine runTransaction_eq hcat hdb hone ⟨fun source hsource => ?_, hsteps.2.1, fun _ _ => trivial⟩
      exact Source.fresh_start (hhead.2 source hsource)
    have hnext : ∀ name, cat.unique name (stmt.apply db name) = true := by
      intro name
      by_cases hname : name ∈ cat.tables
      · exact hsteps.2.1 name hname
      · rw [Stmt.apply_kept hhead hname]
        exact hdb name
    obtain ⟨d', hrun, htracked⟩ := stmt.run_tracked h hhead hsteps.1 hsteps.2.1
    unfold runOneByOne
    rw [hfirst]
    exact ih hnext (fun s hs => hwf s (mem_cons_of_mem stmt hs)) htracked
      (hsteps.2.2 d' hrun)

/-- A transaction gives what its statements give one by one, when every index that is looked up
has the rows of its table and no statement breaks a unique index. -/
theorem transaction_eq_oneByOne {stmts : List (Stmt V)} (hcat : cat.WellFormed)
    (hdb : ∀ name, cat.unique name (db name) = true) (hwf : ∀ stmt ∈ stmts, stmt.WellFormed cat)
    (hsteps : StepsOk cat (start db) db stmts) :
    ∃ db', runTransaction cat db stmts = .ok db' ∧ runOneByOne cat db stmts = .ok db' :=
  ⟨_, runTransaction_eq hcat hdb hwf hsteps,
    runOneByOne_eq hcat hdb hwf (Tracked.start hdb) hsteps⟩

end Steps

/-! A table `t` with one column, which is its primary key. -/

def sampleIndex : Name := ['i']

def sampleTable : Name := ['t']

def sampleCatalog : Catalog ℕ where
  tables := [sampleTable]
  indexes := [sampleIndex]
  tableOf := fun _ => sampleTable
  unique := fun _ rows => decide rows.Nodup

def sampleDatabase : Database ℕ := fun name => if name = sampleTable then [[some 0]] else []

def sampleDelete (value : ℕ) (index : Option Name) : Stmt ℕ :=
  .delete sampleTable index [] fun _ row => decide (row = [some value])

def sampleRows (result : Except String (Database ℕ)) : Option (List (Row ℕ)) :=
  match result with
  | .ok db => some (db sampleTable)
  | .error _ => none

def sampleStmts : List (Stmt ℕ) :=
  [sampleDelete 0 (some sampleIndex), .insertValues sampleTable [[some 5]],
    sampleDelete 5 (some sampleIndex)]

theorem sampleCatalog_wellFormed : sampleCatalog.WellFormed where
  tables := by
    intro name hname
    rw [mem_singleton.mp hname]
    exact ⟨by decide, by decide⟩
  indexes := by
    intro name hname
    rw [mem_singleton.mp hname]
    exact ⟨by decide, by decide⟩

theorem Source.fresh_of_scan {V : Type} [DecidableEq V] {cat : Catalog V} {d : Delta V}
    {source : Source} (h : source.index = none) : source.Fresh cat d := by
  intro index hindex
  rw [h] at hindex
  cases hindex

/-- The same statements, where the second deletion looks at the whole table. -/
theorem transaction_eq_oneByOne_sample :
    ∃ db', runTransaction sampleCatalog sampleDatabase [sampleDelete 0 (some sampleIndex),
        .insertValues sampleTable [[some 5]], sampleDelete 5 none] = .ok db' ∧
      runOneByOne sampleCatalog sampleDatabase [sampleDelete 0 (some sampleIndex),
        .insertValues sampleTable [[some 5]], sampleDelete 5 none] = .ok db' := by
  have hindexed : (⟨sampleTable, some sampleIndex⟩ : Source).WellFormed sampleCatalog := by
    refine ⟨mem_cons_self, fun index hindex => ?_⟩
    cases hindex
    exact ⟨mem_cons_self, rfl⟩
  have hscanned : (⟨sampleTable, none⟩ : Source).WellFormed sampleCatalog :=
    ⟨mem_cons_self, fun index hindex => by cases hindex⟩
  refine transaction_eq_oneByOne sampleCatalog_wellFormed ?_ ?_ ?_
  · intro name
    by_cases hname : name = sampleTable
    · rw [hname]
      decide
    · unfold sampleDatabase
      rw [if_neg hname]
      rfl
  · intro stmt hstmt
    simp only [mem_cons, not_mem_nil, or_false] at hstmt
    rcases hstmt with rfl | rfl | rfl
    · refine ⟨mem_cons_self, fun source hsource => ?_⟩
      rw [mem_singleton.mp hsource]
      exact hindexed
    · exact ⟨mem_cons_self, fun source hsource => absurd hsource not_mem_nil⟩
    · refine ⟨mem_cons_self, fun source hsource => ?_⟩
      rw [mem_singleton.mp hsource]
      exact hscanned
  · refine ⟨fun source hsource => ?_, by decide, fun _ _ => ⟨fun source hsource => ?_, by decide,
      fun _ _ => ⟨fun source hsource => ?_, by decide, fun _ _ => trivial⟩⟩⟩
    · rw [mem_singleton.mp hsource]
      exact Source.fresh_start hindexed
    · exact absurd hsource not_mem_nil
    · rw [mem_singleton.mp hsource]
      exact Source.fresh_of_scan rfl

/-- The second deletion looks up an index that does not have the inserted row. -/
theorem sampleStmts_differ :
    sampleRows (runTransaction sampleCatalog sampleDatabase sampleStmts) = some [[some 5]] ∧
      sampleRows (runOneByOne sampleCatalog sampleDatabase sampleStmts) = some [] := by
  decide +kernel

end SkipPlatform.SqlTransaction
