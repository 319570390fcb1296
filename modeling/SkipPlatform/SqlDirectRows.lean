import SkipPlatform.SqlDirect

set_option autoImplicit false

namespace SkipPlatform.SqlDirect
open List

variable {V : Type}

namespace Query

def fileCopies (q : Query V) (file : RowValues V) : List (Values V) :=
  if (q.whereVal file.values).passes then file.copies else []

/-- The copies of the rows that meet the condition, in the order of the table. -/
def raw (q : Query V) (files : List (RowValues V)) : List (Values V) := files.flatMap q.fileCopies

def project (q : Query V) (copies : List (Values V)) : List (Values V) :=
  if q.params.isEmpty then [] else copies.map fun values => q.params.map (· values)

variable (q : Query V)

theorem raw_nil : q.raw [] = [] := rfl

theorem raw_cons (file : RowValues V) (files : List (RowValues V)) :
    q.raw (file :: files) = q.fileCopies file ++ q.raw files := rfl

theorem raw_append (files files' : List (RowValues V)) :
    q.raw (files ++ files') = q.raw files ++ q.raw files' := flatMap_append

theorem project_append (xs ys : List (Values V)) :
    q.project (xs ++ ys) = q.project xs ++ q.project ys := by
  unfold project
  split
  · rfl
  · rw [map_append]

theorem project_take (n : ℕ) (xs : List (Values V)) :
    q.project (xs.take n) = (q.project xs).take n := by
  unfold project
  split
  · simp
  · rw [map_take]

theorem project_nil : q.project [] = [] := by
  unfold project
  split <;> rfl

theorem project_empty {q : Query V} (h : q.params.isEmpty = true) (xs : List (Values V)) :
    q.project xs = [] := by
  simp [project, h]

theorem fileCopies_of_passes {q : Query V} {file : RowValues V}
    (h : (q.whereVal file.values).passes = true) : q.fileCopies file = file.copies := by
  simp [fileCopies, h]

theorem fileCopies_of_not {q : Query V} {file : RowValues V}
    (h : (q.whereVal file.values).passes = false) : q.fileCopies file = [] := by
  simp [fileCopies, h]

theorem project_copies {q : Query V} (h : q.params.isEmpty = false) (file : RowValues V) :
    q.project file.copies =
      List.replicate file.repeatCount (q.params.map (· file.values)) := by
  simp [project, h, RowValues.copies]

/-- The loop has seen the rows `xs` and stops at `cap`. -/
structure ItemAt (cap : ℕ) (xs : List (Values V)) (s : ItemLoop V) : Prop where
  printed : s.printed = xs.take cap
  i : s.thrown = false → s.i = xs.length
  thrown : s.thrown = decide (cap ≤ xs.length)

variable {xs : List (Values V)} {cap : ℕ}

theorem ItemAt.stopped {s : ItemLoop V} (h : ItemAt cap xs s)
    (hs : s.thrown = true) (ys : List (Values V)) : ItemAt cap (xs ++ ys) s := by
  have hc : cap ≤ xs.length := by simpa [hs] using h.thrown
  have hl : cap ≤ (xs ++ ys).length := by
    rw [length_append]
    omega
  refine ⟨?_, fun hf => by simp [hs] at hf, by simp only [hs, hl, decide_true]⟩
  rw [take_append_of_le_length hc]
  exact h.printed

variable {limit : ℤ}

theorem itemAt_printCopies (hcap : (cap : ℤ) = max limit 1)
    (values : Values V) (n : ℕ) {s : ItemLoop V} (h : ItemAt cap xs s)
    (hs : s.thrown = false) :
    ItemAt cap (xs ++ List.replicate n values) (printCopies limit values n s) := by
  induction n generalizing xs s with
  | zero => simpa [printCopies] using h
  | succ n ih =>
    have hlt : xs.length < cap := by simpa [hs] using h.thrown
    have hi := h.i hs
    have hnew : xs ++ List.replicate (n + 1) values =
        (xs ++ [values]) ++ List.replicate n values := by
      rw [replicate_succ, append_assoc]
      rfl
    have hp : s.printed ++ [values] = (xs ++ [values]).take cap := by
      rw [h.printed, take_of_length_le (by omega), take_of_length_le]
      simp only [length_append, length_singleton]
      omega
    rw [hnew]
    unfold printCopies
    dsimp only
    split
    · rename_i hge
      have hat : ItemAt cap (xs ++ [values])
          { printed := s.printed ++ [values], i := s.i + 1, thrown := true } := by
        refine ⟨hp, fun hf => by simp at hf, ?_⟩
        simp only [length_append, length_singleton]
        have hc : cap ≤ xs.length + 1 := by omega
        simp [hc]
      exact hat.stopped rfl _
    · rename_i hlt'
      refine ih ⟨hp, ?_, ?_⟩ hs
      · intro _
        simp only [length_append, length_singleton]
        push_cast
        omega
      · have hc : ¬ cap ≤ (xs ++ [values]).length := by
          simp only [length_append, length_singleton]
          omega
        simp only [hs, hc, decide_false]

theorem itemAt_itemFiles {q : Query V} (hcap : (cap : ℤ) = max limit 1)
    (files : List (RowValues V)) {s : ItemLoop V} (h : ItemAt cap xs s)
    (hs : s.thrown = false) :
    ItemAt cap (xs ++ q.project (q.raw files)) (q.itemFiles limit files s) := by
  induction files generalizing xs s with
  | nil => simpa [itemFiles, raw_nil, project_nil] using h
  | cons file files ih =>
    rw [raw_cons, project_append, ← append_assoc]
    unfold itemFiles
    split
    · rename_i hp
      rw [fileCopies_of_not (by simpa using hp), project_nil, append_nil]
      exact ih h hs
    · rename_i hp
      rw [fileCopies_of_passes (by simpa using hp)]
      cases hparams : q.params.isEmpty with
      | true =>
        simp only [evalRow, hparams, if_true]
        rw [project_empty hparams, append_nil]
        exact ih h hs
      | false =>
        simp only [evalRow, hparams, Bool.false_eq_true, if_false]
        rw [project_copies hparams]
        have hat := itemAt_printCopies hcap (q.params.map (· file.values)) file.repeatCount h hs
        split
        · rename_i ht
          exact hat.stopped ht _
        · rename_i ht
          exact ih hat (by simpa using ht)

theorem itemAt_itemKeys {q : Query V} (hcap : (cap : ℤ) = max limit 1)
    (keys : List (KeyFiles V)) {s : ItemLoop V} (h : ItemAt cap xs s)
    (hs : s.thrown = false) :
    ItemAt cap (xs ++ q.project (q.raw (keys.flatMap KeyFiles.files)))
      (q.itemKeys limit keys s) := by
  induction keys generalizing xs s with
  | nil => simpa [itemKeys, raw_nil, project_nil] using h
  | cons key keys ih =>
    rw [flatMap_cons, raw_append, project_append, ← append_assoc]
    have hat := itemAt_itemFiles (q := q) hcap key.files h hs
    unfold itemKeys
    dsimp only
    split
    · rename_i ht
      exact hat.stopped ht _
    · rename_i ht
      exact ih hat (by simpa using ht)

/-- The loop has seen the rows `xs` and stops after `cap`. -/
structure TableAt (cap : ℕ) (xs : List (Values V)) (s : TableLoop V) : Prop where
  data : s.data = xs.take cap
  i : (s.trailing || s.limited) = false → s.i = xs.length
  stop : (s.trailing || s.limited) = decide (cap < xs.length)

variable {s : TableLoop V}

theorem TableAt.stopped (h : TableAt cap xs s)
    (hs : (s.trailing || s.limited) = true) (ys : List (Values V)) :
    TableAt cap (xs ++ ys) s := by
  have hc : cap < xs.length := by simpa [hs] using h.stop
  have hl : cap < (xs ++ ys).length := by
    rw [length_append]
    omega
  refine ⟨?_, fun hf => by simp [hs] at hf, by simp only [hs, hl, decide_true]⟩
  rw [take_append_of_le_length hc.le]
  exact h.data

theorem tableAt_pushCopies
    (hcap : cap = min (limit - 1).toNat (kMaxOutputRowsTable + 1)) (values : Values V) (n : ℕ)
    (h : TableAt cap xs s)
    (hs : (s.trailing || s.limited) = false) :
    TableAt cap (xs ++ List.replicate n values) (pushCopies limit values n s) := by
  induction n generalizing xs s with
  | zero => simpa [pushCopies] using h
  | succ n ih =>
    have hle : xs.length ≤ cap := by simpa [hs] using h.stop
    have hi := h.i hs
    have hdata : s.data = xs := by rw [h.data, take_of_length_le hle]
    have hnew : xs ++ List.replicate (n + 1) values =
        (xs ++ [values]) ++ List.replicate n values := by
      rw [replicate_succ, append_assoc]
      rfl
    have hfull {s' : TableLoop V} (hd : s'.data = s.data)
        (hstop : (s'.trailing || s'.limited) = true) (hc : cap = xs.length) :
        TableAt cap (xs ++ [values] ++ List.replicate n values) s' := by
      have hl : cap < (xs ++ [values]).length := by
        simp only [length_append, length_singleton]
        omega
      have hat : TableAt cap (xs ++ [values]) s' := by
        refine ⟨?_, fun hf => by simp [hstop] at hf, by simp only [hstop, hl, decide_true]⟩
        rw [hd, hdata, hc, take_left]
      exact hat.stopped hstop _
    rw [hnew]
    unfold pushCopies
    dsimp only
    split
    · rename_i hge
      refine hfull ?_ ?_ ?_
      · rfl
      · simp
      · omega
    · split
      · rename_i hlen
        rw [hdata] at hlen
        refine hfull ?_ ?_ ?_
        · rfl
        · simp
        · omega
      · rename_i hlt hlen
        rw [hdata] at hlen
        have hroom : (xs ++ [values]).length ≤ cap := by
          simp only [length_append, length_singleton]
          omega
        refine ih ⟨?_, ?_, ?_⟩ hs
        · rw [hdata, take_of_length_le hroom]
        · intro _
          simp only [length_append, length_singleton]
          push_cast
          omega
        · have hn : ¬ cap < (xs ++ [values]).length := by omega
          simp only [hs, hn, decide_false]

theorem tableAt_tableFiles {q : Query V}
    (hcap : cap = min (limit - 1).toNat (kMaxOutputRowsTable + 1)) (files : List (RowValues V))
    (h : TableAt cap xs s)
    (hs : (s.trailing || s.limited) = false) :
    TableAt cap (xs ++ q.project (q.raw files)) (q.tableFiles limit files s) := by
  induction files generalizing xs s with
  | nil => simpa [tableFiles, raw_nil, project_nil] using h
  | cons file files ih =>
    cases hparams : q.params.isEmpty with
    | true =>
      have hn := ih h hs
      rw [project_empty hparams, append_nil] at hn ⊢
      unfold tableFiles
      split
      · exact hn
      · simp only [evalRow, hparams, if_true]
        exact h
    | false =>
      rw [raw_cons, project_append, ← append_assoc]
      unfold tableFiles
      split
      · rename_i hp
        rw [fileCopies_of_not (by simpa using hp), project_nil, append_nil]
        exact ih h hs
      · rename_i hp
        rw [fileCopies_of_passes (by simpa using hp)]
        simp only [evalRow, hparams, Bool.false_eq_true, if_false]
        rw [project_copies hparams]
        have hat := tableAt_pushCopies hcap (q.params.map (· file.values)) file.repeatCount h hs
        split
        · rename_i ht
          exact hat.stopped ht _
        · rename_i ht
          exact ih hat (by simpa using ht)

theorem tableAt_tableKeys {q : Query V}
    (hcap : cap = min (limit - 1).toNat (kMaxOutputRowsTable + 1)) (keys : List (KeyFiles V))
    (h : TableAt cap xs s)
    (hs : (s.trailing || s.limited) = false) :
    TableAt cap (xs ++ q.project (q.raw (keys.flatMap KeyFiles.files)))
      (q.tableKeys limit keys s) := by
  induction keys generalizing xs s with
  | nil => simpa [tableKeys, raw_nil, project_nil] using h
  | cons key keys ih =>
    rw [flatMap_cons, raw_append, project_append, ← append_assoc]
    have hat := tableAt_tableFiles (q := q) hcap key.files h hs
    unfold tableKeys
    dsimp only
    split
    · rename_i ht
      exact hat.stopped ht _
    · rename_i ht
      exact ih hat (by simpa using ht)

def found (q : Query V) (t : Table V) : List (Values V) :=
  q.project (q.raw (t.keys.flatMap KeyFiles.files))

theorem direct_rows_items {q : Query V} (t : Table V) (h : q.format ≠ .table) :
    (q.direct t).rows = (q.found t).take (max (q.limit.getD intMax) 1).toNat := by
  have hcap : (((max (q.limit.getD intMax) 1).toNat : ℕ) : ℤ) = max (q.limit.getD intMax) 1 :=
    Int.toNat_of_nonneg (by omega)
  have h0 : ItemAt (max (q.limit.getD intMax) 1).toNat ([] : List (Values V)) ⟨[], 0, false⟩ := by
    refine ⟨by simp, by simp, ?_⟩
    have hn : ¬ (max (q.limit.getD intMax) 1).toNat ≤ ([] : List (Values V)).length := by
      simp only [length_nil]
      omega
    simp only [hn, decide_false]
  have hat := itemAt_itemKeys (q := q) hcap t.keys h0 rfl
  have hd : (q.direct t).rows =
      (q.itemKeys (q.limit.getD intMax) t.keys ⟨[], 0, false⟩).printed := by
    unfold direct
    cases hf : q.format with
    | table => exact absurd hf h
    | _ => rfl
  rw [hd, hat.printed, nil_append]
  rfl

theorem direct_rows_table {q : Query V} (t : Table V) (h : q.format = .table) :
    (q.direct t).rows = (q.found t).take
      (min (q.limit.getD intMax - 1).toNat (kMaxOutputRowsTable + 1)) := by
  have h0 : TableAt (min (q.limit.getD intMax - 1).toNat (kMaxOutputRowsTable + 1))
      ([] : List (Values V)) ⟨[], 0, false, false⟩ := ⟨by simp, by simp, by simp⟩
  have hat := tableAt_tableKeys (q := q) rfl t.keys h0 rfl
  simp only [direct, h, Output.rows]
  rw [hat.data, nil_append]
  rfl

theorem replicate_sum (x : Values V) (ns : List ℕ) :
    ns.flatMap (fun n => List.replicate n x) = List.replicate ns.sum x := by
  induction ns with
  | nil => rfl
  | cons n ns ih => rw [flatMap_cons, ih, sum_cons, replicate_add]

variable {x : Values V}

theorem copies_sum (files : List (RowValues V)) (h : ∀ f ∈ files, f.values = x) :
    files.flatMap RowValues.copies =
      List.replicate (files.map RowValues.repeatCount).sum x := by
  rw [← replicate_sum, flatMap_map]
  apply flatMap_congr
  intro f hf
  rw [RowValues.copies, h f hf]

theorem project_replicate (n : ℕ) (x : Values V) :
    q.project (List.replicate n x) =
      ((q.evalRow x n).toList.flatMap RowValues.copies) := by
  unfold project evalRow
  split
  · rfl
  · simp [RowValues.copies]

theorem raw_same {q : Query V} {files : List (RowValues V)}
    (h : ∀ f ∈ files, f.values = x) :
    q.raw files = if (q.whereVal x).passes then
      List.replicate (files.map RowValues.repeatCount).sum x else [] := by
  split
  · rename_i hp
    rw [← copies_sum files h]
    apply flatMap_congr
    intro f hf
    exact fileCopies_of_passes (by rw [h f hf]; exact hp)
  · rename_i hp
    apply flatMap_eq_nil_iff.mpr
    intro f hf
    exact fileCopies_of_not (by rw [h f hf]; simpa using hp)

theorem project_ite (p : Prop) [Decidable p] (xs : List (Values V)) :
    q.project (if p then xs else []) = if p then q.project xs else [] := by
  split
  · rfl
  · exact q.project_nil

theorem copies_evalSelectTableRow (x : Values V) (n : ℕ) :
    (q.evalSelectTableRow x n).toList.flatMap RowValues.copies =
      if (q.whereVal x).passes then q.project (List.replicate n x) else [] := by
  unfold evalSelectTableRow
  split
  · rw [project_replicate]
  · rfl

theorem copies_evalSelectTableRows (key : KeyFiles V) :
    (q.evalSelectTableRows key).flatMap RowValues.copies = q.project (q.raw key.files) := by
  unfold evalSelectTableRows
  cases hfiles : key.files with
  | nil => simp [raw_nil, project_nil]
  | cons row rows =>
    have hsame : ∀ f ∈ row :: rows, f.values = row.values := by
      intro f hf
      exact key.same f (hfiles ▸ hf) row (by simp [hfiles])
    dsimp only
    split
    · rw [copies_evalSelectTableRow, raw_same hsame, project_ite]
    · generalize row :: rows = files
      induction files with
      | nil => simp [raw_nil, project_nil]
      | cons file files ih =>
        have hcons : (file :: files).filterMap (fun row =>
            q.evalSelectTableRow row.values row.repeatCount) =
            (q.evalSelectTableRow file.values file.repeatCount).toList ++
              files.filterMap (fun row => q.evalSelectTableRow row.values row.repeatCount) := by
          rw [filterMap_cons]
          cases q.evalSelectTableRow file.values file.repeatCount <;> rfl
        rw [hcons, flatMap_append, ih, copies_evalSelectTableRow, raw_cons, project_append,
          fileCopies, project_ite]
        rfl

theorem copies_evalSelectTableKeys (keys : List (KeyFiles V)) :
    (keys.flatMap q.evalSelectTableRows).flatMap RowValues.copies =
      q.project (q.raw (keys.flatMap KeyFiles.files)) := by
  induction keys with
  | nil => simp [raw_nil, project_nil]
  | cons key keys ih =>
    rw [flatMap_cons, flatMap_append, ih, copies_evalSelectTableRows, flatMap_cons,
      raw_append, project_append]

theorem copies_initRepeatRow (rows : List (RowValues V))
    (h : ∀ f ∈ rows, f.values = x) :
    (initRepeatRow rows).flatMap RowValues.copies = rows.flatMap RowValues.copies := by
  cases rows with
  | nil => rfl
  | cons row rows =>
    rw [copies_sum _ h]
    simp only [initRepeatRow, flatMap_singleton, RowValues.copies, h row (by simp)]

theorem copies_map_initRepeatRow (groups : List (List (RowValues V)))
    (h : ∀ group ∈ groups, ∃ x, ∀ f ∈ group, f.values = x) :
    (groups.map initRepeatRow).flatten.flatMap RowValues.copies =
      groups.flatten.flatMap RowValues.copies := by
  induction groups with
  | nil => rfl
  | cons group groups ih =>
    obtain ⟨x, hx⟩ := h group (by simp)
    rw [map_cons, flatten_cons, flatten_cons, flatMap_append,
      flatMap_append, copies_initRepeatRow group hx, ih (fun g hg => h g (by simp [hg]))]

section Directory

variable [LinearOrder V]

theorem filter_keys_perm (keys : List (Values V)) (hk : keys.Nodup) (rows : List (RowValues V)) :
    (keys.flatMap fun key => rows.filter (fun row => row.values = key)).Perm
      (rows.filter (fun row => row.values ∈ keys)) := by
  induction keys with
  | nil => simp
  | cons key keys ih =>
    have hnodup := nodup_cons.mp hk
    have hsplit := filter_append_perm (fun row : RowValues V => row.values = key)
      (rows.filter (fun row => row.values ∈ key :: keys))
    have hfirst : (rows.filter (fun row => row.values ∈ key :: keys)).filter
        (fun row => row.values = key) = rows.filter (fun row => row.values = key) := by
      rw [filter_filter]
      apply filter_congr
      intro row _
      by_cases he : row.values = key <;> simp [he]
    have hrest : (rows.filter (fun row => row.values ∈ key :: keys)).filter
        (fun row => !decide (row.values = key)) = rows.filter (fun row => row.values ∈ keys) := by
      rw [filter_filter]
      apply filter_congr
      intro row _
      by_cases he : row.values = key
      · simp [he, hnodup.1]
      · simp [he]
    rw [hfirst, hrest] at hsplit
    rw [flatMap_cons]
    exact (List.Perm.append_left _ (ih hnodup.2)).trans hsplit

theorem files_perm (writes : List (RowValues V)) : (files writes).flatten.Perm writes := by
  have hperm := mergeSort_perm ((writes.map RowValues.values).dedup) isLe
  have hnodup : (((writes.map RowValues.values).dedup).mergeSort isLe).Nodup :=
    hperm.nodup_iff.mpr (nodup_dedup _)
  have hall : writes.filter (fun row =>
      row.values ∈ ((writes.map RowValues.values).dedup).mergeSort isLe) = writes := by
    apply filter_eq_self.mpr
    intro row hr
    have hm : row.values ∈ (writes.map RowValues.values).dedup :=
      mem_dedup.mpr (mem_map_of_mem hr)
    simpa using hperm.mem_iff.mpr hm
  have hk := filter_keys_perm _ hnodup writes
  rw [hall] at hk
  unfold files
  rw [← flatMap_def]
  exact hk

theorem files_same (writes : List (RowValues V)) :
    ∀ group ∈ files writes, ∃ x, ∀ f ∈ group, f.values = x := by
  intro group hg
  obtain ⟨key, _, he⟩ := mem_map.mp hg
  refine ⟨key, ?_⟩
  intro f hf
  rw [← he] at hf
  simpa using (mem_filter.mp hf).2

end Directory

theorem length_copies (file : RowValues V) : file.copies.length = file.repeatCount := by
  simp [RowValues.copies]

theorem filterFiles_pos (files : List (RowValues V)) (toAdd : ℤ) (h : 0 < toAdd) :
    ∃ vec, q.filterFiles files toAdd =
        some (vec, toAdd - min toAdd (q.raw files).length) ∧
      vec.flatMap RowValues.copies = (q.raw files).take toAdd.toNat ∧
      ∀ f ∈ vec, ∃ g ∈ files, f.values = g.values := by
  induction files generalizing toAdd with
  | nil => exact ⟨[], by simp [filterFiles, raw_nil]; omega, by simp [raw_nil], by simp⟩
  | cons file files ih =>
    rw [raw_cons]
    unfold filterFiles
    split
    · rename_i hp
      rw [fileCopies_of_not (by simpa using hp), nil_append]
      obtain ⟨vec, he, hc, hv⟩ := ih toAdd h
      refine ⟨vec, he, hc, ?_⟩
      intro f hf
      obtain ⟨g, hg, hfg⟩ := hv f hf
      exact ⟨g, by simp [hg], hfg⟩
    · rename_i hp
      rw [fileCopies_of_passes (by simpa using hp)]
      dsimp only
      by_cases hlarge : (file.repeatCount : ℤ) > toAdd
      · have hset : setRepeat file (file.repeatCount - (file.repeatCount - toAdd)) =
            some { file with repeatCount := toAdd.toNat } := by
          rw [setRepeat, if_pos (by omega)]
          congr 3
          omega
        simp only [if_pos hlarge, hset, sub_self, if_true]
        refine ⟨[{ file with repeatCount := toAdd.toNat }], ?_, ?_, ?_⟩
        · simp only [length_append, length_copies, Option.some.injEq, Prod.mk.injEq, true_and]
          omega
        · rw [take_append_of_le_length (by rw [length_copies]; omega)]
          simp only [flatMap_singleton, RowValues.copies, take_replicate]
          congr 1
          omega
        · intro f hf
          have he : f = { file with repeatCount := toAdd.toNat } := by simpa using hf
          exact ⟨file, by simp, by rw [he]⟩
      · simp only [if_neg hlarge]
        by_cases hfull : toAdd - (file.repeatCount : ℤ) = 0
        · rw [if_pos hfull]
          refine ⟨[file], ?_, ?_, fun f hf => ⟨file, by simp, by simp_all⟩⟩
          · simp only [length_append, length_copies, Option.some.injEq, Prod.mk.injEq,
              true_and]
            omega
          · have hlen : toAdd.toNat = file.copies.length := by
              rw [length_copies]
              omega
            rw [hlen, take_left, flatMap_singleton]
        · rw [if_neg hfull]
          obtain ⟨vec, he, hc, hv⟩ := ih (toAdd - file.repeatCount) (by omega)
          refine ⟨file :: vec, ?_, ?_, ?_⟩
          · rw [he]
            simp only [Option.map_some, length_append, length_copies, Option.some.injEq,
              Prod.mk.injEq, true_and]
            omega
          · rw [flatMap_cons, hc]
            have hn : toAdd.toNat = file.copies.length + (toAdd - file.repeatCount).toNat := by
              rw [length_copies]
              omega
            rw [hn, take_length_add_append]
          · intro f hf
            cases mem_cons.mp hf with
            | inl hf => exact ⟨file, by simp, by rw [hf]⟩
            | inr hf =>
              obtain ⟨g, hg, hfg⟩ := hv f hf
              exact ⟨g, by simp [hg], hfg⟩

theorem filterKeys_pos (keys : List (KeyFiles V)) (toAdd : ℤ) (h : 0 < toAdd) :
    ∃ vecs, q.filterKeys keys toAdd = some vecs ∧
      vecs.flatten.flatMap RowValues.copies =
        (q.raw (keys.flatMap KeyFiles.files)).take toAdd.toNat ∧
      ∀ vec ∈ vecs, ∃ x, ∀ f ∈ vec, f.values = x := by
  induction keys generalizing toAdd with
  | nil => exact ⟨[], rfl, by simp [raw_nil], by simp⟩
  | cons key keys ih =>
    obtain ⟨vec, he, hc, hv⟩ := q.filterFiles_pos key.files toAdd h
    have hsame : ∃ x, ∀ f ∈ vec, f.values = x := by
      cases hfiles : key.files with
      | nil =>
        refine ⟨[], ?_⟩
        intro f hf
        obtain ⟨g, hg, _⟩ := hv f hf
        simp [hfiles] at hg
      | cons row rows =>
        refine ⟨row.values, ?_⟩
        intro f hf
        obtain ⟨g, hg, hfg⟩ := hv f hf
        rw [hfg]
        exact key.same g hg row (by simp [hfiles])
    rw [flatMap_cons, raw_append]
    unfold filterKeys
    rw [he]
    dsimp only
    split
    · rename_i hz
      refine ⟨[vec], rfl, ?_, by simpa using hsame⟩
      rw [flatten_singleton, hc, take_append_of_le_length (by omega)]
    · rename_i hz
      have hmin : min toAdd ((q.raw key.files).length : ℤ) = (q.raw key.files).length := by omega
      obtain ⟨vecs, hes, hcs, hvs⟩ := ih (toAdd - (q.raw key.files).length) (by omega)
      rw [hmin, hes]
      refine ⟨vec :: vecs, rfl, ?_, ?_⟩
      · have hn : toAdd.toNat =
            (q.raw key.files).length + (toAdd - (q.raw key.files).length).toNat := by omega
        have hfull : (q.raw key.files).take toAdd.toNat = q.raw key.files :=
          take_of_length_le (by omega)
        rw [flatten_cons, flatMap_append, hc, hcs, hfull]
        rw [hn, take_length_add_append]
      · intro v hm
        cases mem_cons.mp hm with
        | inl hm => rw [hm]; exact hsame
        | inr hm => exact hvs v hm

theorem filterFiles_neg (files : List (RowValues V)) (toAdd : ℤ) (h : toAdd < 0) :
    q.filterFiles files toAdd = if ∃ f ∈ files, (q.whereVal f.values).passes = true then none
      else some ([], toAdd) := by
  induction files with
  | nil => simp [filterFiles]
  | cons file files ih =>
    unfold filterFiles
    split
    · rename_i hp
      rw [ih]
      simp at hp
      simp [hp]
    · rename_i hp
      have hp' : (q.whereVal file.values).passes = true := by simpa using hp
      have hlarge : (file.repeatCount : ℤ) > toAdd := by omega
      have hset : setRepeat file (file.repeatCount - (file.repeatCount - toAdd)) = none := by
        rw [setRepeat, if_neg (by omega)]
      simp only [if_pos hlarge, hset]
      rw [if_pos ⟨file, by simp, hp'⟩]

theorem filterKeys_neg (keys : List (KeyFiles V)) (toAdd : ℤ) (h : toAdd < 0) :
    (∃ vecs, q.filterKeys keys toAdd = some vecs) ↔
      ∀ f ∈ keys.flatMap KeyFiles.files, (q.whereVal f.values).passes = false := by
  induction keys with
  | nil => simp [filterKeys]
  | cons key keys ih =>
    unfold filterKeys
    rw [q.filterFiles_neg key.files toAdd h]
    by_cases hp : ∃ f ∈ key.files, (q.whereVal f.values).passes = true
    · rw [if_pos hp]
      obtain ⟨f, hf, hpass⟩ := hp
      simp only [reduceCtorEq, exists_false, flatMap_cons, mem_append, false_iff]
      intro hall
      have hn := hall f (.inl hf)
      simp [hpass] at hn
    · rw [if_neg hp]
      have hz : ¬ toAdd = 0 := by omega
      simp only [hz, if_false, flatMap_cons, mem_append]
      have hmap : (∃ vecs, (q.filterKeys keys toAdd).map (([] : List (RowValues V)) :: ·) =
          some vecs) ↔ ∃ vecs, q.filterKeys keys toAdd = some vecs := by
        cases q.filterKeys keys toAdd <;> simp
      rw [hmap, ih]
      constructor
      · intro hall f hf
        cases hf with
        | inl hf =>
          by_contra hn
          exact hp ⟨f, hf, by simpa using hn⟩
        | inr hf => exact hall f hf
      · exact fun hall f hf => hall f (.inr hf)

theorem filterKeys_neg_nil {q : Query V} {keys : List (KeyFiles V)} {toAdd : ℤ} (h : toAdd < 0)
    {vecs : List (List (RowValues V))} (hv : q.filterKeys keys toAdd = some vecs) :
    ∀ vec ∈ vecs, vec = [] := by
  induction keys generalizing vecs with
  | nil =>
    cases hv
    simp
  | cons key keys ih =>
    unfold filterKeys at hv
    rw [q.filterFiles_neg key.files toAdd h] at hv
    split at hv
    · cases hv
    · rename_i heq
      split at heq
      · cases heq
      · cases heq
        have hz : ¬ toAdd = 0 := by omega
        rw [if_neg hz] at hv
        obtain ⟨vecs', hvecs, he⟩ := Option.map_eq_some_iff.mp hv
        intro vec hm
        rw [← he] at hm
        cases mem_cons.mp hm with
        | inl hm => exact hm
        | inr hm => exact ih hvecs vec hm

theorem copies_mapFiles (vec : List (RowValues V))
    (h : ∀ f ∈ vec, f.values = x) :
    (q.mapFiles vec).toList.flatMap RowValues.copies =
      q.project (vec.flatMap RowValues.copies) := by
  cases vec with
  | nil => simp [mapFiles, project_nil]
  | cons file files =>
    rw [copies_sum _ h, project_replicate, mapFiles, h file (by simp)]

theorem copies_filterMap_mapFiles (vecs : List (List (RowValues V)))
    (h : ∀ vec ∈ vecs, ∃ x, ∀ f ∈ vec, f.values = x) :
    (vecs.filterMap q.mapFiles).flatMap RowValues.copies =
      q.project (vecs.flatten.flatMap RowValues.copies) := by
  induction vecs with
  | nil => simp [project_nil]
  | cons vec vecs ih =>
    obtain ⟨x, hx⟩ := h vec (by simp)
    have hcons : (vec :: vecs).filterMap q.mapFiles =
        (q.mapFiles vec).toList ++ vecs.filterMap q.mapFiles := by
      rw [filterMap_cons]
      cases q.mapFiles vec <;> rfl
    rw [hcons, flatMap_append, ih (fun v hv => h v (by simp [hv])), q.copies_mapFiles vec hx,
      flatten_cons, flatMap_append, project_append]

theorem showCopies_eq (values : Values V) (n : ℕ) (data : List (Values V))
    (h : data.length ≤ kMaxOutputRowsTable + 1) : showCopies values n data =
      if data.length + n ≤ kMaxOutputRowsTable + 1 then some (data ++ List.replicate n values)
      else none := by
  induction n generalizing data with
  | zero => simp [showCopies, h]
  | succ n ih =>
    unfold showCopies
    split
    · rename_i hl
      rw [if_neg (by omega)]
    · rename_i hl
      rw [ih _ (by simp only [length_append, length_singleton]; omega)]
      simp only [length_append, length_singleton, append_assoc,
        singleton_append, ← replicate_succ]
      congr 1
      simp only [eq_iff_iff]
      omega

theorem showRows_eq (rows : List (RowValues V)) (data : List (Values V))
    (h : data.length ≤ kMaxOutputRowsTable + 1) : showRows rows data =
      if data.length + (rows.flatMap RowValues.copies).length ≤ kMaxOutputRowsTable + 1 then
        some (data ++ rows.flatMap RowValues.copies)
      else none := by
  induction rows generalizing data with
  | nil => simp [showRows, h]
  | cons row rows ih =>
    unfold showRows
    rw [showCopies_eq _ _ _ h, flatMap_cons, length_append, length_copies]
    split
    · rename_i hl
      have hlen : (data ++ List.replicate row.repeatCount row.values).length =
          data.length + row.repeatCount := by simp
      rw [Option.bind_some, ih _ (by omega), hlen, append_assoc, Nat.add_assoc]
      rfl
    · rename_i hl
      rw [Option.bind_none, if_neg (by omega)]

theorem showSelect_rows (format : OutputFormat) (dir : List (List (RowValues V))) :
    (showSelect format dir).rows =
      if format = .table ∧ kMaxOutputRowsTable + 1 < (dir.flatten.flatMap RowValues.copies).length
      then [] else dir.flatten.flatMap RowValues.copies := by
  unfold showSelect
  cases format with
  | table =>
    dsimp only
    rw [showRows_eq dir.flatten [] (by simp)]
    simp only [length_nil, zero_add, nil_append, true_and]
    by_cases hl : (dir.flatten.flatMap RowValues.copies).length ≤ kMaxOutputRowsTable + 1
    · rw [if_pos hl, if_neg (by omega)]
      rfl
    · rw [if_neg hl, if_pos (by omega)]
      rfl
  | _ => simp [Output.rows]

theorem length_found_le (t : Table V) : (q.found t).length ≤ intMax.toNat := by
  refine le_trans ?_ t.bounded
  unfold found
  generalize t.keys.flatMap KeyFiles.files = files
  induction files with
  | nil => simp [raw_nil, project_nil]
  | cons file files ih =>
    have hf : (q.project (q.fileCopies file)).length ≤ file.repeatCount := by
      unfold fileCopies project
      split
      · simp
      · split
        · simp [length_copies]
        · simp
    rw [raw_cons, project_append, length_append, map_cons, sum_cons]
    omega

theorem take_perm_take_iff (xs : List (Values V)) (m n : ℕ) :
    (xs.take m).Perm (xs.take n) ↔ min m xs.length = min n xs.length := by
  constructor
  · intro h
    simpa only [length_take] using h.length_eq
  · intro h
    rw [take_eq_take_min, h, ← take_eq_take_min]

section Normal

variable [LinearOrder V]

variable {q : Query V}

theorem evalSelect_none (t : Table V) (h : q.limit = none) :
    ∃ dir, q.evalSelect t = some dir ∧
      (dir.flatten.flatMap RowValues.copies).Perm (q.found t) := by
  refine ⟨(files (t.keys.flatMap q.evalSelectTableRows)).map initRepeatRow,
    by simp only [evalSelect, h], ?_⟩
  rw [copies_map_initRepeatRow _ (files_same _), found, ← copies_evalSelectTableKeys]
  exact (files_perm _).flatMap_right _

theorem evalSelect_pos (t : Table V) {limit : ℤ} (h : q.limit = some limit)
    (hl : 0 ≤ limit) : ∃ dir, q.evalSelect t = some dir ∧
      (dir.flatten.flatMap RowValues.copies).Perm ((q.found t).take limit.toNat) := by
  simp only [evalSelect, h]
  unfold syncData
  by_cases hz : limit = 0
  · refine ⟨files [], by simp [hz], ?_⟩
    simp [hz, files]
  · obtain ⟨vecs, he, hc, hv⟩ := q.filterKeys_pos t.keys limit (by omega)
    refine ⟨files (vecs.filterMap q.mapFiles), by simp [hz, he], ?_⟩
    rw [found, ← project_take, ← hc, ← copies_filterMap_mapFiles q vecs hv]
    exact (files_perm _).flatMap_right _

theorem evalSelect_neg (t : Table V) {limit : ℤ} (h : q.limit = some limit)
    (hl : limit < 0) : (∃ dir, q.evalSelect t = some dir) ↔
      ∀ f ∈ t.keys.flatMap KeyFiles.files, (q.whereVal f.values).passes = false := by
  rw [← q.filterKeys_neg t.keys limit hl]
  have hz : limit ≠ 0 := by omega
  simp only [evalSelect, h, syncData, hz, if_false]
  cases q.filterKeys t.keys limit <;> simp

variable {dir : List (List (RowValues V))}

theorem evalSelect_neg_rows {t : Table V} {limit : ℤ} (h : q.limit = some limit)
    (hl : limit < 0) (hd : q.evalSelect t = some dir) :
    dir.flatten.flatMap RowValues.copies = [] := by
  have hz : limit ≠ 0 := by omega
  simp only [evalSelect, h, syncData, hz, if_false] at hd
  obtain ⟨vecs, hv, he⟩ := Option.map_eq_some_iff.mp hd
  have hnil : vecs.filterMap q.mapFiles = [] := by
    rw [filterMap_eq_nil_iff]
    intro vec hm
    rw [filterKeys_neg_nil hl hv vec hm]
    rfl
  rw [← he, hnil]
  simp [files]

def Agrees (q : Query V) (t : Table V) : Prop :=
  ∃ output, q.normal t = some output ∧ (q.direct t).rows.Perm output.rows

/-- The queries and tables for which the two agree: a table has at most 1025 rows, and fewer than
its limit if that is positive; another output with the limit 0 has none; and a negative limit
comes with no row that meets the condition. -/
def Meets (q : Query V) (t : Table V) : Prop :=
  match q.limit with
  | none => q.format = .table → (q.found t).length ≤ kMaxOutputRowsTable + 1
  | some limit =>
    if limit < 0 then
      ∀ f ∈ t.keys.flatMap KeyFiles.files, (q.whereVal f.values).passes = false
    else if limit = 0 then q.format ≠ .table → (q.found t).length = 0
    else q.format = .table →
      ((q.found t).length : ℤ) < limit ∧ (q.found t).length ≤ kMaxOutputRowsTable + 1

theorem agrees_iff_of_evalSelect {t : Table V}
    (h : q.evalSelect t = some dir) : q.Agrees t ↔ (q.direct t).rows.Perm
      (if q.format = .table ∧ kMaxOutputRowsTable + 1 <
          (dir.flatten.flatMap RowValues.copies).length then []
        else dir.flatten.flatMap RowValues.copies) := by
  have hn : q.normal t = some (showSelect q.format dir) := by rw [normal, h, Option.map_some]
  rw [← showSelect_rows]
  constructor
  · rintro ⟨output, he, hp⟩
    rw [hn] at he
    rw [Option.some.inj he]
    exact hp
  · exact fun hp => ⟨_, hn, hp⟩

theorem agrees_iff_take {t : Table V} {m n : ℕ}
    (he : q.evalSelect t = some dir)
    (hdir : (dir.flatten.flatMap RowValues.copies).Perm ((q.found t).take n))
    (hdirect : (q.direct t).rows = (q.found t).take m) : q.Agrees t ↔
      if q.format = .table ∧ kMaxOutputRowsTable + 1 < min n (q.found t).length then
        min m (q.found t).length = 0
      else min m (q.found t).length = min n (q.found t).length := by
  have hlen : (dir.flatten.flatMap RowValues.copies).length = min n (q.found t).length := by
    rw [hdir.length_eq, length_take]
  rw [agrees_iff_of_evalSelect he, hdirect, hlen]
  split
  · rw [perm_nil, ← length_eq_zero_iff, length_take]
  · rw [← take_perm_take_iff]
    exact ⟨fun h => h.trans hdir, fun h => h.trans hdir.symm⟩

/-- The direct loop prints what the normal path prints exactly under the condition. -/
theorem direct_agrees_iff (q : Query V) (t : Table V) : q.Agrees t ↔ q.Meets t := by
  have hbound := q.length_found_le t
  have hmax : intMax = 9223372036854775807 := by norm_num [intMax]
  have hcap : kMaxOutputRowsTable = 1024 := rfl
  unfold Meets
  cases hl : q.limit with
  | none =>
    obtain ⟨dir, he, hp⟩ := evalSelect_none t hl
    have hp' : (dir.flatten.flatMap RowValues.copies).Perm
        ((q.found t).take (q.found t).length) := by rwa [take_length]
    dsimp only
    by_cases hf : q.format = .table
    · rw [agrees_iff_take he hp' (direct_rows_table t hf), hl]
      simp only [hf, true_and, forall_const, Option.getD_none]
      split <;> omega
    · rw [agrees_iff_take he hp' (direct_rows_items t hf), hl]
      simp only [hf, false_and, if_false, false_imp_iff, Option.getD_none, iff_true]
      omega
  | some limit =>
    dsimp only
    by_cases hneg : limit < 0
    · rw [if_pos hneg, ← evalSelect_neg t hl hneg]
      constructor
      · intro h
        obtain ⟨output, ho, _⟩ := h
        obtain ⟨dir, hd, _⟩ := Option.map_eq_some_iff.mp ho
        exact ⟨dir, hd⟩
      · intro h
        have hnone := (evalSelect_neg t hl hneg).mp h
        obtain ⟨dir, hd⟩ := h
        have hraw : q.raw (t.keys.flatMap KeyFiles.files) = [] :=
          flatMap_eq_nil_iff.mpr (fun f hf => fileCopies_of_not (hnone f hf))
        have hfound : q.found t = [] := by rw [found, hraw, project_nil]
        have hrows : (q.direct t).rows = [] := by
          by_cases hf : q.format = .table
          · rw [direct_rows_table t hf, hfound, take_nil]
          · rw [direct_rows_items t hf, hfound, take_nil]
        rw [agrees_iff_of_evalSelect hd, evalSelect_neg_rows hl hneg hd, hrows]
        simp
    · rw [if_neg hneg]
      obtain ⟨dir, he, hp⟩ := evalSelect_pos t hl (by omega)
      by_cases hf : q.format = .table
      · rw [agrees_iff_take he hp (direct_rows_table t hf), hl]
        simp only [hf, true_and, Option.getD_some, ne_eq, not_true_eq_false, false_imp_iff,
          forall_const]
        by_cases hz : limit = 0
        · rw [if_pos hz]
          simp only [iff_true]
          split <;> omega
        · rw [if_neg hz]
          split <;> omega
      · rw [agrees_iff_take he hp (direct_rows_items t hf), hl]
        simp only [hf, false_and, if_false, Option.getD_some, ne_eq, not_false_eq_true,
          forall_const, false_imp_iff]
        split
        · omega
        · simp only [iff_true]
          omega

end Normal

end Query

def oneRow : Table ℕ where
  keys := [⟨true, [⟨[some 7], 1⟩], by simp⟩]
  bounded := by decide

def selectAll (limit : Option ℤ) (format : OutputFormat) : Query ℕ where
  whereVal := fun _ => .defined 1
  params := [fun values => values.getD 0 none]
  limit := limit
  format := format

/-- With the limit 1 the table is empty, and with the limit 0 a row is printed. -/
theorem direct_not_agrees :
    ¬ (selectAll (some 1) .table).Agrees oneRow ∧ ¬ (selectAll (some 0) .csv).Agrees oneRow := by
  have htable : ((selectAll (some 1) .table).direct oneRow).rows = [] := rfl
  have hcsv : ((selectAll (some 0) .csv).direct oneRow).rows = [[some 7]] := rfl
  have hshow : ((selectAll (some 1) .table).normal oneRow).map Output.rows = some [[some 7]] := by
    decide +kernel
  have hnone : ((selectAll (some 0) .csv).normal oneRow).map Output.rows = some [] := by
    decide +kernel
  constructor
  · rintro ⟨output, ho, hp⟩
    rw [ho, Option.map_some, Option.some.injEq] at hshow
    rw [htable, hshow] at hp
    exact absurd hp.length_eq (by decide)
  · rintro ⟨output, ho, hp⟩
    rw [ho, Option.map_some, Option.some.injEq] at hnone
    rw [hcsv, hnone] at hp
    exact absurd hp.length_eq (by decide)

end SkipPlatform.SqlDirect
