import SkipPlatform.EagerDirPaths
import SkipPlatform.RangeMap
import SkipPlatform.StoreParallelMap

set_option autoImplicit false

/-! The mapping of a new child over the rows of its parent. After every row it asks the
collector whether to give up its region; a pass that is suspended is resumed after the last
key it has mapped. -/
namespace SkipPlatform
open SortedMerge StoreSourceMap

inductive Boundary (K : Type) where
  | inclusive (lastSkipped : K)
  | exclusive (lastSkipped : K)

namespace Boundary
variable {K : Type} [LinearOrder K]

def admits : Boundary K → K → Bool
  | inclusive lastSkipped, key => decide (lastSkipped ≤ key)
  | exclusive lastSkipped, key => decide (lastSkipped < key)

end Boundary

/-- The calls of `mapRow` that a pass makes, in order, the last key of a suspended pass, and
where the next one starts. `asked` counts the questions to the collector. -/
structure Pass (K F : Type) where
  calls : List (K × List F)
  lastSkipped : Option K
  current : ℕ
  asked : ℕ

def suspends (shouldGC : Option (ℕ → Bool)) (asked : ℕ) : Bool :=
  shouldGC.any fun answer => answer asked

namespace EagerDir
variable {D K F : Type} [LinearOrder D] [StoreKey K]

def keysAfter (d : EagerDir D K F) (lastSkippedOpt : Option (Boundary K)) : List K :=
  d.data.data.keys.filter fun key => lastSkippedOpt.all fun boundary => boundary.admits key

/-- The fixed row at `current`, up to `currentEnd`. -/
def fixedAt (parent : EagerDir D K F) (currentEnd : ℤ) (current : ℕ) :
    Option (FixedRow K (Source D K) (List F)) :=
  if (current : ℤ) ≤ currentEnd then parent.fixedData.data.rows[current]? else none

/-- The call for the fixed rows of one key, and the position after them. `row` is the row at
`current`. -/
def fixedMapData (parent : EagerDir D K F) (row : FixedRow K (Source D K) (List F))
    (current : ℕ) : (K × List F) × ℕ :=
  let rows := parent.fixedData.data.rows
  if parent.reducer.isNone && rows[current + 1]?.any fun next => decide (next.key ≠ row.key) then
    ((row.key, row.value), current + 1)
  else
    let group := (rows.drop current).takeWhile fun r => decide (r.key = row.key)
    let fixedFiles :=
      match parent.reducer with
      | none => group.flatMap FixedRow.value
      | some compact => compact.getArray row.key
    ((row.key, fixedFiles), current + group.length)

theorem getElem_of_fixedAt {parent : EagerDir D K F} {currentEnd : ℤ} {current : ℕ}
    {row : FixedRow K (Source D K) (List F)} (h : parent.fixedAt currentEnd current = some row) :
    (current : ℤ) ≤ currentEnd ∧ parent.fixedData.data.rows[current]? = some row := by
  unfold fixedAt at h
  split_ifs at h with hle
  exact ⟨hle, h⟩

theorem fixedMapData_next {parent : EagerDir D K F} {current : ℕ}
    {row : FixedRow K (Source D K) (List F)}
    (h : parent.fixedData.data.rows[current]? = some row) :
    current < (parent.fixedMapData row current).2 := by
  obtain ⟨hlt, hrow⟩ := List.getElem?_eq_some_iff.mp h
  unfold fixedMapData
  dsimp only
  split
  · exact Nat.lt_succ_self current
  · rw [List.drop_eq_getElem_cons hlt, hrow, List.takeWhile_cons_of_pos (by simp)]
    simp

/-- The two loops over the fixed rows: up to the key `bound`, or to the end. -/
def fixedLoop (parent : EagerDir D K F) (shouldGC : Option (ℕ → Bool)) (currentEnd : ℤ)
    (bound : Option K) (current asked : ℕ) : Pass K F :=
  match h : parent.fixedAt currentEnd current with
  | none => ⟨[], none, current, asked⟩
  | some row =>
    if bound.all fun key => decide (row.key < key) then
      let call := parent.fixedMapData row current
      if suspends shouldGC asked then ⟨[call.1], some row.key, call.2, asked + 1⟩
      else
        let rest := fixedLoop parent shouldGC currentEnd bound call.2 (asked + 1)
        { rest with calls := call.1 :: rest.calls }
    else ⟨[], none, current, asked⟩
termination_by parent.fixedData.data.rows.length - current
decreasing_by
  have hget := (getElem_of_fixedAt h).2
  have hnext := fixedMapData_next hget
  have hlt := (List.getElem?_eq_some_iff.mp hget).1
  omega

/-- The position after the fixed rows of a key that has later writes. -/
def skipKey (parent : EagerDir D K F) (currentEnd : ℤ) (key : K) (current : ℕ) : ℕ :=
  current + (((parent.fixedData.data.rows.take (currentEnd + 1).toNat).drop current).takeWhile
    fun row => decide (row.key = key)).length

def subMapData (parent : EagerDir D K F) (shouldGC : Option (ℕ → Bool)) (currentEnd : ℤ)
    (stop : Option K) : List K → ℕ → ℕ → Pass K F
  | [], current, asked => parent.fixedLoop shouldGC currentEnd none current asked
  | key :: keys, current, asked =>
    if stop.any fun endKey => decide (endKey < key) then
      parent.fixedLoop shouldGC currentEnd none current asked
    else
      let before := parent.fixedLoop shouldGC currentEnd (some key) current asked
      match before.lastSkipped with
      | some _ => before
      | none =>
        let current := parent.skipKey currentEnd key before.current
        let calls := before.calls ++ [(key, parent.getArrayRaw key)]
        if suspends shouldGC before.asked then ⟨calls, some key, current, before.asked + 1⟩
        else
          let rest := subMapData parent shouldGC currentEnd stop keys current (before.asked + 1)
          { rest with calls := calls ++ rest.calls }

/-- The last fixed row of the range: the first one of its end, if there is one. -/
def rangeEnd (parent : EagerDir D K F) (stop : Option K) : ℤ :=
  let rows := parent.fixedData.data.rows
  match stop with
  | none => rows.length - 1
  | some key =>
    let pos := parent.fixedData.data.getPos key
    let pos : ℤ := if rows[pos]?.any fun row => decide (row.key ≠ key) then pos - 1 else pos
    min (rows.length - 1) pos

/-- The loop of `mapData`; `none` is for too little fuel. -/
def passes (parent : EagerDir D K F) (shouldGC : Option (ℕ → Bool)) (stop : Option K) :
    ℕ → Option (Boundary K) → ℕ → ℕ → Option (List (Pass K F))
  | 0, _, _, _ => none
  | fuel + 1, last, current, asked =>
    let pass := parent.subMapData shouldGC (parent.rangeEnd stop) stop (parent.keysAfter last)
      current asked
    match pass.lastSkipped with
    | none => some [pass]
    | some key =>
      (passes parent shouldGC stop fuel (some (.exclusive key)) pass.current pass.asked).map
        fun rest => pass :: rest

/-- The passes over one range. A mapper that does not collect its rows has no region. -/
def mapPasses (parent : EagerDir D K F) (shouldGC : Option (ℕ → Bool)) (fuel : ℕ)
    (rangeOpt : Option (KeyRange K)) (asked : ℕ) : Option (List (Pass K F)) :=
  let last := rangeOpt.map fun range => Boundary.inclusive range.start
  let current :=
    match rangeOpt with
    | none => 0
    | some range => parent.fixedData.data.getPos range.start
  parent.passes shouldGC (rangeOpt.map KeyRange.stop) fuel last current asked

/-- The passes over the ranges of one mapper, one range after the other. -/
def rangePasses (parent : EagerDir D K F) (shouldGC : Option (ℕ → Bool)) (fuel : ℕ) :
    List (Option (KeyRange K)) → ℕ → Option (List (Pass K F))
  | [], _ => some []
  | rangeOpt :: ranges, asked =>
    (parent.mapPasses shouldGC fuel rangeOpt asked).bind fun first =>
      (rangePasses parent shouldGC fuel ranges ((first.getLast?.map Pass.asked).getD asked)).map
        fun rest => first ++ rest

def rangesOf : Option (List (KeyRange K)) → List (Option (KeyRange K))
  | none => [none]
  | some ranges => ranges.map some

end EagerDir

namespace MapEdge
variable {D K P F E : Type} [LinearOrder D] [StoreKey K] [DecidableEq P] [DecidableEq F]

def mapCall (env : MapEnv D K P F E) (e : MapEdge D K F) (map : RowMap D K P F E)
    (st : Mapped D K P F) (call : K × List F) : Except E (Mapped D K P F) :=
  ({ e with values := fun _ => call.2 } : MapEdge D K F).mapRow env map st call.1

def runPass (env : MapEnv D K P F E) (e : MapEdge D K F) (map : RowMap D K P F E)
    (st : Mapped D K P F) (pass : Pass K F) : Except E (Mapped D K P F) :=
  (pass.calls.foldlM (e.mapCall env map) ⟨[], [], st.context⟩).map fun collected =>
    ⟨st.acc ++ collected.acc, st.oldVec ++ collected.oldVec, collected.context⟩

def mapRanges (env : MapEnv D K P F E) (e : MapEdge D K F) (map : RowMap D K P F E)
    (parent : EagerDir D K F) (shouldGC : Option (ℕ → Bool)) (fuel : ℕ)
    (ranges : Option (List (KeyRange K))) (st : Mapped D K P F) :
    Option (Except E (Mapped D K P F)) :=
  (parent.rangePasses shouldGC fuel (EagerDir.rangesOf ranges) 0).map fun passes =>
    passes.foldlM (e.runPass env map) st

end MapEdge
end SkipPlatform
