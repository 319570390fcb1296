import SkipPlatform.Inquiry
import SkipPlatform.StoreReadFilterRuns

set_option autoImplicit false

/-! The mapping of rows from a parent to a child, on the main thread and in batches given to
workers: both write the rows, register the reads and keep the old-writes index. -/
namespace SkipPlatform
open StoreReaders StoreDeps StoreSourceMap

/-- `reader` is a read through the `ParallelReader`, the others go through a context. -/
inductive ReadRequest (D K P : Type) where
  | reader (dirName : D) (key : K)
  | getArray (dirName : D) (key : K)
  | getArrayFilter (dirName : D) (key : K) (project : P)

namespace ReadRequest
variable {D K P : Type}

def dirName : ReadRequest D K P → D
  | reader d _ => d
  | getArray d _ => d
  | getArrayFilter d _ _ => d

end ReadRequest

abbrev RowBody (D K P F E R : Type) := Inquiry (ReadRequest D K P) (List F) (Except E R)

/-- What the mapping takes from outside: the projections, the number drawn for a new filter
(the same on all paths that are compared), and the exceptions of a missing directory and
of a violated invariant. -/
structure MapEnv (D K P F E : Type) where
  project : P → F → F
  hash : P → ℤ
  name : Path D K → P → List F → ℤ
  missing : D → E
  broken : E

structure ParallelContextFilter (D K P F : Type) where
  path : Path D K
  project : P
  value : List F

structure ParallelReader (D K P F : Type) [LinearOrder D] [LinearOrder K] where
  requests : SortedSet (Path D K)
  contextRequests : SortedSet (Path D K)
  filters : List (ParallelContextFilter D K P F)

/-- `prepared` are the reads of the main-thread hooks. -/
structure PreparedParallelRow (D K P F : Type) [LinearOrder D] [LinearOrder K] where
  writes : SortedMap K (List F)
  reads : SortedSet (Path D K)
  contextReads : SortedSet (Path D K)
  filters : List (ParallelContextFilter D K P F)
  prepared : SortedSet (Path D K)

structure ParallelMapper (D K P F E : Type) [LinearOrder K] where
  lambda : K → List F → RowBody D K P F E (SortedMap K (List F))
  select : K → Bool
  serial : Option (K → List F → RowBody D K P F E (SortedMap K (List F)))
  prepareRow : Option (K → List F → RowBody D K P F E (List F))
  recoverRow : Option (K → List F → E → RowBody D K P F E (Option (SortedMap K (List F))))

/-- One mapper's work on a row, in a context whose reads are the row's. -/
abbrev RowMap (D K P F E : Type) [LinearOrder D] [StoreKey K] :=
  ReadContext D K P F → K → List F → Except E (SortedMap K (List F) × ReadContext D K P F)

namespace ReadContext
variable {D K P F E : Type} [LinearOrder D] [StoreKey K] [DecidableEq P] [DecidableEq F]

def addRead (c : ReadContext D K P F) (path : Path D K) : ReadContext D K P F :=
  { c with reads := c.reads.set path () }

def addFilteredDep (env : MapEnv D K P F E) (c : ReadContext D K P F) (path : Path D K) (p : P)
    (value : List F) : ReadContext D K P F :=
  let r := c.deps.addFilter env.hash (env.name path p value) path p value
  ({ c with deps := r.1 } : ReadContext D K P F).addRead r.2

def answer (env : MapEnv D K P F E) (c : ReadContext D K P F) (q : ReadRequest D K P) :
    Except E (List F) :=
  match c.dirs.maybeGet q.dirName with
  | some (.eager dir) =>
    match q with
    | .reader _ key => .ok (dir.getArrayRaw key)
    | .getArray _ key => .ok (dir.getArrayRaw key)
    | .getArrayFilter _ key p => .ok ((dir.getArrayRaw key).map (env.project p))
  | _ => .error (env.missing q.dirName)

def track (env : MapEnv D K P F E) (c : ReadContext D K P F) : ReadRequest D K P → ReadContext D K P F
  | .reader d key => (c.addRead ⟨d, .dirTag⟩).addRead ⟨d, .key key⟩
  | .getArray d key => (c.addRead ⟨d, .dirTag⟩).addRead ⟨d, .key key⟩
  | .getArrayFilter d key p =>
    (c.addFilteredDep env ⟨d, .key key⟩ p ((c.getArrayRaw d key).map (env.project p))).addRead
      ⟨d, .dirTag⟩

def request (env : MapEnv D K P F E) (c : ReadContext D K P F) (q : ReadRequest D K P) :
    Except E (List F × ReadContext D K P F) :=
  (c.answer env q).map fun a => (a, c.track env q)

def runLambda (env : MapEnv D K P F E) (f : K → List F → RowBody D K P F E (SortedMap K (List F))) :
    RowMap D K P F E :=
  fun c key values => (f key values).interpret (request env) c

/-- A hook, with `reads` as the reads so far; those of the context are put back. -/
def runHook {R : Type} (env : MapEnv D K P F E) (c : ReadContext D K P F)
    (reads : SortedSet (Path D K)) (body : RowBody D K P F E R) :
    Except E (R × SortedSet (Path D K) × ReadContext D K P F) :=
  (body.interpret (request env) { c with reads := reads }).map fun x =>
    (x.1, x.2.reads, { x.2 with reads := c.reads })

end ReadContext

namespace ParallelReader
variable {D K P F E : Type} [LinearOrder D] [StoreKey K] [DecidableEq P] [DecidableEq F]

def create : ParallelReader D K P F := ⟨.empty, .empty, []⟩

/-- `recordContext` is folded in: a context read of a worker is logged as it is made. -/
def track (env : MapEnv D K P F E) (snapshot : ReadContext D K P F) (r : ParallelReader D K P F) :
    ReadRequest D K P → ParallelReader D K P F
  | .reader d key => { r with requests := r.requests.set ⟨d, .key key⟩ () }
  | .getArray d key =>
    { r with contextRequests := (r.contextRequests.set ⟨d, .dirTag⟩ ()).set ⟨d, .key key⟩ () }
  | .getArrayFilter d key p =>
    { r with
      contextRequests := r.contextRequests.set ⟨d, .dirTag⟩ ()
      filters :=
        ⟨⟨d, .key key⟩, p, (snapshot.getArrayRaw d key).map (env.project p)⟩ :: r.filters }

def request (env : MapEnv D K P F E) (snapshot : ReadContext D K P F) (r : ParallelReader D K P F)
    (q : ReadRequest D K P) : Except E (List F × ParallelReader D K P F) :=
  (snapshot.answer env q).map fun a => (a, r.track env snapshot q)

end ParallelReader

namespace ParallelMapper
variable {D K P F E : Type} [LinearOrder D] [StoreKey K] [DecidableEq P] [DecidableEq F]

/-- `ParallelMapJob.evaluate`: what a worker returns for a row. -/
def evaluate (env : MapEnv D K P F E) (m : ParallelMapper D K P F E)
    (snapshot : ReadContext D K P F) (key : K) (inputs : List F) :
    Except E (SortedMap K (List F) × ParallelReader D K P F) :=
  (m.lambda key inputs).interpret (ParallelReader.request env snapshot) ParallelReader.create

def preparations (env : MapEnv D K P F E) (m : ParallelMapper D K P F E) (values : K → List F) :
    ReadContext D K P F → List K →
      Except E (List (K × List F × SortedSet (Path D K)) × ReadContext D K P F)
  | c, [] => .ok ([], c)
  | c, key :: keys =>
    match m.prepareRow with
    | none =>
      (preparations env m values c keys).map fun x => ((key, values key, .empty) :: x.1, x.2)
    | some prepare =>
      (c.runHook env .empty (prepare key (values key))).bind fun y =>
        (preparations env m values y.2.2 keys).map fun x => ((key, y.1, y.2.1) :: x.1, x.2)

/-- The row of one outcome: the worker's, or the recovery's when the worker threw. -/
def settle (env : MapEnv D K P F E) (m : ParallelMapper D K P F E) (values : K → List F)
    (c : ReadContext D K P F) (key : K) (prepared : SortedSet (Path D K))
    (outcome : Except E (SortedMap K (List F) × ParallelReader D K P F)) :
    Except E (PreparedParallelRow D K P F × ReadContext D K P F) :=
  match outcome with
  | .ok x => .ok (⟨x.1, x.2.requests, x.2.contextRequests, x.2.filters, prepared⟩, c)
  | .error ex =>
    match m.recoverRow with
    | none => .error ex
    | some recover =>
      (c.runHook env prepared (recover key (values key) ex)).bind fun y =>
        match y.1 with
        | none => .error ex
        | some writes => .ok (⟨writes, .empty, .empty, [], y.2.1⟩, y.2.2)

def settleAll (env : MapEnv D K P F E) (m : ParallelMapper D K P F E) (values : K → List F)
    (snapshot : ReadContext D K P F) :
    ReadContext D K P F → SortedMap K (PreparedParallelRow D K P F) →
      List (K × List F × SortedSet (Path D K)) →
      Except E (SortedMap K (PreparedParallelRow D K P F) × ReadContext D K P F)
  | c, results, [] => .ok (results, c)
  | c, results, (key, inputs, prepared) :: rows =>
    (m.settle env values c key prepared (m.evaluate env snapshot key inputs)).bind fun y =>
      settleAll env m values snapshot y.2 (results.set key y.1) rows

/-- The results of a batch. Without a selected key there must be a serial mapper. -/
def prepare (env : MapEnv D K P F E) (m : ParallelMapper D K P F E) (values : K → List F)
    (c : ReadContext D K P F) (keys : List K) :
    Except E (SortedMap K (PreparedParallelRow D K P F) × ReadContext D K P F) :=
  let selected := keys.filter m.select
  if selected.isEmpty then if m.serial.isSome then .ok (.empty, c) else .error env.broken
  else
    (m.preparations env values c selected).bind fun x =>
      m.settleAll env values x.2 x.2 .empty x.1

def replayReads (env : MapEnv D K P F E) (c : ReadContext D K P F)
    (row : PreparedParallelRow D K P F) : Except E (ReadContext D K P F) :=
  let c := { c with reads := (c.reads.union row.prepared).union row.contextReads }
  let c := row.filters.reverse.foldl (fun c f => c.addFilteredDep env f.path f.project f.value) c
  row.reads.keys.foldlM (fun c path =>
    match c.dirs.maybeGet path.dirName with
    | some (.eager _) => .ok ((c.addRead ⟨path.dirName, .dirTag⟩).addRead path)
    | _ => .error (env.missing path.dirName)) c

/-- `ParallelReplayMapper.map`. -/
def replay (env : MapEnv D K P F E) (m : ParallelMapper D K P F E)
    (results : SortedMap K (PreparedParallelRow D K P F)) : RowMap D K P F E :=
  fun c key values =>
    match results.maybeGet key with
    | none =>
      match m.serial with
      | none => .error env.broken
      | some f => ReadContext.runLambda env f c key values
    | some row => (replayReads env c row).map fun c => (row.writes, c)

end ParallelMapper

/-- The edge that is mapped: its directories, the tick, and whether the dependencies of a
row are merged into the old ones. -/
structure MapEdge (D K F : Type) where
  parentName : D
  childName : D
  tick : ℕ
  incremental : Bool
  values : K → List F

structure Mapped (D K P F : Type) [LinearOrder D] [StoreKey K] where
  acc : List (FixedRow K (Source D K) (List F))
  oldVec : List (StoreSourceMap.Row D K)
  context : ReadContext D K P F

namespace MapEdge
variable {D K P F E : Type} [LinearOrder D] [StoreKey K] [DecidableEq P] [DecidableEq F]

def arrow (e : MapEdge D K F) (key : K) : ArrowKey D K := ⟨e.parentName, e.childName, key⟩

def source (e : MapEdge D K F) (key : K) : Source D K := ⟨e.parentName, key⟩

def orBroken {α : Type} (env : MapEnv D K P F E) : Option α → Except E α
  | none => .error env.broken
  | some a => .ok a

def rowInfo (writes : SortedMap K (List F)) (reads : SortedSet (Path D K)) : MInfo D K :=
  .create writes.keys [] reads.keys

def mapRow (env : MapEnv D K P F E) (e : MapEdge D K F) (map : RowMap D K P F E)
    (st : Mapped D K P F) (key : K) : Except E (Mapped D K P F) :=
  (map { st.context with reads := .empty } key (e.values key)).bind fun x =>
    (orBroken env (x.2.deps.updateNewDeps (e.arrow key) x.2.reads.keys)).map fun deps =>
      { acc := st.acc ++ x.1.items.map fun w => ⟨w.1, w.2, e.source key, e.tick⟩
        oldVec := st.oldVec ++
          if x.1.isEmpty && x.2.reads.isEmpty then [] else [(e.source key, rowInfo x.1 x.2.reads)]
        context := { x.2 with deps := deps, reads := st.context.reads } }

def mapRows (env : MapEnv D K P F E) (e : MapEdge D K F) (map : RowMap D K P F E)
    (st : Mapped D K P F) (keys : List K) : Except E (Mapped D K P F) :=
  keys.foldlM (e.mapRow env map) st

/-- The writes of a row, then the removal of the old keys it no longer writes. -/
def rowWrites (oldKeys : List K) (writes : SortedMap K (List F)) : List (K × List F) :=
  writes.items ++ (oldKeys.filter fun k => !writes.containsKey k).map fun k => (k, [])

def writeRow (env : MapEnv D K P F E) (e : MapEdge D K F) (c : ReadContext D K P F) (key : K)
    (oldKeys : List K) (writes : SortedMap K (List F)) : Except E (ReadContext D K P F) :=
  (rowWrites oldKeys writes).foldlM (fun c w => orBroken env
    (c.writeEntry env.project ⟨e.tick, none⟩ e.childName (e.source key) (e.source key) w.1 w.2)) c

def setOld (e : MapEdge D K F) (c : ReadContext D K P F) (key : K) (info : MInfo D K) :
    Option (ReadContext D K P F) :=
  match c.dirs.maybeGet e.childName with
  | some (.eager child) =>
    some { c with dirs := c.dirs.set e.childName (.eager (child.setOld (e.source key) info)) }
  | _ => none

def getOld (e : MapEdge D K F) (c : ReadContext D K P F) (key : K) : Option (MInfo D K) :=
  match c.dirs.maybeGet e.childName with
  | some (.eager child) => child.getOld (e.source key)
  | _ => none

/-- One row of `runRows`. The child is stored after each row, not only after the last: the
mapper does not read it. -/
def updateRow (env : MapEnv D K P F E) (e : MapEdge D K F) (map : RowMap D K P F E)
    (c : ReadContext D K P F) (key : K) : Except E (ReadContext D K P F) :=
  (orBroken env (e.getOld c key)).bind fun oldInfo =>
    (map { c with reads := .empty } key (e.values key)).bind fun x =>
      (orBroken env (x.2.deps.replaceDeps e.incremental (e.arrow key) oldInfo.getReads
        x.2.reads)).bind fun deps =>
        (e.writeRow env { x.2 with deps := deps, reads := c.reads } key oldInfo.getKeys x.1).bind
          fun c => orBroken env (e.setOld c key (rowInfo x.1 x.2.reads))

def runRows (env : MapEnv D K P F E) (e : MapEdge D K F) (map : RowMap D K P F E)
    (c : ReadContext D K P F) (keys : List K) : Except E (ReadContext D K P F) :=
  keys.foldlM (e.updateRow env map) c

/-- Batches of `n` keys; the fuel is the number of keys. -/
def batchesFuel {α : Type} (n : ℕ) : ℕ → List α → List (List α)
  | 0, _ => []
  | _ + 1, [] => []
  | fuel + 1, key :: keys =>
    (key :: keys).take n :: batchesFuel n fuel ((key :: keys).drop n)

def batches {α : Type} (keys : List α) : List (List α) := batchesFuel 256 keys.length keys

def serialMapData (env : MapEnv D K P F E) (e : MapEdge D K F)
    (f : K → List F → RowBody D K P F E (SortedMap K (List F))) (c : ReadContext D K P F)
    (keys : List K) : Except E (Mapped D K P F) :=
  e.mapRows env (ReadContext.runLambda env f) ⟨[], [], c⟩ keys

/-- The rows that are not selected go through the serial mapper first. -/
def forward (env : MapEnv D K P F E) (m : ParallelMapper D K P F E)
    (serial : K → List F → RowBody D K P F E (SortedMap K (List F))) : RowMap D K P F E :=
  fun c key values =>
    if m.select key then .ok (.empty, c) else ReadContext.runLambda env serial c key values

def mapBatch (env : MapEnv D K P F E) (e : MapEdge D K F) (m : ParallelMapper D K P F E)
    (st : Mapped D K P F) (batch : List K) : Except E (Mapped D K P F) :=
  (m.prepare env e.values st.context batch).bind fun x =>
    e.mapRows env (m.replay env x.1) { st with context := x.2 } batch

def forwardRows (env : MapEnv D K P F E) (e : MapEdge D K F) (m : ParallelMapper D K P F E)
    (st : Mapped D K P F) (keys : List K) : Except E (Mapped D K P F) :=
  match m.serial with
  | none => .ok st
  | some serial => e.mapRows env (forward env m serial) st keys

def parallelMapData (env : MapEnv D K P F E) (e : MapEdge D K F) (m : ParallelMapper D K P F E)
    (c : ReadContext D K P F) (keys : List K) : Except E (Mapped D K P F) :=
  (e.forwardRows env m ⟨[], [], c⟩ keys).bind fun st =>
    (batches (keys.filter m.select)).foldlM (e.mapBatch env m) st

def serialUpdate (env : MapEnv D K P F E) (e : MapEdge D K F)
    (f : K → List F → RowBody D K P F E (SortedMap K (List F))) (c : ReadContext D K P F)
    (keys : List K) : Except E (ReadContext D K P F) :=
  e.runRows env (ReadContext.runLambda env f) c keys

/-- One batch of an update. With no selected key in it nothing is prepared. -/
def updateBatch (env : MapEnv D K P F E) (e : MapEdge D K F) (m : ParallelMapper D K P F E)
    (c : ReadContext D K P F) (batch : List K) : Except E (ReadContext D K P F) :=
  if batch.any m.select then
    (m.prepare env e.values c batch).bind fun x => e.runRows env (m.replay env x.1) x.2 batch
  else
    (orBroken env m.serial).bind fun serial =>
      e.runRows env (ReadContext.runLambda env serial) c batch

def parallelUpdate (env : MapEnv D K P F E) (e : MapEdge D K F) (m : ParallelMapper D K P F E)
    (c : ReadContext D K P F) (keys : List K) : Except E (ReadContext D K P F) :=
  (batches keys).foldlM (e.updateBatch env m) c

end MapEdge
end SkipPlatform
