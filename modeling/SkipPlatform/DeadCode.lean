import SkipPlatform.DominatorOrder
import SkipPlatform.MarkStack

set_option autoImplicit false

/-! The intermediate representation of a function, and the pass that deletes dead code from it.
`D` stands for the fields of instructions and constants that are no operands and no successors. -/
namespace SkipPlatform.DeadCode
open MarkStack Dominators

abbrev InstrID := ℕ
abbrev BlockID := Dominator.BlockID

inductive SimpleUnaryStmt
  | cast | floatBits | floatNeg | floatToInt | floatToString | intClz | intCtz | intToFloat
  | intern | intPopcount | reinterpret | stringHash | suspend | arrayClone | arraySize
  | truncate | zeroExtend | signExtend
deriving DecidableEq

inductive BinOp
  | intAdd | intAnd | intCmpEq | intCmpLe | intCmpLt | intCmpNe | intCmpUle | intCmpUlt | intDiv
  | intMul | intOr | intRem | intSll | intSra | intSrl | intSub | intXor
  | floatAdd | floatCmpEq | floatCmpLe | floatCmpLt | floatCmpNe | floatDiv | floatMul | floatSub
  | boolCmpEq | boolCmpNe | boolCmpLt | boolCmpLe
  | stringCmp | stringCmpEq
deriving DecidableEq

inductive Store
  | stackStore | obstackInit | obstackStore
deriving DecidableEq

inductive Terminator
  | asyncReturn
  | ifStmt (predicate : InstrID)
  | indirectJump (label : InstrID)
  | jump
  | landingPad
  | returnStmt (values : List InstrID)
  | throw (exception : InstrID)
  | typeSwitch (value : InstrID)
  | unreachable
  | yieldBreak
  | invokeFunction (args : List InstrID)
  | invokeMethod (args : List InstrID)
  | rawInvoke (code : InstrID) (args : List InstrID)
  | intSwitch (value : InstrID)
  | stringSwitch (value : InstrID) (cases : List InstrID)
deriving DecidableEq

/-- The block to which we are branching, and the parameters passed to it. -/
structure BlockSuccessor where
  target : BlockID
  args : List InstrID
deriving DecidableEq

inductive Kind
  | simpleUnary (op : SimpleUnaryStmt) (value : InstrID)
  | binOp (op : BinOp) (lhs rhs : InstrID)
  | alloca
  | arrayAlloc (size : InstrID)
  | arrayNew (args : List InstrID)
  | arrayUnsafeGet (obj index : InstrID)
  | arrayUnsafeSet (obj index value : InstrID)
  | bytePointerAdd (addr offset : InstrID)
  | callFunction (args : List InstrID)
  | callMethod (args : List InstrID)
  | freeze (value : InstrID)
  | getConst
  | getCurrentAwaitable
  | getField (obj : InstrID)
  | load (addr : InstrID)
  | loadVTableEntry (vtable : InstrID)
  | localGC
  | namedCall (args : List InstrID)
  | object (args : List InstrID)
  | obstackAlloc (byteSize : InstrID)
  | obstackNote
  | obstackShallowClone (byteSize value : InstrID)
  | obstackUsage
  | rawCall (code : InstrID) (args : List InstrID)
  | setField (obj value : InstrID)
  | store (op : Store) (addr value : InstrID)
  | stringConcat (args : List InstrID)
  | tupleExtract (obj : InstrID)
  | withStmt (obj : InstrID) (fieldAssignments : List InstrID)
  | yieldStmt (values : List InstrID)
  | terminator (t : Terminator) (successors : List BlockSuccessor)
deriving DecidableEq

structure Stmt (D : Type) where
  id : InstrID
  data : D
  kind : Kind
deriving DecidableEq

structure Constant (D : Type) where
  id : InstrID
  data : D
deriving DecidableEq

structure BlockParam where
  id : InstrID
  index : ℕ
deriving DecidableEq

structure Block (D : Type) where
  id : BlockID
  params : List BlockParam
  instrs : List (Stmt D)
deriving DecidableEq

structure Function (D : Type) where
  params : List InstrID
  constants : List (Constant D)
  blocks : List (Block D)
deriving DecidableEq

variable {D : Type}

def Kind.successors : Kind → List BlockSuccessor
  | .terminator _ successors => successors
  | _ => []

def Kind.isTerminator : Kind → Bool
  | .terminator .. => true
  | _ => false

def Terminator.visitNonBlockArgInputs : Terminator → List InstrID
  | .asyncReturn | .jump | .landingPad | .unreachable | .yieldBreak => []
  | .ifStmt predicate => [predicate]
  | .indirectJump label => [label]
  | .returnStmt values => values
  | .throw exception => [exception]
  | .typeSwitch value | .intSwitch value => [value]
  | .invokeFunction args | .invokeMethod args => args
  | .rawInvoke code args => code :: args
  | .stringSwitch value cases => value :: cases

def Kind.visitNonBlockArgInputs : Kind → List InstrID
  | .simpleUnary _ value | .freeze value => [value]
  | .binOp _ lhs rhs => [lhs, rhs]
  | .alloca | .getConst | .getCurrentAwaitable | .localGC | .obstackNote | .obstackUsage => []
  | .arrayAlloc size => [size]
  | .arrayNew args | .callFunction args | .callMethod args | .namedCall args | .object args
  | .stringConcat args => args
  | .arrayUnsafeGet obj index => [obj, index]
  | .arrayUnsafeSet obj index value => [obj, index, value]
  | .bytePointerAdd addr offset => [addr, offset]
  | .getField obj | .tupleExtract obj => [obj]
  | .load addr => [addr]
  | .loadVTableEntry vtable => [vtable]
  | .obstackAlloc byteSize => [byteSize]
  | .obstackShallowClone byteSize _ => [byteSize]
  | .rawCall code args => code :: args
  | .setField obj value => [obj, value]
  | .store _ addr value => [addr, value]
  | .withStmt obj fieldAssignments => obj :: fieldAssignments
  | .yieldStmt values => values
  | .terminator t _ => t.visitNonBlockArgInputs

/-- All operands, as `clone` renames them: the cloned object is one of them. -/
def Kind.operands : Kind → List InstrID
  | .obstackShallowClone byteSize value => [byteSize, value]
  | kind => kind.visitNonBlockArgInputs

def alwaysLive : Kind → Bool
  | .callFunction _ | .callMethod _ | .localGC | .namedCall _ | .rawCall .. | .setField .. | .store ..
  | .simpleUnary .suspend _ | .terminator .. | .arrayUnsafeSet .. | .yieldStmt _ => true
  | _ => false

def Block.successors (b : Block D) : List BlockSuccessor :=
  match b.instrs.getLast? with
  | some s => s.kind.successors
  | none => []

def Function.getBlock (f : Function D) (id : BlockID) : Option (Block D) :=
  f.blocks.find? fun b => b.id = id

def Function.graph (f : Function D) : Dominator.Function :=
  ⟨f.blocks.map fun b => ⟨b.id, b.successors.map BlockSuccessor.target⟩⟩

inductive Instr (D : Type)
  | funParam (id : InstrID)
  | constant (c : Constant D)
  | blockParam (b : BlockID) (p : BlockParam)
  | stmt (s : Stmt D)

def Instr.id : Instr D → InstrID
  | .funParam id => id
  | .constant c => c.id
  | .blockParam _ p => p.id
  | .stmt s => s.id

def Block.allInstrs (b : Block D) : List (Instr D) :=
  b.params.map (.blockParam b.id) ++ b.instrs.map .stmt

/-- All instructions, in the order of `forEachInstr`. -/
def Function.allInstrs (f : Function D) : List (Instr D) :=
  f.params.map .funParam ++ f.constants.map .constant ++ f.blocks.flatMap Block.allInstrs

def Function.getInstr (f : Function D) (id : InstrID) : Option (Instr D) :=
  f.allInstrs.find? fun i => i.id = id

/-- The inputs of a block parameter are the arguments that are passed for it. -/
def Function.visitNonBlockArgInputs (f : Function D) (predecessors : BlockID → List BlockID) :
    Instr D → Option (List InstrID)
  | .funParam _ | .constant _ => some []
  | .stmt s => some s.kind.visitNonBlockArgInputs
  | .blockParam b x => do
      let args ← (predecessors b).mapM fun p => do
        let block ← f.getBlock p
        (block.successors.filter fun s => s.target = b).mapM fun s => s.args[x.index]?
      some args.flatten

def Function.next (f : Function D) (predecessors : BlockID → List BlockID) (id : InstrID) :
    Option (List InstrID) := do
  let i ← f.getInstr id
  f.visitNonBlockArgInputs predecessors i

def Function.markLive (f : Function D) (predecessors : BlockID → List BlockID)
    (blocks : List (Block D)) : Option (InstrID → Bool) :=
  markRoots (f.next predecessors) (f.allInstrs.length + 1)
    (blocks.flatMap fun b => (b.instrs.filter fun s => alwaysLive s.kind).map Stmt.id)
    fun _ => false

def liveArgs (isLive : InstrID → Bool) : List BlockParam → List InstrID → Option (List InstrID)
  | _, [] => some []
  | [], _ :: _ => none
  | param :: params, arg :: args => do
      let rest ← liveArgs isLive params args
      some (if isLive param.id then arg :: rest else rest)

def Function.origBlockParams (f : Function D) (id : BlockID) : List BlockParam :=
  match f.getBlock id with
  | some b => b.params
  | none => []

def Function.optimizeSuccessor (f : Function D) (isLive : InstrID → Bool) (s : BlockSuccessor) :
    Option (BlockSuccessor × Bool) := do
  let live ← liveArgs isLive (f.origBlockParams s.target) s.args
  some (if live.length = s.args.length then (s, false) else ({ s with args := live }, true))

/-- The statements that are emitted for one, and whether that is a change. -/
def Function.optimizeInstr (f : Function D) (isLive : InstrID → Bool) (s : Stmt D) :
    Option (List (Stmt D) × Bool) :=
  if isLive s.id then
    match s.kind with
    | .terminator t successors => do
        let newSuccessors ← successors.mapM (f.optimizeSuccessor isLive)
        some (if newSuccessors.any Prod.snd then
          ([{ s with kind := .terminator t (newSuccessors.map Prod.fst) }], true) else ([s], false))
    | _ => some ([s], false)
  else some ([], true)

def beginOptimizeBlock (isLive : InstrID → Bool) (b : Block D) : List BlockParam × Bool :=
  let live := b.params.filter fun p => isLive p.id
  if live.length = b.params.length then (b.params, false)
  else (live.mapIdx fun out p => if p.index = out then p else { p with index := out }, true)

def Function.optimizeBlock (f : Function D) (isLive : InstrID → Bool) (b : Block D) :
    Option (List (Block D) × Bool) := do
  let (params, paramsChanged) := beginOptimizeBlock isLive b
  let emitted ← b.instrs.mapM (f.optimizeInstr isLive)
  let instrs := emitted.flatMap Prod.fst
  let changed := paramsChanged || emitted.any Prod.snd
  some (if instrs.isEmpty then [] else if changed then [⟨b.id, params, instrs⟩] else [b], changed)

def Function.run (f : Function D) : Option (Function D × Bool) := do
  let inputBlocks ← f.graph.reversePostorder f.graph.searchFuel
  let predecessors ← f.graph.computePredecessors inputBlocks
  let blocks ← inputBlocks.mapM f.getBlock
  let isLive ← f.markLive predecessors blocks
  let constants := f.constants.filter fun c => isLive c.id
  let constantsChanged := decide (constants.length ≠ f.constants.length)
  let emitted ← blocks.mapM (f.optimizeBlock isLive)
  let anyBlockChanged :=
    decide (inputBlocks.length ≠ f.blocks.length) || emitted.any Prod.snd
  some (if anyBlockChanged || constantsChanged then
    ({ f with
      constants := if constantsChanged then constants else f.constants
      blocks := if anyBlockChanged then emitted.flatMap Prod.fst else f.blocks }, true)
  else (f, false))

/-- What instructions do. A statement without side effects has a value; one with side effects ends
the run or has a value and a new state; a terminator ends the run or has the number of the successor
to go to, a value and a new state. -/
structure Machine (D Val State Result : Type) where
  undefined : Val
  constant : D → Val
  value : Stmt D → List Val → State → Val
  effect : Stmt D → List Val → State → Result ⊕ (Val × State)
  leave : InstrID → D → Terminator → List Val → State → Result ⊕ (ℕ × Val × State)

/-- Where a run is: it has ended, it is about to enter a block, or it went to what is not there. -/
inductive Status (Val State Result : Type)
  | ended (r : Result)
  | enters (b : BlockID) (args : List Val) (env : InstrID → Val) (state : State)
  | stuck

section exec
variable {Val State Result : Type}

def Status.andThen {A : Type} (out : Result ⊕ A) (next : A → Status Val State Result) :
    Status Val State Result :=
  match out with
  | .inl r => .ended r
  | .inr a => next a

def Machine.runInstrs (m : Machine D Val State Result) :
    List (Stmt D) → (InstrID → Val) → State → Status Val State Result
  | [], _, _ => .stuck
  | s :: rest, env, state =>
    match s.kind with
    | .terminator t successors =>
      Status.andThen (m.leave s.id s.data t (t.visitNonBlockArgInputs.map env) state) fun out =>
          match successors[out.1]? with
          | some successor =>
            let env := Function.update env s.id out.2.1
            .enters successor.target (successor.args.map env) env out.2.2
          | none => .stuck
    | kind =>
      if alwaysLive kind then
        Status.andThen (m.effect s (kind.operands.map env) state) fun out =>
          m.runInstrs rest (Function.update env s.id out.1) out.2
      else
        m.runInstrs rest
          (Function.update env s.id (m.value s (kind.operands.map env) state)) state

def bindParams (env : InstrID → Val) (params : List BlockParam) (args : List Val) :
    InstrID → Val := (params.zip args).foldl (fun env pv => Function.update env pv.1.id pv.2) env

def Machine.step (m : Machine D Val State Result) (f : Function D) :
    Status Val State Result → Status Val State Result
  | .enters id args env state =>
    match f.getBlock id with
    | some b => m.runInstrs b.instrs (bindParams env b.params args) state
    | none => .stuck
  | status => status

/-- What is defined when a function is entered: its parameters and its constants. -/
def Machine.enter (m : Machine D Val State Result) (f : Function D) (args : List Val) :
    InstrID → Val := fun id =>
  match f.constants.find? fun c => c.id = id with
  | some c => m.constant c.data
  | none =>
    match (f.params.zip args).find? fun pv => pv.1 = id with
    | some pv => pv.2
    | none => m.undefined

def Machine.after (m : Machine D Val State Result) (f : Function D) (args : List Val)
    (state : State) (blocks : ℕ) : Status Val State Result :=
  match f.blocks.head? with
  | some entry => (m.step f)^[blocks] (.enters entry.id [] (m.enter f args) state)
  | none => .stuck

/-- What can be seen of a run: its result, or its block and its state. -/
def Status.seen : Status Val State Result → Result ⊕ Option (BlockID × State)
  | .ended r => .inl r
  | .enters b _ _ state => .inr (some (b, state))
  | .stuck => .inr none

end exec

end SkipPlatform.DeadCode
