import Ppc2cpp.ControlFlow.Analysis
import Ppc2cpp.DataFlow.CallingConvention
import Ppc2cpp.DataFlow.FlowContext
import Ppc2cpp.DataFlow.InstructionUD

/-! Data-flow analysis of one function.

`functionDFA` visits the blocks from a worklist. A visit joins the contexts of the
predecessors, goes through the instructions of the block, allocating nodes for what
they read and define, and queues the successors in front if the size of some set of the
block's context changed. The order in which hash sets are enumerated is a parameter
(`HashOrder`); it only decides the order of the inputs of phi nodes. -/
namespace Ppc2cpp

namespace Subject
variable (S : Subject)

/-- The reference of the instruction at `pc`: its relocation, or one made up for a
branch out of the function. -/
def insnReloc (pc : Nat) : Except Error (Option Relocation) :=
  match S.loader.reloctab.lookupByInsnLoc (S.pcLocation pc) with
  | some reloc => .ok (some reloc)
  | none =>
    -- sometimes there are no relocs but REL_24 branches actually exist
    if isBranchUncoditional (S.insn pc) then do
      match ← S.loader.resolveTarget (S.pcLocation pc) (branchValue (S.insn pc))
        (isAbsolute (S.insn pc)) with
      | some branchLoc =>
        if S.func.contains branchLoc then return none
        return some ⟨S.pcLocation pc, branchLoc, relocREL24, 0⟩
      | none => return none
    else .ok none

/-- The opcode and the use-define information of the instruction at `pc`. -/
def decode (pc : Nat) : Except Error (Opcode × InstructionUD) := do
  let maybeReloc ← S.insnReloc pc
  let opcode ← value (S.disasm.lookupPowerpc (S.insn pc) .raw)
  let insnUD ← instructionUD S.disasm (S.insn pc) opcode .raw maybeReloc
  return (opcode, insnUD)

end Subject

namespace DataFlowAnalysis

/-! ### One instruction -/

/-- The nodes so far, and the context and the sinks of the block being processed. -/
structure BlockState where
  heap : Heap
  flowContext : FlowContext
  blockSinks : List NodeId
deriving DecidableEq

namespace BlockState
variable (st : BlockState)

/-- `make_shared`: the state after it, and the address. -/
def alloc (node : Node) : BlockState × NodeId := ({st with heap := st.heap ++ [node]}, st.heap.length)

def allocAll (nodes : List Node) : BlockState × List NodeId :=
  ({st with heap := st.heap ++ nodes}, List.range' st.heap.length nodes.length)

def pushSink (node : Node) : BlockState :=
  {st with heap := st.heap ++ [node], blockSinks := st.blockSinks ++ [st.heap.length]}

/-- A new node that is the only definition of a slot. -/
def define (slot : Slot) (node : Node) : BlockState :=
  {st with
    heap := st.heap ++ [node]
    flowContext := st.flowContext.setDefinition slot st.heap.length}

def kill (slot : Slot) : BlockState := {st with flowContext := st.flowContext.killDefinition slot}

theorem prefix_define (slot : Slot) (node : Node) : st.heap <+: (st.define slot node).heap :=
  List.prefix_append _ _

theorem kind?_define (slot : Slot) (node : Node) :
    (st.define slot node).heap.kind? st.heap.length = some node.kind := by
  simp [Heap.kind?, define]

theorem inputs_define (slot : Slot) (node : Node) :
    (st.define slot node).heap.inputs st.heap.length = node.inputs := by
  simp [Heap.inputs, define]

theorem definition_define (slot s : Slot) (node : Node) :
    (st.define slot node).flowContext.definition s =
      if slot = s then {st.heap.length} else st.flowContext.definition s :=
  st.flowContext.definition_setDefinition slot s st.heap.length

end BlockState

/-- The node that stands for the value of a register at `pc`. -/
def inputNode (H : HashOrder) (pc : Nat) (loc : CpuMemoryLocation) (st : BlockState) :
    Except Error (BlockState × NodeId) := do
  let slot ← slotOf loc
  match H.enumerate st.heap.length (st.flowContext.definition slot) with
  | [] => return st.alloc ⟨.functionInput pc loc, []⟩ -- register undefined, create new definition
  | [opVar] => return (st, opVar)
  | opVars => return st.alloc ⟨.phi pc loc, opVars⟩

def inputNodes (H : HashOrder) (pc : Nat) :
    List CpuMemoryLocation → BlockState → Except Error (BlockState × List NodeId)
  | [], st => .ok (st, [])
  | loc :: rest, st => do
    let (st, opVar) ← inputNode H pc loc st
    let (st, opVars) ← inputNodes H pc rest st
    return (st, opVar :: opVars)

/-- The loops over operands: each names a storage element, and the body is run with the
number of the operand. -/
def forSlots (body : Nat → CpuMemoryLocation → Slot → BlockState → BlockState) :
    Nat → List CpuMemoryLocation → BlockState → Except Error BlockState
  | _, [], st => .ok st
  | i, loc :: rest, st => do
    let slot ← slotOf loc
    forSlots body (i + 1) rest (body i loc slot st)

/-- The output operands of the instruction. -/
def defineOutputs (pc : Nat) (insnInputs : List NodeId) (outputs : List CpuMemoryLocation) :
    BlockState → Except Error BlockState :=
  forSlots (fun i loc slot st => st.define slot ⟨.result pc i loc, insnInputs⟩) 0 outputs

/-- Kill volatile registers (set to null). -/
def killVolatile : BlockState → Except Error BlockState :=
  forSlots (fun _ _ slot st => st.kill slot) 0 killedByCall

/-- Define the return values of a call. -/
def defineReturns (pc : Nat) (insnInputs : List NodeId) : BlockState → Except Error BlockState :=
  forSlots (fun _ loc slot st => st.define slot ⟨.callReturn pc loc, insnInputs⟩) 0 definedByCall

/-- `insnInputs`: references, immediates, and a node for each input register. -/
def insnInputs (H : HashOrder) (pc : Nat) (insnUD : InstructionUD) (st : BlockState) :
    Except Error (BlockState × List NodeId) := do
  let (st, refs) := st.allocAll (insnUD.refs.zipIdx.map fun (reloc, i) => ⟨.reference pc i reloc, []⟩)
  let (st, imms) := st.allocAll (insnUD.imms.zipIdx.map fun (imm, i) => ⟨.immediate pc i imm, []⟩)
  let (st, opVars) ← inputNodes H pc insnUD.inputs st
  return (st, refs ++ imms ++ opVars)

/-- The argument registers are looked at before the volatile registers are killed, and
nothing is done with them. -/
def processCall (pc : Nat) (insnInputs : List NodeId) (st : BlockState) :
    Except Error BlockState := do
  let st ← killVolatile st
  defineReturns pc insnInputs st

/-- One iteration of the loop over the instructions of a block. -/
def processInsn (S : Subject) (H : HashOrder) (endsInCall : Bool) (pc : Nat) (st : BlockState) :
    Except Error BlockState := do
  let (opcode, insnUD) ← S.decode pc
  let (st, insnInputs) ← insnInputs H pc insnUD st
  let st ← defineOutputs pc insnInputs insnUD.outputs st
  -- keep track of sinks
  if opcode.opcode ∈ storeInsn then return st.pushSink ⟨.sink pc, insnInputs⟩
  else if isBranch (S.insn pc) then
    let st := st.pushSink ⟨.sink pc, insnInputs⟩
    if endsInCall then processCall pc insnInputs st else return st
  else return st

/-! ### One block -/

/-- The instructions from `pc` on. -/
def processInsns (S : Subject) (H : HashOrder) (endsInCall : Bool) :
    (count pc : Nat) → BlockState → Except Error BlockState
  | 0, _, st => .ok st
  | count + 1, pc, st => do
    let st ← processInsn S H endsInCall pc st
    processInsns S H endsInCall count (pc + 1) st

/-- The return value in one register, if the register has a definition. -/
def returnSink (S : Subject) (H : HashOrder) (returnIdx : Nat) (loc : CpuMemoryLocation)
    (slot : Slot) (st : BlockState) : BlockState :=
  match H.enumerate st.heap.length (st.flowContext.definition slot) with
  | [] => st
  | [returnDef] => st.pushSink ⟨.ret returnIdx loc, [returnDef]⟩
  | returnDefs =>
    let (st, opVar) := st.alloc ⟨.phi S.length loc, returnDefs⟩
    st.pushSink ⟨.ret returnIdx loc, [opVar]⟩

/-- Exit block return value detection. -/
def returnSinks (S : Subject) (H : HashOrder) (returnIdx : Nat) :
    BlockState → Except Error BlockState :=
  forSlots (fun _ loc slot st => returnSink S H returnIdx loc slot st) 0 definedByCall

/-! ### The worklist -/

/-- The data-flow graph and the worklist. -/
structure State where
  heap : Heap
  /-- The output machine state for each basic block. -/
  blockContexts : List FlowContext
  /-- The sinks of each basic block, in order of appearance in the code. -/
  sinks : List (List NodeId)
  worklist : List Nat
deriving DecidableEq

def State.context (st : State) (blockIdx : Nat) : FlowContext := st.blockContexts.getD blockIdx {}

variable (S : Subject) (H : HashOrder) (g : ControlFlowGraph)

/-- A block's initial context is the union of the contexts of its predecessors. -/
def initBlockContext (st : State) (blockIdx : Nat) : FlowContext :=
  (g.pred blockIdx).foldl (fun c pred => c.contextUnion (st.context pred)) {}

/-- The visit of a block up to its sinks. -/
def processBlock (block : BasicBlock) (heap : Heap) (flowContext : FlowContext) :
    Except Error BlockState := do
  let st ← processInsns S H block.endsInCall (block.stop + 1 - block.start) block.start
    ⟨heap, flowContext, []⟩
  if block.isExit then returnSinks S H block.stop st else return st

/-- Internal successors that are not queued yet go to the front. -/
def queueSuccessors (successors worklist : List Nat) : List Nat :=
  successors.foldl (fun worklist successor =>
    if g.isInternal successor && successor ∉ worklist then successor :: worklist
    else worklist) worklist

/-- One call of `functionDFAImpl`, up to the recursive call. -/
def step (st : State) : Except Error State :=
  match st.worklist with
  | [] => .ok st
  | blockIdx :: worklist => do
    let block ← at? g.blocks blockIdx
    let prevSizes := (st.context blockIdx).getSizes
    let result ← processBlock S H block st.heap (initBlockContext g st blockIdx)
    return {
      heap := result.heap
      blockContexts := st.blockContexts.set blockIdx result.flowContext
      sinks := st.sinks.set blockIdx result.blockSinks
      -- if block DFA produced any changes, the block's successors need updating
      worklist :=
        if prevSizes ≠ result.flowContext.getSizes then
          queueSuccessors g (g.succ blockIdx) worklist
        else worklist }

def functionDFAImpl : (fuel : Nat) → State → Except Error State
  | fuel, st =>
    if st.worklist = [] then .ok st
    else match fuel with
      | 0 => .error .outOfFuel
      | fuel + 1 => do
        let st ← step S H g st
        functionDFAImpl fuel st

def initWorklistRecurse : (fuel blockIdx : Nat) → List Nat → Except Error (List Nat)
  | 0, _, _ => .error .outOfFuel
  | fuel + 1, blockIdx, worklist =>
    (g.succ blockIdx).foldlM (fun worklist successor =>
      if g.isInternal successor && successor ∉ worklist then
        initWorklistRecurse fuel successor worklist
      else return worklist) (worklist ++ [blockIdx])

/-- A block is entered at most once, so the recursion is not deeper than there are
blocks. -/
def initWorklist : Except Error (List Nat) := initWorklistRecurse g (g.blocks.length + 1) 0 []

/-- The state before the first block is visited. -/
def initialState (worklist : List Nat) : State where
  heap := []
  blockContexts := List.replicate g.blocks.length {}
  sinks := List.replicate g.blocks.length []
  worklist := worklist

/-- `functionDFA`, with fuel for the blocks visited. -/
def functionDFA (fuel : Nat) : Except Error State := do
  let worklist ← initWorklist g
  functionDFAImpl S H g fuel (initialState g worklist)

end DataFlowAnalysis

end Ppc2cpp
