import Ppc2cpp.ControlFlow.Graph
import Ppc2cpp.DataFlow.Disassembler
import Ppc2cpp.ProgramLoader.ProgramLoader

/-! Control-flow analysis of one function.

`functionCFA` scans a block from its start to the first branch, or to the
instruction before a block that exists already, and recurses into the blocks it
creates on the way, the branch target before the instruction after the branch. The
recursion is on fuel here; `functionCFA_total` (`ControlFlow/Soundness.lean`) shows
that the fuel given is enough. -/
namespace Ppc2cpp

/-- A function that can be analysed: a symbol of a loaded program and the bytes its
location points at (`funcPtr`). -/
structure Subject where
  disasm : Ppcdisasm
  loader : ProgramLoader
  func : Symbol
  buffer : Buffer
  located : loader.getBufferAtLocation func.location = .ok (some buffer)

namespace Subject
variable (S : Subject)

/-- `func.length()`. -/
def length : Nat := S.func.length

/-- `be32(*(funcPtr + pc))`. -/
def insn (pc : Nat) : Word :=
  let byte := fun i => S.buffer.getD (4 * pc + i) 0
  byte 0 ++ byte 1 ++ byte 2 ++ byte 3

/-- `func.location + 4*pc`. -/
def pcLocation (pc : Nat) : ProgramLocation := S.func.location.add (4 * pc)

/-- The displacement operand of a branch to an address, as `int32_t`. -/
def branchVal (insn : Word) : Int :=
  let operand := if isBranchUncoditional insn then OperandIdx.LI else OperandIdx.BD
  (BitVec.ofInt 32 (S.disasm.operandValuePowerpc operand insn .ppc750cl)).toInt

/-- Where the branch at `pc` goes. -/
def branchTarget (pc : Nat) : Except Error (Option ProgramLocation) :=
  S.loader.resolveTarget (S.pcLocation pc) (S.branchVal (S.insn pc)) (isAbsolute (S.insn pc))

/-- The instruction index of a location of the function. -/
def position (loc : ProgramLocation) : Nat :=
  (loc.sectionOffset - S.func.location.sectionOffset).toNat / 4

end Subject

namespace ControlFlowAnalysis
variable (S : Subject)

/-- Continue in the block `tryCreateSuccessorInternal` created, if it created one. -/
def linkInternal (recurse : Nat → ControlFlowGraph → Except Error ControlFlowGraph)
    (blockIdx pc targetPosition : Nat) (g : ControlFlowGraph) : Except Error ControlFlowGraph :=
  match g.tryCreateSuccessorInternal blockIdx pc targetPosition with
  | (g, some newBlock) => recurse newBlock g
  | (g, none) => .ok g

def handleBranch (recurse : Nat → ControlFlowGraph → Except Error ControlFlowGraph)
    (blockIdx pc : Nat) (g : ControlFlowGraph) : Except Error ControlFlowGraph := do
  let targetLocation ← value (← S.branchTarget pc)
  if S.func.contains targetLocation then
    linkInternal recurse blockIdx pc (S.position targetLocation) g
  else return g.createSuccessorExternal blockIdx pc

/-- The successor after a branch that can come back or not be taken. -/
def linkNext (recurse : Nat → ControlFlowGraph → Except Error ControlFlowGraph)
    (blockIdx pc : Nat) (g : ControlFlowGraph) : Except Error ControlFlowGraph := do
  if ¬ pc + 1 < S.length then
    throw (.assertFailed "Branch with link cannot be the last instruction of a function (need to blr at the end)")
  linkInternal recurse blockIdx pc (pc + 1) g

def markCall (b : BasicBlock) : BasicBlock := {b with endsInCall := true}

def markExit (b : BasicBlock) : BasicBlock := {b with isExit := true}

def markTailCall (b : BasicBlock) : BasicBlock :=
  {b with endsInCall := true, endsInTailCall := true, isExit := true}

/-- A `b` at `pc`. -/
def endUnconditional (recurse : Nat → ControlFlowGraph → Except Error ControlFlowGraph)
    (blockIdx pc : Nat) (g : ControlFlowGraph) : Except Error ControlFlowGraph := do
  let g ← handleBranch S recurse blockIdx pc g
  if isLink (S.insn pc) then -- control flow returns back after function call
    let g ← linkNext S recurse blockIdx pc g
    return g.setFlags blockIdx markCall
  else if pc + 1 = S.length ∧ g.hasExternalSuccessor blockIdx then -- tail call
    return g.setFlags blockIdx markTailCall
  else return g

/-- A `bc` at `pc`. -/
def endConditional (recurse : Nat → ControlFlowGraph → Except Error ControlFlowGraph)
    (blockIdx pc : Nat) (g : ControlFlowGraph) : Except Error ControlFlowGraph := do
  let insn := S.insn pc
  let g ← handleBranch S recurse blockIdx pc g
  if isLink insn || !isBranchConditionUnconditional insn then
    let g ← linkNext S recurse blockIdx pc g
    return if isLink insn then g.setFlags blockIdx markCall else g
  else if pc + 1 = S.length ∧ g.hasExternalSuccessor blockIdx then -- cursed tail call
    return g.setFlags blockIdx markTailCall
  else return g

/-- A `bclr` or `bcctr` at `pc`. -/
def endRegister (recurse : Nat → ControlFlowGraph → Except Error ControlFlowGraph)
    (blockIdx pc : Nat) (g : ControlFlowGraph) : Except Error ControlFlowGraph := do
  let insn := S.insn pc
  let g := g.createSuccessorRuntime blockIdx pc
  if isLink insn || !isBranchConditionUnconditional insn then
    let g ← linkNext S recurse blockIdx pc g
    return if isLink insn then g.setFlags blockIdx markCall else g
  else if isBranchToLR insn then -- return
    return g.setFlags blockIdx markExit
  else if pc + 1 = S.length ∧ g.hasExternalSuccessor blockIdx then -- curseder tail call
    return g.setFlags blockIdx markTailCall
  else return g

/-- The loop over `pc`, with `func.length() - pc` iterations to go. -/
def blockLoop (recurse : Nat → ControlFlowGraph → Except Error ControlFlowGraph) (blockIdx : Nat) :
    (remaining pc : Nat) → ControlFlowGraph → Except Error ControlFlowGraph
  | 0, _, g => .ok g
  | remaining + 1, pc, g =>
    if isBranchUncoditional (S.insn pc) then endUnconditional S recurse blockIdx pc g
    else if isBranchConditional (S.insn pc) then endConditional S recurse blockIdx pc g
    else if isBranchToLR (S.insn pc) || isBranchToCTR (S.insn pc) then
      endRegister S recurse blockIdx pc g
    else
      -- an instruction that starts an existing internal block ends this one before it
      match g.findInternalBlockByPosition (pc + 1) with
      | some following =>
        if pc + 1 < S.length then .ok (g.createSuccessorFallthrough blockIdx pc following)
        else blockLoop recurse blockIdx remaining (pc + 1) g
      | none => blockLoop recurse blockIdx remaining (pc + 1) g

/-- `functionCFA(func, blockIdx)`. -/
def functionCFABlock : (fuel blockIdx : Nat) → ControlFlowGraph → Except Error ControlFlowGraph
  | 0, _, _ => .error .outOfFuel
  | fuel + 1, blockIdx, g => do
    let start := (← at? g.blocks blockIdx).start
    blockLoop S (functionCFABlock fuel) blockIdx (S.length - start) start g

/-- `functionCFA(func)`. A block is created at most once for each instruction, so the
recursion is never deeper than the function is long. -/
def functionCFA : Except Error ControlFlowGraph :=
  functionCFABlock S (S.length + 1) 0 ControlFlowGraph.init

end ControlFlowAnalysis

end Ppc2cpp
