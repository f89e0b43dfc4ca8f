import Ppc2cpp.DataFlow.Disassembler
import Ppc2cpp.Model.CpuMemory
import Ppc2cpp.Model.Symbol
import Ppc2cpp.ProgramLoader.Binary

/-! Use-define information of one instruction.

One rule stands for the whole supported set: of the register operands of a
non-store the first is the output and the rest are inputs, a store has inputs only,
and the base register of an update form is an output as well. Branches have their
own rule, driven by `BO`. -/
namespace Ppc2cpp

structure InstructionUD where
  inputs : List CpuMemoryLocation := []
  outputs : List CpuMemoryLocation := []
  /-- Also inputs basically. -/
  imms : List Int := []
  /-- Also inputs basically. -/
  refs : List Relocation := []
deriving DecidableEq, Repr

/-! ### Operand categories -/

def isImmediate (operandFlags : List OperandFlag) (operandValue : Int) : Bool :=
  if OperandFlag.GPR_0 ∈ operandFlags ∧ operandValue = 0 then true
  else operandFlags.all fun flag =>
    flag ∈ [OperandFlag.SIGNED, .ABSOLUTE, .PARENS, .RELATIVE, .PLUS1, .NEGATIVE, .SIGNOPT,
      .OPTIONAL, .NEXT]

def isIgnore (operandFlags : List OperandFlag) : Bool := OperandFlag.OPTIONAL32 ∈ operandFlags

def isOperandRegister (flags : List OperandFlag) (val : Int) : Bool :=
  OperandFlag.GPR ∈ flags || (OperandFlag.GPR_0 ∈ flags && val != 0) ||
    OperandFlag.FPR ∈ flags || OperandFlag.GQR ∈ flags || OperandFlag.CR_BIT ∈ flags ||
    OperandFlag.SPR ∈ flags || OperandFlag.CR_REG ∈ flags

/-- The four bits of a CR field. -/
def appendCRRegister (ops : List CpuMemoryLocation) (reg : Int) : List CpuMemoryLocation :=
  ops ++ [⟨.CR_BIT, 4 * reg⟩, ⟨.CR_BIT, 4 * reg + 1⟩, ⟨.CR_BIT, 4 * reg + 2⟩,
    ⟨.CR_BIT, 4 * reg + 3⟩]

def appendOperands (ops : List CpuMemoryLocation) (flags : List OperandFlag) (val : Int) :
    Except Error (List CpuMemoryLocation) :=
  if OperandFlag.GPR ∈ flags ∨ (OperandFlag.GPR_0 ∈ flags ∧ val ≠ 0) then
    .ok (ops ++ [⟨.GPR, val⟩])
  else if OperandFlag.FPR ∈ flags then .ok (ops ++ [⟨.FPR, val⟩])
  else if OperandFlag.GQR ∈ flags then .ok (ops ++ [⟨.GQR, val⟩])
  else if OperandFlag.CR_BIT ∈ flags then .ok (ops ++ [⟨.CR_BIT, val⟩])
  else if OperandFlag.SPR ∈ flags then .ok (ops ++ [⟨.SPR, val⟩])
  else if OperandFlag.CR_REG ∈ flags then .ok (appendCRRegister ops val)
  else .error (.runtimeError "Cannot determine use-define info for unsupported operand")

/-! ### Branches -/

def ctrLocation : CpuMemoryLocation := ⟨.SPR, sprValueCTR⟩
def lrLocation : CpuMemoryLocation := ⟨.SPR, sprValueLR⟩

/-- What the `BO` field makes a conditional branch read and write. -/
def handleBO (insnUD : InstructionUD) (bo : BitVec 64) (bi : Int) : Except Error InstructionUD :=
  let crBit : CpuMemoryLocation := ⟨.CR_BIT, bi⟩
  let ctrAndBit : InstructionUD :=
    {insnUD with
      inputs := insnUD.inputs ++ [ctrLocation, crBit], outputs := insnUD.outputs ++ [ctrLocation]}
  let bitOnly : InstructionUD := {insnUD with inputs := insnUD.inputs ++ [crBit]}
  let ctrOnly : InstructionUD :=
    {insnUD with
      inputs := insnUD.inputs ++ [ctrLocation], outputs := insnUD.outputs ++ [ctrLocation]}
  if (bo >>> 1) &&& 0xf = 0 then .ok ctrAndBit
  else if (bo >>> 1) &&& 0xf = 1 then .ok ctrAndBit
  else if (bo >>> 2) &&& 0x7 = 1 then .ok bitOnly
  else if (bo >>> 1) &&& 0xf = 4 then .ok ctrAndBit
  else if (bo >>> 1) &&& 0xf = 5 then .ok ctrAndBit
  else if (bo >>> 2) &&& 0x7 = 3 then .ok bitOnly
  else if (bo >>> 1) &&& 0xb = 8 then .ok ctrOnly
  else if (bo >>> 1) &&& 0xb = 9 then .ok ctrOnly
  else if (bo >>> 2) &&& 0x7 = 5 then .ok insnUD -- branch always
  else .error (.runtimeError
    ("Could not decode conditional branch BO field " ++ toString bo.toInt))

/-- The reference of a branch to an address, or its displacement and absolute bit. -/
def branchTargetUD (insnUD : InstructionUD) (insn : Word) (displacement : Int)
    (maybeReloc : Option Relocation) : InstructionUD :=
  match maybeReloc with
  | some reloc => {insnUD with refs := insnUD.refs ++ [reloc]}
  | none => {insnUD with
      imms := insnUD.imms ++ [displacement, if isAbsolute insn then 1 else 0]}

def handleBranchUD (D : Ppcdisasm) (insn : Word) (dialect : Dialect)
    (maybeReloc : Option Relocation) : Except Error InstructionUD := do
  let insnUD ←
    if isBranchUncoditional insn then
      pure (branchTargetUD {} insn (D.operandValuePowerpc .LI insn dialect) maybeReloc)
    else do
      -- BO field dictates use-define
      let bo := D.operandValuePowerpc .BO insn dialect
      let bi := D.operandValuePowerpc .BI insn dialect
      let insnUD ← handleBO {imms := [bo]} (BitVec.ofInt 64 bo) bi
      if isBranchConditional insn then
        pure (branchTargetUD insnUD insn (D.operandValuePowerpc .BD insn dialect) maybeReloc)
      else if isBranchToLR insn then
        pure {insnUD with inputs := insnUD.inputs ++ [lrLocation]}
      else if isBranchToCTR insn then
        pure {insnUD with inputs := insnUD.inputs ++ [ctrLocation]}
      else pure insnUD
  if isLink insn then
    return {insnUD with outputs := insnUD.outputs ++ [lrLocation]}
  return insnUD

/-! ### All instructions -/

/-- The loop over the operands, with the number of register operands seen so far. -/
def operandsUD (D : Ppcdisasm) (insn : Word) (opcode : Opcode) (dialect : Dialect)
    (maybeReloc : Option Relocation) :
    List OperandIdx → Nat → InstructionUD → Except Error InstructionUD
  | [], _, insnUD => .ok insnUD
  | idx :: rest, registerInputCount, insnUD => do
    let flags := D.powerpcOperands idx
    let val := D.operandValuePowerpc idx insn dialect
    if isOperandRegister flags val then
      let insnUD ←
        if opcode.opcode ∈ nonStoreInsn ∧ registerInputCount = 0 then do
          let outputs ← appendOperands insnUD.outputs flags val
          pure {insnUD with outputs := outputs}
        else do
          let inputs ← appendOperands insnUD.inputs flags val
          pure {insnUD with inputs := inputs}
      let insnUD :=
        if idx = .RAL ∨ idx = .RAS then
          {insnUD with outputs := insnUD.outputs ++ [⟨.GPR, val⟩]}
        else insnUD
      operandsUD D insn opcode dialect maybeReloc rest (registerInputCount + 1) insnUD
    else if isImmediate flags val then
      let insnUD :=
        match maybeReloc with
        | some reloc =>
          if opcode.opcode ∈ canHaveRelocInsn then {insnUD with refs := insnUD.refs ++ [reloc]}
          else {insnUD with imms := insnUD.imms ++ [val]}
        | none => {insnUD with imms := insnUD.imms ++ [val]}
      operandsUD D insn opcode dialect maybeReloc rest registerInputCount insnUD
    else if isIgnore flags then
      operandsUD D insn opcode dialect maybeReloc rest registerInputCount insnUD
    else .error (.runtimeError ("unsupported operand, instruction " ++ opcode.name ++
      " operand index " ++ toString (D.operandNumber idx)))

def instructionUD (D : Ppcdisasm) (insn : Word) (opcode : Opcode) (dialect : Dialect)
    (maybeReloc : Option Relocation) : Except Error InstructionUD := do
  if opcode.opcode ∉ supportedInsn then
    throw (.runtimeError ("Unsupported instruction " ++ opcode.name))
  if isBranch insn then
    return ← handleBranchUD D insn dialect maybeReloc
  let insnUD ← operandsUD D insn opcode dialect maybeReloc opcode.operands 0 {}
  -- implicit output operands
  let insnUD :=
    if opcode.opcode ∈ setsCR0 then {insnUD with outputs := appendCRRegister insnUD.outputs 0}
    else insnUD
  let insnUD :=
    if opcode.opcode ∈ setsCR1 then {insnUD with outputs := appendCRRegister insnUD.outputs 1}
    else insnUD
  return insnUD

end Ppc2cpp
