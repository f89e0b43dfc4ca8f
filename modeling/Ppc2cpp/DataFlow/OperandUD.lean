import Ppc2cpp.DataFlow.InstructionUD

/-! What one operand adds to the use-define information.

The loop over the operands of an instruction appends to the lists it has so far. What an
operand appends depends on the operand and on whether a register came before it
(`operandUD`), so that facts about an instruction are facts about its operands. -/
namespace Ppc2cpp

namespace InstructionUD

def append (a b : InstructionUD) : InstructionUD where
  inputs := a.inputs ++ b.inputs
  outputs := a.outputs ++ b.outputs
  imms := a.imms ++ b.imms
  refs := a.refs ++ b.refs

@[simp] theorem append_empty (a : InstructionUD) : a.append {} = a := by
  simp [append]

end InstructionUD

theorem appendOperands_append (ops : List CpuMemoryLocation) (flags : List OperandFlag) (val : Int) :
    appendOperands ops flags val = (appendOperands [] flags val).map (ops ++ ·) := by
  unfold appendOperands
  split_ifs <;> simp [Except.map, appendCRRegister]

section
variable (D : Ppcdisasm) (insn : Word) (opcode : Opcode) (dialect : Dialect)
  (maybeReloc : Option Relocation)

/-- What an operand adds; `first` if no register operand came before it. -/
def operandUD (idx : OperandIdx) (first : Bool) : Except Error InstructionUD :=
  let flags := D.powerpcOperands idx
  let val := D.operandValuePowerpc idx insn dialect
  if isOperandRegister flags val then
    (appendOperands [] flags val).map fun regs =>
      let update := if idx = .RAL ∨ idx = .RAS then [⟨.GPR, val⟩] else []
      if opcode.opcode ∈ nonStoreInsn ∧ first = true then {outputs := regs ++ update}
      else {inputs := regs, outputs := update}
  else if isImmediate flags val then
    match maybeReloc with
    | some reloc =>
      if opcode.opcode ∈ canHaveRelocInsn then .ok {refs := [reloc]} else .ok {imms := [val]}
    | none => .ok {imms := [val]}
  else if isIgnore flags then .ok {}
  else .error (.runtimeError ("unsupported operand, instruction " ++ opcode.name ++
      " operand index " ++ toString (D.operandNumber idx)))

/-- The number of register operands after an operand. -/
def registersAfter (idx : OperandIdx) (n : Nat) : Nat :=
  if isOperandRegister (D.powerpcOperands idx) (D.operandValuePowerpc idx insn dialect) then n + 1
  else n

variable {D insn opcode dialect maybeReloc}

/-- **One iteration of the loop over the operands.** -/
theorem operandsUD_cons (idx : OperandIdx) (rest : List OperandIdx) (n : Nat)
    (insnUD : InstructionUD) :
    operandsUD D insn opcode dialect maybeReloc (idx :: rest) n insnUD =
      operandUD D insn opcode dialect maybeReloc idx (n == 0) >>= fun added =>
        operandsUD D insn opcode dialect maybeReloc rest (registersAfter D insn dialect idx n)
          (insnUD.append added) := by
  rw [operandsUD.eq_def]
  dsimp only
  unfold operandUD registersAfter
  by_cases hreg : isOperandRegister (D.powerpcOperands idx)
      (D.operandValuePowerpc idx insn dialect) = true
  · simp only [hreg, if_true]
    by_cases hout : opcode.opcode ∈ nonStoreInsn ∧ n = 0
    · have hfirst : opcode.opcode ∈ nonStoreInsn ∧ (n == 0) = true := ⟨hout.1, by simp [hout.2]⟩
      rw [if_pos hout, appendOperands_append]
      cases appendOperands [] (D.powerpcOperands idx) (D.operandValuePowerpc idx insn dialect) with
      | error => rfl
      | ok regs =>
        simp only [Except.map, bind, Except.bind, pure, Except.pure, if_pos hfirst,
          InstructionUD.append]
        by_cases hupdate : idx = .RAL ∨ idx = .RAS
        · simp [hupdate]
        · simp [hupdate]
    · have hfirst : ¬ (opcode.opcode ∈ nonStoreInsn ∧ (n == 0) = true) := by simpa using hout
      rw [if_neg hout, appendOperands_append]
      cases appendOperands [] (D.powerpcOperands idx) (D.operandValuePowerpc idx insn dialect) with
      | error => rfl
      | ok regs =>
        simp only [Except.map, bind, Except.bind, pure, Except.pure, if_neg hfirst,
          InstructionUD.append]
        by_cases hupdate : idx = .RAL ∨ idx = .RAS
        · simp [hupdate]
        · simp [hupdate]
  · simp only [hreg]
    by_cases himm : isImmediate (D.powerpcOperands idx) (D.operandValuePowerpc idx insn dialect) = true
    · simp only [himm, if_true]
      cases maybeReloc with
      | none => simp [bind, Except.bind, InstructionUD.append]
      | some reloc =>
        by_cases hcan : opcode.opcode ∈ canHaveRelocInsn
        · simp [hcan, bind, Except.bind, InstructionUD.append]
        · simp [hcan, bind, Except.bind, InstructionUD.append]
    · simp only [himm]
      by_cases hignore : isIgnore (D.powerpcOperands idx) = true
      · simp [hignore, bind, Except.bind]
      · simp [hignore, bind, Except.bind]

/-- Without a relocation no operand is a reference. -/
theorem operandUD_refs {idx : OperandIdx} {first : Bool} {insnUD : InstructionUD}
    (h : operandUD D insn opcode dialect none idx first = .ok insnUD) : insnUD.refs = [] := by
  unfold operandUD at h
  dsimp only at h
  split at h
  · cases hregs : appendOperands [] (D.powerpcOperands idx)
        (D.operandValuePowerpc idx insn dialect) with
    | error => rw [hregs] at h; cases h
    | ok regs =>
      rw [hregs] at h
      cases h
      split <;> rfl
  · split_ifs at h <;> cases h <;> rfl

theorem operandsUD_refs {operands : List OperandIdx} {n : Nat} {insnUD insnUD' : InstructionUD}
    (h : operandsUD D insn opcode dialect none operands n insnUD = .ok insnUD') :
    insnUD'.refs = insnUD.refs := by
  induction operands generalizing n insnUD with
  | nil =>
    rw [operandsUD] at h
    cases h
    rfl
  | cons idx rest ih =>
    rw [operandsUD_cons, bind_eq_ok] at h
    obtain ⟨added, hadded, h⟩ := h
    rw [ih h, InstructionUD.append, operandUD_refs hadded, List.append_nil]

end

/-- The implicit outputs of an instruction. -/
def implicitOutputs (form : Form) : List CpuMemoryLocation :=
  (if form ∈ setsCR0 then appendCRRegister [] 0 else []) ++
    (if form ∈ setsCR1 then appendCRRegister [] 1 else [])

/-- **The use-define information of an instruction that is not a branch.** -/
theorem instructionUD_plain {D : Ppcdisasm} {insn : Word} {opcode : Opcode} {dialect : Dialect}
    {maybeReloc : Option Relocation} (hplain : isBranch insn = false)
    (hsupported : opcode.opcode ∈ supportedInsn) :
    instructionUD D insn opcode dialect maybeReloc =
      (operandsUD D insn opcode dialect maybeReloc opcode.operands 0 {}).map fun insnUD =>
        insnUD.append {outputs := implicitOutputs opcode.opcode} := by
  have hnot : ¬ opcode.opcode ∉ supportedInsn := not_not_intro hsupported
  rw [instructionUD]
  simp only [if_neg hnot, hplain, Bool.false_eq_true, if_false]
  cases operandsUD D insn opcode dialect maybeReloc opcode.operands 0 {} with
  | error => rfl
  | ok insnUD =>
    simp only [bind, Except.bind, pure, Except.pure, Except.map, implicitOutputs]
    by_cases h0 : opcode.opcode ∈ setsCR0
    · by_cases h1 : opcode.opcode ∈ setsCR1
      · simp [h0, h1, appendCRRegister, InstructionUD.append]
      · simp [h0, h1, appendCRRegister, InstructionUD.append]
    · by_cases h1 : opcode.opcode ∈ setsCR1
      · simp [h0, h1, appendCRRegister, InstructionUD.append]
      · simp [h0, h1, InstructionUD.append]

theorem instructionUD_supported {D : Ppcdisasm} {insn : Word} {opcode : Opcode} {dialect : Dialect}
    {maybeReloc : Option Relocation} {insnUD : InstructionUD}
    (h : instructionUD D insn opcode dialect maybeReloc = .ok insnUD) :
    opcode.opcode ∈ supportedInsn := by
  by_contra hnot
  rw [instructionUD] at h
  simp only [if_pos hnot] at h
  cases h

/-- What a branch has for its condition: no reference, and no output but the count
register. -/
structure ConditionUD (insnUD : InstructionUD) : Prop where
  refs : insnUD.refs = []
  outputs : ∀ loc ∈ insnUD.outputs, loc = ctrLocation

/-- What a branch adds for where it goes: no output, and no reference of its own. -/
structure TargetUD (maybeReloc : Option Relocation) (insnUD insnUD' : InstructionUD) : Prop where
  refs : maybeReloc = none → insnUD'.refs = insnUD.refs
  outputs : insnUD'.outputs = insnUD.outputs

theorem handleBO_conditionUD {insnUD : InstructionUD} {imms : List Int} {bo : BitVec 64} {bi : Int}
    (h : handleBO {imms := imms} bo bi = .ok insnUD) : ConditionUD insnUD := by
  have hcount (inputs : List CpuMemoryLocation) :
      ConditionUD {imms := imms, inputs := inputs, outputs := [ctrLocation]} :=
    ⟨rfl, fun _ hloc => List.mem_singleton.mp hloc⟩
  have hread (inputs : List CpuMemoryLocation) : ConditionUD {imms := imms, inputs := inputs} :=
    ⟨rfl, fun _ hloc => absurd hloc List.not_mem_nil⟩
  have hite {c : Prop} [Decidable c] {ud : InstructionUD} {rest : Except Error InstructionUD}
      (hthen : ConditionUD ud) (helse : rest = .ok insnUD → ConditionUD insnUD)
      (h : (if c then .ok ud else rest) = .ok insnUD) : ConditionUD insnUD := by
    split at h
    · cases h
      exact hthen
    · exact helse h
  have herror {e : Error} (h : Except.error e = .ok insnUD) : ConditionUD insnUD := by cases h
  exact hite (hcount _) (hite (hcount _) (hite (hread _) (hite (hcount _) (hite (hcount _)
    (hite (hread _) (hite (hcount _) (hite (hcount _) (hite (hread []) herror)))))))) h

theorem branchTargetUD_targetUD (maybeReloc : Option Relocation) (insnUD : InstructionUD)
    (insn : Word) (displacement : Int) :
    TargetUD maybeReloc insnUD (branchTargetUD insnUD insn displacement maybeReloc) := by
  cases maybeReloc with
  | none => exact ⟨fun _ => rfl, rfl⟩
  | some reloc => exact ⟨fun hnone => absurd hnone (Option.some_ne_none reloc), rfl⟩

/-- **A branch has its condition, its target and, with the link bit, the link register.** -/
theorem handleBranchUD_cases {D : Ppcdisasm} {insn : Word} {dialect : Dialect}
    {maybeReloc : Option Relocation} {insnUD : InstructionUD}
    (h : handleBranchUD D insn dialect maybeReloc = .ok insnUD) :
    ∃ conditionUD targetUD, ConditionUD conditionUD ∧ TargetUD maybeReloc conditionUD targetUD ∧
      (insnUD = {targetUD with outputs := targetUD.outputs ++ [lrLocation]} ∨
        insnUD = targetUD) := by
  have hlink (targetUD : InstructionUD)
      (h : (if isLink insn then Except.ok {targetUD with outputs := targetUD.outputs ++ [lrLocation]}
        else Except.ok targetUD : Except Error InstructionUD) = .ok insnUD) :
      insnUD = {targetUD with outputs := targetUD.outputs ++ [lrLocation]} ∨
        insnUD = targetUD := by
    split at h <;> cases h
    · exact .inl rfl
    · exact .inr rfl
  simp only [handleBranchUD, pure_bind] at h
  split at h
  · exact ⟨{}, _, ⟨rfl, fun _ hloc => absurd hloc List.not_mem_nil⟩,
      branchTargetUD_targetUD maybeReloc {} insn _, hlink _ h⟩
  · obtain ⟨conditionUD, hbo, h⟩ := bind_eq_ok.mp h
    have hcondition := handleBO_conditionUD hbo
    split at h
    · exact ⟨conditionUD, _, hcondition, branchTargetUD_targetUD maybeReloc _ insn _, hlink _ h⟩
    have hinputs (inputs : List CpuMemoryLocation) :
        TargetUD maybeReloc conditionUD {conditionUD with inputs := inputs} := ⟨fun _ => rfl, rfl⟩
    split at h
    · exact ⟨conditionUD, _, hcondition, hinputs _, hlink _ h⟩
    split at h
    · exact ⟨conditionUD, _, hcondition, hinputs _, hlink _ h⟩
    · exact ⟨conditionUD, conditionUD, hcondition, ⟨fun _ => rfl, rfl⟩, hlink _ h⟩

theorem handleBranchUD_refs {D : Ppcdisasm} {insn : Word} {dialect : Dialect}
    {insnUD : InstructionUD} (h : handleBranchUD D insn dialect none = .ok insnUD) :
    insnUD.refs = [] := by
  obtain ⟨conditionUD, targetUD, hcondition, htarget, hlink⟩ := handleBranchUD_cases h
  have hnone : targetUD.refs = [] := (htarget.refs rfl).trans hcondition.refs
  rcases hlink with rfl | rfl <;> exact hnone

/-- **A branch writes the count and the link register at most.** -/
theorem handleBranchUD_outputs {D : Ppcdisasm} {insn : Word} {dialect : Dialect}
    {maybeReloc : Option Relocation} {insnUD : InstructionUD}
    (h : handleBranchUD D insn dialect maybeReloc = .ok insnUD) :
    ∀ loc ∈ insnUD.outputs, loc = ctrLocation ∨ loc = lrLocation := by
  obtain ⟨conditionUD, targetUD, hcondition, htarget, hlink⟩ := handleBranchUD_cases h
  have hcount : ∀ loc ∈ targetUD.outputs, loc = ctrLocation := by
    rw [htarget.outputs]
    exact hcondition.outputs
  intro loc hloc
  rcases hlink with rfl | rfl
  · rcases List.mem_append.mp hloc with hloc | hloc
    · exact .inl (hcount loc hloc)
    · exact .inr (List.mem_singleton.mp hloc)
  · exact .inl (hcount loc hloc)

/-- **Without a relocation an instruction has no references.** -/
theorem instructionUD_refs {D : Ppcdisasm} {insn : Word} {opcode : Opcode} {dialect : Dialect}
    {insnUD : InstructionUD} (h : instructionUD D insn opcode dialect none = .ok insnUD) :
    insnUD.refs = [] := by
  have hsupported := instructionUD_supported h
  by_cases hbranch : isBranch insn = true
  · rw [instructionUD] at h
    simp only [if_neg (not_not_intro hsupported), hbranch, if_true] at h
    exact handleBranchUD_refs h
  have hplain : isBranch insn = false := Bool.eq_false_iff.mpr hbranch
  rw [instructionUD_plain hplain hsupported] at h
  cases hoperands : operandsUD D insn opcode dialect none opcode.operands 0 {} with
  | error => rw [hoperands] at h; cases h
  | ok operands =>
    rw [hoperands] at h
    cases h
    show operands.refs ++ [] = []
    rw [operandsUD_refs hoperands, List.append_nil]

end Ppc2cpp
