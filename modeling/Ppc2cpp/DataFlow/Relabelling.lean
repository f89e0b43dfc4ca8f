import Ppc2cpp.DataFlow.OperandUD

/-! The use-define information of an instruction with other registers.

If each operand of one word names the registers that the operand of another word names,
put through a function on locations, then so does the use-define information
(`instructionUD_relabelled`). A relocation is exchanged for another on the way. -/
namespace Ppc2cpp

/-- The use-define information with its registers relabelled and one relocation exchanged
for another. -/
structure InstructionUD.Relabelled (g : CpuMemoryLocation → CpuMemoryLocation)
    (reloc reloc' : Option Relocation) (ud ud' : InstructionUD) : Prop where
  inputs : ud'.inputs = ud.inputs.map g
  outputs : ud'.outputs = ud.outputs.map g
  imms : ud'.imms = ud.imms
  refs : List.Forall₂ (fun r r' => reloc = some r ∧ reloc' = some r') ud.refs ud'.refs

namespace InstructionUD.Relabelled
variable {g : CpuMemoryLocation → CpuMemoryLocation} {reloc reloc' : Option Relocation}
  {ud ud' added added' : InstructionUD}

theorem append (h : ud.Relabelled g reloc reloc' ud') (h' : added.Relabelled g reloc reloc' added') :
    (ud.append added).Relabelled g reloc reloc' (ud'.append added') where
  inputs := by rw [InstructionUD.append, InstructionUD.append, h.inputs, h'.inputs, List.map_append]
  outputs := by
    rw [InstructionUD.append, InstructionUD.append, h.outputs, h'.outputs, List.map_append]
  imms := by rw [InstructionUD.append, InstructionUD.append, h.imms, h'.imms]
  refs := List.rel_append h.refs h'.refs

/-- Without references there is nothing to exchange. -/
theorem of_registers (inputs outputs : List CpuMemoryLocation) (imms : List Int) :
    ({inputs := inputs, outputs := outputs, imms := imms} : InstructionUD).Relabelled g reloc reloc'
      {inputs := inputs.map g, outputs := outputs.map g, imms := imms} :=
  ⟨rfl, rfl, rfl, .nil⟩

/-- Every reference is the relocation. -/
theorem reloc_eq (h : ud.Relabelled g reloc reloc' ud') {r r' : Relocation} (hr : r ∈ ud.refs)
    (hr' : r' ∈ ud'.refs) : reloc = some r ∧ reloc' = some r' := by
  obtain ⟨hlen, hget⟩ := List.forall₂_iff_get.mp h.refs
  obtain ⟨i, hi, rfl⟩ := List.getElem_of_mem hr
  obtain ⟨j, hj, rfl⟩ := List.getElem_of_mem hr'
  exact ⟨(hget i hi (hlen ▸ hi)).1, (hget j (hlen ▸ hj) hj).2⟩

end InstructionUD.Relabelled

/-- An operand of two words: the registers of the second are those of the first relabelled,
and what is not a register is the same. -/
structure RelabelledOperand (D : Ppcdisasm) (g : CpuMemoryLocation → CpuMemoryLocation)
    (insn insn' : Word) (dialect : Dialect) (idx : OperandIdx) : Prop where
  register : isOperandRegister (D.powerpcOperands idx) (D.operandValuePowerpc idx insn' dialect) =
    isOperandRegister (D.powerpcOperands idx) (D.operandValuePowerpc idx insn dialect)
  locations : isOperandRegister (D.powerpcOperands idx) (D.operandValuePowerpc idx insn dialect) = true →
    appendOperands [] (D.powerpcOperands idx) (D.operandValuePowerpc idx insn' dialect) =
      (appendOperands [] (D.powerpcOperands idx) (D.operandValuePowerpc idx insn dialect)).map
        (List.map g)
  base : isOperandRegister (D.powerpcOperands idx) (D.operandValuePowerpc idx insn dialect) = true →
    idx = .RAL ∨ idx = .RAS →
      ⟨.GPR, D.operandValuePowerpc idx insn' dialect⟩ = g ⟨.GPR, D.operandValuePowerpc idx insn dialect⟩
  value : isOperandRegister (D.powerpcOperands idx) (D.operandValuePowerpc idx insn dialect) = false →
    D.operandValuePowerpc idx insn' dialect = D.operandValuePowerpc idx insn dialect

section
variable {D : Ppcdisasm} {g : CpuMemoryLocation → CpuMemoryLocation} {insn insn' : Word}
  {opcode : Opcode} {dialect : Dialect} {reloc reloc' : Option Relocation} {ud ud' added : InstructionUD}

/-- A word has the operands of itself. -/
theorem RelabelledOperand.refl (D : Ppcdisasm) (insn : Word) (dialect : Dialect) (idx : OperandIdx) :
    RelabelledOperand D id insn insn dialect idx where
  register := rfl
  locations _ := by
    cases appendOperands [] (D.powerpcOperands idx) (D.operandValuePowerpc idx insn dialect) with
    | error => rfl
    | ok regs => exact congrArg _ (List.map_id regs).symm
  base _ _ := rfl
  value _ := rfl

theorem operandUD_relabelled {idx : OperandIdx} {first : Bool}
    (h : RelabelledOperand D g insn insn' dialect idx) (hreloc : reloc.isSome = reloc'.isSome)
    (hok : operandUD D insn opcode dialect reloc idx first = .ok added) :
    ∃ added', operandUD D insn' opcode dialect reloc' idx first = .ok added' ∧
      added.Relabelled g reloc reloc' added' := by
  unfold operandUD at hok ⊢
  dsimp only at hok ⊢
  rw [h.register]
  cases hreg : isOperandRegister (D.powerpcOperands idx) (D.operandValuePowerpc idx insn dialect) with
  | true =>
    rw [hreg, if_pos rfl] at hok
    rw [if_pos rfl, h.locations hreg]
    cases hregs : appendOperands [] (D.powerpcOperands idx)
        (D.operandValuePowerpc idx insn dialect) with
    | error => rw [hregs] at hok; cases hok
    | ok regs =>
      rw [hregs] at hok
      cases hok
      refine ⟨_, rfl, ?_⟩
      have hupdate : (if idx = .RAL ∨ idx = .RAS then
          [(⟨.GPR, D.operandValuePowerpc idx insn' dialect⟩ : CpuMemoryLocation)] else []) =
          (if idx = .RAL ∨ idx = .RAS then
            [(⟨.GPR, D.operandValuePowerpc idx insn dialect⟩ : CpuMemoryLocation)] else []).map g := by
        split
        · rename_i hbase
          rw [h.base hreg hbase]
          rfl
        · rfl
      rw [hupdate]
      split
      · exact ⟨rfl, (List.map_append).symm, rfl, .nil⟩
      · exact ⟨rfl, rfl, rfl, .nil⟩
  | false =>
    rw [hreg, if_neg Bool.false_ne_true] at hok
    rw [if_neg Bool.false_ne_true, h.value hreg]
    split at hok
    · rename_i himm
      rw [if_pos himm]
      cases reloc with
      | none =>
        cases reloc' with
        | some => cases hreloc
        | none =>
          cases hok
          exact ⟨_, rfl, .of_registers [] [] _⟩
      | some r =>
        cases reloc' with
        | none => cases hreloc
        | some r' =>
          by_cases hcan : opcode.opcode ∈ canHaveRelocInsn
          · simp only [hcan, if_true] at hok ⊢
            cases hok
            exact ⟨_, rfl, rfl, rfl, rfl, .cons ⟨rfl, rfl⟩ .nil⟩
          · simp only [hcan, if_false] at hok ⊢
            cases hok
            exact ⟨_, rfl, .of_registers [] [] _⟩
    · rename_i himm
      rw [if_neg himm]
      split at hok
      · rename_i hignore
        cases hok
        exact ⟨_, if_pos hignore, .of_registers [] [] []⟩
      · cases hok

/-- **The loop over the operands.** -/
theorem operandsUD_relabelled {operands : List OperandIdx} {n : Nat} {out : InstructionUD}
    (h : ∀ idx ∈ operands, RelabelledOperand D g insn insn' dialect idx)
    (hreloc : reloc.isSome = reloc'.isSome) (hud : ud.Relabelled g reloc reloc' ud')
    (hok : operandsUD D insn opcode dialect reloc operands n ud = .ok out) :
    ∃ out', operandsUD D insn' opcode dialect reloc' operands n ud' = .ok out' ∧
      out.Relabelled g reloc reloc' out' := by
  induction operands generalizing n ud ud' with
  | nil =>
    rw [operandsUD] at hok
    cases hok
    exact ⟨ud', rfl, hud⟩
  | cons idx rest ih =>
    rw [operandsUD_cons, bind_eq_ok] at hok
    obtain ⟨added, hadded, hok⟩ := hok
    obtain ⟨added', hadded', hrel⟩ := operandUD_relabelled (h idx List.mem_cons_self) hreloc hadded
    have hafter : registersAfter D insn' dialect idx n = registersAfter D insn dialect idx n := by
      rw [registersAfter, registersAfter, (h idx List.mem_cons_self).register]
    obtain ⟨out', hok', hout⟩ :=
      ih (fun i hi => h i (List.mem_cons_of_mem _ hi)) (hud.append hrel) hok
    refine ⟨out', ?_, hout⟩
    rw [operandsUD_cons, hadded', hafter]
    exact hok'

/-- **An instruction that is not a branch.** -/
theorem instructionUD_relabelled (hplain : isBranch insn = false) (hplain' : isBranch insn' = false)
    (h : ∀ idx ∈ opcode.operands, RelabelledOperand D g insn insn' dialect idx)
    (himplicit : ∀ loc ∈ implicitOutputs opcode.opcode, g loc = loc)
    (hreloc : reloc.isSome = reloc'.isSome)
    (hok : instructionUD D insn opcode dialect reloc = .ok ud) :
    ∃ ud', instructionUD D insn' opcode dialect reloc' = .ok ud' ∧
      ud.Relabelled g reloc reloc' ud' := by
  have hsupported := instructionUD_supported hok
  rw [instructionUD_plain hplain hsupported] at hok
  rw [instructionUD_plain hplain' hsupported]
  cases hoperands : operandsUD D insn opcode dialect reloc opcode.operands 0 {} with
  | error => rw [hoperands] at hok; cases hok
  | ok operands =>
    rw [hoperands] at hok
    cases hok
    have hempty : ({} : InstructionUD).Relabelled g reloc reloc' {} := .of_registers [] [] []
    obtain ⟨operands', hok', hrel⟩ := operandsUD_relabelled h hreloc hempty hoperands
    refine ⟨_, by rw [hok']; rfl, hrel.append ?_⟩
    refine ⟨rfl, ?_, rfl, .nil⟩
    exact ((List.map_congr_left himplicit).trans (List.map_id _)).symm

/-! ### Branches to the link register -/

/-- Where the one computation gives use-define information the other gives it relabelled. -/
def CarriesOver (g : CpuMemoryLocation → CpuMemoryLocation) (reloc reloc' : Option Relocation)
    (x x' : Except Error InstructionUD) : Prop :=
  ∀ ud, x = .ok ud → ∃ ud', x' = .ok ud' ∧ ud.Relabelled g reloc reloc' ud'

/-- A test of what the two words have in common. -/
theorem CarriesOver.ite {c : Prop} [Decidable c] {x x' y y' : Except Error InstructionUD}
    (hx : CarriesOver g reloc reloc' x x') (hy : CarriesOver g reloc reloc' y y') :
    CarriesOver g reloc reloc' (if c then x else y) (if c then x' else y') := by
  by_cases hc : c
  · rwa [if_pos hc, if_pos hc]
  · rwa [if_neg hc, if_neg hc]

theorem CarriesOver.ok {ud ud' : InstructionUD} (h : ud.Relabelled g reloc reloc' ud') :
    CarriesOver g reloc reloc' (.ok ud) (.ok ud') := by
  intro _ hud
  cases hud
  exact ⟨ud', rfl, h⟩

theorem CarriesOver.error (e : Error) (x' : Except Error InstructionUD) :
    CarriesOver g reloc reloc' (.error e) x' := by
  intro _ hud
  cases hud

theorem handleBO_relabelled (hctr : g ctrLocation = ctrLocation) {bo : BitVec 64} {bi bi' : Int}
    (hbi : ⟨.CR_BIT, bi'⟩ = g ⟨.CR_BIT, bi⟩) (imms : List Int)
    (hok : handleBO {imms := imms} bo bi = .ok ud) :
    ∃ ud', handleBO {imms := imms} bo bi' = .ok ud' ∧ ud.Relabelled g reloc reloc' ud' := by
  have hregs (inputs inputs' outputs : List CpuMemoryLocation) (hin : inputs' = inputs.map g)
      (hout : outputs = outputs.map g) : CarriesOver g reloc reloc'
        (.ok {imms := imms, inputs := inputs, outputs := outputs})
        (.ok {imms := imms, inputs := inputs', outputs := outputs}) :=
    .ok ⟨hin, hout, rfl, .nil⟩
  have hctrAndBit := hregs [ctrLocation, ⟨.CR_BIT, bi⟩] [ctrLocation, ⟨.CR_BIT, bi'⟩]
    [ctrLocation] (by simp [hctr, hbi]) (by simp [hctr])
  have hbitOnly := hregs [⟨.CR_BIT, bi⟩] [⟨.CR_BIT, bi'⟩] [] (by simp [hbi]) rfl
  have hctrOnly := hregs [ctrLocation] [ctrLocation] [ctrLocation] (by simp [hctr])
    (by simp [hctr])
  have hall : CarriesOver g reloc reloc' (handleBO {imms := imms} bo bi)
      (handleBO {imms := imms} bo bi') :=
    .ite hctrAndBit <| .ite hctrAndBit <| .ite hbitOnly <| .ite hctrAndBit <| .ite hctrAndBit <|
      .ite hbitOnly <| .ite hctrOnly <| .ite hctrOnly <| .ite (hregs [] [] [] rfl rfl) <|
      .error _ _
  exact hall ud hok

theorem handleBranchUD_toLR (hlr : isBranchToLR insn = true) :
    handleBranchUD D insn dialect reloc =
      (handleBO {imms := [D.operandValuePowerpc .BO insn dialect]}
        (BitVec.ofInt 64 (D.operandValuePowerpc .BO insn dialect))
        (D.operandValuePowerpc .BI insn dialect)).map fun ud =>
          ud.append {inputs := [lrLocation], outputs := if isLink insn then [lrLocation] else []} := by
  have hu : isBranchUncoditional insn = false := by
    refine Bool.eq_false_iff.mpr fun hu => ?_
    rw [(isBranchUncoditional_excludes hu).2.1] at hlr
    cases hlr
  have hc : isBranchConditional insn = false := by
    refine Bool.eq_false_iff.mpr fun hc => ?_
    rw [(isBranchConditional_excludes hc).2.1] at hlr
    cases hlr
  unfold handleBranchUD
  simp only [hu, hc, hlr, Bool.false_eq_true, if_false, if_true]
  cases handleBO {imms := [D.operandValuePowerpc .BO insn dialect]}
      (BitVec.ofInt 64 (D.operandValuePowerpc .BO insn dialect))
      (D.operandValuePowerpc .BI insn dialect) with
  | error => rfl
  | ok ud =>
    simp only [bind, Except.bind, pure, Except.pure, Except.map, InstructionUD.append]
    by_cases hlink : isLink insn = true
    · simp [hlink]
    · simp [hlink]

/-- **A branch to the link register.** -/
theorem instructionUD_relabelled_toLR (hlr : isBranchToLR insn = true)
    (hlr' : isBranchToLR insn' = true) (hlink : isLink insn' = isLink insn)
    (hctrLoc : g ctrLocation = ctrLocation) (hlrLoc : g lrLocation = lrLocation)
    (hbo : D.operandValuePowerpc .BO insn' dialect = D.operandValuePowerpc .BO insn dialect)
    (hbi : ⟨.CR_BIT, D.operandValuePowerpc .BI insn' dialect⟩ =
      g ⟨.CR_BIT, D.operandValuePowerpc .BI insn dialect⟩)
    (hok : instructionUD D insn opcode dialect reloc = .ok ud) :
    ∃ ud', instructionUD D insn' opcode dialect reloc' = .ok ud' ∧
      ud.Relabelled g reloc reloc' ud' := by
  have hsupported := instructionUD_supported hok
  have hbranch : ∀ {insn reloc}, isBranchToLR insn = true →
      instructionUD D insn opcode dialect reloc = handleBranchUD D insn dialect reloc := by
    intro insn reloc h
    have hbranch : isBranch insn = true := (isBranch_iff insn).mpr (.inr (.inr (.inl h)))
    rw [instructionUD]
    simp only [if_neg (not_not_intro hsupported), hbranch, if_true]
  rw [hbranch hlr, handleBranchUD_toLR hlr] at hok
  rw [hbranch hlr', handleBranchUD_toLR hlr', hbo, hlink]
  cases hud : handleBO {imms := [D.operandValuePowerpc .BO insn dialect]}
      (BitVec.ofInt 64 (D.operandValuePowerpc .BO insn dialect))
      (D.operandValuePowerpc .BI insn dialect) with
  | error => rw [hud] at hok; cases hok
  | ok boUD =>
    rw [hud] at hok
    cases hok
    obtain ⟨boUD', hok', hrel⟩ := handleBO_relabelled hctrLoc hbi _ hud
    refine ⟨_, by rw [hok']; rfl, hrel.append ?_⟩
    refine ⟨by rw [List.map_cons, List.map_nil, hlrLoc], ?_, rfl, .nil⟩
    by_cases hl : isLink insn = true
    · simp only [hl, if_true, List.map_cons, List.map_nil, hlrLoc]
    · simp only [hl, Bool.false_eq_true, if_false, List.map_nil]

end

end Ppc2cpp
