import Ppc2cpp.Analysis.ObservedAlike

/-! Straight-line code with its registers renamed.

A renaming keeps the registers of each class apart and leaves alone r0, the return
registers and the fields of CR that instructions set without naming them (`Renaming`). If
it also leaves alone what a function reads without having defined it, the function with its
registers renamed compares equal (`comparesEqual_renamed`): the two runs on terms go
together, a register of the one holding what the renamed register of the other holds. -/
namespace Ppc2cpp
open StraightCode

/-- A renaming of the registers within each class. -/
structure Renaming where
  gpr : Fin 32 → Fin 32
  fpr : Fin 32 → Fin 32
  crField : Fin 8 → Fin 8
  gpr_injective : Function.Injective gpr
  fpr_injective : Function.Injective fpr
  crField_injective : Function.Injective crField
  gpr_fixed : gpr 0 = 0 ∧ gpr 3 = 3 ∧ gpr 4 = 4
  fpr_fixed : fpr 1 = 1
  crField_fixed : crField 0 = 0 ∧ crField 1 = 1

/-- A number that is not that of a register stays what it is. -/
def onIndex {n : Nat} (f : Fin n → Fin n) (v : Int) : Int :=
  if h : 0 ≤ v ∧ v.toNat < n then (f ⟨v.toNat, toNat_lt_of_index h⟩ : Nat) else v

theorem onIndex_of_lt {n : Nat} (f : Fin n → Fin n) {v : Int} (h : 0 ≤ v ∧ v.toNat < n) :
    onIndex f v = (f ⟨v.toNat, h.2⟩ : Nat) := dif_pos h

theorem onIndex_of_not_lt {n : Nat} (f : Fin n → Fin n) {v : Int} (h : ¬ (0 ≤ v ∧ v.toNat < n)) :
    onIndex f v = v := dif_neg h

theorem onIndex_eq_zero_iff {n : Nat} {f : Fin (n + 1) → Fin (n + 1)} (hf : Function.Injective f)
    (hzero : f 0 = 0) {v : Int} : onIndex f v = 0 ↔ v = 0 := by
  by_cases h : 0 ≤ v ∧ v.toNat < n + 1
  · rw [onIndex_of_lt f h]
    constructor
    · intro heq
      have hval : f ⟨v.toNat, h.2⟩ = f 0 := by
        rw [hzero]
        exact Fin.ext (by simpa using heq)
      have := congrArg Fin.val (hf hval)
      simp only [Fin.val_zero] at this
      omega
    · rintro rfl
      exact congrArg (fun i : Fin (n + 1) => ((i : Nat) : Int)) hzero
  · rw [onIndex_of_not_lt f h]

/-- A storage element named by an index, after the index is renamed. -/
theorem ofIndex_onIndex {n : Nat} (f : Fin n → Fin n) (mk : Fin n → Slot) (v : Int) :
    Slot.ofIndex mk (onIndex f v) = Slot.ofIndex (mk ∘ f) v := by
  by_cases h : 0 ≤ v ∧ v.toNat < n
  · have hlt : 0 ≤ ((f ⟨v.toNat, h.2⟩ : Nat) : Int) ∧ ((f ⟨v.toNat, h.2⟩ : Nat) : Int).toNat < n :=
      ⟨Int.natCast_nonneg _, by rw [Int.toNat_natCast]; exact Fin.isLt _⟩
    rw [onIndex_of_lt f h, Slot.ofIndex, Slot.ofIndex, dif_pos hlt, dif_pos h]
    rfl
  · rw [onIndex_of_not_lt f h, Slot.ofIndex, Slot.ofIndex, dif_neg h, dif_neg h]

theorem ofIndex_map {n : Nat} (g : Slot → Slot) (mk : Fin n → Slot) (v : Int) :
    (Slot.ofIndex mk v).map g = Slot.ofIndex (g ∘ mk) v := by
  unfold Slot.ofIndex
  split <;> rfl

namespace Renaming
variable (ρ : Renaming)

/-- A bit of CR follows its field. -/
def crBit (v : Int) : Int := 4 * onIndex ρ.crField (v / 4) + v % 4

def crSlot (i : Fin 32) : Fin 32 :=
  ⟨4 * (ρ.crField ⟨i / 4, by omega⟩ : Nat) + i % 4, by omega⟩

/-- A location, as far as it is in one of the three classes. -/
def loc (l : CpuMemoryLocation) : CpuMemoryLocation :=
  match l.memspace with
  | .GPR => ⟨.GPR, onIndex ρ.gpr l.value⟩
  | .FPR => ⟨.FPR, onIndex ρ.fpr l.value⟩
  | .CR_BIT => ⟨.CR_BIT, ρ.crBit l.value⟩
  | _ => l

/-- A storage element. -/
def slot : Slot → Slot
  | .gpr i => .gpr (ρ.gpr i)
  | .fpr i => .fpr (ρ.fpr i)
  | .cr i => .cr (ρ.crSlot i)
  | s => s

/-- The value of an operand, by the flags of the operand. -/
def operand (flags : List OperandFlag) (v : Int) : Int :=
  if .GPR ∈ flags ∨ .GPR_0 ∈ flags then onIndex ρ.gpr v
  else if .FPR ∈ flags then onIndex ρ.fpr v
  else if .GQR ∈ flags then v
  else if .CR_BIT ∈ flags then ρ.crBit v
  else if .SPR ∈ flags then v
  else if .CR_REG ∈ flags then onIndex ρ.crField v
  else v

theorem crSlot_injective : Function.Injective ρ.crSlot := by
  intro i j h
  have hval := congrArg Fin.val h
  simp only [crSlot] at hval
  have hfield : ρ.crField ⟨i / 4, by omega⟩ = ρ.crField ⟨j / 4, by omega⟩ := Fin.ext (by omega)
  have hdiv := congrArg Fin.val (ρ.crField_injective hfield)
  simp only at hdiv
  exact Fin.ext (by omega)

theorem slot_injective : Function.Injective ρ.slot := by
  intro s t h
  cases s <;> cases t <;> simp only [slot, Slot.gpr.injEq, Slot.fpr.injEq, Slot.cr.injEq,
    reduceCtorEq] at h ⊢
  · exact ρ.gpr_injective h
  · exact ρ.fpr_injective h
  · exact ρ.crSlot_injective h
  all_goals exact h

theorem slot_returned {s : Slot} (h : isReturned s) : ρ.slot s = s := by
  have hslots : slotsOf definedByCall = [.fpr 1, .gpr 4, .gpr 3] := by decide
  rw [isReturned, hslots] at h
  simp only [List.mem_cons, List.not_mem_nil, or_false] at h
  rcases h with rfl | rfl | rfl
  · exact congrArg Slot.fpr ρ.fpr_fixed
  · exact congrArg Slot.gpr ρ.gpr_fixed.2.2
  · exact congrArg Slot.gpr ρ.gpr_fixed.2.1

/-- The bit of a field. -/
theorem crBit_field (reg : Int) {k : Int} (hk : 0 ≤ k ∧ k < 4) :
    ρ.crBit (4 * reg + k) = 4 * onIndex ρ.crField reg + k := by
  rw [crBit, show (4 * reg + k) / 4 = reg by omega, show (4 * reg + k) % 4 = k by omega]

theorem ofIndex_crBit (v : Int) : Slot.ofIndex .cr (ρ.crBit v) = Slot.ofIndex (.cr ∘ ρ.crSlot) v := by
  by_cases h : 0 ≤ v ∧ v.toNat < 32
  · have hfield : 0 ≤ v / 4 ∧ (v / 4).toNat < 8 := by omega
    have hcr : ρ.crBit v = (ρ.crSlot ⟨v.toNat, h.2⟩ : Nat) := by
      rw [crBit, onIndex_of_lt ρ.crField hfield]
      have hidx : (⟨(v / 4).toNat, hfield.2⟩ : Fin 8) = ⟨v.toNat / 4, by omega⟩ := Fin.ext (by
        simp only
        omega)
      rw [hidx]
      simp only [crSlot]
      push_cast
      omega
    have hlt : 0 ≤ ρ.crBit v ∧ (ρ.crBit v).toNat < 32 := by
      rw [hcr]
      exact ⟨Int.natCast_nonneg _, by rw [Int.toNat_natCast]; exact Fin.isLt _⟩
    rw [Slot.ofIndex, Slot.ofIndex, dif_pos hlt, dif_pos h, Function.comp_apply]
    refine congrArg _ (congrArg Slot.cr (Fin.ext ?_))
    simp only [hcr, Int.toNat_natCast]
  · have hfield : ¬ (0 ≤ v / 4 ∧ (v / 4).toNat < 8) := by omega
    have hcr : ρ.crBit v = v := by
      rw [crBit, onIndex_of_not_lt ρ.crField hfield]
      omega
    rw [hcr, Slot.ofIndex, Slot.ofIndex, dif_neg h, dif_neg h]

/-- **A renamed location names the renamed storage element.** -/
theorem loc_slot? (l : CpuMemoryLocation) : (ρ.loc l).slot? = l.slot?.map ρ.slot := by
  obtain ⟨space, v⟩ := l
  cases space with
  | GPR => exact (ofIndex_onIndex ρ.gpr .gpr v).trans (ofIndex_map ρ.slot .gpr v).symm
  | FPR => exact (ofIndex_onIndex ρ.fpr .fpr v).trans (ofIndex_map ρ.slot .fpr v).symm
  | CR_BIT => exact (ρ.ofIndex_crBit v).trans (ofIndex_map ρ.slot .cr v).symm
  | GQR => exact (ofIndex_map ρ.slot .gqr v).symm
  | PS1 => exact (ofIndex_map ρ.slot .ps1 v).symm
  | SPR =>
    change CpuMemoryLocation.slot? ⟨.SPR, v⟩ = _
    unfold CpuMemoryLocation.slot?
    dsimp only
    by_cases hxer : v = sprValueXER
    · rw [if_pos hxer]
      rfl
    by_cases hlr : v = sprValueLR
    · rw [if_neg hxer, if_pos hlr]
      rfl
    by_cases hctr : v = sprValueCTR
    · rw [if_neg hxer, if_neg hlr, if_pos hctr]
      rfl
    rw [if_neg hxer, if_neg hlr, if_neg hctr]
    split
    · exact (ofIndex_map ρ.slot .gqr _).symm
    · rfl

/-! ### Operands -/

theorem operand_eq_zero_iff {flags : List OperandFlag} (h : .GPR_0 ∈ flags) {v : Int} :
    ρ.operand flags v = 0 ↔ v = 0 := by
  rw [operand, if_pos (.inr h)]
  exact onIndex_eq_zero_iff ρ.gpr_injective ρ.gpr_fixed.1

theorem isOperandRegister_operand (flags : List OperandFlag) (v : Int) :
    isOperandRegister flags (ρ.operand flags v) = isOperandRegister flags v := by
  unfold isOperandRegister
  by_cases h : OperandFlag.GPR_0 ∈ flags
  · have hzero : (ρ.operand flags v != 0) = (v != 0) := by
      rw [Bool.eq_iff_iff, bne_iff_ne, bne_iff_ne, ne_eq, ne_eq, ρ.operand_eq_zero_iff h]
    rw [hzero]
  · simp only [h, decide_false, Bool.false_and]

/-- The value of an operand that is no register stays. -/
theorem operand_of_not_register {flags : List OperandFlag} {v : Int}
    (h : isOperandRegister flags v = false) : ρ.operand flags v = v := by
  simp only [isOperandRegister, Bool.or_eq_false_iff, Bool.and_eq_false_iff, decide_eq_false_iff_not,
    bne_eq_false_iff_eq] at h
  obtain ⟨⟨⟨⟨⟨⟨hgpr, hzero⟩, hfpr⟩, hgqr⟩, hbit⟩, hspr⟩, hfield⟩ := h
  rcases hzero with hzero | rfl
  · rw [operand, if_neg (not_or.mpr ⟨hgpr, hzero⟩), if_neg hfpr, if_neg hgqr, if_neg hbit, if_neg hspr,
      if_neg hfield]
  · by_cases h0 : OperandFlag.GPR_0 ∈ flags
    · exact (ρ.operand_eq_zero_iff h0).mpr rfl
    · rw [operand, if_neg (not_or.mpr ⟨hgpr, h0⟩), if_neg hfpr, if_neg hgqr, if_neg hbit, if_neg hspr,
        if_neg hfield]

theorem appendCRRegister_onIndex (reg : Int) :
    appendCRRegister [] (onIndex ρ.crField reg) = (appendCRRegister [] reg).map ρ.loc := by
  have hfield := ρ.crBit_field reg (k := 0) (by decide)
  simp only [add_zero] at hfield
  simp only [appendCRRegister, List.nil_append, List.map_cons, List.map_nil, loc, hfield,
    ρ.crBit_field reg (k := 1) (by decide), ρ.crBit_field reg (k := 2) (by decide),
    ρ.crBit_field reg (k := 3) (by decide)]

/-- **The registers of a renamed operand are the renamed registers.** -/
theorem appendOperands_operand {flags : List OperandFlag} {v : Int}
    (hzero : .GPR_0 ∈ flags → v ≠ 0 ∨ .GPR ∈ flags) :
    appendOperands [] flags (ρ.operand flags v) =
      (appendOperands [] flags v).map (List.map ρ.loc) := by
  by_cases hgpr : OperandFlag.GPR ∈ flags ∨ OperandFlag.GPR_0 ∈ flags
  · have hnamed : ∀ w : Int, (w = 0 ↔ v = 0) →
        (OperandFlag.GPR ∈ flags ∨ (OperandFlag.GPR_0 ∈ flags ∧ w ≠ 0)) := by
      intro w hw
      rcases hgpr with h | h
      · exact .inl h
      · exact (hzero h).elim (fun hv => .inr ⟨h, mt hw.mp hv⟩) .inl
    have hsame : onIndex ρ.gpr v = 0 ↔ v = 0 := onIndex_eq_zero_iff ρ.gpr_injective ρ.gpr_fixed.1
    rw [operand, if_pos hgpr, appendOperands, if_pos (hnamed _ hsame), appendOperands,
      if_pos (hnamed v Iff.rfl)]
    rfl
  · have hnot : ∀ w : Int, ¬ (OperandFlag.GPR ∈ flags ∨ (OperandFlag.GPR_0 ∈ flags ∧ w ≠ 0)) :=
      fun w h => hgpr (h.imp_right And.left)
    rw [operand, if_neg hgpr, appendOperands, if_neg (hnot _), appendOperands, if_neg (hnot v)]
    by_cases hfpr : OperandFlag.FPR ∈ flags
    · rw [if_pos hfpr, if_pos hfpr, if_pos hfpr]
      rfl
    by_cases hgqr : OperandFlag.GQR ∈ flags
    · simp only [if_neg hfpr, if_pos hgqr]
      rfl
    by_cases hbit : OperandFlag.CR_BIT ∈ flags
    · simp only [if_neg hfpr, if_neg hgqr, if_pos hbit]
      rfl
    by_cases hspr : OperandFlag.SPR ∈ flags
    · simp only [if_neg hfpr, if_neg hgqr, if_neg hbit, if_pos hspr]
      rfl
    by_cases hfield : OperandFlag.CR_REG ∈ flags
    · simp only [if_neg hfpr, if_neg hgqr, if_neg hbit, if_neg hspr, if_pos hfield]
      exact congrArg Except.ok (ρ.appendCRRegister_onIndex v)
    · simp only [if_neg hfpr, if_neg hgqr, if_neg hbit, if_neg hspr, if_neg hfield]
      rfl

/-- The fields set without being named stay. -/
theorem loc_implicitOutputs {form : Form} {l : CpuMemoryLocation} (h : l ∈ implicitOutputs form) :
    ρ.loc l = l := by
  have hfield : ∀ {reg : Int}, onIndex ρ.crField reg = reg →
      ∀ l ∈ appendCRRegister [] reg, ρ.loc l = l := by
    intro reg hreg l hl
    have hmap := ρ.appendCRRegister_onIndex reg
    rw [hreg] at hmap
    exact List.map_inj_left.mp (hmap.symm.trans (List.map_id _).symm) l hl
  have h0 : onIndex ρ.crField 0 = 0 :=
    (onIndex_eq_zero_iff ρ.crField_injective ρ.crField_fixed.1).mpr rfl
  have h1 : onIndex ρ.crField 1 = 1 := by
    rw [onIndex_of_lt ρ.crField (by decide)]
    exact congrArg (fun i : Fin 8 => ((i : Nat) : Int)) ρ.crField_fixed.2
  rw [implicitOutputs, List.mem_append] at h
  rcases h with h | h
  · split at h
    · exact hfield h0 l h
    · cases h
  · split at h
    · exact hfield h1 l h
    · cases h

end Renaming

/-! ### Renamed functions -/

/-- What the code relies on of the operand table: the base register of an update form is a
general purpose register, and an operand that is 0 in place of r0 is of no other class. -/
structure Ppcdisasm.RegisterClasses (D : Ppcdisasm) : Prop where
  base : ∀ idx, idx = .RAL ∨ idx = .RAS →
    .GPR ∈ D.powerpcOperands idx ∨ .GPR_0 ∈ D.powerpcOperands idx
  zero : ∀ idx, .GPR_0 ∈ D.powerpcOperands idx → .FPR ∉ D.powerpcOperands idx ∧
    .GQR ∉ D.powerpcOperands idx ∧ .CR_BIT ∉ D.powerpcOperands idx ∧
    .SPR ∉ D.powerpcOperands idx ∧ .CR_REG ∉ D.powerpcOperands idx

/-- A word with the registers of another one renamed. All that is not a register of it is
the same. -/
structure RenamedInsn (D : Ppcdisasm) (ρ : Renaming) (insn insn' : Word) : Prop where
  opcode : ∀ dialect, D.lookupPowerpc insn' dialect = D.lookupPowerpc insn dialect
  kind : isBranch insn' = isBranch insn ∧ isBranchToLR insn' = isBranchToLR insn ∧
    isLink insn' = isLink insn
  operands : ∀ opcode, D.lookupPowerpc insn .raw = some opcode → ∀ idx ∈ opcode.operands,
    D.operandValuePowerpc idx insn' .raw =
      ρ.operand (D.powerpcOperands idx) (D.operandValuePowerpc idx insn .raw)
  condition : isBranch insn = true → getBO insn' = getBO insn ∧
    D.operandValuePowerpc .BO insn' .raw = D.operandValuePowerpc .BO insn .raw ∧
    D.operandValuePowerpc .BI insn' .raw = ρ.crBit (D.operandValuePowerpc .BI insn .raw)

/-- The second function is the first with its registers renamed. A relocation of the first
compares equal to that of the renamed instruction. -/
structure RenamedFunction (ρ : Renaming) (fuel : Nat) (S₁ S₂ : Subject) : Prop where
  disasm : S₂.disasm = S₁.disasm
  length : S₂.length = S₁.length
  insn : ∀ pc < S₁.length, RenamedInsn S₁.disasm ρ (S₁.insn pc) (S₂.insn pc)
  reloc : ∀ pc < S₁.length,
    Option.Rel (fun reloc₁ reloc₂ => (S₁.comparator S₂).compareRelocations fuel reloc₁ reloc₂ = .ok true)
      (S₁.relocAt pc) (S₂.relocAt pc)

/-- An instruction reads the register, and no instruction before it defines it. -/
def Subject.ReadsUndefined (S : Subject) (loc : CpuMemoryLocation) : Prop :=
  ∃ pc < S.length, ∃ opcode insnUD, S.decode pc = .ok (opcode, insnUD) ∧ loc ∈ insnUD.inputs ∧
    ∀ pc' < pc, ∀ opcode' insnUD', S.decode pc' = .ok (opcode', insnUD') →
      ∀ out ∈ insnUD'.outputs, out.slot? ≠ loc.slot?

theorem isSome_of_rel {α β : Type} {R : α → β → Prop} {x : Option α} {y : Option β}
    (h : Option.Rel R x y) : x.isSome = y.isSome := by
  cases h <;> rfl

theorem RenamedInsn.relabelledOperand {D : Ppcdisasm} {ρ : Renaming} {insn insn' : Word}
    (h : RenamedInsn D ρ insn insn') (htables : D.RegisterClasses) {opcode : Opcode}
    (hopcode : D.lookupPowerpc insn .raw = some opcode) {idx : OperandIdx}
    (hidx : idx ∈ opcode.operands) : RelabelledOperand D ρ.loc insn insn' .raw idx where
  register := by rw [h.operands opcode hopcode idx hidx, ρ.isOperandRegister_operand]
  locations hreg := by
    rw [h.operands opcode hopcode idx hidx]
    refine ρ.appendOperands_operand fun hzero => ?_
    obtain ⟨hfpr, hgqr, hbit, hspr, hfield⟩ := htables.zero idx hzero
    -- with the value 0 it would be a register of another class
    simp only [isOperandRegister, hzero, hfpr, hgqr, hbit, hspr, hfield, decide_true, decide_false,
      Bool.true_and, Bool.or_false, Bool.or_eq_true, decide_eq_true_eq, bne_iff_ne] at hreg
    exact hreg.symm
  base _ hbase := by
    rw [h.operands opcode hopcode idx hidx, Renaming.operand, if_pos (htables.base idx hbase)]
    rfl
  value hreg := by rw [h.operands opcode hopcode idx hidx, ρ.operand_of_not_register hreg]

namespace RenamedFunction
variable {ρ : Renaming} {fuel : Nat} {S₁ S₂ : Subject}

theorem straightLine (h : RenamedFunction ρ fuel S₁ S₂) (h₁ : S₁.StraightLine) : S₂.StraightLine := by
  have hlast := h.insn (S₁.length - 1) (Nat.sub_lt h₁.nonempty Nat.one_pos)
  have hbranch : isBranch (S₁.insn (S₁.length - 1)) = true :=
    (isBranch_iff _).mpr (.inr (.inr (.inl h₁.blr)))
  constructor
  · rw [h.length]
    exact h₁.nonempty
  · intro pc hpc
    rw [h.length] at hpc
    rw [(h.insn pc (Nat.lt_of_succ_lt hpc)).kind.1]
    exact h₁.plain pc hpc
  · rw [h.length, hlast.kind.2.1]
    exact h₁.blr
  · rw [h.length, isBranchConditionUnconditional, (hlast.condition hbranch).1]
    exact h₁.unconditional
  · rw [h.length, hlast.kind.2.2]
    exact h₁.unlinked

/-- **A renamed instruction has the use-define information with the registers renamed.** -/
theorem decode (h : RenamedFunction ρ fuel S₁ S₂) (htables : S₁.disasm.RegisterClasses)
    (h₁ : S₁.StraightLine) {pc : Nat} (hpc : pc < S₁.length) {opcode : Opcode} {ud : InstructionUD}
    (hdecode : S₁.decode pc = .ok (opcode, ud)) :
    ∃ ud', S₂.decode pc = .ok (opcode, ud') ∧
      ud.Relabelled ρ.loc (S₁.relocAt pc) (S₂.relocAt pc) ud' := by
  have hinsn := h.insn pc hpc
  obtain ⟨hopcode, hud⟩ := (h₁.decode_iff hpc).mp hdecode
  have hreloc : (S₁.relocAt pc).isSome = (S₂.relocAt pc).isSome := isSome_of_rel (h.reloc pc hpc)
  obtain ⟨ud', hud', hrel⟩ : ∃ ud', instructionUD S₁.disasm (S₂.insn pc) opcode .raw (S₂.relocAt pc) =
      .ok ud' ∧ ud.Relabelled ρ.loc (S₁.relocAt pc) (S₂.relocAt pc) ud' := by
    by_cases hlast : pc + 1 < S₁.length
    · refine instructionUD_relabelled (h₁.plain pc hlast) (hinsn.kind.1.trans (h₁.plain pc hlast))
        (fun idx hidx => hinsn.relabelledOperand htables hopcode hidx)
        (fun l hl => ρ.loc_implicitOutputs hl) hreloc hud
    · obtain rfl : pc = S₁.length - 1 := by omega
      have hbranch : isBranch (S₁.insn (S₁.length - 1)) = true :=
        (isBranch_iff _).mpr (.inr (.inr (.inl h₁.blr)))
      obtain ⟨_, hbo, hbi⟩ := hinsn.condition hbranch
      exact instructionUD_relabelled_toLR h₁.blr (hinsn.kind.2.1.trans h₁.blr) hinsn.kind.2.2 rfl rfl
        hbo (by rw [hbi]; rfl) hud
  refine ⟨ud', ((h.straightLine h₁).decode_iff (h.length ▸ hpc)).mpr ?_, hrel⟩
  rw [h.disasm, hinsn.opcode]
  exact ⟨hopcode, hud'⟩

theorem decoded (h : RenamedFunction ρ fuel S₁ S₂) (htables : S₁.disasm.RegisterClasses)
    (h₁ : S₁.StraightLine) (hdecoded : S₁.Decoded) : S₂.Decoded := by
  intro pc hpc
  rw [h.length] at hpc
  obtain ⟨opcode, ud, hdecode, hslots⟩ := hdecoded pc hpc
  obtain ⟨ud', hdecode', hrel⟩ := h.decode htables h₁ hpc hdecode
  refine ⟨opcode, ud', hdecode', fun l hl => ?_⟩
  rw [hrel.inputs, hrel.outputs, ← List.map_append] at hl
  obtain ⟨l', hl', rfl⟩ := List.mem_map.mp hl
  rw [ρ.loc_slot?, Option.isSome_map]
  exact hslots l' hl'

/-- The code of the renamed function is that of the function renamed. -/
theorem reads (h : RenamedFunction ρ fuel S₁ S₂) (htables : S₁.disasm.RegisterClasses)
    (h₁ : S₁.StraightLine) {code : List (SymbolicInsn Nat)} (hcode : S₁.Reads id S₁.length code) :
    S₂.Reads id S₂.length (code.map (Insn.rename ρ.slot ρ.loc)) := by
  rw [Subject.Reads, h.length, List.forall₂_map_right_iff]
  obtain ⟨hlen, hget⟩ := List.forall₂_iff_get.mp hcode
  refine List.forall₂_iff_get.mpr ⟨hlen, fun k hk hk' => ?_⟩
  obtain ⟨hpc, hsymbolic⟩ := hcode.get (List.getElem?_eq_getElem hk')
  obtain ⟨opcode, ud, hdecode, hi⟩ := Subject.symbolic_eq_ok.mp hsymbolic
  obtain ⟨ud', hdecode', hrel⟩ := h.decode htables h₁ hpc hdecode
  rw [List.get_eq_getElem, List.getElem_range, List.get_eq_getElem, hi]
  refine Subject.symbolic_eq_ok.mpr ⟨opcode, ud', hdecode', ?_⟩
  rw [(h.insn k hpc).kind.1]
  exact (hrel.symbolic ρ.loc_slot? _ _).symm

/-- What the code reads without having defined it, the function does. -/
theorem readsUndefined {code : List (SymbolicInsn Nat)} (hcode : S₁.Reads id S₁.length code)
    {p : CpuMemoryLocation × Slot} (hp : Enters p code) : S₁.ReadsUndefined p.1 := by
  obtain ⟨k, i, hi, hread, hearlier⟩ := enters_iff.mp hp
  obtain ⟨hk, hsymbolic⟩ := hcode.get hi
  obtain ⟨opcode, ud, hdecode, rfl⟩ := Subject.symbolic_eq_ok.mp hsymbolic
  obtain ⟨hloc, hslot⟩ := mem_namedSlots.mp hread
  refine ⟨k, hk, opcode, ud, hdecode, hloc, fun pc' hpc' opcode' ud' hdecode' out hout heq => ?_⟩
  have hlen : code.length = S₁.length := by
    rw [← hcode.length_eq, List.length_range]
  have hj : code[pc']? = some code[pc'] := List.getElem?_eq_getElem (by omega)
  obtain ⟨_, hsymbolic'⟩ := hcode.get hj
  obtain ⟨opcode'', ud'', hdecode'', hcode'⟩ := Subject.symbolic_eq_ok.mp hsymbolic'
  rw [hdecode'] at hdecode''
  cases hdecode''
  refine hearlier pc' hpc' _ hj ?_
  rw [hcode']
  exact List.mem_filterMap.mpr ⟨out, hout, heq.trans hslot⟩

end RenamedFunction

/-- **A straight-line function with its registers renamed compares equal.** -/
theorem comparesEqual_renamed (ρ : Renaming) (fuel : Nat) (S₁ S₂ : Subject)
    (htables : S₁.disasm.RegisterClasses) (h₁ : S₁.StraightLine) (hdecoded : S₁.Decoded)
    (h : RenamedFunction ρ fuel S₁ S₂)
    (hfixed : ∀ loc, S₁.ReadsUndefined loc → ρ.loc loc = loc) : ComparesEqual fuel S₁ S₂ := by
  obtain ⟨code, hcode⟩ := hdecoded.exists_reads id (le_refl S₁.length)
  have hnames : ∀ p, Enters p code → ρ.loc p.1 = p.1 :=
    fun p hp => hfixed p.1 (RenamedFunction.readsUndefined hcode hp)
  obtain ⟨hevents, hfinal⟩ : events (code.map (Insn.rename ρ.slot ρ.loc)) (fun _ => none) =
      events code (fun _ => none) ∧ ∀ s, final (code.map (Insn.rename ρ.slot ρ.loc)) (fun _ => none)
        (ρ.slot s) = final code (fun _ => none) s :=
    run_rename ρ.slot_injective (fun _ => rfl) fun p hp _ => hnames p hp
  refine comparesEqual_of_alike h₁ (h.straightLine h₁) hdecoded
    (h.decoded htables h₁ hdecoded) ?_ hcode (h.reads htables h₁ hcode) hevents.symm fun slot hslot => ?_
  · refine ⟨?_, ?_, ?_⟩
    · rintro pc hpc _ _ rfl
      exact ((h.insn pc hpc).opcode .ppc750cl).symm
    · rintro pc hpc _ _ rfl opcode₁ ud₁ opcode₂ ud₂ hdecode₁ hdecode₂ reloc₁ hreloc₁ reloc₂ hreloc₂
      obtain ⟨ud', hdecode', hrel⟩ := h.decode htables h₁ hpc hdecode₁
      have hud : ud' = ud₂ := congrArg Prod.snd (Except.ok.inj (hdecode'.symm.trans hdecode₂))
      subst hud
      obtain ⟨hr₁, hr₂⟩ := hrel.reloc_eq hreloc₁ hreloc₂
      have hsame := h.reloc pc hpc
      rw [hr₁, hr₂] at hsame
      cases hsame with
      | some h => exact h
    · exact congrArg (· - 1) h.length.symm
  · have hsame := hfinal slot
    rw [ρ.slot_returned hslot] at hsame
    exact hsame.symm

/-! ### A copy through another register -/

instance (D : Ppcdisasm) (ρ : Renaming) (insn insn' : Word) : Decidable (RenamedInsn D ρ insn insn') :=
  decidable_of_iff ((D.lookupPowerpc insn' .raw = D.lookupPowerpc insn .raw ∧
      D.lookupPowerpc insn' .ppc750cl = D.lookupPowerpc insn .ppc750cl) ∧
    (isBranch insn' = isBranch insn ∧ isBranchToLR insn' = isBranchToLR insn ∧
      isLink insn' = isLink insn) ∧
    (∀ opcode ∈ D.lookupPowerpc insn .raw, ∀ idx ∈ opcode.operands,
      D.operandValuePowerpc idx insn' .raw =
        ρ.operand (D.powerpcOperands idx) (D.operandValuePowerpc idx insn .raw)) ∧
    (isBranch insn = true → getBO insn' = getBO insn ∧
      D.operandValuePowerpc .BO insn' .raw = D.operandValuePowerpc .BO insn .raw ∧
      D.operandValuePowerpc .BI insn' .raw = ρ.crBit (D.operandValuePowerpc .BI insn .raw)))
    ⟨fun h => ⟨fun dialect => by cases dialect; exacts [h.1.2, h.1.1], h.2.1, h.2.2.1, h.2.2.2⟩,
      fun h => ⟨⟨h.opcode _, h.opcode _⟩, h.kind, h.operands, h.condition⟩⟩

/-- The registers an instruction reads are left alone, or defined before it. -/
def fixedAt (ρ : Renaming) (S : Subject) (pc : Nat) : Bool :=
  returns (S.decode pc) fun r => r.2.inputs.all fun loc => decide (ρ.loc loc = loc) ||
    (List.range pc).any fun pc' => returns (S.decode pc') fun r' =>
      r'.2.outputs.any fun out => decide (out.slot? = loc.slot?)

theorem fixed_of_check {ρ : Renaming} {S : Subject} (h : ∀ pc < S.length, fixedAt ρ S pc = true)
    {loc : CpuMemoryLocation} (hloc : S.ReadsUndefined loc) : ρ.loc loc = loc := by
  obtain ⟨pc, hpc, opcode, ud, hdecode, hin, hearlier⟩ := hloc
  have hcheck := h pc hpc
  rw [fixedAt, hdecode] at hcheck
  have hall := List.all_eq_true.mp hcheck loc hin
  rcases Bool.or_eq_true_iff.mp hall with hfixed | hany
  · exact of_decide_eq_true hfixed
  · obtain ⟨pc', hpc', hret⟩ := List.any_eq_true.mp hany
    obtain ⟨r', hdecode', hout⟩ := exists_ok hret
    obtain ⟨out, hmem, hslot⟩ := List.any_eq_true.mp hout
    exact absurd (of_decide_eq_true hslot)
      (hearlier pc' (List.mem_range.mp hpc') r'.1 r'.2 hdecode' out hmem)

theorem decoded_of_check {S : Subject} (h : ∀ pc < S.length, DataFlowAnalysis.supportedAt S pc = true) :
    S.Decoded := by
  intro pc hpc
  obtain ⟨r, hdecode, hall⟩ := exists_ok (h pc hpc)
  exact ⟨r.1, r.2, hdecode, fun loc hloc => List.all_eq_true.mp hall loc hloc⟩

theorem Excerpt.ppcdisasm_registerClasses : Excerpt.ppcdisasm.RegisterClasses where
  base idx h := by
    rcases h with rfl | rfl
    · exact .inr (by decide)
    · exact .inr (by decide)
  zero idx h := by
    change OperandFlag.GPR_0 ∈ Excerpt.flags idx at h
    have hflags : Excerpt.ppcdisasm.powerpcOperands idx = [.GPR_0] := by
      change Excerpt.flags idx = [.GPR_0]
      unfold Excerpt.flags at h ⊢
      split at h <;> first | rfl | simp at h
    rw [hflags]
    decide

/-- r6 and r7 change places. -/
def swapR6R7 : Renaming where
  gpr := Equiv.swap 6 7
  fpr := id
  crField := id
  gpr_injective := (Equiv.swap 6 7).injective
  fpr_injective := Function.injective_id
  crField_injective := Function.injective_id
  gpr_fixed := by decide
  fpr_fixed := rfl
  crField_fixed := ⟨rfl, rfl⟩

theorem comparesEqual_renamed_copyWord :
    ComparesEqual 1 Analysed.copyWord Analysed.copyWordRenamed := by
  refine comparesEqual_renamed swapR6R7 1 _ _ Excerpt.ppcdisasm_registerClasses
    (Analysed.straightLine_of_check (by decide +kernel)) (decoded_of_check (by decide +kernel)) ?_
    fun loc => fixed_of_check (by decide +kernel)
  exact ⟨rfl, rfl, by decide +kernel, fun _ _ => .none⟩

end Ppc2cpp
