import Ppc2cpp.DataFlow.OperandUD
import Ppc2cpp.Isa.Cpu

/-! The register operands of the disassembler's tables in raw mode.

`ppcdisasm` is not part of the code, so what its tables say is a hypothesis (`RawTables`): for
every supported form the register operands of its entry, in their order, with the flags and
the field of each. Between them stand operands that name no register, about which nothing is
assumed. From it follow the registers an instruction lists (`instructionUD_registers`). -/
namespace Ppc2cpp
open Isa

/-- The register operands, under the disassembler's names. `RA0`, `RAL` and `RAS` are the base
of a plain address, of a load with update, and of a store or a floating point load with
update. -/
inductive RawOperand where
  | RT | RS | RA | RB | RA0 | RAL | RAS | FRT | FRS | FRA | FRB | FRC | BF | BFA | BT | BA | BB
  | SPR | PSQ
deriving DecidableEq, Repr

namespace RawOperand

def flags : RawOperand → List OperandFlag
  | RT | RS | RA | RB => [.GPR]
  | RA0 | RAL | RAS => [.GPR_0]
  | FRT | FRS | FRA | FRB | FRC => [.FPR]
  | BF | BFA => [.CR_REG]
  | BT | BA | BB => [.CR_BIT]
  | SPR => [.SPR]
  | PSQ => [.GQR]

/-- The field of an operand. -/
def value (insn : Word) : RawOperand → Nat
  | RT => Isa.RT insn
  | RS => Isa.RS insn
  | RA | RA0 | RAL | RAS => Isa.RA insn
  | RB => Isa.RB insn
  | FRT => Isa.FRT insn
  | FRS => Isa.FRS insn
  | FRA => Isa.FRA insn
  | FRB => Isa.FRB insn
  | FRC => Isa.FRC insn
  | BF => Isa.BF insn
  | BFA => Isa.BFA insn
  | BT => Isa.BT insn
  | BA => Isa.BA insn
  | BB => Isa.BB insn
  | SPR => Isa.SPR insn
  | PSQ => Isa.PSQ insn

def fieldRegisters (field : Fin 8) : List Register :=
  [.crField field 0, .crField field 1, .crField field 2, .crField field 3]

def baseRegisters (insn : Word) : List Register :=
  if Isa.RA insn = 0 then [] else [.gpr (Isa.RA insn)]

/-- The registers an operand of a word names. -/
def registers (insn : Word) : RawOperand → List Register
  | RT => [.gpr (Isa.RT insn)]
  | RS => [.gpr (Isa.RS insn)]
  | RA => [.gpr (Isa.RA insn)]
  | RB => [.gpr (Isa.RB insn)]
  | RA0 | RAL | RAS => baseRegisters insn
  | FRT => [.fpr (Isa.FRT insn)]
  | FRS => [.fpr (Isa.FRS insn)]
  | FRA => [.fpr (Isa.FRA insn)]
  | FRB => [.fpr (Isa.FRB insn)]
  | FRC => [.fpr (Isa.FRC insn)]
  | BF => fieldRegisters (Isa.BF insn)
  | BFA => fieldRegisters (Isa.BFA insn)
  | BT => [.crBit (Isa.BT insn)]
  | BA => [.crBit (Isa.BA insn)]
  | BB => [.crBit (Isa.BB insn)]
  | SPR => [.spr (Isa.SPR insn)]
  | PSQ => [.gqr (Isa.PSQ insn)]

end RawOperand

/-- The register operands of a form in raw mode. -/
def rawOperands : Form → List RawOperand
  | .ADD | .ADD_ | .ADDO | .ADDO_ | .ADDC | .ADDC_ | .ADDCO | .ADDCO_ | .ADDE | .ADDE_ | .ADDEO
  | .ADDEO_ | .SUBF | .SUBF_ | .SUBFO | .SUBFO_ | .SUBFC | .SUBFC_ | .SUBFCO | .SUBFCO_ | .SUBFE
  | .SUBFE_ | .SUBFEO | .SUBFEO_ | .MULLW | .MULLW_ | .MULLWO | .MULLWO_ | .MULHW | .MULHW_
  | .MULHWU | .MULHWU_ | .DIVW | .DIVW_ | .DIVWO | .DIVWO_ | .DIVWU | .DIVWU_ | .DIVWUO | .DIVWUO_ =>
    [.RT, .RA, .RB]
  | .ADDME | .ADDME_ | .ADDMEO | .ADDMEO_ | .ADDZE | .ADDZE_ | .ADDZEO | .ADDZEO_ | .SUBFME
  | .SUBFME_ | .SUBFMEO | .SUBFMEO_ | .SUBFZE | .SUBFZE_ | .SUBFZEO | .SUBFZEO_ | .NEG | .NEG_
  | .NEGO | .NEGO_ | .ADDIC | .ADDIC_ | .SUBFIC | .MULLI =>
    [.RT, .RA]
  | .ADDI | .ADDIS => [.RT, .RA0]
  | .AND | .AND_ | .ANDC | .ANDC_ | .OR | .OR_ | .ORC | .ORC_ | .XOR | .XOR_ | .EQV | .EQV_ | .NAND
  | .NAND_ | .NOR | .NOR_ | .SLW | .SLW_ | .SRW | .SRW_ | .SRAW | .SRAW_ | .RLWNM | .RLWNM_ =>
    [.RA, .RS, .RB]
  | .ANDI_ | .ANDIS_ | .ORI | .ORIS | .XORI | .XORIS | .CNTLZW | .CNTLZW_ | .EXTSB | .EXTSB_
  | .EXTSH | .EXTSH_ | .SRAWI | .SRAWI_ | .RLWINM | .RLWINM_ | .RLWIMI | .RLWIMI_ =>
    [.RA, .RS]
  | .CMP | .CMPL => [.BF, .RA, .RB]
  | .CMPI | .CMPLI => [.BF, .RA]
  | .CRAND | .CRANDC | .CREQV | .CRNAND | .CRNOR | .CROR | .CRORC | .CRXOR => [.BT, .BA, .BB]
  | .MCRF => [.BF, .BFA]
  | .MFSPR => [.RT, .SPR]
  | .MTSPR => [.SPR, .RS]
  | .FADD | .FADD_ | .FADDS | .FADDS_ | .FSUB | .FSUB_ | .FSUBS | .FSUBS_ | .FDIV | .FDIV_ | .FDIVS
  | .FDIVS_ =>
    [.FRT, .FRA, .FRB]
  | .FMUL | .FMUL_ | .FMULS | .FMULS_ => [.FRT, .FRA, .FRC]
  | .FMADD | .FMADD_ | .FMSUB | .FMSUB_ | .FNMADD | .FNMADD_ | .FNMSUB | .FNMSUB_ | .FMADDS
  | .FMADDS_ | .FMSUBS | .FMSUBS_ | .FNMADDS | .FNMADDS_ | .FNMSUBS | .FNMSUBS_ | .FSEL | .FSEL_ =>
    [.FRT, .FRA, .FRC, .FRB]
  | .FMR | .FMR_ | .FNEG | .FNEG_ | .FABS | .FABS_ | .FNABS | .FNABS_ | .FCTIW | .FCTIW_ | .FCTIWZ
  | .FCTIWZ_ | .FRSQRTE | .FRSQRTE_ | .FSQRT | .FSQRT_ | .FRES | .FRES_ | .FRSP | .FRSP_ | .FSQRTS
  | .FSQRTS_ =>
    [.FRT, .FRB]
  | .FCMPO | .FCMPU => [.BF, .FRA, .FRB]
  | .LBZ | .LHZ | .LHA | .LWZ | .LSWI => [.RT, .RA0]
  | .LBZX | .LHZX | .LHAX | .LWZX | .LHBRX | .LWBRX | .LSWX => [.RT, .RA0, .RB]
  | .LBZU | .LHZU | .LHAU | .LWZU => [.RT, .RAL]
  | .LBZUX | .LHZUX | .LHAUX | .LWZUX => [.RT, .RAL, .RB]
  | .LFS | .LFD => [.FRT, .RA0]
  | .LFSX | .LFDX => [.FRT, .RA0, .RB]
  | .LFSU | .LFDU => [.FRT, .RAS]
  | .LFSUX | .LFDUX => [.FRT, .RAS, .RB]
  | .PSQ_L => [.FRT, .RA, .PSQ]
  | .STB | .STH | .STW | .STSWI => [.RS, .RA0]
  | .STBX | .STHX | .STWX | .STHBRX | .STWBRX | .STSWX => [.RS, .RA0, .RB]
  | .STBU | .STHU | .STWU => [.RS, .RAS]
  | .STBUX | .STHUX | .STWUX => [.RS, .RAS, .RB]
  | .STFS | .STFD => [.FRS, .RA0]
  | .STFSX | .STFDX | .STFIWX => [.FRS, .RA0, .RB]
  | .STFSU | .STFDU => [.FRS, .RAS]
  | .STFSUX | .STFDUX => [.FRS, .RAS, .RB]
  | .PSQ_ST => [.FRS, .RA, .PSQ]
  | .B | .BA | .BC | .BCA | .BCCTR | .BCCTRL | .BCL | .BCLA | .BCLR | .BCLRL | .BL | .BLA
  | .unlisted => []

/-- An operand that names a register, or may. -/
def namesRegister (flags : List OperandFlag) : Bool :=
  [OperandFlag.GPR, .GPR_0, .FPR, .GQR, .CR_BIT, .SPR, .CR_REG].any (· ∈ flags)

/-- What the disassembler's tables say of register operands in raw mode; `index` is the place
of an operand in the operand table. -/
structure Ppcdisasm.RawTables (D : Ppcdisasm) (index : RawOperand → OperandIdx) : Prop where
  load_base : ∀ o, index o = .RAL ↔ o = .RAL
  store_base : ∀ o, index o = .RAS ↔ o = .RAS
  flags : ∀ o, D.powerpcOperands (index o) = o.flags
  value : ∀ o insn, D.operandValuePowerpc (index o) insn .raw = o.value insn
  operands : ∀ insn opcode, D.lookupPowerpc insn .raw = some opcode →
    opcode.opcode ∈ nonStoreInsn ++ storeInsn →
    opcode.operands.filter (fun idx => namesRegister (D.powerpcOperands idx)) =
      (rawOperands opcode.opcode).map index

/-! ### The registers an instruction lists -/

/-- The registers locations name. -/
def registersOf (locs : List CpuMemoryLocation) : List Register := locs.filterMap (·.register?)

@[simp] theorem registersOf_append (a b : List CpuMemoryLocation) :
    registersOf (a ++ b) = registersOf a ++ registersOf b := List.filterMap_append

/-- What the operands of an instruction make inputs; `first` if no register came before. -/
def listedInputs (insn : Word) (nonStore : Bool) : Bool → List RawOperand → List Register
  | _, [] => []
  | first, o :: rest =>
    (if nonStore && first then [] else o.registers insn) ++
      listedInputs insn nonStore (first && (o.registers insn).isEmpty) rest

def listedOutputs (insn : Word) (nonStore : Bool) : Bool → List RawOperand → List Register
  | _, [] => []
  | first, o :: rest =>
    (if nonStore && first then o.registers insn else []) ++
      (if o = .RAL ∨ o = .RAS then o.registers insn else []) ++
        listedOutputs insn nonStore (first && (o.registers insn).isEmpty) rest

theorem register?_crField (field : Fin 8) (bit : Fin 4) :
    (⟨.CR_BIT, 4 * ((field : Nat) : Int) + ((bit : Nat) : Int)⟩ : CpuMemoryLocation).register? =
      some (.crField field bit) := by
  have hcast : 4 * ((field : Nat) : Int) + ((bit : Nat) : Int) =
      (((⟨4 * field + bit, by omega⟩ : Fin 32) : Nat) : Int) := by push_cast; rfl
  show Register.ofIndex .crBit _ = _
  rw [hcast, Register.ofIndex_val]
  rfl

theorem registersOf_appendCRRegister (field : Fin 8) :
    registersOf (appendCRRegister [] ((field : Nat) : Int)) = RawOperand.fieldRegisters field := by
  have hloc : appendCRRegister [] ((field : Nat) : Int) =
      ([0, 1, 2, 3] : List (Fin 4)).map fun bit =>
        ⟨.CR_BIT, 4 * ((field : Nat) : Int) + ((bit : Nat) : Int)⟩ := by
    simp [appendCRRegister]
  rw [hloc, registersOf, List.filterMap_map]
  simp only [Function.comp_def, register?_crField]
  rfl

namespace RawOperand

theorem isOperandRegister_raw (insn : Word) (o : RawOperand) :
    isOperandRegister o.flags (o.value insn) = !(o.registers insn).isEmpty := by
  have hbase : (((Isa.RA insn : Fin 32) : Nat) : Int) ≠ 0 ↔ ¬ Isa.RA insn = 0 := by
    rw [Ne, Nat.cast_eq_zero, Fin.val_eq_zero_iff]
  cases o
  case RA0 | RAL | RAS =>
    by_cases h : Isa.RA insn = 0
    · simp [isOperandRegister, flags, value, registers, baseRegisters, h]
    · simp [isOperandRegister, flags, value, registers, baseRegisters, h]
  all_goals rfl

/-- The locations an operand appends are its registers. -/
theorem appendOperands_raw (insn : Word) (o : RawOperand)
    (h : isOperandRegister o.flags (o.value insn) = true) :
    ∃ locs, appendOperands [] o.flags (o.value insn) = .ok locs ∧
      registersOf locs = o.registers insn := by
  rw [isOperandRegister_raw] at h
  cases o
  case BF => exact ⟨_, rfl, registersOf_appendCRRegister _⟩
  case BFA => exact ⟨_, rfl, registersOf_appendCRRegister _⟩
  case RA0 | RAL | RAS =>
    by_cases hra : Isa.RA insn = 0
    · simp [registers, baseRegisters, hra] at h
    · refine ⟨[⟨.GPR, (Isa.RA insn : Nat)⟩], ?_, ?_⟩
      · simp [appendOperands, flags, value, hra]
      · simp [registersOf, CpuMemoryLocation.register?, registers, baseRegisters, hra]
  all_goals exact ⟨_, rfl, by simp [registersOf, CpuMemoryLocation.register?, registers, value]⟩

/-- The base of an update form. -/
theorem registersOf_base {insn : Word} {o : RawOperand} (hbase : o = .RAL ∨ o = .RAS)
    (h : isOperandRegister o.flags (o.value insn) = true) :
    registersOf [⟨.GPR, o.value insn⟩] = o.registers insn := by
  rw [isOperandRegister_raw] at h
  have hra : Isa.RA insn ≠ 0 := by
    rintro hra
    rcases hbase with rfl | rfl <;> simp [registers, baseRegisters, hra] at h
  rcases hbase with rfl | rfl <;>
    simp [registersOf, CpuMemoryLocation.register?, registers, baseRegisters, value, hra]

end RawOperand

section
variable {D : Ppcdisasm} {index : RawOperand → OperandIdx} {insn : Word} {opcode : Opcode}
  {reloc : Option Relocation}

/-- An operand that names no register lists none. -/
theorem operandUD_immediate {idx : OperandIdx} {first : Bool} {added : InstructionUD}
    (hnot : namesRegister (D.powerpcOperands idx) = false)
    (hok : operandUD D insn opcode .raw reloc idx first = .ok added) :
    added.inputs = [] ∧ added.outputs = [] ∧
      isOperandRegister (D.powerpcOperands idx) (D.operandValuePowerpc idx insn .raw) = false := by
  have hreg : isOperandRegister (D.powerpcOperands idx)
      (D.operandValuePowerpc idx insn .raw) = false := by
    simp only [namesRegister, List.any_cons, List.any_nil, Bool.or_false, Bool.or_eq_false_iff] at hnot
    simp [isOperandRegister, hnot]
  refine ⟨?_, ?_, hreg⟩ <;>
  · unfold operandUD at hok
    simp only [hreg, Bool.false_eq_true, if_false] at hok
    split_ifs at hok <;> (try split at hok) <;> cases hok <;> rfl

/-- An operand of the table lists its registers. -/
theorem operandUD_raw (h : D.RawTables index) {o : RawOperand} {first : Bool} {added : InstructionUD}
    (hok : operandUD D insn opcode .raw reloc (index o) first = .ok added) :
    registersOf added.inputs =
        (if decide (opcode.opcode ∈ nonStoreInsn) && first then [] else o.registers insn) ∧
      registersOf added.outputs =
        (if decide (opcode.opcode ∈ nonStoreInsn) && first then o.registers insn else []) ++
          (if o = .RAL ∨ o = .RAS then o.registers insn else []) := by
  unfold operandUD at hok
  simp only [h.flags, h.value] at hok
  cases hreg : isOperandRegister o.flags (o.value insn) with
  | false =>
    have hnone : o.registers insn = [] := by
      rw [RawOperand.isOperandRegister_raw, Bool.not_eq_false'] at hreg
      exact List.isEmpty_iff.mp hreg
    simp only [hreg, Bool.false_eq_true, if_false] at hok
    rw [hnone]
    split_ifs at hok <;> (try split at hok) <;> cases hok <;> simp [registersOf]
  | true =>
    obtain ⟨locs, hlocs, hregs⟩ := RawOperand.appendOperands_raw insn o hreg
    simp only [hreg, if_true, hlocs, Except.map, h.load_base, h.store_base] at hok
    cases hok
    have hupdate : registersOf (if o = .RAL ∨ o = .RAS then
        [(⟨.GPR, o.value insn⟩ : CpuMemoryLocation)] else []) =
        if o = .RAL ∨ o = .RAS then o.registers insn else [] := by
      split
      · rename_i hbase
        exact RawOperand.registersOf_base hbase hreg
      · rfl
    by_cases hout : opcode.opcode ∈ nonStoreInsn ∧ first = true
    · have hdecide : (decide (opcode.opcode ∈ nonStoreInsn) && first) = true := by simp [hout]
      rw [if_pos hout, if_pos hdecide, if_pos hdecide]
      exact ⟨rfl, by rw [registersOf_append, hregs, hupdate]⟩
    · have hdecide : ¬ (decide (opcode.opcode ∈ nonStoreInsn) && first) = true := by simpa using hout
      rw [if_neg hout, if_neg hdecide, if_neg hdecide]
      exact ⟨hregs, hupdate⟩

/-- **The registers the loop over the operands lists.** -/
theorem operandsUD_registers (h : D.RawTables index) {ops : List RawOperand}
    {operands : List OperandIdx} {n : Nat} {ud out : InstructionUD}
    (hops : operands.filter (fun idx => namesRegister (D.powerpcOperands idx)) = ops.map index)
    (hok : operandsUD D insn opcode .raw reloc operands n ud = .ok out) :
    registersOf out.inputs = registersOf ud.inputs ++
        listedInputs insn (decide (opcode.opcode ∈ nonStoreInsn)) (n == 0) ops ∧
      registersOf out.outputs = registersOf ud.outputs ++
        listedOutputs insn (decide (opcode.opcode ∈ nonStoreInsn)) (n == 0) ops := by
  induction operands generalizing n ud ops with
  | nil =>
    rw [operandsUD] at hok
    cases hok
    rw [List.filter_nil] at hops
    rw [List.map_eq_nil_iff.mp hops.symm]
    exact ⟨(List.append_nil _).symm, (List.append_nil _).symm⟩
  | cons idx rest ih =>
    rw [operandsUD_cons, bind_eq_ok] at hok
    obtain ⟨added, hadded, hok⟩ := hok
    cases hnames : namesRegister (D.powerpcOperands idx) with
    | false =>
      rw [List.filter_cons, hnames, if_neg Bool.false_ne_true] at hops
      obtain ⟨hin, hout, hreg⟩ := operandUD_immediate hnames hadded
      have hafter : registersAfter D insn .raw idx n = n := by
        rw [registersAfter, hreg, if_neg Bool.false_ne_true]
      rw [hafter] at hok
      obtain ⟨hinputs, houtputs⟩ := ih hops hok
      rw [hinputs, houtputs, InstructionUD.append, hin, hout, List.append_nil, List.append_nil]
      exact ⟨rfl, rfl⟩
    | true =>
      rw [List.filter_cons, hnames, if_pos rfl] at hops
      obtain ⟨o, ops', rfl, rfl, hops'⟩ := List.map_eq_cons_iff.mp hops.symm
      obtain ⟨hin, hout⟩ := operandUD_raw h hadded
      have hafter : (registersAfter D insn .raw (index o) n == 0) =
          ((n == 0) && (o.registers insn).isEmpty) := by
        rw [registersAfter, h.flags, h.value, RawOperand.isOperandRegister_raw]
        cases (o.registers insn).isEmpty
        · simp
        · simp
      obtain ⟨hinputs, houtputs⟩ := ih hops'.symm hok
      rw [hinputs, houtputs, hafter, InstructionUD.append, registersOf_append, registersOf_append,
        hin, hout, List.append_assoc, List.append_assoc]
      exact ⟨rfl, rfl⟩

/-- The registers of the condition register an instruction sets without naming them. -/
def implicitRegisters (form : Form) : List Register :=
  (if form ∈ setsCR0 then RawOperand.fieldRegisters 0 else []) ++
    (if form ∈ setsCR1 then RawOperand.fieldRegisters 1 else [])

theorem registersOf_implicitOutputs (form : Form) :
    registersOf (implicitOutputs form) = implicitRegisters form := by
  have h0 := registersOf_appendCRRegister 0
  have h1 := registersOf_appendCRRegister 1
  rw [implicitOutputs, implicitRegisters, registersOf_append]
  congr 1
  · split
    · exact h0
    · rfl
  · split
    · exact h1
    · rfl

/-- **The registers an instruction lists.** -/
theorem instructionUD_registers (h : D.RawTables index) {ud : InstructionUD}
    (hlookup : D.lookupPowerpc insn .raw = some opcode) (hplain : isBranch insn = false)
    (hform : opcode.opcode ∈ nonStoreInsn ++ storeInsn)
    (hok : instructionUD D insn opcode .raw reloc = .ok ud) :
    registersOf ud.inputs = listedInputs insn (decide (opcode.opcode ∈ nonStoreInsn)) true
        (rawOperands opcode.opcode) ∧
      registersOf ud.outputs = listedOutputs insn (decide (opcode.opcode ∈ nonStoreInsn)) true
        (rawOperands opcode.opcode) ++ implicitRegisters opcode.opcode := by
  rw [instructionUD_plain hplain (instructionUD_supported hok)] at hok
  cases hoperands : operandsUD D insn opcode .raw reloc opcode.operands 0 {} with
  | error => rw [hoperands] at hok; cases hok
  | ok operands =>
    rw [hoperands] at hok
    cases hok
    obtain ⟨hin, hout⟩ := operandsUD_registers h (h.operands insn opcode hlookup hform) hoperands
    show registersOf (operands.inputs ++ []) = _ ∧
      registersOf (operands.outputs ++ implicitOutputs opcode.opcode) = _
    rw [List.append_nil, registersOf_append, hin, hout, registersOf_implicitOutputs]
    exact ⟨rfl, rfl⟩

end

end Ppc2cpp
