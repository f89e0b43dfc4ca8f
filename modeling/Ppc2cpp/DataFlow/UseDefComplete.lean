import Ppc2cpp.DataFlow.UnlistedRegisters

/-! When the use-define information of an instruction is complete.

The information is read off the disassembler's operands (`instructionUD`), completeness is
about executing the word (`execute`), and the two meet in the formats: an instruction that is
not a branch is complete unless it is one of the exceptions (`useDefComplete_iff`). -/
namespace Ppc2cpp
open Isa

/-- Use-define information is complete: two states that agree on the listed inputs and on
memory agree on the listed outputs after the instruction, and nothing else changes but the
exception and the status and control register. -/
def UseDefComplete (P : Processor) (form : Form) (insn : Word) (ud : InstructionUD) : Prop :=
  UseDefine.Complete Exempt (registersOf ud.inputs) (registersOf ud.outputs) (execute P form insn)

/-- The instructions that read or write a register they do not list: record forms, which copy a
summary bit of a status register, and the formats that name their exception. -/
def Unlisted (P : Processor) (form : Form) (insn : Word) : Prop :=
  form ∈ integerRecord ∨ form ∈ floatRecord ∨
    ∃ fmt, format form = some fmt ∧ fmt.Unlisted P insn

theorem setsCR0_integerRecord : ∀ form ∈ setsCR0, form ∈ integerRecord := by decide

theorem setsCR1_floatRecord : ∀ form ∈ setsCR1, form ∈ floatRecord := by decide

theorem record_format : ∀ form ∈ integerRecord ++ floatRecord, (format form).isSome = true := by
  decide

theorem unlisted_of_none {P : Processor} {form : Form} {insn : Word} (h : format form = none) :
    ¬ Unlisted P form insn := by
  have hrecord : form ∉ integerRecord ++ floatRecord := by
    intro hmem
    have hsome := record_format form hmem
    rw [h] at hsome
    cases hsome
  rw [List.mem_append, not_or] at hrecord
  rintro (hint | hfloat | ⟨fmt, hfmt, -⟩)
  · exact hrecord.1 hint
  · exact hrecord.2 hfloat
  · rw [h] at hfmt
    cases hfmt

/-! ### Two instructions -/

namespace RawOperand

/-- The operands in the order of a table. -/
def all : List RawOperand :=
  [RT, RS, RA, RB, RA0, RAL, RAS, FRT, FRS, FRA, FRB, FRC, BF, BFA, BT, BA, BB, SPR, PSQ]

def place : RawOperand → OperandIdx
  | RAL => .RAL
  | RAS => .RAS
  | o => .other (all.idxOf o)

def atPlace : OperandIdx → Option RawOperand
  | .RAL => some RAL
  | .RAS => some RAS
  | .other n => all[n]?
  | _ => none

theorem atPlace_place (o : RawOperand) : atPlace o.place = some o := by
  cases o <;> rfl

end RawOperand

def addOpcode : Opcode := ⟨0, .ADD, "add", (rawOperands .ADD).map RawOperand.place⟩

def addeOpcode : Opcode := ⟨1, .ADDE, "adde", (rawOperands .ADDE).map RawOperand.place⟩

/-- Tables with two words in them, `add r3, r4, r5` and `adde r3, r4, r5`. -/
def additionTables : Ppcdisasm where
  lookupPowerpc insn _ :=
    if insn = 0x7C642A14 then some addOpcode
    else if insn = 0x7C642914 then some addeOpcode
    else none
  operandNumber _ := 0
  powerpcOperands idx := ((RawOperand.atPlace idx).map RawOperand.flags).getD []
  operandValuePowerpc idx insn _ :=
    ((RawOperand.atPlace idx).map fun o => (o.value insn : Int)).getD 0

theorem additionTables_raw : additionTables.RawTables RawOperand.place where
  load_base o := by cases o <;> decide
  store_base o := by cases o <;> decide
  flags o := by
    show ((RawOperand.atPlace o.place).map RawOperand.flags).getD [] = o.flags
    rw [RawOperand.atPlace_place]
    rfl
  value o insn := by
    show ((RawOperand.atPlace o.place).map fun o => (o.value insn : Int)).getD 0 = o.value insn
    rw [RawOperand.atPlace_place]
    rfl
  operands insn opcode hlookup _ := by
    simp only [additionTables] at hlookup
    split_ifs at hlookup
    · cases hlookup
      decide
    · cases hlookup
      decide

/-- A processor all of whose floating point exceptions are enabled and taken. -/
def trappingProcessor : Processor where
  pairedSingle := false
  toDouble _ := 0
  toSingle _ := 0
  compare _ _ := ⟨false, false, false, true⟩
  arithmetic _ _ _ := none
  status _ _ fpscr := fpscr
  conversionHigh := 0xFFF80000
  dequantize _ _ _ _ := (0, 0)
  quantize _ _ _ := []

def additionUD : InstructionUD := {inputs := [⟨.GPR, 4⟩, ⟨.GPR, 5⟩], outputs := [⟨.GPR, 3⟩]}

theorem additionTables_add :
    additionTables.lookupPowerpc 0x7C642A14 .raw = some addOpcode ∧
      instructionUD additionTables 0x7C642A14 addOpcode .raw none = .ok additionUD :=
  ⟨rfl, by decide⟩

theorem additionTables_adde :
    additionTables.lookupPowerpc 0x7C642914 .raw = some addeOpcode ∧
      instructionUD additionTables 0x7C642914 addeOpcode .raw none = .ok additionUD :=
  ⟨rfl, by decide⟩

/-! ### The exceptions are all there are -/

/-- **When use-define information is complete.** -/
theorem useDefComplete_iff {D : Ppcdisasm} {index : RawOperand → OperandIdx} (h : D.RawTables index)
    (P : Processor) {insn : Word} {opcode : Opcode} {reloc : Option Relocation} {ud : InstructionUD}
    (hlookup : D.lookupPowerpc insn .raw = some opcode) (hplain : isBranch insn = false)
    (hok : instructionUD D insn opcode .raw reloc = .ok ud) :
    UseDefComplete P opcode.opcode insn ud ↔ ¬ Unlisted P opcode.opcode insn := by
  have hsupported := instructionUD_supported hok
  cases hfmt : format opcode.opcode with
  | none =>
    refine iff_of_true (UseDefine.complete_of_none fun cpu => ?_) (unlisted_of_none hfmt)
    rw [execute, effect, hfmt]
    rfl
  | some fmt =>
    obtain ⟨hin, hout⟩ :=
      instructionUD_registers h hlookup hplain (format_supported hsupported hfmt) hok
    rw [rawOperands_format hfmt, nonStore_format hsupported hfmt] at hin hout
    have hrun : execute P opcode.opcode insn = fun cpu =>
        (fmt.effect P opcode.opcode insn cpu).map (·.apply cpu) := by
      funext cpu
      rw [execute, effect, hfmt]
      rfl
    rw [UseDefComplete, hin, hout, hrun]
    constructor
    · rintro hcomplete (hint | hfloat | ⟨fmt', hfmt', hunlisted⟩)
      · exact Format.integerRecord_not_complete hfmt hint hcomplete
      · exact Format.floatRecord_not_complete hfmt hfloat hcomplete
      · cases hfmt.symm.trans hfmt'
        exact Format.not_complete_of_unlisted hfmt hunlisted hcomplete
    · intro hlisted
      have hint : opcode.opcode ∉ integerRecord := fun hint => hlisted (.inl hint)
      have hfloat : opcode.opcode ∉ floatRecord := fun hfloat => hlisted (.inr (.inl hfloat))
      have himplicit : implicitRegisters opcode.opcode = [] := by
        rw [implicitRegisters, if_neg fun h0 => hint (setsCR0_integerRecord _ h0),
          if_neg fun h1 => hfloat (setsCR1_floatRecord _ h1)]
        rfl
      rw [himplicit, List.append_nil]
      exact Format.complete_of_listed fmt hint hfloat fun hunlisted =>
        hlisted (.inr (.inr ⟨fmt, hfmt, hunlisted⟩))

theorem useDefComplete_iff_add :
    UseDefComplete trappingProcessor .ADD 0x7C642A14 additionUD ↔
      ¬ Unlisted trappingProcessor .ADD 0x7C642A14 :=
  useDefComplete_iff additionTables_raw trappingProcessor additionTables_add.1 (by decide)
    additionTables_add.2

/-- **The carry is not listed.** `adde r3, r4, r5` lists `r4` and `r5`; from two states that
differ in the carry alone it leaves two values in `r3`. -/
theorem adde_not_useDefComplete :
    additionTables.RawTables RawOperand.place ∧
      additionTables.lookupPowerpc 0x7C642914 .raw = some addeOpcode ∧
      isBranch 0x7C642914 = false ∧
      instructionUD additionTables 0x7C642914 addeOpcode .raw none = .ok additionUD ∧
      ¬ UseDefComplete trappingProcessor .ADDE 0x7C642914 additionUD := by
  refine ⟨additionTables_raw, additionTables_adde.1, by decide, additionTables_adde.2, ?_⟩
  refine UseDefine.not_complete_of_differ (s := sample 0 0 0 0 0 0)
    (t := sample 0 0 0 0x20000000 0 0) rfl ?_ rfl rfl (r := .gpr 3) (.inl (by decide)) ?_
  · intro r hr
    refine sample_xer_agree _ _ _ _ _ _ _ ?_
    rintro rfl
    exact absurd hr (by decide)
  · intro heq
    have htarget : (sum 0 0 false).value ≠ (sum 0 0 true).value := by decide
    exact htarget heq

end Ppc2cpp
