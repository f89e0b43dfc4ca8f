import Ppc2cpp.DataFlow.RawOperands
import Ppc2cpp.Isa.Execute

/-! The formats that list every register they read and write.

The operands of a format are those of the disassembler's table (`rawOperands_format`), so what
an instruction lists can be read off its format. `Format.Unlisted` names the exceptions: the
formats, and the fields of a word, with which an instruction reads or writes a register that
is not listed. All other formats are complete (`complete_of_listed`). -/
namespace Ppc2cpp
open Isa UseDefine

/-! ### The operands of a format -/

namespace Isa

def IntegerShape.operands : IntegerShape → List RawOperand
  | rtRaRb => [.RT, .RA, .RB]
  | rtRa | rtRaSi => [.RT, .RA]
  | rtRa0Si => [.RT, .RA0]
  | raRsRb => [.RA, .RS, .RB]
  | raRs | raRsUi | raRsSh => [.RA, .RS]

def CompareShape.operands : CompareShape → List RawOperand
  | rb => [.BF, .RA, .RB]
  | si | ui => [.BF, .RA]

def FloatShape.rawOperands : FloatShape → List RawOperand
  | ab => [.FRT, .FRA, .FRB]
  | ac => [.FRT, .FRA, .FRC]
  | acb => [.FRT, .FRA, .FRC, .FRB]
  | b => [.FRT, .FRB]

/-- The operands of an address; `base` is the operand of an updated base. -/
def AddressMode.operands (base : RawOperand) : AddressMode → List RawOperand
  | d => [.RA0]
  | x => [.RA0, .RB]
  | du => [base]
  | xu => [base, .RB]

namespace Format

def operands : Format → List RawOperand
  | integer shape _ | extended shape _ => shape.operands
  | rlwinm | rlwimi => [.RA, .RS]
  | rlwnm => [.RA, .RS, .RB]
  | compare shape _ => shape.operands
  | crLogic _ => [.BT, .BA, .BB]
  | mcrf => [.BF, .BFA]
  | mfspr => [.RT, .SPR]
  | mtspr => [.SPR, .RS]
  | floatMove _ => [.FRT, .FRB]
  | fsel => [.FRT, .FRA, .FRC, .FRB]
  | floatArithmetic shape _ => shape.rawOperands
  | fcmp => [.BF, .FRA, .FRB]
  | load mode _ => .RT :: mode.operands .RAL
  | loadFloat mode _ => .FRT :: mode.operands .RAS
  | lswi => [.RT, .RA0]
  | lswx => [.RT, .RA0, .RB]
  | psqL => [.FRT, .RA, .PSQ]
  | store mode _ _ => .RS :: mode.operands .RAS
  | storeFloat mode _ _ => .FRS :: mode.operands .RAS
  | stswi => [.RS, .RA0]
  | stswx => [.RS, .RA0, .RB]
  | psqSt => [.FRS, .RA, .PSQ]

def nonStore : Format → Bool
  | store .. | storeFloat .. | stswi | stswx | psqSt => false
  | _ => true

end Format
end Isa

/-- The table of the disassembler and the formats have the same operands. -/
theorem rawOperands_format {form : Form} {fmt : Format} (h : format form = some fmt) :
    rawOperands form = fmt.operands := by
  cases form <;> cases h <;> rfl

theorem format_nonStoreInsn : ∀ form ∈ nonStoreInsn, (format form).all (·.nonStore) = true := by
  decide +kernel

theorem format_storeInsn : ∀ form ∈ storeInsn, (format form).all (!·.nonStore) = true := by decide

theorem format_branchInsn : ∀ form ∈ branchInsn, (format form).isNone = true := by decide

theorem format_supported {form : Form} {fmt : Format} (hform : form ∈ supportedInsn)
    (h : format form = some fmt) : form ∈ nonStoreInsn ++ storeInsn := by
  rcases List.mem_append.mp hform with hform | hbranch
  · exact hform
  · have hnone := format_branchInsn form hbranch
    rw [h] at hnone
    cases hnone

theorem nonStore_format {form : Form} {fmt : Format} (hform : form ∈ supportedInsn)
    (h : format form = some fmt) : decide (form ∈ nonStoreInsn) = fmt.nonStore := by
  by_cases hin : form ∈ nonStoreInsn
  · have hall := format_nonStoreInsn form hin
    rw [h, Option.all_some] at hall
    rw [decide_eq_true hin, hall]
  · have hstore := (List.mem_append.mp (format_supported hform h)).resolve_left hin
    have hall := format_storeInsn form hstore
    rw [h, Option.all_some, Bool.not_eq_true'] at hall
    rw [decide_eq_false hin, hall]

/-! ### Formats that list what they read and write -/

/-- The registers whose setting is ignored. -/
def Exempt (r : Register) : Prop := r = .xer ∨ r = .fpscr

namespace Isa

theorem Cpu.gprOrZero_congr {insn : Word} {s t : Cpu}
    (h : ∀ r ∈ RawOperand.baseRegisters insn, s.reg r = t.reg r) :
    s.gprOrZero (RA insn) = t.gprOrZero (RA insn) := by
  unfold Cpu.gprOrZero
  by_cases hra : RA insn = 0
  · rw [if_pos hra, if_pos hra]
  · rw [if_neg hra, if_neg hra]
    refine h _ ?_
    rw [RawOperand.baseRegisters, if_neg hra]
    exact List.mem_singleton_self _

namespace Format

def inputs (insn : Word) (fmt : Format) : List Register :=
  listedInputs insn fmt.nonStore true fmt.operands

def outputs (insn : Word) (fmt : Format) : List Register :=
  listedOutputs insn fmt.nonStore true fmt.operands

/-- The listed inputs and some outputs are all a format reads and writes. -/
def CompleteFor (P : Processor) (form : Form) (insn : Word) (outputs : List Register)
    (fmt : Format) : Prop :=
  UseDefine.Complete Exempt (fmt.inputs insn) outputs fun cpu =>
    (fmt.effect P form insn cpu).map (·.apply cpu)

def Complete (P : Processor) (form : Form) (insn : Word) (fmt : Format) : Prop :=
  fmt.CompleteFor P form insn (fmt.outputs insn)

/-- Where a format reads or writes a register that is not listed. -/
def Unlisted (P : Processor) (insn : Word) : Format → Prop
  -- the carry
  | extended _ _ => True
  -- the summary overflow
  | compare _ _ => L insn = false
  -- the bits of the target outside the mask
  | rlwimi => mask (MB insn) (ME insn) ≠ -1 ∧ RA insn ≠ RS insn
  -- the rounding mode and the enabled exceptions
  | floatArithmetic _ _ => True
  -- the second half of the target
  | loadFloat mode single =>
    single = true ∧ P.pairedSingle = true ∧ ¬ (mode.update = true ∧ RA insn = 0)
  | psqL => P.pairedSingle = true
  -- the registers after the first
  | lswi =>
    4 < immediateCount insn ∧ RA insn ∉ stringRegisters (RT insn) (immediateCount insn)
  -- the byte count
  | lswx => RT insn ≠ RA insn ∧ RT insn ≠ RB insn
  | _ => False

variable {P : Processor} {form : Form} {insn : Word}

theorem complete_of_none {fmt : Format} (h : ∀ cpu, fmt.effect P form insn cpu = none) :
    fmt.Complete P form insn :=
  UseDefine.complete_of_none fun cpu => by rw [h]; rfl

theorem integerEffect_results (hrecord : form ∉ integerRecord) (cpu : Cpu) (target : Fin 32)
    (outcome : Outcome) :
    (integerEffect form cpu target outcome).results = [⟨.gpr target, outcome.value⟩] := by
  rw [integerEffect, recordWrites, if_neg hrecord]

theorem integerEffect_status (cpu : Cpu) (target : Fin 32) (outcome : Outcome) :
    ∀ w ∈ (integerEffect form cpu target outcome).status, Exempt w.register := by
  intro w hw
  rw [integerEffect, List.mem_singleton] at hw
  rw [hw]
  exact .inl rfl

/-- An integer format whose target and outcome are decided by the inputs. -/
theorem complete_integer {fmt : Format} (target : Fin 32) (outcome : Cpu → Option Outcome)
    (hrecord : form ∉ integerRecord) (hout : fmt.outputs insn = [.gpr target])
    (heffect : ∀ cpu, fmt.effect P form insn cpu = (outcome cpu).map (integerEffect form cpu target))
    (hcongr : ∀ {s t : Cpu}, (∀ r ∈ fmt.inputs insn, s.reg r = t.reg r) → outcome s = outcome t) :
    fmt.Complete P form insn := by
  refine complete_of_effect (fun _ => rfl) ?_ ?_ ?_
  · intro s e he
    rw [heffect, Option.map_eq_some_iff] at he
    obtain ⟨o, -, rfl⟩ := he
    rw [integerEffect_results hrecord, hout]
    rfl
  · intro s e he
    rw [heffect, Option.map_eq_some_iff] at he
    obtain ⟨o, -, rfl⟩ := he
    exact integerEffect_status s target o
  · intro s t e e' _ hagree he he'
    rw [heffect, Option.map_eq_some_iff] at he he'
    obtain ⟨o, ho, rfl⟩ := he
    obtain ⟨o', ho', rfl⟩ := he'
    rw [hcongr hagree, ho'] at ho
    cases ho
    rw [integerEffect_results hrecord, integerEffect_results hrecord]

/-- A format whose effect is decided by the inputs and the memory. -/
theorem complete_plain {fmt : Format} (results status : Cpu → List Write) (memory : Cpu → Memory)
    (heffect : ∀ cpu, fmt.effect P form insn cpu =
      some {results := results cpu, status := status cpu, memory := memory cpu})
    (hstatus : ∀ cpu, ∀ w ∈ status cpu, Exempt w.register)
    (hout : ∀ cpu, (results cpu).map UseDefine.Write.register = fmt.outputs insn)
    (hcongr : ∀ {s t : Cpu}, s.memory = t.memory → (∀ r ∈ fmt.inputs insn, s.reg r = t.reg r) →
      results s = results t) :
    fmt.Complete P form insn := by
  refine complete_of_effect (fun _ => rfl) ?_ ?_ ?_
  · intro s e he
    rw [heffect] at he
    cases he
    exact hout s
  · intro s e he
    rw [heffect] at he
    cases he
    exact hstatus s
  · intro s t e e' hmem hagree he he'
    rw [heffect] at he he'
    cases he
    cases he'
    exact hcongr hmem hagree

/-- Two states agree on the registers of an operand. -/
def Agree (insn : Word) (s t : Cpu) (o : RawOperand) : Prop :=
  ∀ r ∈ o.registers insn, s.reg r = t.reg r

theorem Agree.reg {s t : Cpu} {o : RawOperand} {r : Register} (h : Agree insn s t o)
    (hr : o.registers insn = [r]) : s.reg r = t.reg r :=
  h r (hr ▸ List.mem_singleton_self r)

theorem listedInputs_later (nonStore : Bool) (ops : List RawOperand) :
    listedInputs insn nonStore false ops = ops.flatMap (·.registers insn) := by
  induction ops with
  | nil => rfl
  | cons o rest ih => rw [listedInputs, Bool.and_false, Bool.false_and, ih]; rfl

/-- The inputs of a format with an output are the operands after the first. -/
theorem agree_later {fmt : Format} {o : RawOperand} {rest : List RawOperand} {s t : Cpu}
    (hns : fmt.nonStore = true) (hops : fmt.operands = o :: rest)
    (ho : (o.registers insn).isEmpty = false) (hagree : ∀ r ∈ fmt.inputs insn, s.reg r = t.reg r) :
    ∀ p ∈ rest, Agree insn s t p := by
  intro p hp r hr
  refine hagree r ?_
  rw [inputs, hns, hops, listedInputs, ho, Bool.and_false, listedInputs_later]
  exact List.mem_append_right _ (List.mem_flatMap.mpr ⟨p, hp, hr⟩)

theorem agree_store {fmt : Format} {s t : Cpu} (hns : fmt.nonStore = false)
    (hagree : ∀ r ∈ fmt.inputs insn, s.reg r = t.reg r) :
    ∀ p ∈ fmt.operands, Agree insn s t p := by
  have hall : ∀ (first : Bool) (ops : List RawOperand),
      listedInputs insn false first ops = ops.flatMap (·.registers insn) := by
    intro first ops
    induction ops generalizing first with
    | nil => rfl
    | cons o rest ih => rw [listedInputs, Bool.false_and, ih]; rfl
  intro p hp r hr
  refine hagree r ?_
  rw [inputs, hns, hall]
  exact List.mem_flatMap.mpr ⟨p, hp, hr⟩

theorem integer_complete (hrecord : form ∉ integerRecord) (shape : IntegerShape)
    (f : Word → Word → Option Outcome) : (integer shape f).Complete P form insn := by
  refine complete_integer (shape.target insn)
    (fun cpu => f (shape.first insn cpu) (shape.second insn cpu)) hrecord ?_ (fun _ => rfl) ?_
  · cases shape <;> rfl
  · intro s t hagree
    have hfirst : shape.first insn s = shape.first insn t := by
      cases shape with
      | rtRa0Si => exact Cpu.gprOrZero_congr (agree_later rfl rfl rfl hagree .RA0 (by decide))
      | rtRaRb | rtRa | rtRaSi =>
        exact (agree_later rfl rfl rfl hagree .RA (by decide)).reg rfl
      | raRsRb | raRs | raRsUi | raRsSh =>
        exact (agree_later rfl rfl rfl hagree .RS (by decide)).reg rfl
    have hsecond : shape.second insn s = shape.second insn t := by
      cases shape with
      | rtRaRb | raRsRb => exact (agree_later rfl rfl rfl hagree .RB (by decide)).reg rfl
      | rtRa | raRs | rtRaSi | rtRa0Si | raRsUi | raRsSh => rfl
    simp only [hfirst, hsecond]

theorem rlwinm_complete (hrecord : form ∉ integerRecord) : rlwinm.Complete P form insn := by
  refine complete_integer (RA insn) (fun cpu => plain
    ((cpu.gpr (RS insn)).rotateLeft (SH insn) &&& mask (MB insn) (ME insn)))
    hrecord rfl (fun _ => rfl) ?_
  intro s t hagree
  have hrs : s.gpr (RS insn) = t.gpr (RS insn) :=
    (agree_later rfl rfl rfl hagree .RS (by decide)).reg rfl
  simp only [hrs]

theorem rlwnm_complete (hrecord : form ∉ integerRecord) : rlwnm.Complete P form insn := by
  refine complete_integer (RA insn) (fun cpu => plain
    ((cpu.gpr (RS insn)).rotateLeft ((cpu.gpr (RB insn)).toNat % 32) &&& mask (MB insn) (ME insn)))
    hrecord rfl (fun _ => rfl) ?_
  intro s t hagree
  have hrs : s.gpr (RS insn) = t.gpr (RS insn) :=
    (agree_later rfl rfl rfl hagree .RS (by decide)).reg rfl
  have hrb : s.gpr (RB insn) = t.gpr (RB insn) :=
    (agree_later rfl rfl rfl hagree .RB (by decide)).reg rfl
  simp only [hrs, hrb]

/-- An insert under a full mask does not read its target, and one into its own source lists
it. -/
theorem rlwimi_complete (hrecord : form ∉ integerRecord) (h : ¬ rlwimi.Unlisted P insn) :
    rlwimi.Complete P form insn := by
  refine complete_integer (RA insn) (fun cpu => plain
    (((cpu.gpr (RS insn)).rotateLeft (SH insn) &&& mask (MB insn) (ME insn)) |||
      (cpu.gpr (RA insn) &&& ~~~mask (MB insn) (ME insn)))) hrecord rfl (fun _ => rfl) ?_
  intro s t hagree
  have hrs : s.gpr (RS insn) = t.gpr (RS insn) :=
    (agree_later rfl rfl rfl hagree .RS (by decide)).reg rfl
  by_cases hmask : mask (MB insn) (ME insn) = -1
  · have hnone : ~~~(-1 : Word) = 0#32 := by decide
    simp only [hmask, hrs, hnone, BitVec.and_zero]
  · have hra : RA insn = RS insn := by
      by_contra hne
      exact h ⟨hmask, hne⟩
    simp only [hra, hrs]

theorem crLogic_complete (f : Bool → Bool → Bool) : (crLogic f).Complete P form insn := by
  refine complete_plain
    (fun cpu => [⟨.crBit (BT insn), f (cpu.crBit (BA insn)) (cpu.crBit (BB insn))⟩]) (fun _ => [])
    (·.memory) (fun _ => rfl) (fun _ _ hw => nomatch hw) (fun _ => rfl) ?_
  intro s t _ hagree
  have hba : s.crBit (BA insn) = t.crBit (BA insn) :=
    (agree_later rfl rfl rfl hagree .BA (by decide)).reg rfl
  have hbb : s.crBit (BB insn) = t.crBit (BB insn) :=
    (agree_later rfl rfl rfl hagree .BB (by decide)).reg rfl
  simp only [hba, hbb]

theorem mcrf_complete : mcrf.Complete P form insn := by
  refine complete_plain
    (fun cpu =>
      [⟨.crField (BF insn) 0, cpu.crField (BFA insn) 0⟩,
       ⟨.crField (BF insn) 1, cpu.crField (BFA insn) 1⟩,
       ⟨.crField (BF insn) 2, cpu.crField (BFA insn) 2⟩,
       ⟨.crField (BF insn) 3, cpu.crField (BFA insn) 3⟩]) (fun _ => [])
    (·.memory) (fun _ => rfl) (fun _ _ hw => nomatch hw) (fun _ => rfl) ?_
  intro s t _ hagree
  have hbit : ∀ bit : Fin 4, s.crField (BFA insn) bit = t.crField (BFA insn) bit := by
    intro bit
    refine agree_later rfl rfl rfl hagree .BFA (by decide) _ ?_
    fin_cases bit <;> simp [RawOperand.registers, RawOperand.fieldRegisters]
  simp only [hbit]

theorem mfspr_complete : mfspr.Complete P form insn := by
  refine complete_plain (fun cpu => [⟨.gpr (RT insn), cpu.spr (SPR insn)⟩]) (fun _ => [])
    (·.memory) (fun _ => rfl) (fun _ _ hw => nomatch hw) (fun _ => rfl) ?_
  intro s t _ hagree
  have hspr : s.spr (SPR insn) = t.spr (SPR insn) :=
    (agree_later rfl rfl rfl hagree .SPR (by decide)).reg rfl
  simp only [hspr]

theorem mtspr_complete : mtspr.Complete P form insn := by
  refine complete_plain (fun cpu => [⟨.spr (SPR insn), cpu.gpr (RS insn)⟩]) (fun _ => [])
    (·.memory) (fun _ => rfl) (fun _ _ hw => nomatch hw) (fun _ => rfl) ?_
  intro s t _ hagree
  have hrs : s.gpr (RS insn) = t.gpr (RS insn) :=
    (agree_later rfl rfl rfl hagree .RS (by decide)).reg rfl
  simp only [hrs]

theorem floatMove_complete (hrecord : form ∉ floatRecord) (f : BitVec 64 → BitVec 64) :
    (floatMove f).Complete P form insn := by
  have hnone : ∀ cpu : Cpu, floatRecordWrites form cpu.fpscr = [] := fun _ => if_neg hrecord
  refine complete_plain
    (fun cpu => ⟨.fpr (FRT insn), f (cpu.fpr (FRB insn))⟩ :: floatRecordWrites form cpu.fpscr)
    (fun _ => []) (·.memory) (fun _ => rfl) (fun _ _ hw => nomatch hw) ?_ ?_
  · intro cpu
    rw [hnone]
    rfl
  · intro s t _ hagree
    have hfrb : s.fpr (FRB insn) = t.fpr (FRB insn) :=
      (agree_later rfl rfl rfl hagree .FRB (by decide)).reg rfl
    simp only [hnone, hfrb]

theorem fsel_complete (hrecord : form ∉ floatRecord) : fsel.Complete P form insn := by
  have hnone : ∀ cpu : Cpu, floatRecordWrites form cpu.fpscr = [] := fun _ => if_neg hrecord
  refine complete_plain
    (fun cpu =>
      ⟨.fpr (FRT insn),
        if atLeastZero (cpu.fpr (FRA insn)) then cpu.fpr (FRC insn) else cpu.fpr (FRB insn)⟩ ::
        floatRecordWrites form cpu.fpscr)
    (fun _ => []) (·.memory) (fun _ => rfl) (fun _ _ hw => nomatch hw) ?_ ?_
  · intro cpu
    rw [hnone]
    rfl
  · intro s t _ hagree
    have hfra : s.fpr (FRA insn) = t.fpr (FRA insn) :=
      (agree_later rfl rfl rfl hagree .FRA (by decide)).reg rfl
    have hfrb : s.fpr (FRB insn) = t.fpr (FRB insn) :=
      (agree_later rfl rfl rfl hagree .FRB (by decide)).reg rfl
    have hfrc : s.fpr (FRC insn) = t.fpr (FRC insn) :=
      (agree_later rfl rfl rfl hagree .FRC (by decide)).reg rfl
    simp only [hnone, hfra, hfrb, hfrc]

theorem fcmp_complete : fcmp.Complete P form insn := by
  refine complete_plain
    (fun cpu =>
      let c := P.compare (cpu.fpr (FRA insn)) (cpu.fpr (FRB insn))
      comparisonWrites (BF insn) c.less c.greater c.equal c.unordered)
    (fun cpu =>
      [⟨.fpscr, P.status form [cpu.fpr (FRA insn), cpu.fpr (FRB insn)] cpu.fpscr⟩])
    (·.memory) (fun _ => rfl) ?_ (fun _ => rfl) ?_
  · intro cpu w hw
    rw [List.mem_singleton.mp hw]
    exact .inr rfl
  · intro s t _ hagree
    have hfra : s.fpr (FRA insn) = t.fpr (FRA insn) :=
      (agree_later rfl rfl rfl hagree .FRA (by decide)).reg rfl
    have hfrb : s.fpr (FRB insn) = t.fpr (FRB insn) :=
      (agree_later rfl rfl rfl hagree .FRB (by decide)).reg rfl
    simp only [hfra, hfrb]

theorem address_congr {mode : AddressMode} {base : RawOperand} {s t : Cpu}
    (hbase : base.registers insn = RawOperand.baseRegisters insn)
    (h : ∀ p ∈ mode.operands base, Agree insn s t p) :
    mode.address insn s = mode.address insn t := by
  have hrb : mode = .x ∨ mode = .xu → s.gpr (RB insn) = t.gpr (RB insn) := by
    rintro (rfl | rfl)
    · exact (h .RB (by simp [AddressMode.operands])).reg rfl
    · exact (h .RB (by simp [AddressMode.operands])).reg rfl
  have hra : s.gprOrZero (RA insn) = t.gprOrZero (RA insn) := by
    refine Cpu.gprOrZero_congr ?_
    cases mode with
    | d | x => exact h .RA0 (by simp [AddressMode.operands])
    | du | xu => exact hbase ▸ h base (by simp [AddressMode.operands])
  cases mode with
  | d | du => simp only [AddressMode.address, hra]
  | x => simp only [AddressMode.address, hra, hrb (.inl rfl)]
  | xu => simp only [AddressMode.address, hra, hrb (.inr rfl)]

/-- A load with update lists its base twice. -/
theorem listedOutputs_address {mode : AddressMode} {base : RawOperand} (ea : Word)
    (hbase : base = .RAL ∨ base = .RAS) (h : mode.update = true → RA insn ≠ 0) (nonStore : Bool) :
    listedOutputs insn nonStore false (mode.operands base) =
      (mode.baseWrite insn ea).map UseDefine.Write.register := by
  cases mode with
  | d | x => cases nonStore <;> rfl
  | du | xu =>
    have hra : RawOperand.baseRegisters insn = [.gpr (RA insn)] := if_neg (h rfl)
    rcases hbase with rfl | rfl <;> cases nonStore <;>
      simp [listedOutputs, AddressMode.operands, AddressMode.baseWrite, AddressMode.update,
        RawOperand.registers, hra]

theorem load_complete (mode : AddressMode) (f : Memory → Word → Word) :
    (load mode f).Complete P form insn := by
  by_cases hinvalid : (mode.update && (RA insn == 0 || RA insn == RT insn)) = true
  · exact complete_of_none fun _ => if_pos hinvalid
  have hra : mode.update = true → RA insn ≠ 0 := by
    rintro hupdate hra
    simp [hupdate, hra] at hinvalid
  refine complete_plain
    (fun cpu =>
      ⟨.gpr (RT insn), f cpu.memory (mode.address insn cpu)⟩ ::
        mode.baseWrite insn (mode.address insn cpu))
    (fun _ => []) (·.memory) (fun _ => if_neg hinvalid) (fun _ _ hw => nomatch hw) ?_ ?_
  · intro cpu
    rw [List.map_cons, ← listedOutputs_address _ (.inl rfl) hra true]
    rfl
  · intro s t hmem hagree
    have haddress : mode.address insn s = mode.address insn t :=
      address_congr rfl (agree_later rfl rfl rfl hagree)
    simp only [hmem, haddress]

theorem loadFloat_complete {mode : AddressMode} {single : Bool}
    (h : ¬ (loadFloat mode single).Unlisted P insn) :
    (loadFloat mode single).Complete P form insn := by
  by_cases hinvalid : (mode.update && RA insn == 0) = true
  · exact complete_of_none fun _ => if_pos hinvalid
  have hra : mode.update = true → RA insn ≠ 0 := by
    rintro hupdate hra
    simp [hupdate, hra] at hinvalid
  have hone : (single && P.pairedSingle) = false := by
    refine Bool.eq_false_iff.mpr fun hpaired => ?_
    rw [Bool.and_eq_true] at hpaired
    exact h ⟨hpaired.1, hpaired.2, fun hupdate => hra hupdate.1 hupdate.2⟩
  refine complete_plain
    (fun cpu =>
      let ea := mode.address insn cpu
      let value := if single then P.toDouble (loadWord cpu.memory ea) else loadDouble cpu.memory ea
      floatWrites P single (FRT insn) value ++ mode.baseWrite insn ea)
    (fun _ => []) (·.memory) (fun _ => if_neg hinvalid) (fun _ _ hw => nomatch hw) ?_ ?_
  · intro cpu
    simp only [floatWrites, hone, Bool.false_eq_true, if_false, List.map_append]
    rw [← listedOutputs_address _ (.inr rfl) hra true]
    rfl
  · intro s t hmem hagree
    have haddress : mode.address insn s = mode.address insn t :=
      address_congr rfl (agree_later rfl rfl rfl hagree)
    simp only [hmem, haddress]

/-- A string of at most a word, or one that would load its own base. -/
theorem lswi_complete (h : ¬ lswi.Unlisted P insn) : lswi.Complete P form insn := by
  by_cases hinvalid : RA insn ∈ stringRegisters (RT insn) (immediateCount insn)
  · exact complete_of_none fun _ => if_pos hinvalid
  have hcount : (immediateCount insn + 3) / 4 = 1 := by
    have hle : ¬ 4 < immediateCount insn := fun hlt => h ⟨hlt, hinvalid⟩
    have hpos : 0 < immediateCount insn := by
      unfold immediateCount
      split
      · decide
      · rename_i hne
        exact Nat.pos_of_ne_zero fun h0 => hne (Fin.ext h0)
    omega
  refine complete_plain
    (fun cpu =>
      stringWrites (RT insn) (loadBytes cpu.memory (cpu.gprOrZero (RA insn)) (immediateCount insn)))
    (fun _ => []) (·.memory) (fun _ => if_neg hinvalid) (fun _ _ hw => nomatch hw) ?_ ?_
  · intro cpu
    have hlen : (loadBytes cpu.memory (cpu.gprOrZero (RA insn)) (immediateCount insn)).length =
        immediateCount insn := by simp [loadBytes]
    have hfirst : RT insn + Fin.ofNat 32 0 = RT insn := add_zero _
    rw [stringWrites, hlen, hcount, List.range_one, List.map_singleton, List.map_singleton, hfirst]
    rfl
  · intro s t hmem hagree
    have hra : s.gprOrZero (RA insn) = t.gprOrZero (RA insn) :=
      Cpu.gprOrZero_congr (agree_later rfl rfl rfl hagree .RA0 (by decide))
    simp only [hmem, hra]

/-- The target of a string is in the range of the string. -/
theorem lswx_complete (h : ¬ lswx.Unlisted P insn) : lswx.Complete P form insn := by
  refine complete_of_none fun cpu => if_pos ?_
  by_cases hra : RT insn = RA insn
  · exact .inl (hra ▸ List.mem_cons_self)
  by_cases hrb : RT insn = RB insn
  · exact .inr (.inl (hrb ▸ List.mem_cons_self))
  exact absurd ⟨hra, hrb⟩ h

theorem psqL_complete (h : ¬ psqL.Unlisted P insn) : psqL.Complete P form insn := by
  have hnot : P.pairedSingle = false := Bool.eq_false_iff.mpr h
  refine complete_of_none fun cpu => if_pos ?_
  rw [hnot]
  rfl

theorem compare_complete {shape : CompareShape} {lt : Word → Word → Bool}
    (h : ¬ (compare shape lt).Unlisted P insn) : (compare shape lt).Complete P form insn :=
  complete_of_none fun _ => if_pos (Bool.eq_true_of_not_eq_false h)

/-- A store lists its base as an output if it updates it. -/
theorem complete_store {fmt : Format} {mode : AddressMode} (bytes : Cpu → List (BitVec 8))
    (hns : fmt.nonStore = false) (hops : ∀ p ∈ mode.operands .RAS, p ∈ fmt.operands)
    (hout : fmt.outputs insn = listedOutputs insn false false (mode.operands .RAS))
    (heffect : ∀ cpu, fmt.effect P form insn cpu =
      if mode.update && RA insn == 0 then none
      else some
        { results := mode.baseWrite insn (mode.address insn cpu)
          memory := storeBytes cpu.memory (mode.address insn cpu) (bytes cpu) }) :
    fmt.Complete P form insn := by
  by_cases hinvalid : (mode.update && RA insn == 0) = true
  · exact complete_of_none fun cpu => (heffect cpu).trans (if_pos hinvalid)
  have hra : mode.update = true → RA insn ≠ 0 := by
    rintro hupdate hra
    simp [hupdate, hra] at hinvalid
  refine complete_plain (fun cpu => mode.baseWrite insn (mode.address insn cpu)) (fun _ => [])
    (fun cpu => storeBytes cpu.memory (mode.address insn cpu) (bytes cpu))
    (fun cpu => (heffect cpu).trans (if_neg hinvalid)) (fun _ _ hw => nomatch hw) ?_ ?_
  · intro cpu
    rw [← listedOutputs_address _ (.inr rfl) hra false, hout]
  · intro s t _ hagree
    have haddress : mode.address insn s = mode.address insn t :=
      address_congr rfl fun p hp => agree_store hns hagree p (hops p hp)
    simp only [haddress]

/-- A format that writes memory only. -/
theorem complete_memory {fmt : Format} (hout : fmt.outputs insn = [])
    (h : ∀ cpu e, fmt.effect P form insn cpu = some e → e.results = [] ∧ e.status = []) :
    fmt.Complete P form insn := by
  refine complete_of_effect (fun _ => rfl) ?_ ?_ ?_
  · intro s e he
    rw [(h s e he).1, hout]
    rfl
  · intro s e he w hw
    rw [(h s e he).2] at hw
    cases hw
  · intro s t e e' _ _ he he'
    rw [(h s e he).1, (h t e' he').1]

theorem stswi_complete : stswi.Complete P form insn := by
  refine complete_memory rfl ?_
  intro cpu e he
  cases he
  exact ⟨rfl, rfl⟩

theorem stswx_complete : stswx.Complete P form insn := by
  refine complete_memory rfl ?_
  intro cpu e he
  cases he
  exact ⟨rfl, rfl⟩

theorem psqSt_complete : psqSt.Complete P form insn := by
  refine complete_memory rfl ?_
  intro cpu e he
  cases hpaired : P.pairedSingle with
  | false =>
    rw [effect, hpaired] at he
    cases he
  | true =>
    rw [effect, hpaired] at he
    cases he
    exact ⟨rfl, rfl⟩

/-- **A format lists what it reads and writes** where it is not a known exception. -/
theorem complete_of_listed (fmt : Format) (hint : form ∉ integerRecord) (hfloat : form ∉ floatRecord)
    (h : ¬ fmt.Unlisted P insn) : fmt.Complete P form insn := by
  cases fmt with
  | integer shape f => exact integer_complete hint shape f
  | extended shape f => exact absurd trivial h
  | rlwinm => exact rlwinm_complete hint
  | rlwnm => exact rlwnm_complete hint
  | rlwimi => exact rlwimi_complete hint h
  | compare shape lt => exact compare_complete h
  | crLogic f => exact crLogic_complete f
  | mcrf => exact mcrf_complete
  | mfspr => exact mfspr_complete
  | mtspr => exact mtspr_complete
  | floatMove f => exact floatMove_complete hfloat f
  | fsel => exact fsel_complete hfloat
  | floatArithmetic shape single => exact absurd trivial h
  | fcmp => exact fcmp_complete
  | load mode f => exact load_complete mode f
  | loadFloat mode single => exact loadFloat_complete h
  | lswi => exact lswi_complete h
  | lswx => exact lswx_complete h
  | psqL => exact psqL_complete h
  | store mode size f | storeFloat mode size f =>
    exact complete_store _ rfl (fun _ hp => List.mem_cons_of_mem _ hp) rfl fun _ => rfl
  | stswi => exact stswi_complete
  | stswx => exact stswx_complete
  | psqSt => exact psqSt_complete

end Format

end Isa

end Ppc2cpp
