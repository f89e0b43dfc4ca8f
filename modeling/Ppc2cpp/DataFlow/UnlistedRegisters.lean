import Ppc2cpp.DataFlow.ListedRegisters

/-! The instructions that read or write a register they do not list.

Each exception is refuted by states that agree on all that is listed. A status register is
never listed, so two states that differ in it alone agree on the inputs: they show that the
carry, the summary overflow, the byte count and the enabled exceptions are read. For the
target of an insert the states differ in the target, and for a register that is written but
not listed one state is enough. -/
namespace Ppc2cpp
open Isa UseDefine

namespace Isa

/-- A state with the same value in all registers of a kind. -/
def sample (word : Word) (float half : BitVec 64) (xer fpscr : Word) (byte : BitVec 8) : Cpu where
  reg
    | .gpr _ => word
    | .fpr _ => float
    | .ps1 _ => half
    | .crBit _ => false
    | .spr n => if n = 1 then xer else 0
    | .fpscr => fpscr
  memory := fun _ => byte

section
variable (word : Word) (float half : BitVec 64) (xer fpscr : Word) (byte : BitVec 8)

@[simp] theorem sample_gpr (i : Fin 32) : (sample word float half xer fpscr byte).gpr i = word := rfl

@[simp] theorem sample_fpr (i : Fin 32) : (sample word float half xer fpscr byte).fpr i = float := rfl

@[simp] theorem sample_xer : (sample word float half xer fpscr byte).xer = xer := rfl

@[simp] theorem sample_fpscr : (sample word float half xer fpscr byte).fpscr = fpscr := rfl

theorem sample_xer_agree (xer' : Word) {r : Register} (h : r ≠ .xer) :
    (sample word float half xer fpscr byte).reg r =
      (sample word float half xer' fpscr byte).reg r := by
  cases r with
  | spr n =>
    have hn : n ≠ 1 := fun h1 => h (congrArg Register.spr h1)
    show (if n = 1 then xer else 0) = (if n = 1 then xer' else 0)
    rw [if_neg hn, if_neg hn]
  | gpr | fpr | ps1 | crBit | fpscr => rfl

theorem sample_fpscr_agree (fpscr' : Word) {r : Register} (h : r ≠ .fpscr) :
    (sample word float half xer fpscr byte).reg r =
      (sample word float half xer fpscr' byte).reg r := by
  cases r with
  | fpscr => exact absurd rfl h
  | gpr | fpr | ps1 | crBit | spr => rfl

end

/-! ### The status registers are not listed -/

theorem mem_listedInputs {insn : Word} {nonStore first : Bool} {ops : List RawOperand} {r : Register}
    (h : r ∈ listedInputs insn nonStore first ops) : ∃ o ∈ ops, r ∈ o.registers insn := by
  induction ops generalizing first with
  | nil => cases h
  | cons o rest ih =>
    rw [listedInputs, List.mem_append] at h
    rcases h with h | h
    · refine ⟨o, List.mem_cons_self, ?_⟩
      split at h
      · cases h
      · exact h
    · obtain ⟨p, hp, hr⟩ := ih h
      exact ⟨p, List.mem_cons_of_mem _ hp, hr⟩

theorem status_not_operand {insn : Word} {o : RawOperand} {r : Register} (ho : o ≠ .SPR)
    (hr : r ∈ o.registers insn) : r ≠ .xer ∧ r ≠ .fpscr := by
  cases o with
  | SPR => exact absurd rfl ho
  | RA0 | RAL | RAS =>
    rw [RawOperand.registers, RawOperand.baseRegisters] at hr
    split at hr
    · cases hr
    · rw [List.mem_singleton] at hr
      subst hr
      exact ⟨by simp [Register.xer], by simp⟩
  | BF | BFA =>
    simp only [RawOperand.registers, RawOperand.fieldRegisters, List.mem_cons, List.not_mem_nil,
      or_false] at hr
    rcases hr with rfl | rfl | rfl | rfl <;>
      exact ⟨by simp [Register.crField, Register.xer], by simp [Register.crField]⟩
  | PSQ =>
    rw [RawOperand.registers, List.mem_singleton] at hr
    subst hr
    refine ⟨fun h => ?_, by simp [Register.gqr]⟩
    injection h with h
    have hval := congrArg Fin.val h
    simp at hval
    omega
  | RT | RS | RA | RB | FRT | FRS | FRA | FRB | FRC | BT | BA | BB =>
    rw [RawOperand.registers, List.mem_singleton] at hr
    subst hr
    exact ⟨by simp [Register.xer], by simp⟩

namespace Format
variable {P : Processor} {form : Form} {insn : Word} {outputs : List Register}

/-- No format but the moves from and to special purpose registers lists a status register. -/
theorem status_not_input {fmt : Format} (h : .SPR ∉ fmt.operands) {r : Register}
    (hr : r ∈ fmt.inputs insn) : r ≠ .xer ∧ r ≠ .fpscr := by
  obtain ⟨o, ho, hr⟩ := mem_listedInputs hr
  exact status_not_operand (fun heq => h (heq ▸ ho)) hr

/-- **Two states that differ in the exception register.** -/
theorem not_complete_of_xer {fmt : Format} (hspr : .SPR ∉ fmt.operands) (word : Word)
    (float half : BitVec 64) (fpscr : Word) (byte : BitVec 8) (xer xer' : Word) {e e' : Effect}
    (he : fmt.effect P form insn (sample word float half xer fpscr byte) = some e)
    (he' : fmt.effect P form insn (sample word float half xer' fpscr byte) = some e')
    {r : Register} (hr : ¬ Exempt r)
    (hafter : (e.apply (sample word float half xer fpscr byte)).reg r ≠
      (e'.apply (sample word float half xer' fpscr byte)).reg r) :
    ¬ fmt.CompleteFor P form insn outputs := by
  refine not_complete_of_differ (s := sample word float half xer fpscr byte)
    (t := sample word float half xer' fpscr byte) rfl ?_ (by rw [he]; rfl) (by rw [he']; rfl)
    (.inr ⟨hr, sample_xer_agree _ _ _ _ _ _ _ fun h => hr (.inl h)⟩) hafter
  intro r hr
  exact sample_xer_agree _ _ _ _ _ _ _ (status_not_input hspr hr).1

/-- **Two states that differ in the status and control register.** -/
theorem not_complete_of_fpscr {fmt : Format} (hspr : .SPR ∉ fmt.operands) (word : Word)
    (float half : BitVec 64) (xer : Word) (byte : BitVec 8) (fpscr fpscr' : Word) {e e' : Effect}
    (he : fmt.effect P form insn (sample word float half xer fpscr byte) = some e)
    (he' : fmt.effect P form insn (sample word float half xer fpscr' byte) = some e')
    {r : Register} (hr : ¬ Exempt r)
    (hafter : (e.apply (sample word float half xer fpscr byte)).reg r ≠
      (e'.apply (sample word float half xer fpscr' byte)).reg r) :
    ¬ fmt.CompleteFor P form insn outputs := by
  refine not_complete_of_differ (s := sample word float half xer fpscr byte)
    (t := sample word float half xer fpscr' byte) rfl ?_ (by rw [he]; rfl) (by rw [he']; rfl)
    (.inr ⟨hr, sample_fpscr_agree _ _ _ _ _ _ _ fun h => hr (.inr h)⟩) hafter
  intro r hr
  exact sample_fpscr_agree _ _ _ _ _ _ _ (status_not_input hspr hr).2

/-! ### Reading a write back -/

theorem integerEffect_target (cpu : Cpu) (target : Fin 32) (outcome : Outcome) :
    ((integerEffect form cpu target outcome).apply cpu).reg (.gpr target) = outcome.value :=
  UseDefine.write_head _ (⟨.gpr target, outcome.value⟩ : Write) _

theorem crField_injective (bf : Fin 8) : Function.Injective (Register.crField bf) := by
  intro i j h
  have hval := congrArg (fun r => match r with | Register.crBit k => k.val | _ => 0) h
  simp only [Register.crField] at hval
  omega

theorem fieldRegisters_nodup (bf : Fin 8) : (RawOperand.fieldRegisters bf).Nodup :=
  (show ([0, 1, 2, 3] : List (Fin 4)).Nodup by decide).map (crField_injective bf)

/-- The fourth bit of a comparison. -/
theorem comparison_so (reg : (r : Register) → r.Value) (bf : Fin 8) (lt gt eq so : Bool) :
    UseDefine.write reg (comparisonWrites bf lt gt eq so) (.crField bf 3) = so :=
  have hmem : (⟨.crField bf 3, so⟩ : Write) ∈ comparisonWrites bf lt gt eq so := by
    simp [comparisonWrites]
  have hnodup : ((comparisonWrites bf lt gt eq so).map UseDefine.Write.register).Nodup :=
    fieldRegisters_nodup bf
  write_of_unique hmem hnodup reg

/-! ### Carry and summary overflow -/

theorem spr_not_integer (shape : IntegerShape) : .SPR ∉ shape.operands := by
  cases shape <;> decide

theorem carry_decides {shape : IntegerShape} {f : Word → Word → Bool → Outcome}
    (h : format form = some (.extended shape f)) (a b : Word) :
    (f a b false).value ≠ (f a b true).value := by
  have hsum : ∀ x y : Word, (sum x y false).value ≠ (sum x y true).value := by
    intro x y
    simp [sum]
  cases form <;> cases h <;> exact hsum _ _

/-- **The carry.** -/
theorem extended_not_complete {shape : IntegerShape} {f : Word → Word → Bool → Outcome}
    (h : format form = some (.extended shape f)) :
    ¬ (extended shape f).CompleteFor P form insn outputs := by
  refine not_complete_of_xer (spr_not_integer shape) 0 0 0 0 0 0 0x20000000 rfl rfl
    (r := .gpr (shape.target insn)) (by rintro (h | h) <;> cases h) ?_
  rw [integerEffect_target, integerEffect_target]
  have hfirst : shape.first insn (sample 0 0 0 0 0 0) =
      shape.first insn (sample 0 0 0 0x20000000 0 0) := by cases shape <;> rfl
  have hsecond : shape.second insn (sample 0 0 0 0 0 0) =
      shape.second insn (sample 0 0 0 0x20000000 0 0) := by cases shape <;> rfl
  rw [hfirst, hsecond]
  exact carry_decides h _ _

theorem summary_differs : SO 0 ≠ SO 0x80000000 := by decide

/-- **The summary overflow of a comparison.** -/
theorem compare_not_complete {shape : CompareShape} {lt : Word → Word → Bool} (h : L insn = false) :
    ¬ (compare shape lt).CompleteFor P form insn outputs := by
  have hspr : .SPR ∉ (compare shape lt).operands := by
    show .SPR ∉ shape.operands
    cases shape <;> decide
  refine not_complete_of_xer hspr 0 0 0 0 0 0 0x80000000 (if_neg (Bool.eq_false_iff.mp h))
    (if_neg (Bool.eq_false_iff.mp h)) (r := .crField (BF insn) 3) (by rintro (h | h) <;> cases h) ?_
  show UseDefine.write _ (comparisonWrites _ _ _ _ _) _ ≠
    UseDefine.write _ (comparisonWrites _ _ _ _ _) _
  rw [comparison_so, comparison_so, sample_xer, sample_xer]
  exact summary_differs

theorem SO_putBit (xer : Word) (b : Bool) : SO (putBit xer 0 b) = b := by
  cases b <;> simp [SO, putBit]

theorem SO_putBit_other (xer : Word) (b : Bool) {bit : Nat} (h : bit = 1 ∨ bit = 2) :
    SO (putBit xer bit b) = SO xer := by
  rcases h with rfl | rfl <;> cases b <;> simp [SO, putBit]

/-- Without an overflow the summary keeps its value. -/
theorem SO_xerAfter {outcome : Outcome} (h : form ∈ setsOverflow → outcome.overflow = false)
    (xer : Word) : SO (xerAfter form outcome xer) = SO xer := by
  have hcarry : SO (if form ∈ setsCarry then putBit xer 2 outcome.carry else xer) = SO xer := by
    split
    · exact SO_putBit_other xer _ (.inr rfl)
    · rfl
  rw [xerAfter]
  split
  · rename_i hset
    rw [SO_putBit, h hset, Bool.or_false, hcarry]
  · exact hcarry

/-- Where every register is one, an integer instruction has a result and does not overflow. -/
theorem integer_at_one {shape : IntegerShape} {f : Word → Word → Option Outcome}
    (h : format form = some (.integer shape f)) (insn xer : Word) :
    ∃ o, f (shape.first insn (sample 1 0 0 xer 0 0)) (shape.second insn (sample 1 0 0 xer 0 0)) =
      some o ∧ (form ∈ setsOverflow → o.overflow = false) := by
  cases form <;> cases h <;>
    first
    | exact ⟨_, rfl, fun hset => absurd hset (by decide)⟩
    | exact ⟨_, rfl, fun _ => by simp only [IntegerShape.first, IntegerShape.second, sample_gpr] <;> rfl⟩

theorem extended_at_one {shape : IntegerShape} {f : Word → Word → Bool → Outcome}
    (h : format form = some (.extended shape f)) (xer : Word) :
    (f (shape.first insn (sample 1 0 0 xer 0 0)) (shape.second insn (sample 1 0 0 xer 0 0))
      false).overflow = false := by
  cases form <;> cases h <;>
  · simp only [IntegerShape.first, IntegerShape.second, sample_gpr]
    decide

def isInteger : Format → Bool
  | integer _ _ | extended _ _ | rlwinm | rlwnm | rlwimi => true
  | _ => false

theorem integerRecord_format : ∀ form ∈ integerRecord, (format form).all isInteger = true := by
  decide

theorem spr_not_isInteger {fmt : Format} (h : fmt.isInteger = true) : .SPR ∉ fmt.operands := by
  cases fmt with
  | integer shape f | extended shape f => exact spr_not_integer shape
  | rlwinm | rlwimi | rlwnm => decide
  | _ => cases h

/-- A record form compares its result with zero, and does not overflow where every register is
one. -/
theorem record_effect {fmt : Format} (h : format form = some fmt) (hrecord : form ∈ integerRecord)
    (P : Processor) (insn : Word) {xer : Word} (hcarry : CA xer = false) :
    ∃ target o, fmt.effect P form insn (sample 1 0 0 xer 0 0) =
      some (integerEffect form (sample 1 0 0 xer 0 0) target o) ∧
        (form ∈ setsOverflow → o.overflow = false) := by
  have hfmt := integerRecord_format form hrecord
  rw [h, Option.all_some] at hfmt
  cases fmt with
  | integer shape f =>
    obtain ⟨o, ho, hover⟩ := integer_at_one h insn xer
    exact ⟨shape.target insn, o, by rw [effect, ho]; rfl, hover⟩
  | extended shape f =>
    refine ⟨shape.target insn, _, rfl, fun _ => ?_⟩
    rw [sample_xer, hcarry]
    exact extended_at_one h xer
  | rlwinm => exact ⟨RA insn, _, rfl, fun _ => rfl⟩
  | rlwnm => exact ⟨RA insn, _, rfl, fun _ => rfl⟩
  | rlwimi => exact ⟨RA insn, _, rfl, fun _ => rfl⟩
  | _ => cases hfmt

/-- The fourth bit of field 0 after a record form. -/
theorem record_so (hrecord : form ∈ integerRecord) (cpu : Cpu) (target : Fin 32) {o : Outcome}
    (hover : form ∈ setsOverflow → o.overflow = false) :
    ((integerEffect form cpu target o).apply cpu).reg (.crField 0 3) = SO cpu.xer := by
  have hne : Register.crField 0 3 ≠ .gpr target := nofun
  have hwrite : ((integerEffect form cpu target o).apply cpu).reg (.crField 0 3) =
      UseDefine.write (UseDefine.write cpu.reg (integerEffect form cpu target o).status)
        (recordWrites form o.value (xerAfter form o cpu.xer)) (.crField 0 3) :=
    UseDefine.write_tail (w := (⟨.gpr target, o.value⟩ : Write)) _ _ hne
  rw [hwrite, recordWrites, if_pos hrecord, comparison_so, SO_xerAfter hover]

/-- **The summary overflow of a record form.** -/
theorem integerRecord_not_complete {fmt : Format} (h : format form = some fmt)
    (hrecord : form ∈ integerRecord) :
    ¬ fmt.CompleteFor P form insn outputs := by
  have hclear : CA 0 = false := by decide
  have hset : CA 0x80000000 = false := by decide
  obtain ⟨target, o, he, ho⟩ := record_effect h hrecord P insn hclear
  obtain ⟨target', o', he', ho'⟩ := record_effect h hrecord P insn hset
  have hfmt := integerRecord_format form hrecord
  rw [h, Option.all_some] at hfmt
  refine not_complete_of_xer (spr_not_isInteger hfmt) 1 0 0 0 0 0 0x80000000 he he' (r := .crField 0 3)
    (by rintro (h | h) <;> cases h) ?_
  rw [record_so hrecord _ _ ho, record_so hrecord _ _ ho', sample_xer, sample_xer]
  exact summary_differs

/-! ### The status and control register -/

theorem floatRecordWrites_first (hrecord : form ∈ floatRecord) (reg : (r : Register) → r.Value)
    (fpscr : Word) :
    UseDefine.write reg (floatRecordWrites form fpscr) (.crField 1 0) = fpscr.getMsbD 0 := by
  rw [floatRecordWrites, if_pos hrecord]
  exact UseDefine.write_head _ (⟨.crField 1 0, fpscr.getMsbD 0⟩ : Write) _

theorem exception_differs : (0 : Word).getMsbD 0 ≠ (0x80000000 : Word).getMsbD 0 := by decide

theorem move_summary (hrecord : form ∈ floatRecord) (cpu : Cpu) (value : BitVec 64) :
    (({ results := ⟨.fpr (FRT insn), value⟩ :: floatRecordWrites form cpu.fpscr
        memory := cpu.memory } : Effect).apply cpu).reg (.crField 1 0) = cpu.fpscr.getMsbD 0 := by
  have hne : Register.crField 1 0 ≠ .fpr (FRT insn) := nofun
  exact (UseDefine.write_tail (w := (⟨.fpr (FRT insn), value⟩ : Write)) _ _ hne).trans
    (floatRecordWrites_first hrecord _ _)

/-- **The exception summary of a record form that moves.** -/
theorem move_not_complete {fmt : Format} (hspr : .SPR ∉ fmt.operands) (hrecord : form ∈ floatRecord)
    (value : Cpu → BitVec 64)
    (heffect : ∀ cpu, fmt.effect P form insn cpu = some
      { results := ⟨.fpr (FRT insn), value cpu⟩ :: floatRecordWrites form cpu.fpscr
        memory := cpu.memory }) :
    ¬ fmt.CompleteFor P form insn outputs := by
  refine not_complete_of_fpscr hspr 0 0 0 0 0 0 0x80000000 (heffect _) (heffect _)
    (r := .crField 1 0) (by rintro (h | h) <;> cases h) ?_
  rw [move_summary hrecord, move_summary hrecord, sample_fpscr, sample_fpscr]
  exact exception_differs

def signalingNaN : BitVec 64 := 0x7FF0000000000001

theorem operands_signaling (shape : FloatShape) (fpscr : Word) :
    (shape.operands insn (sample 0 signalingNaN 0 0 fpscr 0)).any isSignaling = true ∧
      (shape.operands insn (sample 0 signalingNaN 0 0 fpscr 0)).find? isNaN = some signalingNaN := by
  have hsignaling : isSignaling signalingNaN = true := by decide
  have hnan : isNaN signalingNaN = true := by decide
  cases shape <;> simp [FloatShape.operands, hsignaling, hnan]

/-- A signaling NaN is not its own result. -/
theorem invalidResult_ne {operands : List (BitVec 64)}
    (h : operands.find? isNaN = some signalingNaN) : invalidResult P form operands ≠ signalingNaN := by
  unfold invalidResult
  rw [h]
  dsimp only
  split
  · intro heq
    have hlow : (P.conversionHigh ++ (0x80000000 : Word)).getLsbD 0 = false := by
      rw [BitVec.getLsbD_append]
      rfl
    rw [heq] at hlow
    exact absurd hlow (by decide)
  · split
    · decide
    · decide

theorem floatArithmetic_target (P : Processor) (form : Form) (insn : Word) (shape : FloatShape)
    (single : Bool) (cpu : Cpu) :
    ∃ e, (floatArithmetic shape single).effect P form insn cpu = some e ∧
      (e.apply cpu).reg (.fpr (FRT insn)) =
        (floatResult P form (shape.operands insn cpu) cpu.fpscr).getD (cpu.fpr (FRT insn)) := by
  refine ⟨_, rfl, ?_⟩
  cases floatResult P form (shape.operands insn cpu) cpu.fpscr with
  | some value => exact UseDefine.write_head _ (⟨.fpr (FRT insn), value⟩ : Write) _
  | none =>
    have hrecord : ∀ fpscr, Register.fpr (FRT insn) ∉
        (floatRecordWrites form fpscr).map UseDefine.Write.register := by
      intro fpscr
      unfold floatRecordWrites
      split <;> simp [Register.crField]
    exact (write_of_not_mem (hrecord _) _).trans (UseDefine.write_tail _ _ nofun)

/-- **The enabled exceptions.** An operation on a signaling NaN leaves its target alone if the
exception is enabled. -/
theorem floatArithmetic_not_complete (shape : FloatShape) (single : Bool) :
    ¬ (floatArithmetic shape single).CompleteFor P form insn outputs := by
  have hspr : .SPR ∉ (floatArithmetic shape single).operands := by
    show .SPR ∉ shape.rawOperands
    cases shape <;> decide
  obtain ⟨e, he, htarget⟩ :=
    floatArithmetic_target P form insn shape single (sample 0 signalingNaN 0 0 0 0)
  obtain ⟨e', he', htarget'⟩ :=
    floatArithmetic_target P form insn shape single (sample 0 signalingNaN 0 0 0x80 0)
  have henabled : VE 0x80 = true := by decide
  have hdisabled : VE 0 = false := by decide
  refine not_complete_of_fpscr hspr 0 signalingNaN 0 0 0 0 0x80 he he' (r := .fpr (FRT insn))
    (by rintro (h | h) <;> cases h) ?_
  rw [htarget, htarget', floatResult, floatResult, if_pos (operands_signaling shape _).1,
    if_pos (operands_signaling shape _).1, sample_fpscr, sample_fpscr, henabled, hdisabled,
    if_pos rfl, if_neg Bool.false_ne_true]
  exact invalidResult_ne (operands_signaling shape _).2

/-! ### The target of an insert -/

theorem insert_ne {x m : Word} (h : m ≠ -1) :
    (x &&& m) ||| (0 &&& ~~~m) ≠ (x &&& m) ||| (-1 &&& ~~~m) := by
  intro heq
  refine h (BitVec.eq_of_getLsbD_eq fun i hi => ?_)
  have hones : (-1 : Word) = BitVec.allOnes 32 := by decide
  have hbit := congrArg (·.getLsbD i) heq
  simp only [hones, BitVec.getLsbD_or, BitVec.getLsbD_and, BitVec.getLsbD_not,
    BitVec.getLsbD_allOnes, hi, decide_true, Bool.true_and] at hbit ⊢
  cases hm : m.getLsbD i with
  | true => rfl
  | false => simp [hm] at hbit

/-- **The bits outside the mask.** -/
theorem rlwimi_not_complete (h : rlwimi.Unlisted P insn) :
    ¬ rlwimi.CompleteFor P form insn (rlwimi.outputs insn ++ outputs) := by
  obtain ⟨hmask, hne⟩ := h
  let s := sample 0 0 0 0 0 0
  let t : Cpu := ⟨Function.update s.reg (.gpr (RA insn)) (-1 : Word), s.memory⟩
  have hrs : t.gpr (RS insn) = s.gpr (RS insn) :=
    Function.update_of_ne (fun heq => hne (Register.gpr.inj heq).symm) _ _
  have hra : t.gpr (RA insn) = -1 := Function.update_self ..
  refine not_complete_of_differ (s := s) (t := t) rfl ?_ rfl rfl (r := .gpr (RA insn))
    (.inl (List.mem_append_left _ List.mem_cons_self)) ?_
  · intro r hr
    have hr : r = .gpr (RS insn) := List.mem_singleton.mp hr
    subst hr
    exact hrs.symm
  · rw [integerEffect_target, integerEffect_target, hrs, hra]
    exact insert_ne hmask

/-! ### The second half of a register -/

theorem ne_complement (x : BitVec 64) : x ≠ ~~~x := by
  intro h
  have hbit := congrArg (·.getLsbD 0) h
  simp at hbit

theorem mem_listedOutputs {nonStore first : Bool} {ops : List RawOperand} {r : Register}
    (h : r ∈ listedOutputs insn nonStore first ops) : ∃ o ∈ ops, r ∈ o.registers insn := by
  induction ops generalizing first with
  | nil => cases h
  | cons o rest ih =>
    rw [listedOutputs, List.mem_append, List.mem_append] at h
    rcases h with (h | h) | h
    · refine ⟨o, List.mem_cons_self, ?_⟩
      split at h
      · exact h
      · cases h
    · refine ⟨o, List.mem_cons_self, ?_⟩
      split at h
      · exact h
      · cases h
    · obtain ⟨p, hp, hr⟩ := ih h
      exact ⟨p, List.mem_cons_of_mem _ hp, hr⟩

/-- No operand names the second half of a register. -/
theorem ps1_not_operand (o : RawOperand) (i : Fin 32) : .ps1 i ∉ o.registers insn := by
  cases o <;> simp [RawOperand.registers, RawOperand.baseRegisters, RawOperand.fieldRegisters,
    Register.crField, Register.gqr]

theorem ps1_not_output (fmt : Format) (i : Fin 32) :
    .ps1 i ∉ fmt.outputs insn ++ implicitRegisters form := by
  rw [List.mem_append, not_or]
  constructor
  · intro h
    obtain ⟨o, -, hr⟩ := mem_listedOutputs h
    exact ps1_not_operand o i hr
  · unfold implicitRegisters
    split <;> split <;> simp [RawOperand.fieldRegisters, Register.crField]

/-- **The second half of a register.** A format that writes the second half of its target. -/
theorem half_not_complete {fmt : Format} (value : Cpu → BitVec 64) (others : Cpu → List Write)
    (first : Cpu → Write) (hfirst : ∀ cpu, (first cpu).register ≠ .ps1 (FRT insn))
    (heffect : ∀ half, let cpu := sample 0 0 half 0 0 0
      fmt.effect P form insn cpu = some
        { results := first cpu :: ⟨.ps1 (FRT insn), value cpu⟩ :: others cpu
          memory := cpu.memory })
    (hvalue : ∀ half, value (sample 0 0 half 0 0 0) = value (sample 0 0 0 0 0 0)) :
    ¬ fmt.CompleteFor P form insn (fmt.outputs insn ++ implicitRegisters form) := by
  let cpu := sample 0 0 (~~~value (sample 0 0 0 0 0 0)) 0 0 0
  refine not_complete_of_change (s := cpu) (by rw [heffect]; rfl) (r := .ps1 (FRT insn))
    (by rintro (h | h) <;> cases h) (ps1_not_output fmt _) ?_
  have hread : UseDefine.write (UseDefine.write cpu.reg [])
      (first cpu :: ⟨.ps1 (FRT insn), value cpu⟩ :: others cpu) (.ps1 (FRT insn)) = value cpu :=
    (UseDefine.write_tail _ _ (hfirst cpu).symm).trans
      (UseDefine.write_head _ (⟨.ps1 (FRT insn), value cpu⟩ : Write) _)
  exact fun heq => ne_complement _ ((hvalue _).symm.trans (hread.symm.trans heq))

theorem psqL_not_complete (h : psqL.Unlisted P insn) :
    ¬ psqL.CompleteFor P form insn (psqL.outputs insn ++ implicitRegisters form) := by
  have hpaired : ¬ (!P.pairedSingle) = true := by simp [show P.pairedSingle = true from h]
  let pair : Cpu → BitVec 64 × BitVec 64 := fun cpu =>
    P.dequantize (cpu.gqr (PSQ insn)) cpu.memory (cpu.gprOrZero (RA insn) + PSD insn) (PSW insn)
  exact half_not_complete (fun cpu => (pair cpu).2) (fun _ => [])
    (fun cpu => ⟨.fpr (FRT insn), (pair cpu).1⟩) (fun _ => nofun) (fun _ => if_neg hpaired)
    (fun _ => rfl)

theorem loadFloat_not_complete {mode : AddressMode} {single : Bool}
    (h : (loadFloat mode single).Unlisted P insn) :
    ¬ (loadFloat mode single).CompleteFor P form insn
      ((loadFloat mode single).outputs insn ++ implicitRegisters form) := by
  obtain ⟨rfl, hpaired, hvalid⟩ := h
  have hdefined : ¬ (mode.update && RA insn == 0) = true := by simpa using hvalid
  refine half_not_complete (fun cpu => P.toDouble (loadWord cpu.memory (mode.address insn cpu)))
    (fun cpu => mode.baseWrite insn (mode.address insn cpu))
    (fun cpu => ⟨.fpr (FRT insn), P.toDouble (loadWord cpu.memory (mode.address insn cpu))⟩)
    (fun _ => nofun) (fun half => ?_) (fun half => ?_)
  · refine (if_neg hdefined).trans ?_
    simp [floatWrites, hpaired]
  · cases mode <;> rfl

/-! ### Strings -/

theorem stringRegisters_nodup {r : Fin 32} {count : Nat} (h : count ≤ 127) :
    (stringRegisters r count).Nodup := by
  refine List.Nodup.map_on ?_ List.nodup_range
  intro i hi j hj heq
  have hi := List.mem_range.mp hi
  have hj := List.mem_range.mp hj
  have hval : Fin.ofNat 32 i = Fin.ofNat 32 j := add_left_cancel heq
  have hmod : i % 32 = j % 32 := congrArg Fin.val hval
  omega

/-- What a string leaves in one of its registers. -/
theorem stringWrites_read {r : Fin 32} {bytes : List (BitVec 8)} {k : Nat}
    (hcount : bytes.length ≤ 127) (hk : k < (bytes.length + 3) / 4)
    (reg : (r : Register) → r.Value) :
    UseDefine.write reg (stringWrites r bytes) (.gpr (r + Fin.ofNat 32 k)) = stringWord bytes k := by
  have hmem : (⟨.gpr (r + Fin.ofNat 32 k), stringWord bytes k⟩ : Write) ∈ stringWrites r bytes :=
    List.mem_map.mpr ⟨k, List.mem_range.mpr hk, rfl⟩
  have hnodup : ((stringWrites r bytes).map UseDefine.Write.register).Nodup := by
    have hregs : (stringWrites r bytes).map UseDefine.Write.register =
        (stringRegisters r bytes.length).map .gpr := by
      simp [stringWrites, stringRegisters]
    rw [hregs]
    exact (stringRegisters_nodup hcount).map fun _ _ => Register.gpr.inj
  exact write_of_unique hmem hnodup reg

theorem immediateCount_le (insn : Word) : immediateCount insn ≤ 32 := by
  unfold immediateCount
  split
  · exact le_refl 32
  · exact (NB insn).isLt.le

theorem stringWord_zero {bytes : List (BitVec 8)} (h : ∀ b ∈ bytes, b = 0) (k : Nat) :
    stringWord bytes k = 0 := by
  have hbyte : ∀ i : Nat, (bytes[i]?).getD 0 = 0 := by
    intro i
    cases hi : bytes[i]? with
    | none => rfl
    | some b => exact h b (List.mem_of_getElem? hi)
  unfold stringWord
  simp only [hbyte]
  decide

/-- **The registers after the first.** -/
theorem lswi_not_complete (h : lswi.Unlisted P insn) :
    ¬ lswi.CompleteFor P form insn (lswi.outputs insn ++ implicitRegisters form) := by
  obtain ⟨hcount, hvalid⟩ := h
  have hne : RT insn + Fin.ofNat 32 1 ≠ RT insn := by
    intro heq
    exact absurd (add_eq_left.mp heq) (by decide)
  have hrun : lswi.effect P form insn (sample 1 0 0 0 0 0) = some _ := if_neg hvalid
  refine not_complete_of_change (s := sample 1 0 0 0 0 0) (by rw [hrun]; rfl)
    (r := .gpr (RT insn + Fin.ofNat 32 1)) (by rintro (h | h) <;> cases h) ?_ ?_
  · rw [List.mem_append, not_or]
    constructor
    · intro hmem
      exact hne (Register.gpr.inj (List.mem_singleton.mp hmem))
    · unfold implicitRegisters
      split <;> split <;> simp [RawOperand.fieldRegisters, Register.crField]
  · have hlen : ∀ ea, (loadBytes (fun _ => 0) ea (immediateCount insn)).length =
        immediateCount insn := by simp [loadBytes]
    have hzero : ∀ ea, ∀ b ∈ loadBytes (fun _ => 0) ea (immediateCount insn), b = 0 := by
      intro ea b hb
      obtain ⟨-, -, rfl⟩ := List.mem_map.mp hb
      rfl
    have hle := immediateCount_le insn
    have hread := fun ea => stringWrites_read (r := RT insn) (k := 1)
      (by rw [hlen ea]; omega) (by rw [hlen ea]; omega) (sample 1 0 0 0 0 0).reg
    intro heq
    have hzeroWord := (hread _).symm.trans heq
    rw [stringWord_zero (hzero _)] at hzeroWord
    have hone : (0 : Word) ≠ 1 := by decide
    exact hone hzeroWord

/-- **The byte count.** -/
theorem lswx_not_complete (h : lswx.Unlisted P insn) :
    ¬ lswx.CompleteFor P form insn outputs := by
  obtain ⟨hra, hrb⟩ := h
  have hvalid : ∀ (i : Fin 32) (n : Nat), RT insn ≠ i → (n + 3) / 4 = 1 →
      i ∉ RT insn :: stringRegisters (RT insn) n := by
    intro i n hi hn hmem
    have hzero : RT insn + Fin.ofNat 32 0 = RT insn := add_zero _
    rw [stringRegisters, hn, List.range_one, List.map_singleton, hzero] at hmem
    simp only [List.mem_cons, List.not_mem_nil, or_false, or_self] at hmem
    exact hi hmem.symm
  have hrun : ∀ xer, (byteCount xer + 3) / 4 = 1 → byteCount xer ≠ 0 →
      lswx.effect P form insn (sample 0 0 0 xer 0 0xFF) = some
        { results := stringWrites (RT insn) (loadBytes (fun _ => 0xFF)
            ((sample 0 0 0 xer 0 0xFF).gprOrZero (RA insn) + (sample 0 0 0 xer 0 0xFF).gpr (RB insn))
            (byteCount xer))
          memory := fun _ => 0xFF } := by
    intro xer hword hne
    refine if_neg (not_or.mpr ⟨hvalid _ _ hra hword, not_or.mpr ⟨hvalid _ _ hrb hword, hne⟩⟩)
  have hspr : .SPR ∉ lswx.operands := by decide
  refine not_complete_of_xer hspr 0 0 0 0 0xFF 1 2 (hrun 1 (by decide) (by decide))
    (hrun 2 (by decide) (by decide)) (r := .gpr (RT insn + Fin.ofNat 32 0))
    (by rintro (h | h) <;> cases h) ?_
  intro heq
  have hread : ∀ (n : Nat) (ea : Word) (reg : (r : Register) → r.Value), (n + 3) / 4 = 1 →
      UseDefine.write reg (stringWrites (RT insn) (loadBytes (fun _ => 0xFF) ea n))
        (.gpr (RT insn + Fin.ofNat 32 0)) = stringWord (loadBytes (fun _ => 0xFF) ea n) 0 := by
    intro n ea reg hn
    have hlen : (loadBytes (fun _ => 0xFF) ea n).length = n := by simp [loadBytes]
    exact stringWrites_read (by rw [hlen]; omega) (by rw [hlen]; omega) reg
  have hword := (hread _ _ _ (by decide)).symm.trans (heq.trans (hread _ _ _ (by decide)))
  have hone : ∀ ea, loadBytes (fun _ => 0xFF) ea 1 = [0xFF] := fun _ => rfl
  have htwo : ∀ ea, loadBytes (fun _ => 0xFF) ea 2 = [0xFF, 0xFF] := fun _ => rfl
  have hcount : byteCount 1 = 1 := by decide
  have hcount' : byteCount 2 = 2 := by decide
  have hdiffer : stringWord [0xFF] 0 ≠ stringWord [0xFF, 0xFF] 0 := by decide
  rw [hcount, hcount', hone, htwo] at hword
  exact hdiffer hword

/-- **A format that reads or writes an unlisted register.** -/
theorem not_complete_of_unlisted {fmt : Format} (h : format form = some fmt)
    (hunlisted : fmt.Unlisted P insn) :
    ¬ fmt.CompleteFor P form insn (fmt.outputs insn ++ implicitRegisters form) := by
  cases fmt with
  | extended shape f => exact extended_not_complete h
  | compare shape lt => exact compare_not_complete hunlisted
  | rlwimi => exact rlwimi_not_complete hunlisted
  | floatArithmetic shape single => exact floatArithmetic_not_complete shape single
  | loadFloat mode single => exact loadFloat_not_complete hunlisted
  | psqL => exact psqL_not_complete hunlisted
  | lswi => exact lswi_not_complete hunlisted
  | lswx => exact lswx_not_complete hunlisted
  | _ => cases hunlisted

theorem floatRecord_format : ∀ form ∈ floatRecord, (format form).all (fun fmt =>
    match fmt with
    | floatMove _ | fsel | floatArithmetic _ _ => true
    | _ => false) = true := by
  decide

theorem floatRecord_not_complete {fmt : Format} (h : format form = some fmt)
    (hrecord : form ∈ floatRecord) :
    ¬ fmt.CompleteFor P form insn outputs := by
  have hfmt := floatRecord_format form hrecord
  rw [h, Option.all_some] at hfmt
  cases fmt with
  | floatMove f =>
    have hspr : .SPR ∉ (floatMove f).operands := by simp [operands]
    exact move_not_complete hspr hrecord _ fun _ => rfl
  | fsel => exact move_not_complete (by decide) hrecord _ fun _ => rfl
  | floatArithmetic shape single => exact floatArithmetic_not_complete shape single
  | _ => cases hfmt

end Format

end Isa

end Ppc2cpp
