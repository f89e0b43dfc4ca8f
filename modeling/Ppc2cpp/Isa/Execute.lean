import Ppc2cpp.Isa.Arithmetic

/-! Executing an instruction that is not a branch.

Instructions that differ only in the function they compute share a format. `format` lists the
format of every supported form, `Format.effect` says what an instruction of a format writes,
and `execute` is one instruction. There is no result where the architecture defines none: for
an invalid form of an instruction, and for a quotient that is undefined. -/
namespace Ppc2cpp.Isa

/-- The operands of an integer instruction: a target and two words. -/
inductive IntegerShape where
  | rtRaRb | rtRa | rtRaSi | rtRa0Si | raRsRb | raRs | raRsUi | raRsSh
deriving DecidableEq, Repr

namespace IntegerShape

def target (insn : Word) : IntegerShape → Fin 32
  | rtRaRb | rtRa | rtRaSi | rtRa0Si => RT insn
  | raRsRb | raRs | raRsUi | raRsSh => RA insn

def first (insn : Word) (cpu : Cpu) : IntegerShape → Word
  | rtRaRb | rtRa | rtRaSi => cpu.gpr (RA insn)
  | rtRa0Si => cpu.gprOrZero (RA insn)
  | raRsRb | raRs | raRsUi | raRsSh => cpu.gpr (RS insn)

def second (insn : Word) (cpu : Cpu) : IntegerShape → Word
  | rtRaRb | raRsRb => cpu.gpr (RB insn)
  | rtRa | raRs => 0
  | rtRaSi | rtRa0Si => SI insn
  | raRsUi => UI insn
  | raRsSh => BitVec.ofNat 32 (SH insn)

end IntegerShape

inductive CompareShape where
  | rb | si | ui
deriving DecidableEq, Repr

def CompareShape.second (insn : Word) (cpu : Cpu) : CompareShape → Word
  | rb => cpu.gpr (RB insn)
  | si => SI insn
  | ui => UI insn

/-- The operands of a floating point operation. -/
inductive FloatShape where
  | ab | ac | acb | b
deriving DecidableEq, Repr

/-- In the order in which a NaN among them is looked for. -/
def FloatShape.operands (insn : Word) (cpu : Cpu) : FloatShape → List (BitVec 64)
  | ab => [cpu.fpr (FRA insn), cpu.fpr (FRB insn)]
  | ac => [cpu.fpr (FRA insn), cpu.fpr (FRC insn)]
  | acb => [cpu.fpr (FRA insn), cpu.fpr (FRB insn), cpu.fpr (FRC insn)]
  | b => [cpu.fpr (FRB insn)]

/-- Displacement or index, without and with update of the base. -/
inductive AddressMode where
  | d | x | du | xu
deriving DecidableEq, Repr

namespace AddressMode

def update : AddressMode → Bool
  | d | x => false
  | du | xu => true

def address (insn : Word) (cpu : Cpu) : AddressMode → Word
  | d | du => cpu.gprOrZero (RA insn) + SI insn
  | x | xu => cpu.gprOrZero (RA insn) + cpu.gpr (RB insn)

/-- The write to the base of an update form. -/
def baseWrite (insn : Word) (ea : Word) (mode : AddressMode) : List Write :=
  if mode.update then [⟨.gpr (RA insn), ea⟩] else []

end AddressMode

inductive Format where
  | integer (shape : IntegerShape) (f : Word → Word → Option Outcome)
  /-- An integer instruction that reads the carry. -/
  | extended (shape : IntegerShape) (f : Word → Word → Bool → Outcome)
  | rlwinm | rlwnm | rlwimi
  | compare (shape : CompareShape) (lt : Word → Word → Bool)
  | crLogic (f : Bool → Bool → Bool)
  | mcrf | mfspr | mtspr
  | floatMove (f : BitVec 64 → BitVec 64)
  | fsel
  | floatArithmetic (shape : FloatShape) (single : Bool)
  | fcmp
  | load (mode : AddressMode) (f : Memory → Word → Word)
  | loadFloat (mode : AddressMode) (single : Bool)
  | lswi | lswx | psqL
  | store (mode : AddressMode) (size : Nat) (f : Word → Nat)
  | storeFloat (mode : AddressMode) (size : Nat) (f : Processor → BitVec 64 → Nat)
  | stswi | stswx | psqSt

/-- The bytes of a word the other way around. -/
def reverseWord (x : Nat) : Nat := bytesValue (valueBytes 4 x).reverse

def reverseHalf (x : Nat) : Nat := bytesValue (valueBytes 2 x).reverse

/-- The format of a supported form that is not a branch. -/
def format : Form → Option Format
  | .ADD | .ADD_ | .ADDO | .ADDO_ | .ADDC | .ADDC_ | .ADDCO | .ADDCO_ =>
    some (.integer .rtRaRb fun a b => some (sum a b false))
  | .ADDE | .ADDE_ | .ADDEO | .ADDEO_ => some (.extended .rtRaRb sum)
  | .ADDME | .ADDME_ | .ADDMEO | .ADDMEO_ => some (.extended .rtRa fun a _ c => sum a (-1) c)
  | .ADDZE | .ADDZE_ | .ADDZEO | .ADDZEO_ => some (.extended .rtRa fun a _ c => sum a 0 c)
  | .ADDIC | .ADDIC_ => some (.integer .rtRaSi fun a si => some (sum a si false))
  | .ADDI => some (.integer .rtRa0Si fun a si => some (sum a si false))
  | .ADDIS => some (.integer .rtRa0Si fun a si => some (sum a (si <<< 16) false))
  | .SUBF | .SUBF_ | .SUBFO | .SUBFO_ | .SUBFC | .SUBFC_ | .SUBFCO | .SUBFCO_ =>
    some (.integer .rtRaRb fun a b => some (sum (~~~a) b true))
  | .SUBFE | .SUBFE_ | .SUBFEO | .SUBFEO_ => some (.extended .rtRaRb fun a b c => sum (~~~a) b c)
  | .SUBFME | .SUBFME_ | .SUBFMEO | .SUBFMEO_ =>
    some (.extended .rtRa fun a _ c => sum (~~~a) (-1) c)
  | .SUBFZE | .SUBFZE_ | .SUBFZEO | .SUBFZEO_ =>
    some (.extended .rtRa fun a _ c => sum (~~~a) 0 c)
  | .SUBFIC => some (.integer .rtRaSi fun a si => some (sum (~~~a) si true))
  | .NEG | .NEG_ | .NEGO | .NEGO_ => some (.integer .rtRa fun a _ => some (sum (~~~a) 0 true))
  | .MULLI => some (.integer .rtRaSi multiplyLow)
  | .MULLW | .MULLW_ | .MULLWO | .MULLWO_ => some (.integer .rtRaRb multiplyLow)
  | .MULHW | .MULHW_ => some (.integer .rtRaRb multiplyHigh)
  | .MULHWU | .MULHWU_ => some (.integer .rtRaRb multiplyHighUnsigned)
  | .DIVW | .DIVW_ | .DIVWO | .DIVWO_ => some (.integer .rtRaRb divide)
  | .DIVWU | .DIVWU_ | .DIVWUO | .DIVWUO_ => some (.integer .rtRaRb divideUnsigned)
  | .AND | .AND_ => some (.integer .raRsRb fun a b => plain (a &&& b))
  | .ANDC | .ANDC_ => some (.integer .raRsRb fun a b => plain (a &&& ~~~b))
  | .OR | .OR_ => some (.integer .raRsRb fun a b => plain (a ||| b))
  | .ORC | .ORC_ => some (.integer .raRsRb fun a b => plain (a ||| ~~~b))
  | .XOR | .XOR_ => some (.integer .raRsRb fun a b => plain (a ^^^ b))
  | .EQV | .EQV_ => some (.integer .raRsRb fun a b => plain (~~~(a ^^^ b)))
  | .NAND | .NAND_ => some (.integer .raRsRb fun a b => plain (~~~(a &&& b)))
  | .NOR | .NOR_ => some (.integer .raRsRb fun a b => plain (~~~(a ||| b)))
  | .ANDI_ => some (.integer .raRsUi fun a ui => plain (a &&& ui))
  | .ANDIS_ => some (.integer .raRsUi fun a ui => plain (a &&& ui <<< 16))
  | .ORI => some (.integer .raRsUi fun a ui => plain (a ||| ui))
  | .ORIS => some (.integer .raRsUi fun a ui => plain (a ||| ui <<< 16))
  | .XORI => some (.integer .raRsUi fun a ui => plain (a ^^^ ui))
  | .XORIS => some (.integer .raRsUi fun a ui => plain (a ^^^ ui <<< 16))
  | .CNTLZW | .CNTLZW_ => some (.integer .raRs fun a _ => plain a.clz)
  | .EXTSB | .EXTSB_ => some (.integer .raRs fun a _ => plain ((a.truncate 8).signExtend 32))
  | .EXTSH | .EXTSH_ => some (.integer .raRs fun a _ => plain ((a.truncate 16).signExtend 32))
  | .SLW | .SLW_ => some (.integer .raRsRb fun a b => plain (a <<< shiftAmount b))
  | .SRW | .SRW_ => some (.integer .raRsRb fun a b => plain (a >>> shiftAmount b))
  | .SRAW | .SRAW_ => some (.integer .raRsRb fun a b => shiftRightAlgebraic a (shiftAmount b))
  | .SRAWI | .SRAWI_ => some (.integer .raRsSh fun a n => shiftRightAlgebraic a n.toNat)
  | .RLWINM | .RLWINM_ => some .rlwinm
  | .RLWNM | .RLWNM_ => some .rlwnm
  | .RLWIMI | .RLWIMI_ => some .rlwimi
  | .CMP => some (.compare .rb BitVec.slt)
  | .CMPI => some (.compare .si BitVec.slt)
  | .CMPL => some (.compare .rb BitVec.ult)
  | .CMPLI => some (.compare .ui BitVec.ult)
  | .CRAND => some (.crLogic fun a b => a && b)
  | .CRANDC => some (.crLogic fun a b => a && !b)
  | .CREQV => some (.crLogic fun a b => a == b)
  | .CRNAND => some (.crLogic fun a b => !(a && b))
  | .CRNOR => some (.crLogic fun a b => !(a || b))
  | .CROR => some (.crLogic fun a b => a || b)
  | .CRORC => some (.crLogic fun a b => a || !b)
  | .CRXOR => some (.crLogic fun a b => a != b)
  | .MCRF => some .mcrf
  | .MFSPR => some .mfspr
  | .MTSPR => some .mtspr
  | .FMR | .FMR_ => some (.floatMove id)
  | .FNEG | .FNEG_ => some (.floatMove negate)
  | .FABS | .FABS_ => some (.floatMove absolute)
  | .FNABS | .FNABS_ => some (.floatMove fun b => negate (absolute b))
  | .FSEL | .FSEL_ => some .fsel
  | .FADD | .FADD_ | .FSUB | .FSUB_ | .FDIV | .FDIV_ => some (.floatArithmetic .ab false)
  | .FADDS | .FADDS_ | .FSUBS | .FSUBS_ | .FDIVS | .FDIVS_ => some (.floatArithmetic .ab true)
  | .FMUL | .FMUL_ => some (.floatArithmetic .ac false)
  | .FMULS | .FMULS_ => some (.floatArithmetic .ac true)
  | .FMADD | .FMADD_ | .FMSUB | .FMSUB_ | .FNMADD | .FNMADD_ | .FNMSUB | .FNMSUB_ =>
    some (.floatArithmetic .acb false)
  | .FMADDS | .FMADDS_ | .FMSUBS | .FMSUBS_ | .FNMADDS | .FNMADDS_ | .FNMSUBS | .FNMSUBS_ =>
    some (.floatArithmetic .acb true)
  | .FCTIW | .FCTIW_ | .FCTIWZ | .FCTIWZ_ | .FRSQRTE | .FRSQRTE_ | .FSQRT | .FSQRT_ =>
    some (.floatArithmetic .b false)
  | .FRES | .FRES_ | .FRSP | .FRSP_ | .FSQRTS | .FSQRTS_ => some (.floatArithmetic .b true)
  | .FCMPO | .FCMPU => some .fcmp
  | .LBZ => some (.load .d fun m ea => (loadByte m ea).zeroExtend 32)
  | .LBZX => some (.load .x fun m ea => (loadByte m ea).zeroExtend 32)
  | .LBZU => some (.load .du fun m ea => (loadByte m ea).zeroExtend 32)
  | .LBZUX => some (.load .xu fun m ea => (loadByte m ea).zeroExtend 32)
  | .LHZ => some (.load .d fun m ea => (loadHalf m ea).zeroExtend 32)
  | .LHZX => some (.load .x fun m ea => (loadHalf m ea).zeroExtend 32)
  | .LHZU => some (.load .du fun m ea => (loadHalf m ea).zeroExtend 32)
  | .LHZUX => some (.load .xu fun m ea => (loadHalf m ea).zeroExtend 32)
  | .LHA => some (.load .d fun m ea => (loadHalf m ea).signExtend 32)
  | .LHAX => some (.load .x fun m ea => (loadHalf m ea).signExtend 32)
  | .LHAU => some (.load .du fun m ea => (loadHalf m ea).signExtend 32)
  | .LHAUX => some (.load .xu fun m ea => (loadHalf m ea).signExtend 32)
  | .LWZ => some (.load .d loadWord)
  | .LWZX => some (.load .x loadWord)
  | .LWZU => some (.load .du loadWord)
  | .LWZUX => some (.load .xu loadWord)
  | .LHBRX => some (.load .x fun m ea => BitVec.ofNat 32 (reverseHalf (loadHalf m ea).toNat))
  | .LWBRX => some (.load .x fun m ea => BitVec.ofNat 32 (reverseWord (loadWord m ea).toNat))
  | .LFS => some (.loadFloat .d true)
  | .LFSX => some (.loadFloat .x true)
  | .LFSU => some (.loadFloat .du true)
  | .LFSUX => some (.loadFloat .xu true)
  | .LFD => some (.loadFloat .d false)
  | .LFDX => some (.loadFloat .x false)
  | .LFDU => some (.loadFloat .du false)
  | .LFDUX => some (.loadFloat .xu false)
  | .LSWI => some .lswi
  | .LSWX => some .lswx
  | .PSQ_L => some .psqL
  | .STB => some (.store .d 1 BitVec.toNat)
  | .STBX => some (.store .x 1 BitVec.toNat)
  | .STBU => some (.store .du 1 BitVec.toNat)
  | .STBUX => some (.store .xu 1 BitVec.toNat)
  | .STH => some (.store .d 2 BitVec.toNat)
  | .STHX => some (.store .x 2 BitVec.toNat)
  | .STHU => some (.store .du 2 BitVec.toNat)
  | .STHUX => some (.store .xu 2 BitVec.toNat)
  | .STW => some (.store .d 4 BitVec.toNat)
  | .STWX => some (.store .x 4 BitVec.toNat)
  | .STWU => some (.store .du 4 BitVec.toNat)
  | .STWUX => some (.store .xu 4 BitVec.toNat)
  | .STHBRX => some (.store .x 2 fun s => reverseHalf s.toNat)
  | .STWBRX => some (.store .x 4 fun s => reverseWord s.toNat)
  | .STFS => some (.storeFloat .d 4 fun P s => (P.toSingle s).toNat)
  | .STFSX => some (.storeFloat .x 4 fun P s => (P.toSingle s).toNat)
  | .STFSU => some (.storeFloat .du 4 fun P s => (P.toSingle s).toNat)
  | .STFSUX => some (.storeFloat .xu 4 fun P s => (P.toSingle s).toNat)
  | .STFD => some (.storeFloat .d 8 fun _ s => s.toNat)
  | .STFDX => some (.storeFloat .x 8 fun _ s => s.toNat)
  | .STFDU => some (.storeFloat .du 8 fun _ s => s.toNat)
  | .STFDUX => some (.storeFloat .xu 8 fun _ s => s.toNat)
  -- the low word, whatever it holds
  | .STFIWX => some (.storeFloat .x 4 fun _ s => s.toNat)
  | .STSWI => some .stswi
  | .STSWX => some .stswx
  | .PSQ_ST => some .psqSt
  | .B | .BA | .BC | .BCA | .BCCTR | .BCCTRL | .BCL | .BCLA | .BCLR | .BCLRL | .BL | .BLA
  | .unlisted => none

/-! ### The forms by what they set -/

/-- The integer forms that compare their result with zero, for field 0 of the condition
register. -/
def integerRecord : List Form :=
  [.ADD_, .ADDO_, .ADDC_, .ADDCO_, .ADDE_, .ADDEO_, .ADDIC_, .ADDME_, .ADDMEO_, .ADDZE_,
   .ADDZEO_, .SUBF_, .SUBFO_, .SUBFC_, .SUBFCO_, .SUBFE_, .SUBFEO_, .SUBFME_, .SUBFMEO_, .SUBFZE_,
   .SUBFZEO_, .NEG_, .NEGO_, .MULLW_, .MULLWO_, .MULHW_, .MULHWU_, .DIVW_, .DIVWO_, .DIVWU_,
   .DIVWUO_, .AND_, .ANDC_, .ANDI_, .ANDIS_, .OR_, .ORC_, .XOR_, .EQV_, .NAND_, .NOR_, .CNTLZW_,
   .EXTSB_, .EXTSH_, .SLW_, .SRW_, .SRAW_, .SRAWI_, .RLWINM_, .RLWNM_, .RLWIMI_]

/-- The floating point forms that copy the exception summary to field 1. -/
def floatRecord : List Form :=
  [.FMR_, .FNEG_, .FABS_, .FNABS_, .FSEL_, .FADD_, .FADDS_, .FSUB_, .FSUBS_, .FMUL_, .FMULS_,
   .FDIV_, .FDIVS_, .FMADD_, .FMADDS_, .FMSUB_, .FMSUBS_, .FNMADD_, .FNMADDS_, .FNMSUB_,
   .FNMSUBS_, .FRES_, .FRSQRTE_, .FSQRT_, .FSQRTS_, .FRSP_, .FCTIW_, .FCTIWZ_]

def setsCarry : List Form :=
  [.ADDC, .ADDC_, .ADDCO, .ADDCO_, .ADDE, .ADDE_, .ADDEO, .ADDEO_, .ADDIC, .ADDIC_, .ADDME,
   .ADDME_, .ADDMEO, .ADDMEO_, .ADDZE, .ADDZE_, .ADDZEO, .ADDZEO_, .SUBFC, .SUBFC_, .SUBFCO,
   .SUBFCO_, .SUBFE, .SUBFE_, .SUBFEO, .SUBFEO_, .SUBFIC, .SUBFME, .SUBFME_, .SUBFMEO, .SUBFMEO_,
   .SUBFZE, .SUBFZE_, .SUBFZEO, .SUBFZEO_, .SRAW, .SRAW_, .SRAWI, .SRAWI_]

def setsOverflow : List Form :=
  [.ADDO, .ADDO_, .ADDCO, .ADDCO_, .ADDEO, .ADDEO_, .ADDMEO, .ADDMEO_, .ADDZEO, .ADDZEO_, .SUBFO,
   .SUBFO_, .SUBFCO, .SUBFCO_, .SUBFEO, .SUBFEO_, .SUBFMEO, .SUBFMEO_, .SUBFZEO, .SUBFZEO_, .NEGO,
   .NEGO_, .MULLWO, .MULLWO_, .DIVWO, .DIVWO_, .DIVWUO, .DIVWUO_]

/-! ### What an instruction writes -/

/-- The exception register after an integer instruction. The overflow is also added to its
summary. -/
def xerAfter (form : Form) (outcome : Outcome) (xer : Word) : Word :=
  let xer := if form ∈ setsCarry then putBit xer 2 outcome.carry else xer
  if form ∈ setsOverflow then
    putBit (putBit xer 1 outcome.overflow) 0 (SO xer || outcome.overflow)
  else xer

/-- A comparison with the summary overflow as its fourth bit. -/
def comparisonWrites (bf : Fin 8) (lt gt eq so : Bool) : List Write :=
  [⟨.crField bf 0, lt⟩, ⟨.crField bf 1, gt⟩, ⟨.crField bf 2, eq⟩, ⟨.crField bf 3, so⟩]

def recordWrites (form : Form) (value xer : Word) : List Write :=
  if form ∈ integerRecord then
    comparisonWrites 0 (value.slt 0) (BitVec.slt 0 value) (value == 0) (SO xer)
  else []

/-- The target and the condition and exception registers. -/
def integerEffect (form : Form) (cpu : Cpu) (target : Fin 32) (outcome : Outcome) : Effect :=
  let xer := xerAfter form outcome cpu.xer
  { results := ⟨.gpr target, outcome.value⟩ :: recordWrites form outcome.value xer
    status := [⟨.xer, xer⟩]
    memory := cpu.memory }

def floatRecordWrites (form : Form) (fpscr : Word) : List Write :=
  if form ∈ floatRecord then
    [⟨.crField 1 0, fpscr.getMsbD 0⟩, ⟨.crField 1 1, fpscr.getMsbD 1⟩,
     ⟨.crField 1 2, fpscr.getMsbD 2⟩, ⟨.crField 1 3, fpscr.getMsbD 3⟩]
  else []

/-- A floating point register, with its second half for a single precision value. -/
def floatWrites (P : Processor) (single : Bool) (target : Fin 32) (value : BitVec 64) :
    List Write :=
  ⟨.fpr target, value⟩ :: if single && P.pairedSingle then [⟨.ps1 target, value⟩] else []

/-- The number of bytes a load or store string immediate moves. -/
def immediateCount (insn : Word) : Nat := if NB insn = 0 then 32 else NB insn

/-- The registers a string of bytes takes, from one on and around the end. -/
def stringRegisters (r : Fin 32) (count : Nat) : List (Fin 32) :=
  (List.range ((count + 3) / 4)).map fun k => r + Fin.ofNat 32 k

/-- The word at a place of a string, with zeros after the last byte. -/
def stringWord (bytes : List (BitVec 8)) (k : Nat) : Word :=
  BitVec.ofNat 32 (bytesValue ((List.range 4).map fun i => (bytes[4 * k + i]?).getD 0))

def stringWrites (r : Fin 32) (bytes : List (BitVec 8)) : List Write :=
  (List.range ((bytes.length + 3) / 4)).map fun k =>
    ⟨.gpr (r + Fin.ofNat 32 k), stringWord bytes k⟩

/-- The bytes of consecutive registers. -/
def stringBytes (cpu : Cpu) (r : Fin 32) (count : Nat) : List (BitVec 8) :=
  ((List.range ((count + 3) / 4)).flatMap fun k =>
    valueBytes 4 (cpu.gpr (r + Fin.ofNat 32 k)).toNat).take count

/-- What an instruction of a format writes; none for an invalid form or an undefined result. -/
def Format.effect (P : Processor) (form : Form) (insn : Word) (cpu : Cpu) : Format → Option Effect
  | integer shape f =>
    (f (shape.first insn cpu) (shape.second insn cpu)).map
      (integerEffect form cpu (shape.target insn))
  | extended shape f =>
    some (integerEffect form cpu (shape.target insn)
      (f (shape.first insn cpu) (shape.second insn cpu) (CA cpu.xer)))
  | rlwinm =>
    let rotated := (cpu.gpr (RS insn)).rotateLeft (SH insn)
    some (integerEffect form cpu (RA insn) {value := rotated &&& mask (MB insn) (ME insn)})
  | rlwnm =>
    let rotated := (cpu.gpr (RS insn)).rotateLeft ((cpu.gpr (RB insn)).toNat % 32)
    some (integerEffect form cpu (RA insn) {value := rotated &&& mask (MB insn) (ME insn)})
  | rlwimi =>
    let m := mask (MB insn) (ME insn)
    let rotated := (cpu.gpr (RS insn)).rotateLeft (SH insn)
    some (integerEffect form cpu (RA insn)
      {value := (rotated &&& m) ||| (cpu.gpr (RA insn) &&& ~~~m)})
  | compare shape lt =>
    -- doublewords are compared on other processors only
    if L insn then none
    else
      let a := cpu.gpr (RA insn)
      let b := shape.second insn cpu
      some
        { results := comparisonWrites (BF insn) (lt a b) (lt b a) (a == b) (SO cpu.xer)
          memory := cpu.memory }
  | crLogic f =>
    some
      { results := [⟨.crBit (BT insn), f (cpu.crBit (BA insn)) (cpu.crBit (BB insn))⟩]
        memory := cpu.memory }
  | mcrf =>
    some
      { results :=
          [⟨.crField (BF insn) 0, cpu.crField (BFA insn) 0⟩,
           ⟨.crField (BF insn) 1, cpu.crField (BFA insn) 1⟩,
           ⟨.crField (BF insn) 2, cpu.crField (BFA insn) 2⟩,
           ⟨.crField (BF insn) 3, cpu.crField (BFA insn) 3⟩]
        memory := cpu.memory }
  | mfspr => some {results := [⟨.gpr (RT insn), cpu.spr (SPR insn)⟩], memory := cpu.memory}
  | mtspr => some {results := [⟨.spr (SPR insn), cpu.gpr (RS insn)⟩], memory := cpu.memory}
  | floatMove f =>
    some
      { results := ⟨.fpr (FRT insn), f (cpu.fpr (FRB insn))⟩ :: floatRecordWrites form cpu.fpscr
        memory := cpu.memory }
  | fsel =>
    let value := if atLeastZero (cpu.fpr (FRA insn)) then cpu.fpr (FRC insn) else cpu.fpr (FRB insn)
    some
      { results := ⟨.fpr (FRT insn), value⟩ :: floatRecordWrites form cpu.fpscr
        memory := cpu.memory }
  | floatArithmetic shape single =>
    let operands := shape.operands insn cpu
    let fpscr := P.status form operands cpu.fpscr
    let target :=
      match floatResult P form operands cpu.fpscr with
      | some value => floatWrites P single (FRT insn) value
      | none => []
    some
      { results := target ++ floatRecordWrites form fpscr
        status := [⟨.fpscr, fpscr⟩]
        memory := cpu.memory }
  | fcmp =>
    let operands := [cpu.fpr (FRA insn), cpu.fpr (FRB insn)]
    let c := P.compare (cpu.fpr (FRA insn)) (cpu.fpr (FRB insn))
    some
      { results := comparisonWrites (BF insn) c.less c.greater c.equal c.unordered
        status := [⟨.fpscr, P.status form operands cpu.fpscr⟩]
        memory := cpu.memory }
  | load mode f =>
    if mode.update && (RA insn == 0 || RA insn == RT insn) then none
    else
      let ea := mode.address insn cpu
      some
        { results := ⟨.gpr (RT insn), f cpu.memory ea⟩ :: mode.baseWrite insn ea
          memory := cpu.memory }
  | loadFloat mode single =>
    if mode.update && RA insn == 0 then none
    else
      let ea := mode.address insn cpu
      let value := if single then P.toDouble (loadWord cpu.memory ea) else loadDouble cpu.memory ea
      some
        { results := floatWrites P single (FRT insn) value ++ mode.baseWrite insn ea
          memory := cpu.memory }
  | lswi =>
    let count := immediateCount insn
    if RA insn ∈ stringRegisters (RT insn) count then none
    else
      let bytes := loadBytes cpu.memory (cpu.gprOrZero (RA insn)) count
      some {results := stringWrites (RT insn) bytes, memory := cpu.memory}
  | lswx =>
    let count := byteCount cpu.xer
    if RA insn ∈ RT insn :: stringRegisters (RT insn) count ∨
        RB insn ∈ RT insn :: stringRegisters (RT insn) count ∨ count = 0 then none
    else
      let bytes := loadBytes cpu.memory (cpu.gprOrZero (RA insn) + cpu.gpr (RB insn)) count
      some {results := stringWrites (RT insn) bytes, memory := cpu.memory}
  | psqL =>
    if !P.pairedSingle then none
    else
      let ea := cpu.gprOrZero (RA insn) + PSD insn
      let pair := P.dequantize (cpu.gqr (PSQ insn)) cpu.memory ea (PSW insn)
      some
        { results := [⟨.fpr (FRT insn), pair.1⟩, ⟨.ps1 (FRT insn), pair.2⟩]
          memory := cpu.memory }
  | store mode size f =>
    if mode.update && RA insn == 0 then none
    else
      let ea := mode.address insn cpu
      some
        { results := mode.baseWrite insn ea
          memory := storeBytes cpu.memory ea (valueBytes size (f (cpu.gpr (RS insn)))) }
  | storeFloat mode size f =>
    if mode.update && RA insn == 0 then none
    else
      let ea := mode.address insn cpu
      some
        { results := mode.baseWrite insn ea
          memory := storeBytes cpu.memory ea (valueBytes size (f P (cpu.fpr (FRS insn)))) }
  | stswi =>
    let bytes := stringBytes cpu (RS insn) (immediateCount insn)
    some {results := [], memory := storeBytes cpu.memory (cpu.gprOrZero (RA insn)) bytes}
  | stswx =>
    let bytes := stringBytes cpu (RS insn) (byteCount cpu.xer)
    let ea := cpu.gprOrZero (RA insn) + cpu.gpr (RB insn)
    some {results := [], memory := storeBytes cpu.memory ea bytes}
  | psqSt =>
    if !P.pairedSingle then none
    else
      let ea := cpu.gprOrZero (RA insn) + PSD insn
      let bytes :=
        P.quantize (cpu.gqr (PSQ insn)) (cpu.fpr (FRS insn), cpu.ps1 (FRS insn)) (PSW insn)
      some {results := [], memory := storeBytes cpu.memory ea bytes}

def effect (P : Processor) (form : Form) (insn : Word) (cpu : Cpu) : Option Effect :=
  (format form).bind fun fmt => fmt.effect P form insn cpu

/-- **One instruction.** -/
def execute (P : Processor) (form : Form) (insn : Word) (cpu : Cpu) : Option Cpu :=
  (effect P form insn cpu).map (·.apply cpu)

end Ppc2cpp.Isa
