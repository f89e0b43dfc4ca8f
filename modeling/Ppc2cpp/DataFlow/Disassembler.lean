import Ppc2cpp.Common.InsnProperties

/-! What the analyses know of the disassembler.

`ppcdisasm` is a library of its own: its opcode table and its operand table are
parameters here (`Ppcdisasm`), and nothing is assumed of them but what a theorem
names. The code compares the `opcode` word of a table entry with constants
`PPC_FORM_…`; `Form` has one value for each constant the code uses, and `unlisted`
for the rest. An operand is told by its index, where the code looks for `RAL`, `RAS`
and the branch fields, and by its flags. -/
namespace Ppc2cpp

/-- In raw mode all operands are listed and only base mnemonics are used. -/
inductive Dialect where
  | ppc750cl
  | raw
deriving DecidableEq, Repr

/-- The instruction forms the code names. -/
inductive Form where
  | ADD | ADD_ | ADDC | ADDC_ | ADDCO | ADDCO_ | ADDE | ADDE_ | ADDEO | ADDEO_ | ADDI | ADDIC
  | ADDIC_ | ADDIS | ADDME | ADDME_ | ADDMEO | ADDMEO_ | ADDO | ADDO_ | ADDZE | ADDZE_ | ADDZEO
  | ADDZEO_ | AND | AND_ | ANDC | ANDC_ | ANDI_ | ANDIS_ | CMP | CMPI | CMPL | CMPLI | CNTLZW
  | CNTLZW_ | CRAND | CRANDC | CREQV | CRNAND | CRNOR | CROR | CRORC | CRXOR | EQV | EQV_ | EXTSB
  | EXTSB_ | EXTSH | EXTSH_ | DIVW | DIVW_ | DIVWO | DIVWO_ | DIVWU | DIVWU_ | DIVWUO | DIVWUO_
  | MCRF | MFSPR | MTSPR | MULHW | MULHW_ | MULHWU | MULHWU_ | MULLI | MULLW | MULLW_ | MULLWO
  | MULLWO_ | NAND | NAND_ | NEG | NEG_ | NEGO | NEGO_ | NOR | NOR_ | OR | OR_ | ORC | ORC_ | ORI
  | ORIS | RLWIMI | RLWIMI_ | RLWINM | RLWINM_ | RLWNM | RLWNM_ | SLW | SLW_ | SRAW | SRAW_
  | SRAWI | SRAWI_ | SRW | SRW_ | SUBF | SUBF_ | SUBFC | SUBFC_ | SUBFCO | SUBFCO_ | SUBFE
  | SUBFE_ | SUBFEO | SUBFEO_ | SUBFIC | SUBFME | SUBFME_ | SUBFMEO | SUBFMEO_ | SUBFO | SUBFO_
  | SUBFZE | SUBFZE_ | SUBFZEO | SUBFZEO_ | XOR | XOR_ | XORI | XORIS | FABS_ | FABS | FADD_
  | FADD | FADDS_ | FADDS | FCMPO | FCMPU | FCTIW_ | FCTIW | FCTIWZ_ | FCTIWZ | FDIV_ | FDIV
  | FDIVS_ | FDIVS | FMADD_ | FMADD | FMADDS_ | FMADDS | FMR_ | FMR | FMSUB_ | FMSUB | FMSUBS_
  | FMSUBS | FMUL_ | FMUL | FMULS_ | FMULS | FNABS_ | FNABS | FNEG_ | FNEG | FNMADD_ | FNMADD
  | FNMADDS_ | FNMADDS | FNMSUB_ | FNMSUB | FNMSUBS_ | FNMSUBS | FRES_ | FRES | FRSP_ | FRSP
  | FRSQRTE_ | FRSQRTE | FSEL_ | FSEL | FSQRT_ | FSQRT | FSQRTS_ | FSQRTS | FSUB_ | FSUB | FSUBS_
  | FSUBS | LBZ | LBZU | LBZUX | LBZX | LFD | LFDU | LFDUX | LFDX | LFS | LFSU | LFSUX | LFSX
  | LHA | LHAU | LHAUX | LHAX | LHBRX | LHZ | LHZU | LHZUX | LHZX | LSWI | LSWX | LWBRX | LWZ
  | LWZU | LWZUX | LWZX | PSQ_L | STB | STBU | STBUX | STBX | STFD | STFDU | STFDUX | STFDX
  | STFIWX | STFS | STFSU | STFSUX | STFSX | STH | STHBRX | STHU | STHUX | STHX | STSWI | STSWX
  | STW | STWBRX | STWU | STWUX | STWX | PSQ_ST | B | BA | BC | BCA | BCCTR | BCCTRL | BCL | BCLA
  | BCLR | BCLRL | BL | BLA | unlisted
deriving DecidableEq, Repr

/-- The operand flags the code tests; `other` stands for any further bit. -/
inductive OperandFlag where
  | GPR | GPR_0 | FPR | GQR | CR_BIT | CR_REG | SPR
  | SIGNED | ABSOLUTE | PARENS | RELATIVE | PLUS1 | NEGATIVE | SIGNOPT | OPTIONAL | NEXT
  | OPTIONAL32 | other
deriving DecidableEq, Repr

/-- Operand indices the code names, and the others by their number. -/
inductive OperandIdx where
  | RAL | RAS | LI | BD | BO | BI
  | other (n : Nat)
deriving DecidableEq, Repr

/-- An entry of the opcode table. `entry` is its place in the table, so that two
entries are equal only if they are the same entry. -/
structure Opcode where
  entry : Nat
  opcode : Form
  name : String
  operands : List OperandIdx
deriving DecidableEq, Repr

structure Ppcdisasm where
  lookupPowerpc : Word → Dialect → Option Opcode
  /-- The number of an operand index. -/
  operandNumber : OperandIdx → Nat
  powerpcOperands : OperandIdx → List OperandFlag
  operandValuePowerpc : OperandIdx → Word → Dialect → Int

/-! ### Instruction set partitioning

The following sets partition the supported PowerPC instruction set. -/

/-- PowerPC fixed point unit instruction. -/
def fixedPointInsn : List Form :=
  [.ADD, .ADD_, .ADDC, .ADDC_, .ADDCO, .ADDCO_, .ADDE, .ADDE_, .ADDEO, .ADDEO_, .ADDI, .ADDIC,
   .ADDIC_, .ADDIS, .ADDME, .ADDME_, .ADDMEO, .ADDMEO_, .ADDO, .ADDO_, .ADDZE, .ADDZE_, .ADDZEO,
   .ADDZEO_, .AND, .AND_, .ANDC, .ANDC_, .ANDI_, .ANDIS_, .CMP, .CMPI, .CMPL, .CMPLI, .CNTLZW,
   .CNTLZW_, .CRAND, .CRANDC, .CREQV, .CRNAND, .CRNOR, .CROR, .CRORC, .CRXOR, .EQV, .EQV_,
   .EXTSB, .EXTSB_, .EXTSH, .EXTSH_, .DIVW, .DIVW_, .DIVWO, .DIVWO_, .DIVWU, .DIVWU_, .DIVWUO,
   .DIVWUO_, .MCRF, .MFSPR, .MTSPR, .MULHW, .MULHW_, .MULHWU, .MULHWU_, .MULLI, .MULLW, .MULLW_,
   .MULLWO, .MULLWO_, .NAND, .NAND_, .NEG, .NEG_, .NEGO, .NEGO_, .NOR, .NOR_, .OR, .OR_, .ORC,
   .ORC_, .ORI, .ORIS, .RLWIMI, .RLWIMI_, .RLWINM, .RLWINM_, .RLWNM, .RLWNM_, .SLW, .SLW_, .SRAW,
   .SRAW_, .SRAWI, .SRAWI_, .SRW, .SRW_, .SUBF, .SUBF_, .SUBFC, .SUBFC_, .SUBFCO, .SUBFCO_,
   .SUBFE, .SUBFE_, .SUBFEO, .SUBFEO_, .SUBFIC, .SUBFME, .SUBFME_, .SUBFMEO, .SUBFMEO_, .SUBFO,
   .SUBFO_, .SUBFZE, .SUBFZE_, .SUBFZEO, .SUBFZEO_, .XOR, .XOR_, .XORI, .XORIS]

/-- PowerPC floating point unit instruction. -/
def floatInsn : List Form :=
  [.FABS_, .FABS, .FADD_, .FADD, .FADDS_, .FADDS, .FCMPO, .FCMPU, .FCTIW_, .FCTIW, .FCTIWZ_,
   .FCTIWZ, .FDIV_, .FDIV, .FDIVS_, .FDIVS, .FMADD_, .FMADD, .FMADDS_, .FMADDS, .FMR_, .FMR,
   .FMSUB_, .FMSUB, .FMSUBS_, .FMSUBS, .FMUL_, .FMUL, .FMULS_, .FMULS, .FNABS_, .FNABS, .FNEG_,
   .FNEG, .FNMADD_, .FNMADD, .FNMADDS_, .FNMADDS, .FNMSUB_, .FNMSUB, .FNMSUBS_, .FNMSUBS, .FRES_,
   .FRES, .FRSP_, .FRSP, .FRSQRTE_, .FRSQRTE, .FSEL_, .FSEL, .FSQRT_, .FSQRT, .FSQRTS_, .FSQRTS,
   .FSUB_, .FSUB, .FSUBS_, .FSUBS]

def loadInsn : List Form :=
  [.LBZ, .LBZU, .LBZUX, .LBZX, .LFD, .LFDU, .LFDUX, .LFDX, .LFS, .LFSU, .LFSUX, .LFSX, .LHA,
   .LHAU, .LHAUX, .LHAX, .LHBRX, .LHZ, .LHZU, .LHZUX, .LHZX, .LSWI, .LSWX, .LWBRX, .LWZ, .LWZU,
   .LWZUX, .LWZX, .PSQ_L]

def storeInsn : List Form :=
  [.STB, .STBU, .STBUX, .STBX, .STFD, .STFDU, .STFDUX, .STFDX, .STFIWX, .STFS, .STFSU, .STFSUX,
   .STFSX, .STH, .STHBRX, .STHU, .STHUX, .STHX, .STSWI, .STSWX, .STW, .STWBRX, .STWU, .STWUX,
   .STWX, .PSQ_ST]

def branchInsn : List Form :=
  [.B, .BA, .BC, .BCA, .BCCTR, .BCCTRL, .BCL, .BCLA, .BCLR, .BCLRL, .BL, .BLA]

def setsCR0 : List Form :=
  [.ADD_, .ADDC_, .ADDCO_, .ADDE_, .ADDEO_, .ADDIC_, .ADDME_, .ADDMEO_, .ADDO_, .ADDZE_,
   .ADDZEO_, .AND_, .ANDC_, .ANDI_, .ANDIS_, .CNTLZW_, .DIVW_, .DIVWO_, .DIVWU_, .DIVWUO_, .EQV_,
   .EXTSB_, .EXTSH_, .MULHW_, .MULHWU_, .MULLW_, .MULLWO_, .NAND_, .NEG_, .NEGO_, .NOR_, .OR_,
   .ORC_, .RLWIMI_, .RLWINM_, .RLWNM_, .SLW_, .SRAW_, .SRAWI_, .SRW_, .SUBF_, .SUBFC_, .SUBFCO_,
   .SUBFE_, .SUBFEO_, .SUBFME_, .SUBFMEO_, .SUBFO_, .SUBFZE_, .SUBFZEO_, .XOR_]

def setsCR1 : List Form :=
  [.FABS_, .FADD_, .FADDS_, .FCTIW_, .FCTIWZ_, .FDIV_, .FDIVS_, .FMADD_, .FMADDS_, .FMR_,
   .FMSUB_, .FMSUBS_, .FMUL_, .FMULS_, .FNABS_, .FNEG_, .FNMADD_, .FNMADDS_, .FNMSUB_, .FNMSUBS_,
   .FRES_, .FRSP_, .FRSQRTE_, .FSEL_, .FSQRT_, .FSQRTS_, .FSUB_, .FSUBS_]

/-- The instructions whose first register operand is the output. -/
def nonStoreInsn : List Form := fixedPointInsn ++ floatInsn ++ loadInsn

def supportedInsn : List Form := nonStoreInsn ++ storeInsn ++ branchInsn

/-- Load and store instructions can use relocations, and so can a few others. -/
def canHaveRelocInsn : List Form :=
  [.ADDIS, .ADDI, .ADDIC, .ADDIC_, .ORI] ++ loadInsn ++ storeInsn

/-- The opcode table lists a branch under a form of a branch. -/
def Ppcdisasm.BranchesListed (D : Ppcdisasm) : Prop :=
  ∀ insn opcode, isBranch insn = true → D.lookupPowerpc insn .raw = some opcode →
    opcode.opcode ∈ branchInsn

theorem store_not_branch : ∀ form ∈ storeInsn, form ∉ branchInsn := by decide

end Ppc2cpp
