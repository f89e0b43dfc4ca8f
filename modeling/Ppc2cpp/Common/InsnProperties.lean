import Mathlib.Tactic

/-! What the analyses read off an instruction word without the disassembler.

An instruction is the 32-bit word in memory order already swapped to the host
(`be32`). The predicates look at the primary opcode, the extended opcode, the
link and absolute bits, and the branch condition `BO`. -/
namespace Ppc2cpp

abbrev Word := BitVec 32

/-- The primary opcode. -/
def OP (insn : Word) : Word := (insn >>> 26) &&& 0x3f

/-- The extended opcode of an X form. -/
def XOP (insn : Word) : Word := (insn >>> 1) &&& 0x3ff

def isBranch (insn : Word) : Bool :=
  OP insn == 18 || OP insn == 16 || (OP insn == 19 && (XOP insn == 528 || XOP insn == 16))

/-- If branch, sets link register before branch. -/
def isLink (insn : Word) : Bool := insn &&& 1 == 1

/-- For branches to address, whether the address is absolute or not. -/
def isAbsolute (insn : Word) : Bool := (insn >>> 1) &&& 1 == 1

def isBranchWithLink (insn : Word) : Bool := isLink insn && isBranch insn

def isBranchUncoditional (insn : Word) : Bool := OP insn == 18

/-- The LI field of an I form instruction, as `int32_t`. -/
def branchValue (insn : Word) : Int :=
  let addrVal : Word := (insn >>> 2) &&& 0xffffff
  let addrVal := if addrVal &&& 0x00800000 != 0 then addrVal ||| 0xFF000000 else addrVal
  (addrVal * 4).toInt

def isBranchConditional (insn : Word) : Bool := OP insn == 16

def isBranchToLR (insn : Word) : Bool := OP insn == 19 && XOP insn == 16

def isBranchToCTR (insn : Word) : Bool := OP insn == 19 && XOP insn == 528

/-- BO field of B form instructions. -/
def getBO (insn : Word) : Word := (insn >>> 21) &&& 0x1f

def isBranchConditionUnconditional (insn : Word) : Bool := (getBO insn >>> 2) &&& 0x5 == 0x5

def isLis (insn : Word) : Bool := OP insn == 15

/-! ### The kinds of branch are exclusive and exhaustive -/

theorem isBranch_iff (insn : Word) :
    isBranch insn = true ↔ isBranchUncoditional insn = true ∨ isBranchConditional insn = true ∨
      isBranchToLR insn = true ∨ isBranchToCTR insn = true := by
  simp only [isBranch, isBranchUncoditional, isBranchConditional, isBranchToLR, isBranchToCTR,
    Bool.or_eq_true, Bool.and_eq_true]
  tauto

theorem not_isBranch {insn : Word} (h : isBranch insn = false) :
    isBranchUncoditional insn = false ∧ isBranchConditional insn = false ∧
      isBranchToLR insn = false ∧ isBranchToCTR insn = false := by
  have hn : ¬ isBranch insn = true := by simp [h]
  rw [isBranch_iff] at hn
  simpa only [not_or, Bool.not_eq_true] using hn

/-- An instruction has one primary opcode: a `b` is neither a `bc` nor a branch to
a register. -/
theorem isBranchUncoditional_excludes {insn : Word} (h : isBranchUncoditional insn = true) :
    isBranchConditional insn = false ∧ isBranchToLR insn = false ∧ isBranchToCTR insn = false := by
  have hop : OP insn = 18 := by simpa [isBranchUncoditional] using h
  simp [isBranchConditional, isBranchToLR, isBranchToCTR, hop]

theorem isBranchConditional_excludes {insn : Word} (h : isBranchConditional insn = true) :
    isBranchUncoditional insn = false ∧ isBranchToLR insn = false ∧
      isBranchToCTR insn = false := by
  have hop : OP insn = 16 := by simpa [isBranchConditional] using h
  simp [isBranchUncoditional, isBranchToLR, isBranchToCTR, hop]

end Ppc2cpp
