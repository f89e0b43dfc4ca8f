import Ppc2cpp.ControlFlow.NextInsn

/-! Functions assembled from instruction words.

The analyses are parameterised by the disassembler's tables and by a loaded program.
`excerpt` has the table entries of a few instructions, with the operands in the order
of the raw dialect and the flags of the operand table; `assembled` loads a list of
words as the text section of an ELF binary. With the two the analyses can be
evaluated on concrete code. -/
namespace Ppc2cpp
namespace Excerpt

/-! ### The operand table -/

def RT : OperandIdx := .other 0
def RA : OperandIdx := .other 1
/-- Register 0 stands for the constant 0. -/
def RA0 : OperandIdx := .other 2
def RB : OperandIdx := .other 3
def SI : OperandIdx := .other 4
def D : OperandIdx := .other 5

def operandNumber : OperandIdx → Nat
  | .other n => n
  | .RAL => 6
  | .RAS => 7
  | .LI => 8
  | .BD => 9
  | .BO => 10
  | .BI => 11

def flags : OperandIdx → List OperandFlag
  | .other 0 => [.GPR]
  | .other 1 => [.GPR]
  | .other 2 => [.GPR_0]
  | .other 3 => [.GPR]
  | .other 4 => [.SIGNED]
  | .other 5 => [.PARENS, .SIGNED]
  | .other _ => [.other]
  | .RAL => [.GPR_0]
  | .RAS => [.GPR_0]
  | .LI => [.RELATIVE, .SIGNED]
  | .BD => [.RELATIVE, .SIGNED]
  | .BO => [.other]
  | .BI => [.CR_BIT]

/-- A field of the word that is `width` bits wide, as a number. -/
def field (insn : Word) (shift width : Nat) : Int := ((insn.toNat >>> shift) % 2 ^ width : Nat)

def signedField (insn : Word) (width : Nat) : Int := (insn.setWidth width).toInt

def operandValue : OperandIdx → Word → Int
  | .other 0, insn => field insn 21 5
  | .other 1, insn => field insn 16 5
  | .other 2, insn => field insn 16 5
  | .other 3, insn => field insn 11 5
  | .other 4, insn => signedField insn 16
  | .other 5, insn => signedField insn 16
  | .other _, _ => 0
  | .RAL, insn => field insn 16 5
  | .RAS, insn => field insn 16 5
  | .LI, insn => signedField (insn &&& 0x3fffffc) 26
  | .BD, insn => signedField (insn &&& 0xfffc) 16
  | .BO, insn => field insn 21 5
  | .BI, insn => field insn 16 5

/-! ### The opcode table -/

def add : Opcode := ⟨0, .ADD, "add", [RT, RA, RB]⟩
def addi : Opcode := ⟨1, .ADDI, "addi", [RT, RA0, SI]⟩
def lwz : Opcode := ⟨2, .LWZ, "lwz", [RT, D, RA0]⟩
def stw : Opcode := ⟨3, .STW, "stw", [RT, D, RA0]⟩
def b : Opcode := ⟨4, .B, "b", [.LI]⟩
def bl : Opcode := ⟨5, .BL, "bl", [.LI]⟩
def bc : Opcode := ⟨6, .BC, "bc", [.BO, .BI, .BD]⟩
def bclr : Opcode := ⟨7, .BCLR, "bclr", [.BO, .BI]⟩

def lookup (insn : Word) : Option Opcode :=
  if OP insn = 14 then some addi
  else if OP insn = 32 then some lwz
  else if OP insn = 36 then some stw
  else if OP insn = 31 ∧ XOP insn = 266 ∧ insn &&& 1 = 0 then some add
  else if OP insn = 18 ∧ insn &&& 3 = 0 then some b
  else if OP insn = 18 ∧ insn &&& 3 = 1 then some bl
  else if OP insn = 16 ∧ insn &&& 3 = 0 then some bc
  else if OP insn = 19 ∧ XOP insn = 16 ∧ insn &&& 1 = 0 then some bclr
  else none

def ppcdisasm : Ppcdisasm where
  lookupPowerpc insn _ := lookup insn
  operandNumber := operandNumber
  powerpcOperands := flags
  operandValuePowerpc idx insn _ := operandValue idx insn

theorem ppcdisasm_branchesListed : ppcdisasm.BranchesListed := by
  intro insn opcode hbranch hlookup
  have hop : OP insn = 18 ∨ OP insn = 16 ∨ OP insn = 19 := by
    simp only [isBranch, Bool.or_eq_true, Bool.and_eq_true, beq_iff_eq] at hbranch
    tauto
  change lookup insn = some opcode at hlookup
  unfold lookup at hlookup
  split_ifs at hlookup <;> cases hlookup <;> first | decide | simp_all

end Excerpt

/-! ### A program of one section -/

/-- The bytes of a word in memory order. -/
def wordBytes (w : Word) : List (BitVec 8) :=
  [w.extractLsb' 24 8, w.extractLsb' 16 8, w.extractLsb' 8 8, w.extractLsb' 0 8]

def textSection (words : List Word) : BinarySection where
  name := ".text"
  offset := 0
  length := BitVec.ofNat 32 (4 * words.length)
  type := .TEXT
  kind := .elf 0
  buffer := words.flatMap wordBytes

def assembled (words : List Word) (symtab : SymbolTable) (reloctab : RelocationTable) :
    ProgramLoader where
  kind := .elf
  binaries := [⟨"", .elf, [textSection words]⟩]
  symtab := symtab
  reloctab := reloctab

/-- The function of the first `length` words. -/
def assembledSymbol (length : Nat) : Symbol where
  name := "function"
  location := ⟨⟨0, 0⟩, 0⟩
  size := BitVec.ofNat 32 (4 * length)
  symbolType := .FUNCTION
  symbolBinding := .GLOBAL

/-- Some words fit a section. -/
structure Fits (words : List Word) : Prop where
  nonempty : 0 < words.length
  bounded : words.length < 2 ^ 30

instance (words : List Word) : Decidable (Fits words) :=
  decidable_of_iff (0 < words.length ∧ words.length < 2 ^ 30)
    ⟨fun h => ⟨h.1, h.2⟩, fun h => ⟨h.nonempty, h.bounded⟩⟩

theorem textSection_length {words : List Word} (h : Fits words) :
    (textSection words).length.toNat = 4 * words.length := by
  have := h.bounded
  rw [textSection, BitVec.toNat_ofNat]
  exact Nat.mod_eq_of_lt (by omega)

/-- The function of the first `length` of some words, with the words after it as the
rest of the section. -/
def linkedSubject (words : List Word) (length : Nat) (h : Fits words) (symtab : SymbolTable) :
    Subject where
  disasm := Excerpt.ppcdisasm
  loader := assembled words symtab {}
  func := assembledSymbol length
  buffer := words.flatMap wordBytes
  located := by
    have hlen := textSection_length h
    have hpos := h.nonempty
    have hult : (0 : BitVec 32).ult (textSection words).length = true := by
      rw [BitVec.ult, hlen]
      simpa using hpos
    simp [ProgramLoader.getBufferAtLocation, ProgramLoader.binary?, assembled, assembledSymbol,
      at?, Binary.getBufferAtLocation, Binary.section?, BinarySection.getBufferAtOffset,
      bind, Except.bind, pure, Except.pure, textSection]
    exact hult

/-- Without symbols. -/
abbrev assembledSubject (words : List Word) (length : Nat) (h : Fits words) : Subject :=
  linkedSubject words length h {}

/-- The branches of a function resolve as `Analysable` asks, checked at one instruction. -/
def resolvesAt (S : Subject) (pc : Nat) : Bool :=
  match S.branchTarget pc with
  | .ok (some t) => !S.func.contains t ||
      (t.sectionOffset - S.func.location.sectionOffset).toNat % 4 == 0
  | _ => false

/-- What is left to check of an assembled function. -/
theorem assembledSubject_analysable {words : List Word} {length : Nat} (h : Fits words)
    (hlen : 0 < length ∧ length ≤ words.length)
    (hlast : isBranch ((assembledSubject words length h).insn (length - 1)) = true ∧
      isLink ((assembledSubject words length h).insn (length - 1)) = false ∧
      (isBranchUncoditional ((assembledSubject words length h).insn (length - 1)) = true ∨
        isBranchConditionUnconditional
          ((assembledSubject words length h).insn (length - 1)) = true))
    (hres : ∀ pc < length, (assembledSubject words length h).branchesToAddress pc = true →
      resolvesAt (assembledSubject words length h) pc = true) :
    (assembledSubject words length h).Analysable := by
  have hbounded := h.bounded
  have hsize : (assembledSymbol length).size.toNat = 4 * length := by
    rw [assembledSymbol, BitVec.toNat_ofNat]
    exact Nat.mod_eq_of_lt (by omega)
  have hlength : (assembledSubject words length h).length = length := by
    change (assembledSymbol length).size.toNat / 4 = length
    omega
  refine ⟨by rw [hlength]; exact hlen.1, ?_, ?_, ?_, ?_⟩
  · rw [hlength]
    exact hsize
  · refine ⟨_, _, rfl, rfl, ?_⟩
    change 0 + (assembledSymbol length).size.toNat ≤ (textSection words).length.toNat
    rw [hsize, textSection_length h]
    omega
  · rw [hlength]
    exact hlast
  · intro pc hpc hto
    rw [hlength] at hpc
    have hcheck := hres pc hpc hto
    unfold resolvesAt at hcheck
    split at hcheck
    · rename_i t ht
      refine ⟨t, ht, fun hin => ?_⟩
      simp only [hin, Bool.not_true, Bool.false_or, beq_iff_eq] at hcheck
      exact Nat.dvd_of_mod_eq_zero hcheck
    · cases hcheck

end Ppc2cpp
