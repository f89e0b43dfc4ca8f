import Ppc2cpp.Model.Location

/-! Symbols and relocations, the entries of the two analysis tables. -/
namespace Ppc2cpp

/-- Values match ELF symbol types. -/
inductive SymbolType where
  | NOTYPE | DATA | FUNCTION
deriving DecidableEq, Repr

/-- Values match ELF symbol binding. A binding is cast from a number, and the enumeration is
not scoped: a number without a name stays what it is. -/
inductive SymbolBinding where
  | LOCAL | GLOBAL | WEAK
  | unnamed (value : BitVec 32) (beyond : 2 < value.toNat)
deriving DecidableEq, Repr

structure Symbol where
  name : String
  location : ProgramLocation
  size : BitVec 32
  symbolType : SymbolType
  symbolBinding : SymbolBinding
deriving DecidableEq, Repr

/-- `location.section_offset + size` is computed in `uint32_t`. -/
def Symbol.contains (s : Symbol) (loc : ProgramLocation) : Bool :=
  s.location.binaryIdx == loc.binaryIdx && s.location.sectionIdx == loc.sectionIdx &&
    s.location.sectionOffset.ule loc.sectionOffset &&
    loc.sectionOffset.ult (s.location.sectionOffset + s.size)

/-- `Function::length`: the number of instructions of a function symbol. -/
def Symbol.length (s : Symbol) : Nat := s.size.toNat / 4

structure Relocation where
  /-- Program location that the relocation applies to. -/
  source : ProgramLocation
  /-- Program location that the relocation references. -/
  destination : ProgramLocation
  /-- Relocation type, as defined by the architecture. -/
  type : BitVec 8
  addend : Int
deriving DecidableEq, Repr

/-- `R_PPC_REL24`. -/
def relocREL24 : BitVec 8 := 10

/-- A location of the symbol's own section, by the distance from its start. -/
theorem Symbol.contains_iff {s : Symbol} (hfit : s.location.sectionOffset.toNat + s.size.toNat < 2 ^ 32)
    (loc : ProgramLocation) :
    s.contains loc = true ↔ s.location.binaryIdx = loc.binaryIdx ∧
      s.location.sectionIdx = loc.sectionIdx ∧
      s.location.sectionOffset.toNat ≤ loc.sectionOffset.toNat ∧
      loc.sectionOffset.toNat < s.location.sectionOffset.toNat + s.size.toNat := by
  have hadd : (s.location.sectionOffset + s.size).toNat =
      s.location.sectionOffset.toNat + s.size.toNat := by
    rw [BitVec.toNat_add]
    exact Nat.mod_eq_of_lt hfit
  simp only [Symbol.contains, Bool.and_eq_true, beq_iff_eq, BitVec.ule, BitVec.ult, hadd,
    decide_eq_true_eq]
  tauto

end Ppc2cpp
