import Mathlib.Tactic

/-! Where a byte of the program is: a binary, a section of it and an offset in the
section. Offsets are `uint32_t` and wrap; indices are `int32_t` and are only
stored and compared.

`ProgramLocation` inherits `operator==` and `HashFunction` from `BinaryLocation`,
so as a key of a hash map it is compared by section and offset alone. -/
namespace Ppc2cpp

/-- A specification of location inside a binary. -/
structure BinaryLocation where
  sectionIdx : Int
  sectionOffset : BitVec 32
deriving DecidableEq, Repr

/-- A specification of a location inside a program. -/
structure ProgramLocation extends BinaryLocation where
  /-- The index of the program loader binary the location refers to. -/
  binaryIdx : Int
deriving DecidableEq, Repr

/-- `BinaryLocation::operator==`, which `ProgramLocation` inherits. -/
def BinaryLocation.operatorEq (a b : BinaryLocation) : Bool :=
  a.sectionIdx == b.sectionIdx && a.sectionOffset == b.sectionOffset

/-- `operator+`: only the offset moves. -/
def ProgramLocation.add (l : ProgramLocation) (rhs : Int) : ProgramLocation :=
  {l with sectionOffset := l.sectionOffset + BitVec.ofInt 32 rhs}

theorem BinaryLocation.operatorEq_iff (a b : BinaryLocation) :
    a.operatorEq b = true ↔ a = b := by
  cases a
  cases b
  simp [BinaryLocation.operatorEq]

/-- On program locations the inherited equality forgets the binary. -/
theorem ProgramLocation.eq_iff (a b : ProgramLocation) :
    a = b ↔ a.operatorEq b.toBinaryLocation = true ∧ a.binaryIdx = b.binaryIdx := by
  rw [BinaryLocation.operatorEq_iff]
  cases a
  cases b
  simp

@[simp] theorem ProgramLocation.add_binaryIdx (l : ProgramLocation) (rhs : Int) :
    (l.add rhs).binaryIdx = l.binaryIdx := rfl

@[simp] theorem ProgramLocation.add_sectionIdx (l : ProgramLocation) (rhs : Int) :
    (l.add rhs).sectionIdx = l.sectionIdx := rfl

/-- Where the offset does not wrap it moves by as much as is added. -/
theorem ProgramLocation.add_sectionOffset_toNat {l : ProgramLocation} {n : Nat}
    (h : l.sectionOffset.toNat + n < 2 ^ 32) :
    (l.add n).sectionOffset.toNat = l.sectionOffset.toNat + n := by
  simp only [ProgramLocation.add, BitVec.ofInt_natCast, BitVec.toNat_add, BitVec.toNat_ofNat]
  omega

end Ppc2cpp
