import Ppc2cpp.Common.InsnProperties
import Ppc2cpp.Model.Location

/-! Sections and binaries of a loaded program.

The three section classes differ in what they know of their address: a DOL section
always has one, an ELF section has none when it is 0, a REL section has none until
load information is supplied. `buffer` is the memory behind a section from its first
byte on: `_data` of an ELF section, `file + offset` of a DOL or REL section. -/
namespace Ppc2cpp

/-- Errors the code raises: a C++ exception, a failed assertion, an access of an
empty `std::optional` or through a null pointer, an access out of the bounds of a
container. -/
inductive Error where
  | runtimeError (what : String)
  | assertFailed (message : String)
  | badOptionalAccess
  | outOfRange
  | outOfFuel
deriving DecidableEq, Repr

/-- `optional::value()`. -/
def value {α : Type} : Option α → Except Error α
  | some a => .ok a
  | none => .error .badOptionalAccess

/-- `v[i]` on a container that is not checked: in bounds or undefined. -/
def at? {α : Type} (xs : List α) (i : Nat) : Except Error α :=
  match xs[i]? with
  | some a => .ok a
  | none => .error .outOfRange

/-- A computation that succeeds, one step at a time. -/
theorem bind_eq_ok {α β : Type} {x : Except Error α} {f : α → Except Error β} {b : β} :
    (x >>= f) = .ok b ↔ ∃ a, x = .ok a ∧ f a = .ok b := by
  cases x <;> simp [bind, Except.bind]

theorem map_eq_ok {α β : Type} {x : Except Error α} {f : α → β} {b : β} :
    x.map f = .ok b ↔ ∃ a, x = .ok a ∧ f a = b := by
  cases x <;> simp [Except.map]

@[simp] theorem value_eq_ok {α : Type} {x : Option α} {a : α} : value x = .ok a ↔ x = some a := by
  cases x <;> simp [value]

@[simp] theorem at?_eq_ok {α : Type} {xs : List α} {i : Nat} {a : α} :
    at? xs i = .ok a ↔ xs[i]? = some a := by
  unfold at?
  cases xs[i]? <;> simp

/-- An access by an index that may be negative and is out of range then. -/
theorem at?_toNat_eq_ok {α : Type} {xs : List α} {idx : Int} {a : α} :
    (if idx < 0 then .error .outOfRange else at? xs idx.toNat) = .ok a ↔
      ∃ i : Nat, idx = i ∧ xs[i]? = some a := by
  constructor
  · intro h
    split at h
    · cases h
    · exact ⟨idx.toNat, by omega, at?_eq_ok.mp h⟩
  · rintro ⟨i, rfl, hi⟩
    rw [if_neg (by omega), at?_eq_ok]
    exact hi

/-- The computation succeeds with a result that passes a test. -/
def returns {α : Type} (x : Except Error α) (p : α → Bool) : Bool :=
  match x with
  | .ok a => p a
  | .error _ => false

theorem exists_ok {α : Type} {x : Except Error α} {p : α → Bool} (h : returns x p = true) :
    ∃ a, x = .ok a ∧ p a = true := by
  cases x with
  | ok a => exact ⟨a, rfl, h⟩
  | error e => cases h

inductive SectionType where
  | NOLOAD | TEXT | DATA | BSS
deriving DecidableEq, Repr

/-- The class of a section with the address fields of that class. -/
inductive SectionKind where
  | elf (address : BitVec 32)
  | dol (address : BitVec 32)
  /-- A value of zero means unknown load address. -/
  | rel (loadAddress : BitVec 32)
deriving DecidableEq, Repr

structure BinarySection where
  name : String
  offset : BitVec 32
  length : BitVec 32
  type : SectionType
  kind : SectionKind
  buffer : List (BitVec 8)
deriving Repr

/-- Bytes from some place in a section on. -/
abbrev Buffer := List (BitVec 8)

/-- `be32(*(ptr + i))`. -/
def be32 (buffer : Buffer) (i : Nat) : Word :=
  let byte := fun k => buffer.getD (4 * i + k) 0
  byte 0 ++ byte 1 ++ byte 2 ++ byte 3

theorem append_eq_append_iff {v w : Nat} {x x' : BitVec v} {y y' : BitVec w} :
    x ++ y = x' ++ y' ↔ x = x' ∧ y = y' := by
  constructor
  · intro h
    have hleft : x = x' := by
      have := congrArg (BitVec.extractLsb' w v) h
      simpa only [BitVec.extractLsb'_append_eq_left] using this
    have hright : y = y' := by
      have := congrArg (BitVec.extractLsb' 0 w) h
      simpa only [BitVec.extractLsb'_append_eq_right] using this
    exact ⟨hleft, hright⟩
  · intro h
    rw [h.1, h.2]

/-- Words are equal byte by byte. -/
theorem be32_eq_iff {buf1 buf2 : Buffer} {i : Nat} :
    be32 buf1 i = be32 buf2 i ↔ ∀ k < 4, buf1.getD (4 * i + k) 0 = buf2.getD (4 * i + k) 0 := by
  unfold be32
  rw [append_eq_append_iff, append_eq_append_iff, append_eq_append_iff]
  simp only [Nat.forall_lt_succ_right, and_assoc]
  simp

theorem be32_drop (buffer : Buffer) (n : Nat) : be32 (buffer.drop (4 * n)) 0 = be32 buffer n := by
  simp [be32, List.getElem?_drop]

namespace BinarySection

def getAddress (s : BinarySection) : Option (BitVec 32) :=
  match s.kind with
  | .elf address => if address = 0 then none else some address
  | .dol address => some address
  | .rel loadAddress => if loadAddress ≠ 0 then some loadAddress else none

def getBufferAtOffset (s : BinarySection) (offset : BitVec 32) : Option Buffer :=
  if offset.ult s.length then some (s.buffer.drop offset.toNat) else none

end BinarySection

/-- A relocation of a REL file, as far as references use it. -/
structure RelReloc where
  srcModuleId : Nat
  srcSectionIdx : Int
  srcOffset : BitVec 32
deriving DecidableEq, Repr

inductive BinaryKind where
  | elf
  | dol
  /-- The module id and the lookup table from location to relocation. -/
  | rel (moduleId : Nat) (relocLUT : List (BinaryLocation × RelReloc))
deriving DecidableEq, Repr

structure Binary where
  name : String
  kind : BinaryKind
  sections : List BinarySection
deriving Repr

namespace Binary

/-- The range test is `addr <= vma && vma < addr + length` in `uint32_t`. -/
def resolveVMAFrom (vma : BitVec 32) : Nat → List BinarySection → Option BinaryLocation
  | _, [] => none
  | i, s :: rest =>
    match s.getAddress with
    | some addr =>
      if addr.ule vma && vma.ult (addr + s.length) then some ⟨i, vma - addr⟩
      else resolveVMAFrom vma (i + 1) rest
    | none => resolveVMAFrom vma (i + 1) rest

def resolveVMA (b : Binary) (vma : BitVec 32) : Option BinaryLocation :=
  resolveVMAFrom vma 0 b.sections

/-- `sections[section_idx]`; a negative index is out of range. -/
def section? (b : Binary) (idx : Int) : Except Error BinarySection :=
  if idx < 0 then .error .outOfRange else at? b.sections idx.toNat

def getBufferAtLocation (b : Binary) (l : BinaryLocation) : Except Error (Option Buffer) := do
  let s ← b.section? l.sectionIdx
  return s.getBufferAtOffset l.sectionOffset

end Binary

end Ppc2cpp
