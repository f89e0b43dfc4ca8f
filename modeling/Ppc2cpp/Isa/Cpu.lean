import Ppc2cpp.Common.InsnProperties
import Ppc2cpp.Lib.UseDefine
import Ppc2cpp.Model.CpuMemory

/-! The registers and the memory an instruction works on.

The condition register is kept bit by bit and the special purpose registers by their number,
the link, count and exception registers and the graphics quantization registers among them.
Bits of a word are numbered from the most significant, as the architecture numbers them. -/
namespace Ppc2cpp.Isa

/-- Bits of a field of the condition register, and special purpose registers. -/
instance neZero_field : NeZero 4 := ⟨by decide⟩

instance neZero_special : NeZero 1024 := ⟨by decide⟩

inductive Register where
  | gpr (i : Fin 32) | fpr (i : Fin 32)
  /-- The second half of a floating point register in paired single mode. -/
  | ps1 (i : Fin 32)
  | crBit (i : Fin 32) | spr (n : Fin 1024) | fpscr
deriving DecidableEq, Repr

namespace Register

@[reducible] def Value : Register → Type
  | gpr _ | spr _ | fpscr => Word
  | fpr _ | ps1 _ => BitVec 64
  | crBit _ => Bool

def xer : Register := .spr 1

def gqr (i : Fin 8) : Register := .spr ⟨912 + i, by omega⟩

/-- A bit of a field of the condition register. -/
def crField (field : Fin 8) (bit : Fin 4) : Register := .crBit ⟨4 * field + bit, by omega⟩

def ofIndex {n : Nat} (mk : Fin n → Register) (i : Int) : Option Register :=
  if h : 0 ≤ i ∧ i.toNat < n then some (mk ⟨i.toNat, toNat_lt_of_index h⟩) else none

@[simp] theorem ofIndex_val {n : Nat} (mk : Fin n → Register) (i : Fin n) :
    ofIndex mk (i : Nat) = some (mk i) := by
  simp [ofIndex]

end Register

abbrev Memory := Word → BitVec 8

abbrev Cpu := UseDefine.State Register.Value Memory

abbrev Write := UseDefine.Write Register.Value

abbrev Effect := UseDefine.Effect Register.Value Memory

namespace Cpu

def gpr (cpu : Cpu) (i : Fin 32) : Word := cpu.reg (.gpr i)
def fpr (cpu : Cpu) (i : Fin 32) : BitVec 64 := cpu.reg (.fpr i)
def ps1 (cpu : Cpu) (i : Fin 32) : BitVec 64 := cpu.reg (.ps1 i)
def crBit (cpu : Cpu) (i : Fin 32) : Bool := cpu.reg (.crBit i)
def spr (cpu : Cpu) (n : Fin 1024) : Word := cpu.reg (.spr n)
def xer (cpu : Cpu) : Word := cpu.reg .xer
def gqr (cpu : Cpu) (i : Fin 8) : Word := cpu.reg (.gqr i)
def fpscr (cpu : Cpu) : Word := cpu.reg .fpscr
def crField (cpu : Cpu) (field : Fin 8) (bit : Fin 4) : Bool := cpu.reg (.crField field bit)

/-- The register, or zero for register 0, as an address or an addend reads it. -/
def gprOrZero (cpu : Cpu) (i : Fin 32) : Word := if i = 0 then 0 else cpu.gpr i

end Cpu

/-! ### The fields of an instruction word -/

def field (insn : Word) (shift : Nat) : Fin 32 :=
  ⟨(insn >>> shift).toNat % 32, Nat.mod_lt _ (by decide)⟩

def shortField (insn : Word) (shift : Nat) : Fin 8 :=
  ⟨(insn >>> shift).toNat % 8, Nat.mod_lt _ (by decide)⟩

def RT (insn : Word) : Fin 32 := field insn 21
def RS (insn : Word) : Fin 32 := field insn 21
def RA (insn : Word) : Fin 32 := field insn 16
def RB (insn : Word) : Fin 32 := field insn 11
def FRT (insn : Word) : Fin 32 := field insn 21
def FRS (insn : Word) : Fin 32 := field insn 21
def FRA (insn : Word) : Fin 32 := field insn 16
def FRB (insn : Word) : Fin 32 := field insn 11
def FRC (insn : Word) : Fin 32 := field insn 6
def BT (insn : Word) : Fin 32 := field insn 21
def BA (insn : Word) : Fin 32 := field insn 16
def BB (insn : Word) : Fin 32 := field insn 11
def BF (insn : Word) : Fin 8 := shortField insn 23
def BFA (insn : Word) : Fin 8 := shortField insn 18
def SH (insn : Word) : Fin 32 := field insn 11
def MB (insn : Word) : Fin 32 := field insn 6
def ME (insn : Word) : Fin 32 := field insn 1
def NB (insn : Word) : Fin 32 := field insn 11
def L (insn : Word) : Bool := insn.getMsbD 10

/-- The two halves of the field are swapped. -/
def SPR (insn : Word) : Fin 1024 := ⟨field insn 16 + 32 * field insn 11, by omega⟩

def SI (insn : Word) : Word := (insn.truncate 16).signExtend 32
def UI (insn : Word) : Word := (insn.truncate 16).zeroExtend 32
def PSW (insn : Word) : Bool := insn.getMsbD 16
def PSQ (insn : Word) : Fin 8 := shortField insn 12
def PSD (insn : Word) : Word := (insn.truncate 12).signExtend 32

/-! ### The status registers -/

def SO (xer : Word) : Bool := xer.getMsbD 0
def CA (xer : Word) : Bool := xer.getMsbD 2

/-- The byte count of a load or store string. -/
def byteCount (xer : Word) : Nat := xer.toNat % 128

/-- The word with one bit set or cleared. -/
def putBit (x : Word) (bit : Nat) (b : Bool) : Word :=
  let mask : Word := 0x80000000 >>> bit
  if b then x ||| mask else x &&& ~~~mask

/-- Invalid operation exceptions are enabled. -/
def VE (fpscr : Word) : Bool := fpscr.getMsbD 24

/-! ### Memory -/

/-- The `n` bytes from an address on. -/
def loadBytes (memory : Memory) (ea : Word) (n : Nat) : List (BitVec 8) :=
  (List.range n).map fun i => memory (ea + BitVec.ofNat 32 i)

def storeBytes (memory : Memory) (ea : Word) (bytes : List (BitVec 8)) : Memory :=
  fun a => (bytes[(a - ea).toNat]?).getD (memory a)

/-- The number a list of bytes spells, the most significant first. -/
def bytesValue (bytes : List (BitVec 8)) : Nat :=
  bytes.foldl (fun value byte => 256 * value + byte.toNat) 0

/-- The low `n` bytes of a number, the most significant first. -/
def valueBytes (n value : Nat) : List (BitVec 8) :=
  (List.range n).map fun i => BitVec.ofNat 8 (value >>> (8 * (n - 1 - i)))

def loadByte (memory : Memory) (ea : Word) : BitVec 8 := memory ea

def loadHalf (memory : Memory) (ea : Word) : BitVec 16 :=
  BitVec.ofNat 16 (bytesValue (loadBytes memory ea 2))

def loadWord (memory : Memory) (ea : Word) : Word :=
  BitVec.ofNat 32 (bytesValue (loadBytes memory ea 4))

def loadDouble (memory : Memory) (ea : Word) : BitVec 64 :=
  BitVec.ofNat 64 (bytesValue (loadBytes memory ea 8))

end Ppc2cpp.Isa

namespace Ppc2cpp
open Isa

/-- The register a location names. -/
def CpuMemoryLocation.register? (loc : CpuMemoryLocation) : Option Register :=
  match loc.memspace with
  | .GPR => Register.ofIndex .gpr loc.value
  | .FPR => Register.ofIndex .fpr loc.value
  | .CR_BIT => Register.ofIndex .crBit loc.value
  | .GQR => Register.ofIndex .gqr loc.value
  | .PS1 => Register.ofIndex .ps1 loc.value
  | .SPR => Register.ofIndex .spr loc.value

end Ppc2cpp
