import Mathlib.Tactic

/-! The register state an instruction can read and write.

A `CpuMemoryLocation` names a storage element by memory space and value. The storage
elements themselves are the `Slot`s: the special purpose registers the code knows
are the link, count and exception registers and the eight graphics quantization
registers, the last shared with the GQR space. -/
namespace Ppc2cpp

inductive CpuMemorySpace where
  | GPR | FPR | CR_BIT | GQR
  /-- The ps1 in PS instructions. ps0 is FPR. -/
  | PS1
  | SPR
deriving DecidableEq, Repr

structure CpuMemoryLocation where
  memspace : CpuMemorySpace
  value : Int
deriving DecidableEq, Repr

def sprValueLR : Int := 8
def sprValueXER : Int := 1
def sprValueCTR : Int := 9

/-- Registers are named by numerals, 32 to a file and 8 of the quantization registers. -/
instance neZero_file : NeZero 32 := ⟨by decide⟩

instance neZero_quantization : NeZero 8 := ⟨by decide⟩

theorem toNat_lt_of_index {n : Nat} {i : Int} (h : 0 ≤ i ∧ i.toNat < n) : i.toNat < n := h.2

/-- A storage element of `FlowContext`. -/
inductive Slot where
  | gpr (i : Fin 32) | fpr (i : Fin 32) | cr (i : Fin 32) | ps1 (i : Fin 32) | gqr (i : Fin 8)
  | lr | ctr | xer | fpscr
deriving DecidableEq, Repr

namespace Slot

/-- Every slot, in the order `FlowContextSizes` lists them. -/
def all : List Slot :=
  (List.finRange 32).map .gpr ++ (List.finRange 32).map .cr ++ [.lr, .ctr, .xer] ++
    (List.finRange 32).map .fpr ++ [.fpscr] ++ (List.finRange 8).map .gqr ++
    (List.finRange 32).map .ps1

theorem mem_all (s : Slot) : s ∈ all := by
  cases s <;> simp [all]

instance : Fintype Slot := ⟨all.toFinset, fun s => List.mem_toFinset.mpr (mem_all s)⟩

/-- An array element by an index the code does not check. -/
def ofIndex {n : Nat} (mk : Fin n → Slot) (i : Int) : Option Slot :=
  if h : 0 ≤ i ∧ i.toNat < n then some (mk ⟨i.toNat, toNat_lt_of_index h⟩) else none

end Slot

/-- The storage element a location names: `getDefinition` and `getSprDefinition`. -/
def CpuMemoryLocation.slot? (loc : CpuMemoryLocation) : Option Slot :=
  match loc.memspace with
  | .GPR => Slot.ofIndex .gpr loc.value
  | .FPR => Slot.ofIndex .fpr loc.value
  | .CR_BIT => Slot.ofIndex .cr loc.value
  | .GQR => Slot.ofIndex .gqr loc.value
  | .PS1 => Slot.ofIndex .ps1 loc.value
  | .SPR =>
    if loc.value = sprValueXER then some .xer
    else if loc.value = sprValueLR then some .lr
    else if loc.value = sprValueCTR then some .ctr
    else if 912 ≤ loc.value ∧ loc.value < 920 then Slot.ofIndex .gqr (loc.value - 912)
    else none

end Ppc2cpp
