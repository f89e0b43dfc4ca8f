import Mathlib.Tactic

/-! Ranges of addresses of `w` bits, stored as a start and a length.

Which addresses a range covers is said with natural numbers, so a range may go on past
the top of the address space. Machine code asks in one of two ways: it compares with the
end of the range, which wraps around (`testEnd`), or it compares the distance from the
start with the length (`testDistance`). Neither is the same as being covered:
`testEnd_iff` has the end be an address itself, and `testDistance_iff` lets a range that
goes on past the top go on from zero. -/
structure AddressRange (w : Nat) where
  start : BitVec w
  length : BitVec w
deriving DecidableEq

namespace AddressRange

variable {w : Nat} (r : AddressRange w) (v : BitVec w)

def Covers : Prop := r.start.toNat ≤ v.toNat ∧ v.toNat < r.start.toNat + r.length.toNat

instance : Decidable (r.Covers v) := by
  unfold Covers
  infer_instance

/-- The range is inside the address space. -/
def Fits : Prop := r.start.toNat + r.length.toNat ≤ 2 ^ w

/-- The end of the range is an address. -/
def EndFits : Prop := r.start.toNat + r.length.toNat < 2 ^ w

instance : Decidable r.Fits := by
  unfold Fits
  infer_instance

instance : Decidable r.EndFits := by
  unfold EndFits
  infer_instance

/-- `start <= v && v < start + length`. -/
def testEnd : Bool := r.start.ule v && v.ult (r.start + r.length)

/-- `v - start < length`. -/
def testDistance : Bool := (v - r.start).ult r.length

/-- No address is in both. -/
def Apart (r r' : AddressRange w) : Prop := ∀ v, r.Covers v → ¬ r'.Covers v

variable {r v}

theorem Fits.endFits (h : r.Fits) (hend : r.start.toNat + r.length.toNat ≠ 2 ^ w) : r.EndFits :=
  lt_of_le_of_ne h hend

/-- **Comparing with the end finds what is covered by a range whose end is an address.**
The end of any other range wraps to an address below its start. -/
theorem testEnd_iff : r.testEnd v = true ↔ r.EndFits ∧ r.Covers v := by
  have hstart := r.start.isLt
  have hlength := r.length.isLt
  have hv := v.isLt
  simp only [testEnd, Bool.and_eq_true, BitVec.ule, BitVec.ult, decide_eq_true_eq,
    BitVec.toNat_add, EndFits, Covers]
  by_cases hend : r.start.toNat + r.length.toNat < 2 ^ w
  · rw [Nat.mod_eq_of_lt hend]
    omega
  · rw [Nat.mod_eq_sub_mod (by omega), Nat.mod_eq_of_lt (by omega)]
    omega

theorem toNat_sub_start (h : r.start.toNat ≤ v.toNat) :
    (v - r.start).toNat = v.toNat - r.start.toNat :=
  BitVec.toNat_sub_of_le h

/-- **Comparing the distance finds what is covered, and what a range that goes on past the
top of the address space reaches from zero on.** -/
theorem testDistance_iff :
    r.testDistance v = true ↔
      r.Covers v ∨ v.toNat + 2 ^ w < r.start.toNat + r.length.toNat := by
  have hstart := r.start.isLt
  have hlength := r.length.isLt
  have hv := v.isLt
  simp only [testDistance, BitVec.ult, decide_eq_true_eq, Covers]
  by_cases hle : r.start.toNat ≤ v.toNat
  · rw [toNat_sub_start hle]
    omega
  · rw [BitVec.toNat_sub, Nat.mod_eq_of_lt (by omega)]
    omega

/-- What comparing with the end finds, comparing the distance finds. -/
theorem testDistance_of_testEnd (h : r.testEnd v = true) : r.testDistance v = true :=
  testDistance_iff.mpr (.inl (testEnd_iff.mp h).2)

/-- On a range whose end is an address the two ways agree. -/
theorem EndFits.testDistance_iff_testEnd (h : r.EndFits) :
    r.testDistance v = true ↔ r.testEnd v = true := by
  rw [testDistance_iff, testEnd_iff]
  unfold EndFits at h
  constructor
  · rintro (hcovers | hwraps)
    · exact ⟨h, hcovers⟩
    · omega
  · intro hend
    exact .inl hend.2

/-- The place `off` bytes into the range. -/
theorem covers_add {off : BitVec w} (h : r.start.toNat + off.toNat < 2 ^ w)
    (hoff : off.toNat < r.length.toNat) : r.Covers (r.start + off) := by
  rw [Covers, BitVec.toNat_add, Nat.mod_eq_of_lt h]
  omega

/-- Ranges share an address unless one of them is empty or ends before the other starts. -/
theorem apart_iff {r' : AddressRange w} :
    r.Apart r' ↔ r.length = 0 ∨ r'.length = 0 ∨
      r.start.toNat + r.length.toNat ≤ r'.start.toNat ∨
      r'.start.toNat + r'.length.toNat ≤ r.start.toNat := by
  have hzero : ∀ x : BitVec w, x = 0 ↔ x.toNat = 0 := fun x => by simp [← BitVec.toNat_inj]
  rw [hzero, hzero]
  constructor
  · intro h
    by_contra hne
    -- the later of the two starts is in both
    rcases Nat.le_total r.start.toNat r'.start.toNat with hle | hle
    · exact h r'.start (by unfold Covers; omega) (by unfold Covers; omega)
    · exact h r.start (by unfold Covers; omega) (by unfold Covers; omega)
  · intro h v hcovers hcovers'
    unfold Covers at hcovers hcovers'
    omega

instance (r r' : AddressRange w) : Decidable (r.Apart r') := decidable_of_iff' _ apart_iff

/-- A place in the range is found again from its address. -/
theorem testEnd_add (h : r.EndFits) {off : BitVec w} (hoff : off.toNat < r.length.toNat) :
    r.testEnd (r.start + off) = true := by
  unfold EndFits at h
  exact testEnd_iff.mpr ⟨h, covers_add (by omega) hoff⟩

end AddressRange
