import Ppc2cpp.ControlFlow.Analysis

/-! Where control can go from an instruction of a function.

`Next` and `Leaves` say it in terms of locations: the branch goes to the location of
another instruction of the function, control falls through to the instruction after,
or it leaves the function. `exits` lists the same, in the order in which the analysis
creates the edges, by what a block is looked up by: a position and a type. The two
agree on the functions the analysis is meant for (`Analysable`). -/
namespace Ppc2cpp
namespace Subject
variable (S : Subject)

/-- The branch has an address as its operand. -/
def branchesToAddress (pc : Nat) : Bool :=
  isBranchUncoditional (S.insn pc) || isBranchConditional (S.insn pc)

def branchesToRegister (pc : Nat) : Bool :=
  isBranchToLR (S.insn pc) || isBranchToCTR (S.insn pc)

/-- Control can come to the instruction after `pc`: there is no branch at `pc`, the
branch is a call, or it is conditional and may not be taken. -/
def fallsThrough (pc : Nat) : Bool :=
  !isBranch (S.insn pc) || isLink (S.insn pc) ||
    (!isBranchUncoditional (S.insn pc) && !isBranchConditionUnconditional (S.insn pc))

/-- The branch at `i` goes to the instruction `j`. -/
def JumpsTo (i j : Nat) : Prop :=
  S.branchesToAddress i = true ∧ j < S.length ∧ S.branchTarget i = .ok (some (S.pcLocation j))

/-- `j` is a possible next instruction of `i` inside the function. -/
def Next (i j : Nat) : Prop :=
  S.JumpsTo i j ∨ (S.fallsThrough i = true ∧ j = i + 1 ∧ j < S.length)

/-- The instruction at `i` can transfer control to a target outside the function or
through LR or CTR. -/
def Leaves (i : Nat) : Prop :=
  S.branchesToRegister i = true ∨ (S.branchesToAddress i = true ∧
    ∃ t, S.branchTarget i = .ok (some t) ∧ S.func.contains t = false)

/-- A function of whole instructions inside its section that ends in an unconditional
branch without link, and whose branches all have a target: if the target is in the
function, it is a whole number of words away from its start. -/
structure Analysable : Prop where
  nonempty : 0 < S.length
  whole : S.func.size.toNat = 4 * S.length
  inside : ∃ b s, S.loader.binary? S.func.location.binaryIdx = .ok b ∧
    b.section? S.func.location.sectionIdx = .ok s ∧
    S.func.location.sectionOffset.toNat + S.func.size.toNat ≤ s.length.toNat
  last : isBranch (S.insn (S.length - 1)) = true ∧ isLink (S.insn (S.length - 1)) = false ∧
    (isBranchUncoditional (S.insn (S.length - 1)) = true ∨
      isBranchConditionUnconditional (S.insn (S.length - 1)) = true)
  resolves : ∀ pc < S.length, S.branchesToAddress pc = true →
    ∃ t, S.branchTarget pc = .ok (some t) ∧ (S.func.contains t = true →
      4 ∣ (t.sectionOffset - S.func.location.sectionOffset).toNat)

/-! ### Locations and positions -/

variable {S}

theorem Analysable.fits (h : S.Analysable) :
    S.func.location.sectionOffset.toNat + S.func.size.toNat < 2 ^ 32 := by
  obtain ⟨b, s, _, _, hle⟩ := h.inside
  exact lt_of_le_of_lt hle s.length.isLt

theorem Analysable.pcLocation_offset (h : S.Analysable) {j : Nat} (hj : j < S.length) :
    (S.pcLocation j).sectionOffset.toNat = S.func.location.sectionOffset.toNat + 4 * j := by
  have hfits := h.fits
  have hwhole := h.whole
  have hint : BitVec.ofInt 32 (4 * (j : Int)) = BitVec.ofNat 32 (4 * j) := by
    rw [← BitVec.ofInt_natCast]
    norm_num
  rw [pcLocation, ProgramLocation.add, hint, BitVec.toNat_add, BitVec.toNat_ofNat,
    Nat.mod_eq_of_lt (show 4 * j < 2 ^ 32 by omega), Nat.mod_eq_of_lt (by omega)]

theorem Analysable.contains_pcLocation (h : S.Analysable) {j : Nat} (hj : j < S.length) :
    S.func.contains (S.pcLocation j) = true ∧ S.position (S.pcLocation j) = j := by
  have hoff := h.pcLocation_offset hj
  have hwhole := h.whole
  refine ⟨(Symbol.contains_iff h.fits _).mpr ⟨rfl, rfl, by omega, by omega⟩, ?_⟩
  rw [position, BitVec.toNat_sub_of_le (by rw [BitVec.le_def]; omega), hoff]
  omega

/-- A target inside the function is the location of the instruction at its position. -/
theorem Analysable.eq_pcLocation (h : S.Analysable) {t : ProgramLocation}
    (hin : S.func.contains t = true)
    (hword : 4 ∣ (t.sectionOffset - S.func.location.sectionOffset).toNat) :
    S.position t < S.length ∧ t = S.pcLocation (S.position t) := by
  obtain ⟨hbin, hsec, hle, hlt⟩ := (Symbol.contains_iff h.fits t).mp hin
  have hwhole := h.whole
  have hsub := BitVec.toNat_sub_of_le (show S.func.location.sectionOffset ≤ t.sectionOffset by
    rw [BitVec.le_def]; omega)
  obtain ⟨k, hk⟩ := hword
  have hpos : S.position t = k := by
    rw [position]
    omega
  have hk' : k < S.length := by omega
  refine ⟨hpos ▸ hk', ?_⟩
  have hoff := h.pcLocation_offset hk'
  rw [hpos, ProgramLocation.eq_iff, BinaryLocation.operatorEq_iff]
  refine ⟨?_, hbin.symm⟩
  have hoffEq : t.sectionOffset = (S.pcLocation k).sectionOffset := by
    apply BitVec.eq_of_toNat_eq
    omega
  cases ht : t.toBinaryLocation with
  | mk sec off =>
    rw [show sec = t.sectionIdx by rw [ht], show off = t.sectionOffset by rw [ht], hoffEq, ← hsec]
    rfl

/-- The last instruction of the function is the only one with none after it. -/
theorem Analysable.next_lt (h : S.Analysable) {pc : Nat} (hpc : pc < S.length)
    (hfall : S.fallsThrough pc = true) : pc + 1 < S.length := by
  obtain ⟨hbranch, hlink, hkind⟩ := h.last
  by_contra hge
  obtain rfl : pc = S.length - 1 := by omega
  rcases hkind with hkind | hkind <;> simp [fallsThrough, hbranch, hlink, hkind] at hfall

/-! ### The exits of an instruction, as the analysis lists them -/

variable (S)

def targetExit (pc : Nat) : Nat × BlockType :=
  match S.branchTarget pc with
  | .ok (some t) => if S.func.contains t then (S.position t, .INTERNAL) else (pc, .EXTERNAL)
  | _ => (pc, .EXTERNAL)

/-- The target of the branch before the instruction after it. -/
def exits (pc : Nat) : List (Nat × BlockType) :=
  (if S.branchesToAddress pc then [S.targetExit pc]
    else if S.branchesToRegister pc then [(pc, .RUNTIME)] else []) ++
  (if S.fallsThrough pc then [(pc + 1, .INTERNAL)] else [])

/-- The next instructions inside the function, in the order of the exits. -/
def nextInsns (pc : Nat) : List Nat :=
  ((S.exits pc).filter (fun e => e.2 == .INTERNAL)).map Prod.fst

variable {S}

/-- Control goes on from every instruction, inside the function or out of it. -/
theorem exits_ne_nil (pc : Nat) : S.exits pc ≠ [] := by
  intro hnil
  obtain ⟨hbranch, hfall⟩ := List.append_eq_nil_iff.mp hnil
  have hplain : isBranch (S.insn pc) = true := by
    cases hb : isBranch (S.insn pc)
    · simp [fallsThrough, hb] at hfall
    · rfl
  split at hbranch
  · cases hbranch
  · rename_i hto
    rcases (isBranch_iff _).mp hplain with h | h | h | h
    · simp [branchesToAddress, h] at hto
    · simp [branchesToAddress, h] at hto
    · simp [branchesToRegister, h] at hbranch
    · simp [branchesToRegister, h] at hbranch

/-- An exit outside the function stands at the position of the branch. -/
theorem exits_outside_eq (S : Subject) (pc : Nat) :
    ∀ e ∈ S.exits pc, e.2 ≠ .INTERNAL → e.1 = pc := by
  intro e he hne
  have htarget : (S.targetExit pc).2 ≠ .INTERNAL → (S.targetExit pc).1 = pc := by
    unfold targetExit
    split
    · split
      · exact fun h => absurd rfl h
      · exact fun _ => rfl
    · exact fun _ => rfl
  rcases List.mem_append.mp he with he | he
  · split at he
    · rw [List.mem_singleton.mp he] at hne ⊢
      exact htarget hne
    · split at he
      · rw [List.mem_singleton.mp he]
      · cases he
  · split at he
    · rw [List.mem_singleton.mp he] at hne
      exact absurd rfl hne
    · cases he

theorem mem_nextInsns {pc t : Nat} : t ∈ S.nextInsns pc ↔ (t, BlockType.INTERNAL) ∈ S.exits pc := by
  simp [nextInsns]

theorem Analysable.targetExit_internal (h : S.Analysable) {pc t : Nat} (hpc : pc < S.length)
    (hto : S.branchesToAddress pc = true) :
    S.targetExit pc = (t, .INTERNAL) ↔ S.JumpsTo pc t := by
  obtain ⟨l, hl, hword⟩ := h.resolves pc hpc hto
  rw [targetExit, hl]
  dsimp only
  constructor
  · intro heq
    split at heq
    · rename_i hin
      obtain ⟨hlt, hloc⟩ := h.eq_pcLocation hin (hword hin)
      obtain rfl : S.position l = t := congrArg Prod.fst heq
      exact ⟨hto, hlt, by rw [hl, ← hloc]⟩
    · cases heq
  · rintro ⟨_, hlt, heq⟩
    obtain rfl : l = S.pcLocation t := by
      rw [hl] at heq
      simpa using heq
    obtain ⟨hin, hpos⟩ := h.contains_pcLocation hlt
    rw [if_pos hin, hpos]

theorem branchesToRegister_not_address {pc : Nat} (h : S.branchesToRegister pc = true) :
    S.branchesToAddress pc = false := by
  cases hto : S.branchesToAddress pc
  · rfl
  · exfalso
    rcases Bool.or_eq_true_iff.mp hto with hu | hc
    · obtain ⟨_, hlr, hctr⟩ := isBranchUncoditional_excludes hu
      simp [branchesToRegister, hlr, hctr] at h
    · obtain ⟨_, hlr, hctr⟩ := isBranchConditional_excludes hc
      simp [branchesToRegister, hlr, hctr] at h

/-- **The internal exits are the possible next instructions.** -/
theorem Analysable.mem_exits_internal (h : S.Analysable) {pc t : Nat} (hpc : pc < S.length) :
    (t, BlockType.INTERNAL) ∈ S.exits pc ↔ S.Next pc t := by
  have hfall : (t, BlockType.INTERNAL) ∈ (if S.fallsThrough pc then [(pc + 1, BlockType.INTERNAL)]
      else []) ↔ S.fallsThrough pc = true ∧ t = pc + 1 ∧ t < S.length := by
    by_cases hf : S.fallsThrough pc = true
    · have := h.next_lt hpc hf
      simp only [hf, if_true, List.mem_singleton, Prod.mk.injEq, and_true, true_and]
      omega
    · simp [hf]
  rw [exits, List.mem_append, hfall, Next]
  refine or_congr_left ?_
  by_cases hto : S.branchesToAddress pc = true
  · rw [if_pos hto, List.mem_singleton, eq_comm, h.targetExit_internal hpc hto]
  · rw [if_neg hto]
    constructor
    · intro hmem
      split at hmem <;> simp at hmem
    · intro hjump
      exact absurd hjump.1 hto

/-- Of the exits at most one is outside. -/
theorem Analysable.exits_outside (h : S.Analysable) {pc : Nat} (hpc : pc < S.length) :
    ((S.exits pc).filter (fun e => e.2 != .INTERNAL)).length ≤ 1 ∧
      (((S.exits pc).filter (fun e => e.2 != .INTERNAL)).length = 1 ↔ S.Leaves pc) := by
  have hfall : (if S.fallsThrough pc then [(pc + 1, BlockType.INTERNAL)] else []).filter
      (fun e => e.2 != .INTERNAL) = [] := by
    split <;> simp
  rw [exits, List.filter_append, hfall, List.append_nil]
  by_cases hto : S.branchesToAddress pc = true
  · have hreg : S.branchesToRegister pc = false := by
      cases hr : S.branchesToRegister pc
      · rfl
      · rw [branchesToRegister_not_address hr] at hto
        cases hto
    have hleaves : S.Leaves pc ↔ (S.targetExit pc).2 ≠ .INTERNAL := by
      obtain ⟨l, hl, _⟩ := h.resolves pc hpc hto
      simp only [Leaves, hreg, hto, targetExit, hl, Bool.false_eq_true, false_or, true_and]
      cases hin : S.func.contains l <;> simp [hin]
    rw [if_pos hto, hleaves]
    refine ⟨List.length_filter_le _ _, ?_⟩
    by_cases hne : (S.targetExit pc).2 = .INTERNAL <;> simp [hne]
  · by_cases hr : S.branchesToRegister pc = true
    · exact ⟨by simp [hto, hr], by simp [hto, hr, Leaves]⟩
    · exact ⟨by simp [hto, hr], by simp [hto, hr, Leaves]⟩

end Subject
end Ppc2cpp
