import Ppc2cpp.ControlFlow.Assembled

/-! Branches with a relocation, and the addends of the relocations.

A relocation stands for the location `addend` bytes from its destination. The ELF loader
answers with the destination alone, so a branch relocated against a section symbol goes to
the start of the section. -/
namespace Ppc2cpp

/-- The location that a relocation stands for. -/
def Relocation.place (r : Relocation) : ProgramLocation := r.destination.add r.addend

/-- The branch at `pc` goes to what its relocation stands for, whatever its operand, and is
one inside the function exactly when that is in the function. -/
structure HonoursAddend (L : ProgramLoader) (pc : ProgramLocation) (r : Relocation) : Prop where
  resolveTarget : ∀ val isAbsolute, L.resolveTarget pc val isAbsolute = .ok (some r.place)
  handleBranch : ∀ (S : Subject) recurse blockIdx j g, S.loader = L → S.pcLocation j = pc →
    ControlFlowAnalysis.handleBranch S recurse blockIdx j g =
      if S.func.contains r.place then
        ControlFlowAnalysis.linkInternal recurse blockIdx j (S.position r.place) g
      else .ok (g.createSuccessorExternal blockIdx j)

variable {L : ProgramLoader} {pc : ProgramLocation} {r : Relocation}

/-- Where the branch at a relocated location goes. -/
theorem resolveTarget_of_lookupBySource (helf : L.kind = .elf)
    (hlookup : L.reloctab.lookupBySource pc = some r) (val : Int) (isAbsolute : Bool) :
    L.resolveTarget pc val isAbsolute = .ok (some r.destination) := by
  have href : L.getReferenceAtLocation pc = .ok (some r.destination) := by
    simp only [ProgramLoader.getReferenceAtLocation, helf, hlookup, Option.map_some]
  simp only [ProgramLoader.resolveTarget, href, bind, Except.bind, pure, Except.pure]

/-- A target that is known decides how the branch is linked. -/
theorem handleBranch_of_target {S : Subject} {j : Nat} {t : ProgramLocation}
    (ht : S.branchTarget j = .ok (some t))
    (recurse : Nat → ControlFlowGraph → Except Error ControlFlowGraph) (blockIdx : Nat)
    (g : ControlFlowGraph) : ControlFlowAnalysis.handleBranch S recurse blockIdx j g =
      if S.func.contains t then
        ControlFlowAnalysis.linkInternal recurse blockIdx j (S.position t) g
      else .ok (g.createSuccessorExternal blockIdx j) := by
  simp only [ControlFlowAnalysis.handleBranch, ht, value, bind, Except.bind, pure, Except.pure]

/-- **A relocated branch goes to what its relocation stands for iff the first relocation of
the table at its section and offset has that for a destination.** For that relocation itself
this is so when the addend is zero. -/
theorem honoursAddend_iff (helf : L.kind = .elf)
    (hindex : L.reloctab.constructSourceIndex = L.reloctab) (hr : r ∈ L.reloctab.relocs)
    (hsource : r.source = pc) :
    HonoursAddend L pc r ↔ ∃ first,
      L.reloctab.relocs.find? (fun x => locationKeyEq x.source pc) = some first ∧
        first.destination = r.place := by
  have hlookup := RelocationTable.lookupBySource_constructSourceIndex L.reloctab pc
  rw [hindex] at hlookup
  cases hfirst : L.reloctab.relocs.find? (fun x => locationKeyEq x.source pc) with
  | none =>
    have hmissed := List.find?_eq_none.mp hfirst r hr
    rw [hsource] at hmissed
    exact absurd (locationKeyEq_keyEq.refl pc) hmissed
  | some first =>
    rw [hfirst] at hlookup
    have htarget := resolveTarget_of_lookupBySource helf hlookup
    constructor
    · intro h
      have hplace := h.resolveTarget 0 false
      rw [htarget] at hplace
      exact ⟨first, rfl, Option.some.inj (Except.ok.inj hplace)⟩
    · rintro ⟨x, hx, hplace⟩
      cases hx
      rw [hplace] at htarget
      refine ⟨htarget, fun S recurse blockIdx j g hloader hpc => ?_⟩
      apply handleBranch_of_target
      rw [Subject.branchTarget, hloader, hpc]
      exact htarget _ _

/-- `b`, `nop` and `blr`, where the branch is relocated against the section, 8 bytes on. -/
def sectionBranch : ProgramLoader :=
  assembled [0x48000000, 0x60000000, 0x4e800020] {} (RelocationTable.constructSourceIndex
    { relocs := [⟨⟨⟨0, 0⟩, 0⟩, ⟨⟨0, 0⟩, 0⟩, relocREL24, 8⟩] })

/-- The branch to the `blr` is resolved to itself. -/
theorem sectionBranch_not_honoured : ¬ ∀ (L : ProgramLoader) pc r, L.kind = .elf →
    L.reloctab.constructSourceIndex = L.reloctab → r ∈ L.reloctab.relocs → r.source = pc →
    HonoursAddend L pc r := by
  intro h
  have htarget := (h sectionBranch ⟨⟨0, 0⟩, 0⟩ ⟨⟨⟨0, 0⟩, 0⟩, ⟨⟨0, 0⟩, 0⟩, relocREL24, 8⟩ rfl (by rfl)
    (List.mem_singleton.mpr rfl) rfl).resolveTarget 0 false
  have hstart : sectionBranch.resolveTarget ⟨⟨0, 0⟩, 0⟩ 0 false = .ok (some ⟨⟨0, 0⟩, 0⟩) := by rfl
  rw [hstart] at htarget
  revert htarget
  decide

theorem honoursAddend_iff_sectionBranch :
    HonoursAddend sectionBranch ⟨⟨0, 0⟩, 0⟩ ⟨⟨⟨0, 0⟩, 0⟩, ⟨⟨0, 0⟩, 0⟩, relocREL24, 8⟩ ↔
      ∃ first, sectionBranch.reloctab.relocs.find?
          (fun x => locationKeyEq x.source ⟨⟨0, 0⟩, 0⟩) = some first ∧
        first.destination =
          (⟨⟨⟨0, 0⟩, 0⟩, ⟨⟨0, 0⟩, 0⟩, relocREL24, 8⟩ : Relocation).place :=
  honoursAddend_iff rfl (by rfl) (List.mem_singleton.mpr rfl) rfl

end Ppc2cpp
