import Ppc2cpp.ControlFlow.Soundness

/-! Which blocks are exits.

The data-flow analysis gives a block the return registers only if `isExit` is set on
it. A branch sets the flag on its own block, after its edges are made, and no other
step of the recursion touches it; so in every run that returns, the flag of a block is
decided by its last instruction. Not every instruction that leaves the function asks for
it: a branch that may not be taken never does, and a branch to an address only as the
last instruction of the function. -/
namespace Ppc2cpp
namespace Subject
variable (S : Subject)

/-- The instruction at `pc` can leave the function without setting the link register: it
is a `bclr`, always taken or not, or a `b` or `bc` to a target outside the function. -/
def Departs (pc : Nat) : Prop :=
  pc < S.length ∧ isLink (S.insn pc) = false ∧
    (isBranchToLR (S.insn pc) = true ∨ (S.branchesToAddress pc = true ∧
      ∃ t, S.branchTarget pc = .ok (some t) ∧ S.func.contains t = false))

/-- The branch at `pc` is always taken, and returns or is the last instruction. -/
def MarksExit (pc : Nat) : Prop :=
  S.fallsThrough pc = false ∧ (isBranchToLR (S.insn pc) = true ∨ pc + 1 = S.length)

variable {S}

theorem Departs.isBranch {pc : Nat} (h : S.Departs pc) : isBranch (S.insn pc) = true := by
  rw [isBranch_iff]
  rcases h.2.2 with hlr | ⟨hto, _⟩
  · exact .inr (.inr (.inl hlr))
  · rcases Bool.or_eq_true_iff.mp hto with hu | hc
    · exact .inl hu
    · exact .inr (.inl hc)

end Subject

namespace ControlFlowAnalysis
open ControlFlowGraph
variable {S : Subject} {recurse : Nat → ControlFlowGraph → Except Error ControlFlowGraph}
  {b pc : Nat} {g g' g'' : ControlFlowGraph} {x : BasicBlock}

/-! ### The edges of a branch, in a run that returns -/

theorem branchTarget_of_handleBranch (h : handleBranch S recurse b pc g = .ok g') :
    ∃ t, S.branchTarget pc = .ok (some t) := by
  obtain ⟨target?, ht, h⟩ := bind_eq_ok.mp h
  obtain ⟨target, hsome, _⟩ := bind_eq_ok.mp h
  rw [value_eq_ok.mp hsome] at ht
  exact ⟨target, ht⟩

theorem lt_of_linkNext (h : linkNext S recurse b pc g = .ok g') : pc + 1 < S.length := by
  by_contra hge
  rw [linkNext, if_pos hge] at h
  cases h

/-- A branch whose edges were made had a target, and an instruction after it where it
needed one. -/
theorem Linkable.of_ok {remaining : Nat} (hbranch : isBranch (S.insn pc) = true)
    (h : blockLoop S recurse b (remaining + 1) pc g = .ok g') : Linkable S pc := by
  rw [blockLoop] at h
  split at h
  · rename_i hu
    obtain ⟨g₁, htarget, h⟩ := bind_eq_ok.mp h
    refine ⟨fun _ => branchTarget_of_handleBranch htarget, fun hfall => ?_⟩
    have hlink : isLink (S.insn pc) = true := by
      simpa [Subject.fallsThrough, hbranch, hu] using hfall
    rw [if_pos hlink] at h
    obtain ⟨g₂, hnext, _⟩ := bind_eq_ok.mp h
    exact lt_of_linkNext hnext
  · split at h
    · rename_i hu hc
      obtain ⟨g₁, htarget, h⟩ := bind_eq_ok.mp h
      refine ⟨fun _ => branchTarget_of_handleBranch htarget, fun hfall => ?_⟩
      rw [if_pos (by simpa [Subject.fallsThrough, hbranch, hu] using hfall)] at h
      obtain ⟨g₂, hnext, _⟩ := bind_eq_ok.mp h
      exact lt_of_linkNext hnext
    · rename_i hu hc
      refine ⟨fun hto => ?_, fun hfall => ?_⟩
      · rcases Bool.or_eq_true_iff.mp hto with h | h
        · exact absurd h hu
        · exact absurd h hc
      · split at h
        · rw [endRegister] at h
          rw [if_pos (by simpa [Subject.fallsThrough, hbranch, hu] using hfall)] at h
          obtain ⟨g₂, hnext, _⟩ := bind_eq_ok.mp h
          exact lt_of_linkNext hnext
        · rename_i hr
          rcases (isBranch_iff _).mp hbranch with h | h | h | h <;> simp_all

/-! ### The flags of the blocks -/

/-- The flag of a block is as its last instruction asks. -/
def Flagged (S : Subject) (x : BasicBlock) : Prop :=
  S.Departs x.stop → (x.isExit = true ↔ S.MarksExit x.stop)

/-- What a piece of the recursion that works on the block `b` leaves of the other blocks:
those of `g` are as they were, the new ones are flagged. -/
structure FlagsNew (S : Subject) (b : Nat) (g g' : ControlFlowGraph) : Prop where
  steps : Steps g g'
  frozen : ∀ i, i < g.blocks.length → i ≠ b → g'.blocks[i]? = g.blocks[i]?
  flagged : ∀ i x, g.blocks.length ≤ i → g'.Internal i x → Flagged S x

theorem FlagsNew.refl (S : Subject) (b : Nat) (g : ControlFlowGraph) : FlagsNew S b g g where
  steps := .refl
  frozen _ _ _ := rfl
  flagged i x hi hx := absurd hx.lt (by omega)

theorem FlagsNew.trans (h : FlagsNew S b g g') (h' : FlagsNew S b g' g'')
    (hb : b < g.blocks.length) : FlagsNew S b g g'' := by
  have hlen := h.steps.keeps.length_le
  refine ⟨h.steps.trans h'.steps, fun i hi hne => ?_, fun i x hi hx => ?_⟩
  · rw [h'.frozen i (by omega) hne, h.frozen i hi hne]
  · by_cases hnew : g'.blocks.length ≤ i
    · exact h'.flagged i x hnew hx
    · have hsame := h'.frozen i (by omega) (by omega)
      exact h.flagged i x hi ⟨hsame ▸ hx.1, hx.2⟩

/-- A recursive call on a new block flags it, and every block it creates. -/
def FlagsBlocks (S : Subject)
    (recurse : Nat → ControlFlowGraph → Except Error ControlFlowGraph) : Prop :=
  ∀ (b : Nat) (x : BasicBlock) (g g' : ControlFlowGraph), g.WellFormed → g.Internal b x →
    x.isExit = false → x.stop = x.start → recurse b g = .ok g' →
    FlagsNew S b g g' ∧ ∀ y, g'.Internal b y → Flagged S y

theorem linkExit_flags (hrec : FlagsBlocks S recurse) (hw : g.WellFormed) (hx : g.Internal b x)
    (hpc : x.start ≤ pc) {e : Nat × BlockType} (hout : e.2 ≠ .INTERNAL → e.1 = pc)
    (h : linkExit recurse b pc g e = .ok g') :
    FlagsNew S b g g' ∧ g'.Internal b {x with stop := pc} := by
  rcases linkExit_cases recurse hw hx hpc hout with
    ⟨g₁, j, hok, hlinked, hnew⟩ | ⟨g₁, heq, hlinked, _, _, hy, hnew⟩
  · obtain rfl : g₁ = g' := Except.ok.inj (hok.symm.trans h)
    exact ⟨⟨.single hlinked.step, fun i hi hne => (hlinked.frozen hi hne).1,
      fun i z hi hz => absurd hz (hnew i z hi)⟩, hlinked.origin hx⟩
  · obtain ⟨hrest, hflag⟩ := hrec _ _ _ _ (hlinked.step.wellFormed hw) hy rfl rfl (heq ▸ h)
    have hlen := hlinked.step.keeps.length_le
    have hlt := hx.lt
    refine ⟨⟨.head hlinked.step hrest.steps, fun i hi hne => ?_, fun i z hi hz => ?_⟩, ?_⟩
    · rw [hrest.frozen i (by omega) (by omega), (hlinked.frozen hi hne).1]
    · by_cases hlast : g₁.blocks.length ≤ i
      · exact hrest.flagged i z hlast hz
      · by_cases hi' : i = g.blocks.length
        · exact hflag z (hi' ▸ hz)
        · have hsame := hrest.frozen i (by omega) hi'
          exact absurd (hnew i z hi ⟨hsame ▸ hz.1, hz.2⟩) hi'
    · have horigin := hlinked.origin hx
      refine ⟨?_, horigin.2⟩
      rw [hrest.frozen b (by omega) (by omega)]
      exact horigin.1

theorem linkExits_flags (hrec : FlagsBlocks S recurse) {es : List (Nat × BlockType)}
    (hne : es ≠ []) (hw : g.WellFormed) (hx : g.Internal b x) (hpc : x.start ≤ pc)
    (hout : ∀ e ∈ es, e.2 ≠ .INTERNAL → e.1 = pc) (h : linkExits recurse b pc g es = .ok g') :
    FlagsNew S b g g' ∧ g'.Internal b {x with stop := pc} := by
  induction es generalizing g x with
  | nil => exact absurd rfl hne
  | cons e es ih =>
    obtain ⟨g₁, hok, h⟩ := bind_eq_ok.mp h
    obtain ⟨hfirst, hx₁⟩ := linkExit_flags hrec hw hx hpc (hout e List.mem_cons_self) hok
    cases es with
    | nil =>
      cases h
      exact ⟨hfirst, hx₁⟩
    | cons e' es =>
      obtain ⟨hrest, hx'⟩ := ih (List.cons_ne_nil e' es) (hfirst.steps.wellFormed hw) hx₁ hpc
        (fun e he => hout e (List.mem_cons_of_mem _ he)) h
      exact ⟨hfirst.trans hrest hx.lt, hx'⟩

/-- The flag a branch that leaves the function sets on its block. -/
theorem isExit_branchFlags (hw : g.WellFormed) (hx : g.Internal b x) (hpc : x.start ≤ pc)
    (h : linkExits recurse b pc g (S.exits pc) = .ok g') (hd : S.Departs pc)
    {y : BasicBlock} (hy : y.isExit = false) :
    (branchFlags S b pc g' y).isExit = true ↔ S.MarksExit pc := by
  obtain ⟨_, hlink, hkind⟩ := hd
  unfold branchFlags Subject.MarksExit
  rw [hlink, if_neg (by decide)]
  cases hfall : S.fallsThrough pc
  · rw [if_neg (by decide)]
    cases hlr : isBranchToLR (S.insn pc)
    · -- the one edge of a jump goes to the external block it created
      obtain ⟨hto, t, ht, hin⟩ := hkind.resolve_left (by simp [hlr])
      have hexits : S.exits pc = [(pc, .EXTERNAL)] := by
        simp [Subject.exits, hto, hfall, Subject.targetExit, ht, hin]
      rw [hexits] at h
      obtain rfl : g.createSuccessorExternal b pc = g' := Except.ok.inj h
      have hlinked := (linked_outside (show BlockType.EXTERNAL ≠ .INTERNAL by simp) hw hx hpc).1
      have hext : (g.createSuccessorExternal b pc).hasExternalSuccessor b = true := by
        refine List.any_eq_true.mpr ⟨g.blocks.length, ?_, ?_⟩
        · rw [show (g.createSuccessorExternal b pc).succ b = _ from hlinked.succ b, if_pos rfl]
          simp
        · obtain ⟨z, hz, hkey⟩ := Option.map_eq_some_iff.mp hlinked.key
          have hz' : (g.createSuccessorExternal b pc).blocks[g.blocks.length]? = some z := hz
          have hty : z.blockType = .EXTERNAL := congrArg Prod.snd hkey
          simp [isInternal, hz', hty]
      unfold tailFlags
      by_cases hlast : pc + 1 = S.length
      · simp [hext, hlast, markTailCall]
      · simp [hlast, hy]
    · simp [markExit]
  · simp [hy]

/-- **The scan of a block flags it.** -/
theorem blockLoop_flags (hrec : FlagsBlocks S recurse) {remaining : Nat} (hw : g.WellFormed)
    (hx : g.Internal b x) (hexit : x.isExit = false) (hstop : x.stop = x.start)
    (hpc : x.start ≤ pc) (hplain : ∀ k, x.start ≤ k → k < pc → isBranch (S.insn k) = false)
    (hrem : S.length ≤ pc + remaining) (h : blockLoop S recurse b remaining pc g = .ok g') :
    FlagsNew S b g g' ∧ ∀ y, g'.Internal b y → Flagged S y := by
  induction remaining generalizing pc with
  | zero =>
    -- the function ran out, the block still ends where it starts
    cases h
    refine ⟨.refl S b g, fun y hy hd => ?_⟩
    obtain rfl : x = y := Option.some.inj (hx.1.symm.trans hy.1)
    have := hplain x.stop (by omega) (by have := hd.1; omega)
    rw [hd.isBranch] at this
    cases this
  | succ remaining ih =>
    cases hbranch : isBranch (S.insn pc) with
    | true =>
      rw [blockLoop_branch (Linkable.of_ok hbranch h) hbranch] at h
      cases hlinks : linkExits recurse b pc g (S.exits pc) with
      | error e =>
        rw [hlinks] at h
        cases h
      | ok g₁ =>
        rw [hlinks] at h
        obtain rfl := Except.ok.inj h
        obtain ⟨hnew, hx₁⟩ := linkExits_flags hrec (S.exits_ne_nil pc) hw hx hpc
          (S.exits_outside_eq pc) hlinks
        refine ⟨⟨hnew.steps.tail (.flags (keepsRange_branchFlags g₁)), fun i hi hne => ?_,
          fun i z hi hz => ?_⟩, fun y hy hd => ?_⟩
        · rw [getElem?_setFlags_of_ne g₁ hne, hnew.frozen i hi hne]
        · have hne : i ≠ b := by have := hx.lt; omega
          exact hnew.flagged i z hi (hz.of_setFlags hne)
        · obtain ⟨hy, _⟩ := hy
          rw [getElem?_setFlags, hx₁.1] at hy
          obtain rfl : branchFlags S b pc g₁ {x with stop := pc} = y := by simpa using hy
          rw [(keepsRange_branchFlags g₁ _).2.1] at hd ⊢
          exact isExit_branchFlags hw hx hpc hlinks hd hexit
    | false =>
      rcases blockLoop_passes hbranch h with ⟨following, hfollow, rfl⟩ | h
      · obtain ⟨y, hy, _, ht⟩ := findInternal_some _ hfollow
        have hget : ∀ i, (g.createSuccessorFallthrough b pc following).blocks[i]? =
            g.blocks[i]?.map (fun z => if b = i then {z with stop := pc} else z) :=
          getElem?_setEnd g b pc
        refine ⟨⟨.single (.fallthrough hx hpc ⟨hy, ht⟩), fun i hi hne => ?_, fun i z hi hz => ?_⟩,
          fun z hz hd => ?_⟩
        · rw [hget]
          simp [Ne.symm hne]
        · have hlt := hz.lt
          simp only [createSuccessorFallthrough, blocks_addEdge, blocks_length_setEnd] at hlt
          omega
        · have hz := hz.1
          rw [hget, hx.1] at hz
          obtain rfl : {x with stop := pc} = z := by simpa using hz
          have := hd.isBranch
          rw [hbranch] at this
          cases this
      · exact ih (by omega) (plain_next hplain hbranch) (by omega) h

theorem functionCFABlock_flags (fuel : Nat) : FlagsBlocks S (functionCFABlock S fuel) := by
  induction fuel with
  | zero =>
    intro b x g g' _ _ _ _ h
    cases h
  | succ fuel ih =>
    intro b x g g' hw hx hexit hstop h
    rw [functionCFABlock_succ S hx] at h
    exact blockLoop_flags ih hw hx hexit hstop (le_refl _) (fun k hk hlt => by omega) (by omega) h

/-- **Which ways out of a function are exits**: a block whose last instruction can leave
the function without linking is one if and only if that instruction is always taken and,
unless it is a `bclr`, is the last of the function. -/
theorem isExit_iff {S : Subject} {g : ControlFlowGraph} (h : functionCFA S = .ok g) {i : Nat}
    {x : BasicBlock} (hx : g.Internal i x) (hd : S.Departs x.stop) :
    x.isExit = true ↔ S.MarksExit x.stop := by
  obtain ⟨hnew, hentry⟩ := functionCFABlock_flags _ 0 ⟨0, 0, .INTERNAL, false, false, false⟩ _ _
    WellFormed.init ⟨rfl, rfl⟩ rfl rfl h
  cases i with
  | zero => exact hentry x hx hd
  | succ i => exact hnew.flagged _ x (Nat.succ_le_succ (Nat.zero_le i)) hx hd

end ControlFlowAnalysis

/-- `beqlr; blr`. -/
def conditionalReturn : Subject := assembledSubject [0x4d820020, 0x4e800020] 2 (by decide)

theorem conditionalReturn_analysable : conditionalReturn.Analysable :=
  assembledSubject_analysable (by decide) (by decide) (by decide +kernel) (by decide +kernel)

theorem functionCFA_conditionalReturn :
    ControlFlowAnalysis.functionCFA conditionalReturn = .ok
      ⟨[⟨0, 0, .INTERNAL, false, false, false⟩, ⟨0, 0, .RUNTIME, false, false, false⟩,
        ⟨1, 1, .INTERNAL, true, false, false⟩, ⟨1, 1, .RUNTIME, false, false, false⟩],
       [⟨[], [1, 2]⟩, ⟨[0], []⟩, ⟨[0], [3]⟩, ⟨[2], []⟩]⟩ := by
  decide +kernel

/-- Control leaves at the `beqlr`. -/
theorem conditionalReturn_departs : conditionalReturn.Departs 0 :=
  ⟨by decide, by decide +kernel, .inl (by decide +kernel)⟩

theorem isExit_iff_conditionalReturn :
    (false = true ↔ conditionalReturn.MarksExit 0) ∧ (true = true ↔ conditionalReturn.MarksExit 1) :=
  ⟨ControlFlowAnalysis.isExit_iff functionCFA_conditionalReturn (i := 0) (x := ⟨0, 0, .INTERNAL, false,
      false, false⟩) ⟨rfl, rfl⟩ conditionalReturn_departs,
    ControlFlowAnalysis.isExit_iff functionCFA_conditionalReturn (i := 2) (x := ⟨1, 1, .INTERNAL, true,
      false, false⟩) ⟨rfl, rfl⟩ ⟨by decide, by decide +kernel, .inl (by decide +kernel)⟩⟩

/-- The block of the `beqlr` is not an exit. -/
theorem conditionalReturn_not_exit : ¬ ∀ (S : Subject) (g : ControlFlowGraph), S.Analysable →
    ControlFlowAnalysis.functionCFA S = .ok g →
    ∀ i x, g.Internal i x → S.Departs x.stop → x.isExit = true := by
  intro hall
  have := hall _ _ conditionalReturn_analysable functionCFA_conditionalReturn 0 _ ⟨rfl, rfl⟩
    conditionalReturn_departs
  cases this

end Ppc2cpp
