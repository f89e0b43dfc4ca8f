import Ppc2cpp.ControlFlow.Invariant
import Ppc2cpp.ControlFlow.NextInsn

/-! How the scan of one block ends.

The loop of `functionCFA` passes over instructions that are not branches and stops
in one of two ways: at an instruction before the start of an existing block, or at a
branch. At a branch the three arms of the loop do one thing, they create an edge for
each exit of the branch in order (`linkExits`), and then set flags. The proofs about
the recursion are inductions over that list of exits. -/
namespace Ppc2cpp
namespace ControlFlowAnalysis
open ControlFlowGraph
variable (S : Subject)

/-- The edge for one exit of the branch at `pc`. -/
def linkExit (recurse : Nat → ControlFlowGraph → Except Error ControlFlowGraph)
    (blockIdx pc : Nat) (g : ControlFlowGraph) : Nat × BlockType → Except Error ControlFlowGraph
  | (target, .INTERNAL) => linkInternal recurse blockIdx pc target g
  | (_, .EXTERNAL) => .ok (g.createSuccessorExternal blockIdx pc)
  | (_, .RUNTIME) => .ok (g.createSuccessorRuntime blockIdx pc)

def linkExits (recurse : Nat → ControlFlowGraph → Except Error ControlFlowGraph)
    (blockIdx pc : Nat) (g : ControlFlowGraph) (exits : List (Nat × BlockType)) :
    Except Error ControlFlowGraph :=
  exits.foldlM (linkExit recurse blockIdx pc) g

variable {S} {recurse : Nat → ControlFlowGraph → Except Error ControlFlowGraph} {b pc : Nat}

/-- The branch at `pc` has a target, and the instruction after it where control can
come there. -/
structure Linkable (S : Subject) (pc : Nat) : Prop where
  target : S.branchesToAddress pc = true → ∃ t, S.branchTarget pc = .ok (some t)
  next : S.fallsThrough pc = true → pc + 1 < S.length

theorem Linkable.of_analysable (h : S.Analysable) (hpc : pc < S.length) : Linkable S pc where
  target hto := by
    obtain ⟨t, ht, _⟩ := h.resolves pc hpc hto
    exact ⟨t, ht⟩
  next := h.next_lt hpc

theorem handleBranch_eq (h : Linkable S pc) (hto : S.branchesToAddress pc = true)
    (g : ControlFlowGraph) :
    handleBranch S recurse b pc g = linkExit recurse b pc g (S.targetExit pc) := by
  obtain ⟨t, ht⟩ := h.target hto
  have hvalue : (value (some t) : Except Error ProgramLocation) = .ok t := rfl
  simp only [handleBranch, Subject.targetExit, ht, bind, Except.bind, hvalue]
  cases hin : S.func.contains t <;> simp [linkExit, pure, Except.pure]

theorem linkNext_eq (h : Linkable S pc) (hfall : S.fallsThrough pc = true)
    (g : ControlFlowGraph) :
    linkNext S recurse b pc g = linkExit recurse b pc g (pc + 1, .INTERNAL) := by
  have hlt := h.next hfall
  simp [linkNext, hlt, linkExit]

theorem setFlags_id (g : ControlFlowGraph) (i : Nat) : g.setFlags i id = g := by
  rw [setFlags, List.modify_id]

/-- A tail call is marked at the last instruction only, and depends on the edges. -/
def tailFlags (S : Subject) (blockIdx pc : Nat) (g : ControlFlowGraph) : BasicBlock → BasicBlock :=
  if pc + 1 = S.length ∧ g.hasExternalSuccessor blockIdx then markTailCall else id

/-- The flags a branch leaves on its block. -/
def branchFlags (S : Subject) (blockIdx pc : Nat) (g : ControlFlowGraph) :
    BasicBlock → BasicBlock :=
  if isLink (S.insn pc) then markCall
  else if S.fallsThrough pc then id
  else if isBranchToLR (S.insn pc) then markExit
  else tailFlags S blockIdx pc g

theorem keepsRange_branchFlags (g : ControlFlowGraph) : KeepsRange (branchFlags S b pc g) := by
  intro x
  unfold branchFlags tailFlags
  split_ifs <;> exact ⟨rfl, rfl, rfl⟩

/-- The first exit of a branch, and then the instruction after it if control can come
there. -/
theorem linkExits_eq (h : Linkable S pc) (g : ControlFlowGraph)
    {e : Nat × BlockType}
    (hexits : S.exits pc = e :: if S.fallsThrough pc then [(pc + 1, .INTERNAL)] else []) :
    ((linkExits recurse b pc g (S.exits pc)).map
        fun g' => g'.setFlags b (branchFlags S b pc g')) = (do
      let g₁ ← linkExit recurse b pc g e
      if S.fallsThrough pc then
        let g₂ ← linkNext S recurse b pc g₁
        return g₂.setFlags b (branchFlags S b pc g₂)
      else return g₁.setFlags b (branchFlags S b pc g₁)) := by
  rw [linkExits, hexits, List.foldlM_cons]
  cases linkExit recurse b pc g e with
  | error => rfl
  | ok g₁ =>
    cases hfall : S.fallsThrough pc
    · rfl
    · simp only [bind, Except.bind, if_true, linkNext_eq h hfall]
      cases hg₂ : linkExit recurse b pc g₁ (pc + 1, .INTERNAL) <;>
        simp [hg₂, bind, Except.bind, Except.map, pure, Except.pure]

section
variable (h : Linkable S pc) (g : ControlFlowGraph)
include h

theorem endUnconditional_eq (hu : isBranchUncoditional (S.insn pc) = true) :
    endUnconditional S recurse b pc g = (linkExits recurse b pc g (S.exits pc)).map
      fun g' => g'.setFlags b (branchFlags S b pc g') := by
  have hto : S.branchesToAddress pc = true := by simp [Subject.branchesToAddress, hu]
  have hbranch : isBranch (S.insn pc) = true := (isBranch_iff _).mpr (.inl hu)
  have hfall : S.fallsThrough pc = isLink (S.insn pc) := by
    simp [Subject.fallsThrough, hu, hbranch]
  obtain ⟨_, hlr, _⟩ := isBranchUncoditional_excludes hu
  rw [linkExits_eq h g (e := S.targetExit pc) (by simp [Subject.exits, hto]), endUnconditional,
    handleBranch_eq h hto]
  refine congrArg _ (funext fun g₁ => ?_)
  cases hlink : isLink (S.insn pc)
  · simp only [hfall, hlink, branchFlags, tailFlags, hlr, Bool.false_eq_true, if_false]
    split <;> simp [setFlags_id]
  · simp only [hfall, hlink, branchFlags, if_true]

theorem endConditional_eq (hc : isBranchConditional (S.insn pc) = true) :
    endConditional S recurse b pc g = (linkExits recurse b pc g (S.exits pc)).map
      fun g' => g'.setFlags b (branchFlags S b pc g') := by
  have hto : S.branchesToAddress pc = true := by simp [Subject.branchesToAddress, hc]
  have hbranch : isBranch (S.insn pc) = true := (isBranch_iff _).mpr (.inr (.inl hc))
  obtain ⟨hu, hlr, _⟩ := isBranchConditional_excludes hc
  have hfall : S.fallsThrough pc =
      (isLink (S.insn pc) || !isBranchConditionUnconditional (S.insn pc)) := by
    simp [Subject.fallsThrough, hu, hbranch]
  rw [linkExits_eq h g (e := S.targetExit pc) (by simp [Subject.exits, hto]), endConditional,
    handleBranch_eq h hto]
  refine congrArg _ (funext fun g₁ => ?_)
  cases hlink : isLink (S.insn pc) <;>
    cases halways : isBranchConditionUnconditional (S.insn pc) <;>
    simp only [hfall, hlink, halways, branchFlags, tailFlags, hlr, Bool.false_eq_true, if_false,
      if_true, Bool.or_true, Bool.or_false, Bool.not_true, Bool.not_false, setFlags_id]
  split <;> simp [setFlags_id]

theorem endRegister_eq (hr : S.branchesToRegister pc = true) :
    endRegister S recurse b pc g = (linkExits recurse b pc g (S.exits pc)).map
      fun g' => g'.setFlags b (branchFlags S b pc g') := by
  have hto := Subject.branchesToRegister_not_address hr
  have hkind : isBranchToLR (S.insn pc) = true ∨ isBranchToCTR (S.insn pc) = true :=
    Bool.or_eq_true_iff.mp hr
  have hbranch : isBranch (S.insn pc) = true := (isBranch_iff _).mpr (.inr (.inr hkind))
  have hu : isBranchUncoditional (S.insn pc) = false := by
    simp [Subject.branchesToAddress] at hto
    exact hto.1
  have hfall : S.fallsThrough pc =
      (isLink (S.insn pc) || !isBranchConditionUnconditional (S.insn pc)) := by
    simp [Subject.fallsThrough, hu, hbranch]
  rw [linkExits_eq h g (e := (pc, .RUNTIME)) (by simp [Subject.exits, hto, hr]), endRegister]
  change _ = Except.bind (.ok (g.createSuccessorRuntime b pc)) _
  dsimp only [Except.bind]
  cases hlink : isLink (S.insn pc) <;>
    cases halways : isBranchConditionUnconditional (S.insn pc) <;>
    simp only [hfall, hlink, halways, branchFlags, tailFlags, Bool.false_eq_true, if_false,
      if_true, Bool.or_true, Bool.or_false, Bool.not_true, Bool.not_false, setFlags_id]
  cases hlr : isBranchToLR (S.insn pc)
  · simp only [Bool.false_eq_true, if_false]
    split <;> simp [setFlags_id]
  · simp

end

/-- **At a branch the three arms of the loop create the edges of the exits, in order,
and set flags.** -/
theorem blockLoop_branch (h : Linkable S pc)
    (hbranch : isBranch (S.insn pc) = true) (remaining : Nat) (g : ControlFlowGraph) :
    blockLoop S recurse b (remaining + 1) pc g =
      (linkExits recurse b pc g (S.exits pc)).map
        fun g' => g'.setFlags b (branchFlags S b pc g') := by
  rw [blockLoop]
  split
  · exact endUnconditional_eq h g ‹_›
  · split
    · exact endConditional_eq h g ‹_›
    · have hr : S.branchesToRegister pc = true := by
        rcases (isBranch_iff _).mp hbranch with hu | hc | hlr | hctr
        · contradiction
        · contradiction
        · simp [Subject.branchesToRegister, hlr]
        · simp [Subject.branchesToRegister, hctr]
      rw [if_pos (show (isBranchToLR (S.insn pc) || isBranchToCTR (S.insn pc)) = true from hr)]
      exact endRegister_eq h g hr

/-- An instruction that is not a branch ends the block in front of another block, or is
passed over. -/
theorem blockLoop_passes {remaining : Nat} {g g' : ControlFlowGraph}
    (hbranch : isBranch (S.insn pc) = false)
    (h : blockLoop S recurse b (remaining + 1) pc g = .ok g') :
    (∃ following, g.findInternalBlockByPosition (pc + 1) = some following ∧
        g' = g.createSuccessorFallthrough b pc following) ∨
      blockLoop S recurse b remaining (pc + 1) g = .ok g' := by
  obtain ⟨hu, hc, hlr, hctr⟩ := not_isBranch hbranch
  rw [blockLoop] at h
  simp only [hu, hc, hlr, hctr, Bool.false_eq_true, if_false, Bool.or_false] at h
  cases hfollow : g.findInternalBlockByPosition (pc + 1) with
  | none =>
    rw [hfollow] at h
    exact .inr h
  | some following =>
    rw [hfollow] at h
    dsimp only at h
    split at h
    · cases h
      exact .inl ⟨following, rfl, rfl⟩
    · exact .inr h

/-- One instruction more without a branch. -/
theorem plain_next {start : Nat}
    (hplain : ∀ k, start ≤ k → k < pc → isBranch (S.insn k) = false)
    (hbranch : isBranch (S.insn pc) = false) :
    ∀ k, start ≤ k → k < pc + 1 → isBranch (S.insn k) = false := by
  intro k hk hlt
  by_cases he : k = pc
  · exact he ▸ hbranch
  · exact hplain k hk (by omega)

/-- At another instruction the block ends if the next one starts a block. -/
theorem blockLoop_plain (recurse : Nat → ControlFlowGraph → Except Error ControlFlowGraph)
    (b : Nat) (h : S.Analysable) (hpc : pc < S.length)
    (hbranch : isBranch (S.insn pc) = false) (remaining : Nat) (g : ControlFlowGraph) :
    blockLoop S recurse b (remaining + 1) pc g =
      match g.findInternalBlockByPosition (pc + 1) with
      | some following => .ok (g.createSuccessorFallthrough b pc following)
      | none => blockLoop S recurse b remaining (pc + 1) g := by
  obtain ⟨hu, hc, hlr, hctr⟩ := not_isBranch hbranch
  have hlt : pc + 1 < S.length := h.next_lt hpc (by simp [Subject.fallsThrough, hbranch])
  rw [blockLoop, if_neg (show ¬ isBranchUncoditional (S.insn pc) = true by simp [hu]),
    if_neg (show ¬ isBranchConditional (S.insn pc) = true by simp [hc]),
    if_neg (show ¬ (isBranchToLR (S.insn pc) || isBranchToCTR (S.insn pc)) = true by
      simp [hlr, hctr])]
  cases g.findInternalBlockByPosition (pc + 1) with
  | some following => exact if_pos hlt
  | none => rfl

/-- The ways a scan from `start` can end, at `pc`. -/
inductive ScanEnd (S : Subject) (recurse : Nat → ControlFlowGraph → Except Error ControlFlowGraph)
    (b : Nat) (g : ControlFlowGraph) (pc : Nat) (result : Except Error ControlFlowGraph) : Prop where
  | branch : isBranch (S.insn pc) = true →
      result = ((linkExits recurse b pc g (S.exits pc)).map
        fun g' => g'.setFlags b (branchFlags S b pc g')) → ScanEnd S recurse b g pc result
  | following {j : Nat} : isBranch (S.insn pc) = false →
      g.findInternalBlockByPosition (pc + 1) = some j →
      result = .ok (g.createSuccessorFallthrough b pc j) → ScanEnd S recurse b g pc result

/-- The instructions from `start` to before `pc` are passed over. -/
def Passed (S : Subject) (g : ControlFlowGraph) (start pc : Nat) : Prop :=
  ∀ k, start ≤ k → k < pc →
    isBranch (S.insn k) = false ∧ g.findInternalBlockByPosition (k + 1) = none

/-- **How the scan of a block ends.** -/
theorem blockLoop_end (recurse : Nat → ControlFlowGraph → Except Error ControlFlowGraph)
    (b remaining : Nat) (h : S.Analysable) (g : ControlFlowGraph)
    (hpc : pc < S.length) (hrem : pc + remaining = S.length) :
    ∃ last, pc ≤ last ∧ last < S.length ∧ Passed S g pc last ∧
      ScanEnd S recurse b g last (blockLoop S recurse b remaining pc g) := by
  induction remaining generalizing pc with
  | zero => omega
  | succ remaining ih =>
    cases hbranch : isBranch (S.insn pc) with
    | true =>
      exact ⟨pc, le_refl _, hpc, fun k _ _ => by omega,
        .branch hbranch (blockLoop_branch (.of_analysable h hpc) hbranch remaining g)⟩
    | false =>
      have hstep := blockLoop_plain recurse b h hpc hbranch remaining g
      cases hfind : g.findInternalBlockByPosition (pc + 1) with
      | some j =>
        rw [hfind] at hstep
        exact ⟨pc, le_refl _, hpc, fun k _ _ => by omega, .following hbranch hfind hstep⟩
      | none =>
        rw [hfind] at hstep
        have hlt : pc + 1 < S.length := h.next_lt hpc (by simp [Subject.fallsThrough, hbranch])
        obtain ⟨last, hle, hlast, hpass, hend⟩ := ih hlt (by omega)
        refine ⟨last, by omega, hlast, ?_, by rw [hstep]; exact hend⟩
        intro k hk hlt
        by_cases he : k = pc
        · exact he ▸ ⟨hbranch, hfind⟩
        · exact hpass k (by omega) hlt

end ControlFlowAnalysis
end Ppc2cpp
