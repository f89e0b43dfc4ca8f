import Ppc2cpp.ControlFlow.Exits
import Ppc2cpp.Lib.Logged

/-! Every graph that `functionCFA` passes through.

The analysis is written once more, with a record of the graph it starts from and of the
graph after each operation (`points`). Without the record it is the analysis itself
(`result_functionCFAPoints`); and the record is there also where the analysis fails. Every
graph in it is one that operations lead to (`Follows`), so the tables are transposes in all
of them (`functionCFAPoints_transposed`). -/
namespace Ppc2cpp
namespace ControlFlowAnalysis

open ControlFlowGraph Logged

/-- A piece of the analysis, with the graphs it passes through. -/
abbrev Pass := Logged ControlFlowGraph Error ControlFlowGraph

namespace Points
variable (S : Subject)

def linkInternal (recurse : Nat → ControlFlowGraph → Pass) (blockIdx pc targetPosition : Nat)
    (g : ControlFlowGraph) : Pass :=
  match g.tryCreateSuccessorInternal blockIdx pc targetPosition with
  | (g, some newBlock) => do
    let g ← visit g
    recurse newBlock g
  | (g, none) => visit g

def handleBranch (recurse : Nat → ControlFlowGraph → Pass) (blockIdx pc : Nat)
    (g : ControlFlowGraph) : Pass := do
  let target? ← lift (S.branchTarget pc)
  let targetLocation ← lift (value target?)
  if S.func.contains targetLocation then
    linkInternal recurse blockIdx pc (S.position targetLocation) g
  else visit (g.createSuccessorExternal blockIdx pc)

def linkNext (recurse : Nat → ControlFlowGraph → Pass) (blockIdx pc : Nat)
    (g : ControlFlowGraph) : Pass :=
  if ¬ pc + 1 < S.length then
    lift (.error (.assertFailed "Branch with link cannot be the last instruction of a function (need to blr at the end)"))
  else linkInternal recurse blockIdx pc (pc + 1) g

def endUnconditional (recurse : Nat → ControlFlowGraph → Pass) (blockIdx pc : Nat)
    (g : ControlFlowGraph) : Pass := do
  let g ← handleBranch S recurse blockIdx pc g
  if isLink (S.insn pc) then
    let g ← linkNext S recurse blockIdx pc g
    visit (g.setFlags blockIdx markCall)
  else if pc + 1 = S.length ∧ g.hasExternalSuccessor blockIdx then
    visit (g.setFlags blockIdx markTailCall)
  else pure g

def endConditional (recurse : Nat → ControlFlowGraph → Pass) (blockIdx pc : Nat)
    (g : ControlFlowGraph) : Pass := do
  let insn := S.insn pc
  let g ← handleBranch S recurse blockIdx pc g
  if isLink insn || !isBranchConditionUnconditional insn then
    let g ← linkNext S recurse blockIdx pc g
    if isLink insn then visit (g.setFlags blockIdx markCall) else pure g
  else if pc + 1 = S.length ∧ g.hasExternalSuccessor blockIdx then
    visit (g.setFlags blockIdx markTailCall)
  else pure g

def endRegister (recurse : Nat → ControlFlowGraph → Pass) (blockIdx pc : Nat)
    (g : ControlFlowGraph) : Pass := do
  let insn := S.insn pc
  let g ← visit (g.createSuccessorRuntime blockIdx pc)
  if isLink insn || !isBranchConditionUnconditional insn then
    let g ← linkNext S recurse blockIdx pc g
    if isLink insn then visit (g.setFlags blockIdx markCall) else pure g
  else if isBranchToLR insn then visit (g.setFlags blockIdx markExit)
  else if pc + 1 = S.length ∧ g.hasExternalSuccessor blockIdx then
    visit (g.setFlags blockIdx markTailCall)
  else pure g

def blockLoop (recurse : Nat → ControlFlowGraph → Pass) (blockIdx : Nat) :
    (remaining pc : Nat) → ControlFlowGraph → Pass
  | 0, _, g => pure g
  | remaining + 1, pc, g =>
    if isBranchUncoditional (S.insn pc) then endUnconditional S recurse blockIdx pc g
    else if isBranchConditional (S.insn pc) then endConditional S recurse blockIdx pc g
    else if isBranchToLR (S.insn pc) || isBranchToCTR (S.insn pc) then
      endRegister S recurse blockIdx pc g
    else
      match g.findInternalBlockByPosition (pc + 1) with
      | some following =>
        if pc + 1 < S.length then visit (g.createSuccessorFallthrough blockIdx pc following)
        else blockLoop recurse blockIdx remaining (pc + 1) g
      | none => blockLoop recurse blockIdx remaining (pc + 1) g

def functionCFABlock : (fuel blockIdx : Nat) → ControlFlowGraph → Pass
  | 0, _, _ => lift (.error .outOfFuel)
  | fuel + 1, blockIdx, g => do
    let block ← lift (at? g.blocks blockIdx)
    blockLoop S (functionCFABlock fuel) blockIdx (S.length - block.start) block.start g

/-! ### Without the record -/

section
variable {S} {pass : Nat → ControlFlowGraph → Pass}
  {recurse : Nat → ControlFlowGraph → Except Error ControlFlowGraph}
  (hpass : ∀ b g, (pass b g).result = recurse b g)
include hpass

theorem result_linkInternal (b pc t : Nat) (g : ControlFlowGraph) :
    (linkInternal pass b pc t g).result = ControlFlowAnalysis.linkInternal recurse b pc t g := by
  unfold linkInternal ControlFlowAnalysis.linkInternal
  cases g.tryCreateSuccessorInternal b pc t with
  | mk g₁ new =>
    cases new with
    | some newBlock => exact hpass newBlock g₁
    | none => rfl

theorem result_handleBranch (b pc : Nat) (g : ControlFlowGraph) :
    (handleBranch S pass b pc g).result = ControlFlowAnalysis.handleBranch S recurse b pc g := by
  unfold handleBranch ControlFlowAnalysis.handleBranch
  simp only [result_bind, result_lift]
  congr 1
  funext target?
  congr 1
  funext target
  split
  · exact result_linkInternal hpass b pc _ g
  · rfl

theorem result_linkNext (b pc : Nat) (g : ControlFlowGraph) :
    (linkNext S pass b pc g).result = ControlFlowAnalysis.linkNext S recurse b pc g := by
  unfold linkNext ControlFlowAnalysis.linkNext
  split
  · rfl
  · exact result_linkInternal hpass b pc _ g

theorem result_endUnconditional (b pc : Nat) (g : ControlFlowGraph) :
    (endUnconditional S pass b pc g).result =
      ControlFlowAnalysis.endUnconditional S recurse b pc g := by
  unfold endUnconditional ControlFlowAnalysis.endUnconditional
  rw [result_bind, result_handleBranch hpass]
  congr 1
  funext g₁
  split
  · rw [result_bind, result_linkNext hpass]
    rfl
  · split
    · rfl
    · rfl

theorem result_endConditional (b pc : Nat) (g : ControlFlowGraph) :
    (endConditional S pass b pc g).result =
      ControlFlowAnalysis.endConditional S recurse b pc g := by
  unfold endConditional ControlFlowAnalysis.endConditional
  rw [result_bind, result_handleBranch hpass]
  congr 1
  funext g₁
  split
  · rw [result_bind, result_linkNext hpass]
    congr 1
    funext g₂
    split
    · rfl
    · rfl
  · split
    · rfl
    · rfl

theorem result_endRegister (b pc : Nat) (g : ControlFlowGraph) :
    (endRegister S pass b pc g).result = ControlFlowAnalysis.endRegister S recurse b pc g := by
  unfold endRegister ControlFlowAnalysis.endRegister
  dsimp only
  rw [result_visit_bind]
  split
  · rw [result_bind, result_linkNext hpass]
    congr 1
    funext g₂
    split
    · rfl
    · rfl
  · split
    · rfl
    · split
      · rfl
      · rfl

theorem result_blockLoop (b remaining pc : Nat) (g : ControlFlowGraph) :
    (blockLoop S pass b remaining pc g).result =
      ControlFlowAnalysis.blockLoop S recurse b remaining pc g := by
  induction remaining generalizing pc with
  | zero => rfl
  | succ remaining ih =>
    rw [blockLoop, ControlFlowAnalysis.blockLoop]
    split
    · exact result_endUnconditional hpass b pc g
    · split
      · exact result_endConditional hpass b pc g
      · split
        · exact result_endRegister hpass b pc g
        · cases g.findInternalBlockByPosition (pc + 1) with
          | none => exact ih (pc + 1)
          | some following =>
            dsimp only
            split
            · rfl
            · exact ih (pc + 1)

end

theorem result_functionCFABlock (fuel b : Nat) (g : ControlFlowGraph) :
    (functionCFABlock S fuel b g).result = ControlFlowAnalysis.functionCFABlock S fuel b g := by
  induction fuel generalizing b g with
  | zero => rfl
  | succ fuel ih =>
    rw [functionCFABlock, ControlFlowAnalysis.functionCFABlock, result_bind, result_lift]
    congr 1
    funext block
    exact result_blockLoop ih b _ _ g

/-! ### Operations lead to every graph passed -/

/-- A recursive call is that of the analysis, and passes through graphs that operations lead
to, if the block it is given is internal. -/
structure Follows (pass : Nat → ControlFlowGraph → Pass)
    (recurse : Nat → ControlFlowGraph → Except Error ControlFlowGraph) : Prop where
  result : ∀ b g, (pass b g).result = recurse b g
  takesSteps : TakesSteps recurse
  steps : ∀ b g, g.isInternal b = true → ∀ h ∈ (pass b g).points, Steps g h

section
variable {S} {pass : Nat → ControlFlowGraph → Pass}
  {recurse : Nat → ControlFlowGraph → Except Error ControlFlowGraph}
  {b pc : Nat} {g h : ControlFlowGraph} {x : BasicBlock}

theorem linkInternal_points (hpass : Follows pass recurse) {t : Nat}
    (hh : h ∈ (linkInternal pass b pc t g).points) (hx : g.Internal b x) (hpc : x.start ≤ pc) :
    Steps g h := by
  have hlink := Step.link (t := t) hx hpc
  unfold linkInternal at hh
  cases heq : g.tryCreateSuccessorInternal b pc t with
  | mk g₁ new =>
    rw [heq] at hh hlink
    cases new with
    | some newBlock =>
      rcases mem_points_visit_bind.mp hh with rfl | hrest
      · exact .single hlink
      · exact .head hlink (hpass.steps _ _ (isInternal_of_tryCreate heq) h hrest)
    | none =>
      rw [mem_points_visit.mp hh]
      exact .single hlink

theorem handleBranch_points (hpass : Follows pass recurse)
    (hh : h ∈ (handleBranch S pass b pc g).points) (hx : g.Internal b x) (hpc : x.start ≤ pc) :
    Steps g h := by
  unfold handleBranch at hh
  obtain ⟨target?, _, hh⟩ := mem_points_lift_bind.mp hh
  obtain ⟨target, _, hh⟩ := mem_points_lift_bind.mp hh
  split at hh
  · exact linkInternal_points hpass hh hx hpc
  · rw [mem_points_visit.mp hh]
    exact .single (.outside (by decide) hx hpc)

theorem linkNext_points (hpass : Follows pass recurse) {g₀ : ControlFlowGraph}
    (hsteps : Steps g₀ g) (hh : h ∈ (linkNext S pass b pc g).points) (hx : g₀.Internal b x)
    (hpc : x.start ≤ pc) : Steps g₀ h := by
  obtain ⟨y, hy, hs⟩ := hsteps.keeps.internal hx
  unfold linkNext at hh
  split at hh
  · exact absurd hh (not_mem_points_lift _ _)
  · exact hsteps.trans (linkInternal_points hpass hh hy (by omega))

/-- After the branch: what comes next starts from a graph that operations lead to. -/
theorem handleBranch_bind_points (hpass : Follows pass recurse) {finish : ControlFlowGraph → Pass}
    (hh : h ∈ (handleBranch S pass b pc g >>= finish).points) (hx : g.Internal b x)
    (hpc : x.start ≤ pc) : Steps g h ∨ ∃ g₁, Steps g g₁ ∧ h ∈ (finish g₁).points := by
  rcases mem_points_bind.mp hh with hbranch | ⟨g₁, hg₁, hrest⟩
  · exact .inl (handleBranch_points hpass hbranch hx hpc)
  · rw [result_handleBranch hpass.result] at hg₁
    exact .inr ⟨g₁, handleBranch_steps hpass.takesSteps hg₁ hx hpc, hrest⟩

/-- After the edge to the instruction that follows: at most a flag is set. -/
theorem linkNext_flag_points (hpass : Follows pass recurse) {g₀ : ControlFlowGraph}
    (hsteps : Steps g₀ g) {finish : ControlFlowGraph → Pass}
    (hfinish : ∀ g₁, ∀ h ∈ (finish g₁).points, h = g₁.setFlags b markCall)
    (hh : h ∈ (linkNext S pass b pc g >>= finish).points) (hx : g₀.Internal b x)
    (hpc : x.start ≤ pc) : Steps g₀ h := by
  rcases mem_points_bind.mp hh with hnext | ⟨g₁, hg₁, hflag⟩
  · exact linkNext_points hpass hsteps hnext hx hpc
  · rw [result_linkNext hpass.result] at hg₁
    rw [hfinish g₁ h hflag]
    exact setFlags_steps b (fun _ => ⟨rfl, rfl, rfl⟩)
      (linkNext_steps_of_steps hpass.takesSteps hsteps hg₁ hx hpc)

/-- A flag set on a block at the end, or nothing. -/
theorem points_of_flagIf {c : Prop} [Decidable c] {f : BasicBlock → BasicBlock} (hh : h ∈
    (if c then visit (g.setFlags b f) else pure g : Pass).points) : h = g.setFlags b f := by
  split at hh
  · exact mem_points_visit.mp hh
  · exact absurd hh (not_mem_points_pure _ _)

theorem endUnconditional_points (hpass : Follows pass recurse)
    (hh : h ∈ (endUnconditional S pass b pc g).points) (hx : g.Internal b x) (hpc : x.start ≤ pc) :
    Steps g h := by
  rcases handleBranch_bind_points hpass hh hx hpc with hbranch | ⟨g₁, hsteps, hh⟩
  · exact hbranch
  · split at hh
    · exact linkNext_flag_points hpass hsteps (fun _ _ => mem_points_visit.mp) hh hx hpc
    · rw [points_of_flagIf hh]
      exact setFlags_steps b (fun _ => ⟨rfl, rfl, rfl⟩) hsteps

theorem endConditional_points (hpass : Follows pass recurse)
    (hh : h ∈ (endConditional S pass b pc g).points) (hx : g.Internal b x) (hpc : x.start ≤ pc) :
    Steps g h := by
  rcases handleBranch_bind_points hpass hh hx hpc with hbranch | ⟨g₁, hsteps, hh⟩
  · exact hbranch
  · split at hh
    · exact linkNext_flag_points hpass hsteps (fun _ _ => points_of_flagIf) hh hx hpc
    · rw [points_of_flagIf hh]
      exact setFlags_steps b (fun _ => ⟨rfl, rfl, rfl⟩) hsteps

theorem endRegister_points (hpass : Follows pass recurse)
    (hh : h ∈ (endRegister S pass b pc g).points) (hx : g.Internal b x) (hpc : x.start ≤ pc) :
    Steps g h := by
  have hruntime : Steps g (g.createSuccessorRuntime b pc) := .single (.outside (by decide) hx hpc)
  rcases mem_points_visit_bind.mp hh with rfl | hh
  · exact hruntime
  · split at hh
    · exact linkNext_flag_points hpass hruntime (fun _ _ => points_of_flagIf) hh hx hpc
    · split at hh
      · rw [mem_points_visit.mp hh]
        exact setFlags_steps b (fun _ => ⟨rfl, rfl, rfl⟩) hruntime
      · rw [points_of_flagIf hh]
        exact setFlags_steps b (fun _ => ⟨rfl, rfl, rfl⟩) hruntime

theorem blockLoop_points (hpass : Follows pass recurse) {remaining : Nat}
    (hh : h ∈ (blockLoop S pass b remaining pc g).points) (hx : g.Internal b x)
    (hpc : x.start ≤ pc) : Steps g h := by
  induction remaining generalizing pc with
  | zero => exact absurd hh (not_mem_points_pure _ _)
  | succ remaining ih =>
    rw [blockLoop] at hh
    split at hh
    · exact endUnconditional_points hpass hh hx hpc
    · split at hh
      · exact endConditional_points hpass hh hx hpc
      · split at hh
        · exact endRegister_points hpass hh hx hpc
        · cases hfollow : g.findInternalBlockByPosition (pc + 1) with
          | none =>
            rw [hfollow] at hh
            exact ih hh (by omega)
          | some following =>
            obtain ⟨y, hy, _, ht⟩ := findInternal_some _ hfollow
            rw [hfollow] at hh
            dsimp only at hh
            split at hh
            · rw [mem_points_visit.mp hh]
              exact .single (.fallthrough hx hpc ⟨hy, ht⟩)
            · exact ih hh (by omega)

end

theorem functionCFABlock_follows (fuel : Nat) :
    Follows (functionCFABlock S fuel) (ControlFlowAnalysis.functionCFABlock S fuel) := by
  induction fuel with
  | zero =>
    refine ⟨result_functionCFABlock S 0, functionCFABlock_steps S 0, fun b g _ h hh => ?_⟩
    exact absurd hh (not_mem_points_lift _ _)
  | succ fuel ih =>
    refine ⟨result_functionCFABlock S _, functionCFABlock_steps S _, fun b g hb h hh => ?_⟩
    obtain ⟨x, hx⟩ := (isInternal_iff g b).mp hb
    obtain ⟨block, hblock, hh⟩ := mem_points_lift_bind.mp hh
    have hget := at?_eq_ok.mp hblock
    rw [hx.1, Option.some.injEq] at hget
    rw [← hget] at hh
    exact blockLoop_points ih hh hx (le_refl _)

end Points

/-! ### The whole run -/

/-- The recursion to a depth of `fuel`, if the bytes of the function are found. -/
def locatedPoints (disasm : Ppcdisasm) (loader : ProgramLoader) (func : Symbol) (fuel : Nat)
    (g : ControlFlowGraph) : Pass :=
  match located : loader.getBufferAtLocation func.location with
  | .ok (some buffer) =>
    Points.functionCFABlock ⟨disasm, loader, func, buffer, located⟩ fuel 0 g
  | .ok none => lift (.error .badOptionalAccess)
  | .error e => lift (.error e)

/-- `functionCFA(func)` on an empty graph. -/
def functionCFAPoints (disasm : Ppcdisasm) (loader : ProgramLoader) (func : Symbol) (fuel : Nat) :
    Pass := do
  let _ ← visit (⟨[], []⟩ : ControlFlowGraph)
  let g ← visit ControlFlowGraph.init
  locatedPoints disasm loader func fuel g

theorem locatedPoints_eq (S : Subject) (fuel : Nat) (g : ControlFlowGraph) :
    locatedPoints S.disasm S.loader S.func fuel g = Points.functionCFABlock S fuel 0 g := by
  unfold locatedPoints
  split
  · next buffer hbuffer =>
    have hsame := hbuffer.symm.trans S.located
    simp only [Except.ok.injEq, Option.some.injEq] at hsame
    subst hsame
    rfl
  · next hnone =>
    rw [S.located] at hnone
    cases hnone
  · next e he =>
    rw [S.located] at he
    cases he

/-- **Without the record it is the analysis.** -/
theorem result_functionCFAPoints :
    (functionCFAPoints S.disasm S.loader S.func (S.length + 1)).result = functionCFA S := by
  unfold functionCFAPoints
  rw [result_visit_bind, result_visit_bind, locatedPoints_eq, Points.result_functionCFABlock]
  rfl

/-- The graphs passed through and the one returned. -/
def Passes (run : Pass) (g : ControlFlowGraph) : Prop := g ∈ run.points ∨ run.result = .ok g

theorem steps_of_passes {disasm : Ppcdisasm} {loader : ProgramLoader} {func : Symbol} {fuel : Nat}
    {g : ControlFlowGraph}
    (h : Passes (locatedPoints disasm loader func fuel ControlFlowGraph.init) g) :
    Steps ControlFlowGraph.init g := by
  unfold Passes locatedPoints at h
  split at h
  · next buffer located =>
    let S : Subject := ⟨disasm, loader, func, buffer, located⟩
    have hfollows := Points.functionCFABlock_follows S fuel
    rcases h with hpoint | hresult
    · exact hfollows.steps 0 _ rfl g hpoint
    · exact hfollows.takesSteps 0 _ g (by rw [← hfollows.result]; exact hresult) rfl
  · rcases h with hpoint | hresult
    · exact absurd hpoint (not_mem_points_lift _ _)
    · cases hresult
  · rcases h with hpoint | hresult
    · exact absurd hpoint (not_mem_points_lift _ _)
    · cases hresult

theorem functionCFAPoints_cases {disasm : Ppcdisasm} {loader : ProgramLoader} {func : Symbol}
    {fuel : Nat} {g : ControlFlowGraph} (h : Passes (functionCFAPoints disasm loader func fuel) g) :
    g = ⟨[], []⟩ ∨ Steps ControlFlowGraph.init g := by
  rcases h with hpoint | hresult
  · rcases mem_points_visit_bind.mp hpoint with hempty | hpoint
    · exact .inl hempty
    · right
      rcases mem_points_visit_bind.mp hpoint with rfl | hpoint
      · exact .refl
      · exact steps_of_passes (.inl hpoint)
  · exact .inr (steps_of_passes (.inr hresult))

end ControlFlowAnalysis

/-! ### Transposed tables -/

/-- The table has an entry for each block and no edge in the others, its indices are those of
blocks, each edge is in it as often from one end as from the other, and a block outside
the function has one edge, which leads to it. -/
structure ControlFlowGraph.Transposed (g : ControlFlowGraph) : Prop where
  room : g.blocks.length ≤ g.psTable.length
  valid : ∀ e ∈ g.psTable, ∀ j ∈ e.succ ++ e.pred, j < g.blocks.length
  count : ∀ i < g.blocks.length, ∀ j < g.blocks.length, (g.succ i).count j = (g.pred j).count i
  surplus : ∀ (i : Nat) e, g.blocks.length ≤ i → g.psTable[i]? = some e → e = {}
  outside : ∀ (i : Nat) x, g.blocks[i]? = some x → x.blockType ≠ .INTERNAL →
    (g.pred i).length = 1 ∧ g.succ i = []

namespace ControlFlowGraph
variable {g : ControlFlowGraph}

theorem succ_of_getElem? {i : Nat} {e : PSEntry} (he : g.psTable[i]? = some e) :
    g.succ i = e.succ := by
  rw [succ, List.getD_eq_getElem?_getD, he]
  rfl

theorem pred_of_getElem? {i : Nat} {e : PSEntry} (he : g.psTable[i]? = some e) :
    g.pred i = e.pred := by
  rw [pred, List.getD_eq_getElem?_getD, he]
  rfl

theorem WellFormed.transposed (h : g.WellFormed) : g.Transposed where
  room := h.room
  valid := by
    intro e he j hj
    obtain ⟨i, hi⟩ := List.mem_iff_getElem?.mp he
    rw [← succ_of_getElem? hi, ← pred_of_getElem? hi] at hj
    rcases List.mem_append.mp hj with hj | hj
    · exact h.valid i j hj
    · -- the edge leads from `j`, so `j` is no surplus entry
      by_contra hge
      have hedge : i ∈ g.succ j := by
        rw [← List.count_pos_iff, h.transpose, List.count_pos_iff]
        exact hj
      rw [(h.surplus j (Nat.le_of_not_lt hge)).1] at hedge
      cases hedge
  count i _ j _ := h.transpose i j
  surplus := by
    intro i e hi he
    obtain ⟨hsucc, hpred⟩ := h.surplus i hi
    rw [succ_of_getElem? he] at hsucc
    rw [pred_of_getElem? he] at hpred
    cases e
    dsimp only at hsucc hpred
    rw [hsucc, hpred]
  outside := by
    intro i x hx hout
    obtain ⟨_, hsucc, o, _, hpred⟩ := h.outside i x hx hout
    exact ⟨by rw [hpred]; rfl, hsucc⟩

theorem Transposed.empty : Transposed ⟨[], []⟩ where
  room := le_refl _
  valid e he := by cases he
  count i hi := absurd hi (Nat.not_lt_zero i)
  surplus i e _ he := by cases he
  outside i x hx := by cases hx

end ControlFlowGraph

namespace ControlFlowAnalysis

/-- **At every point of the analysis of any function, from the empty graph on, the tables are
transposes**, however deep the recursion is and also where it fails later. -/
theorem functionCFAPoints_transposed (disasm : Ppcdisasm) (loader : ProgramLoader) (func : Symbol)
    (fuel : Nat) (g : ControlFlowGraph) (h : Passes (functionCFAPoints disasm loader func fuel) g) :
    g.Transposed := by
  rcases functionCFAPoints_cases h with rfl | hsteps
  · exact .empty
  · exact (hsteps.wellFormed .init).transposed

theorem functionCFAPoints_transposed_conditionalReturn : ∃ g,
    functionCFA conditionalReturn = .ok g ∧ g.blocks.length = 4 ∧ g.Transposed :=
  ⟨_, functionCFA_conditionalReturn, rfl,
    functionCFAPoints_transposed conditionalReturn.disasm conditionalReturn.loader
      conditionalReturn.func (conditionalReturn.length + 1) _ (.inr (by
        rw [result_functionCFAPoints]
        exact functionCFA_conditionalReturn))⟩

end ControlFlowAnalysis
end Ppc2cpp
