import Ppc2cpp.Analysis.Analysed
import Ppc2cpp.ControlFlow.Assembled
import Ppc2cpp.DataFlow.LastVisit

/-! The arguments of calls in the comparison of two functions.

The argument registers are looked at before a call, and no node is made for them: the
sink of a call has the target of the branch as its inputs and nothing more. Two
definitions in an argument register are compared only if a sink depends on them anyway,
at the same place in both functions (`Observed`). Then they agree (`callArguments_agree`). -/
namespace Ppc2cpp
open GenKill Matching DataFlowAnalysis ProgramComparator

namespace Analysed

/-- The definitions of a storage element in front of the call that ends a block, in the
last visit of the block. -/
def BeforeCall (A : Analysed) (b : Nat) (slot : Slot) (d : Definition) : Prop :=
  (∃ x, A.cfg.Internal b x ∧ x.endsInCall = true) ∧
    ∃ n, LastVisit A.trace A.steps n b ∧
      ∃ v : InsnAt A.subject A.order A.cfg (A.trace n) b (A.cfg.stopOf b - A.cfg.startOf b),
        v.before.flowContext.definition slot = d

/-- Two calls that end blocks with the same index have one definition each in the same
argument register. -/
def ArgumentPair (A₁ A₂ : Analysed) (x₁ x₂ : NodeId) : Prop :=
  ∃ b, ∃ loc ∈ callInputs, ∃ slot, loc.slot? = some slot ∧
    A₁.BeforeCall b slot {x₁} ∧ A₂.BeforeCall b slot {x₂}

/-- The comparison of two nodes returns `true`. -/
def ComparedEqual (fuel : Nat) (A₁ A₂ : Analysed) (x₁ x₂ : NodeId) : Prop :=
  ∃ cache, (A₁.subject.comparator A₂.subject).compareVarNodes fuel A₁.side A₂.side
    A₁.dfg.heap.length x₁ x₂ [] = .ok (true, cache)

def ArgumentsAgree (fuel : Nat) (A₁ A₂ : Analysed) : Prop :=
  ∀ x₁ x₂, ArgumentPair A₁ A₂ x₁ x₂ → ComparedEqual fuel A₁ A₂ x₁ x₂

variable {A A₁ A₂ : Analysed} {fuel : Nat}

theorem BeforeCall.lt {b : Nat} {slot : Slot} {x : NodeId} (h : A.BeforeCall b slot {x}) :
    x < A.dfg.heap.length := by
  obtain ⟨_, n, hlast, v, hv⟩ := h
  have hk : A.cfg.startOf b + (A.cfg.stopOf b - A.cfg.startOf b) ≤ A.cfg.stopOf b := by
    have := A.wellFormed.startOf_le b
    omega
  have hdef := A.isTrace.defined_before hlast.lt hlast.visits hk v
    (hv ▸ Finset.mem_singleton_self x)
  rw [A.result] at hdef
  exact hdef.lt

/-- **Of two functions with the verdict `true` those arguments agree that are observed at the
same place.** -/
theorem callArguments_agree (A₁ A₂ : Analysed) (fuel : Nat)
    (hverdict : (A₁.subject.comparator A₂.subject).compareFunctionFlows fuel A₁.function
      A₂.function = .ok true) (x₁ x₂ : NodeId) (hpair : ArgumentPair A₁ A₂ x₁ x₂)
    (hobserved : Observed A₁ A₂ x₁ x₂) : ComparedEqual fuel A₁ A₂ x₁ x₂ := by
  obtain ⟨b, _, _, slot, _, hcall₁, _⟩ := hpair
  have hmatch := hobserved.nodesMatch (compareFunctionFlows_iff.mp hverdict)
  exact (compareVarNodes_iff A₁.ordered hcall₁.lt x₂).mpr hmatch

/-! ### A call with an argument -/

/-- A block ends in a call, and what its instruction at `pc` defines is alone in front of the
call. -/
def definesBeforeCall (S : Subject) (g : ControlFlowGraph) (b : Nat) (slot : Slot) (pc : Nat) :
    Bool :=
  g.isInternal b && (g.block b).endsInCall &&
    decide (prefixEffect g.startOf (S.effectAt g slot) b (g.stopOf b - g.startOf b) = .gen pc)

theorem exists_beforeCall {b pc : Nat} {slot : Slot}
    (h : definesBeforeCall A.subject A.cfg b slot pc = true) :
    ∃ x, A.BeforeCall b slot {x} ∧ A.dfg.heap.defines x = some pc := by
  simp only [definesBeforeCall, Bool.and_eq_true, decide_eq_true_eq] at h
  obtain ⟨⟨hinternal, hends⟩, hgen⟩ := h
  obtain ⟨n, hlast⟩ := (A.isTrace.run A.wellFormed).exists_last
    (A.result ▸ worklist_of_ok A.dfa) (ControlFlowGraph.mem_internalBlocks.mpr hinternal)
  have hlast := (A.isTrace.last_iff A.wellFormed).mp hlast
  have hk : A.cfg.startOf b + (A.cfg.stopOf b - A.cfg.startOf b) ≤ A.cfg.stopOf b := by
    have := A.wellFormed.startOf_le b
    omega
  obtain ⟨v, hpre⟩ := A.isTrace.insnAt hlast.lt hlast.visits hk
  have hslot := v.slot slot
  rw [hgen] at hslot
  obtain ⟨x, hx, hmade, hdefines⟩ := hslot
  refine ⟨x, ⟨?_, n, hlast, v, hx⟩, ?_⟩
  · obtain ⟨block, hblock, htype⟩ := (A.cfg.isInternal_iff b).mp hinternal
    have hsame : A.cfg.block b = block := by
      rw [ControlFlowGraph.block, List.getD_eq_getElem?_getD, hblock, Option.getD_some]
    exact ⟨block, ⟨hblock, htype⟩, hsame ▸ hends⟩
  · have hprefix := A.isTrace.heap_isPrefix (show n + 1 ≤ A.steps from hlast.lt) (le_refl A.steps)
    rw [A.result] at hprefix
    rw [Heap.defines_of_isPrefix ((v.before_isPrefix.trans hpre).trans hprefix) hmade.2, hdefines]

/-- A function of `length` instructions with a symbol `ext` behind it. -/
def callsExt (words : List Word) (length : Nat) (h : Fits words) : Subject :=
  linkedSubject words length h
    ({symbols := [⟨"ext", ⟨⟨0, BitVec.ofNat 32 (4 * length)⟩, 0⟩, 4, .FUNCTION, .GLOBAL⟩]} :
      SymbolTable).constructLocationIndex

/-- The `j`-th input of the `i`-th sink of a block. -/
def sinkInput? (st : State) (b i j : Nat) : Option NodeId :=
  (st.blockSinks b)[i]?.bind fun sink => (st.heap.inputs sink)[j]?

/-- `li r3,1; stw r3,0(r5); bl ext; blr`. -/
def storesArgument : Subject :=
  callsExt [0x38600001, 0x90650000, 0x48000009, 0x4e800020, 0x4e800020] 4 (by decide)

/-- The argument is stored before the call. -/
theorem callArguments_agree_storesArgument : ∃ (A₁ A₂ : Analysed) (x₁ x₂ : NodeId),
    A₁.subject = storesArgument ∧ A₂.subject = storesArgument ∧ ArgumentPair A₁ A₂ x₁ x₂ ∧
      ComparedEqual 1 A₁ A₂ x₁ x₂ := by
  obtain ⟨A₁, A₂, hS₁, hS₂, h, hverdict⟩ := exists_equivalent storesArgument storesArgument 8 8 1
    (p := fun g₁ st₁ g₂ st₂ => definesBeforeCall storesArgument g₁ 0 (.gpr 3) 0 &&
      definesBeforeCall storesArgument g₂ 0 (.gpr 3) 0 && decide (0 < g₁.blocks.length) &&
      decide (∀ x < st₁.heap.length, st₁.heap.defines x = some 0 → sinkInput? st₁ 0 0 1 = some x) &&
      decide (∀ x < st₂.heap.length, st₂.heap.defines x = some 0 → sinkInput? st₂ 0 0 1 = some x))
    (by decide +kernel)
  simp only [Bool.and_eq_true, decide_eq_true_eq] at h
  obtain ⟨⟨⟨⟨hbefore₁, hbefore₂⟩, hblocks⟩, hstored₁⟩, hstored₂⟩ := h
  obtain ⟨x₁, hcall₁, hx₁⟩ := exists_beforeCall (hS₁ ▸ hbefore₁)
  obtain ⟨x₂, hcall₂, hx₂⟩ := exists_beforeCall (hS₂ ▸ hbefore₂)
  obtain ⟨sink₁, hsink₁, hinput₁⟩ := Option.bind_eq_some_iff.mp (hstored₁ x₁ hcall₁.lt hx₁)
  obtain ⟨sink₂, hsink₂, hinput₂⟩ := Option.bind_eq_some_iff.mp (hstored₂ x₂ hcall₂.lt hx₂)
  have hpair : ArgumentPair A₁ A₂ x₁ x₂ :=
    ⟨0, ⟨.GPR, 3⟩, by decide, .gpr 3, by decide, hcall₁, hcall₂⟩
  have hobserved : Observed A₁ A₂ x₁ x₂ :=
    ⟨0, 0, sink₁, sink₂, hblocks, hsink₁, hsink₂, .child .refl hinput₁ hinput₂⟩
  exact ⟨A₁, A₂, x₁, x₂, hS₁, hS₂, hpair,
    callArguments_agree A₁ A₂ 1 hverdict x₁ x₂ hpair hobserved⟩

/-- `li r3,argument; bl ext; blr`. -/
def callWithArgument (argument : Word) : Subject :=
  callsExt [0x38600000 ||| argument, 0x48000009, 0x4e800020, 0x4e800020] 3 ⟨by simp, by simp⟩

/-- `li r3,1; bl ext; blr` and `li r3,2; bl ext; blr`: the sinks are the calls and what
they return, and the verdict is `true`. -/
theorem callArguments_ignored : ¬ ∀ (A₁ A₂ : Analysed) (fuel : Nat),
    A₁.subject.disasm = A₂.subject.disasm →
    (A₁.subject.comparator A₂.subject).compareFunctionFlows fuel A₁.function A₂.function =
      .ok true → ArgumentsAgree fuel A₁ A₂ := by
  intro hall
  obtain ⟨A₁, A₂, hS₁, hS₂, h, hverdict⟩ := exists_equivalent (callWithArgument 1)
    (callWithArgument 2) 8 8 1
    (p := fun g₁ st₁ g₂ st₂ => definesBeforeCall (callWithArgument 1) g₁ 0 (.gpr 3) 0 &&
      definesBeforeCall (callWithArgument 2) g₂ 0 (.gpr 3) 0 &&
      decide (∀ x₁ < st₁.heap.length, st₁.heap.defines x₁ = some 0 →
      ∀ x₂ < st₂.heap.length, st₂.heap.defines x₂ = some 0 →
        returns (((callWithArgument 1).comparator (callWithArgument 2)).compareVarNodes 1
          ((callWithArgument 1).side g₁ st₁) ((callWithArgument 2).side g₂ st₂)
          st₁.heap.length x₁ x₂ []) Prod.fst = false)) (by decide +kernel)
  simp only [Bool.and_eq_true, decide_eq_true_eq] at h
  obtain ⟨⟨hbefore₁, hbefore₂⟩, hdiffer⟩ := h
  obtain ⟨x₁, hcall₁, hx₁⟩ := exists_beforeCall (hS₁ ▸ hbefore₁)
  obtain ⟨x₂, hcall₂, hx₂⟩ := exists_beforeCall (hS₂ ▸ hbefore₂)
  obtain ⟨cache, h⟩ := hall A₁ A₂ 1 (by rw [hS₁, hS₂]; rfl) hverdict x₁ x₂
    ⟨0, ⟨.GPR, 3⟩, by decide, .gpr 3, by decide, hcall₁, hcall₂⟩
  have hfalse := hdiffer x₁ hcall₁.lt hx₁ x₂ hcall₂.lt hx₂
  rw [Analysed.side, Analysed.side, hS₁, hS₂] at h
  rw [h] at hfalse
  cases hfalse

end Analysed

end Ppc2cpp
