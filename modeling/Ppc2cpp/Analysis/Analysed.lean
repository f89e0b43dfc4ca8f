import Ppc2cpp.Analysis.NodesMatch

/-! Functions with their analyses. -/
namespace Ppc2cpp
open Matching DataFlowAnalysis ProgramComparator

/-- A function, and a run of the two analyses on it. -/
structure Analysed where
  subject : Subject
  order : HashOrder
  cfg : ControlFlowGraph
  dfg : State
  fuel : Nat
  trace : Nat → State
  steps : Nat
  cfa : ControlFlowAnalysis.functionCFA subject = .ok cfg
  dfa : functionDFA subject order cfg fuel = .ok dfg
  isTrace : Trace subject order cfg trace steps
  result : trace steps = dfg

namespace Analysed

def function (A : Analysed) : Function := A.subject.function A.cfg A.dfg

def side (A : Analysed) : Side := A.subject.side A.cfg A.dfg

theorem wellFormed (A : Analysed) : A.cfg.WellFormed :=
  ControlFlowAnalysis.functionCFA_wellFormed A.subject A.cfa

theorem ordered (A : Analysed) : A.side.heap.Ordered fun _ => True :=
  (functionDFA_ordered A.wellFormed (madeKinds_true A.subject A.cfg) A.dfa).heap

/-- An analysed function, from a check of what the analyses return. -/
theorem exists_of_check (S : Subject) (H : HashOrder) (fuel : Nat)
    {p : ControlFlowGraph → State → Bool}
    (hcheck : returns (ControlFlowAnalysis.functionCFA S) (fun g =>
      returns (functionDFA S H g fuel) (p g)) = true) :
    ∃ A : Analysed, A.subject = S ∧ A.order = H ∧ p A.cfg A.dfg = true := by
  obtain ⟨g, hcfa, hrun⟩ := exists_ok hcheck
  obtain ⟨st, hok, hp⟩ := exists_ok hrun
  obtain ⟨σ, N, h, _, hst, _⟩ := functionDFA_ok_iff.mp hok
  exact ⟨⟨S, H, g, st, fuel, σ, N, hcfa, hok, h, hst⟩, rfl, rfl, hp⟩

/-- Two analysed functions with the verdict `true`. -/
theorem exists_equivalent (S₁ S₂ : Subject) (fuel₁ fuel₂ fuel : Nat)
    {p : ControlFlowGraph → State → ControlFlowGraph → State → Bool}
    (hcheck : returns (ControlFlowAnalysis.functionCFA S₁) (fun g₁ =>
      returns (functionDFA S₁ .ascending g₁ fuel₁) fun st₁ =>
        returns (ControlFlowAnalysis.functionCFA S₂) fun g₂ =>
          returns (functionDFA S₂ .ascending g₂ fuel₂) fun st₂ => p g₁ st₁ g₂ st₂ &&
            returns ((S₁.comparator S₂).compareFunctionFlows fuel (S₁.function g₁ st₁)
              (S₂.function g₂ st₂)) id) = true) :
    ∃ A₁ A₂ : Analysed, A₁.subject = S₁ ∧ A₂.subject = S₂ ∧ p A₁.cfg A₁.dfg A₂.cfg A₂.dfg = true ∧
      (A₁.subject.comparator A₂.subject).compareFunctionFlows fuel A₁.function A₂.function =
        .ok true := by
  obtain ⟨A₁, rfl, _, hrest⟩ := exists_of_check _ _ _ hcheck
  obtain ⟨A₂, rfl, _, h⟩ := exists_of_check _ _ _ hrest
  obtain ⟨hp, hverdict⟩ := Bool.and_eq_true_iff.mp h
  obtain ⟨equal, hequal, htrue⟩ := exists_ok hverdict
  exact ⟨A₁, A₂, rfl, rfl, hp, hequal.trans (congrArg _ htrue)⟩

/-- Two nodes stand at the same place below two sinks that are compared with each
other. -/
def Observed (A₁ A₂ : Analysed) (x₁ x₂ : NodeId) : Prop :=
  ∃ (b i : Nat) (sink₁ sink₂ : NodeId), b < A₁.cfg.blocks.length ∧
    (A₁.dfg.blockSinks b)[i]? = some sink₁ ∧ (A₂.dfg.blockSinks b)[i]? = some sink₂ ∧
    Together A₁.dfg.heap.inputs A₂.dfg.heap.inputs sink₁ sink₂ x₁ x₂

variable {A₁ A₂ : Analysed} {fuel : Nat}

theorem compareFunctionFlows_iff :
    (A₁.subject.comparator A₂.subject).compareFunctionFlows fuel A₁.function A₂.function =
        .ok true ↔
      (A₁.subject.comparator A₂.subject).FlowsMatch fuel A₁.side A₂.side :=
  ProgramComparator.compareFunctionFlows_iff fuel A₁.wellFormed A₂.wellFormed A₁.dfa A₂.dfa

/-- **What two matching functions observe at the same place matches.** -/
theorem Observed.nodesMatch {x₁ x₂ : NodeId} (h : Observed A₁ A₂ x₁ x₂)
    (hflows : (A₁.subject.comparator A₂.subject).FlowsMatch fuel A₁.side A₂.side) :
    (A₁.subject.comparator A₂.subject).NodesMatch fuel A₁.side A₂.side x₁ x₂ := by
  obtain ⟨b, i, sink₁, sink₂, hb, h₁, h₂, htogether⟩ := h
  have hsinks := (hflows.2 b hb).1
  obtain ⟨hlen, hget⟩ := List.forall₂_iff_get.mp hsinks
  obtain ⟨hi₁, rfl⟩ := List.getElem?_eq_some_iff.mp h₁
  obtain ⟨hi₂, rfl⟩ := List.getElem?_eq_some_iff.mp h₂
  exact Match.together (hget i hi₁ hi₂) htogether

end Analysed

end Ppc2cpp
