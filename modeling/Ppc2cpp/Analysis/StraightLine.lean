import Ppc2cpp.Analysis.Analysed
import Ppc2cpp.Analysis.NodeValues

/-! The analyses on straight-line code.

A function without a branch before its final `blr` is one block, which is visited once,
from an empty context and with no nodes made before. So the analysis goes along with one
execution of the function (`Analysed.straightLine`). -/
namespace Ppc2cpp
open ControlFlowGraph

/-- One basic block ended by an unconditional `blr`. -/
structure Subject.StraightLine (S : Subject) : Prop where
  nonempty : 0 < S.length
  plain : ∀ pc, pc + 1 < S.length → isBranch (S.insn pc) = false
  blr : isBranchToLR (S.insn (S.length - 1)) = true
  unconditional : isBranchConditionUnconditional (S.insn (S.length - 1)) = true
  unlinked : isLink (S.insn (S.length - 1)) = false

/-- The instructions up to `last` as one block. -/
def straightGraph (last : Nat) : ControlFlowGraph where
  blocks := [⟨0, last, .INTERNAL, true, false, false⟩, ⟨last, last, .RUNTIME, false, false, false⟩]
  psTable := [⟨[], [1]⟩, ⟨[0], []⟩]

namespace ControlFlowAnalysis
variable {S : Subject}

/-- The scan passes over everything before the `blr`. -/
theorem blockLoop_straightLine (h : S.StraightLine)
    (recurse : Nat → ControlFlowGraph → Except Error ControlFlowGraph) {remaining pc : Nat}
    (hrem : pc + remaining = S.length) (hpc : pc < S.length) :
    blockLoop S recurse 0 remaining pc ControlFlowGraph.init =
      .ok (straightGraph (S.length - 1)) := by
  induction remaining generalizing pc with
  | zero => omega
  | succ remaining ih =>
    rw [blockLoop]
    by_cases hlast : pc + 1 < S.length
    · obtain ⟨hu, hc, hlr, hctr⟩ := not_isBranch (h.plain pc hlast)
      have hfind : ControlFlowGraph.init.findInternalBlockByPosition (pc + 1) = none := by
        simp [findInternalBlockByPosition, findBlockByPosition, ControlFlowGraph.init]
      rw [hfind]
      simp only [hu, hc, hlr, hctr, Bool.or_false, Bool.false_eq_true, if_false]
      exact ih (by omega) hlast
    · obtain rfl : pc = S.length - 1 := by omega
      have hbranch : isBranch (S.insn (S.length - 1)) = true :=
        (isBranch_iff _).mpr (.inr (.inr (.inl h.blr)))
      have hop : OP (S.insn (S.length - 1)) = 19 := by
        have := h.blr
        simp only [isBranchToLR, Bool.and_eq_true, beq_iff_eq] at this
        exact this.1
      have hu : isBranchUncoditional (S.insn (S.length - 1)) = false := by
        simp [isBranchUncoditional, hop]
      have hc : isBranchConditional (S.insn (S.length - 1)) = false := by
        simp [isBranchConditional, hop]
      simp only [hu, hc, h.blr, Bool.true_or, Bool.false_eq_true, if_false, if_true]
      rw [endRegister]
      simp only [h.unlinked, h.unconditional, h.blr, Bool.not_true, Bool.or_false,
        Bool.false_eq_true, if_false, if_true]
      rfl

theorem functionCFA_straightLine (h : S.StraightLine) :
    functionCFA S = .ok (straightGraph (S.length - 1)) :=
  blockLoop_straightLine h _ (Nat.zero_add _) h.nonempty

end ControlFlowAnalysis

namespace DataFlowAnalysis
variable {S : Subject} {H : HashOrder} {last : Nat}

/-- The block of a function that is one block. -/
def straightBlock (last : Nat) : BasicBlock := ⟨0, last, .INTERNAL, true, false, false⟩

/-- The state after the visit of the one block. -/
def straightState (result : BlockState) : State where
  heap := result.heap
  blockContexts := [result.flowContext, {}]
  sinks := [result.blockSinks, []]
  worklist := []

theorem step_straightLine (S : Subject) (H : HashOrder) (last : Nat) :
    step S H (straightGraph last) (initialState (straightGraph last) [0]) =
      (processBlock S H (straightBlock last) [] {}).map straightState := by
  have hblock : processBlock S H (straightBlock last) [] (initBlockContext (straightGraph last)
      (initialState (straightGraph last) [0]) 0) = processBlock S H (straightBlock last) [] {} := rfl
  change (processBlock S H (straightBlock last) [] _ >>= _) = _
  rw [hblock]
  cases processBlock S H (straightBlock last) [] {} with
  | error => rfl
  | ok result =>
    have hqueue : queueSuccessors (straightGraph last) ((straightGraph last).succ 0) [] = [] := rfl
    change Except.ok _ = Except.ok _
    simp only [hqueue, ite_self]
    rfl

/-- **The analysis of one block is one visit.** -/
theorem functionDFA_straightLine {fuel : Nat} {st : State} :
    functionDFA S H (straightGraph last) fuel = .ok st ↔
      0 < fuel ∧ ∃ result, processBlock S H (straightBlock last) [] {} = .ok result ∧
        st = straightState result := by
  have hinit : initWorklist (straightGraph last) = .ok [0] := rfl
  have hdone : ∀ (fuel : Nat) result,
      functionDFAImpl S H (straightGraph last) fuel (straightState result) =
        .ok (straightState result) := by
    intro fuel result
    rw [functionDFAImpl.eq_def]
    exact if_pos rfl
  have hbegin : (initialState (straightGraph last) [0]).worklist ≠ [] := List.cons_ne_nil 0 []
  rw [functionDFA, hinit]
  change functionDFAImpl S H (straightGraph last) fuel _ = _ ↔ _
  cases fuel with
  | zero =>
    rw [functionDFAImpl, if_neg hbegin]
    exact iff_of_false (by simp) fun h => absurd h.1 (lt_irrefl 0)
  | succ fuel =>
    rw [functionDFAImpl, if_neg hbegin]
    simp only [step_straightLine]
    cases processBlock S H (straightBlock last) [] {} with
    | error => simp [Except.map, bind, Except.bind]
    | ok result =>
      change functionDFAImpl S H (straightGraph last) fuel (straightState result) = _ ↔ _
      rw [hdone]
      simp [eq_comm]

end DataFlowAnalysis

/-! ### The analysis along an execution -/

namespace Analysed
open DataFlowAnalysis
variable {Value Memory : Type} {A : Analysed}

theorem cfg_straightLine (h : A.subject.StraightLine) :
    A.cfg = straightGraph (A.subject.length - 1) :=
  Except.ok.inj (A.cfa.symm.trans (ControlFlowAnalysis.functionCFA_straightLine h))

/-- The one visit: all instructions, and then the return values. -/
theorem visit_straightLine (h : A.subject.StraightLine) :
    ∃ mid result, processInsns A.subject A.order false A.subject.length 0 ⟨[], {}, []⟩ = .ok mid ∧
      returnSinks A.subject A.order (A.subject.length - 1) mid = .ok result ∧
      A.dfg = straightState result := by
  have hok := A.dfa
  rw [cfg_straightLine h] at hok
  obtain ⟨_, result, hvisit, hst⟩ := functionDFA_straightLine.mp hok
  obtain ⟨mid, hmid, hrest⟩ := processBlock_eq_ok.mp hvisit
  have hcount : A.subject.length - 1 + 1 - 0 = A.subject.length := by
    have := h.nonempty
    omega
  rcases hrest with ⟨_, hreturns⟩ | ⟨hexit, _⟩
  · exact ⟨mid, result, hcount ▸ hmid, hreturns, hst⟩
  · cases hexit

/-- **The analysed function executes, and its sinks are the events and then the return
values.** -/
theorem straightLine (h : A.subject.StraightLine) (I : Interpretation Value Memory)
    (m₀ : Machine Value Memory) :
    ∃ mid result m events, I.exec A.subject A.subject.length m₀ = .ok (m, events) ∧
      Simulates I A.subject m₀ mid m events ∧
      returnSinks A.subject A.order (A.subject.length - 1) mid = .ok result ∧
      A.dfg = straightState result := by
  obtain ⟨mid, result, hmid, hreturns, hst⟩ := visit_straightLine h
  obtain ⟨m, events, hexec, hsim⟩ := processInsns_simulates hmid
  exact ⟨mid, result, m, events, hexec, hsim, hreturns, hst⟩

theorem sinks_straightLine (h : A.subject.StraightLine) (I : Interpretation Value Memory)
    (m₀ : Machine Value Memory) :
    ∃ m events sinks rest, I.exec A.subject A.subject.length m₀ = .ok (m, events) ∧
      A.dfg.blockSinks 0 = sinks ++ rest ∧
      List.Forall₂ (SinkOf I A.subject m₀ A.dfg.heap) sinks events := by
  obtain ⟨mid, result, m, events, hexec, hsim, hreturns, hst⟩ := straightLine h I m₀
  obtain ⟨rest, hrest, _⟩ := (aside_returnSinks hreturns).sinks
  refine ⟨m, events, mid.blockSinks, rest, hexec, ?_, ?_⟩
  · rw [hst]
    exact hrest
  · rw [hst]
    exact hsim.sinks.imp fun _ _ => SinkOf.mono (aside_returnSinks hreturns).heap_isPrefix

end Analysed

end Ppc2cpp
