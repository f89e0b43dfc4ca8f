import Ppc2cpp.DataFlow.EntryValues
import Ppc2cpp.DataFlow.Termination
import Ppc2cpp.DataFlow.Worklist
import Ppc2cpp.Lib.FreshFlow.Acyclic

/-! Functions without loops.

An edge of the control-flow graph is a way through the code, from the first instruction of
a block to the first of another, so a cycle of blocks is a loop in the code
(`loop_of_cycle`). Where no instruction that control can come to comes before itself the
analysis returns, in whatever order the sets enumerate their elements
(`functionDFA_returns_of_loopless`). -/
namespace Ppc2cpp
open ControlFlowGraph DataFlowAnalysis

/-- No instruction that control can come to comes before itself. -/
def Subject.Loopless (S : Subject) : Prop :=
  ∀ pc, Relation.ReflTransGen S.Next 0 pc → ¬ Relation.TransGen S.Next pc pc

namespace ControlFlowGraph
variable {S : Subject} {g : ControlFlowGraph} {b c i : Nat} {x : BasicBlock}

/-- Control goes from the start of a block to its end. -/
theorem Finished.next_stop (h : Finished S g i x) : Relation.ReflTransGen S.Next x.start x.stop := by
  have hrange := h.range
  have hstep : ∀ k, x.start ≤ k → k ≤ x.stop → Relation.ReflTransGen S.Next x.start k := by
    intro k hk
    induction k, hk using Nat.le_induction with
    | base => exact fun _ => .refl
    | succ k hk ih =>
      intro hstop
      have hplain := h.plain k hk (by omega)
      refine (ih (by omega)).tail (.inr ⟨?_, rfl, by omega⟩)
      simp [Subject.fallsThrough, hplain]
  exact hstep x.stop hrange.1 (le_refl _)

/-- An edge between blocks of the function is a way through the code. -/
theorem next_of_succ (hS : S.Analysable) (hfin : ∀ i x, g.Internal i x → Finished S g i x)
    (hb : g.isInternal b = true) (hc : g.isInternal c = true) (hsucc : c ∈ g.succ b) :
    Relation.TransGen S.Next (g.startOf b) (g.startOf c) := by
  obtain ⟨x, hx⟩ : ∃ x, g.Internal b x := (g.isInternal_iff b).mp hb
  obtain ⟨y, hy⟩ : ∃ y, g.Internal c y := (g.isInternal_iff c).mp hc
  rw [startOf, startOf, hx.block_eq, hy.block_eq]
  have hnext : S.Next x.stop y.start := ((hfin b x hx).successors hS y.start).mp ⟨c, y, hsucc, hy, rfl⟩
  exact Relation.TransGen.tail' (hfin b x hx).next_stop hnext

/-- **Control can come to every block of the function.** -/
theorem next_startOf (hS : S.Analysable) (hw : g.WellFormed)
    (hfin : ∀ i x, g.Internal i x → Finished S g i x) (hb : g.isInternal b = true) :
    Relation.ReflTransGen S.Next 0 (g.startOf b) := by
  have hpath := hw.reachable hb
  induction hpath with
  | refl =>
    obtain ⟨x, hx, hstart⟩ := hw.entry
    rw [startOf, hx.block_eq, hstart]
  | tail _ hedge ih =>
    obtain ⟨hsucc, hc⟩ := mem_internalSucc.mp hedge
    have ha := hw.internal_of_succ hsucc
    exact (ih ha).trans (next_of_succ hS hfin ha hc hsucc).to_reflTransGen

/-- **A cycle of blocks is a loop in the code.** -/
theorem loop_of_cycle (hS : S.Analysable) (hw : g.WellFormed)
    (hfin : ∀ i x, g.Internal i x → Finished S g i x)
    (hcycle : Relation.TransGen (flowGraph S hw).Edge b b) :
    Relation.ReflTransGen S.Next 0 (g.startOf b) ∧
      Relation.TransGen S.Next (g.startOf b) (g.startOf b) := by
  have hinternal : ∀ c d, Relation.TransGen (flowGraph S hw).Edge c d → g.isInternal c = true := by
    intro c d hpath
    induction hpath with
    | single hedge => exact hw.internal_of_pred hedge
    | tail _ _ ih => exact ih
  have hb := hinternal b b hcycle
  -- all but the last block of a way out of the block are blocks of the function
  have hway : ∀ d, Relation.TransGen (flowGraph S hw).Edge b d → g.isInternal d = true →
      Relation.TransGen S.Next (g.startOf b) (g.startOf d) := by
    intro d hpath
    induction hpath with
    | single hedge => exact fun hd => next_of_succ hS hfin hb hd (hw.mem_pred.mp hedge)
    | tail _ hedge ih =>
      intro hd
      have hc := hw.internal_of_pred hedge
      exact (ih hc).trans (next_of_succ hS hfin hc hd (hw.mem_pred.mp hedge))
  exact ⟨next_startOf hS hw hfin hb, hway b hcycle hb⟩

end ControlFlowGraph

/-- **On a function without loops the analysis returns.** -/
theorem functionDFA_returns_of_loopless (S : Subject) (H : HashOrder) {g : ControlFlowGraph}
    (hS : S.Analysable) (hcfa : ControlFlowAnalysis.functionCFA S = .ok g) (hs : S.Supported g)
    (hloops : S.Loopless) : ∃ fuel st, functionDFA S H g fuel = .ok st := by
  have hw := ControlFlowAnalysis.functionCFA_wellFormed S hcfa
  obtain ⟨g', hok, hfin⟩ := ControlFlowAnalysis.functionCFA_finished hS
  obtain rfl := Except.ok.inj (hok.symm.trans hcfa)
  rcases returns_or_runs (H := H) hw hs with hreturns | ⟨σ, h⟩
  · exact hreturns
  · have hnodup : ∀ n, (σ n).abs.worklist.Nodup := fun n =>
      ((h n).worklistRun.disciplined hw (le_refl n)).nodup
    refine (FreshFlow.Graph.not_forever_of_acyclic (fun N => (h N).run hw) hnodup
      fun b hcycle => ?_).elim
    obtain ⟨hcomes, hloop⟩ := loop_of_cycle hS hw hfin hcycle
    exact hloops _ hcomes hloop

/-- Control stays in the function. -/
theorem Subject.Next.lt_length {S : Subject} {i j : Nat} (h : S.Next i j) : j < S.length := by
  rcases h with ⟨_, hlt, _⟩ | ⟨_, _, hlt⟩
  · exact hlt
  · exact hlt

/-- Where every exit inside the function goes forward there are no loops. -/
theorem Subject.Analysable.loopless_of_forward {S : Subject} (hS : S.Analysable)
    (h : ∀ pc < S.length, ∀ e ∈ S.exits pc, e.2 = .INTERNAL → pc < e.1) : S.Loopless := by
  have hless : ∀ i j, i < S.length → Relation.TransGen S.Next i j → i < j := by
    intro i j hi hpath
    induction hpath using Relation.TransGen.head_induction_on with
    | single hnext => exact h _ hi _ ((hS.mem_exits_internal hi).mpr hnext) rfl
    | head hnext _ ih =>
      exact lt_trans (h _ hi _ ((hS.mem_exits_internal hi).mpr hnext) rfl) (ih hnext.lt_length)
  intro pc hcomes hloop
  have hpc : pc < S.length := by
    induction hcomes with
    | refl => exact hS.nonempty
    | tail _ hnext _ => exact hnext.lt_length
  exact lt_irrefl pc (hless pc pc hpc hloop)

/-- The branch of `conditionalDefinition` goes forward. -/
theorem functionDFA_returns_conditionalDefinition : ∃ g,
    ControlFlowAnalysis.functionCFA conditionalDefinition = .ok g ∧
      ∃ fuel st, functionDFA conditionalDefinition .ascending g fuel = .ok st := by
  obtain ⟨g, hcfa, hcheck⟩ := exists_ok (x := ControlFlowAnalysis.functionCFA conditionalDefinition)
    (p := fun g => decide (∀ x ∈ g.blocks, ∀ pc < x.stop + 1, supportedAt conditionalDefinition pc = true))
    (by decide +kernel)
  exact ⟨g, hcfa, functionDFA_returns_of_loopless conditionalDefinition .ascending
    conditionalDefinition_analysable hcfa (supported_of_check (of_decide_eq_true hcheck))
    (conditionalDefinition_analysable.loopless_of_forward (by decide +kernel))⟩

end Ppc2cpp
