import Ppc2cpp.ControlFlow.Soundness
import Ppc2cpp.DataFlow.LastVisit

/-! The contexts at termination and the definitions that reach.

The analysis queues the successors of a block when the number of definitions of some
storage element changed. A visit that brings a new instruction to the end of a block
while every number stays what it was leaves the successors as they are (`Strands`). The
contexts are the reaching definitions exactly when every successor left so is visited
again (`functionDFA_reaching_iff`). -/
namespace Ppc2cpp

namespace DataFlowAnalysis
open ControlFlowGraph GenKill

/-- The context of every internal block holds the definitions that reach its end. -/
def ReachingDefinitions (S : Subject) (g : ControlFlowGraph) (st : State) : Prop :=
  ∀ b, g.isInternal b = true → ∀ s d, d ∈ st.definedAt b s ↔ S.ReachesEnd g s d b

/-- How many definitions of a storage element a visit of `b` leaves. -/
def leaves (S : Subject) (g : ControlFlowGraph) (st : State) (b : Nat) (s : Slot) : Nat :=
  match S.blockEffectAt g s b with
  | .pass => ((initBlockContext g st b).definition s).card
  | .kill => 0
  | .gen _ => 1

/-- A visit of `b` in this state brings the instruction `d` to the end of `b` without a
change in the number of definitions of any storage element, and the successor `c`, that
leaves the element alone, has not got `d` and is not waiting. -/
structure Strands (S : Subject) (g : ControlFlowGraph) (st : State) (b c : Nat) (s : Slot)
    (d : Nat) : Prop where
  visited : st.Visits b
  silent : ∀ s, leaves S g st b s = ((st.context b).definition s).card
  passes : S.blockEffectAt g s b = .pass
  incoming : ∃ p ∈ g.pred b, d ∈ st.definedAt p s
  new : d ∉ st.definedAt b s
  successor : c ∈ g.internalSucc b
  other : c ≠ b
  passesOn : S.blockEffectAt g s c = .pass
  lacks : d ∉ st.definedAt c s
  waiting : c ∉ st.worklist.tail

section
variable {S : Subject} {H : HashOrder} {g : ControlFlowGraph} {st st' : State} {b : Nat}
  {result : BlockState}

theorem Visited.card_context (h : Visited S H g st st' b result) (s : Slot) :
    ((st'.context b).definition s).card = leaves S g st b s := by
  have hslot := h.extends_block.slot s
  rw [h.context, if_pos rfl]
  unfold leaves
  cases he : S.blockEffectAt g s b with
  | pass =>
    rw [he] at hslot
    exact congrArg Finset.card (show _ = _ from hslot)
  | kill =>
    rw [he] at hslot
    rw [show _ = _ from hslot]
    rfl
  | gen d =>
    rw [he] at hslot
    obtain ⟨x, hx, _⟩ := hslot
    rw [hx]
    rfl

theorem Visited.silent_iff (h : Visited S H g st st' b result) :
    ¬ FreshFlow.Graph.Changed st.abs st'.abs b ↔
      ∀ s, leaves S g st b s = ((st.context b).definition s).card := by
  unfold FreshFlow.Graph.Changed
  push Not
  exact forall_congr' fun s => by rw [← h.card_context s]; rfl

variable {σ : Nat → State} {N : Nat}

theorem Trace.strands_iff (h : Trace S H g σ N) (hw : g.WellFormed) {n : Nat} (hn : n < N)
    {c : Nat} {s : Slot} {d : Nat} :
    (flowGraph S hw).Strands (fun n => (σ n).abs) n b c s d ↔ Strands S g (σ n) b c s d := by
  obtain ⟨e, result, hvisited⟩ := h.visited hn
  have hstep := hvisited.refines hw
  obtain ⟨rest, hlist, hsame, hchanged⟩ := hstep.queue
  change (σ n).worklist = e :: rest at hlist
  constructor
  · intro hs
    obtain rfl := hstep.block_unique hs.pops
    refine ⟨(h.pops_iff hw hn).mp hs.pops, hvisited.silent_iff.mp hs.silent, hs.passes, hs.incoming,
      hs.new, hs.succ, hs.other, hs.passesOn, hs.lacks, fun hmem => hs.waiting ?_⟩
    rw [hlist] at hmem
    rw [hsame hs.silent]
    exact hmem
  · intro hs
    have hpop := (h.pops_iff hw hn).mpr hs.visited
    obtain rfl := hstep.block_unique hpop
    have hsilent := hvisited.silent_iff.mpr hs.silent
    refine ⟨hpop, hsilent, hs.passes, hs.incoming, hs.new, hs.successor, hs.other, hs.passesOn,
      hs.lacks, fun hmem => hs.waiting ?_⟩
    rw [hsame hsilent] at hmem
    rw [hlist]
    exact hmem

theorem exact_iff_reaching (hw : g.WellFormed) :
    (flowGraph S hw).Exact st.abs ↔ ReachingDefinitions S g st := by
  refine forall_congr' fun b => ?_
  rw [show b ∈ (flowGraph S hw).blocks ↔ g.isInternal b = true from mem_internalBlocks]
  refine imp_congr_right fun _ => forall_congr' fun s => forall_congr' fun d => ?_
  rw [Subject.ReachesEnd, reaches_block_iff hw.startOf_le]
  rfl

/-- **The contexts hold the definitions that reach iff every successor left without a
definition is visited again.** -/
theorem functionDFA_reaching_iff (S : Subject) (H : HashOrder) {g : ControlFlowGraph} {fuel : Nat}
    {st : State} {σ : Nat → State} {N : Nat} (hcfa : ControlFlowAnalysis.functionCFA S = .ok g)
    (hok : functionDFA S H g fuel = .ok st) (h : Trace S H g σ N) (hst : σ N = st) :
    ReachingDefinitions S g st ↔ ∀ n b c s d, n < N → Strands S g (σ n) b c s d →
      ∃ m, n < m ∧ m < N ∧ (σ m).Visits c := by
  have hw := ControlFlowAnalysis.functionCFA_wellFormed S hcfa
  rw [← exact_iff_reaching hw, ← hst, (h.run hw).exact_iff (hst ▸ worklist_of_ok hok)]
  constructor
  · intro hall n b c s d hn hs
    obtain ⟨m, hnm, hm, hpop⟩ := hall n b c s d hn ((h.strands_iff hw hn).mpr hs)
    exact ⟨m, hnm, hm, (h.pops_iff hw hm).mp hpop⟩
  · intro hall n b c s d hn hs
    obtain ⟨m, hnm, hm, hhead⟩ := hall n b c s d hn ((h.strands_iff hw hn).mp hs)
    exact ⟨m, hnm, hm, (h.pops_iff hw hm).mpr hhead⟩

end

/-- One block before a loop of one block. -/
theorem functionDFA_reaching_backEdge : ∃ g st σ N,
    ControlFlowAnalysis.functionCFA backEdge = .ok g ∧
      functionDFA backEdge .ascending g 8 = .ok st ∧ Trace backEdge .ascending g σ N ∧ σ N = st ∧
      (ReachingDefinitions backEdge g st ↔ ∀ n b c s d, n < N → Strands backEdge g (σ n) b c s d →
        ∃ m, n < m ∧ m < N ∧ (σ m).Visits c) := by
  obtain ⟨g, st, σ, N, hcfa, hok, h, hst⟩ := exists_run backEdge .ascending 8 (by decide +kernel)
  exact ⟨g, st, σ, N, hcfa, hok, h, hst, functionDFA_reaching_iff backEdge .ascending hcfa hok h hst⟩

/-- `li r3,1; beq` to 4; `beq` to 5; `li r3,2; beq` to 0; `b` to 6; `blr`. -/
def sameSizes : Subject :=
  assembledSubject [0x38600001, 0x4182000c, 0x4182000c, 0x38600002, 0x4182fff0, 0x48000004,
    0x4e800020] 7 (by decide)

theorem sameSizes_analysable : sameSizes.Analysable :=
  assembledSubject_analysable (by decide) (by decide) (by decide +kernel) (by decide +kernel)

def sameSizesGraph : ControlFlowGraph where
  blocks := [⟨0, 1, .INTERNAL, false, false, false⟩, ⟨4, 4, .INTERNAL, false, false, false⟩,
    ⟨5, 5, .INTERNAL, false, false, false⟩, ⟨6, 6, .INTERNAL, true, false, false⟩,
    ⟨6, 6, .RUNTIME, false, false, false⟩, ⟨2, 2, .INTERNAL, false, false, false⟩,
    ⟨3, 3, .INTERNAL, false, false, false⟩]
  psTable := [⟨[1], [1, 5]⟩, ⟨[0, 6], [0, 2]⟩, ⟨[1, 5], [3]⟩, ⟨[2], [4]⟩, ⟨[3], []⟩, ⟨[0], [2, 6]⟩,
    ⟨[5], [1]⟩, ⟨[], []⟩, ⟨[], []⟩]

theorem functionCFA_sameSizes :
    ControlFlowAnalysis.functionCFA sameSizes = .ok sameSizesGraph := by
  decide +kernel

/-- Both definitions of r3 reach instruction 6 through 5. When the second comes to 5, the
set there has two nodes of the first, one of them stale; the stale one goes, the size
stays, and instruction 6 is not visited again. -/
theorem sameSizes_misses : ¬ ∀ (S : Subject) (H : HashOrder) (g : ControlFlowGraph) (fuel : Nat)
    (st : State), S.Analysable → ControlFlowAnalysis.functionCFA S = .ok g →
      functionDFA S H g fuel = .ok st → ReachingDefinitions S g st := by
  intro h
  obtain ⟨st, hok, hfinal⟩ := exists_ok (x := functionDFA sameSizes .ascending sameSizesGraph 40)
    (p := fun st => decide (∀ x ∈ (st.context 3).definition (.gpr 3), st.heap.index x ≠ 3))
    (by decide +kernel)
  have hreach : sameSizes.ReachesEnd sameSizesGraph (.gpr 3) 3 3 := by
    have hw := ControlFlowAnalysis.functionCFA_wellFormed sameSizes functionCFA_sameSizes
    refine (reaches_block_iff hw.startOf_le).mpr ?_
    have h6 : Reaches sameSizesGraph.Edge (sameSizes.blockEffectAt sameSizesGraph (.gpr 3)) 3 6 :=
      .gen (by decide +kernel)
    have h1 := Reaches.pass (q := 1) (show 6 ∈ sameSizesGraph.pred 1 by decide) (by decide +kernel) h6
    have h2 := Reaches.pass (q := 2) (show 1 ∈ sameSizesGraph.pred 2 by decide) (by decide +kernel) h1
    exact .pass (q := 3) (show 2 ∈ sameSizesGraph.pred 3 by decide) (by decide +kernel) h2
  obtain ⟨x, hx, hsite⟩ := (h sameSizes .ascending sameSizesGraph 40 st sameSizes_analysable
    functionCFA_sameSizes hok 3 (by decide) (.gpr 3) 3).mpr hreach
  exact of_decide_eq_true hfinal x hx hsite

end DataFlowAnalysis

end Ppc2cpp
