import Ppc2cpp.ControlFlow.Soundness
import Ppc2cpp.DataFlow.LastVisit

/-! The final graph and the definitions that reach.

A visit builds the nodes of its instructions out of what the predecessors hold at that
time. A later visit of the block makes new nodes, but other blocks, and the new nodes
themselves, can keep those of the earlier visit among their inputs. Nothing wrong ever
comes in, so a node is adequate iff it was not built too early (`Early`): every
definition that reaches its instruction had come to the block by then. -/
namespace Ppc2cpp

namespace DataFlowAnalysis
open ControlFlowGraph GenKill

/-- A final sink depends on the node, directly or through other nodes. -/
inductive DependedOn (st : State) : NodeId → Prop where
  | sink {b : Nat} {x : NodeId} : x ∈ st.blockSinks b → DependedOn st x
  | input {x y : NodeId} : DependedOn st x → y ∈ st.heap.inputs x → DependedOn st y

/-- Visit `n`, of the block `b`, built the node for the instruction `k` places into `b`. -/
structure MadeFor (g : ControlFlowGraph) (σ : Nat → State) (n b k : Nat) (x : NodeId) : Prop where
  visits : (σ n).Visits b
  within : g.startOf b + k ≤ g.stopOf b
  new : (σ n).heap.length ≤ x
  kind : ((σ (n + 1)).heap.kind? x).bind NodeKind.builtFor = some (g.startOf b + k)

/-- The instructions of the definitions a node stands for: its own, or those of the inputs
of a phi. -/
def feeding (heap : Heap) (x : NodeId) : Set Nat :=
  match heap[x]? with
  | some ⟨.phi _ _, opVars⟩ => {d | ∃ y ∈ opVars, heap.index y = d}
  | some ⟨.functionInput _ _, _⟩ => ∅
  | some node => {node.kind.index}
  | none => ∅

/-- Every node that a final sink depends on and that was built for an instruction has, for
each register the instruction reads, the definitions that reach the instruction. -/
def Adequate (S : Subject) (g : ControlFlowGraph) (σ : Nat → State) (N : Nat) : Prop :=
  ∀ n b k x, n < N → MadeFor g σ n b k x → DependedOn (σ N) x →
    ∀ opcode insnUD, S.decode (g.startOf b + k) = .ok (opcode, insnUD) →
      ∀ (j : Nat) (loc : CpuMemoryLocation) (slot : Slot), insnUD.inputs[j]? = some loc →
        loc.slot? = some slot →
        ∃ y, ((σ N).heap.inputs x)[operandBase insnUD + j]? = some y ∧
          ∀ d, d ∈ feeding (σ N).heap y ↔ S.ReachesInsn g slot d b (g.startOf b + k)

/-- In a visit of `b` in this state the instruction `k` places into it comes too early: it
reads a register that nothing before it in the block touches, and a definition that
reaches it has not come to a predecessor yet. -/
def Early (S : Subject) (g : ControlFlowGraph) (st : State) (b k : Nat) : Prop :=
  ∃ opcode insnUD, S.decode (g.startOf b + k) = .ok (opcode, insnUD) ∧
    ∃ loc ∈ insnUD.inputs, ∃ slot, loc.slot? = some slot ∧
      prefixEffect g.startOf (S.effectAt g slot) b k = .pass ∧
      ∃ d, S.ReachesInsn g slot d b (g.startOf b + k) ∧ ∀ p ∈ g.pred b, d ∉ st.definedAt p slot

section
variable {S : Subject} {H : HashOrder} {g : ControlFlowGraph} {σ : Nat → State} {N n b k : Nat}

theorem feeding_of_definition {heap : Heap} {x : NodeId} {d : Nat} (h : heap.defines x = some d) :
    feeding heap x = {d} := by
  have hindex := Heap.index_of_defines h
  unfold Heap.defines Heap.kind? at h
  unfold Heap.index at hindex
  unfold feeding
  cases hx : heap[x]? with
  | none => simp [hx] at h
  | some node =>
    obtain ⟨kind, inputs⟩ := node
    simp only [hx, Option.map_some, Option.bind_some, Option.getD_some] at h hindex
    cases kind with
    | result i j l => rw [← hindex]
    | callReturn i l => rw [← hindex]
    | _ => cases h

/-- What the node of a register stands for. -/
theorem Stands.feeding_eq {heap : Heap} {d : Definition} {pc : Nat} {loc : CpuMemoryLocation}
    {x : NodeId} (h : Stands heap d pc loc x) (hd : ∀ y ∈ d, heap.IsDefinition y) (e : Nat) :
    e ∈ feeding heap x ↔ ∃ y ∈ d, heap.index y = e := by
  cases h with
  | functionInput hempty hx => simp [feeding, hx, hempty]
  | definition hsingle =>
    obtain ⟨i, hi⟩ := hd x (by rw [hsingle]; exact Finset.mem_singleton_self x)
    rw [feeding_of_definition hi, hsingle, ← Heap.index_of_defines hi]
    simp [eq_comm]
  | phi opVars _ hx hmem => simp [feeding, hx, hmem]

/-- Every node that belongs to an instruction was built for it in some visit. -/
theorem Trace.exists_madeFor (h : Trace S H g σ N) {x : NodeId} {pc : Nat}
    (hx : ((σ N).heap.kind? x).bind NodeKind.builtFor = some pc) :
    ∃ n b k, n < N ∧ MadeFor g σ n b k x ∧ g.startOf b + k = pc := by
  have hstep : ∀ n ≤ N, ((σ n).heap.kind? x).bind NodeKind.builtFor = some pc →
      ∃ m b k, m < n ∧ MadeFor g σ m b k x ∧ g.startOf b + k = pc := by
    intro n
    induction n with
    | zero =>
      intro _ hx
      obtain ⟨worklist, _, hinit⟩ := h.initial
      simp [hinit, initialState, Heap.kind?] at hx
    | succ n ih =>
      intro hn hx
      obtain ⟨b, result, hvisited⟩ := h.visited hn
      rcases Nat.lt_or_ge x (σ n).heap.length with hold | hnew
      · rw [Heap.kind?, Heap.getElem?_of_isPrefix hvisited.heap_isPrefix hold] at hx
        obtain ⟨m, c, k, hm, hmade⟩ := ih (by omega) hx
        exact ⟨m, c, k, by omega, hmade⟩
      · have hx' := hx
        rw [hvisited.heap, Heap.kind?] at hx'
        cases hnode : result.heap[x]? with
        | none => simp [hnode] at hx'
        | some node =>
          simp only [hnode, Option.map_some, Option.bind_some] at hx'
          obtain ⟨k, rfl, hle, _⟩ := processBlock_node hvisited.visit hnew hnode hx'
          exact ⟨n, b, k, Nat.lt_succ_self n, ⟨hvisited.visits, hle, hnew, hx⟩, rfl⟩
  exact hstep N (le_refl N) hx

/-- The inputs of a node are those built in the visit that made it. -/
theorem Trace.inputs_of_madeFor (h : Trace S H g σ N) {x : NodeId} (hn : n < N)
    (hmade : MadeFor g σ n b k x) :
    ∃ v : InsnAt S H g (σ n) b k, (σ N).heap.inputs x = v.insnInputs := by
  obtain ⟨result, hvisited⟩ := h.visited_of_visits hn hmade.visits
  have hkind := hmade.kind
  rw [hvisited.heap, Heap.kind?] at hkind
  cases hnode : result.heap[x]? with
  | none => simp [hnode] at hkind
  | some node =>
    simp only [hnode, Option.map_some, Option.bind_some] at hkind
    obtain ⟨k', hk', _, v, hv⟩ := processBlock_node hvisited.visit hmade.new hnode hkind
    obtain rfl : k = k' := Nat.add_left_cancel hk'
    have hlt : x < (σ (n + 1)).heap.length := by
      rw [hvisited.heap]
      exact (List.getElem?_eq_some_iff.mp hnode).1
    refine ⟨v, ?_⟩
    rw [Heap.inputs, Heap.getElem?_of_isPrefix (h.heap_isPrefix (show n + 1 ≤ N by omega) (le_refl N)) hlt,
      hvisited.heap, hnode]
    exact hv

/-- The definitions in front of an instruction of a visit, by their instructions. -/
theorem Trace.sites_before (h : Trace S H g σ N) (hn : n < N) (hv : (σ n).Visits b)
    (hk : g.startOf b + k ≤ g.stopOf b) (v : InsnAt S H g (σ n) b k) (slot : Slot) (d : Nat) :
    (∃ y ∈ v.before.flowContext.definition slot, (σ N).heap.index y = d) ↔
      prefixEffect g.startOf (S.effectAt g slot) b k = .gen d ∨
        (prefixEffect g.startOf (S.effectAt g slot) b k = .pass ∧
          ∃ p ∈ g.pred b, d ∈ (σ n).definedAt p slot) := by
  have hslot := v.slot slot
  obtain ⟨w, hpre⟩ := h.insnAt hn hv hk
  obtain rfl := v.unique w
  have hfinal : v.before.heap <+: (σ N).heap :=
    (v.before_isPrefix.trans hpre).trans (h.heap_isPrefix (show n + 1 ≤ N by omega) (le_refl N))
  cases he : prefixEffect g.startOf (S.effectAt g slot) b k with
  | pass =>
    rw [he] at hslot
    rw [show _ = _ from hslot]
    have hindex : ∀ p y, y ∈ ((σ n).context p).definition slot →
        (σ N).heap.index y = (σ n).heap.index y := fun p y hy =>
      Heap.index_of_isPrefix (h.heap_isPrefix (show n ≤ N by omega) (le_refl N))
        (h.defined (show n ≤ N by omega) slot hy).lt
    simp only [reduceCtorEq, false_or, true_and, State.definedAt, Set.mem_ofPred_eq]
    constructor
    · rintro ⟨y, hy, rfl⟩
      obtain ⟨p, hp, hmem⟩ := mem_initBlockContext.mp hy
      exact ⟨p, hp, y, hmem, (hindex p y hmem).symm⟩
    · rintro ⟨p, hp, y, hmem, rfl⟩
      exact ⟨y, mem_initBlockContext.mpr ⟨p, hp, hmem⟩, hindex p y hmem⟩
  | kill =>
    rw [he] at hslot
    rw [show _ = _ from hslot]
    simp
  | gen e =>
    rw [he] at hslot
    obtain ⟨x, hx, hmade, hd⟩ := hslot
    have hindex : (σ N).heap.index x = e := by
      rw [Heap.index_of_isPrefix hfinal hmade.2, Heap.index_of_defines hd]
    simp [hx, hindex]

/-- **Nothing wrong comes in, so what is missing in front of an instruction is what came
too late.** -/
theorem Trace.sites_iff_reaches (h : Trace S H g σ N) (hw : g.WellFormed) (hn : n < N)
    (hv : (σ n).Visits b) (hk : g.startOf b + k ≤ g.stopOf b) (v : InsnAt S H g (σ n) b k)
    (slot : Slot) :
    (∀ d, (∃ y ∈ v.before.flowContext.definition slot, (σ N).heap.index y = d) ↔
        S.ReachesInsn g slot d b (g.startOf b + k)) ↔
      ¬ (prefixEffect g.startOf (S.effectAt g slot) b k = .pass ∧
        ∃ d, S.ReachesInsn g slot d b (g.startOf b + k) ∧
          ∀ p ∈ g.pred b, d ∉ (σ n).definedAt p slot) := by
  have hreach : ∀ d, S.ReachesInsn g slot d b (g.startOf b + k) ↔
      prefixEffect g.startOf (S.effectAt g slot) b k = .gen d ∨
        (prefixEffect g.startOf (S.effectAt g slot) b k = .pass ∧
          ∃ p ∈ g.pred b, S.ReachesEnd g slot d p) := by
    intro d
    exact reachesBefore_point hk
  have hsound : ∀ d, ∀ p, d ∈ (σ n).definedAt p slot → S.ReachesEnd g slot d p := by
    intro d p hd
    exact (reaches_block_iff hw.startOf_le).mpr
      (((h.run hw).inv (show n ≤ N by omega)).sound p slot d hd)
  simp only [h.sites_before hn hv hk v slot]
  constructor
  · rintro hall ⟨hpass, d, hd, hlate⟩
    rcases (hall d).mpr hd with hgen | ⟨_, p, hp, hmem⟩
    · rw [hpass] at hgen
      cases hgen
    · exact hlate p hp hmem
  · intro hnot d
    rw [hreach]
    refine or_congr_right (and_congr_right fun hpass => ⟨?_, ?_⟩)
    · rintro ⟨p, hp, hd⟩
      exact ⟨p, hp, hsound d p hd⟩
    · intro hcomes
      by_contra hlate
      push Not at hlate
      exact hnot ⟨hpass, d, (hreach d).mpr (.inr ⟨hpass, hcomes⟩), hlate⟩

theorem Trace.adequate_iff (h : Trace S H g σ N) (hw : g.WellFormed) : Adequate S g σ N ↔
    ∀ n b k x, n < N → MadeFor g σ n b k x → DependedOn (σ N) x → ¬ Early S g (σ n) b k := by
  refine forall_congr' fun n => forall_congr' fun b => forall_congr' fun k => forall_congr' fun x =>
    imp_congr_right fun hn => imp_congr_right fun hmade => imp_congr_right fun _ => ?_
  obtain ⟨v, hinputs⟩ := h.inputs_of_madeFor hn hmade
  have hoperand : ∀ (j : Nat) (loc : CpuMemoryLocation) (slot : Slot),
      v.insnUD.inputs[j]? = some loc → loc.slot? = some slot →
      ((∃ y, ((σ N).heap.inputs x)[operandBase v.insnUD + j]? = some y ∧
          ∀ d, d ∈ feeding (σ N).heap y ↔ S.ReachesInsn g slot d b (g.startOf b + k)) ↔
        ¬ (prefixEffect g.startOf (S.effectAt g slot) b k = .pass ∧
          ∃ d, S.ReachesInsn g slot d b (g.startOf b + k) ∧
            ∀ p ∈ g.pred b, d ∉ (σ n).definedAt p slot)) := by
    intro j loc slot hj hslot
    obtain ⟨slot', y, hslot', hy, hstands⟩ := h.operand hn hmade.visits hmade.within v hj
    obtain rfl := Option.some.inj (hslot.symm.trans hslot')
    have hfeeding := hstands.feeding_eq fun z hz =>
      h.defined_before hn hmade.visits hmade.within v hz
    rw [← h.sites_iff_reaches hw hn hmade.visits hmade.within v slot, hinputs]
    simp only [hy, Option.some.injEq, exists_eq_left', hfeeding]
  constructor
  · rintro hall ⟨opcode, insnUD, hdecode, loc, hloc, slot, hslot, hpass, hlate⟩
    obtain ⟨_, rfl⟩ := Prod.mk.inj (Except.ok.inj (hdecode.symm.trans v.decoded))
    obtain ⟨j, hj⟩ := List.mem_iff_getElem?.mp hloc
    exact (hoperand j loc slot hj hslot).mp (hall _ _ hdecode j loc slot hj hslot) ⟨hpass, hlate⟩
  · intro hearly opcode insnUD hdecode j loc slot hj hslot
    obtain ⟨_, rfl⟩ := Prod.mk.inj (Except.ok.inj (hdecode.symm.trans v.decoded))
    refine (hoperand j loc slot hj hslot).mpr fun hlate => hearly ?_
    exact ⟨_, _, hdecode, loc, List.mem_of_getElem? hj, slot, hslot, hlate⟩

/-- **The graph is adequate iff no sink depends on a node that was built too early**, and
so it is in every run without a visit that comes too early. This holds after any number
of visits, and so of the graph the analysis returns. -/
theorem functionDFA_adequate_iff (S : Subject) (H : HashOrder) {g : ControlFlowGraph}
    {σ : Nat → State} {N : Nat} (hcfa : ControlFlowAnalysis.functionCFA S = .ok g)
    (h : Trace S H g σ N) :
    (Adequate S g σ N ↔ ∀ n b k x, n < N → MadeFor g σ n b k x → DependedOn (σ N) x →
        ¬ Early S g (σ n) b k) ∧
      ((∀ n b k, n < N → (σ n).Visits b → g.startOf b + k ≤ g.stopOf b → ¬ Early S g (σ n) b k) →
        Adequate S g σ N) := by
  have hiff := h.adequate_iff (ControlFlowAnalysis.functionCFA_wellFormed S hcfa)
  refine ⟨hiff, fun hnone => hiff.mpr fun n b k x hn hmade _ => ?_⟩
  exact hnone n b k hn hmade.visits hmade.within

end

theorem functionDFA_adequate_backEdge : ∃ g st σ N,
    ControlFlowAnalysis.functionCFA backEdge = .ok g ∧
      functionDFA backEdge .ascending g 8 = .ok st ∧ Trace backEdge .ascending g σ N ∧ σ N = st ∧
      (Adequate backEdge g σ N ↔ ∀ n b k x, n < N → MadeFor g σ n b k x →
        DependedOn (σ N) x → ¬ Early backEdge g (σ n) b k) := by
  obtain ⟨g, st, σ, N, hcfa, hok, h, hst⟩ := exists_run backEdge .ascending 8 (by decide +kernel)
  exact ⟨g, st, σ, N, hcfa, hok, h, hst, (functionDFA_adequate_iff backEdge .ascending hcfa h).1⟩

/-- `addi r3,r3,1; beq` to 0; `blr`. -/
def countLoop : Subject := assembledSubject [0x38630001, 0x4182fffc, 0x4e800020] 3 (by decide)

theorem countLoop_analysable : countLoop.Analysable :=
  assembledSubject_analysable (by decide) (by decide) (by decide +kernel) (by decide +kernel)

def countLoopGraph : ControlFlowGraph where
  blocks := [⟨0, 1, .INTERNAL, false, false, false⟩, ⟨2, 2, .INTERNAL, true, false, false⟩,
    ⟨2, 2, .RUNTIME, false, false, false⟩]
  psTable := [⟨[0], [0, 1]⟩, ⟨[0], [2]⟩, ⟨[1], []⟩, ⟨[], []⟩]

theorem functionCFA_countLoop :
    ControlFlowAnalysis.functionCFA countLoop = .ok countLoopGraph := by
  decide +kernel

/-- The addition of the first visit has only seen the value at the entry. The addition of
the second visit is made from it, and the return value from that. -/
theorem countLoop_stale : ¬ ∀ (S : Subject) (H : HashOrder) (g : ControlFlowGraph) (fuel : Nat)
    (st : State) (σ : Nat → State) (N : Nat), S.Analysable →
      ControlFlowAnalysis.functionCFA S = .ok g → functionDFA S H g fuel = .ok st →
      Trace S H g σ N → σ N = st → Adequate S g σ N := by
  intro hall
  have hw := ControlFlowAnalysis.functionCFA_wellFormed countLoop functionCFA_countLoop
  obtain ⟨st, hok, hfinal⟩ := exists_ok (x := functionDFA countLoop .ascending countLoopGraph 8)
    (p := fun st => decide (∃ x ∈ st.blockSinks 1, ∃ y ∈ st.heap.inputs x, 2 ∈ st.heap.inputs y))
    (by decide +kernel)
  obtain ⟨σ, N, h, _, hst, hend⟩ := functionDFA_ok_iff.mp hok
  obtain ⟨x, hx, y, hy, hxy⟩ := of_decide_eq_true hfinal
  -- the first visit
  obtain ⟨worklist, hinit, hzero⟩ := h.initial
  have hworklist : initWorklist countLoopGraph = .ok [0, 1] := by decide +kernel
  obtain rfl := Except.ok.inj (hworklist.symm.trans hinit)
  have hpos : 0 < N := by
    by_contra hnone
    obtain rfl : N = 0 := by omega
    rw [← hst, hzero] at hend
    cases hend
  obtain ⟨st₁, hstep, hkind⟩ := exists_ok
    (x := step countLoop .ascending countLoopGraph (initialState countLoopGraph [0, 1]))
    (p := fun st => decide ((st.heap.kind? 2).bind NodeKind.builtFor = some 0)) (by decide +kernel)
  have hone := (h.step 0 hpos).2
  rw [hzero, hstep] at hone
  have hmade : MadeFor countLoopGraph σ 0 0 0 2 := by
    refine ⟨?_, by decide, ?_, ?_⟩
    · rw [hzero]
      rfl
    · rw [hzero]
      exact Nat.zero_le 2
    · rw [← Except.ok.inj hone]
      exact of_decide_eq_true hkind
  have hadequate := hall _ _ countLoopGraph 8 st σ N countLoop_analysable functionCFA_countLoop hok h
    hst
  refine (h.adequate_iff hw).mp hadequate 0 0 0 2 hpos hmade ?_ ?_
  · rw [hst]
    exact .input (.input (.sink hx) hy) hxy
  · obtain ⟨ud, hdecode, hinput⟩ := exists_ok (x := countLoop.decode 0)
      (p := fun ud => decide (⟨.GPR, 3⟩ ∈ ud.2.inputs)) (by decide +kernel)
    refine ⟨ud.1, ud.2, hdecode, ⟨.GPR, 3⟩, of_decide_eq_true hinput, .gpr 3, by decide, rfl, 0, ?_, ?_⟩
    · refine (reachesBefore_point (n := 0) (by decide)).mpr (.inr ⟨rfl, 0, show 0 ∈ _ by decide, ?_⟩)
      exact (reaches_block_iff hw.startOf_le).mpr (.gen (by decide +kernel))
    · intro p _
      rw [hzero]
      rintro ⟨z, hz, _⟩
      rw [context_initialState] at hz
      simp at hz

end DataFlowAnalysis

end Ppc2cpp
