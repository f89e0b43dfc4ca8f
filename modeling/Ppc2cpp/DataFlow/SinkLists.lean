import Ppc2cpp.ControlFlow.Assembled
import Ppc2cpp.DataFlow.Sinks

/-! The sinks of a block in full.

A visit of a block makes the list of its sinks anew: one for each store and each branch,
in the order of the code, and behind them the values it returns, if it is an exit. In the
end each block of the function has the list of its last visit, whatever the earlier visits
left, and the placeholders for code outside of the function, which are never visited,
have none (`functionDFA_sinks`). -/
namespace Ppc2cpp
open GenKill

/-- The stores and branches of a block. -/
def Subject.sinkInsns (S : Subject) (block : BasicBlock) : List Nat :=
  (List.range' block.start (block.stop + 1 - block.start)).filter S.leavesSink

theorem Subject.sinkInsns_pairwise (S : Subject) (block : BasicBlock) :
    (S.sinkInsns block).Pairwise (· < ·) :=
  (List.pairwise_lt_range' ..).filter _

theorem Subject.mem_sinkInsns {S : Subject} {block : BasicBlock} {pc : Nat} :
    pc ∈ S.sinkInsns block ↔ block.start ≤ pc ∧ pc ≤ block.stop ∧ S.leavesSink pc = true := by
  rw [sinkInsns, List.mem_filter, List.mem_range'_1]
  constructor
  · intro h
    exact ⟨h.1.1, by omega, h.2⟩
  · intro h
    exact ⟨⟨h.1, by omega⟩, h.2.2⟩

namespace DataFlowAnalysis
open ControlFlowGraph

/-- The kinds of the sinks of a block with a context at its end: one sink for each store
and branch, and one return value for each return register with a definition. -/
def sinkKinds (S : Subject) (block : BasicBlock) (c : FlowContext) : List NodeKind :=
  (S.sinkInsns block).map .sink ++
    (if block.isExit then definedByCall.filter c.defined else []).map (.ret block.stop)

/-- Nodes have these kinds, in order. -/
def HaveKinds (heap : Heap) (nodes : List NodeId) (kinds : List NodeKind) : Prop :=
  List.Forall₂ (fun x kind => heap.kind? x = some kind) nodes kinds

theorem HaveKinds.mono {heap heap' : Heap} {nodes : List NodeId} {kinds : List NodeKind}
    (h : HaveKinds heap nodes kinds) (hp : heap <+: heap') : HaveKinds heap' nodes kinds :=
  h.imp fun _ _ hx => (Heap.kind?_of_isPrefix hp hx).1

theorem HaveKinds.exists_kind {heap : Heap} {nodes : List NodeId} {kinds : List NodeKind}
    (h : HaveKinds heap nodes kinds) {x : NodeId} (hx : x ∈ nodes) :
    ∃ kind ∈ kinds, heap.kind? x = some kind := by
  obtain ⟨i, hi, rfl⟩ := List.mem_iff_getElem.mp hx
  obtain ⟨hlen, hget⟩ := List.forall₂_iff_get.mp h
  exact ⟨_, List.get_mem _ _, hget i hi (hlen ▸ hi)⟩

theorem HaveKinds.exists_node {heap : Heap} {nodes : List NodeId} {kinds : List NodeKind}
    (h : HaveKinds heap nodes kinds) {kind : NodeKind} (hkind : kind ∈ kinds) :
    ∃ x ∈ nodes, heap.kind? x = some kind := by
  obtain ⟨i, hi, rfl⟩ := List.mem_iff_getElem.mp hkind
  obtain ⟨hlen, hget⟩ := List.forall₂_iff_get.mp h
  exact ⟨_, List.get_mem _ _, hget i (hlen ▸ hi) hi⟩

theorem HaveKinds.map_eq {heap : Heap} {nodes : List NodeId} {kinds : List NodeKind}
    (h : HaveKinds heap nodes kinds) : nodes.map heap.kind? = kinds.map some := by
  rw [← List.forall₂_eq_eq_eq, List.forall₂_map_left_iff, List.forall₂_map_right_iff]
  exact h

section
variable {S : Subject} {H : HashOrder} {g : ControlFlowGraph} {σ : Nat → State} {N n b : Nat}

/-- **A visit makes the sinks of its block.** -/
theorem processBlock_sinks {block : BasicBlock} {heap : Heap} {ctx : FlowContext}
    {result : BlockState} (h : processBlock S H block heap ctx = .ok result) :
    HaveKinds result.heap result.blockSinks (sinkKinds S block result.flowContext) := by
  obtain ⟨mid, hmid, h⟩ := processBlock_eq_ok.mp h
  obtain ⟨plain, hplain, hkinds⟩ := (processInsns_sinksAt hmid).sinks
  rw [List.nil_append] at hplain
  have hinsns : HaveKinds mid.heap plain ((S.sinkInsns block).map .sink) :=
    List.forall₂_map_right_iff.mpr hkinds
  unfold sinkKinds
  rcases h with ⟨hexit, hreturns⟩ | ⟨hexit, rfl⟩
  · rw [if_pos hexit]
    have hadds := returnSinks_adds hreturns
    obtain ⟨rets, hrets, hall⟩ := hadds.sinks
    rw [hrets, hplain, hadds.flowContext]
    refine List.rel_append (hinsns.mono hadds.heap) ?_
    exact List.forall₂_map_right_iff.mpr (hall.imp fun _ _ hx => hx.kind)
  · rw [if_neg (Bool.eq_false_iff.mp hexit)]
    rw [hplain, List.map_nil, List.append_nil]
    exact hinsns

/-- The sinks of a block are those of its last visit so far. -/
theorem Trace.sinks_or (h : Trace S H g σ N) (hn : n ≤ N) (b : Nat) :
    (∃ m < n, (σ m).Visits b) ∧ HaveKinds (σ n).heap ((σ n).blockSinks b)
        (sinkKinds S (g.block b) ((σ n).context b)) ∨
      (¬ ∃ m < n, (σ m).Visits b) ∧ (σ n).blockSinks b = [] := by
  induction n with
  | zero =>
    refine .inr ⟨fun ⟨m, hm, _⟩ => absurd hm (Nat.not_lt_zero m), ?_⟩
    obtain ⟨worklist, _, hinit⟩ := h.initial
    rw [hinit, State.blockSinks, initialState, List.getD_eq_getElem?_getD, List.getElem?_replicate]
    split <;> rfl
  | succ n ih =>
    obtain ⟨c, result, hvisited⟩ := h.visited hn
    have hvisits : (∃ m < n + 1, (σ m).Visits b) ↔ b = c ∨ ∃ m < n, (σ m).Visits b := by
      constructor
      · intro hex
        obtain ⟨m, hm, hv⟩ := hex
        rcases Nat.lt_succ_iff_lt_or_eq.mp hm with hlt | rfl
        · exact .inr ⟨m, hlt, hv⟩
        · exact .inl (Option.some.inj (hv.symm.trans hvisited.visits))
      · intro hor
        rcases hor with rfl | ⟨m, hm, hv⟩
        · exact ⟨n, Nat.lt_succ_self n, hvisited.visits⟩
        · exact ⟨m, Nat.lt_succ_of_lt hm, hv⟩
    rw [hvisits, hvisited.sinks, hvisited.context]
    by_cases hb : b = c
    · subst hb
      rw [if_pos rfl, if_pos rfl, hvisited.heap]
      exact .inl ⟨.inl rfl, processBlock_sinks hvisited.visit⟩
    · rw [if_neg hb, if_neg hb]
      rcases ih (by omega) with ⟨hbefore, hkinds⟩ | ⟨hnever, hnil⟩
      · exact .inl ⟨.inr hbefore, hkinds.mono hvisited.heap_isPrefix⟩
      · refine .inr ⟨fun hor => ?_, hnil⟩
        rcases hor with heq | hbefore
        · exact hb heq
        · exact hnever hbefore

/-- The sinks of the blocks of the function are of the kinds they should be, and other
blocks have none. -/
theorem functionDFA_haveKinds {fuel : Nat} {st : State}
    (hcfa : ControlFlowAnalysis.functionCFA S = .ok g) (hok : functionDFA S H g fuel = .ok st) :
    (∀ b x, g.Internal b x →
      HaveKinds st.heap (st.blockSinks b) (sinkKinds S x (st.context b))) ∧
    ∀ b, g.isInternal b = false → st.blockSinks b = [] := by
  have hw := ControlFlowAnalysis.functionCFA_wellFormed S hcfa
  obtain ⟨σ, N, h, _, rfl, hend⟩ := functionDFA_ok_iff.mp hok
  constructor
  · intro b x hx
    obtain ⟨n, hlast⟩ := (h.run hw).exists_last hend (mem_internalBlocks.mpr hx.isInternal)
    have hlast := (h.last_iff hw).mp hlast
    rcases h.sinks_or (le_refl N) b with ⟨_, hkinds⟩ | ⟨hnever, _⟩
    · rwa [Internal.block_eq hx] at hkinds
    · exact absurd ⟨n, hlast.lt, hlast.visits⟩ hnever
  · intro b hb
    rcases h.sinks_or (le_refl N) b with ⟨⟨n, hn, hv⟩, _⟩ | ⟨_, hnil⟩
    · rw [h.internal_of_visits hw hn hv] at hb
      cases hb
    · exact hnil

/-- A sink of a block is that of an instruction of the block or a return value. -/
theorem mem_blockSinks {fuel : Nat} {st : State} {x : NodeId}
    (hcfa : ControlFlowAnalysis.functionCFA S = .ok g) (hok : functionDFA S H g fuel = .ok st)
    (hx : x ∈ st.blockSinks b) : ∃ y, g.Internal b y ∧
      ((∃ pc ∈ S.sinkInsns y, st.heap.kind? x = some (.sink pc)) ∨
        y.isExit = true ∧ ∃ loc, st.heap.kind? x = some (.ret y.stop loc)) := by
  obtain ⟨hinternal, hother⟩ := functionDFA_haveKinds hcfa hok
  cases hb : g.isInternal b with
  | false =>
    rw [hother b hb] at hx
    cases hx
  | true =>
    obtain ⟨y, hy⟩ := (g.isInternal_iff b).mp hb
    refine ⟨y, hy, ?_⟩
    obtain ⟨kind, hmem, hkind⟩ := (hinternal b y hy).exists_kind hx
    rcases List.mem_append.mp hmem with hmem | hmem
    · obtain ⟨pc, hpc, rfl⟩ := List.mem_map.mp hmem
      exact .inl ⟨pc, hpc, hkind⟩
    · obtain ⟨loc, hloc, rfl⟩ := List.mem_map.mp hmem
      split at hloc
      · exact .inr ⟨by assumption, loc, hkind⟩
      · cases hloc

/-- **The sinks of a block in the end**: for each store and branch of the block one sink,
in the order of the code, and behind them, if the block is an exit, one return value for
each return register with a definition at its end. Only blocks of the function have
sinks. -/
theorem functionDFA_sinks {fuel : Nat} {st : State}
    (hcfa : ControlFlowAnalysis.functionCFA S = .ok g) (hok : functionDFA S H g fuel = .ok st) :
    (∀ b x, g.Internal b x →
      (st.blockSinks b).map st.heap.kind? = (S.sinkInsns x).map (fun pc => some (.sink pc)) ++
        (if x.isExit then definedByCall.filter (st.context b).defined else []).map
          (fun loc => some (.ret x.stop loc)) ∧
      (S.sinkInsns x).Pairwise (· < ·) ∧
      ∀ pc, pc ∈ S.sinkInsns x ↔ x.start ≤ pc ∧ pc ≤ x.stop ∧ S.leavesSink pc = true) ∧
    ∀ b, g.isInternal b = false → st.blockSinks b = [] := by
  obtain ⟨hinternal, hother⟩ := functionDFA_haveKinds hcfa hok
  refine ⟨fun b x hx => ⟨?_, S.sinkInsns_pairwise x, fun pc => Subject.mem_sinkInsns⟩, hother⟩
  rw [(hinternal b x hx).map_eq, sinkKinds, List.map_append, List.map_map, List.map_map]
  rfl

end

end DataFlowAnalysis

/-- `stw r3,0(r1); addi r3,r3,1; beq` to the `stw`; `blr`. -/
def storesInLoop : Subject :=
  assembledSubject [0x90610000, 0x38630001, 0x4182fff8, 0x4e800020] 4 (by decide)

open DataFlowAnalysis in
/-- The block of the loop is its own successor, and is visited more than once. -/
theorem functionDFA_sinks_storesInLoop : ∃ st : State,
    (st.blockSinks 0).map st.heap.kind? = [some (.sink 0), some (.sink 2)] ∧
      (st.blockSinks 1).map st.heap.kind? = [some (.sink 3), some (.ret 3 ⟨.GPR, 3⟩)] ∧
      st.blockSinks 2 = [] := by
  obtain ⟨g, hcfa, hrun⟩ := exists_ok (p := fun g =>
    returns (functionDFA storesInLoop .ascending g 20) fun st => decide (
      g.blocks = [⟨0, 2, .INTERNAL, false, false, false⟩, ⟨3, 3, .INTERNAL, true, false, false⟩,
        ⟨3, 3, .RUNTIME, false, false, false⟩] ∧
      definedByCall.filter (st.context 1).defined = [⟨.GPR, 3⟩]))
    (x := ControlFlowAnalysis.functionCFA storesInLoop) (by decide +kernel)
  obtain ⟨st, hok, hcheck⟩ := exists_ok hrun
  obtain ⟨hblocks, hdefined⟩ := of_decide_eq_true hcheck
  obtain ⟨hinternal, hother⟩ := functionDFA_sinks hcfa hok
  refine ⟨st, ?_, ?_, hother 2 (by simp [ControlFlowGraph.isInternal, hblocks])⟩
  · rw [(hinternal 0 ⟨0, 2, .INTERNAL, false, false, false⟩ ⟨by simp [hblocks], rfl⟩).1,
      if_neg (by decide)]
    decide +kernel
  · rw [(hinternal 1 ⟨3, 3, .INTERNAL, true, false, false⟩ ⟨by simp [hblocks], rfl⟩).1,
      if_pos rfl, hdefined]
    decide +kernel

end Ppc2cpp
