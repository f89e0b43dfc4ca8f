import Ppc2cpp.DataFlow.Adequacy
import Ppc2cpp.DataFlow.NodeOrder
import Ppc2cpp.DataFlow.Provenance

/-! The nodes of immediate operands and references.

They are inputs only of the nodes that were built for their own instruction, and a node
that was built for an instruction has all of them. Return values are inputs of nothing.
So a sink depends on one of the immediate operands of an instruction iff it depends on all
of them. -/
namespace Ppc2cpp

namespace NodeKind

def isOperand : NodeKind → Bool
  | .immediate _ _ _ => true
  | .reference _ _ _ => true
  | _ => false

/-- What can be an input of a node of class `owner`. -/
structure MayFeed (owner kind : NodeKind) : Prop where
  isReturn : kind.isReturn = false
  owned : kind.isOperand = true → owner.builtFor = some kind.index

end NodeKind

namespace Heap
variable {heap heap' : Heap} {x y : NodeId}

/-- The inputs of every node are nodes that can be. -/
def Owned (heap : Heap) : Prop :=
  ∀ (x : NodeId) node, heap[x]? = some node → ∀ y ∈ node.inputs, heap.Has node.kind.MayFeed y

theorem Owned.extend (h : heap.Owned) (hp : heap <+: heap')
    (hnew : ∀ (x : NodeId) node, heap.length ≤ x → heap'[x]? = some node →
      ∀ y ∈ node.inputs, heap'.Has node.kind.MayFeed y) : heap'.Owned := by
  intro x node hnode y hy
  rcases Nat.lt_or_ge x heap.length with hold | hge
  · rw [getElem?_of_isPrefix hp hold] at hnode
    exact (h x node hnode y hy).mono hp
  · exact hnew x node hge hnode y hy

theorem Owned.push (h : heap.Owned) {node : Node}
    (hnew : ∀ y ∈ node.inputs, heap.Has node.kind.MayFeed y) :
    Heap.Owned (heap ++ [node]) := by
  refine h.extend (List.prefix_append _ _) fun x n hx hn y hy => ?_
  rw [List.getElem?_append_right hx, List.getElem?_singleton] at hn
  split at hn
  · cases hn
    exact (hnew y hy).mono (List.prefix_append _ _)
  · cases hn

theorem exists_node_of_input (h : y ∈ heap.inputs x) :
    ∃ node, heap[x]? = some node ∧ y ∈ node.inputs := by
  unfold inputs at h
  cases hx : heap[x]? with
  | none => simp [hx] at h
  | some node =>
    rw [hx] at h
    exact ⟨node, rfl, h⟩

/-- A definition can be an input of any node. -/
theorem IsDefinition.mayFeed (h : heap.IsDefinition x) (owner : NodeKind) :
    heap.Has owner.MayFeed x := by
  obtain ⟨d, hd⟩ := h
  unfold defines at hd
  obtain ⟨kind, hkind, hdefines⟩ := Option.bind_eq_some_iff.mp hd
  refine ⟨kind, hkind, ?_⟩
  cases kind with
  | callReturn i loc => exact ⟨rfl, fun hop => absurd hop (by simp [NodeKind.isOperand])⟩
  | result i j loc => exact ⟨rfl, fun hop => absurd hop (by simp [NodeKind.isOperand])⟩
  | _ => cases hdefines

end Heap

namespace DataFlowAnalysis
open BlockState ControlFlowGraph

/-- The inputs of nodes are what they can be, and what is visible are definitions. -/
structure BlockState.Owned (st : BlockState) : Prop where
  heap : st.heap.Owned
  holds : ∀ x, st.Holds x → st.heap.IsDefinition x

section
variable {S : Subject} {H : HashOrder} {endsInCall : Bool} {pc count : Nat} {st st' : BlockState}

theorem processInsn_owned (h : processInsn S H endsInCall pc st = .ok st') (ho : st.Owned) :
    st'.Owned := by
  obtain ⟨opcode, insnUD, mid, nodes, hdecode, hinputs, hext⟩ := processInsn_extends h
  obtain ⟨hfeeds, _, hsrc, _⟩ := insnInputs_spec hinputs
  have hkinds := insnInputs_addsKinds hdecode hinputs
  have hmid : mid.Owned := by
    refine ⟨ho.heap.extend hfeeds.heap_isPrefix fun x node hx hnode y hy => ?_,
      fun x hx => hfeeds.definitions ho.holds hx⟩
    exact ((ho.holds y ((hfeeds.node hx hnode).2 y hy)).mono hfeeds.heap_isPrefix).mayFeed _
  refine ⟨hmid.heap.extend hext.heap_isPrefix fun x node hx hnode y hy => ?_,
    fun x hx => hext.definitions hmid.holds hx⟩
  obtain ⟨hbuilt, hnodes⟩ := hext.node hx hnode
  rw [hnodes] at hy
  have hprefix := hfeeds.heap_isPrefix.trans hext.heap_isPrefix
  rcases hsrc y hy with hold | hmade
  · exact ((ho.holds y hold).mono hprefix).mayFeed _
  · obtain ⟨kind, hkind, hof⟩ := hkinds.has hmade
    refine Heap.Has.mono ⟨kind, hkind, hof.isReturn, fun _ => ?_⟩ hext.heap_isPrefix
    rw [hbuilt, hof.index_eq]

theorem processInsns_owned (h : processInsns S H endsInCall count pc st = .ok st')
    (ho : st.Owned) : st'.Owned :=
  processInsns_keeps (fun _ _ _ _ hmid howned => processInsn_owned hmid howned) h ho

theorem returnSinks_owned {returnIdx : Nat} (h : returnSinks S H returnIdx st = .ok st')
    (ho : st.Owned) : st'.Owned := by
  refine forSlots_rel (R := fun st st' => st.Owned → st'.Owned) (fun _ h => h)
    (fun _ _ _ h h' hs => h' (h hs)) (fun _ loc slot st hst => ?_) h ho
  have hdef : ∀ y ∈ H.enumerate st.heap.length (st.flowContext.definition slot),
      st.heap.IsDefinition y := fun y hy => hst.holds y ⟨slot, (H.mem _ _ _).mp hy⟩
  unfold returnSink
  split
  · exact hst
  · rename_i returnDef hen
    rw [hen] at hdef
    refine ⟨hst.heap.push fun y hy => (hdef y hy).mayFeed _, fun x hx => ?_⟩
    exact (hst.holds x hx).mono (List.prefix_append _ _)
  · refine ⟨(hst.heap.push fun y hy => (hdef y hy).mayFeed _).push fun y hy => ?_, fun x hx => ?_⟩
    · rw [List.mem_singleton.mp hy]
      exact ⟨.phi S.length loc, by simp [Heap.kind?], rfl,
        fun hop => absurd hop (by simp [NodeKind.isOperand])⟩
    · exact (hst.holds x hx).mono ((List.prefix_append _ _).trans (List.prefix_append _ _))

end

section
variable {S : Subject} {H : HashOrder} {g : ControlFlowGraph} {σ : Nat → State} {N n : Nat}

/-- **Operands are inputs of nodes of their own instruction only**, at every step of the
analysis. -/
theorem Trace.owned (h : Trace S H g σ N) (hn : n ≤ N) : (σ n).heap.Owned := by
  induction n with
  | zero =>
    obtain ⟨worklist, _, hinit⟩ := h.initial
    rw [hinit]
    intro x node hnode
    simp [initialState] at hnode
  | succ n ih =>
    obtain ⟨b, result, hvisited⟩ := h.visited hn
    obtain ⟨mid, hmid, hvisit⟩ := processBlock_eq_ok.mp hvisited.visit
    have hentering : (State.entering g (σ n) b).Owned :=
      ⟨ih (by omega), fun x hx => h.defined_entering (Nat.le_of_lt hn) hx⟩
    have hinsns := processInsns_owned hmid hentering
    rw [hvisited.heap]
    rcases hvisit with ⟨_, hreturns⟩ | ⟨_, rfl⟩
    · exact (returnSinks_owned hreturns hinsns).heap
    · exact hinsns.heap

/-! ### The operands of an instruction -/

/-- The nodes of some immediate operands and references of an instruction. -/
structure HaveOperands (heap : Heap) (pc : Nat) (insnUD : InstructionUD) (xs : List NodeId) :
    Prop where
  references : ∀ (i : Nat) reloc, insnUD.refs[i]? = some reloc →
    ∃ x ∈ xs, heap.kind? x = some (.reference pc i reloc)
  immediates : ∀ (i : Nat) value, insnUD.imms[i]? = some value →
    ∃ x ∈ xs, heap.kind? x = some (.immediate pc i value)

theorem HaveOperands.mono {heap heap' : Heap} {pc : Nat} {insnUD : InstructionUD}
    {xs : List NodeId} (h : HaveOperands heap pc insnUD xs) (hp : heap <+: heap') :
    HaveOperands heap' pc insnUD xs where
  references i reloc hi := by
    obtain ⟨x, hx, hkind⟩ := h.references i reloc hi
    exact ⟨x, hx, (Heap.kind?_of_isPrefix hp hkind).1⟩
  immediates i value hi := by
    obtain ⟨x, hx, hkind⟩ := h.immediates i value hi
    exact ⟨x, hx, (Heap.kind?_of_isPrefix hp hkind).1⟩

/-- The nodes of a list are at the addresses handed out. -/
theorem mem_allocAll {nodes : List Node} {node : Node} (hmem : node ∈ nodes) (st : BlockState) :
    ∃ x ∈ (st.allocAll nodes).2, (st.allocAll nodes).1.heap.kind? x = some node.kind := by
  obtain ⟨i, hi⟩ := List.mem_iff_getElem?.mp hmem
  have hlt := (List.getElem?_eq_some_iff.mp hi).1
  refine ⟨st.heap.length + i, ?_, ?_⟩
  · simp only [allocAll, List.mem_range'_1]
    omega
  · rw [Heap.kind?, allocAll, List.getElem?_append_right (Nat.le_add_right _ _),
      Nat.add_sub_cancel_left, hi]
    rfl

theorem insnInputs_haveOperands {pc : Nat} {insnUD : InstructionUD} {st st' : BlockState}
    {xs : List NodeId} (h : insnInputs H pc insnUD st = .ok (st', xs)) :
    HaveOperands st'.heap pc insnUD xs := by
  obtain ⟨opVars, hops, rfl⟩ := insnInputs_eq_ok.mp h
  have hconst : ∀ node ∈ constantNodes pc insnUD,
      ∃ x ∈ (st.allocAll (constantNodes pc insnUD)).2 ++ opVars,
        st'.heap.kind? x = some node.kind := by
    intro node hnode
    obtain ⟨x, hx, hkind⟩ := mem_allocAll hnode st
    exact ⟨x, List.mem_append_left _ hx,
      (Heap.kind?_of_isPrefix (inputNodes_undisturbed hops).heap hkind).1⟩
  exact ⟨fun i reloc hi => hconst _ (mem_constantNodes.mpr (.inl ⟨i, reloc, hi, rfl⟩)),
    fun i imm hi => hconst _ (mem_constantNodes.mpr (.inr ⟨i, imm, hi, rfl⟩))⟩

/-- **A node that was built for an instruction has all its operands.** -/
theorem Trace.haveOperands (h : Trace S H g σ N) {x : NodeId} {pc : Nat}
    (hx : ((σ N).heap.kind? x).bind NodeKind.builtFor = some pc) {opcode : Opcode}
    {insnUD : InstructionUD} (hdecode : S.decode pc = .ok (opcode, insnUD)) :
    HaveOperands (σ N).heap pc insnUD ((σ N).heap.inputs x) := by
  obtain ⟨n, b, k, hn, hmade, rfl⟩ := h.exists_madeFor hx
  obtain ⟨v, hinputs⟩ := h.inputs_of_madeFor hn hmade
  obtain ⟨w, hpre⟩ := h.insnAt hn hmade.visits hmade.within
  obtain rfl := v.unique w
  obtain ⟨_, rfl⟩ := Prod.mk.inj (Except.ok.inj (hdecode.symm.trans v.decoded))
  rw [hinputs]
  exact (insnInputs_haveOperands v.built).mono
    (hpre.trans (h.heap_isPrefix (show n + 1 ≤ N by omega) (le_refl N)))

/-- A sink that depends on an operand depends on a node that was built for the instruction
of the operand. -/
theorem Trace.exists_owner (h : Trace S H g σ N) {fuel : Nat}
    (hcfa : ControlFlowAnalysis.functionCFA S = .ok g) (hok : functionDFA S H g fuel = .ok (σ N))
    {y : NodeId} {kind : NodeKind} (hy : DependedOn (σ N) y)
    (hkind : (σ N).heap.kind? y = some kind) (hop : kind.isOperand = true) :
    ∃ x, DependedOn (σ N) x ∧
      ((σ N).heap.kind? x).bind NodeKind.builtFor = some kind.index := by
  cases hy with
  | sink hmem =>
    obtain ⟨_, _, ⟨pc, _, hsink⟩ | ⟨_, loc, hret⟩⟩ := mem_blockSinks hcfa hok hmem
    · obtain rfl := Option.some.inj (hkind.symm.trans hsink)
      cases hop
    · obtain rfl := Option.some.inj (hkind.symm.trans hret)
      cases hop
  | @input x _ hx hmem =>
    obtain ⟨node, hnode, hinputs⟩ := Heap.exists_node_of_input hmem
    obtain ⟨kind', hkind', hfeed⟩ := h.owned (le_refl N) x node hnode y hinputs
    obtain rfl := Option.some.inj (hkind.symm.trans hkind')
    refine ⟨x, hx, ?_⟩
    rw [Heap.kind?, hnode]
    exact hfeed.owned hop

/-- Only a sink is a return value. -/
theorem Trace.sink_of_return (h : Trace S H g σ N) {y : NodeId} {i : Nat}
    {loc : CpuMemoryLocation} (hy : DependedOn (σ N) y)
    (hkind : (σ N).heap.kind? y = some (.ret i loc)) : ∃ b, y ∈ (σ N).blockSinks b := by
  cases hy with
  | sink hmem => exact ⟨_, hmem⟩
  | @input x _ hx hmem =>
    obtain ⟨node, hnode, hinputs⟩ := Heap.exists_node_of_input hmem
    obtain ⟨kind', hkind', hfeed⟩ := h.owned (le_refl N) x node hnode y hinputs
    obtain rfl := Option.some.inj (hkind.symm.trans hkind')
    exact absurd hfeed.isReturn (by simp [NodeKind.isReturn])

end

end DataFlowAnalysis

end Ppc2cpp
