import Ppc2cpp.DataFlow.Refinement

/-! The order in which nodes are made.

The inputs of a node are older than the node, so that the graph has no cycle. The
invariant `Ordered` says it of a heap, together with a property that every kind of node
has the instructions and exit blocks make (`MadeKinds`). -/
namespace Ppc2cpp

/-- The inputs of a node come before it, and its kind has a property. -/
structure Heap.Ordered (P : NodeKind → Prop) (heap : Heap) : Prop where
  inputs : ∀ (x : NodeId) node, heap[x]? = some node → ∀ y ∈ node.inputs, y < x
  kind : ∀ node ∈ heap, P node.kind

namespace Heap.Ordered
variable {P : NodeKind → Prop} {heap : Heap}

theorem nil : Heap.Ordered P [] := ⟨by simp, by simp⟩

theorem push (h : heap.Ordered P) {node : Node} (hinputs : ∀ y ∈ node.inputs, y < heap.length)
    (hkind : P node.kind) : Heap.Ordered P (heap ++ [node]) where
  inputs x n hx y hy := by
    rcases Nat.lt_or_ge x heap.length with hlt | hge
    · rw [List.getElem?_append_left hlt] at hx
      exact h.inputs x n hx y hy
    · rw [List.getElem?_append_right hge, List.getElem?_singleton] at hx
      split at hx
      · cases hx
        exact lt_of_lt_of_le (hinputs y hy) hge
      · cases hx
  kind n hn := by
    rcases List.mem_append.mp hn with hn | hn
    · exact h.kind n hn
    · rw [List.mem_singleton.mp hn]
      exact hkind

theorem append (h : heap.Ordered P) {nodes : List Node} (hinputs : ∀ node ∈ nodes, node.inputs = [])
    (hkind : ∀ node ∈ nodes, P node.kind) : Heap.Ordered P (heap ++ nodes) := by
  induction nodes generalizing heap with
  | nil => rwa [List.append_nil]
  | cons node nodes ih =>
    rw [List.append_cons]
    refine ih (h.push ?_ (hkind node List.mem_cons_self)) ?_ ?_
    · simp [hinputs node List.mem_cons_self]
    · exact fun n hn => hinputs n (List.mem_cons_of_mem _ hn)
    · exact fun n hn => hkind n (List.mem_cons_of_mem _ hn)

/-- The inputs of an address. -/
theorem lt_of_mem_inputs (h : heap.Ordered P) {x y : NodeId} (hy : y ∈ heap.inputs x) : y < x := by
  unfold Heap.inputs at hy
  cases hx : heap[x]? with
  | none => simp [hx] at hy
  | some node =>
    simp only [hx, Option.map_some, Option.getD_some] at hy
    exact h.inputs x node hx y hy

theorem kind? (h : heap.Ordered P) {x : NodeId} {k : NodeKind} (hx : heap.kind? x = some k) : P k := by
  obtain ⟨node, hnode, rfl⟩ := Option.map_eq_some_iff.mp hx
  exact h.kind node (List.mem_of_getElem? hnode)

end Heap.Ordered

namespace DataFlowAnalysis
open BlockState

/-- The kinds of the nodes an instruction makes have a property. -/
structure InsnKinds (P : NodeKind → Prop) (pc : Nat) (insnUD : InstructionUD) : Prop where
  reference : ∀ reloc ∈ insnUD.refs, ∀ i, P (.reference pc i reloc)
  immediate : ∀ i imm, P (.immediate pc i imm)
  functionInput : ∀ loc, P (.functionInput pc loc)
  phi : ∀ loc, P (.phi pc loc)
  result : ∀ i loc, P (.result pc i loc)
  callReturn : ∀ loc, P (.callReturn pc loc)
  sink : P (.sink pc)

/-- The kinds of the nodes a function makes have a property. -/
structure MadeKinds (P : NodeKind → Prop) (S : Subject) (g : ControlFlowGraph) : Prop where
  insn : ∀ b x, g.Internal b x → ∀ pc, x.start ≤ pc → pc ≤ x.stop → ∀ opcode insnUD,
    S.decode pc = .ok (opcode, insnUD) → InsnKinds P pc insnUD
  ret : ∀ b x, g.Internal b x → ∀ loc, P (.ret x.stop loc)
  exitPhi : ∀ loc, P (.phi S.length loc)

/-- Nothing is asked of the kinds. -/
theorem madeKinds_true (S : Subject) (g : ControlFlowGraph) : MadeKinds (fun _ => True) S g :=
  ⟨fun _ _ _ _ _ _ _ _ _ => ⟨fun _ _ _ => trivial, fun _ _ => trivial, fun _ => trivial,
    fun _ => trivial, fun _ _ => trivial, fun _ => trivial, trivial⟩, fun _ _ _ _ => trivial,
    fun _ => trivial⟩

/-- A state whose addresses are those of nodes in order. -/
structure BlockState.Ordered (P : NodeKind → Prop) (st : BlockState) : Prop where
  heap : st.heap.Ordered P
  holds : ∀ x, st.Holds x → x < st.heap.length
  sinks : ∀ x ∈ st.blockSinks, x < st.heap.length

namespace BlockState.Ordered
variable {P : NodeKind → Prop} {st : BlockState} {node : Node}

theorem alloc (h : st.Ordered P) (hinputs : ∀ y ∈ node.inputs, y < st.heap.length)
    (hkind : P node.kind) : (st.alloc node).1.Ordered P where
  heap := h.heap.push hinputs hkind
  holds x hx := lt_of_lt_of_le (h.holds x hx) (by simp [BlockState.alloc])
  sinks x hx := lt_of_lt_of_le (h.sinks x hx) (by simp [BlockState.alloc])

theorem allocAll (h : st.Ordered P) {nodes : List Node} (hinputs : ∀ n ∈ nodes, n.inputs = [])
    (hkind : ∀ n ∈ nodes, P n.kind) : (st.allocAll nodes).1.Ordered P where
  heap := h.heap.append hinputs hkind
  holds x hx := lt_of_lt_of_le (h.holds x hx) (by simp [BlockState.allocAll])
  sinks x hx := lt_of_lt_of_le (h.sinks x hx) (by simp [BlockState.allocAll])

theorem pushSink (h : st.Ordered P) (hinputs : ∀ y ∈ node.inputs, y < st.heap.length)
    (hkind : P node.kind) : (st.pushSink node).Ordered P where
  heap := h.heap.push hinputs hkind
  holds := (h.alloc hinputs hkind).holds
  sinks x hx := by
    rcases List.mem_append.mp hx with hx | hx
    · exact lt_of_lt_of_le (h.sinks x hx) (by simp [BlockState.pushSink])
    · rw [List.mem_singleton.mp hx]
      simp [BlockState.pushSink]

theorem define (h : st.Ordered P) (slot : Slot) (hinputs : ∀ y ∈ node.inputs, y < st.heap.length)
    (hkind : P node.kind) : (st.define slot node).Ordered P where
  heap := h.heap.push hinputs hkind
  holds x hx := by
    obtain ⟨s, hs⟩ := hx
    simp only [BlockState.define, FlowContext.definition_setDefinition] at hs
    split at hs
    · rw [Finset.mem_singleton.mp hs]
      simp [BlockState.define]
    · exact lt_of_lt_of_le (h.holds x ⟨s, hs⟩) (by simp [BlockState.define])
  sinks := (h.alloc hinputs hkind).sinks

theorem kill (h : st.Ordered P) (slot : Slot) : (st.kill slot).Ordered P where
  heap := h.heap
  holds x hx := by
    obtain ⟨s, hs⟩ := hx
    simp only [BlockState.kill, FlowContext.definition_killDefinition] at hs
    split at hs
    · simp at hs
    · exact h.holds x ⟨s, hs⟩
  sinks := h.sinks

end BlockState.Ordered

section
variable {P : NodeKind → Prop} {S : Subject} {H : HashOrder} {pc : Nat} {insnUD : InstructionUD}
  {st st' : BlockState}

theorem inputNode_ordered {loc : CpuMemoryLocation} {x : NodeId} (hP : InsnKinds P pc insnUD)
    (h : inputNode H pc loc st = .ok (st', x)) (ho : st.Ordered P) :
    st'.Ordered P ∧ x < st'.heap.length := by
  obtain ⟨hext, _, hx, _⟩ := inputNode_spec h
  have hst' : st'.Ordered P := by
    rw [inputNode, bind_eq_ok] at h
    obtain ⟨slot, _, h⟩ := h
    have hmem : ∀ y ∈ H.enumerate st.heap.length (st.flowContext.definition slot),
        y < st.heap.length := fun y hy => ho.holds y ⟨slot, (H.mem _ _ _).mp hy⟩
    split at h
    · cases h
      exact ho.alloc (by simp) (hP.functionInput loc)
    · cases h
      exact ho
    · cases h
      exact ho.alloc hmem (hP.phi loc)
  refine ⟨hst', ?_⟩
  rcases hx with hx | hx
  · exact lt_of_lt_of_le (ho.holds x hx) hext.length_le
  · exact hx.2

theorem inputNodes_ordered {locs : List CpuMemoryLocation} {opVars : List NodeId}
    (hP : InsnKinds P pc insnUD) (h : inputNodes H pc locs st = .ok (st', opVars))
    (ho : st.Ordered P) : st'.Ordered P ∧ ∀ x ∈ opVars, x < st'.heap.length := by
  induction locs generalizing st opVars with
  | nil =>
    cases h
    exact ⟨ho, by simp⟩
  | cons loc rest ih =>
    simp only [inputNodes, bind_eq_ok, Prod.exists] at h
    obtain ⟨st₁, x, hx, st₂, xs, hxs, h⟩ := h
    cases h
    obtain ⟨ho₁, hlt⟩ := inputNode_ordered hP hx ho
    obtain ⟨ho₂, hall⟩ := ih hxs ho₁
    refine ⟨ho₂, fun y hy => ?_⟩
    rcases List.mem_cons.mp hy with rfl | hy
    · exact lt_of_lt_of_le hlt (inputNodes_spec hxs).1.length_le
    · exact hall y hy

theorem insnInputs_ordered {nodes : List NodeId} (hP : InsnKinds P pc insnUD)
    (h : insnInputs H pc insnUD st = .ok (st', nodes)) (ho : st.Ordered P) :
    st'.Ordered P ∧ ∀ x ∈ nodes, x < st'.heap.length := by
  obtain ⟨opVars, hvars, rfl⟩ := insnInputs_eq_ok.mp h
  have hconsts : (st.allocAll (constantNodes pc insnUD)).1.Ordered P := by
    refine ho.allocAll (fun n hn => ?_) fun n hn => ?_
    · rcases mem_constantNodes.mp hn with ⟨i, reloc, _, rfl⟩ | ⟨i, imm, _, rfl⟩
      · rfl
      · rfl
    · rcases mem_constantNodes.mp hn with ⟨i, reloc, hi, rfl⟩ | ⟨i, imm, _, rfl⟩
      · exact hP.reference reloc (List.mem_of_getElem? hi) i
      · exact hP.immediate i imm
  obtain ⟨hst', hall⟩ := inputNodes_ordered hP hvars hconsts
  refine ⟨hst', fun x hx => ?_⟩
  rcases List.mem_append.mp hx with hx | hx
  · have hle := (inputNodes_spec hvars).1.length_le
    simp only [BlockState.allocAll, List.mem_range'_1, List.length_append] at hx hle
    exact lt_of_lt_of_le hx.2 hle
  · exact hall x hx

/-- A loop over operands whose body keeps the order, with nodes that are there already as
inputs of the nodes it makes. -/
theorem forSlots_ordered {nodes : List NodeId} {i : Nat} {locs : List CpuMemoryLocation}
    {body : Nat → CpuMemoryLocation → Slot → BlockState → BlockState}
    (hbody : ∀ i loc slot st, st.Ordered P → (∀ x ∈ nodes, x < st.heap.length) →
      (body i loc slot st).Ordered P ∧ st.heap.length ≤ (body i loc slot st).heap.length)
    (h : forSlots body i locs st = .ok st') (ho : st.Ordered P)
    (hnodes : ∀ x ∈ nodes, x < st.heap.length) :
    st'.Ordered P ∧ ∀ x ∈ nodes, x < st'.heap.length := by
  refine forSlots_rel (R := fun st st' => (st.Ordered P ∧ ∀ x ∈ nodes, x < st.heap.length) →
    st'.Ordered P ∧ ∀ x ∈ nodes, x < st'.heap.length) (fun _ h => h)
    (fun _ _ _ h h' hs => h' (h hs)) ?_ h ⟨ho, hnodes⟩
  intro i loc slot st hst
  obtain ⟨ho', hle⟩ := hbody i loc slot st hst.1 hst.2
  exact ⟨ho', fun x hx => lt_of_lt_of_le (hst.2 x hx) hle⟩

theorem processCall_ordered {nodes : List NodeId} (hP : InsnKinds P pc insnUD)
    (h : processCall pc nodes st = .ok st') (ho : st.Ordered P)
    (hnodes : ∀ x ∈ nodes, x < st.heap.length) : st'.Ordered P := by
  rw [processCall, bind_eq_ok] at h
  obtain ⟨mid, hkill, hdefine⟩ := h
  obtain ⟨hmid, hnodes⟩ := forSlots_ordered
    (fun _ _ slot st hst _ => ⟨hst.kill slot, le_refl _⟩) hkill ho hnodes
  refine (forSlots_ordered (fun _ loc slot st hst hn => ⟨?_, ?_⟩) hdefine hmid hnodes).1
  · exact hst.define slot hn (hP.callReturn loc)
  · simp [BlockState.define]

theorem processInsn_ordered {endsInCall : Bool}
    (hP : ∀ opcode insnUD, S.decode pc = .ok (opcode, insnUD) → InsnKinds P pc insnUD)
    (h : processInsn S H endsInCall pc st = .ok st') (ho : st.Ordered P) : st'.Ordered P := by
  simp only [processInsn, bind_eq_ok, Prod.exists] at h
  obtain ⟨opcode, insnUD, hdecode, st₁, nodes, hinputs, st₂, houtputs, h⟩ := h
  have hP := hP opcode insnUD hdecode
  obtain ⟨ho₁, hnodes⟩ := insnInputs_ordered hP hinputs ho
  have hbody : ∀ i loc slot (st : BlockState), st.Ordered P → (∀ x ∈ nodes, x < st.heap.length) →
      (st.define slot ⟨.result pc i loc, nodes⟩).Ordered P ∧
        st.heap.length ≤ (st.define slot ⟨.result pc i loc, nodes⟩).heap.length :=
    fun i loc slot st hst hn => ⟨hst.define slot hn (hP.result i loc), by simp [BlockState.define]⟩
  obtain ⟨ho₂, hnodes⟩ := forSlots_ordered hbody houtputs ho₁ hnodes
  have hsink : (st₂.pushSink ⟨.sink pc, nodes⟩).Ordered P := ho₂.pushSink hnodes hP.sink
  split at h
  · cases h
    exact hsink
  · split at h
    · split at h
      · refine processCall_ordered hP h hsink fun x hx => ?_
        exact lt_of_lt_of_le (hnodes x hx) (by simp [BlockState.pushSink])
      · cases h
        exact hsink
    · cases h
      exact ho₂

theorem processInsns_ordered {endsInCall : Bool} {count : Nat}
    (hP : ∀ k < count, ∀ opcode insnUD, S.decode (pc + k) = .ok (opcode, insnUD) →
      InsnKinds P (pc + k) insnUD)
    (h : processInsns S H endsInCall count pc st = .ok st') (ho : st.Ordered P) :
    st'.Ordered P :=
  processInsns_keeps (fun k hk _ _ hmid hordered => processInsn_ordered (hP k hk) hmid hordered) h
    ho

theorem returnSink_ordered {returnIdx : Nat} (hret : ∀ loc, P (.ret returnIdx loc))
    (hphi : ∀ loc, P (.phi S.length loc)) (loc : CpuMemoryLocation) (slot : Slot)
    (ho : st.Ordered P) : (returnSink S H returnIdx loc slot st).Ordered P := by
  have hmem : ∀ y ∈ H.enumerate st.heap.length (st.flowContext.definition slot),
      y < st.heap.length := fun y hy => ho.holds y ⟨slot, (H.mem _ _ _).mp hy⟩
  unfold returnSink
  split
  · exact ho
  · rename_i returnDef hen
    rw [hen] at hmem
    exact ho.pushSink hmem (hret loc)
  · refine (ho.alloc hmem (hphi loc)).pushSink (fun y hy => ?_) (hret loc)
    rw [List.mem_singleton.mp hy]
    simp [BlockState.alloc]

/-- **A visit keeps the order.** -/
theorem processBlock_ordered {g : ControlFlowGraph} {b : Nat} {block : BasicBlock} {heap : Heap}
    {ctx : FlowContext} {result : BlockState} (hP : MadeKinds P S g) (hb : g.Internal b block)
    (h : processBlock S H block heap ctx = .ok result)
    (ho : BlockState.Ordered P ⟨heap, ctx, []⟩) : result.Ordered P := by
  obtain ⟨mid, hmid, h⟩ := processBlock_eq_ok.mp h
  have ho' := processInsns_ordered (fun k hk => hP.insn b block hb (block.start + k)
    (Nat.le_add_right _ _) (by omega)) hmid ho
  rcases h with ⟨_, hreturns⟩ | ⟨_, rfl⟩
  · exact forSlots_rel (R := fun st st' => st.Ordered P → st'.Ordered P) (fun _ h => h)
      (fun _ _ _ h h' hs => h' (h hs))
      (fun _ loc slot st => returnSink_ordered (hP.ret b block hb) hP.exitPhi loc slot) hreturns ho'
  · exact ho'

end

/-! ### The whole analysis -/

/-- The heap is in order, and the contexts and the sinks hold addresses of nodes. -/
structure State.Ordered (P : NodeKind → Prop) (st : State) : Prop where
  heap : st.heap.Ordered P
  context : ∀ b s, ∀ x ∈ (st.context b).definition s, x < st.heap.length
  sinks : ∀ b, ∀ x ∈ st.blockSinks b, x < st.heap.length

/-- **At every step of the analysis the nodes are in order.** -/
theorem Trace.ordered {P : NodeKind → Prop} {S : Subject} {H : HashOrder} {g : ControlFlowGraph}
    {σ : Nat → State} {N n : Nat} (h : Trace S H g σ N) (hw : g.WellFormed)
    (hP : MadeKinds P S g) (hn : n ≤ N) : (σ n).Ordered P := by
  induction n with
  | zero =>
    obtain ⟨worklist, _, hinit⟩ := h.initial
    rw [hinit]
    refine ⟨.nil, fun b s x hx => ?_, fun b x hx => ?_⟩
    · rw [context_initialState] at hx
      simp at hx
    · rw [State.blockSinks, initialState, List.getD_eq_getElem?_getD, List.getElem?_replicate] at hx
      split at hx <;> simp at hx
  | succ n ih =>
    have ho := ih (by omega)
    obtain ⟨b, result, hvisited⟩ := h.visited hn
    obtain ⟨block, hblock⟩ := (g.isInternal_iff b).mp (h.internal hw hn hvisited)
    have hvisit := hvisited.visit
    rw [ControlFlowGraph.Internal.block_eq hblock] at hvisit
    have hresult : result.Ordered P := processBlock_ordered hP hblock hvisit
      ⟨ho.heap, fun x hx => by
        obtain ⟨s, hs⟩ := hx
        obtain ⟨p, _, hp⟩ := mem_initBlockContext.mp hs
        exact ho.context p s x hp, by simp⟩
    have hle : (σ n).heap.length ≤ (σ (n + 1)).heap.length := by
      rw [hvisited.heap]
      exact hvisited.extends_block.length_le
    refine ⟨hvisited.heap ▸ hresult.heap, fun c s x hx => ?_, fun c x hx => ?_⟩
    · rw [hvisited.context] at hx
      split at hx
      · rw [hvisited.heap]
        exact hresult.holds x ⟨s, hx⟩
      · exact lt_of_lt_of_le (ho.context c s x hx) hle
    · rw [hvisited.sinks] at hx
      split at hx
      · rw [hvisited.heap]
        exact hresult.sinks x hx
      · exact lt_of_lt_of_le (ho.sinks c x hx) hle

theorem functionDFA_ordered {P : NodeKind → Prop} {S : Subject} {H : HashOrder}
    {g : ControlFlowGraph} {fuel : Nat} {st : State} (hw : g.WellFormed) (hP : MadeKinds P S g)
    (hok : functionDFA S H g fuel = .ok st) : st.Ordered P := by
  obtain ⟨σ, N, h, _, rfl, _⟩ := functionDFA_ok_iff.mp hok
  exact h.ordered hw hP (le_refl N)

end DataFlowAnalysis

end Ppc2cpp
