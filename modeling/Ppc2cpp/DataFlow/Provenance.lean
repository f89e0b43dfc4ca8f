import Ppc2cpp.DataFlow.SinkLists

/-! Where the nodes of a graph come from.

A visit makes nodes for the instructions of its block, each at its instruction
(`NodeKind.OfInsns`), and behind them, if the block is an exit, return values and the phi
nodes they need (`NodeKind.OfReturns`). Every register a node names is a storage element.
`Heap.Closed` says of a property of nodes that it is handed on to inputs. -/
namespace Ppc2cpp

namespace NodeKind

/-- The register of a node, of the classes that have one. -/
def cpuMemoryLocation? : NodeKind → Option CpuMemoryLocation
  | .functionInput _ cpuMemoryLocation => some cpuMemoryLocation
  | .callReturn _ cpuMemoryLocation => some cpuMemoryLocation
  | .result _ _ cpuMemoryLocation => some cpuMemoryLocation
  | .ret _ cpuMemoryLocation => some cpuMemoryLocation
  | .phi _ cpuMemoryLocation => some cpuMemoryLocation
  | .immediate _ _ _ => none
  | .reference _ _ _ => none
  | .sink _ => none

def isReturn : NodeKind → Bool
  | .ret _ _ => true
  | _ => false

/-- The register of the node, if it has one, is a storage element. -/
def Located (kind : NodeKind) : Prop :=
  ∀ loc, kind.cpuMemoryLocation? = some loc → ∃ slot, loc.slot? = some slot

/-- The operand the node stands for is one that the instruction has. -/
def Listed (S : Subject) : NodeKind → Prop
  | .immediate pc i value =>
    ∃ opcode insnUD, S.decode pc = .ok (opcode, insnUD) ∧ insnUD.imms[i]? = some value
  | .reference pc i reloc =>
    ∃ opcode insnUD, S.decode pc = .ok (opcode, insnUD) ∧ insnUD.refs[i]? = some reloc
  | .result pc i loc =>
    ∃ opcode insnUD, S.decode pc = .ok (opcode, insnUD) ∧ insnUD.outputs[i]? = some loc
  | _ => True

/-- A node of one of `count` instructions from `pc` on. -/
structure OfInsns (S : Subject) (pc count : Nat) (kind : NodeKind) : Prop where
  index_ge : pc ≤ kind.index
  index_lt : kind.index < pc + count
  located : kind.Located
  listed : kind.Listed S
  isReturn : kind.isReturn = false

/-- A return value, or the phi node of one. -/
structure OfReturns (S : Subject) (returnIdx : Nat) (kind : NodeKind) : Prop where
  located : kind.Located
  class_eq : (∃ loc, kind = .ret returnIdx loc) ∨ ∃ loc, kind = .phi S.length loc

theorem located_of_none {kind : NodeKind} (h : kind.cpuMemoryLocation? = none) : kind.Located := by
  intro loc hloc
  rw [h] at hloc
  cases hloc

theorem located_of_slot {kind : NodeKind} {loc : CpuMemoryLocation} {slot : Slot}
    (h : kind.cpuMemoryLocation? = some loc) (hslot : loc.slot? = some slot) : kind.Located := by
  intro loc' hloc'
  obtain rfl := Option.some.inj (h.symm.trans hloc')
  exact ⟨slot, hslot⟩

/-- The nodes of one instruction. -/
theorem OfInsns.single {S : Subject} {pc : Nat} {kind : NodeKind} (hindex : kind.index = pc)
    (hlocated : kind.Located) (hlisted : kind.Listed S) (hret : kind.isReturn = false) :
    kind.OfInsns S pc 1 :=
  ⟨hindex.ge, by omega, hlocated, hlisted, hret⟩

theorem OfInsns.index_eq {S : Subject} {pc : Nat} {kind : NodeKind} (h : kind.OfInsns S pc 1) :
    kind.index = pc := by
  have hge := h.index_ge
  have hlt := h.index_lt
  omega

theorem OfReturns.listed {S : Subject} {returnIdx : Nat} {kind : NodeKind}
    (h : kind.OfReturns S returnIdx) : kind.Listed S := by
  rcases h.class_eq with ⟨loc, rfl⟩ | ⟨loc, rfl⟩ <;> trivial

end NodeKind

namespace Heap
variable {P : NodeKind → Prop} {heap heap' : Heap} {x y : NodeId}

/-- The node at the address has the property. -/
def Has (heap : Heap) (P : NodeKind → Prop) (x : NodeId) : Prop :=
  ∃ kind, heap.kind? x = some kind ∧ P kind

/-- The inputs of a node with the property have it too. -/
def Closed (P : NodeKind → Prop) (heap : Heap) : Prop :=
  ∀ (x : NodeId) node, heap[x]? = some node → P node.kind → ∀ y ∈ node.inputs, heap.Has P y

theorem Has.mono (h : heap.Has P x) (hp : heap <+: heap') : heap'.Has P x := by
  obtain ⟨kind, hkind, hP⟩ := h
  exact ⟨kind, (kind?_of_isPrefix hp hkind).1, hP⟩

theorem Closed.has_input (h : heap.Closed P) (hx : heap.Has P x) (hy : y ∈ heap.inputs x) :
    heap.Has P y := by
  obtain ⟨kind, hkind, hP⟩ := hx
  obtain ⟨node, hnode, rfl⟩ := Option.map_eq_some_iff.mp hkind
  rw [Heap.inputs, hnode] at hy
  exact h x node hnode hP y hy

/-- The old nodes stay, and the new ones with the property have inputs with it. -/
theorem Closed.extend (h : heap.Closed P) (hp : heap <+: heap')
    (hnew : ∀ (x : NodeId) node, heap.length ≤ x → heap'[x]? = some node → P node.kind →
      ∀ y ∈ node.inputs, heap'.Has P y) : heap'.Closed P := by
  intro x node hnode hP y hy
  rcases Nat.lt_or_ge x heap.length with hold | hge
  · rw [getElem?_of_isPrefix hp hold] at hnode
    exact (h x node hnode hP y hy).mono hp
  · exact hnew x node hge hnode hP y hy

end Heap

namespace DataFlowAnalysis
open BlockState

/-- The nodes made between two states are of these kinds. -/
def AddsKinds (Q : NodeKind → Prop) (st st' : BlockState) : Prop :=
  ∃ new, st'.heap = st.heap ++ new ∧ ∀ node ∈ new, Q node.kind

namespace AddsKinds
variable {Q Q' : NodeKind → Prop} {st st' st'' : BlockState}

theorem refl (Q : NodeKind → Prop) (st : BlockState) : AddsKinds Q st st := ⟨[], by simp, by simp⟩

theorem trans (h : AddsKinds Q st st') (h' : AddsKinds Q st' st'') : AddsKinds Q st st'' := by
  obtain ⟨new, hnew, hall⟩ := h
  obtain ⟨new', hnew', hall'⟩ := h'
  refine ⟨new ++ new', by rw [hnew', hnew, List.append_assoc], fun node hmem => ?_⟩
  exact (List.mem_append.mp hmem).elim (hall node) (hall' node)

/-- One node is made. -/
theorem single {node : Node} (h : st'.heap = st.heap ++ [node]) (hQ : Q node.kind) :
    AddsKinds Q st st' :=
  ⟨[node], h, by simpa using hQ⟩

theorem mono (h : AddsKinds Q st st') (hQ : ∀ kind, Q kind → Q' kind) : AddsKinds Q' st st' := by
  obtain ⟨new, hnew, hall⟩ := h
  exact ⟨new, hnew, fun node hmem => hQ _ (hall node hmem)⟩

theorem heap_isPrefix (h : AddsKinds Q st st') : st.heap <+: st'.heap := by
  obtain ⟨new, hnew, _⟩ := h
  exact ⟨new, hnew.symm⟩

theorem kind (h : AddsKinds Q st st') {x : NodeId} {node : Node} (hx : st.heap.length ≤ x)
    (hnode : st'.heap[x]? = some node) : Q node.kind := by
  obtain ⟨new, hnew, hall⟩ := h
  rw [hnew, List.getElem?_append_right hx] at hnode
  exact hall node (List.mem_of_getElem? hnode)

theorem has (h : AddsKinds Q st st') {x : NodeId} (hx : Made st st' x) : st'.heap.Has Q x := by
  have hnode := List.getElem?_eq_getElem hx.2
  exact ⟨_, by rw [Heap.kind?, hnode]; rfl, h.kind hx.1 hnode⟩

end AddsKinds

/-! ### The nodes of an instruction -/

section
variable {S : Subject} {H : HashOrder} {endsInCall : Bool} {pc count : Nat} {st st' : BlockState}

theorem inputNode_addsKinds {loc : CpuMemoryLocation} {x : NodeId}
    (h : inputNode H pc loc st = .ok (st', x)) : AddsKinds (NodeKind.OfInsns S pc 1) st st' := by
  rw [inputNode, bind_eq_ok] at h
  obtain ⟨slot, hslot, h⟩ := h
  rw [slotOf_eq_ok] at hslot
  split at h
  · cases h
    exact .single rfl (.single rfl (NodeKind.located_of_slot rfl hslot) trivial rfl)
  · cases h
    exact .refl _ _
  · cases h
    exact .single rfl (.single rfl (NodeKind.located_of_slot rfl hslot) trivial rfl)

theorem inputNodes_addsKinds {locs : List CpuMemoryLocation} {xs : List NodeId}
    (h : inputNodes H pc locs st = .ok (st', xs)) : AddsKinds (NodeKind.OfInsns S pc 1) st st' := by
  induction locs generalizing st xs with
  | nil =>
    rw [inputNodes] at h
    cases h
    exact .refl _ _
  | cons loc rest ih =>
    simp only [inputNodes, bind_eq_ok, Prod.exists] at h
    obtain ⟨st₁, x, hx, st₂, xs, hxs, h⟩ := h
    cases h
    exact (inputNode_addsKinds hx).trans (ih hxs)

theorem insnInputs_addsKinds {opcode : Opcode} {insnUD : InstructionUD} {xs : List NodeId}
    (hdecode : S.decode pc = .ok (opcode, insnUD)) (h : insnInputs H pc insnUD st = .ok (st', xs)) :
    AddsKinds (NodeKind.OfInsns S pc 1) st st' := by
  obtain ⟨opVars, hops, rfl⟩ := insnInputs_eq_ok.mp h
  refine AddsKinds.trans ⟨_, rfl, fun node hnode => ?_⟩ (inputNodes_addsKinds hops)
  rcases mem_constantNodes.mp hnode with ⟨i, reloc, hi, rfl⟩ | ⟨i, imm, hi, rfl⟩
  · exact .single rfl (NodeKind.located_of_none rfl) ⟨opcode, insnUD, hdecode, hi⟩ rfl
  · exact .single rfl (NodeKind.located_of_none rfl) ⟨opcode, insnUD, hdecode, hi⟩ rfl

/-- A loop over operands whose turns make nodes of some kinds. -/
theorem forSlots_addsKinds {Q : NodeKind → Prop}
    {body : Nat → CpuMemoryLocation → Slot → BlockState → BlockState} {i : Nat}
    {locs : List CpuMemoryLocation}
    (hbody : ∀ k loc slot st, locs[k]? = some loc → loc.slot? = some slot →
      AddsKinds Q st (body (i + k) loc slot st))
    (h : forSlots body i locs st = .ok st') : AddsKinds Q st st' :=
  forSlots_rel_of_operand (R := AddsKinds Q) (.refl Q) (fun _ _ _ => AddsKinds.trans) hbody h

theorem defineOutputs_addsKinds {opcode : Opcode} {insnUD : InstructionUD} {xs : List NodeId}
    (hdecode : S.decode pc = .ok (opcode, insnUD))
    (h : defineOutputs pc xs insnUD.outputs st = .ok st') :
    AddsKinds (NodeKind.OfInsns S pc 1) st st' := by
  refine forSlots_addsKinds (fun k loc slot st hk hslot => ?_) h
  rw [Nat.zero_add]
  exact .single rfl (.single rfl (NodeKind.located_of_slot rfl hslot)
    ⟨opcode, insnUD, hdecode, hk⟩ rfl)

theorem processCall_addsKinds {xs : List NodeId} (h : processCall pc xs st = .ok st') :
    AddsKinds (NodeKind.OfInsns S pc 1) st st' := by
  rw [processCall, bind_eq_ok] at h
  obtain ⟨mid, hkill, hdefine⟩ := h
  refine (forSlots_addsKinds (fun _ _ slot st _ _ => ?_) hkill).trans
    (forSlots_addsKinds (fun _ loc slot st _ hslot => ?_) hdefine)
  · exact ⟨[], by simp [BlockState.kill], by simp⟩
  · exact .single rfl (.single rfl (NodeKind.located_of_slot rfl hslot) trivial rfl)

theorem processInsn_addsKinds (h : processInsn S H endsInCall pc st = .ok st') :
    AddsKinds (NodeKind.OfInsns S pc 1) st st' := by
  simp only [processInsn, bind_eq_ok, Prod.exists] at h
  obtain ⟨opcode, insnUD, hdecode, st₁, xs, hinputs, st₂, houtputs, h⟩ := h
  have hplain : AddsKinds (NodeKind.OfInsns S pc 1) st st₂ :=
    (insnInputs_addsKinds hdecode hinputs).trans (defineOutputs_addsKinds hdecode houtputs)
  have hsink : AddsKinds (NodeKind.OfInsns S pc 1) st (st₂.pushSink ⟨.sink pc, xs⟩) :=
    hplain.trans (.single rfl (.single rfl (NodeKind.located_of_none rfl) trivial rfl))
  split at h
  · cases h
    exact hsink
  · split at h
    · split at h
      · exact hsink.trans (processCall_addsKinds h)
      · cases h
        exact hsink
    · cases h
      exact hplain

/-- **The nodes of a run of instructions.** -/
theorem processInsns_addsKinds (h : processInsns S H endsInCall count pc st = .ok st') :
    AddsKinds (NodeKind.OfInsns S pc count) st st' := by
  induction count generalizing pc st with
  | zero =>
    rw [processInsns, Except.ok.injEq] at h
    exact h ▸ .refl _ _
  | succ count ih =>
    rw [processInsns, bind_eq_ok] at h
    obtain ⟨mid, hmid, h⟩ := h
    refine ((processInsn_addsKinds hmid).mono fun kind hk => ?_).trans
      ((ih h).mono fun kind hk => ?_)
    · exact ⟨hk.index_ge, by have := hk.index_lt; omega, hk.located, hk.listed, hk.isReturn⟩
    · exact ⟨by have := hk.index_ge; omega, by have := hk.index_lt; omega, hk.located, hk.listed,
        hk.isReturn⟩

/-- The nodes of the return values. -/
theorem returnSinks_addsKinds {returnIdx : Nat} (h : returnSinks S H returnIdx st = .ok st') :
    AddsKinds (NodeKind.OfReturns S returnIdx) st st' := by
  refine forSlots_addsKinds (fun _ loc slot st _ hslot => ?_) h
  have hret : NodeKind.OfReturns S returnIdx (.ret returnIdx loc) :=
    ⟨NodeKind.located_of_slot rfl hslot, .inl ⟨loc, rfl⟩⟩
  have hphi : NodeKind.OfReturns S returnIdx (.phi S.length loc) :=
    ⟨NodeKind.located_of_slot rfl hslot, .inr ⟨loc, rfl⟩⟩
  unfold returnSink
  split
  · exact .refl _ _
  · exact .single rfl hret
  · have hmade : ∀ opVars, AddsKinds (NodeKind.OfReturns S returnIdx) st
        (st.alloc ⟨.phi S.length loc, opVars⟩).1 := fun _ => .single rfl hphi
    exact (hmade _).trans (.single rfl hret)

end

/-- **Every node of a graph names a storage element, if it names a register, and stands for
an operand its instruction has.** -/
theorem Trace.located_listed {S : Subject} {H : HashOrder} {g : ControlFlowGraph}
    {σ : Nat → State} {N n : Nat} (h : Trace S H g σ N) (hn : n ≤ N) :
    ∀ node ∈ (σ n).heap, node.kind.Located ∧ node.kind.Listed S := by
  induction n with
  | zero =>
    obtain ⟨worklist, _, hinit⟩ := h.initial
    rw [hinit]
    intro node hnode
    cases hnode
  | succ n ih =>
    obtain ⟨b, result, hvisited⟩ := h.visited hn
    obtain ⟨mid, hmid, hvisit⟩ := processBlock_eq_ok.mp hvisited.visit
    have hinsns : AddsKinds (fun kind => kind.Located ∧ kind.Listed S)
        (State.entering g (σ n) b) mid :=
      (processInsns_addsKinds hmid).mono fun kind hk => ⟨hk.located, hk.listed⟩
    have hall : AddsKinds (fun kind => kind.Located ∧ kind.Listed S)
        (State.entering g (σ n) b) result := by
      rcases hvisit with ⟨_, hreturns⟩ | ⟨_, rfl⟩
      · exact hinsns.trans
          ((returnSinks_addsKinds hreturns).mono fun kind hk => ⟨hk.located, hk.listed⟩)
      · exact hinsns
    obtain ⟨new, hnew, hkinds⟩ := hall
    rw [hvisited.heap, hnew]
    intro node hnode
    exact (List.mem_append.mp hnode).elim (ih (by omega) node) (hkinds node)

/-! ### A property that is handed on to inputs -/

section
variable {P : NodeKind → Prop} {S : Subject} {H : HashOrder} {endsInCall : Bool} {pc count : Nat}
  {st st' : BlockState}

theorem AddsKinds.closed (h : AddsKinds (fun kind => ¬ P kind) st st') (hc : st.heap.Closed P) :
    st'.heap.Closed P :=
  hc.extend h.heap_isPrefix fun _ _ hx hnode hP => absurd hP (h.kind hx hnode)

/-- Instructions whose nodes have the property, in a context of definitions that have it. -/
theorem processInsns_closed (h : processInsns S H endsInCall count pc st = .ok st')
    (hP : ∀ kind : NodeKind, kind.OfInsns S pc count → P kind) (hc : st.heap.Closed P)
    (hholds : ∀ x, st.Holds x → st.heap.Has P x) :
    st'.heap.Closed P ∧ ∀ x, st'.Holds x → st'.heap.Has P x := by
  have hext := processInsns_extends (fun _ : Unit => pc) (fun _ => endsInCall) (b := ()) h
  have hmade : ∀ x, Made st st' x → st'.heap.Has P x :=
    fun x hx => ((processInsns_addsKinds h).mono hP).has hx
  have hor : ∀ x, st.Holds x ∨ Made st st' x → st'.heap.Has P x := by
    intro x hx
    rcases hx with hx | hx
    · exact (hholds x hx).mono hext.heap_isPrefix
    · exact hmade x hx
  refine ⟨hc.extend hext.heap_isPrefix fun x node hx hnode _ y hy => ?_, fun x hx => ?_⟩
  · exact hor y ((hext.node hx hnode).2 y hy)
  · exact hor x (hext.holds hx)

end

/-- The property is handed on to inputs, and the definitions at the end of the blocks
`inside` have it. -/
structure State.Closed (P : NodeKind → Prop) (inside : Nat → Prop) (st : State) : Prop where
  heap : st.heap.Closed P
  context : ∀ b, inside b → ∀ s, ∀ x ∈ (st.context b).definition s, st.heap.Has P x

/-- **A property of the nodes of some blocks, which lead only to each other, is handed on
to inputs at every step of the analysis.** -/
theorem Trace.closed {P : NodeKind → Prop} {inside : Nat → Prop} {S : Subject} {H : HashOrder}
    {g : ControlFlowGraph} {σ : Nat → State} {N n : Nat} (h : Trace S H g σ N) (hw : g.WellFormed)
    (hinside : ∀ b x, g.Internal b x → inside b →
      ∀ kind : NodeKind, kind.OfInsns S x.start (x.stop + 1 - x.start) → P kind)
    (houtside : ∀ b x, g.Internal b x → ¬ inside b → g.succ b = [] ∧
      ∀ kind : NodeKind, kind.OfInsns S x.start (x.stop + 1 - x.start) → ¬ P kind)
    (hreturns : ∀ b x, g.Internal b x → ∀ kind : NodeKind, kind.OfReturns S x.stop → ¬ P kind)
    (hn : n ≤ N) : (σ n).Closed P inside := by
  induction n with
  | zero =>
    obtain ⟨worklist, _, hinit⟩ := h.initial
    rw [hinit]
    refine ⟨fun x node hx => by simp [initialState] at hx, fun b _ s x hx => ?_⟩
    rw [context_initialState] at hx
    simp at hx
  | succ n ih =>
    have hst := ih (by omega)
    obtain ⟨c, result, hvisited⟩ := h.visited hn
    obtain ⟨block, hblock⟩ :=
      (g.isInternal_iff c).mp (h.internal_of_visits hw hn hvisited.visits)
    have hvisit := hvisited.visit
    rw [ControlFlowGraph.Internal.block_eq hblock] at hvisit
    obtain ⟨mid, hmid, hvisit⟩ := processBlock_eq_ok.mp hvisit
    -- what comes in comes from blocks with successors
    have henter : ∀ x, (State.entering g (σ n) c).Holds x → (σ n).heap.Has P x := by
      intro x hx
      obtain ⟨s, hs⟩ := hx
      obtain ⟨p, hp, hmem⟩ := mem_initBlockContext.mp hs
      refine hst.context p ?_ s x hmem
      by_contra hout
      obtain ⟨y, hy⟩ := (g.isInternal_iff p).mp (hw.internal_of_pred hp)
      have hsucc := hw.mem_pred.mp hp
      rw [(houtside p y hy hout).1] at hsucc
      cases hsucc
    have hmidst : mid.heap.Closed P ∧ (inside c → ∀ x, mid.Holds x → mid.heap.Has P x) := by
      by_cases hin : inside c
      · obtain ⟨hclosed, hholds⟩ := processInsns_closed hmid (hinside c block hblock hin) hst.heap henter
        exact ⟨hclosed, fun _ => hholds⟩
      · refine ⟨AddsKinds.closed ((processInsns_addsKinds hmid).mono ?_) hst.heap,
          fun h => absurd h hin⟩
        exact (houtside c block hblock hin).2
    have hresult : result.heap.Closed P ∧ mid.heap <+: result.heap ∧
        result.flowContext = mid.flowContext := by
      rcases hvisit with ⟨_, hvisit⟩ | ⟨_, rfl⟩
      · have hadds := returnSinks_addsKinds hvisit
        exact ⟨(hadds.mono (hreturns c block hblock)).closed hmidst.1, hadds.heap_isPrefix,
          (returnSinks_adds hvisit).flowContext⟩
      · exact ⟨hmidst.1, List.prefix_refl _, rfl⟩
    refine ⟨hvisited.heap ▸ hresult.1, fun b hb s x hx => ?_⟩
    rw [hvisited.context] at hx
    split at hx
    · rename_i heq
      subst heq
      rw [hresult.2.2] at hx
      rw [hvisited.heap]
      exact (hmidst.2 hb x ⟨s, hx⟩).mono hresult.2.1
    · exact (hst.context b hb s x hx).mono hvisited.heap_isPrefix

end DataFlowAnalysis

end Ppc2cpp
