import Ppc2cpp.Analysis.Machine
import Ppc2cpp.DataFlow.Sinks
import Ppc2cpp.Lib.Matching

/-! The values of the nodes of straight-line code.

A node stands for a value: an entry register for what it holds at first, a result for
what its instruction computes of the values of its inputs (`Denotes`). The analysis of
straight-line code and its execution go side by side: after the same instructions the
definition of a register denotes what the register holds, and the sinks are the stores
and branches (`processInsns_simulates`). -/
namespace Ppc2cpp
open Matching

/-- What a node makes of the values of its inputs. -/
inductive Interprets {Value Memory : Type} (I : Interpretation Value Memory) (S : Subject)
    (m₀ : Machine Value Memory) (heap : Heap) :
    NodeId → List (Operand Value) → Operand Value → Prop where
  | functionInput {x : NodeId} {pc : Nat} {loc : CpuMemoryLocation} {slot : Slot} :
      heap.kind? x = some (.functionInput pc loc) → loc.slot? = some slot →
      Interprets I S m₀ heap x [] (.val (m₀.regs slot))
  | immediate {x : NodeId} {pc i : Nat} {n : Int} : heap.kind? x = some (.immediate pc i n) →
      Interprets I S m₀ heap x [] (.imm n)
  | reference {x : NodeId} {pc i : Nat} {reloc : Relocation} :
      heap.kind? x = some (.reference pc i reloc) →
      Interprets I S m₀ heap x [] (.val (I.reference pc reloc))
  | result {x : NodeId} {pc i : Nat} {loc : CpuMemoryLocation} {operands : List (Operand Value)}
      {opcode : Opcode} {insnUD : InstructionUD} {m : Machine Value Memory}
      {events : List (Event Value)} : heap.kind? x = some (.result pc i loc) →
      S.decode pc = .ok (opcode, insnUD) → I.exec S pc m₀ = .ok (m, events) →
      Interprets I S m₀ heap x operands (.val (I.output pc opcode operands m.memory i))

/-- The value of a node. -/
abbrev Denotes {Value Memory : Type} (I : Interpretation Value Memory) (S : Subject)
    (m₀ : Machine Value Memory) (heap : Heap) : NodeId → Operand Value → Prop :=
  Matching.Value (Interprets I S m₀ heap) heap.inputs

section
variable {Value Memory : Type} {I : Interpretation Value Memory} {S : Subject}
  {m₀ : Machine Value Memory} {heap heap' : Heap}

theorem Denotes.mono (hp : heap <+: heap') {x : NodeId} {v : Operand Value}
    (h : Denotes I S m₀ heap x v) : Denotes I S m₀ heap' x v := by
  refine Matching.Value.mono h fun x vs v hv => ?_
  cases hv with
  | functionInput hx hslot =>
    obtain ⟨hkind, hinputs⟩ := Heap.kind?_of_isPrefix hp hx
    exact ⟨.functionInput hkind hslot, hinputs⟩
  | immediate hx =>
    obtain ⟨hkind, hinputs⟩ := Heap.kind?_of_isPrefix hp hx
    exact ⟨.immediate hkind, hinputs⟩
  | reference hx =>
    obtain ⟨hkind, hinputs⟩ := Heap.kind?_of_isPrefix hp hx
    exact ⟨.reference hkind, hinputs⟩
  | result hx hdecode hexec =>
    obtain ⟨hkind, hinputs⟩ := Heap.kind?_of_isPrefix hp hx
    exact ⟨.result hkind hdecode hexec, hinputs⟩

theorem denotes_all_mono (hp : heap <+: heap') {xs : List NodeId} {vs : List (Operand Value)}
    (h : List.Forall₂ (Denotes I S m₀ heap) xs vs) : List.Forall₂ (Denotes I S m₀ heap') xs vs :=
  h.imp fun _ _ => Denotes.mono hp

end

/-- A sink of an instruction with its operands. No node up to it belongs to a later
instruction. -/
structure SinkOf {Value Memory : Type} (I : Interpretation Value Memory) (S : Subject)
    (m₀ : Machine Value Memory) (heap : Heap) (x : NodeId) (event : Event Value) : Prop where
  kind : heap.kind? x = some (.sink event.pc)
  decoded : ∃ insnUD, S.decode event.pc = .ok (event.opcode, insnUD)
  inputs : List.Forall₂ (Denotes I S m₀ heap) (heap.inputs x) event.operands
  last : ∀ y ≤ x, ∀ kind pc, heap.kind? y = some kind → kind.builtFor = some pc → pc ≤ event.pc

theorem SinkOf.mono {Value Memory : Type} {I : Interpretation Value Memory} {S : Subject}
    {m₀ : Machine Value Memory} {heap heap' : Heap} (hp : heap <+: heap') {x : NodeId}
    {event : Event Value} (h : SinkOf I S m₀ heap x event) : SinkOf I S m₀ heap' x event := by
  obtain ⟨hkind, hinputs⟩ := Heap.kind?_of_isPrefix hp h.kind
  refine ⟨hkind, h.decoded, ?_, fun y hy kind pc hk hpc => ?_⟩
  · rw [hinputs]
    exact denotes_all_mono hp h.inputs
  · have hx : x < heap.length := by
      obtain ⟨node, hnode, _⟩ := Option.map_eq_some_iff.mp h.kind
      exact (List.getElem?_eq_some_iff.mp hnode).1
    refine h.last y hy kind pc ?_ hpc
    rw [← hk, Heap.kind?, Heap.kind?, Heap.getElem?_of_isPrefix hp (Nat.lt_of_le_of_lt hy hx)]

namespace DataFlowAnalysis
open BlockState Interpretation

section
variable {ν : Type} {interp : Heap → NodeId → List ν → ν → Prop}

/-- Nodes without inputs, each with its value. -/
theorem allocAll_values {nodes : List Node} {vs : List ν} (st : BlockState)
    (h : List.Forall₂ (fun (node : Node) v => node.inputs = [] ∧ ∀ heap x,
      Heap.kind? heap x = some node.kind → interp heap x [] v) nodes vs) :
    List.Forall₂ (Matching.Value (interp (st.allocAll nodes).1.heap)
      (st.allocAll nodes).1.heap.inputs) (st.allocAll nodes).2 vs := by
  obtain ⟨hlen, hget⟩ := List.forall₂_iff_get.mp h
  refine List.forall₂_iff_get.mpr ⟨by simp [allocAll, hlen], fun i hi hi' => ?_⟩
  have hnode : i < nodes.length := by simpa [allocAll] using hi
  obtain ⟨hinputs, hinterp⟩ := hget i hnode hi'
  have hx : (st.allocAll nodes).1.heap[st.heap.length + i]? = some nodes[i] := by
    simp [allocAll, hnode]
  have hrange : (st.allocAll nodes).2.get ⟨i, hi⟩ = st.heap.length + i := by
    simp [allocAll]
  rw [hrange]
  have hnone : (st.allocAll nodes).1.heap.inputs (st.heap.length + i) = [] := by
    rw [Heap.inputs, hx]
    exact hinputs
  refine Matching.value_of_leaf hnone (hinterp _ _ ?_)
  rw [Heap.kind?, hx]
  rfl

/-- The nodes of the references and the immediates of an instruction have the values that
nodes of these kinds have. -/
theorem constantNodes_values {pc : Nat} {insnUD : InstructionUD} {reference : Relocation → ν}
    {immediate : Int → ν} (st : BlockState)
    (hreference : ∀ heap x i, ∀ reloc ∈ insnUD.refs,
      Heap.kind? heap x = some (.reference pc i reloc) → interp heap x [] (reference reloc))
    (himmediate : ∀ heap x i imm, Heap.kind? heap x = some (.immediate pc i imm) →
      interp heap x [] (immediate imm)) :
    List.Forall₂ (Matching.Value (interp (st.allocAll (constantNodes pc insnUD)).1.heap)
        (st.allocAll (constantNodes pc insnUD)).1.heap.inputs)
      (st.allocAll (constantNodes pc insnUD)).2
      (insnUD.refs.map reference ++ insnUD.imms.map immediate) := by
  refine allocAll_values st (List.rel_append ?_ ?_)
  · refine List.forall₂_iff_get.mpr ⟨by simp, fun i hi hi' => ?_⟩
    simp only [List.get_eq_getElem, List.getElem_map, List.getElem_mapIdx]
    exact ⟨trivial, fun heap x hx => hreference heap x i _ (List.getElem_mem _) hx⟩
  · refine List.forall₂_iff_get.mpr ⟨by simp, fun i hi hi' => ?_⟩
    simp only [List.get_eq_getElem, List.getElem_map, List.getElem_mapIdx]
    exact ⟨trivial, fun heap x hx => himmediate heap x i _ hx⟩

end

section
variable {Value Memory : Type} (I : Interpretation Value Memory) (S : Subject)
  (m₀ : Machine Value Memory)

/-- The definition of a register denotes what the register holds; a register without a
definition holds what it held at first. -/
def RegsDenoted (st : BlockState) (regs : Slot → Value) : Prop :=
  ∀ slot, (st.flowContext.definition slot = ∅ ∧ regs slot = m₀.regs slot) ∨
    ∃ x, st.flowContext.definition slot = {x} ∧ Denotes I S m₀ st.heap x (.val (regs slot))

/-- The analysis and the execution side by side. -/
structure Simulates (st : BlockState) (m : Machine Value Memory) (events : List (Event Value)) :
    Prop where
  regs : RegsDenoted I S m₀ st m.regs
  sinks : List.Forall₂ (SinkOf I S m₀ st.heap) st.blockSinks events

end

section
variable {Value Memory : Type} {I : Interpretation Value Memory} {S : Subject}
  {m₀ : Machine Value Memory} {H : HashOrder} {pc : Nat} {st st' : BlockState}
  {regs : Slot → Value}

theorem RegsDenoted.mono (h : RegsDenoted I S m₀ st regs) (hp : st.heap <+: st'.heap)
    (hctx : st'.flowContext = st.flowContext) : RegsDenoted I S m₀ st' regs := by
  intro slot
  rw [hctx]
  rcases h slot with hslot | ⟨x, hx, hdenotes⟩
  · exact .inl hslot
  · exact .inr ⟨x, hx, hdenotes.mono hp⟩

/-! ### The operands -/

theorem RegsDenoted.undisturbed (h : RegsDenoted I S m₀ st regs) (h' : Undisturbed st st') :
    RegsDenoted I S m₀ st' regs :=
  h.mono h'.heap h'.flowContext

/-- The node of a register denotes what the register holds. -/
theorem inputNode_denotes {loc : CpuMemoryLocation} {x : NodeId} (hregs : RegsDenoted I S m₀ st regs)
    (h : inputNode H pc loc st = .ok (st', x)) :
    Undisturbed st st' ∧ ∃ slot, slotOf loc = .ok slot ∧
      Denotes I S m₀ st'.heap x (.val (regs slot)) := by
  have hsame := inputNode_undisturbed h
  obtain ⟨_, _, _, slot, hslot, hstands⟩ := inputNode_spec h
  refine ⟨hsame, slot, slotOf_eq_ok.mpr hslot, ?_⟩
  rcases hregs slot with ⟨hnone, hentry⟩ | ⟨y, hy, hdenotes⟩
  · cases hstands with
    | functionInput _ hx =>
      have hnone : st'.heap.inputs x = [] := by
        rw [Heap.inputs, hx]
        rfl
      refine value_of_leaf hnone ?_
      rw [hentry]
      exact .functionInput (by rw [Heap.kind?, hx]; rfl) hslot
    | definition hd => simp [hnone] at hd
    | phi _ hcard => simp [hnone] at hcard
  · cases hstands with
    | functionInput hd => simp [hy] at hd
    | definition hd =>
      obtain rfl := Finset.singleton_injective (hy.symm.trans hd)
      exact hdenotes.mono hsame.heap
    | phi _ hcard => simp [hy] at hcard

theorem inputNodes_denotes {locs : List CpuMemoryLocation} {xs : List NodeId}
    (hregs : RegsDenoted I S m₀ st regs) (h : inputNodes H pc locs st = .ok (st', xs)) :
    Undisturbed st st' ∧ ∃ values, readRegs regs locs = .ok values ∧
      List.Forall₂ (Denotes I S m₀ st'.heap) xs values := by
  induction locs generalizing st xs with
  | nil =>
    rw [inputNodes] at h
    cases h
    exact ⟨⟨List.prefix_refl _, rfl, rfl⟩, [], rfl, .nil⟩
  | cons loc rest ih =>
    simp only [inputNodes, bind_eq_ok, Prod.exists] at h
    obtain ⟨st₁, x, hx, st₂, xs, hxs, h⟩ := h
    cases h
    obtain ⟨hsame, slot, hslot, hdenotes⟩ := inputNode_denotes hregs hx
    obtain ⟨hsame', values, hvalues, hrest⟩ := ih (hregs.undisturbed hsame) hxs
    refine ⟨hsame.trans hsame', .val (regs slot) :: values, ?_, .cons (hdenotes.mono hsame'.heap) hrest⟩
    rw [readRegs, hslot, hvalues]
    rfl

/-- **The inputs of an instruction denote its operands.** -/
theorem insnInputs_denotes {insnUD : InstructionUD} {xs : List NodeId}
    (hregs : RegsDenoted I S m₀ st regs) (h : insnInputs H pc insnUD st = .ok (st', xs)) :
    Undisturbed st st' ∧ ∃ operands, I.operands pc insnUD regs = .ok operands ∧
      List.Forall₂ (Denotes I S m₀ st'.heap) xs operands := by
  obtain ⟨opVars, hops, rfl⟩ := insnInputs_eq_ok.mp h
  have hsame := allocAll_undisturbed st (constantNodes pc insnUD)
  obtain ⟨hsame', values, hvalues, hregNodes⟩ := inputNodes_denotes (hregs.undisturbed hsame) hops
  refine ⟨hsame.trans hsame', _, by rw [operands, hvalues]; rfl, ?_⟩
  exact List.rel_append (denotes_all_mono hsame'.heap (constantNodes_values st
    (fun _ _ _ _ _ hx => .reference hx) fun _ _ _ _ hx => .immediate hx)) hregNodes

/-! ### The outputs -/

/-- The nodes of the outputs denote what the instruction writes. -/
theorem defineOutputs_denotes {xs : List NodeId} {operands : List (Operand Value)}
    {m : Machine Value Memory} {events : List (Event Value)}
    {opcode : Opcode} {insnUD : InstructionUD} (hdecode : S.decode pc = .ok (opcode, insnUD))
    (hexec : I.exec S pc m₀ = .ok (m, events)) {i : Nat} {outputs : List CpuMemoryLocation}
    (hregs : RegsDenoted I S m₀ st regs)
    (hxs : List.Forall₂ (Denotes I S m₀ st.heap) xs operands)
    (h : forSlots (fun i loc slot st => st.define slot ⟨.result pc i loc, xs⟩) i outputs st =
      .ok st') :
    st.heap <+: st'.heap ∧ st'.blockSinks = st.blockSinks ∧ ∃ regs',
      writeRegs (I.output pc opcode operands m.memory) i outputs regs = .ok regs' ∧
      RegsDenoted I S m₀ st' regs' := by
  induction outputs generalizing i st regs with
  | nil =>
    rw [forSlots] at h
    cases h
    exact ⟨List.prefix_refl _, rfl, regs, rfl, hregs⟩
  | cons loc rest ih =>
    rw [forSlots, bind_eq_ok] at h
    obtain ⟨slot, hslot, h⟩ := h
    set mid := st.define slot ⟨.result pc i loc, xs⟩ with hmid
    have hheap : st.heap <+: mid.heap := st.prefix_define _ _
    have hresult : Denotes I S m₀ mid.heap st.heap.length
        (.val (I.output pc opcode operands m.memory i)) := by
      refine value_of_forall₂ ?_ (.result (st.kind?_define _ _) hdecode hexec)
      rw [hmid, st.inputs_define]
      exact denotes_all_mono hheap hxs
    have hregs' : RegsDenoted I S m₀ mid
        fun s => if s = slot then I.output pc opcode operands m.memory i else regs s := by
      intro s
      rw [hmid, st.definition_define]
      by_cases hs : s = slot
      · refine .inr ⟨st.heap.length, ?_, ?_⟩
        · simp [hs]
        · simpa [hs] using hresult
      · rw [if_neg (Ne.symm hs)]
        simp only [if_neg hs]
        rcases hregs s with hnone | ⟨x, hx, hdenotes⟩
        · exact .inl hnone
        · exact .inr ⟨x, hx, hdenotes.mono hheap⟩
    obtain ⟨hheap', hsinks, regs', hwrite, hdenoted⟩ :=
      ih hregs' (denotes_all_mono hheap hxs) h
    refine ⟨hheap.trans hheap', hsinks, regs', ?_, hdenoted⟩
    rw [writeRegs, hslot]
    exact hwrite

/-! ### Instructions -/

/-- The last piece of an instruction that is not a call. -/
theorem processInsn_parts (h : processInsn S H false pc st = .ok st') :
    ∃ opcode insnUD st₁ xs st₂, S.decode pc = .ok (opcode, insnUD) ∧
      insnInputs H pc insnUD st = .ok (st₁, xs) ∧
      defineOutputs pc xs insnUD.outputs st₁ = .ok st₂ ∧
      st' = if opcode.opcode ∈ storeInsn ∨ isBranch (S.insn pc) = true then
        st₂.pushSink ⟨.sink pc, xs⟩ else st₂ := by
  simp only [processInsn, bind_eq_ok, Prod.exists] at h
  obtain ⟨opcode, insnUD, hdecode, st₁, xs, hinputs, st₂, houtputs, h⟩ := h
  refine ⟨opcode, insnUD, st₁, xs, st₂, hdecode, hinputs, houtputs, ?_⟩
  by_cases hstore : opcode.opcode ∈ storeInsn
  · rw [if_pos hstore] at h
    rw [if_pos (.inl hstore)]
    exact (Except.ok.inj h).symm
  · rw [if_neg hstore] at h
    by_cases hbranch : isBranch (S.insn pc) = true
    · rw [if_pos hbranch] at h
      rw [if_pos (.inr hbranch)]
      exact (Except.ok.inj h).symm
    · rw [if_neg hbranch] at h
      rw [if_neg (not_or.mpr ⟨hstore, hbranch⟩)]
      exact (Except.ok.inj h).symm

/-- **One instruction, analysed and executed.** -/
theorem processInsn_simulates {m : Machine Value Memory} {events : List (Event Value)}
    (hexec : I.exec S pc m₀ = .ok (m, events)) (hsim : Simulates I S m₀ st m events)
    (h : processInsn S H false pc st = .ok st')
    (hlast : ∀ y kind p, st'.heap.kind? y = some kind → kind.builtFor = some p → p ≤ pc) :
    ∃ m' last, I.step S pc m = .ok (m', last) ∧ Simulates I S m₀ st' m' (events ++ last) := by
  obtain ⟨opcode, insnUD, st₁, xs, st₂, hdecode, hinputs, houtputs, rfl⟩ := processInsn_parts h
  obtain ⟨hsame, operands, hoperands, hxs⟩ := insnInputs_denotes hsim.regs hinputs
  obtain ⟨hheap, hsinks, regs', hwrite, hregs⟩ :=
    defineOutputs_denotes hdecode hexec (hsim.regs.undisturbed hsame) hxs houtputs
  have hold := hsim.sinks.imp fun _ _ hx => SinkOf.mono (hsame.heap.trans hheap) hx
  rw [← hsame.blockSinks, ← hsinks] at hold
  refine ⟨_, _, step_eq_ok.mpr ⟨_, _, operands, regs', hdecode, hoperands, hwrite, rfl, rfl⟩, ?_⟩
  by_cases hsink : opcode.opcode ∈ storeInsn ∨ isBranch (S.insn pc) = true
  · rw [if_pos hsink] at hlast
    rw [if_pos hsink, if_pos hsink]
    have hpush : st₂.heap <+: (st₂.pushSink ⟨.sink pc, xs⟩).heap := List.prefix_append _ _
    have hnew : (st₂.pushSink ⟨.sink pc, xs⟩).heap[st₂.heap.length]? = some ⟨.sink pc, xs⟩ := by
      simp [pushSink]
    refine ⟨hregs.mono hpush rfl, List.rel_append (hold.imp fun _ _ => SinkOf.mono hpush) ?_⟩
    refine .cons ⟨by rw [Heap.kind?, hnew]; rfl, ⟨insnUD, hdecode⟩, ?_, fun y _ => hlast y⟩ .nil
    rw [Heap.inputs, hnew]
    exact denotes_all_mono (hheap.trans hpush) hxs
  · rw [if_neg hsink, if_neg hsink, List.append_nil]
    exact ⟨hregs, hold⟩

/-- **The first instructions of straight-line code, analysed and executed.** -/
theorem processInsns_simulates {count : Nat}
    (h : processInsns S H false count 0 ⟨[], {}, []⟩ = .ok st) :
    ∃ m events, I.exec S count m₀ = .ok (m, events) ∧ Simulates I S m₀ st m events := by
  induction count generalizing st with
  | zero =>
    rw [processInsns] at h
    cases h
    exact ⟨m₀, [], rfl, fun slot => .inl ⟨rfl, rfl⟩, .nil⟩
  | succ count ih =>
    obtain ⟨mid, hmid, hinsn⟩ := processInsns_split h
    rw [processInsns_one, Nat.zero_add] at hinsn
    obtain ⟨m, events, hexec, hsim⟩ := ih hmid
    have hlast : ∀ y kind p, st.heap.kind? y = some kind → kind.builtFor = some p → p ≤ count := by
      intro y kind p hkind hp
      obtain ⟨node, hnode, rfl⟩ := Option.map_eq_some_iff.mp hkind
      obtain ⟨n, hn, hpc, _⟩ := processInsns_node h (Nat.zero_le y) hnode hp
      omega
    obtain ⟨m', last, hstep, hsim'⟩ := processInsn_simulates hexec hsim hinsn hlast
    exact ⟨m', events ++ last, exec_succ.mpr ⟨m, events, last, hexec, hstep, rfl⟩, hsim'⟩

end

end DataFlowAnalysis

end Ppc2cpp
