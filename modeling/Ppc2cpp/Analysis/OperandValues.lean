import Ppc2cpp.Analysis.Registers
import Ppc2cpp.ControlFlow.Partition
import Ppc2cpp.DataFlow.EntryValues
import Ppc2cpp.DataFlow.Adequacy

/-! The operands an instruction reads and the nodes that stand for them.

Where the graph is adequate and no value of the entry is masked, the inputs of every node
that a sink depends on stand for the operands the instruction reads each time it is
executed: an immediate or a reference for itself, and the node of a register for the
definitions of it that reach the instruction (`Reads`). -/
namespace Ppc2cpp
open GenKill Matching ControlFlowGraph DataFlowAnalysis

/-- A function whose graphs say what it does: its blocks partition the code and none ends
in a call, the inputs of the nodes a sink depends on are the definitions that reach, and no
instruction reads a register that may still hold its value from the entry although a
definition reaches, which masks that value. A register that is carried round a loop into a
sink is not covered: the graph of such a function is not adequate. -/
structure Analysed.Trusted (A : Analysed) : Prop where
  analysable : A.subject.Analysable
  callFree : A.cfg.CallFree
  partitioned : A.cfg.Partitioned
  adequate : Adequate A.subject A.cfg A.trace A.steps
  unmasked : Unmasked A.subject A.cfg

namespace Interpretation
variable {Value Memory : Type} {I : Interpretation Value Memory}

theorem readRegs_eq_ok {regs : Slot → Value} {locs : List CpuMemoryLocation}
    {values : List (Operand Value)} : readRegs regs locs = .ok values ↔
      List.Forall₂ (fun loc v => ∃ slot, loc.slot? = some slot ∧ v = .val (regs slot)) locs values := by
  induction locs generalizing values with
  | nil =>
    rw [readRegs, List.forall₂_nil_left_iff, Except.ok.injEq]
    exact eq_comm
  | cons loc rest ih =>
    simp only [readRegs, bind_eq_ok, slotOf_eq_ok, ih, List.forall₂_cons_left_iff]
    constructor
    · intro h
      obtain ⟨slot, hslot, vs, hvs, h⟩ := h
      cases h
      exact ⟨_, vs, ⟨slot, hslot, rfl⟩, hvs, rfl⟩
    · intro h
      obtain ⟨_, vs, ⟨slot, hslot, rfl⟩, hvs, rfl⟩ := h
      exact ⟨slot, hslot, vs, hvs, rfl⟩

theorem operands_eq_ok {pc : Nat} {insnUD : InstructionUD} {regs : Slot → Value}
    {operands : List (Operand Value)} : I.operands pc insnUD regs = .ok operands ↔
      ∃ values, readRegs regs insnUD.inputs = .ok values ∧
        operands = insnUD.refs.map (fun reloc => .val (I.reference pc reloc)) ++
          insnUD.imms.map .imm ++ values := by
  simp only [Interpretation.operands, bind_eq_ok]
  exact exists_congr fun values => and_congr_right fun _ =>
    ⟨fun h => (Except.ok.inj h).symm, fun h => congrArg Except.ok h.symm⟩

end Interpretation

theorem DataFlowAnalysis.inputNodes_length {H : HashOrder} {pc : Nat} {st st' : BlockState}
    {locs : List CpuMemoryLocation} {xs : List NodeId} (h : inputNodes H pc locs st = .ok (st', xs)) :
    xs.length = locs.length := by
  induction locs generalizing st xs with
  | nil =>
    cases h
    rfl
  | cons loc rest ih =>
    simp only [inputNodes, bind_eq_ok, Prod.exists] at h
    obtain ⟨st₁, x, _, st₂, xs, hxs, h⟩ := h
    cases h
    rw [List.length_cons, List.length_cons, ih hxs]

namespace Subject
variable (S : Subject) (g : ControlFlowGraph) (slot : Slot) (d b k : Nat)

/-- The definition by the instruction `d` is there `k` instructions into a block. -/
def ReachesPoint : Prop :=
  BeforeFrom (fun c => Reaches g.Edge (S.blockEffectAt g slot) d c) g.Edge g.startOf
    (S.effectAt g slot) d b k

variable {S g slot d b k}

theorem reachesInsn_iff (hw : g.WellFormed) (hk : g.startOf b + k ≤ g.stopOf b) :
    S.ReachesInsn g slot d b (g.startOf b + k) ↔ S.ReachesPoint g slot d b k := by
  rw [ReachesInsn, reachesBefore_point hk]
  simp only [reaches_block_iff hw.startOf_le]
  rfl

/-- What is there where the block has left the element alone came into the block. -/
theorem reachesPoint_of_pass (hpass : prefixEffect g.startOf (S.effectAt g slot) b k = .pass) :
    S.ReachesPoint g slot d b k ↔ ReachesBefore g.Edge (S.blockEffectAt g slot) d b := by
  rw [ReachesPoint, BeforeFrom, hpass]
  simp only [reduceCtorEq, false_or, true_and]
  rfl

theorem reachesPoint_of_gen {e : Nat}
    (hgen : prefixEffect g.startOf (S.effectAt g slot) b k = .gen e) :
    S.ReachesPoint g slot d b k ↔ d = e := by
  rw [ReachesPoint, BeforeFrom, hgen]
  simp [eq_comm]

end Subject

namespace Analysed
variable {Value Memory : Type} (A : Analysed) (reference : Relocation → Value)

/-- A reference or an immediate operand of an instruction stands for itself. -/
def Constant (reference : Relocation → Value) (pc : Nat) (heap : Heap) (x : NodeId)
    (_ : List (Operand Value)) (v : Operand Value) : Prop :=
  (∃ i n, heap.kind? x = some (.immediate pc i n) ∧ v = .imm n) ∨
    ∃ i reloc, heap.kind? x = some (.reference pc i reloc) ∧ v = .val (reference reloc)

/-- The definitions of a storage element that are there `k` instructions into the block `b`. -/
structure Reaching (b k : Nat) (slot : Slot) (d : Definition) : Prop where
  defines : ∀ z ∈ d, Defines A.subject A.dfg.heap slot z
  sites : ∀ i, (∃ z ∈ d, A.dfg.heap.index z = i) ↔ A.subject.ReachesPoint A.cfg slot i b k

/-- There are definitions `k` instructions into the block `b`, but the value at the entry
can come there as well. -/
def Masked (b k : Nat) (slot : Slot) : Prop :=
  (Clear A.cfg.Edge (A.subject.blockEffectAt A.cfg slot) 0 b ∧
      prefixEffect A.cfg.startOf (A.subject.effectAt A.cfg slot) b k = .pass) ∧
    ∃ i, A.subject.ReachesPoint A.cfg slot i b k

/-- What a node stands for among the operands of the instruction `k` places into the block
`b`. -/
inductive Reads (b k : Nat) (regs : Slot → Value) : NodeId → Operand Value → Prop where
  | immediate {x : NodeId} {pc i : Nat} {n : Int} :
      A.dfg.heap.kind? x = some (.immediate pc i n) → Reads b k regs x (.imm n)
  | reference {x : NodeId} {pc i : Nat} {reloc : Relocation} :
      A.dfg.heap.kind? x = some (.reference pc i reloc) → Reads b k regs x (.val (reference reloc))
  | register {x : NodeId} {loc : CpuMemoryLocation} {slot : Slot} {d : Definition} :
      loc.slot? = some slot → Stands A.dfg.heap d (A.cfg.startOf b + k) loc x →
      A.Reaching b k slot d → ¬ A.Masked b k slot → Reads b k regs x (.val (regs slot))

variable {A reference}

/-- The nodes of references and immediates. -/
theorem reads_constants {b k : Nat} {regs : Slot → Value} {pc : Nat} {insnUD : InstructionUD}
    (st : BlockState) (hp : (st.allocAll (constantNodes pc insnUD)).1.heap <+: A.dfg.heap) :
    List.Forall₂ (A.Reads reference b k regs) (st.allocAll (constantNodes pc insnUD)).2
      (insnUD.refs.map (fun reloc => .val (reference reloc)) ++ insnUD.imms.map .imm) := by
  set mid := (st.allocAll (constantNodes pc insnUD)).1.heap
  have hvalues : List.Forall₂ (Matching.Value (Constant reference pc mid) mid.inputs)
      (st.allocAll (constantNodes pc insnUD)).2
      (insnUD.refs.map (fun reloc => .val (reference reloc)) ++ insnUD.imms.map .imm) :=
    constantNodes_values st (fun _ _ i reloc _ hx => .inr ⟨i, reloc, hx, rfl⟩)
      fun _ _ i n hx => .inl ⟨i, n, hx, rfl⟩
  refine hvalues.imp fun x v hv => ?_
  obtain ⟨_, _, hkind⟩ := hv
  rcases hkind with ⟨i, n, hx, rfl⟩ | ⟨i, reloc, hx, rfl⟩
  · exact .immediate (Heap.kind?_of_isPrefix hp hx).1
  · exact .reference (Heap.kind?_of_isPrefix hp hx).1

variable {n b k : Nat} {regs : Slot → Value} {x : NodeId} {opcode : Opcode}
  {insnUD : InstructionUD} {loc : CpuMemoryLocation}

variable (reference regs) in
/-- The node of a register operand. -/
theorem Trusted.reads_register (h : A.Trusted) (hn : n < A.steps)
    (hmade : MadeFor A.cfg A.trace n b k x) (hx : DependedOn A.dfg x)
    (hdecode : A.subject.decode (A.cfg.startOf b + k) = .ok (opcode, insnUD)) {j : Nat}
    (hj : insnUD.inputs[j]? = some loc) :
    ∃ slot y, loc.slot? = some slot ∧
      (A.dfg.heap.inputs x)[operandBase insnUD + j]? = some y ∧
      A.Reads reference b k regs y (.val (regs slot)) := by
  have hw := A.wellFormed
  have hresult := A.result
  obtain ⟨v, hinputs⟩ := A.isTrace.inputs_of_madeFor hn hmade
  obtain ⟨_, rfl⟩ := Prod.mk.inj (Except.ok.inj (hdecode.symm.trans v.decoded))
  obtain ⟨slot, y, hslot, hy, hstands⟩ := A.isTrace.operand hn hmade.visits hmade.within v hj
  obtain ⟨y', hy', hfeeding⟩ := h.adequate n b k x hn hmade (hresult ▸ hx) _ _ v.decoded j loc slot
    hj hslot
  rw [hinputs] at hy'
  obtain rfl := Option.some.inj (hy.symm.trans hy')
  rw [hresult] at hinputs hstands hfeeding
  have hdefines : ∀ z ∈ v.before.flowContext.definition slot,
      Defines A.subject A.dfg.heap slot z := fun z hz =>
    hresult ▸ A.isTrace.defines_before h.callFree hn hmade.visits hmade.within v hz
  have hdefs : ∀ z ∈ v.before.flowContext.definition slot, A.dfg.heap.IsDefinition z := fun z hz =>
    hresult ▸ A.isTrace.defined_before hn hmade.visits hmade.within v hz
  refine ⟨slot, y, hslot, by rw [hinputs]; exact hy, ?_⟩
  refine .register hslot hstands ⟨hdefines, fun i => ?_⟩ fun hmasked => ?_
  · rw [← Subject.reachesInsn_iff hw hmade.within, ← hfeeding i, hstands.feeding_eq hdefs]
  · have hb := A.isTrace.internal_of_visits hw hn hmade.visits
    obtain ⟨hclear, i, hreach⟩ := hmasked
    exact h.unmasked b hb _ (Nat.le_add_right _ _) hmade.within _ _ v.decoded loc
      (List.mem_of_getElem? hj) slot hslot ⟨(clear_point_iff hw.startOf_le hmade.within).mpr hclear,
        i, (Subject.reachesInsn_iff hw hmade.within).mpr hreach⟩

/-- **The inputs of a node stand for the operands of its instruction.** -/
theorem Trusted.reads_inputs (h : A.Trusted) (hn : n < A.steps)
    (hmade : MadeFor A.cfg A.trace n b k x) (hx : DependedOn A.dfg x)
    (hdecode : A.subject.decode (A.cfg.startOf b + k) = .ok (opcode, insnUD))
    {values : List (Operand Value)} (hvalues : Interpretation.readRegs regs insnUD.inputs = .ok values) :
    List.Forall₂ (A.Reads reference b k regs) (A.dfg.heap.inputs x)
      (insnUD.refs.map (fun reloc => .val (reference reloc)) ++ insnUD.imms.map .imm ++ values) := by
  obtain ⟨v, hinputs⟩ := A.isTrace.inputs_of_madeFor hn hmade
  obtain ⟨_, rfl⟩ := Prod.mk.inj (Except.ok.inj (hdecode.symm.trans v.decoded))
  obtain ⟨w, hpre⟩ := A.isTrace.insnAt hn hmade.visits hmade.within
  obtain rfl := v.unique w
  obtain ⟨opVars, hops, hnodes⟩ := insnInputs_eq_ok.mp v.built
  have hfinal : v.withInputs.heap <+: A.dfg.heap :=
    A.result ▸ hpre.trans (A.isTrace.heap_isPrefix (show n + 1 ≤ A.steps by omega) (le_refl _))
  rw [A.result] at hinputs
  rw [hinputs, ← hnodes]
  refine List.rel_append (reads_constants v.before
    ((inputNodes_undisturbed hops).heap.trans hfinal)) ?_
  obtain ⟨hlen, hget⟩ := List.forall₂_iff_get.mp (Interpretation.readRegs_eq_ok.mp hvalues)
  have hbase : (v.before.allocAll (constantNodes (A.cfg.startOf b + k) v.insnUD)).2.length =
      operandBase v.insnUD := by simp [BlockState.allocAll]
  refine List.forall₂_iff_get.mpr ⟨(inputNodes_length hops).trans hlen, fun j hj hj' => ?_⟩
  obtain ⟨slot, y, hslot, hy, hreads⟩ := h.reads_register reference regs hn hmade
    hx v.decoded (List.getElem?_eq_getElem (show j < v.insnUD.inputs.length by omega))
  obtain ⟨slot', hslot', hvalue⟩ := hget j (by omega) hj'
  obtain rfl := Option.some.inj (hslot.symm.trans hslot')
  rw [hinputs, ← hnodes, List.getElem?_append_right (by omega), hbase, Nat.add_sub_cancel_left,
    List.getElem?_eq_getElem hj, Option.some.injEq] at hy
  rw [List.get_eq_getElem, hy, hvalue]
  exact hreads

end Analysed
end Ppc2cpp
