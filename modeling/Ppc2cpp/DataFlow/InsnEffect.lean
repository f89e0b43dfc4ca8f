import Ppc2cpp.DataFlow.Analysis
import Ppc2cpp.Lib.GenKill

/-! What one instruction does to the context and to the nodes.

`insnEffect` reads it off the instruction alone: an output operand defines its storage
element, and a call then kills the volatile elements and defines the return values.
`Extends` says what one piece of the analysis did to a state: the old nodes stay, every
new node is of one kind, and each storage element went the way its effect says. It
composes, and every loop and every instruction satisfies it (`processInsn_extends`). -/
namespace Ppc2cpp
open GenKill

namespace Heap
variable {heap heap' : Heap}

/-- The instruction a definition at an address belongs to. -/
def defines (heap : Heap) (x : NodeId) : Option Nat := (heap.kind? x).bind NodeKind.defines

theorem getElem?_of_isPrefix (h : heap <+: heap') {x : NodeId} (hx : x < heap.length) :
    heap'[x]? = heap[x]? := by
  obtain ⟨new, rfl⟩ := h
  exact List.getElem?_append_left hx

theorem defines_of_isPrefix (h : heap <+: heap') {x : NodeId} (hx : x < heap.length) :
    heap'.defines x = heap.defines x := by
  rw [defines, kind?, getElem?_of_isPrefix h hx]
  rfl

theorem index_of_isPrefix (h : heap <+: heap') {x : NodeId} (hx : x < heap.length) :
    heap'.index x = heap.index x := by
  rw [index, getElem?_of_isPrefix h hx]
  rfl

theorem index_of_defines {x : NodeId} {d : Nat} (h : heap.defines x = some d) :
    heap.index x = d := by
  unfold defines kind? at h
  unfold index
  cases hx : heap[x]? with
  | none => simp [hx] at h
  | some node =>
    simp only [hx, Option.map_some, Option.bind_some] at h
    show node.kind.index = d
    cases hk : node.kind <;> simp_all [NodeKind.defines, NodeKind.index]

/-- The address is that of a node that defines something. -/
def IsDefinition (heap : Heap) (x : NodeId) : Prop := ∃ d, heap.defines x = some d

theorem IsDefinition.lt {x : NodeId} (h : heap.IsDefinition x) : x < heap.length := by
  obtain ⟨d, hd⟩ := h
  unfold defines kind? at hd
  by_contra hge
  rw [List.getElem?_eq_none (Nat.le_of_not_lt hge)] at hd
  cases hd

theorem IsDefinition.mono {x : NodeId} (h : heap.IsDefinition x) (hp : heap <+: heap') :
    heap'.IsDefinition x := by
  obtain ⟨d, hd⟩ := h
  exact ⟨d, (defines_of_isPrefix hp (IsDefinition.lt ⟨d, hd⟩)).trans hd⟩

end Heap

theorem slotOf_eq_ok {loc : CpuMemoryLocation} {slot : Slot} :
    slotOf loc = .ok slot ↔ loc.slot? = some slot := by
  unfold slotOf
  cases hs : loc.slot? with
  | some s => simp
  | none => by_cases hspr : loc.memspace = .SPR <;> simp [hspr]

/-- The storage elements of a list of locations. -/
def slotsOf (locs : List CpuMemoryLocation) : List Slot := locs.filterMap CpuMemoryLocation.slot?

/-- The same effect on every storage element of a list of locations. -/
def onSlots (locs : List CpuMemoryLocation) (e : Effect Nat) (s : Slot) : Effect Nat :=
  if s ∈ slotsOf locs then e else .pass

/-- A call kills, then defines. -/
def callEffect (pc : Nat) (s : Slot) : Effect Nat :=
  (onSlots killedByCall .kill s).andThen (onSlots definedByCall (.gen pc) s)

/-- What the instruction at `pc` does to a storage element: its output operands, and then
the call, if the instruction is one. -/
def Subject.insnEffect (S : Subject) (endsInCall : Bool) (pc : Nat) (s : Slot) : Effect Nat :=
  match S.decode pc with
  | .ok (opcode, insnUD) =>
    (onSlots insnUD.outputs (.gen pc) s).andThen
      (if opcode.opcode ∉ storeInsn ∧ isBranch (S.insn pc) = true ∧ endsInCall = true then
        callEffect pc s
      else .pass)
  | .error _ => .pass

namespace DataFlowAnalysis

/-! ### From one state to a later one -/

namespace BlockState

/-- A definition that is visible in a state. -/
def Holds (st : BlockState) (x : NodeId) : Prop := ∃ s, x ∈ st.flowContext.definition s

/-- A node allocated between two states. -/
def Made (st st' : BlockState) (x : NodeId) : Prop := st.heap.length ≤ x ∧ x < st'.heap.length

theorem Made.after {st st' st'' : BlockState} {x : NodeId} (h : Made st' st'' x)
    (hle : st.heap.length ≤ st'.heap.length) : Made st st'' x :=
  ⟨hle.trans h.1, h.2⟩

theorem Made.before {st st' st'' : BlockState} {x : NodeId} (h : Made st st' x)
    (hle : st'.heap.length ≤ st''.heap.length) : Made st st'' x :=
  ⟨h.1, lt_of_lt_of_le h.2 hle⟩

/-- What has become of a storage element. -/
def Outcome (st st' : BlockState) (s : Slot) : Effect Nat → Prop
  | .pass => st'.flowContext.definition s = st.flowContext.definition s
  | .kill => st'.flowContext.definition s = ∅
  | .gen d => ∃ x, st'.flowContext.definition s = {x} ∧ Made st st' x ∧ st'.heap.defines x = some d

end BlockState

open BlockState

structure Extends (Q : Node → Prop) (effect : Slot → Effect Nat) (st st' : BlockState) : Prop where
  nodes : ∃ new, st'.heap = st.heap ++ new ∧ ∀ node ∈ new, Q node
  slot : ∀ s, Outcome st st' s (effect s)
  sinks : ∃ new, st'.blockSinks = st.blockSinks ++ new ∧ ∀ x ∈ new, Made st st' x

namespace Extends
variable {Q Q' : Node → Prop} {effect effect' : Slot → Effect Nat} {st st' st'' : BlockState}

theorem heap_isPrefix (h : Extends Q effect st st') : st.heap <+: st'.heap := by
  obtain ⟨new, hnew, _⟩ := h.nodes
  exact ⟨new, hnew.symm⟩

theorem length_le (h : Extends Q effect st st') : st.heap.length ≤ st'.heap.length :=
  h.heap_isPrefix.length_le

theorem node (h : Extends Q effect st st') {x : NodeId} {node : Node} (hx : st.heap.length ≤ x)
    (hnode : st'.heap[x]? = some node) : Q node := by
  obtain ⟨new, hnew, hall⟩ := h.nodes
  rw [hnew, List.getElem?_append_right hx] at hnode
  exact hall node (List.mem_of_getElem? hnode)

theorem mono (h : Extends Q effect st st') (hQ : ∀ node, Q node → Q' node) :
    Extends Q' effect st st' where
  nodes := by
    obtain ⟨new, hnew, hall⟩ := h.nodes
    exact ⟨new, hnew, fun node hmem => hQ node (hall node hmem)⟩
  slot := h.slot
  sinks := h.sinks

theorem congr (h : Extends Q effect st st') (he : ∀ s, effect s = effect' s) :
    Extends Q effect' st st' :=
  (funext he : effect = effect') ▸ h

theorem refl (Q : Node → Prop) (st : BlockState) : Extends Q (fun _ => .pass) st st where
  nodes := ⟨[], by simp, by simp⟩
  slot _ := rfl
  sinks := ⟨[], by simp, by simp⟩

/-- **What one piece did and then another.** -/
theorem andThen (h : Extends Q effect st st') (h' : Extends Q effect' st' st'') :
    Extends Q (fun s => (effect s).andThen (effect' s)) st st'' where
  nodes := by
    obtain ⟨new, hnew, hall⟩ := h.nodes
    obtain ⟨new', hnew', hall'⟩ := h'.nodes
    refine ⟨new ++ new', by rw [hnew', hnew, List.append_assoc], fun node hmem => ?_⟩
    exact (List.mem_append.mp hmem).elim (hall node) (hall' node)
  slot s := by
    have hlast := h'.slot s
    have hle := h.length_le
    cases he : effect' s with
    | kill =>
      rw [he] at hlast
      exact hlast
    | gen d =>
      rw [he] at hlast
      obtain ⟨x, hx, hmade, hd⟩ := hlast
      exact ⟨x, hx, hmade.after hle, hd⟩
    | pass =>
      rw [he] at hlast
      have hfirst := h.slot s
      rw [Effect.andThen_pass]
      have hdef : st''.flowContext.definition s = st'.flowContext.definition s := hlast
      cases he' : effect s with
      | pass =>
        rw [he'] at hfirst
        exact hdef.trans hfirst
      | kill =>
        rw [he'] at hfirst
        exact hdef.trans hfirst
      | gen d =>
        rw [he'] at hfirst
        obtain ⟨x, hx, hmade, hd⟩ := hfirst
        refine ⟨x, hdef.trans hx, hmade.before h'.length_le, ?_⟩
        rw [Heap.defines_of_isPrefix h'.heap_isPrefix hmade.2, hd]
  sinks := by
    obtain ⟨new, hnew, hall⟩ := h.sinks
    obtain ⟨new', hnew', hall'⟩ := h'.sinks
    refine ⟨new ++ new', by rw [hnew', hnew, List.append_assoc], fun x hmem => ?_⟩
    rcases List.mem_append.mp hmem with hx | hx
    · exact (hall x hx).before h'.length_le
    · exact (hall' x hx).after h.length_le

/-- A definition visible afterwards was visible before or is new. -/
theorem holds (h : Extends Q effect st st') {x : NodeId} (hx : st'.Holds x) :
    st.Holds x ∨ Made st st' x := by
  obtain ⟨s, hs⟩ := hx
  have hout := h.slot s
  cases he : effect s with
  | pass =>
    rw [he] at hout
    exact .inl ⟨s, (show _ = _ from hout) ▸ hs⟩
  | kill =>
    rw [he] at hout
    rw [show _ = _ from hout] at hs
    simp at hs
  | gen d =>
    rw [he] at hout
    obtain ⟨y, hy, hmade, _⟩ := hout
    rw [hy, Finset.mem_singleton] at hs
    exact .inr (hs ▸ hmade)

end Extends

/-! ### The loops over operands -/

section
variable {Q : Node → Prop} {st st' : BlockState}

theorem extends_alloc {node : Node} (hQ : Q node) :
    Extends Q (fun _ => .pass) st (st.alloc node).1 where
  nodes := ⟨[node], rfl, by simpa using hQ⟩
  slot _ := rfl
  sinks := ⟨[], by simp [alloc], by simp⟩

theorem extends_allocAll {nodes : List Node} (hQ : ∀ node ∈ nodes, Q node) :
    Extends Q (fun _ => .pass) st (st.allocAll nodes).1 where
  nodes := ⟨nodes, rfl, hQ⟩
  slot _ := rfl
  sinks := ⟨[], by simp [allocAll], by simp⟩

theorem extends_pushSink {node : Node} (hQ : Q node) :
    Extends Q (fun _ => .pass) st (st.pushSink node) where
  nodes := ⟨[node], rfl, by simpa using hQ⟩
  slot _ := rfl
  sinks := ⟨[st.heap.length], rfl, by simp [Made, pushSink]⟩

theorem extends_define {slot : Slot} {node : Node} {d : Nat} (hQ : Q node)
    (hd : node.kind.defines = some d) :
    Extends Q (fun s => if s = slot then .gen d else .pass) st (st.define slot node) where
  nodes := ⟨[node], rfl, by simpa using hQ⟩
  slot s := by
    by_cases hs : s = slot
    · rw [if_pos hs]
      refine ⟨st.heap.length, ?_, by simp [Made, define], ?_⟩
      · simp [define, hs]
      · simp [Heap.defines, Heap.kind?, define, hd]
    · rw [if_neg hs]
      simp [Outcome, define, Ne.symm hs]
  sinks := ⟨[], by simp [define], by simp⟩

theorem extends_kill (slot : Slot) :
    Extends Q (fun s => if s = slot then .kill else .pass) st (st.kill slot) where
  nodes := ⟨[], by simp [kill], by simp⟩
  slot s := by
    by_cases hs : s = slot
    · rw [if_pos hs]
      simp [Outcome, kill, hs]
    · rw [if_neg hs]
      simp [Outcome, kill, Ne.symm hs]
  sinks := ⟨[], by simp [kill], by simp⟩

theorem andThen_self (e : Effect Nat) : e.andThen e = e := by
  cases e <;> rfl

/-- A loop that does the same to every slot. -/
theorem forSlots_extends {e : Effect Nat}
    {body : Nat → CpuMemoryLocation → Slot → BlockState → BlockState}
    (hbody : ∀ i loc slot st,
      Extends Q (fun s => if s = slot then e else .pass) st (body i loc slot st))
    {i : Nat} {locs : List CpuMemoryLocation} (h : forSlots body i locs st = .ok st') :
    Extends Q (onSlots locs e) st st' := by
  induction locs generalizing i st with
  | nil =>
    rw [forSlots, Except.ok.injEq] at h
    subst h
    exact .refl Q st
  | cons loc rest ih =>
    rw [forSlots, bind_eq_ok] at h
    obtain ⟨slot, hslot, h⟩ := h
    rw [slotOf_eq_ok] at hslot
    refine ((hbody i loc slot st).andThen (ih h)).congr fun s => ?_
    have hmem : s ∈ slotsOf (loc :: rest) ↔ s = slot ∨ s ∈ slotsOf rest := by
      simp [slotsOf, hslot]
    unfold onSlots
    by_cases hs : s = slot
    · rw [if_pos hs, if_pos (hmem.mpr (.inl hs))]
      by_cases hr : s ∈ slotsOf rest
      · rw [if_pos hr, andThen_self]
      · rw [if_neg hr, Effect.andThen_pass]
    · simp [hmem, hs]

theorem defineOutputs_extends {pc : Nat} {insnInputs : List NodeId}
    {outputs : List CpuMemoryLocation} (h : defineOutputs pc insnInputs outputs st = .ok st') :
    Extends (fun node => node.kind.builtFor = some pc ∧ node.inputs = insnInputs)
      (onSlots outputs (.gen pc)) st st' :=
  forSlots_extends (fun _ _ _ _ => extends_define ⟨rfl, rfl⟩ rfl) h

theorem processCall_extends {pc : Nat} {insnInputs : List NodeId}
    (h : processCall pc insnInputs st = .ok st') :
    Extends (fun node => node.kind.builtFor = some pc ∧ node.inputs = insnInputs) (callEffect pc)
      st st' := by
  rw [processCall, bind_eq_ok] at h
  obtain ⟨st₁, hkill, hdefine⟩ := h
  exact (forSlots_extends (fun _ _ slot _ => extends_kill slot) hkill).andThen
    (forSlots_extends (fun _ _ _ _ => extends_define ⟨rfl, rfl⟩ rfl) hdefine)

end

/-! ### The inputs of an instruction -/

/-- The node that stands for the value of a register at `pc` where the register has the
definitions `d`. -/
inductive Stands (heap : Heap) (d : Definition) (pc : Nat) (loc : CpuMemoryLocation) (x : NodeId) :
    Prop where
  | functionInput : d = ∅ → heap[x]? = some ⟨.functionInput pc loc, []⟩ → Stands heap d pc loc x
  | definition : d = {x} → Stands heap d pc loc x
  | phi (opVars : List NodeId) : 2 ≤ d.card → heap[x]? = some ⟨.phi pc loc, opVars⟩ →
      (∀ y, y ∈ opVars ↔ y ∈ d) → Stands heap d pc loc x

theorem Stands.mono {heap heap' : Heap} {d : Definition} {pc : Nat} {loc : CpuMemoryLocation}
    {x : NodeId} (h : Stands heap d pc loc x) (hp : heap <+: heap') : Stands heap' d pc loc x := by
  have hold : ∀ {node}, heap[x]? = some node → heap'[x]? = some node := by
    intro node hx
    rw [Heap.getElem?_of_isPrefix hp (List.getElem?_eq_some_iff.mp hx).1, hx]
  cases h with
  | functionInput hd hx => exact .functionInput hd (hold hx)
  | definition hd => exact .definition hd
  | phi opVars hd hx hmem => exact .phi opVars hd (hold hx) hmem

/-- A node that only serves as an input, with definitions that are visible. -/
def Feeds (st : BlockState) (node : Node) : Prop :=
  node.kind.builtFor = none ∧ ∀ y ∈ node.inputs, st.Holds y

section
variable {H : HashOrder} {pc : Nat} {st st' : BlockState}

theorem inputNode_spec {loc : CpuMemoryLocation} {x : NodeId}
    (h : inputNode H pc loc st = .ok (st', x)) :
    Extends (Feeds st) (fun _ => .pass) st st' ∧ st'.flowContext = st.flowContext ∧
      (st.Holds x ∨ Made st st' x) ∧
      ∃ slot, loc.slot? = some slot ∧ Stands st'.heap (st.flowContext.definition slot) pc loc x := by
  rw [inputNode, bind_eq_ok] at h
  obtain ⟨slot, hslot, h⟩ := h
  rw [slotOf_eq_ok] at hslot
  set d := st.flowContext.definition slot with hd
  cases hen : H.enumerate st.heap.length d with
  | nil =>
    simp only [hen] at h
    cases h
    refine ⟨extends_alloc ⟨rfl, by simp⟩, rfl, .inr (by simp [Made]), slot, hslot, ?_⟩
    exact .functionInput (H.enumerate_eq_nil.mp hen) (by simp)
  | cons y ys =>
    cases ys with
    | nil =>
      simp only [hen] at h
      cases h
      have hx := H.enumerate_eq_singleton.mp hen
      exact ⟨.refl _ st, rfl, .inl ⟨slot, by rw [← hd, hx]; exact Finset.mem_singleton_self _⟩,
        slot, hslot, .definition hx⟩
    | cons z zs =>
      simp only [hen] at h
      cases h
      have hmem : ∀ v, v ∈ y :: z :: zs ↔ v ∈ d := fun v => by rw [← hen, H.mem]
      have hcard : 2 ≤ d.card := by
        rw [← H.length_enumerate st.heap.length d, hen]
        simp
      refine ⟨extends_alloc ⟨rfl, fun v hv => ⟨slot, (hmem v).mp hv⟩⟩, rfl,
        .inr (by simp [Made]), slot, hslot, ?_⟩
      exact .phi _ hcard (by simp) hmem

theorem inputNodes_spec {locs : List CpuMemoryLocation} {opVars : List NodeId}
    (h : inputNodes H pc locs st = .ok (st', opVars)) :
    Extends (Feeds st) (fun _ => .pass) st st' ∧ st'.flowContext = st.flowContext ∧
      (∀ x ∈ opVars, st.Holds x ∨ Made st st' x) ∧
      ∀ (k : Nat) loc, locs[k]? = some loc → ∃ slot x, loc.slot? = some slot ∧ opVars[k]? = some x ∧
        Stands st'.heap (st.flowContext.definition slot) pc loc x := by
  induction locs generalizing st opVars with
  | nil =>
    rw [inputNodes] at h
    cases h
    exact ⟨.refl _ _, rfl, by simp, by simp⟩
  | cons loc rest ih =>
    simp only [inputNodes, bind_eq_ok, Prod.exists] at h
    obtain ⟨st₁, x, hx, st₂, xs, hxs, h⟩ := h
    cases h
    obtain ⟨hext, hctx, hsrc, slot, hslot, hstands⟩ := inputNode_spec hx
    obtain ⟨hext', hctx', hsrc', hrest⟩ := ih hxs
    have hholds : ∀ y, st₁.Holds y ↔ st.Holds y := fun y => by unfold Holds; rw [hctx]
    have hfeeds : ∀ node, Feeds st₁ node → Feeds st node :=
      fun node hn => ⟨hn.1, fun y hy => (hholds y).mp (hn.2 y hy)⟩
    refine ⟨hext.andThen (hext'.mono hfeeds), hctx'.trans hctx, ?_, ?_⟩
    · intro y hy
      rcases List.mem_cons.mp hy with rfl | hy
      · exact hsrc.imp_right fun hm => hm.before hext'.length_le
      · exact (hsrc' y hy).imp (hholds y).mp fun hm => hm.after hext.length_le
    · intro k l hk
      cases k with
      | zero =>
        obtain rfl : loc = l := by simpa using hk
        exact ⟨slot, x, hslot, rfl, hstands.mono hext'.heap_isPrefix⟩
      | succ k =>
        rw [← hctx]
        exact hrest k l hk

/-- Number of inputs of an instruction that are not registers. -/
def operandBase (insnUD : InstructionUD) : Nat := insnUD.refs.length + insnUD.imms.length

/-- The nodes of the references and of the immediates of an instruction. -/
def constantNodes (pc : Nat) (insnUD : InstructionUD) : List Node :=
  insnUD.refs.mapIdx (fun i reloc => ⟨.reference pc i reloc, []⟩) ++
    insnUD.imms.mapIdx fun i imm => ⟨.immediate pc i imm, []⟩

@[simp] theorem length_constantNodes (pc : Nat) (insnUD : InstructionUD) :
    (constantNodes pc insnUD).length = operandBase insnUD := by
  simp [constantNodes, operandBase]

theorem mem_constantNodes {insnUD : InstructionUD} {node : Node} :
    node ∈ constantNodes pc insnUD ↔
      (∃ i reloc, insnUD.refs[i]? = some reloc ∧ node = ⟨.reference pc i reloc, []⟩) ∨
      ∃ i imm, insnUD.imms[i]? = some imm ∧ node = ⟨.immediate pc i imm, []⟩ := by
  simp only [constantNodes, List.mem_append, List.mem_mapIdx, List.getElem?_eq_some_iff]
  constructor
  · intro h
    rcases h with ⟨i, hi, hnode⟩ | ⟨i, hi, hnode⟩
    · exact .inl ⟨i, _, ⟨hi, rfl⟩, hnode.symm⟩
    · exact .inr ⟨i, _, ⟨hi, rfl⟩, hnode.symm⟩
  · intro h
    rcases h with ⟨i, _, ⟨hi, rfl⟩, hnode⟩ | ⟨i, _, ⟨hi, rfl⟩, hnode⟩
    · exact .inl ⟨i, hi, hnode.symm⟩
    · exact .inr ⟨i, hi, hnode.symm⟩

/-- What is built for an instruction: the nodes of its references and immediates at once,
and then a node for each register. -/
theorem insnInputs_eq_ok {insnUD : InstructionUD} {nodes : List NodeId} :
    insnInputs H pc insnUD st = .ok (st', nodes) ↔
      ∃ opVars, inputNodes H pc insnUD.inputs (st.allocAll (constantNodes pc insnUD)).1 =
          .ok (st', opVars) ∧
        (st.allocAll (constantNodes pc insnUD)).2 ++ opVars = nodes := by
  simp only [insnInputs, bind_eq_ok, Prod.exists, pure, Except.pure, Except.ok.injEq,
    Prod.mk.injEq, allocAll, constantNodes, List.mapIdx_eq_zipIdx_map, List.append_assoc,
    List.length_append, List.length_map, List.length_zipIdx, ← List.range'_append_1]
  constructor
  · intro h
    obtain ⟨_, opVars, hops, rfl, hnodes⟩ := h
    exact ⟨opVars, hops, hnodes⟩
  · intro h
    obtain ⟨opVars, hops, hnodes⟩ := h
    exact ⟨st', opVars, hops, rfl, hnodes⟩

theorem insnInputs_spec {insnUD : InstructionUD} {nodes : List NodeId}
    (h : insnInputs H pc insnUD st = .ok (st', nodes)) :
    Extends (Feeds st) (fun _ => .pass) st st' ∧ st'.flowContext = st.flowContext ∧
      (∀ x ∈ nodes, st.Holds x ∨ Made st st' x) ∧
      ∀ (k : Nat) loc, insnUD.inputs[k]? = some loc →
        ∃ slot x, loc.slot? = some slot ∧ nodes[operandBase insnUD + k]? = some x ∧
          Stands st'.heap (st.flowContext.definition slot) pc loc x := by
  obtain ⟨opVars, hops, rfl⟩ := insnInputs_eq_ok.mp h
  obtain ⟨hext, hctx, hsrc, hstands⟩ := inputNodes_spec hops
  have hconsts : Extends (Feeds st) (fun _ => .pass) st (st.allocAll (constantNodes pc insnUD)).1 := by
    refine extends_allocAll fun node hn => ?_
    rcases mem_constantNodes.mp hn with ⟨i, reloc, _, rfl⟩ | ⟨i, imm, _, rfl⟩
    · exact ⟨rfl, by simp⟩
    · exact ⟨rfl, by simp⟩
  refine ⟨hconsts.andThen hext, hctx, fun x hx => ?_, fun k loc hk => ?_⟩
  · rcases List.mem_append.mp hx with hx | hx
    · simp only [allocAll, List.mem_range'_1] at hx
      have hmade : Made st (st.allocAll (constantNodes pc insnUD)).1 x :=
        ⟨hx.1, by simpa [allocAll] using hx.2⟩
      exact .inr (hmade.before hext.length_le)
    · exact (hsrc x hx).imp_right fun hm => hm.after hconsts.length_le
  · obtain ⟨slot, x, hslot, hx, hs⟩ := hstands k loc hk
    refine ⟨slot, x, hslot, ?_, hs⟩
    rw [List.getElem?_append_right (by simp [allocAll])]
    simpa [allocAll] using hx

end

/-! ### One instruction -/

/-- **What one instruction does**: it builds its inputs out of visible definitions, and then
nodes with these inputs that define what the instruction defines. -/
theorem processInsn_extends {S : Subject} {H : HashOrder} {endsInCall : Bool} {pc : Nat}
    {st st' : BlockState} (h : processInsn S H endsInCall pc st = .ok st') :
    ∃ opcode insnUD st₁ nodes, S.decode pc = .ok (opcode, insnUD) ∧
      insnInputs H pc insnUD st = .ok (st₁, nodes) ∧
      Extends (fun node => node.kind.builtFor = some pc ∧ node.inputs = nodes)
        (S.insnEffect endsInCall pc) st₁ st' := by
  simp only [processInsn, bind_eq_ok, Prod.exists] at h
  obtain ⟨opcode, insnUD, hdecode, st₁, nodes, hinputs, st₂, houtputs, h⟩ := h
  refine ⟨opcode, insnUD, st₁, nodes, hdecode, hinputs, ?_⟩
  have hout := defineOutputs_extends houtputs
  have hsink : Extends (fun node => node.kind.builtFor = some pc ∧ node.inputs = nodes)
      (onSlots insnUD.outputs (.gen pc)) st₁ (st₂.pushSink ⟨.sink pc, nodes⟩) :=
    hout.andThen (extends_pushSink ⟨rfl, rfl⟩)
  unfold Subject.insnEffect
  simp only [hdecode]
  by_cases hstore : opcode.opcode ∈ storeInsn
  · rw [if_pos hstore] at h
    cases h
    exact hsink.congr fun s => by simp [hstore]
  · rw [if_neg hstore] at h
    by_cases hbranch : isBranch (S.insn pc) = true
    · rw [if_pos hbranch] at h
      by_cases hcall : endsInCall = true
      · rw [if_pos hcall] at h
        exact (hsink.andThen (processCall_extends h)).congr fun s => by
          simp [hstore, hbranch, hcall]
      · rw [if_neg hcall] at h
        cases h
        exact hsink.congr fun s => by simp [hcall]
    · rw [if_neg hbranch] at h
      cases h
      exact hout.congr fun s => by simp [hbranch]

end DataFlowAnalysis

end Ppc2cpp
