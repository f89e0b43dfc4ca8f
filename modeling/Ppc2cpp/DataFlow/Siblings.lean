import Ppc2cpp.DataFlow.Sinks

/-! The nodes an instruction makes together.

An instruction with several outputs makes a node for each, and all of them have the same
inputs; so does a call for each return register. Whatever visits the analysis makes, the
graph has all of the nodes an instruction made if it has one (`Trace.siblings`). -/
namespace Ppc2cpp

namespace DataFlowAnalysis
open BlockState

/-- With a node for an output of an instruction there are those for all its outputs, and
with a node for a return value of a call those for all its return values. -/
structure Siblings (S : Subject) (nodes : List Node) : Prop where
  result : ∀ node ∈ nodes, ∀ pc i loc, node.kind = .result pc i loc →
    ∃ opcode insnUD, S.decode pc = .ok (opcode, insnUD) ∧ insnUD.outputs[i]? = some loc ∧
      ∀ (j : Nat) loc', insnUD.outputs[j]? = some loc' → ⟨.result pc j loc', node.inputs⟩ ∈ nodes
  callReturn : ∀ node ∈ nodes, ∀ pc loc, node.kind = .callReturn pc loc →
    ∀ loc' ∈ definedByCall, ⟨.callReturn pc loc', node.inputs⟩ ∈ nodes

section
variable {S : Subject} {H : HashOrder} {endsInCall : Bool} {pc : Nat} {st st' st'' : BlockState}

theorem Siblings.append {nodes nodes' : List Node} (h : Siblings S nodes)
    (h' : Siblings S nodes') : Siblings S (nodes ++ nodes') where
  result node hmem pc i loc hkind := by
    rcases List.mem_append.mp hmem with hmem | hmem
    · obtain ⟨opcode, insnUD, hdecode, hi, hall⟩ := h.result node hmem pc i loc hkind
      exact ⟨opcode, insnUD, hdecode, hi, fun j loc' hj => List.mem_append_left _ (hall j loc' hj)⟩
    · obtain ⟨opcode, insnUD, hdecode, hi, hall⟩ := h'.result node hmem pc i loc hkind
      exact ⟨opcode, insnUD, hdecode, hi, fun j loc' hj => List.mem_append_right _ (hall j loc' hj)⟩
  callReturn node hmem pc loc hkind loc' hloc' := by
    rcases List.mem_append.mp hmem with hmem | hmem
    · exact List.mem_append_left _ (h.callReturn node hmem pc loc hkind loc' hloc')
    · exact List.mem_append_right _ (h'.callReturn node hmem pc loc hkind loc' hloc')

/-- Nodes that define nothing. -/
theorem siblings_of_defines_none {nodes : List Node}
    (h : ∀ node ∈ nodes, node.kind.defines = none) : Siblings S nodes where
  result node hmem pc i loc hkind := by
    have := h node hmem
    rw [hkind] at this
    cases this
  callReturn node hmem pc loc hkind := by
    have := h node hmem
    rw [hkind] at this
    cases this

theorem defines_of_builtFor {kind : NodeKind} (h : kind.builtFor = none) : kind.defines = none := by
  cases kind with
  | result => cases h
  | callReturn => cases h
  | _ => rfl

/-- The nodes of the outputs of an instruction. -/
theorem siblings_outputs {opcode : Opcode} {insnUD : InstructionUD}
    (hdecode : S.decode pc = .ok (opcode, insnUD)) (inputs : List NodeId) :
    Siblings S (insnUD.outputs.zipIdx.map fun (loc, i) => ⟨.result pc i loc, inputs⟩) where
  result node hmem pc' i loc hkind := by
    obtain ⟨⟨loc', i'⟩, hget, rfl⟩ := List.mem_map.mp hmem
    obtain ⟨rfl, rfl, rfl⟩ := NodeKind.result.inj hkind
    refine ⟨opcode, insnUD, hdecode, List.mem_zipIdx_iff_getElem?.mp hget, fun j loc'' hj => ?_⟩
    exact List.mem_map.mpr ⟨(loc'', j), List.mem_zipIdx_iff_getElem?.mpr hj, rfl⟩
  callReturn node hmem pc' loc hkind := by
    obtain ⟨_, _, rfl⟩ := List.mem_map.mp hmem
    cases hkind

/-- The nodes of the return values of a call. -/
theorem siblings_returns (pc : Nat) (inputs : List NodeId) :
    Siblings S (definedByCall.map fun loc => ⟨.callReturn pc loc, inputs⟩) where
  result node hmem pc' i loc hkind := by
    obtain ⟨_, _, rfl⟩ := List.mem_map.mp hmem
    cases hkind
  callReturn node hmem pc' loc hkind loc' hloc' := by
    obtain ⟨_, _, rfl⟩ := List.mem_map.mp hmem
    obtain ⟨rfl, _⟩ := NodeKind.callReturn.inj hkind
    exact List.mem_map.mpr ⟨loc', hloc', rfl⟩

/-! ### What the steps of the analysis add -/

/-- The nodes made between two states are all that their instructions make. -/
def AddsSiblings (S : Subject) (st st' : BlockState) : Prop :=
  ∃ new, st'.heap = st.heap ++ new ∧ Siblings S new

theorem AddsSiblings.of_same (h : st'.heap = st.heap) : AddsSiblings S st st' :=
  ⟨[], by rw [h, List.append_nil], siblings_of_defines_none (by simp)⟩

theorem AddsSiblings.trans (h : AddsSiblings S st st') (h' : AddsSiblings S st' st'') :
    AddsSiblings S st st'' := by
  obtain ⟨new, hnew, hs⟩ := h
  obtain ⟨new', hnew', hs'⟩ := h'
  exact ⟨new ++ new', by rw [hnew', hnew, List.append_assoc], hs.append hs'⟩

theorem Extends.addsSiblings {Q : Node → Prop} {effect : Slot → GenKill.Effect Nat}
    (h : Extends Q effect st st') (hQ : ∀ node, Q node → node.kind.builtFor = none) :
    AddsSiblings S st st' := by
  obtain ⟨new, hnew, hall⟩ := h.nodes
  exact ⟨new, hnew, siblings_of_defines_none
    fun node hmem => defines_of_builtFor (hQ node (hall node hmem))⟩

/-- The nodes a loop of definitions makes. -/
theorem forSlots_define_heap (node : Nat → CpuMemoryLocation → Node) {i : Nat}
    {locs : List CpuMemoryLocation}
    (h : forSlots (fun i loc slot st => st.define slot (node i loc)) i locs st = .ok st') :
    st'.heap = st.heap ++ (locs.zipIdx i).map fun (loc, j) => node j loc := by
  induction locs generalizing i st with
  | nil =>
    rw [forSlots] at h
    cases h
    simp
  | cons loc rest ih =>
    rw [forSlots, bind_eq_ok] at h
    obtain ⟨slot, _, h⟩ := h
    rw [ih h, List.zipIdx_cons, List.map_cons, define, List.append_assoc]
    rfl

theorem killVolatile_heap (h : killVolatile st = .ok st') : st'.heap = st.heap := by
  refine forSlots_rel (R := fun st st' => st'.heap = st.heap) (fun _ => rfl)
    (fun _ _ _ h h' => h'.trans h) ?_ h
  exact fun _ _ _ _ => rfl

theorem processInsn_addsSiblings (h : processInsn S H endsInCall pc st = .ok st') :
    AddsSiblings S st st' := by
  simp only [processInsn, bind_eq_ok, Prod.exists] at h
  obtain ⟨opcode, insnUD, hdecode, st₁, xs, hinputs, st₂, houtputs, h⟩ := h
  have hfeeds : AddsSiblings S st st₁ :=
    (insnInputs_spec hinputs).1.addsSiblings fun node hnode => hnode.1
  have hplain : AddsSiblings S st st₂ :=
    hfeeds.trans ⟨_, forSlots_define_heap (fun i loc => ⟨.result pc i loc, xs⟩) houtputs,
      siblings_outputs hdecode xs⟩
  have hsink : AddsSiblings S st (st₂.pushSink ⟨.sink pc, xs⟩) :=
    hplain.trans ⟨_, rfl, siblings_of_defines_none fun node hmem => by
      rw [List.mem_singleton.mp hmem]
      rfl⟩
  split at h
  · cases h
    exact hsink
  · split at h
    · split at h
      · obtain ⟨st₃, hkill, hdefine⟩ := bind_eq_ok.mp h
        refine (hsink.trans (.of_same (killVolatile_heap hkill))).trans
          ⟨_, forSlots_define_heap (fun _ loc => ⟨.callReturn pc loc, xs⟩) hdefine, ?_⟩
        exact siblings_returns pc xs
      · cases h
        exact hsink
    · cases h
      exact hplain

theorem processBlock_addsSiblings {block : BasicBlock} {heap : Heap} {ctx : FlowContext}
    {result : BlockState} (h : processBlock S H block heap ctx = .ok result) :
    AddsSiblings S ⟨heap, ctx, []⟩ result := by
  have hinsns : ∀ (count pc : Nat) (st st' : BlockState),
      processInsns S H block.endsInCall count pc st = .ok st' → AddsSiblings S st st' := by
    intro count
    induction count with
    | zero =>
      intro pc st st' h
      rw [processInsns] at h
      cases h
      exact .of_same rfl
    | succ count ih =>
      intro pc st st' h
      rw [processInsns, bind_eq_ok] at h
      obtain ⟨mid, hmid, h⟩ := h
      exact (processInsn_addsSiblings hmid).trans (ih _ _ _ h)
  obtain ⟨mid, hmid, haside⟩ := processBlock_spec h
  exact (hinsns _ _ _ _ hmid).trans (haside.addsSiblings fun node hnode => hnode.1)

end

/-- **The graph has all of the nodes an instruction made if it has one of them.** -/
theorem Trace.siblings {S : Subject} {H : HashOrder} {g : ControlFlowGraph} {σ : Nat → State}
    {N n : Nat} (h : Trace S H g σ N) (hn : n ≤ N) : Siblings S (σ n).heap := by
  induction n with
  | zero =>
    obtain ⟨worklist, _, hinit⟩ := h.initial
    rw [hinit]
    exact siblings_of_defines_none (by simp [initialState])
  | succ n ih =>
    obtain ⟨b, result, hvisited⟩ := h.visited hn
    obtain ⟨new, hnew, hsiblings⟩ := processBlock_addsSiblings hvisited.visit
    rw [hvisited.heap, hnew]
    exact (ih (by omega)).append hsiblings

end DataFlowAnalysis

end Ppc2cpp
