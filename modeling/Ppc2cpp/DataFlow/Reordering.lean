import Ppc2cpp.DataFlow.NodeOrder

/-! What the order in which hash sets are enumerated has to do with the result.

It decides the order of the inputs of phi nodes and nothing else: with another order the
analysis goes through the same steps and makes the same nodes, and the inputs of each phi
node are those of the first order, enumerated in the other (`functionDFA_reorder`). -/
namespace Ppc2cpp

def NodeKind.isPhi : NodeKind → Bool
  | .phi _ _ => true
  | _ => false

/-- The inputs of a phi node in another order. -/
def Node.reorder (H : HashOrder) (x : NodeId) (node : Node) : Node :=
  if node.kind.isPhi then {node with inputs := H.enumerate x node.inputs.toFinset} else node

theorem Node.reorder_phi (H : HashOrder) (x index : Nat) (loc : CpuMemoryLocation)
    (inputs : List NodeId) : Node.reorder H x ⟨.phi index loc, inputs⟩ =
      ⟨.phi index loc, H.enumerate x inputs.toFinset⟩ := rfl

namespace Heap

def reorder (H : HashOrder) (heap : Heap) : Heap := heap.mapIdx (Node.reorder H)

variable (H : HashOrder) (heap : Heap)

@[simp] theorem length_reorder : (heap.reorder H).length = heap.length := List.length_mapIdx

theorem getElem?_reorder (x : NodeId) :
    (heap.reorder H)[x]? = heap[x]?.map (Node.reorder H x) :=
  List.getElem?_mapIdx

theorem reorder_push (node : Node) :
    Heap.reorder H (heap ++ [node]) = heap.reorder H ++ [node.reorder H heap.length] :=
  List.mapIdx_concat

/-- Nodes that are no phi nodes are as they were. -/
theorem reorder_append {nodes : List Node} (h : ∀ node ∈ nodes, node.kind.isPhi = false) :
    Heap.reorder H (heap ++ nodes) = heap.reorder H ++ nodes := by
  induction nodes generalizing heap with
  | nil => simp
  | cons node nodes ih =>
    have hnode : node.reorder H heap.length = node := by
      rw [Node.reorder, h node List.mem_cons_self]
      rfl
    rw [List.append_cons, ih _ (fun n hn => h n (List.mem_cons_of_mem _ hn)), reorder_push, hnode,
      ← List.append_cons]

@[simp] theorem kind?_reorder (x : NodeId) : (heap.reorder H).kind? x = heap.kind? x := by
  rw [kind?, kind?, getElem?_reorder, Option.map_map]
  refine congrArg (Option.map · heap[x]?) (funext fun node => ?_)
  show (Node.reorder H x node).kind = node.kind
  unfold Node.reorder
  split <;> rfl

/-- The node at an address is a phi node. -/
def IsPhi (x : NodeId) : Prop := (heap.kind? x).any NodeKind.isPhi = true

instance : DecidablePred heap.IsPhi := fun x =>
  inferInstanceAs (Decidable ((heap.kind? x).any NodeKind.isPhi = true))

theorem inputs_reorder (x : NodeId) : (heap.reorder H).inputs x =
    if heap.IsPhi x then H.enumerate x (heap.inputs x).toFinset else heap.inputs x := by
  rw [inputs, getElem?_reorder]
  cases hx : heap[x]? with
  | none =>
    rw [if_neg (by simp [IsPhi, kind?, hx]), inputs, hx]
    rfl
  | some node =>
    by_cases hphi : node.kind.isPhi = true
    · rw [if_pos (by simp [IsPhi, kind?, hx, hphi]), inputs, hx]
      simp [Node.reorder, hphi]
    · rw [if_neg (by simp [IsPhi, kind?, hx, hphi]), inputs, hx]
      simp [Node.reorder, hphi]

end Heap

namespace DataFlowAnalysis

namespace BlockState

def reorder (H : HashOrder) (st : BlockState) : BlockState := {st with heap := st.heap.reorder H}

variable (H : HashOrder) (st : BlockState) {node : Node}

theorem reorder_alloc (node : Node) :
    (st.reorder H).alloc (node.reorder H st.heap.length) =
      ((st.alloc node).1.reorder H, (st.alloc node).2) := by
  simp only [alloc, reorder, Heap.length_reorder, Heap.reorder_push]

theorem reorder_define (h : node.kind.isPhi = false) (slot : Slot) :
    (st.reorder H).define slot node = (st.define slot node).reorder H := by
  simp only [define, reorder, Heap.length_reorder, BlockState.mk.injEq, and_true]
  exact (st.heap.reorder_append H (by simpa using h)).symm

theorem reorder_pushSink (h : node.kind.isPhi = false) :
    (st.reorder H).pushSink node = (st.pushSink node).reorder H := by
  simp only [pushSink, reorder, Heap.length_reorder, BlockState.mk.injEq, and_true]
  exact (st.heap.reorder_append H (by simpa using h)).symm

theorem reorder_allocAll {nodes : List Node} (h : ∀ node ∈ nodes, node.kind.isPhi = false) :
    (st.reorder H).allocAll nodes = ((st.allocAll nodes).1.reorder H, (st.allocAll nodes).2) := by
  simp only [allocAll, reorder, Heap.length_reorder, Prod.mk.injEq, BlockState.mk.injEq, and_true]
  exact (st.heap.reorder_append H h).symm

end BlockState

section
variable {S : Subject} {H : HashOrder} (H' : HashOrder) {pc : Nat} {st st' : BlockState}

/-- A node that depends on the definitions of a slot: both orders list as many. -/
theorem enumerate_cases (n : NodeId) (d : Definition) :
    (H.enumerate n d = [] ∧ H'.enumerate n d = []) ∨
      (∃ x, H.enumerate n d = [x] ∧ H'.enumerate n d = [x]) ∨
      ∃ x y xs x' y' xs', H.enumerate n d = x :: y :: xs ∧ H'.enumerate n d = x' :: y' :: xs' ∧
        (x :: y :: xs).toFinset = d := by
  cases hen : H.enumerate n d with
  | nil => exact .inl ⟨rfl, H'.enumerate_eq_nil.mpr (H.enumerate_eq_nil.mp hen)⟩
  | cons x xs =>
    cases xs with
    | nil =>
      exact .inr (.inl ⟨x, rfl, H'.enumerate_eq_singleton.mpr (H.enumerate_eq_singleton.mp hen)⟩)
    | cons y xs =>
      have hlen : (H'.enumerate n d).length = xs.length + 2 := by
        rw [H'.length_enumerate, ← H.length_enumerate n d, hen]
        rfl
      refine .inr (.inr ⟨x, y, xs, ?_⟩)
      match hen' : H'.enumerate n d, hlen with
      | x' :: y' :: xs', _ =>
        exact ⟨x', y', xs', rfl, rfl, by rw [← hen, H.toFinset_enumerate]⟩

theorem inputNode_reorder {loc : CpuMemoryLocation} {x : NodeId}
    (h : inputNode H pc loc st = .ok (st', x)) :
    inputNode H' pc loc (st.reorder H') = .ok (st'.reorder H', x) := by
  rw [inputNode, bind_eq_ok] at h ⊢
  obtain ⟨slot, hslot, h⟩ := h
  refine ⟨slot, hslot, ?_⟩
  set d := st.flowContext.definition slot with hd
  have hsame : H'.enumerate (st.reorder H').heap.length
      ((st.reorder H').flowContext.definition slot) = H'.enumerate st.heap.length d := by
    rw [show (st.reorder H').heap.length = st.heap.length from st.heap.length_reorder H']
    rfl
  rcases enumerate_cases (H := H) H' st.heap.length d with
    ⟨hen, hen'⟩ | ⟨y, hen, hen'⟩ | ⟨y, z, ys, y', z', ys', hen, hen', hset⟩
  · simp only [hen] at h
    cases h
    simp only [hsame, hen']
    exact congrArg Except.ok (st.reorder_alloc H' ⟨.functionInput pc loc, []⟩)
  · simp only [hen] at h
    cases h
    simp only [hsame, hen']
    rfl
  · simp only [hen] at h
    cases h
    simp only [hsame, hen']
    have hphi := st.reorder_alloc H' ⟨.phi pc loc, y :: z :: ys⟩
    rw [Node.reorder_phi, hset, hen'] at hphi
    exact congrArg Except.ok hphi

theorem inputNodes_reorder {locs : List CpuMemoryLocation} {opVars : List NodeId}
    (h : inputNodes H pc locs st = .ok (st', opVars)) :
    inputNodes H' pc locs (st.reorder H') = .ok (st'.reorder H', opVars) := by
  induction locs generalizing st opVars with
  | nil =>
    cases h
    rfl
  | cons loc rest ih =>
    simp only [inputNodes, bind_eq_ok, Prod.exists] at h ⊢
    obtain ⟨st₁, x, hx, st₂, xs, hxs, h⟩ := h
    cases h
    exact ⟨_, _, inputNode_reorder H' hx, _, _, ih hxs, rfl⟩

theorem insnInputs_reorder {insnUD : InstructionUD} {nodes : List NodeId}
    (h : insnInputs H pc insnUD st = .ok (st', nodes)) :
    insnInputs H' pc insnUD (st.reorder H') = .ok (st'.reorder H', nodes) := by
  obtain ⟨opVars, hvars, rfl⟩ := insnInputs_eq_ok.mp h
  have hconsts : ∀ node ∈ constantNodes pc insnUD, node.kind.isPhi = false := by
    intro node hnode
    rcases mem_constantNodes.mp hnode with ⟨i, reloc, _, rfl⟩ | ⟨i, imm, _, rfl⟩
    · rfl
    · rfl
  have hnodes := st.reorder_allocAll H' hconsts
  refine insnInputs_eq_ok.mpr ⟨opVars, ?_, ?_⟩
  · rw [hnodes]
    exact inputNodes_reorder H' hvars
  · rw [hnodes]

/-- A loop over operands whose body goes along with another order. -/
theorem forSlots_reorder {body body' : Nat → CpuMemoryLocation → Slot → BlockState → BlockState}
    (hbody : ∀ i loc slot st,
      body' i loc slot (st.reorder H') = (body i loc slot st).reorder H')
    {i : Nat} {locs : List CpuMemoryLocation} (h : forSlots body i locs st = .ok st') :
    forSlots body' i locs (st.reorder H') = .ok (st'.reorder H') := by
  induction locs generalizing i st with
  | nil =>
    cases h
    rfl
  | cons loc rest ih =>
    simp only [forSlots, bind_eq_ok] at h ⊢
    obtain ⟨slot, hslot, h⟩ := h
    exact ⟨slot, hslot, hbody i loc slot st ▸ ih h⟩

theorem processCall_reorder {nodes : List NodeId} (h : processCall pc nodes st = .ok st') :
    processCall pc nodes (st.reorder H') = .ok (st'.reorder H') := by
  simp only [processCall, bind_eq_ok] at h ⊢
  obtain ⟨mid, hkill, hdefine⟩ := h
  refine ⟨_, ?_, forSlots_reorder H' (fun _ _ slot st => st.reorder_define H' rfl slot) hdefine⟩
  exact forSlots_reorder H' (fun _ _ slot st => (rfl : (st.reorder H').kill slot = _)) hkill

theorem processInsn_reorder {endsInCall : Bool} (h : processInsn S H endsInCall pc st = .ok st') :
    processInsn S H' endsInCall pc (st.reorder H') = .ok (st'.reorder H') := by
  simp only [processInsn, bind_eq_ok, Prod.exists] at h ⊢
  obtain ⟨opcode, insnUD, hdecode, st₁, nodes, hinputs, st₂, houtputs, h⟩ := h
  refine ⟨opcode, insnUD, hdecode, _, nodes, insnInputs_reorder H' hinputs, _,
    forSlots_reorder H' (fun i loc slot st => st.reorder_define H' rfl slot) houtputs, ?_⟩
  rw [st₂.reorder_pushSink H' rfl]
  split at h
  · rename_i hstore
    cases h
    rw [if_pos hstore]
    rfl
  · rename_i hstore
    rw [if_neg hstore]
    split at h
    · rename_i hbranch
      rw [if_pos hbranch]
      split at h
      · rename_i hcall
        rw [if_pos hcall]
        exact processCall_reorder H' h
      · rename_i hcall
        cases h
        rw [if_neg hcall]
        rfl
    · rename_i hbranch
      cases h
      rw [if_neg hbranch]
      rfl

theorem processInsns_reorder {endsInCall : Bool} {count : Nat}
    (h : processInsns S H endsInCall count pc st = .ok st') :
    processInsns S H' endsInCall count pc (st.reorder H') = .ok (st'.reorder H') := by
  induction count generalizing pc st with
  | zero =>
    rw [processInsns, Except.ok.injEq] at h ⊢
    rw [h]
  | succ count ih =>
    rw [processInsns, bind_eq_ok] at h ⊢
    obtain ⟨mid, hmid, h⟩ := h
    exact ⟨_, processInsn_reorder H' hmid, ih h⟩

theorem returnSink_reorder (returnIdx : Nat) (loc : CpuMemoryLocation) (slot : Slot)
    (st : BlockState) : returnSink S H' returnIdx loc slot (st.reorder H') =
      (returnSink S H returnIdx loc slot st).reorder H' := by
  have hsame : H'.enumerate (st.reorder H').heap.length
      ((st.reorder H').flowContext.definition slot) =
        H'.enumerate st.heap.length (st.flowContext.definition slot) := by
    rw [show (st.reorder H').heap.length = st.heap.length from st.heap.length_reorder H']
    rfl
  unfold returnSink
  rcases enumerate_cases (H := H) H' st.heap.length (st.flowContext.definition slot) with
    ⟨hen, hen'⟩ | ⟨y, hen, hen'⟩ | ⟨y, z, ys, y', z', ys', hen, hen', hset⟩
  · simp only [hsame, hen, hen']
  · simp only [hsame, hen, hen']
    exact st.reorder_pushSink H' rfl
  · simp only [hsame, hen, hen']
    have hphi := st.reorder_alloc H' ⟨.phi S.length loc, y :: z :: ys⟩
    rw [Node.reorder_phi, hset, hen'] at hphi
    rw [hphi]
    exact BlockState.reorder_pushSink H' _ rfl

theorem processBlock_reorder {block : BasicBlock} {heap : Heap} {ctx : FlowContext}
    (h : processBlock S H block heap ctx = .ok st') :
    processBlock S H' block (heap.reorder H') ctx = .ok (st'.reorder H') := by
  obtain ⟨mid, hmid, h⟩ := processBlock_eq_ok.mp h
  refine processBlock_eq_ok.mpr ⟨_, processInsns_reorder H' hmid, ?_⟩
  rcases h with ⟨hexit, hreturns⟩ | ⟨hexit, rfl⟩
  · exact .inl ⟨hexit,
      forSlots_reorder H' (fun _ loc slot st => returnSink_reorder H' _ loc slot st) hreturns⟩
  · exact .inr ⟨hexit, rfl⟩

end

/-! ### The whole analysis -/

def State.reorder (H : HashOrder) (st : State) : State := {st with heap := st.heap.reorder H}

section
variable {S : Subject} {H : HashOrder} (H' : HashOrder) {g : ControlFlowGraph} {st st' : State}

theorem step_reorder (h : step S H g st = .ok st') :
    step S H' g (st.reorder H') = .ok (st'.reorder H') := by
  have hsame : (st.reorder H').worklist = st.worklist := rfl
  unfold step at h ⊢
  rw [hsame]
  cases hlist : st.worklist with
  | nil =>
    rw [hlist] at h
    cases h
    rfl
  | cons b rest =>
    rw [hlist] at h
    simp only [bind_eq_ok] at h ⊢
    obtain ⟨block, hblock, result, hresult, h⟩ := h
    cases h
    exact ⟨block, hblock, _, processBlock_reorder H' hresult, rfl⟩

theorem functionDFAImpl_reorder {fuel : Nat} (h : functionDFAImpl S H g fuel st = .ok st') :
    functionDFAImpl S H' g fuel (st.reorder H') = .ok (st'.reorder H') := by
  induction fuel generalizing st with
  | zero =>
    unfold functionDFAImpl at h ⊢
    by_cases hend : st.worklist = []
    · rw [if_pos hend] at h
      cases h
      exact if_pos hend
    · rw [if_neg hend] at h
      cases h
  | succ fuel ih =>
    unfold functionDFAImpl at h ⊢
    by_cases hend : st.worklist = []
    · rw [if_pos hend] at h
      cases h
      exact if_pos hend
    · rw [if_neg hend] at h
      simp only [bind_eq_ok] at h
      obtain ⟨mid, hmid, h⟩ := h
      rw [if_neg (show ¬ (st.reorder H').worklist = [] from hend)]
      simp only [bind_eq_ok]
      exact ⟨_, step_reorder H' hmid, ih h⟩

/-- **With another order the result is the same but for the inputs of phi nodes.** -/
theorem functionDFA_reorder {fuel : Nat} (h : functionDFA S H g fuel = .ok st) :
    functionDFA S H' g fuel = .ok (st.reorder H') := by
  rw [functionDFA, bind_eq_ok] at h ⊢
  obtain ⟨worklist, hinit, h⟩ := h
  exact ⟨worklist, hinit, functionDFAImpl_reorder H' h⟩

/-- The result does not depend on the fuel. -/
theorem functionDFA_unique {fuel fuel' : Nat} (h : functionDFA S H g fuel = .ok st)
    (h' : functionDFA S H g fuel' = .ok st') : st = st' := by
  obtain ⟨σ, N, htrace, _, rfl, hend⟩ := functionDFA_ok_iff.mp h
  obtain ⟨σ', N', htrace', _, rfl, hend'⟩ := functionDFA_ok_iff.mp h'
  rcases Nat.lt_trichotomy N N' with hlt | rfl | hlt
  · rw [htrace.unique htrace' (le_refl N) hlt.le] at hend
    exact absurd hend (htrace'.step N hlt).1
  · exact htrace.unique htrace' (le_refl N) (le_refl N)
  · rw [← htrace.unique htrace' hlt.le (le_refl N')] at hend'
    exact absurd hend' (htrace.step N' hlt).1

end

end DataFlowAnalysis

end Ppc2cpp
