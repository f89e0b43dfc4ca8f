import Ppc2cpp.Analysis.NodesMatch
import Ppc2cpp.ControlFlow.Assembled
import Ppc2cpp.DataFlow.Reordering

/-! The comparison of a function with itself.

Two runs of the analyses on one function differ in the order of the inputs of phi nodes,
and inputs are compared in order. The verdict is `true` in every two orders iff the
definitions each needed phi node joins are alike (`compareFunctionFlows_self_iff`). -/
namespace Ppc2cpp
open Matching DataFlowAnalysis ProgramComparator

/-- A sink depends on the node. -/
def DataFlowAnalysis.State.Needed (st : State) (x : NodeId) : Prop :=
  ∃ b, ∃ sink ∈ st.blockSinks b,
    Relation.ReflTransGen (fun x a => a ∈ st.heap.inputs x) sink x

namespace Subject
variable (S : Subject) (g : ControlFlowGraph) (fuel : Nat)

/-- The relocations of the function compare equal to themselves. -/
def SelfEqual : Prop :=
  ∀ b x, g.Internal b x → ∀ pc, x.start ≤ pc → pc ≤ x.stop → ∀ opcode insnUD,
    S.decode pc = .ok (opcode, insnUD) → ∀ reloc ∈ insnUD.refs,
      (S.comparator S).compareRelocations fuel reloc reloc = .ok true

/-- Two nodes agree without their inputs, and their inputs are alike: in order, and those
of phi nodes each with each. -/
def Alike (st : State) : NodeId → NodeId → Prop :=
  Matching.Alike ((S.comparator S).KindsMatch fuel (S.side g st) (S.side g st)) st.heap.inputs
    st.heap.IsPhi

/-- Each two of the definitions that a needed phi node joins are alike. -/
def PhisAlike (st : State) : Prop :=
  ∀ p, st.Needed p → st.heap.IsPhi p → ∀ x ∈ st.heap.inputs p, ∀ y ∈ st.heap.inputs p,
    S.Alike g fuel st x y

/-- The verdict on two runs of the analyses is `true`, whatever the orders. -/
def FlowsReflexive : Prop :=
  ∀ (H₁ H₂ : HashOrder) (fuel₁ fuel₂ : Nat) (st₁ st₂ : State),
    functionDFA S H₁ g fuel₁ = .ok st₁ → functionDFA S H₂ g fuel₂ = .ok st₂ →
      (S.comparator S).compareFunctionFlows fuel (S.function g st₁) (S.function g st₂) = .ok true

end Subject

section
variable {S : Subject} {g : ControlFlowGraph} {fuel : Nat} {st : State}

/-- What is compared of a kind does not depend on the other nodes. -/
theorem compareKinds_state (C : ProgramComparator) (st st₁ st₂ : State) (kind1 kind2 : NodeKind) :
    C.compareKinds fuel (S.side g st₁) (S.side g st₂) kind1 kind2 =
      C.compareKinds fuel (S.side g st) (S.side g st) kind1 kind2 := by
  cases kind1 <;> cases kind2 <;> rfl

theorem kindsMatch_reorder (C : ProgramComparator) (H₁ H₂ : HashOrder) :
    C.KindsMatch fuel (S.side g (st.reorder H₁)) (S.side g (st.reorder H₂)) =
      C.KindsMatch fuel (S.side g st) (S.side g st) := by
  funext x y
  have hkind : ∀ H z, (S.side g (st.reorder H)).heap.kind? z = (S.side g st).heap.kind? z :=
    fun H z => st.heap.kind?_reorder H z
  simp only [KindsMatch, hkind, compareKinds_state C st]

/-- A phi node matches no node of another kind. -/
theorem isPhi_of_kindsMatch {C : ProgramComparator} {x y : NodeId}
    (h : C.KindsMatch fuel (S.side g st) (S.side g st) x y) :
    st.heap.IsPhi x ↔ st.heap.IsPhi y := by
  obtain ⟨kind1, kind2, h1, h2, hkinds⟩ := h
  rw [Heap.IsPhi, Heap.IsPhi, show st.heap.kind? x = some kind1 from h1,
    show st.heap.kind? y = some kind2 from h2, Option.any_some, Option.any_some]
  cases kind1 <;> cases kind2 <;> first | rfl | cases hkinds

/-- The instruction at `pc` compares equal to itself. -/
theorem compareInsns_self {b : Nat} {x : BasicBlock} (hx : g.Internal b x) {pc : Nat}
    (hlo : x.start ≤ pc) (hhi : pc ≤ x.stop) :
    (S.comparator S).compareInsns (S.side g st) (S.side g st) pc pc = .ok true := by
  have hfound : (g.findBlockByInsnIdx pc).isSome = true := by
    rw [ControlFlowGraph.findBlockByInsnIdx, List.findIdx?_isSome, List.any_eq_true]
    exact ⟨x, List.mem_of_getElem? hx.1, by simp [hlo, hhi]⟩
  unfold compareInsns
  rw [if_neg (not_not_intro rfl)]
  exact congrArg Except.ok (Bool.and_eq_true_iff.mpr ⟨beq_self_eq_true _, hfound⟩)

/-- **Every kind of node the function makes compares equal to itself.** -/
theorem madeKinds_self (st : State) (hw : g.WellFormed) (hself : S.SelfEqual g fuel) :
    MadeKinds (fun kind => (S.comparator S).compareKinds fuel (S.side g st) (S.side g st)
      kind kind = .ok true) S g where
  insn b x hx pc hlo hhi opcode insnUD hdecode :=
    { reference := fun reloc hreloc _ => hself b x hx pc hlo hhi opcode insnUD hdecode reloc hreloc
      immediate := fun _ _ => congrArg Except.ok (beq_self_eq_true _)
      functionInput := fun _ => congrArg Except.ok (beq_self_eq_true _)
      phi := fun _ => rfl
      result := fun _ _ => compareInsns_self hx hlo hhi
      callReturn := fun _ => rfl
      sink := compareInsns_self hx hlo hhi }
  ret b x hx _ := compareInsns_self hx (hw.ordered b x hx) (le_refl x.stop)
  exitPhi _ := rfl

variable {H : HashOrder} {fuelD : Nat}

/-- The result of a run has the order of the run. -/
theorem reorder_self (hok : functionDFA S H g fuelD = .ok st) : st.reorder H = st :=
  functionDFA_unique (functionDFA_reorder H hok) hok

theorem inputs_nodup (hok : functionDFA S H g fuelD = .ok st) {x : NodeId}
    (hx : st.heap.IsPhi x) : (st.heap.inputs x).Nodup := by
  have hself : st.heap.reorder H = st.heap := congrArg State.heap (reorder_self hok)
  rw [← hself, Heap.inputs_reorder, if_pos hx]
  exact H.nodup _ _

/-- A run puts the inputs of phi nodes in some order. -/
theorem arrangement_reorder (hok : functionDFA S H g fuelD = .ok st) (H' : HashOrder) :
    Arrangement st.heap.inputs st.heap.IsPhi (st.heap.reorder H').inputs where
  perm x := by
    rw [Heap.inputs_reorder]
    split
    · rename_i hx
      refine (List.perm_ext_iff_of_nodup (H'.nodup _ _) (inputs_nodup hok hx)).mpr fun a => ?_
      rw [H'.mem, List.mem_toFinset]
    · exact .refl _
  ordered x hx := by
    rw [Heap.inputs_reorder, if_neg hx]

/-- Every order of the inputs of phi nodes is that of a run. -/
theorem exists_hashOrder (hok : functionDFA S H g fuelD = .ok st) {o : NodeId → List NodeId}
    (ho : Arrangement st.heap.inputs st.heap.IsPhi o) :
    ∃ H' : HashOrder, (st.heap.reorder H').inputs = o := by
  classical
  refine ⟨⟨fun x d => if st.heap.IsPhi x ∧ d = (st.heap.inputs x).toFinset then o x
    else H.enumerate x d, fun x d => ?_, fun x d a => ?_⟩, funext fun x => ?_⟩
  · split
    · rename_i h
      exact (ho.perm x).nodup_iff.mpr (inputs_nodup hok h.1)
    · exact H.nodup x d
  · split
    · rename_i h
      rw [(ho.perm x).mem_iff, h.2, List.mem_toFinset]
    · exact H.mem x d a
  · rw [Heap.inputs_reorder]
    by_cases hx : st.heap.IsPhi x
    · rw [if_pos hx]
      exact if_pos ⟨hx, rfl⟩
    · rw [if_neg hx, ho.ordered x hx]

/-- Nodes are alike iff they match in every two runs. -/
theorem alike_iff_runs (hw : g.WellFormed) (hok : functionDFA S H g fuelD = .ok st) {x y : NodeId} :
    S.Alike g fuel st x y ↔ ∀ H₁ H₂ : HashOrder,
      (S.comparator S).NodesMatch fuel (S.side g (st.reorder H₁)) (S.side g (st.reorder H₂)) x y := by
  have ho : st.heap.Ordered fun _ => True := (functionDFA_ordered hw (madeKinds_true S g) hok).heap
  have hkind : ∀ x y, (S.comparator S).KindsMatch fuel (S.side g st) (S.side g st) x y →
      (st.heap.IsPhi x ↔ st.heap.IsPhi y) := fun _ _ => isPhi_of_kindsMatch
  refine (alike_iff (fun n => n) (fun _ _ ha => ho.lt_of_mem_inputs ha) hkind).trans ?_
  constructor
  · intro h H₁ H₂
    rw [NodesMatch, kindsMatch_reorder]
    exact h _ _ (arrangement_reorder hok H₁) (arrangement_reorder hok H₂)
  · intro h o₁ o₂ ho₁ ho₂
    obtain ⟨H₁, rfl⟩ := exists_hashOrder hok ho₁
    obtain ⟨H₂, rfl⟩ := exists_hashOrder hok ho₂
    have hmatch := h H₁ H₂
    rw [NodesMatch, kindsMatch_reorder] at hmatch
    exact hmatch

theorem lt_of_mem_blockSinks (hok : functionDFA S H g fuelD = .ok st) {b : Nat} {sink : NodeId}
    (hsink : sink ∈ st.blockSinks b) : b < g.blocks.length := by
  obtain ⟨σ, N, h, _, rfl, _⟩ := functionDFA_ok_iff.mp hok
  exact (h.fits (le_refl N)).lt_of_mem_blockSinks hsink

/-- The verdict on two runs, by the sinks of one. -/
theorem flowsReflexive_iff (hw : g.WellFormed) (hok : functionDFA S H g fuelD = .ok st) :
    S.FlowsReflexive g fuel ↔ ∀ b, ∀ sink ∈ st.blockSinks b, S.Alike g fuel st sink sink := by
  have hruns : S.FlowsReflexive g fuel ↔ ∀ H₁ H₂ : HashOrder, (S.comparator S).FlowsMatch fuel
      (S.side g (st.reorder H₁)) (S.side g (st.reorder H₂)) := by
    constructor
    · intro h H₁ H₂
      have hok₁ := functionDFA_reorder H₁ hok
      have hok₂ := functionDFA_reorder H₂ hok
      exact (compareFunctionFlows_iff fuel hw hw hok₁ hok₂).mp (h _ _ _ _ _ _ hok₁ hok₂)
    · intro h H₁ H₂ fuel₁ fuel₂ st₁ st₂ hok₁ hok₂
      rw [compareFunctionFlows_iff fuel hw hw hok₁ hok₂,
        functionDFA_unique hok₁ (functionDFA_reorder H₁ hok),
        functionDFA_unique hok₂ (functionDFA_reorder H₂ hok)]
      exact h H₁ H₂
  have hsame : ∀ b H₁ H₂, List.Forall₂ ((S.comparator S).NodesMatch fuel
      (S.side g (st.reorder H₁)) (S.side g (st.reorder H₂))) (st.blockSinks b) (st.blockSinks b) ↔
      ∀ sink ∈ st.blockSinks b, (S.comparator S).NodesMatch fuel (S.side g (st.reorder H₁))
        (S.side g (st.reorder H₂)) sink sink := fun b H₁ H₂ => List.forall₂_same
  rw [hruns]
  constructor
  · intro h b sink hsink
    refine (alike_iff_runs hw hok).mpr fun H₁ H₂ => ?_
    exact (hsame b H₁ H₂).mp ((h H₁ H₂).2 b (lt_of_mem_blockSinks hok hsink)).1 sink hsink
  · intro h H₁ H₂
    refine ⟨rfl, fun b _ => ⟨(hsame b H₁ H₂).mpr fun sink hsink => ?_, rfl⟩⟩
    exact (alike_iff_runs hw hok).mp (h b sink hsink) H₁ H₂

/-- **The verdict on a function and itself is `true` in every two orders iff the
definitions each needed phi node joins are alike.** -/
theorem compareFunctionFlows_self_iff (S : Subject) {g : ControlFlowGraph} (fuel : Nat)
    {H : HashOrder} {fuelD : Nat} {st : State}
    (hcfa : ControlFlowAnalysis.functionCFA S = .ok g) (hok : functionDFA S H g fuelD = .ok st)
    (hself : S.SelfEqual g fuel) : S.FlowsReflexive g fuel ↔ S.PhisAlike g fuel st := by
  have hw := ControlFlowAnalysis.functionCFA_wellFormed S hcfa
  have ho := functionDFA_ordered hw (madeKinds_self st hw hself) hok
  have hlabel : ∀ sink x, sink < st.heap.length →
      Relation.ReflTransGen (fun x a => a ∈ st.heap.inputs x) sink x →
      (S.comparator S).KindsMatch fuel (S.side g st) (S.side g st) x x := by
    intro sink x hsink hpath
    have hx : x < st.heap.length := by
      induction hpath with
      | refl => exact hsink
      | tail _ ha ih => exact (ho.heap.lt_of_mem_inputs ha).trans ih
    have hkind : st.heap.kind? x = some st.heap[x].kind := by
      rw [Heap.kind?, List.getElem?_eq_getElem hx, Option.map_some]
    exact ⟨_, _, hkind, hkind, ho.heap.kind? hkind⟩
  rw [flowsReflexive_iff hw hok]
  have hsink : ∀ b, ∀ sink ∈ st.blockSinks b, S.Alike g fuel st sink sink ↔
      ∀ p, Relation.ReflTransGen (fun x a => a ∈ st.heap.inputs x) sink p → st.heap.IsPhi p →
        ∀ x ∈ st.heap.inputs p, ∀ y ∈ st.heap.inputs p, S.Alike g fuel st x y :=
    fun b sink hsink => alike_self_iff (fun n => n) (fun _ _ ha => ho.heap.lt_of_mem_inputs ha)
      fun a ha => hlabel sink a (ho.sinks b sink hsink) ha
  constructor
  · rintro h p ⟨b, sink, hmem, hpath⟩
    exact (hsink b sink hmem).mp (h b sink hmem) p hpath
  · intro h b sink hmem
    exact (hsink b sink hmem).mpr fun p hpath => h p ⟨b, sink, hmem, hpath⟩

/-- A function without references, checked at one instruction after the other. -/
theorem selfEqual_of_check (length : Nat)
    (hrefs : ∀ pc < length, returns (S.decode pc) (fun r => decide (r.2.refs = [])) = true)
    (hblocks : ∀ x ∈ g.blocks, x.stop < length) : S.SelfEqual g fuel := by
  intro b x hx pc _ hhi opcode insnUD hdecode reloc hreloc
  have hcheck := hrefs pc (lt_of_le_of_lt hhi (hblocks x (List.mem_of_getElem? hx.1)))
  rw [hdecode] at hcheck
  rw [show insnUD.refs = [] from of_decide_eq_true hcheck] at hreloc
  cases hreloc

end

/-! ### A register defined on two paths -/

/-- `li r3,1; beq` to 3; `li r3,2; stw r3,0(r5); blr`. -/
def redefinition : Subject :=
  assembledSubject [0x38600001, 0x41820008, 0x38600002, 0x90650000, 0x4e800020] 5 (by decide)

def redefinitionGraph : ControlFlowGraph where
  blocks := [⟨0, 1, .INTERNAL, false, false, false⟩, ⟨3, 4, .INTERNAL, true, false, false⟩,
    ⟨4, 4, .RUNTIME, false, false, false⟩, ⟨2, 2, .INTERNAL, false, false, false⟩]
  psTable := [⟨[], [1, 3]⟩, ⟨[0, 3], [2]⟩, ⟨[1], []⟩, ⟨[0], [1]⟩]

theorem functionCFA_redefinition :
    ControlFlowAnalysis.functionCFA redefinition = .ok redefinitionGraph := by
  decide +kernel

theorem redefinition_selfEqual (fuel : Nat) : redefinition.SelfEqual redefinitionGraph fuel :=
  selfEqual_of_check 5 (by decide +kernel) (by decide)

theorem compareFunctionFlows_self_redefinition : ∃ st,
    functionDFA redefinition .ascending redefinitionGraph 8 = .ok st ∧
      (redefinition.FlowsReflexive redefinitionGraph 0 ↔
        redefinition.PhisAlike redefinitionGraph 0 st) := by
  obtain ⟨st, hok, _⟩ := exists_ok
    (x := functionDFA redefinition .ascending redefinitionGraph 8) (p := fun _ => true)
    (by decide +kernel)
  exact ⟨st, hok, compareFunctionFlows_self_iff redefinition 0 functionCFA_redefinition hok
    (redefinition_selfEqual 0)⟩

/-- The store of r3 has a phi node for the two definitions, `2, 17` in one order and
`17, 2` in the other. -/
theorem order_decides : ¬ ∀ (S : Subject) (g : ControlFlowGraph) (fuel : Nat) (H : HashOrder)
    (fuelD : Nat) (st : State), ControlFlowAnalysis.functionCFA S = .ok g →
      functionDFA S H g fuelD = .ok st → S.SelfEqual g fuel → S.FlowsReflexive g fuel := by
  intro hall
  obtain ⟨st₁, hok₁, hrest⟩ := exists_ok
    (x := functionDFA redefinition .ascending redefinitionGraph 8)
    (p := fun st₁ => returns (functionDFA redefinition .descending redefinitionGraph 8) fun st₂ =>
      returns ((redefinition.comparator redefinition).compareFunctionFlows 0
        (redefinition.function redefinitionGraph st₁) (redefinition.function redefinitionGraph st₂))
        fun equal => !equal) (by decide +kernel)
  obtain ⟨st₂, hok₂, hverdict⟩ := exists_ok hrest
  obtain ⟨equal, hequal, hfalse⟩ := exists_ok hverdict
  have htrue := hall redefinition redefinitionGraph 0 .ascending 8 st₁ functionCFA_redefinition hok₁
    (redefinition_selfEqual 0) .ascending .descending 8 8 st₁ st₂ hok₁ hok₂
  rw [hequal, Except.ok.injEq] at htrue
  subst htrue
  cases hfalse

end Ppc2cpp
