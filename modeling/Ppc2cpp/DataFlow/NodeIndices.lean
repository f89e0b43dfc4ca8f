import Ppc2cpp.ControlFlow.Extent
import Ppc2cpp.DataFlow.Adequacy
import Ppc2cpp.DataFlow.Provenance

/-! Indices of nodes, and the end of the function.

A node's instruction is fetched at its index. The phi node of a return value has the
length of the function as its index, one behind the last instruction, and it is made where
two definitions of the return register meet at the end of an exit block. All other nodes
a sink depends on belong to instructions of the function, but for those of a store or a
branch that is read behind the end (`functionDFA_indices_iff`). -/
namespace Ppc2cpp

namespace DataFlowAnalysis
open ControlFlowGraph ControlFlowAnalysis GenKill BlockState

/-- Every node a sink depends on has an index in the function. -/
def IndicesInside (S : Subject) (st : State) : Prop :=
  ∀ x, DependedOn st x → ∃ kind, st.heap.kind? x = some kind ∧ kind.index < S.length

/-- Two definitions of the storage element come to the block. -/
def State.Joins (g : ControlFlowGraph) (st : State) (b : Nat) (slot : Slot) : Prop :=
  ∃ p ∈ g.pred b, ∃ y ∈ (st.context p).definition slot, ∃ q ∈ g.pred b,
    ∃ z ∈ (st.context q).definition slot, y ≠ z

/-- What the code reads behind the end of the function is no store and no branch. -/
def NoSinkBehind (S : Subject) (g : ControlFlowGraph) : Prop :=
  ∀ b x, g.Internal b x → S.length ≤ x.stop → S.leavesSink x.stop = false

/-- At its last visit no two definitions of a return register that an exit block leaves
alone come to the block. -/
def ReturnsUnjoined (S : Subject) (g : ControlFlowGraph) (σ : Nat → State) (N : Nat) : Prop :=
  ∀ n b x, LastVisit σ N n b → g.Internal b x → x.isExit = true → ∀ loc ∈ definedByCall, ∀ slot,
    loc.slot? = some slot → S.blockEffectAt g slot b = .pass → ¬ (σ n).Joins g b slot

/-- An instruction inside the function. -/
def NodeKind.Inside (S : Subject) (kind : NodeKind) : Prop :=
  kind.index < S.length ∧ kind.isReturn = false

section
variable {S : Subject} {H : HashOrder} {g : ControlFlowGraph} {σ : Nat → State} {N n b : Nat}
  {st : State} {fuel : Nat}

/-- A storage element has several definitions at the end of a block iff the block leaves
it alone and several come to it. -/
theorem LastVisit.joins_iff (hlast : LastVisit σ N n b) (h : Trace S H g σ N) (slot : Slot) :
    2 ≤ (((σ N).context b).definition slot).card ↔
      S.blockEffectAt g slot b = .pass ∧ (σ n).Joins g b slot := by
  obtain ⟨result, hvisited, hctx⟩ := hlast.context h
  have hslot := hvisited.extends_block.slot slot
  rw [hctx]
  cases he : S.blockEffectAt g slot b with
  | pass =>
    rw [he] at hslot
    have hdef : result.flowContext.definition slot = (initBlockContext g (σ n) b).definition slot :=
      hslot
    rw [hdef, and_iff_right rfl, Nat.succ_le_iff, Finset.one_lt_card]
    constructor
    · intro hex
      obtain ⟨y, hy, z, hz, hne⟩ := hex
      obtain ⟨p, hp, hy⟩ := mem_initBlockContext.mp hy
      obtain ⟨q, hq, hz⟩ := mem_initBlockContext.mp hz
      exact ⟨p, hp, y, hy, q, hq, z, hz, hne⟩
    · intro hjoins
      obtain ⟨p, hp, y, hy, q, hq, z, hz, hne⟩ := hjoins
      exact ⟨y, mem_initBlockContext.mpr ⟨p, hp, hy⟩, z, mem_initBlockContext.mpr ⟨q, hq, hz⟩, hne⟩
  | kill =>
    rw [he] at hslot
    rw [show result.flowContext.definition slot = ∅ from hslot]
    simp
  | gen d =>
    rw [he] at hslot
    obtain ⟨x, hx, _⟩ := hslot
    rw [hx]
    simp

theorem mem_definedByCall_of_returned {loc : CpuMemoryLocation} (h : loc ∈ returned g st b) :
    loc ∈ definedByCall := by
  unfold returned at h
  split at h
  · exact (List.mem_filter.mp h).1
  · cases h

/-- Instructions of the function get their inputs from instructions of the function. -/
theorem Trace.closed_inside (h : Trace S H g σ N) (hcfa : functionCFA S = .ok g) :
    (σ N).Closed (NodeKind.Inside S) fun b => g.startOf b < S.length := by
  have hw := functionCFA_wellFormed S hcfa
  have hcontained := functionCFA_contained hcfa
  have hstart : ∀ b x, g.Internal b x → g.startOf b = x.start := fun b x hx => by
    rw [startOf, Internal.block_eq hx]
  refine h.closed hw (fun b x hx hin kind hk => ?_) (fun b x hx hout => ?_)
    (fun b x hx kind hk => ?_) (le_refl N)
  · rw [hstart b x hx] at hin
    have hstop := hcontained.inside b x hx hin
    have hlt := hk.index_lt
    exact ⟨by omega, hk.isReturn⟩
  · rw [hstart b x hx] at hout
    refine ⟨(hcontained.behind b x hx (by omega)).2.1, fun kind hk hP => ?_⟩
    have hge := hk.index_ge
    have hlt := hP.1
    omega
  · intro hP
    rcases hk.class_eq with ⟨loc, rfl⟩ | ⟨loc, rfl⟩
    · exact absurd hP.2 (by simp [NodeKind.isReturn])
    · exact lt_irrefl _ hP.1

/-- The sinks are inside the function, and so are their inputs. -/
theorem Trace.sinks_inside (h : Trace S H g σ N) (hcfa : functionCFA S = .ok g)
    (hok : functionDFA S H g fuel = .ok (σ N)) (hbehind : NoSinkBehind S g)
    (hreturns : ReturnsUnjoined S g σ N) {x : NodeId} (hx : x ∈ (σ N).blockSinks b) :
    (∃ kind, (σ N).heap.kind? x = some kind ∧ kind.index < S.length) ∧
      ∀ y ∈ (σ N).heap.inputs x, (σ N).heap.Has (NodeKind.Inside S) y := by
  have hw := functionCFA_wellFormed S hcfa
  have hcontained := functionCFA_contained hcfa
  have hclosed := h.closed_inside hcfa
  obtain ⟨block, hblock, ⟨pc, hpc, hkind⟩ | ⟨hexit, loc, hkind⟩⟩ := mem_blockSinks hcfa hok hx
  · obtain ⟨hlo, hhi, hleaves⟩ := Subject.mem_sinkInsns.mp hpc
    have hlt : pc < S.length := by
      rcases Nat.lt_or_ge block.start S.length with hin | hout
      · have := hcontained.inside b block hblock hin
        omega
      · obtain ⟨hstop, _⟩ := hcontained.behind b block hblock hout
        obtain rfl : pc = block.stop := by omega
        rw [hbehind b block hblock (by omega)] at hleaves
        cases hleaves
    have hhas : (σ N).heap.Has (NodeKind.Inside S) x := ⟨_, hkind, hlt, rfl⟩
    exact ⟨⟨_, hkind, hlt⟩, fun y hy => hclosed.heap.has_input hhas hy⟩
  · have hstart : block.start < S.length := by
      by_contra hout
      have hnot := (hcontained.behind b block hblock (by omega)).2.2
      rw [hexit] at hnot
      cases hnot
    refine ⟨⟨_, hkind, hcontained.inside b block hblock hstart⟩, fun y hy => ?_⟩
    -- the return value is that of a return register, with its definitions
    obtain ⟨hreturned, hret⟩ := (h.returning (le_refl N) b).returnOf hx hkind
    obtain ⟨slot, z, hslot, hne, hinputs, hstands⟩ := hret.input
    rw [hinputs, List.mem_singleton] at hy
    subst hy
    cases hstands with
    | functionInput hempty _ => exact absurd hempty hne
    | definition hd =>
      refine hclosed.context b ?_ slot y (by rw [hd]; exact Finset.mem_singleton_self y)
      rw [startOf, Internal.block_eq hblock]
      exact hstart
    | phi opVars hcard _ _ =>
      obtain ⟨m, hlast⟩ := (h.run hw).exists_last (worklist_of_ok hok)
        (mem_internalBlocks.mpr hblock.isInternal)
      have hlast := (h.last_iff hw).mp hlast
      obtain ⟨hpass, hjoins⟩ := (hlast.joins_iff h slot).mp hcard
      exact absurd hjoins (hreturns m b block hlast hblock hexit loc
        (mem_definedByCall_of_returned hreturned) slot hslot hpass)

/-- **Every node a sink depends on has an index in the function iff nothing read behind the
end is a store or a branch, and no two definitions of a return register come to an exit
block that leaves it alone.** -/
theorem functionDFA_indices_iff (hcfa : functionCFA S = .ok g)
    (hok : functionDFA S H g fuel = .ok st) (h : Trace S H g σ N) (hst : σ N = st) :
    IndicesInside S st ↔ NoSinkBehind S g ∧ ReturnsUnjoined S g σ N := by
  subst hst
  have hw := functionCFA_wellFormed S hcfa
  constructor
  · intro hall
    constructor
    · intro b x hx hlen
      by_contra hleaves
      have hpc : x.stop ∈ S.sinkInsns x := Subject.mem_sinkInsns.mpr
        ⟨hw.ordered b x hx, le_refl _, by simpa using hleaves⟩
      have hkind : NodeKind.sink x.stop ∈ sinkKinds S x ((σ N).context b) :=
        List.mem_append_left _ (List.mem_map.mpr ⟨_, hpc, rfl⟩)
      obtain ⟨y, hy, hkind⟩ := ((functionDFA_haveKinds hcfa hok).1 b x hx).exists_node hkind
      obtain ⟨kind, hkind', hlt⟩ := hall y (.sink hy)
      obtain rfl := Option.some.inj (hkind.symm.trans hkind')
      exact absurd hlt (Nat.not_lt.mpr hlen)
    · intro n b x hlast hx hexit loc hcall slot hslot hpass hjoins
      have hcard := (hlast.joins_iff h slot).mpr ⟨hpass, hjoins⟩
      have hne : ((σ N).context b).definition slot ≠ ∅ := by
        intro hempty
        rw [hempty] at hcard
        simp at hcard
      have hreturned : loc ∈ returned g (σ N) b := by
        rw [returned, Internal.block_eq hx, if_pos hexit]
        exact List.mem_filter.mpr ⟨hcall, FlowContext.defined_iff.mpr ⟨slot, hslot, hne⟩⟩
      obtain ⟨y, hy, hret⟩ := (h.returning (le_refl N) b).exists_returnOf hreturned
      obtain ⟨slot', z, hslot', _, hinputs, hstands⟩ := hret.input
      obtain rfl := Option.some.inj (hslot.symm.trans hslot')
      cases hstands with
      | functionInput hempty _ => exact hne hempty
      | definition hd =>
        rw [hd] at hcard
        simp at hcard
      | phi opVars _ hphi _ =>
        have hdep : DependedOn (σ N) z :=
          .input (.sink hy) (by rw [hinputs]; exact List.mem_singleton_self z)
        obtain ⟨kind, hkind, hlt⟩ := hall z hdep
        rw [Heap.kind?, hphi] at hkind
        obtain rfl := Option.some.inj hkind
        exact lt_irrefl _ hlt
  · rintro ⟨hbehind, hreturns⟩ x hx
    have hclosed := (h.closed_inside hcfa).heap
    have hboth : (∃ kind, (σ N).heap.kind? x = some kind ∧ kind.index < S.length) ∧
        ∀ y ∈ (σ N).heap.inputs x, (σ N).heap.Has (NodeKind.Inside S) y := by
      induction hx with
      | sink hx => exact h.sinks_inside hcfa hok hbehind hreturns hx
      | input _ hy ih =>
        have hhas := ih.2 _ hy
        obtain ⟨kind, hkind, hin⟩ := hhas
        exact ⟨⟨kind, hkind, hin.1⟩, fun z hz => hclosed.has_input ⟨kind, hkind, hin⟩ hz⟩
    exact hboth.1

end

end DataFlowAnalysis

open DataFlowAnalysis

theorem functionDFA_indices_iff_storesInLoop : ∃ g st σ N,
    ControlFlowAnalysis.functionCFA storesInLoop = .ok g ∧
      functionDFA storesInLoop .ascending g 20 = .ok st ∧
      Trace storesInLoop .ascending g σ N ∧ σ N = st ∧
      (IndicesInside storesInLoop st ↔
        NoSinkBehind storesInLoop g ∧ ReturnsUnjoined storesInLoop g σ N) := by
  obtain ⟨g, st, σ, N, hcfa, hok, h, hst⟩ := exists_run storesInLoop .ascending 20 (by decide +kernel)
  exact ⟨g, st, σ, N, hcfa, hok, h, hst, functionDFA_indices_iff hcfa hok h hst⟩

/-- `li r3,1; beq` to the last instruction; `addi r3,r3,1; blr`. -/
def mayIncrement : Subject :=
  assembledSubject [0x38600001, 0x41820008, 0x38630001, 0x4e800020] 4 (by decide)

theorem mayIncrement_analysable : mayIncrement.Analysable :=
  assembledSubject_analysable (by decide) (by decide) (by decide +kernel) (by decide +kernel)

/-- The two definitions of `r3` meet in the block of the `blr`, whose return value has a phi
node with the index 4. -/
theorem mayIncrement_index : ¬ ∀ (S : Subject) (H : HashOrder) (g : ControlFlowGraph) (fuel : Nat)
    (st : State), S.Analysable → ControlFlowAnalysis.functionCFA S = .ok g →
      functionDFA S H g fuel = .ok st → IndicesInside S st := by
  intro hall
  obtain ⟨g, hcfa, hrun⟩ := exists_ok (p := fun g =>
    returns (functionDFA mayIncrement .ascending g 20) fun st => decide (
      ∃ x ∈ st.blockSinks 1, ∃ y ∈ st.heap.inputs x, st.heap.kind? y = some (.phi 4 ⟨.GPR, 3⟩)))
    (x := ControlFlowAnalysis.functionCFA mayIncrement) (by decide +kernel)
  obtain ⟨st, hok, hcheck⟩ := exists_ok hrun
  obtain ⟨x, hx, y, hy, hphi⟩ := of_decide_eq_true hcheck
  obtain ⟨kind, hkind, hlt⟩ := hall mayIncrement .ascending g 20 st mayIncrement_analysable hcfa hok y
    (.input (.sink hx) hy)
  rw [hphi] at hkind
  obtain rfl := Option.some.inj hkind
  exact absurd hlt (by decide)

end Ppc2cpp
