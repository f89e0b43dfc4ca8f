import Ppc2cpp.ControlFlow.Soundness
import Ppc2cpp.DataFlow.LastVisit

/-! The value a register has at the entry.

A context has no entry for the value a storage element holds when the function is
called; an empty set stands for it. Where paths meet, the set is the union over the
paths, so a definition on one of them hides the value that comes along another. The
node of an input register is a `FunctionInputNode` exactly where no definition reaches,
whatever comes along clear paths (`functionDFA_entry_iff`). -/
namespace Ppc2cpp

namespace DataFlowAnalysis
open ControlFlowGraph GenKill

/-- A node for the value of a location at the entry, or a phi that has one among its
inputs. -/
def StandsForEntry (heap : Heap) (loc : CpuMemoryLocation) (x : NodeId) : Prop :=
  (∃ i, heap.kind? x = some (.functionInput i loc)) ∨
    (∃ i l, heap.kind? x = some (.phi i l)) ∧
      ∃ y ∈ heap.inputs x, ∃ i, heap.kind? y = some (.functionInput i loc)

/-- In the last visit of every internal block, the node built for an input register that
some path from the entry neither defines nor kills stands for its value there. -/
def EntryKept (S : Subject) (H : HashOrder) (g : ControlFlowGraph) (σ : Nat → State) (N : Nat) :
    Prop :=
  ∀ n b k, LastVisit σ N n b → g.startOf b + k ≤ g.stopOf b →
    ∀ (v : InsnAt S H g (σ n) b k) (j : Nat) (loc : CpuMemoryLocation) (slot : Slot),
      v.insnUD.inputs[j]? = some loc → loc.slot? = some slot →
      S.EntryClear g slot b (g.startOf b + k) →
      ∃ x, v.insnInputs[operandBase v.insnUD + j]? = some x ∧ StandsForEntry (σ N).heap loc x

/-- No input register has both a clear path from the entry and a definition that
reaches. -/
def Unmasked (S : Subject) (g : ControlFlowGraph) : Prop :=
  ∀ b, g.isInternal b = true → ∀ pc, g.startOf b ≤ pc → pc ≤ g.stopOf b →
    ∀ opcode insnUD, S.decode pc = .ok (opcode, insnUD) → ∀ loc ∈ insnUD.inputs, ∀ slot,
      loc.slot? = some slot → ¬ (S.EntryClear g slot b pc ∧ ∃ d, S.ReachesInsn g slot d b pc)

section
variable {S : Subject} {H : HashOrder} {g : ControlFlowGraph} {σ : Nat → State} {N n b k : Nat}

/-- A definition is not a node for the entry. -/
theorem not_functionInput {heap : Heap} {loc : CpuMemoryLocation} {x : NodeId}
    (h : heap.IsDefinition x) : ¬ ∃ i, heap.kind? x = some (.functionInput i loc) := by
  rintro ⟨i, hi⟩
  obtain ⟨d, hd⟩ := h
  rw [Heap.defines, hi] at hd
  cases hd

/-- The node built for a register stands for its value at the entry iff the register has
no definition. -/
theorem Stands.entry_iff {heap : Heap} {d : Definition} {pc : Nat} {loc : CpuMemoryLocation}
    {x : NodeId} (h : Stands heap d pc loc x) (hd : ∀ y ∈ d, heap.IsDefinition y) :
    StandsForEntry heap loc x ↔ d = ∅ := by
  cases h with
  | functionInput hempty hx =>
    refine iff_of_true (.inl ⟨pc, ?_⟩) hempty
    rw [Heap.kind?, hx]
    rfl
  | definition hsingle =>
    have hdef := hd x (by rw [hsingle]; exact Finset.mem_singleton_self x)
    refine iff_of_false ?_ (by rw [hsingle]; exact Finset.singleton_ne_empty x)
    rintro (hentry | ⟨⟨i, l, hphi⟩, _⟩)
    · exact not_functionInput hdef hentry
    · obtain ⟨e, he⟩ := hdef
      rw [Heap.defines, hphi] at he
      cases he
  | phi opVars hcard hx hmem =>
    refine iff_of_false ?_ (by rintro rfl; simp at hcard)
    rintro (⟨i, hi⟩ | ⟨_, y, hy, hentry⟩)
    · rw [Heap.kind?, hx] at hi
      cases hi
    · rw [Heap.inputs, hx] at hy
      exact not_functionInput (hd y ((hmem y).mp hy)) hentry

/-- **Where nothing before it in the block touches a storage element, an instruction of a
last visit sees a definition iff one reaches.** -/
theorem Trace.nonempty_before (h : Trace S H g σ N) (hw : g.WellFormed)
    (hend : (σ N).worklist = []) (hlast : LastVisit σ N n b) (hk : g.startOf b + k ≤ g.stopOf b)
    (v : InsnAt S H g (σ n) b k) {slot : Slot}
    (hpass : prefixEffect g.startOf (S.effectAt g slot) b k = .pass) :
    (v.before.flowContext.definition slot).Nonempty ↔
      ∃ d, S.ReachesInsn g slot d b (g.startOf b + k) := by
  have hrun := h.run hw
  have hlast' := (h.last_iff hw).mpr hlast
  have hb : b ∈ (flowGraph S hw).blocks :=
    hlast'.pops.mem_blocks (hrun.inv (show n ≤ N by have := hlast.lt; omega)).worklist
  have hslot := v.slot slot
  rw [hpass] at hslot
  rw [show _ = _ from hslot]
  have hreach : (∃ d, S.ReachesInsn g slot d b (g.startOf b + k)) ↔
      ∃ p ∈ g.pred b, ∃ d, Reaches (flowGraph S hw).Edge
        (fun b => (flowGraph S hw).effect b slot) d p := by
    unfold Subject.ReachesInsn
    simp only [reachesBefore_point hk, BeforeFrom, hpass, reduceCtorEq, false_or, true_and,
      reaches_block_iff hw.startOf_le]
    constructor
    · rintro ⟨d, p, hp, hd⟩
      exact ⟨p, hp, d, hd⟩
    · rintro ⟨p, hp, d, hd⟩
      exact ⟨d, p, hp, hd⟩
  rw [hreach]
  -- the predecessors are non-empty now iff they are in the end
  have hpred : ∀ p ∈ g.pred b, (((σ n).context p).definition slot).Nonempty ↔
      ∃ d, Reaches (flowGraph S hw).Edge (fun b => (flowGraph S hw).effect b slot) d p := by
    intro p hp
    rw [← hrun.nonempty_iff hend ((flowGraph S hw).pred_mem b hb p hp) slot]
    exact (hrun.nonempty_last hend hlast' hb hp slot).symm
  constructor
  · rintro ⟨x, hx⟩
    obtain ⟨p, hp, hmem⟩ := mem_initBlockContext.mp hx
    exact ⟨p, hp, (hpred p hp).mp ⟨x, hmem⟩⟩
  · rintro ⟨p, hp, hd⟩
    obtain ⟨x, hx⟩ := (hpred p hp).mpr hd
    exact ⟨x, mem_initBlockContext.mpr ⟨p, hp, hx⟩⟩

theorem Trace.entryKept_iff (h : Trace S H g σ N) (hw : g.WellFormed) (hend : (σ N).worklist = []) :
    EntryKept S H g σ N ↔ Unmasked S g := by
  -- what the node of an operand with a clear path stands for
  have hoperand : ∀ n b k, LastVisit σ N n b → g.startOf b + k ≤ g.stopOf b →
      ∀ (v : InsnAt S H g (σ n) b k) j loc slot, v.insnUD.inputs[j]? = some loc →
        loc.slot? = some slot → S.EntryClear g slot b (g.startOf b + k) →
        ∃ x, v.insnInputs[operandBase v.insnUD + j]? = some x ∧
          (StandsForEntry (σ N).heap loc x ↔ ¬ ∃ d, S.ReachesInsn g slot d b (g.startOf b + k)) := by
    intro n b k hlast hk v j loc slot hj hslot hclear
    obtain ⟨slot', x, hslot', hx, hstands⟩ := h.operand hlast.lt hlast.visits hk v hj
    obtain rfl := Option.some.inj (hslot.symm.trans hslot')
    refine ⟨x, hx, ?_⟩
    rw [hstands.entry_iff fun y hy => h.defined_before hlast.lt hlast.visits hk v hy,
      ← h.nonempty_before hw hend hlast hk v ((clear_point_iff hw.startOf_le hk).mp hclear).2,
      Finset.not_nonempty_iff_eq_empty]
  constructor
  · intro hkept b hb pc hlo hhi opcode insnUD hdecode loc hloc slot hslot hboth
    obtain ⟨n, hlast⟩ := (h.run hw).exists_last hend (mem_internalBlocks.mpr hb)
    have hlast := (h.last_iff hw).mp hlast
    obtain ⟨k, rfl⟩ := Nat.exists_eq_add_of_le hlo
    obtain ⟨v, _⟩ := h.insnAt hlast.lt hlast.visits hhi
    obtain ⟨_, rfl⟩ := Prod.mk.inj (Except.ok.inj (hdecode.symm.trans v.decoded))
    obtain ⟨j, hj⟩ := List.mem_iff_getElem?.mp hloc
    obtain ⟨x, hx, hiff⟩ := hoperand n b k hlast hhi v j loc slot hj hslot hboth.1
    obtain ⟨y, hy, hentry⟩ := hkept n b k hlast hhi v j loc slot hj hslot hboth.1
    obtain rfl := Option.some.inj (hx.symm.trans hy)
    exact hiff.mp hentry hboth.2
  · intro hunmasked n b k hlast hk v j loc slot hj hslot hclear
    obtain ⟨x, hx, hiff⟩ := hoperand n b k hlast hk v j loc slot hj hslot hclear
    refine ⟨x, hx, hiff.mpr fun hreach => ?_⟩
    have hb := ((h.last_iff hw).mpr hlast).pops.mem_blocks
      ((h.run hw).inv (show n ≤ N by have := hlast.lt; omega)).worklist
    exact hunmasked b (mem_internalBlocks.mp hb) _ (Nat.le_add_right _ _) hk _ _ v.decoded loc
      (List.mem_of_getElem? hj) slot hslot ⟨hclear, hreach⟩

/-- **The values at the entry are kept iff no definition reaches where a clear path comes
from the entry.** -/
theorem functionDFA_entry_iff (S : Subject) (H : HashOrder) {g : ControlFlowGraph} {fuel : Nat}
    {st : State} {σ : Nat → State} {N : Nat} (hcfa : ControlFlowAnalysis.functionCFA S = .ok g)
    (hok : functionDFA S H g fuel = .ok st) (h : Trace S H g σ N) (hst : σ N = st) :
    EntryKept S H g σ N ↔ Unmasked S g :=
  h.entryKept_iff (ControlFlowAnalysis.functionCFA_wellFormed S hcfa) (hst ▸ worklist_of_ok hok)

end

theorem functionDFA_entry_backEdge : ∃ g st σ N,
    ControlFlowAnalysis.functionCFA backEdge = .ok g ∧
      functionDFA backEdge .ascending g 8 = .ok st ∧ Trace backEdge .ascending g σ N ∧ σ N = st ∧
      (EntryKept backEdge .ascending g σ N ↔ Unmasked backEdge g) := by
  obtain ⟨g, st, σ, N, hcfa, hok, h, hst⟩ := exists_run backEdge .ascending 8 (by decide +kernel)
  exact ⟨g, st, σ, N, hcfa, hok, h, hst, functionDFA_entry_iff backEdge .ascending hcfa hok h hst⟩

/-- `beq` to 2; `li r4,1; stw r4,0(r3); blr`. -/
def conditionalDefinition : Subject :=
  assembledSubject [0x41820008, 0x38800001, 0x90830000, 0x4e800020] 4 (by decide)

theorem conditionalDefinition_analysable : conditionalDefinition.Analysable :=
  assembledSubject_analysable (by decide) (by decide) (by decide +kernel) (by decide +kernel)

theorem functionCFA_conditionalDefinition :
    ControlFlowAnalysis.functionCFA conditionalDefinition = .ok
      { blocks := [⟨0, 0, .INTERNAL, false, false, false⟩, ⟨2, 3, .INTERNAL, true, false, false⟩,
          ⟨3, 3, .RUNTIME, false, false, false⟩, ⟨1, 1, .INTERNAL, false, false, false⟩]
        psTable := [⟨[], [1, 3]⟩, ⟨[0, 3], [2]⟩, ⟨[1], []⟩, ⟨[0], [1]⟩] } := by
  decide +kernel

/-- The store of r4 is reached from the entry along the branch, and by the definition along
the other path: the store has the definition alone. -/
theorem conditionalDefinition_masks : ¬ ∀ (S : Subject) (H : HashOrder) (g : ControlFlowGraph)
    (fuel : Nat) (st : State) (σ : Nat → State) (N : Nat), S.Analysable →
      ControlFlowAnalysis.functionCFA S = .ok g → functionDFA S H g fuel = .ok st →
      Trace S H g σ N → σ N = st → EntryKept S H g σ N := by
  intro hall
  obtain ⟨g, st, σ, N, hcfa, hok, h, hst⟩ :=
    exists_run conditionalDefinition .ascending 8 (by decide +kernel)
  have hw := ControlFlowAnalysis.functionCFA_wellFormed _ hcfa
  have hkept := hall _ _ g 8 st σ N conditionalDefinition_analysable hcfa hok h hst
  have hunmasked := (h.entryKept_iff hw (hst ▸ worklist_of_ok hok)).mp hkept
  rw [functionCFA_conditionalDefinition, Except.ok.injEq] at hcfa
  subst hcfa
  obtain ⟨opcode, hdecode, hinput⟩ := exists_ok (x := conditionalDefinition.decode 2)
    (p := fun ud => decide (⟨.GPR, 4⟩ ∈ ud.2.inputs)) (by decide +kernel)
  refine hunmasked 1 (by decide) 2 (by decide) (by decide) opcode.1 opcode.2 hdecode ⟨.GPR, 4⟩
    (of_decide_eq_true hinput) (.gpr 4) (by decide) ⟨?_, 1, ?_⟩
  · refine (clear_point_iff (n := 0) hw.startOf_le (by decide)).mpr ⟨?_, rfl⟩
    exact .pass (p := 0) .entry (by decide +kernel) (show 0 ∈ _ by decide)
  · refine (reachesBefore_point (n := 0) (by decide)).mpr (.inr ⟨rfl, 3, show 3 ∈ _ by decide, ?_⟩)
    exact (reaches_block_iff hw.startOf_le).mpr (.gen (by decide +kernel))

end DataFlowAnalysis

end Ppc2cpp
