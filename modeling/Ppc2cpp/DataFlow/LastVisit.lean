import Ppc2cpp.DataFlow.Refinement
import Ppc2cpp.Lib.FreshFlow.Exactness

/-! The last visit of each block, and the instructions in it.

The nodes of an instruction that matter in the end are those its block's last visit
built (`LastVisit`, `InsnAt`). The definitions in front of the instruction are those
that come into the block, followed by the effects of the instructions before it
(`InsnAt.slot`), and every definition in a context is a node that defines something
(`Trace.defined`). -/
namespace Ppc2cpp
open GenKill

namespace DataFlowAnalysis
open ControlFlowGraph BlockState

/-- The block visited next is `b`. -/
def State.Visits (st : State) (b : Nat) : Prop := st.worklist.head? = some b

/-- The state a visit of `b` starts from. -/
def State.entering (g : ControlFlowGraph) (st : State) (b : Nat) : BlockState :=
  ⟨st.heap, initBlockContext g st b, []⟩

/-- The visit of the instruction `k` places into the block `b`. -/
abbrev InsnAt (S : Subject) (H : HashOrder) (g : ControlFlowGraph) (st : State) (b k : Nat) :=
  InsnVisit S H (g.block b).endsInCall (g.startOf b) (st.entering g b) k

/-- Step `n` visits the block `b` for the last time. -/
structure LastVisit (σ : Nat → State) (N n b : Nat) : Prop where
  lt : n < N
  visits : (σ n).Visits b
  last : ∀ m, n < m → m < N → ¬ (σ m).Visits b

/-- The instructions whose definitions of a storage element a context holds. -/
def State.definedAt (st : State) (b : Nat) (s : Slot) : Set Nat :=
  {d | ∃ x ∈ (st.context b).definition s, st.heap.index x = d}

/-- What is visible after a piece of the analysis is a definition if what was visible
before is. -/
theorem Extends.definitions {Q : Node → Prop} {effect : Slot → Effect Nat} {st st' : BlockState}
    (h : Extends Q effect st st') (hst : ∀ x, st.Holds x → st.heap.IsDefinition x) {x : NodeId}
    (hx : st'.Holds x) : st'.heap.IsDefinition x := by
  obtain ⟨s, hs⟩ := hx
  have hout := h.slot s
  cases he : effect s with
  | pass =>
    rw [he] at hout
    rw [show _ = _ from hout] at hs
    exact (hst x ⟨s, hs⟩).mono h.heap_isPrefix
  | kill =>
    rw [he] at hout
    rw [show _ = _ from hout] at hs
    simp at hs
  | gen d =>
    rw [he] at hout
    obtain ⟨y, hy, _, hd⟩ := hout
    rw [hy, Finset.mem_singleton] at hs
    exact ⟨d, hs ▸ hd⟩

section
variable {S : Subject} {H : HashOrder} {g : ControlFlowGraph} {σ : Nat → State} {N n b : Nat}

theorem Visited.visits {st st' : State} {result : BlockState} (h : Visited S H g st st' b result) :
    st.Visits b := by
  obtain ⟨rest, hlist, _⟩ := h.worklist
  rw [State.Visits, hlist]
  rfl

/-- The visit a step makes. -/
theorem Trace.visited_of_visits (h : Trace S H g σ N) (hn : n < N) (hv : (σ n).Visits b) :
    ∃ result, Visited S H g (σ n) (σ (n + 1)) b result := by
  obtain ⟨c, result, hvisited⟩ := h.visited hn
  obtain rfl : c = b := Option.some.inj (hvisited.visits.symm.trans hv)
  exact ⟨result, hvisited⟩

/-- The block visited is the first of the worklist. -/
theorem Trace.pops_iff (h : Trace S H g σ N) (hw : g.WellFormed) (hn : n < N) :
    (flowGraph S hw).Pops (fun n => (σ n).abs) n b ↔ (σ n).Visits b := by
  constructor
  · intro hpop
    obtain ⟨rest, hlist, _⟩ := FreshFlow.Graph.Step.queue hpop
    change (σ n).worklist = b :: rest at hlist
    rw [State.Visits, hlist]
    rfl
  · intro hv
    obtain ⟨result, hvisited⟩ := h.visited_of_visits hn hv
    exact hvisited.refines hw

theorem Trace.last_iff (h : Trace S H g σ N) (hw : g.WellFormed) :
    (flowGraph S hw).Last (fun n => (σ n).abs) N n b ↔ LastVisit σ N n b := by
  constructor
  · rintro ⟨hlt, hpop, hlast⟩
    exact ⟨hlt, (h.pops_iff hw hlt).mp hpop,
      fun m hm hmN hv => hlast m hm hmN ((h.pops_iff hw hmN).mpr hv)⟩
  · rintro ⟨hlt, hv, hlast⟩
    exact ⟨hlt, (h.pops_iff hw hlt).mpr hv,
      fun m hm hmN hpop => hlast m hm hmN ((h.pops_iff hw hmN).mp hpop)⟩

/-- Blocks of the function are visited, and no others. -/
theorem Trace.internal_of_visits (h : Trace S H g σ N) (hw : g.WellFormed) (hn : n < N)
    (hv : (σ n).Visits b) : g.isInternal b = true := by
  obtain ⟨result, hvisited⟩ := h.visited_of_visits hn hv
  exact h.internal hw hn hvisited

theorem Visited.heap_isPrefix {st st' : State} {result : BlockState}
    (h : Visited S H g st st' b result) : st.heap <+: st'.heap :=
  h.heap ▸ h.extends_block.heap_isPrefix

theorem Trace.heap_isPrefix (h : Trace S H g σ N) {m : Nat} (hmn : m ≤ n) (hn : n ≤ N) :
    (σ m).heap <+: (σ n).heap := by
  induction n, hmn using Nat.le_induction with
  | base => exact List.prefix_refl _
  | succ n _ ih =>
    obtain ⟨b, result, hvisited⟩ := h.visited hn
    exact (ih (by omega)).trans hvisited.heap_isPrefix

/-- **Every definition in a context is a node that defines something.** -/
theorem Trace.defined (h : Trace S H g σ N) (hn : n ≤ N) (s : Slot) {x : NodeId}
    (hx : x ∈ ((σ n).context b).definition s) : (σ n).heap.IsDefinition x := by
  induction n generalizing b s x with
  | zero =>
    obtain ⟨worklist, _, hinit⟩ := h.initial
    rw [hinit, context_initialState] at hx
    simp at hx
  | succ n ih =>
    obtain ⟨c, result, hvisited⟩ := h.visited hn
    rw [hvisited.context] at hx
    by_cases hb : b = c
    · rw [if_pos hb] at hx
      rw [hvisited.heap]
      refine hvisited.extends_block.definitions (fun y hy => ?_) ⟨s, hx⟩
      obtain ⟨s', hy⟩ := hy
      obtain ⟨p, _, hp⟩ := mem_initBlockContext.mp hy
      exact ih (by omega) s' hp
    · rw [if_neg hb] at hx
      exact (ih (by omega) s hx).mono hvisited.heap_isPrefix

theorem Trace.defined_entering (h : Trace S H g σ N) (hn : n ≤ N) {x : NodeId}
    (hx : ((σ n).entering g b).Holds x) : (σ n).heap.IsDefinition x := by
  obtain ⟨s, hx⟩ := hx
  obtain ⟨p, _, hp⟩ := mem_initBlockContext.mp hx
  exact h.defined hn s hp

/-- What the last visit of a block leaves stays to the end. -/
theorem LastVisit.context (hlast : LastVisit σ N n b) (h : Trace S H g σ N) :
    ∃ result, Visited S H g (σ n) (σ (n + 1)) b result ∧ (σ N).context b = result.flowContext := by
  obtain ⟨result, hvisited⟩ := h.visited_of_visits hlast.lt hlast.visits
  refine ⟨result, hvisited, ?_⟩
  have hkept : ∀ m, n + 1 ≤ m → m ≤ N → (σ m).context b = result.flowContext := by
    intro m hm
    induction m, hm using Nat.le_induction with
    | base => exact fun _ => (hvisited.context b).trans (if_pos rfl)
    | succ m hm ih =>
      intro hmN
      obtain ⟨c, other, hother⟩ := h.visited hmN
      have hne : b ≠ c := by
        rintro rfl
        exact hlast.last m hm hmN hother.visits
      rw [hother.context, if_neg hne]
      exact ih (by omega)
  exact hkept N hlast.lt (le_refl N)

/-- A run of both analyses, from a check that they return. -/
theorem exists_run (S : Subject) (H : HashOrder) (fuel : Nat)
    (hcheck : returns (ControlFlowAnalysis.functionCFA S) (fun g =>
      returns (functionDFA S H g fuel) fun _ => true) = true) :
    ∃ g st σ N, ControlFlowAnalysis.functionCFA S = .ok g ∧ functionDFA S H g fuel = .ok st ∧
      Trace S H g σ N ∧ σ N = st := by
  obtain ⟨g, hcfa, hrun⟩ := exists_ok hcheck
  obtain ⟨st, hok, _⟩ := exists_ok hrun
  obtain ⟨σ, N, h, _, hst, _⟩ := functionDFA_ok_iff.mp hok
  exact ⟨g, st, σ, N, hcfa, hok, h, hst⟩

/-! ### Instructions in a visit -/

variable {k : Nat} {st : State}

/-- The state in front of an instruction of a visit. -/
theorem InsnAt.extends_before (v : InsnAt S H g st b k) :
    Extends (fun node => True ∧ Sources (st.entering g b) v.before node)
      (fun s => prefixEffect g.startOf (S.effectAt g s) b k) (st.entering g b) v.before :=
  processInsns_extends g.startOf (fun b => (g.block b).endsInCall) v.reached

/-- What has become of a storage element in front of an instruction. -/
theorem InsnAt.slot (v : InsnAt S H g st b k) (s : Slot) :
    Outcome (st.entering g b) v.before s (prefixEffect g.startOf (S.effectAt g s) b k) :=
  v.extends_before.slot s

theorem InsnAt.before_isPrefix (v : InsnAt S H g st b k) : v.before.heap <+: v.withInputs.heap :=
  (insnInputs_spec v.built).1.heap_isPrefix

/-- Every instruction of the block is visited. -/
theorem Trace.insnAt (h : Trace S H g σ N) (hn : n < N) (hv : (σ n).Visits b)
    (hk : g.startOf b + k ≤ g.stopOf b) : ∃ v : InsnAt S H g (σ n) b k,
      v.withInputs.heap <+: (σ (n + 1)).heap := by
  obtain ⟨result, hvisited⟩ := h.visited_of_visits hn hv
  obtain ⟨v, hpre⟩ := processBlock_visit hvisited.visit hk
  exact ⟨v, hvisited.heap ▸ hpre⟩

/-- The node of an input operand. -/
theorem Trace.operand (h : Trace S H g σ N) (hn : n < N) (hv : (σ n).Visits b)
    (hk : g.startOf b + k ≤ g.stopOf b) (v : InsnAt S H g (σ n) b k) {j : Nat}
    {loc : CpuMemoryLocation} (hj : v.insnUD.inputs[j]? = some loc) :
    ∃ slot x, loc.slot? = some slot ∧ v.insnInputs[operandBase v.insnUD + j]? = some x ∧
      Stands (σ N).heap (v.before.flowContext.definition slot) (g.startOf b + k) loc x := by
  obtain ⟨w, hpre⟩ := h.insnAt hn hv hk
  obtain rfl := v.unique w
  obtain ⟨_, _, _, hops⟩ := insnInputs_spec v.built
  obtain ⟨slot, x, hslot, hx, hstands⟩ := hops j loc hj
  exact ⟨slot, x, hslot, hx,
    hstands.mono (hpre.trans (h.heap_isPrefix (show n + 1 ≤ N by omega) (le_refl N)))⟩

/-- The definitions in front of an instruction are nodes that define something. -/
theorem Trace.defined_before (h : Trace S H g σ N) (hn : n < N) (hv : (σ n).Visits b)
    (hk : g.startOf b + k ≤ g.stopOf b) (v : InsnAt S H g (σ n) b k) {slot : Slot} {x : NodeId}
    (hx : x ∈ v.before.flowContext.definition slot) : (σ N).heap.IsDefinition x := by
  obtain ⟨w, hpre⟩ := h.insnAt hn hv hk
  obtain rfl := v.unique w
  have hdef := v.extends_before.definitions
    (fun y hy => h.defined_entering (show n ≤ N by omega) hy) ⟨slot, hx⟩
  exact hdef.mono ((v.before_isPrefix.trans hpre).trans
    (h.heap_isPrefix (show n + 1 ≤ N by omega) (le_refl N)))

end

end DataFlowAnalysis

end Ppc2cpp
