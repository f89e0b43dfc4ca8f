import Ppc2cpp.Analysis.Analysed
import Ppc2cpp.Analysis.ComparisonTermination
import Ppc2cpp.DataFlow.DfgVisualizer

/-! The data-flow graph has no cycle, whatever loops the code has.

A node is made with inputs that are there already, so that its inputs have lower addresses
than the node (`Trace.ordered`); a later visit of a block makes new nodes and leaves the
old ones alone. Both recursions over the graph go from a node to its inputs, and so they
end although neither looks where it has been: the comparison of nodes goes no deeper than
there are nodes (`compareVarNodes_depth`), and so does the drawing of the graph
(`outputDfgDotRecurse_returns`). What two references lead to is not in the graph: the
comparison returns if that of the references it comes to does
(`compareVarNodes_returns`). -/
namespace Ppc2cpp
open Ranking EarlyCache Matching

section Returns

theorem value_returns {α : Type} (x : Option α) : Returns (value x) := by
  cases x <;> simp [value]

theorem mapM_returns {α β : Type} {f : α → Except Error β} {xs : List α}
    (h : ∀ x ∈ xs, Returns (f x)) : Returns (xs.mapM f) := by
  induction xs with
  | nil => exact returns_pure _
  | cons x xs ih =>
    rw [List.mapM_cons]
    refine (h x List.mem_cons_self).bind fun y => ?_
    exact (ih fun x' hx' => h x' (List.mem_cons_of_mem _ hx')).bind fun ys => returns_pure _

end Returns

/-! ### The comparison of nodes -/

/-- The relocation of a `ReferenceNode`. -/
def NodeKind.reloc? : NodeKind → Option Relocation
  | .reference _ _ reloc => some reloc
  | _ => none

def Heap.reloc? (heap : Heap) (x : NodeId) : Option Relocation := (heap.kind? x).bind NodeKind.reloc?

namespace ProgramComparator
variable {C : ProgramComparator} {fuel : Nat} {side1 side2 : Side}

theorem compareInsns_returns (insnIdx1 insnIdx2 : Nat) :
    Returns (C.compareInsns side1 side2 insnIdx1 insnIdx2) := by
  unfold compareInsns
  dsimp only
  split
  · exact (value_returns _).bind fun _ => (value_returns _).bind fun _ => returns_pure _
  · exact returns_pure _

/-- The comparison of two references at the same place below two nodes returns. -/
def ReferencesReturn (C : ProgramComparator) (fuel : Nat) (heap1 heap2 : Heap)
    (var1 var2 : NodeId) : Prop :=
  ∀ x1 x2, Together heap1.inputs heap2.inputs var1 var2 x1 x2 → ∀ reloc1 reloc2,
    heap1.reloc? x1 = some reloc1 → heap2.reloc? x2 = some reloc2 →
      Returns (C.compareRelocations fuel reloc1 reloc2)

/-- Of two nodes without their inputs only relocations are compared by a recursion. -/
theorem compareKinds_returns {kind1 kind2 : NodeKind}
    (hrelocs : ∀ reloc1 reloc2, kind1.reloc? = some reloc1 → kind2.reloc? = some reloc2 →
      Returns (C.compareRelocations fuel reloc1 reloc2)) :
    Returns (C.compareKinds fuel side1 side2 kind1 kind2) := by
  unfold compareKinds
  split
  · exact compareInsns_returns _ _
  · exact compareInsns_returns _ _
  · exact compareInsns_returns _ _
  · exact returns_ok _
  · exact returns_ok _
  · exact hrelocs _ _ rfl rfl
  all_goals exact returns_ok _

theorem expand_returns {pair : NodePair} (hrelocs : ∀ reloc1 reloc2,
    side1.heap.reloc? pair.1 = some reloc1 → side2.heap.reloc? pair.2 = some reloc2 →
      Returns (C.compareRelocations fuel reloc1 reloc2)) :
    Returns (C.expand fuel side1 side2 pair) := by
  unfold expand
  refine (at?_returns _ _).bind_of_ok fun node1 hnode1 => ?_
  refine (at?_returns _ _).bind_of_ok fun node2 hnode2 => ?_
  refine Returns.bind (compareKinds_returns fun reloc1 reloc2 h1 h2 => ?_) fun agree => ?_
  · refine hrelocs reloc1 reloc2 ?_ ?_
    · rw [Heap.reloc?, Heap.kind?, at?_eq_ok.mp hnode1]
      exact h1
    · rw [Heap.reloc?, Heap.kind?, at?_eq_ok.mp hnode2]
      exact h2
  · cases agree <;> exact returns_pure _

/-- The comparison comes from two nodes to nodes at the same place below them. -/
theorem together_of_comesDownTo {var1 var2 : NodeId} {pair : NodePair}
    (h : Relation.ReflTransGen (ComesDownTo (C.expand fuel side1 side2)) (var1, var2) pair) :
    Together side1.heap.inputs side2.heap.inputs var1 var2 pair.1 pair.2 := by
  induction h with
  | refl => exact .refl
  | tail _ hdown ih =>
    obtain ⟨questions, last, hexpand, hmem⟩ := hdown
    rw [expand_reduced hexpand] at hmem
    obtain ⟨i, hi⟩ := List.mem_iff_getElem?.mp hmem
    obtain ⟨hinput1, hinput2⟩ := List.getElem?_zip_eq_some.mp hi
    exact ih.child hinput1 hinput2

section
variable (hacyclic : side1.func.dfg.Acyclic)
include hacyclic

/-- The nodes of a graph without cycles are ranked below their number. -/
theorem exists_nodeRank (C : ProgramComparator) (fuel : Nat) (side2 : Side) :
    ∃ rank : NodeId → Nat, Decreases (C.expand fuel side1 side2) (fun pair => rank pair.1) ∧
      ∀ x < side1.heap.length, rank x < side1.heap.length := by
  obtain ⟨rank, hlt, hbound⟩ := hacyclic.acyclic.exists_rank (Finset.range side1.heap.length)
    fun x y hxy => Finset.mem_range.mpr (hacyclic.inputs x y hxy)
  rw [Finset.card_range] at hbound
  exact ⟨rank, decreases_of_rank hlt, fun x hx => hbound x (Finset.mem_range.mpr hx)⟩

/-- **The recursion of the comparison goes no deeper than there are nodes** in a graph
without cycles, whatever the references lead to. -/
theorem compareVarNodes_depth {depth : Nat} (hdepth : side1.heap.length ≤ depth) {var1 : NodeId}
    (hvar1 : var1 < side1.heap.length) (var2 : NodeId) (cache : VarNodeComparisonCache) :
    C.compareVarNodes fuel side1 side2 depth var1 var2 cache =
      C.compareVarNodes fuel side1 side2 side1.heap.length var1 var2 cache := by
  obtain ⟨rank, hdec, hbound⟩ := exists_nodeRank hacyclic C fuel side2
  rw [compareVarNodes_eq_ask, compareVarNodes_eq_ask]
  exact ask_eq_of_depth VarNodeComparisonCache.asCache hdec
    (lt_of_lt_of_le (hbound var1 hvar1) hdepth) (hbound var1 hvar1) cache

/-- **The comparison of nodes returns** if that of the references it comes to does. -/
theorem compareVarNodes_returns {var1 : NodeId} (hvar1 : var1 < side1.heap.length) {var2 : NodeId}
    (hrelocs : C.ReferencesReturn fuel side1.heap side2.heap var1 var2)
    (cache : VarNodeComparisonCache) :
    Returns (C.compareVarNodes fuel side1 side2 side1.heap.length var1 var2 cache) := by
  obtain ⟨rank, hdec, hbound⟩ := exists_nodeRank hacyclic C fuel side2
  rw [compareVarNodes_eq_ask]
  refine ask_ne_stuck VarNodeComparisonCache.asCache hdec (fun pair hpair => ?_)
    (hbound var1 hvar1) cache
  exact expand_returns (hrelocs pair.1 pair.2 (together_of_comesDownTo hpair))

end

end ProgramComparator

/-! ### The drawing of the graph -/

theorem cpuMemorySpace2label_returns (memLoc : CpuMemoryLocation) :
    Returns (cpuMemorySpace2label memLoc) := by
  unfold cpuMemorySpace2label sprAlias
  split
  case h_6 => split_ifs <;> simp
  all_goals exact returns_ok _

namespace DfgVisualizer
variable {D : Ppcdisasm} {programLoader : ProgramLoader} {func : Function}

theorem getNodeId_returns (kind : NodeKind) : Returns (getNodeId kind) := by
  cases kind with
  | functionInput index loc => exact (cpuMemorySpace2label_returns loc).bind fun _ => returns_pure _
  | callReturn index loc => exact (cpuMemorySpace2label_returns loc).bind fun _ => returns_pure _
  | ret index loc => exact (cpuMemorySpace2label_returns loc).bind fun _ => returns_pure _
  | _ => exact returns_ok _

theorem getDotLabel_returns (kind : NodeKind) :
    Returns (getDotLabel D programLoader func kind) := by
  unfold getDotLabel
  refine (programLoader.getBufferAtLocation_returns _).bind fun maybeBuf => ?_
  refine (value_returns _).bind fun funcPtr => ?_
  cases kind with
  | result index opindex loc => exact (value_returns _).bind fun _ => returns_pure _
  | sink index => exact (value_returns _).bind fun _ => returns_pure _
  | callReturn index loc => exact (cpuMemorySpace2label_returns loc).bind fun _ => returns_pure _
  | ret index loc => exact (cpuMemorySpace2label_returns loc).bind fun _ => returns_pure _
  | functionInput index loc => exact cpuMemorySpace2label_returns loc
  | immediate index opindex imm => exact returns_pure _
  | phi index loc => exact returns_pure _
  | reference index opindex reloc =>
    dsimp only
    split
    · exact returns_pure _
    · refine (programLoader.locationString_returns _).bind fun source => ?_
      refine (programLoader.locationString_returns _).bind fun destination => ?_
      exact fun h => nomatch h

theorem outputNode_returns (kind : NodeKind) : Returns (outputNode D programLoader func kind) :=
  (getNodeId_returns kind).bind fun _ => (getDotLabel_returns kind).bind fun _ => returns_pure _

/-- The drawing from a node goes no deeper than the rank of the node. -/
theorem outputDfgDotRecurse_returns_of_rank {rank : NodeId → Nat}
    (h : ∀ x y, x ∈ func.dfg.heap.inputs y → rank x < rank y) {depth : Nat} {var : NodeId}
    (hvar : rank var < depth) :
    Returns (outputDfgDotRecurse D programLoader func depth var) := by
  induction depth generalizing var with
  | zero => exact absurd hvar (Nat.not_lt_zero _)
  | succ depth ih =>
    rw [outputDfgDotRecurse]
    cases hnode : at? func.dfg.heap var with
    | error e =>
      have hreturns := at?_returns func.dfg.heap var
      rw [hnode] at hreturns
      exact fun h => hreturns (congrArg Except.error (Except.error.inj h))
    | ok node =>
      show Returns (if node.inputs = [] then _ else _)
      split
      · exact returns_pure _
      · refine (mapM_returns fun _ _ => at?_returns _ _).bind fun inputs => ?_
        refine (mapM_returns fun _ _ => outputNode_returns _).bind fun nodes => ?_
        refine (mapM_returns fun _ _ => getNodeId_returns _).bind fun ids => ?_
        refine (getNodeId_returns _).bind fun id => ?_
        refine Returns.bind (mapM_returns fun input hinput => ih ?_) fun rest => returns_pure _
        refine lt_of_lt_of_le (h input var ?_) (Nat.le_of_lt_succ hvar)
        rw [Heap.inputs, at?_eq_ok.mp hnode]
        exact hinput

/-- **The recursion of the drawing ends** on a graph without cycles. -/
theorem outputDfgDotRecurse_returns (hacyclic : func.dfg.Acyclic) {depth : Nat}
    (hdepth : func.dfg.heap.length ≤ depth) {var : NodeId} (hvar : var < func.dfg.heap.length) :
    Returns (outputDfgDotRecurse D programLoader func depth var) := by
  obtain ⟨rank, hlt, hbound⟩ := hacyclic.acyclic.exists_rank (Finset.range func.dfg.heap.length)
    fun x y hxy => Finset.mem_range.mpr (hacyclic.inputs x y hxy)
  rw [Finset.card_range] at hbound
  exact outputDfgDotRecurse_returns_of_rank hlt
    (lt_of_lt_of_le (hbound var (Finset.mem_range.mpr hvar)) hdepth)

end DfgVisualizer

/-! ### Every graph the analysis gets to -/

namespace DataFlowAnalysis
open DfgVisualizer

/-- **The graph has no cycle** after any number of visits of blocks, the contexts and the
sinks hold nodes of it, and so both recursions over it end: that of the comparison goes no
deeper than there are nodes, whatever is compared with the graph. -/
theorem functionDFA_acyclic {S : Subject} {H : HashOrder} {g : ControlFlowGraph}
    {σ : Nat → State} {N n : Nat} (hcfa : ControlFlowAnalysis.functionCFA S = .ok g)
    (h : Trace S H g σ N) (hn : n ≤ N) :
    (σ n).Acyclic ∧ (∀ b s, ∀ x ∈ ((σ n).context b).definition s, x < (σ n).heap.length) ∧
      (∀ (C : ProgramComparator) (fuel : Nat) (side1 side2 : ProgramComparator.Side),
        side1.func.dfg = σ n → ∀ var1 < (σ n).heap.length, ∀ var2 cache,
          (∀ depth ≥ (σ n).heap.length,
            C.compareVarNodes fuel side1 side2 depth var1 var2 cache =
              C.compareVarNodes fuel side1 side2 (σ n).heap.length var1 var2 cache) ∧
          (C.ReferencesReturn fuel side1.heap side2.heap var1 var2 →
            Returns (C.compareVarNodes fuel side1 side2 (σ n).heap.length var1 var2 cache))) ∧
      ∀ (D : Ppcdisasm) (programLoader : ProgramLoader) (func : Function), func.dfg = σ n →
        ∀ var < (σ n).heap.length,
          Returns (outputDfgDotRecurse D programLoader func (σ n).heap.length var) := by
  have hw := ControlFlowAnalysis.functionCFA_wellFormed S hcfa
  have ho := h.ordered hw (madeKinds_true S g) hn
  refine ⟨ho.acyclic, ho.context, ?_, ?_⟩
  · intro C fuel side1 side2 hside var1 hvar1 var2 cache
    have hacyclic : side1.func.dfg.Acyclic := hside ▸ ho.acyclic
    have hlength : side1.heap.length = (σ n).heap.length := by rw [← hside]; rfl
    rw [← hlength] at hvar1 ⊢
    constructor
    · intro depth hdepth
      exact ProgramComparator.compareVarNodes_depth hacyclic hdepth hvar1 var2 cache
    · intro hrelocs
      exact ProgramComparator.compareVarNodes_returns hacyclic hvar1 hrelocs cache
  · intro D programLoader func hfunc var hvar
    have hacyclic : func.dfg.Acyclic := hfunc ▸ ho.acyclic
    have hlength : func.dfg.heap.length = (σ n).heap.length := by rw [← hfunc]
    exact outputDfgDotRecurse_returns hacyclic hlength.le (hlength ▸ hvar)

end DataFlowAnalysis

/-- To `counter`. -/
def counterReference : Relocation := ⟨⟨⟨0, 2⟩, 0⟩, ⟨⟨0, 20⟩, 0⟩, 4, 0⟩

/-- Of the call in `helper` to `helper`. -/
def helperReference : Relocation := ⟨⟨⟨0, 16⟩, 0⟩, ⟨⟨0, 16⟩, 0⟩, relocREL24, 0⟩

/-- `li r3,counter@l; addi r3,r3,1; beq` to the `addi`; `blr`, in front of `helper: bl helper`,
which is static, and of `counter`. -/
def countsUp : Subject where
  disasm := Excerpt.ppcdisasm
  loader := assembled [0x38600000, 0x38630001, 0x4182fffc, 0x4e800020, 0x48000001, 0]
    (SymbolTable.constructLocationIndex
      {symbols := [⟨"helper", ⟨⟨0, 16⟩, 0⟩, 4, .FUNCTION, .LOCAL⟩,
        ⟨"counter", ⟨⟨0, 20⟩, 0⟩, 4, .DATA, .GLOBAL⟩]})
    (RelocationTable.constructSourceIndex {relocs := [counterReference, helperReference]})
  func := assembledSymbol 4
  buffer := [0x38600000, 0x38630001, 0x4182fffc, 0x4e800020, 0x48000001, 0].flatMap wordBytes
  located := (assembledSubject [0x38600000, 0x38630001, 0x4182fffc, 0x4e800020, 0x48000001, 0] 4
    (by decide)).located

/-- The `addi` takes a value that goes around the loop. The comparison of the function with
itself returns, although that of the reference in `helper` does not. -/
theorem functionDFA_acyclic_countsUp : ∃ A : Analysed, A.subject = countsUp ∧
    (∃ x, A.dfg.heap.kind? x = some (.phi 1 ⟨.GPR, 3⟩)) ∧
    (∃ x, A.dfg.heap.reloc? x = some counterReference) ∧
    A.dfg.Acyclic ∧ (∀ var1 < A.dfg.heap.length, ∀ var2 cache,
      Returns ((countsUp.comparator countsUp).compareVarNodes 1 A.side A.side A.dfg.heap.length
        var1 var2 cache)) ∧
    ∀ fuel, ¬ Returns ((countsUp.comparator countsUp).compareRelocations fuel helperReference
      helperReference) := by
  obtain ⟨A, hsubject, _, hcheck⟩ := Analysed.exists_of_check countsUp .ascending 20
    (p := fun _ st => decide ((∃ x < st.heap.length, st.heap.kind? x = some (.phi 1 ⟨.GPR, 3⟩)) ∧
      (∃ x < st.heap.length, st.heap.reloc? x = some counterReference) ∧
      ∀ x < st.heap.length, st.heap.reloc? x ∈ [none, some counterReference])) (by decide +kernel)
  obtain ⟨⟨x, _, hphi⟩, ⟨y, _, hrefers⟩, honly⟩ := of_decide_eq_true hcheck
  have hacyclic := DataFlowAnalysis.functionDFA_acyclic A.cfa A.isTrace (le_refl A.steps)
  rw [A.result] at hacyclic
  obtain ⟨hacyclic, _, hcompare, _⟩ := hacyclic
  have hcounter : ∀ x reloc, A.dfg.heap.reloc? x = some reloc → reloc = counterReference := by
    intro x reloc hreloc
    obtain ⟨kind, hkind, _⟩ := Option.bind_eq_some_iff.mp hreloc
    obtain ⟨node, hnode, _⟩ := Option.map_eq_some_iff.mp hkind
    have hmem := honly x (List.getElem?_eq_some_iff.mp hnode).1
    rw [hreloc] at hmem
    simpa using hmem
  refine ⟨A, hsubject, ⟨x, hphi⟩, ⟨y, hrefers⟩, hacyclic, fun var1 hvar1 var2 cache => ?_, ?_⟩
  · refine (hcompare _ 1 A.side A.side rfl var1 hvar1 var2 cache).2 ?_
    intro x1 x2 _ reloc1 reloc2 h1 h2
    rw [hcounter x1 reloc1 h1, hcounter x2 reloc2 h2]
    exact returns_ok true
  · intro fuel hreturns
    exact hreturns (ProgramComparator.compareRelocations_stuck rfl fuel)

end Ppc2cpp
