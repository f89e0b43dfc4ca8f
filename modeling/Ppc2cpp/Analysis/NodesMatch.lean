import Ppc2cpp.Analysis.CacheFree
import Ppc2cpp.Lib.Matching

/-! What the comparison of functions by their data flow decides.

Two nodes match if they agree without their inputs and their inputs match in order
(`NodesMatch`). The inputs of a node are older than the node, so the cache of the
comparison is not seen (`Analysis/CacheFree.lean`), and the verdict without a cache says
whether the nodes match (`compareFunctionFlows_iff`). -/
namespace Ppc2cpp
open Matching EarlyCache

namespace ProgramComparator

/-- Two instructions compare equal if they have the same mnemonic and are in blocks with the
same index. -/
theorem compareInsns_iff {C : ProgramComparator} {side1 side2 : Side} {insnIdx1 insnIdx2 : Nat} :
    C.compareInsns side1 side2 insnIdx1 insnIdx2 = .ok true ↔
      side1.opcode C.disasm insnIdx1 = side2.opcode C.disasm insnIdx2 ∧
        ∃ b, side1.func.cfg.findBlockByInsnIdx insnIdx1 = some b ∧
          side2.func.cfg.findBlockByInsnIdx insnIdx2 = some b := by
  unfold compareInsns
  dsimp only
  by_cases hopcode : side1.opcode C.disasm insnIdx1 = side2.opcode C.disasm insnIdx2
  · rw [if_neg (not_not_intro hopcode)]
    cases side1.func.cfg.findBlockByInsnIdx insnIdx1 with
    | none => simp [pure, Except.pure]
    | some b =>
      simp only [pure, Except.pure, hopcode, true_and, Except.ok.injEq, Bool.and_eq_true,
        beq_iff_eq, Option.isSome_some, and_true, Option.some.injEq]
      exact ⟨fun h => ⟨b, rfl, h.symm⟩, fun ⟨_, hb, h⟩ => hb ▸ h.symm⟩
  · rw [if_pos hopcode]
    simp [hopcode, bind_eq_ok, pure, Except.pure]

section
variable (C : ProgramComparator) (fuel : Nat) (side1 side2 : Side)

/-- The nodes at two addresses agree without their inputs. -/
def KindsMatch (x y : NodeId) : Prop :=
  ∃ kind1 kind2, side1.heap.kind? x = some kind1 ∧ side2.heap.kind? y = some kind2 ∧
    C.compareKinds fuel side1 side2 kind1 kind2 = .ok true

/-- The nodes at two addresses agree, and so does everything they depend on. -/
def NodesMatch : NodeId → NodeId → Prop :=
  Match (C.KindsMatch fuel side1 side2) side1.heap.inputs side2.heap.inputs

/-- The sinks of the blocks match in order, and the blocks have the same successors. -/
def FlowsMatch : Prop :=
  side1.func.cfg.blocks.length = side2.func.cfg.blocks.length ∧
    ∀ b < side1.func.cfg.blocks.length,
      List.Forall₂ (C.NodesMatch fuel side1 side2) (side1.func.dfg.blockSinks b)
        (side2.func.dfg.blockSinks b) ∧
      side1.func.cfg.succ b = side2.func.cfg.succ b

end

section
variable {C : ProgramComparator} {fuel : Nat} {side1 side2 : Side}
  {verdict : NodeId → NodeId → Except Error Bool}

theorem allEqual_iff {M : NodeId → NodeId → Prop} {xs : List NodeId}
    (h : ∀ x ∈ xs, ∀ y, verdict x y = .ok true ↔ M x y) (ys : List NodeId) :
    allEqual verdict xs ys = .ok true ↔ List.Forall₂ M xs ys := by
  induction xs generalizing ys with
  | nil =>
    cases ys with
    | nil => exact ⟨fun _ => .nil, fun _ => rfl⟩
    | cons y ys => exact ⟨(fun h => nomatch h), (fun h => nomatch h)⟩
  | cons x xs ih =>
    cases ys with
    | nil => exact ⟨(fun h => nomatch h), (fun h => nomatch h)⟩
    | cons y ys =>
      rw [List.forall₂_cons, ← h x List.mem_cons_self y,
        ← ih (fun x' hx' => h x' (List.mem_cons_of_mem _ hx')) ys, allEqual, bind_eq_ok]
      constructor
      · intro hok
        obtain ⟨equal, hequal, hrest⟩ := hok
        cases equal with
        | false => cases hrest
        | true => exact ⟨hequal, hrest⟩
      · intro hok
        exact ⟨true, hok⟩

/-- **The verdict without a cache is `true` iff the nodes match.** -/
theorem CacheFree.eq_true_iff {P : NodeKind → Prop} (hverdict : C.CacheFree fuel side1 side2 verdict)
    (ho : side1.heap.Ordered P) (x y : NodeId) :
    verdict x y = .ok true ↔ C.NodesMatch fuel side1 side2 x y := by
  induction x using Nat.strong_induction_on generalizing y with
  | _ x ih =>
    have hinputs : ∀ node1, side1.heap[x]? = some node1 → ∀ inputs2,
        allEqual verdict node1.inputs inputs2 = .ok true ↔
          List.Forall₂ (C.NodesMatch fuel side1 side2) node1.inputs inputs2 :=
      fun node1 hnode1 => allEqual_iff fun a ha b => ih a (ho.inputs x node1 hnode1 a ha) b
    rw [hverdict x y]
    simp only [bind_eq_ok, at?_eq_ok]
    constructor
    · intro h
      obtain ⟨node1, hnode1, node2, hnode2, agree, hkinds, h⟩ := h
      cases agree with
      | false => cases h
      | true =>
        refine match_iff.mpr ⟨⟨node1.kind, node2.kind, ?_, ?_, hkinds⟩, ?_⟩
        · rw [Heap.kind?, hnode1, Option.map_some]
        · rw [Heap.kind?, hnode2, Option.map_some]
        · rw [Heap.inputs, Heap.inputs, hnode1, hnode2]
          exact (hinputs node1 hnode1 node2.inputs).mp h
    · intro h
      obtain ⟨⟨kind1, kind2, hkind1, hkind2, hkinds⟩, hmatch⟩ := match_iff.mp h
      obtain ⟨node1, hnode1, rfl⟩ := Option.map_eq_some_iff.mp hkind1
      obtain ⟨node2, hnode2, rfl⟩ := Option.map_eq_some_iff.mp hkind2
      rw [Heap.inputs, Heap.inputs, hnode1, hnode2] at hmatch
      exact ⟨node1, hnode1, node2, hnode2, true, hkinds,
        (hinputs node1 hnode1 node2.inputs).mpr hmatch⟩

/-- The rank of a pair of nodes in order. -/
theorem decreases_of_ordered {P : NodeKind → Prop} (ho : side1.heap.Ordered P) :
    Decreases (C.expand fuel side1 side2) Prod.fst :=
  decreases_of_rank fun _ _ hx => ho.lt_of_mem_inputs hx

/-- With an empty cache. -/
theorem compareVarNodes_iff {P : NodeKind → Prop} (ho : side1.heap.Ordered P) {depth : Nat}
    {x : NodeId} (hx : x < depth) (y : NodeId) :
    (∃ cache, C.compareVarNodes fuel side1 side2 depth x y [] = .ok (true, cache)) ↔
      C.NodesMatch fuel side1 side2 x y := by
  have hdec : Decreases (C.expand fuel side1 side2) Prod.fst := decreases_of_ordered ho
  obtain ⟨verdict, hverdict, _⟩ := exists_cacheFree hdec
  have hrank : Prod.fst (x, y) < depth := hx
  have hanswer := compareVarNodes_answersAs hdec hverdict hrank
    (sound_empty VarNodeComparisonCache.asCache _)
  rw [← hverdict.eq_true_iff ho x y]
  exact hanswer.yes_iff

/-! ### The verdict -/

/-- A function has sinks and a table entry for each block, and the sinks are nodes. -/
structure Side.Fits (P : NodeKind → Prop) (side : Side) : Prop where
  sinks : side.func.dfg.sinks.length = side.func.cfg.blocks.length
  table : side.func.cfg.blocks.length ≤ side.func.cfg.psTable.length
  ordered : side.func.dfg.Ordered P

theorem Side.Fits.at?_sinks {P : NodeKind → Prop} {side : Side} (h : side.Fits P) {b : Nat}
    (hb : b < side.func.cfg.blocks.length) :
    at? side.func.dfg.sinks b = .ok (side.func.dfg.blockSinks b) := by
  have hlt : b < side.func.dfg.sinks.length := h.sinks ▸ hb
  rw [at?_eq_ok, DataFlowAnalysis.State.blockSinks, List.getD_eq_getElem?_getD,
    List.getElem?_eq_getElem hlt, Option.getD_some]

theorem Side.Fits.at?_psTable {P : NodeKind → Prop} {side : Side} (h : side.Fits P) {b : Nat}
    (hb : b < side.func.cfg.blocks.length) :
    ∃ entry, at? side.func.cfg.psTable b = .ok entry ∧ entry.succ = side.func.cfg.succ b := by
  have hlt : b < side.func.cfg.psTable.length := lt_of_lt_of_le hb h.table
  refine ⟨_, at?_eq_ok.mpr (List.getElem?_eq_getElem hlt), ?_⟩
  rw [ControlFlowGraph.succ, List.getD_eq_getElem?_getD, List.getElem?_eq_getElem hlt,
    Option.getD_some]

/-- One iteration of the loop over the blocks. -/
theorem compareBlocksBy_succ_iff {P Q : NodeKind → Prop} (h1 : side1.Fits P) (h2 : side2.Fits Q)
    {remaining b : Nat} (hb : b < side1.func.cfg.blocks.length) :
    compareBlocksBy verdict side1.func side2.func (remaining + 1) b = .ok true ↔
      b < side2.func.cfg.blocks.length ∧ side1.func.cfg.succ b = side2.func.cfg.succ b ∧
        allEqual verdict (side1.func.dfg.blockSinks b) (side2.func.dfg.blockSinks b) = .ok true ∧
        compareBlocksBy verdict side1.func side2.func remaining (b + 1) = .ok true := by
  rw [compareBlocksBy]
  by_cases hb2 : side2.func.cfg.blocks.length ≤ b
  · rw [if_pos hb2]
    refine iff_of_false (fun h => ?_) fun h => absurd h.1 (Nat.not_lt.mpr hb2)
    cases h
  · obtain ⟨entry1, hentry1, hsucc1⟩ := h1.at?_psTable hb
    obtain ⟨entry2, hentry2, hsucc2⟩ := h2.at?_psTable (Nat.lt_of_not_le hb2)
    rw [if_neg hb2, h1.at?_sinks hb, h2.at?_sinks (Nat.lt_of_not_le hb2), hentry1, hentry2,
      ← hsucc1, ← hsucc2]
    simp only [bind_eq_ok, Except.ok.injEq, exists_eq_left']
    constructor
    · intro h
      obtain ⟨equal, hsinks, h⟩ := h
      cases equal with
      | false => cases h
      | true =>
        change (if entry1.succ ≠ entry2.succ then Except.ok false else _) = _ at h
        by_cases hsucc : entry1.succ = entry2.succ
        · rw [if_neg (not_not_intro hsucc)] at h
          exact ⟨Nat.lt_of_not_le hb2, hsucc, hsinks, h⟩
        · rw [if_pos hsucc] at h
          cases h
    · intro h
      obtain ⟨_, hsucc, hsinks, h⟩ := h
      refine ⟨true, hsinks, ?_⟩
      change (if entry1.succ ≠ entry2.succ then Except.ok false else _) = _
      rw [if_neg (not_not_intro hsucc)]
      exact h

/-- The loop over the blocks. -/
theorem compareBlocksBy_iff {P Q : NodeKind → Prop} (h1 : side1.Fits P) (h2 : side2.Fits Q)
    {remaining b : Nat} (hrem : b + remaining = side1.func.cfg.blocks.length) :
    compareBlocksBy verdict side1.func side2.func remaining b = .ok true ↔
      side2.func.cfg.blocks.length ≤ side1.func.cfg.blocks.length ∧
        ∀ i, b ≤ i → i < side1.func.cfg.blocks.length → i < side2.func.cfg.blocks.length ∧
          allEqual verdict (side1.func.dfg.blockSinks i) (side2.func.dfg.blockSinks i) = .ok true ∧
          side1.func.cfg.succ i = side2.func.cfg.succ i := by
  induction remaining generalizing b with
  | zero =>
    rw [compareBlocksBy, Except.ok.injEq, decide_eq_true_eq]
    exact ⟨fun h => ⟨h, fun i hi hlt => absurd hlt (by omega)⟩, fun h => h.1⟩
  | succ remaining ih =>
    rw [compareBlocksBy_succ_iff h1 h2 (by omega), ih (by omega)]
    constructor
    · intro h
      obtain ⟨hb2, hsucc, hsinks, hlen, hrest⟩ := h
      refine ⟨hlen, fun i hi hlt => ?_⟩
      rcases Nat.eq_or_lt_of_le hi with rfl | hi
      · exact ⟨hb2, hsinks, hsucc⟩
      · exact hrest i hi hlt
    · intro h
      obtain ⟨hlen, hall⟩ := h
      obtain ⟨hb2, hsinks, hsucc⟩ := hall b (le_refl b) (by omega)
      exact ⟨hb2, hsucc, hsinks, hlen, fun i hi => hall i (by omega)⟩

theorem compareBlocks_flows {P Q : NodeKind → Prop} (h1 : side1.Fits P) (h2 : side2.Fits Q) :
    C.compareBlocks fuel side1 side2 side1.func.cfg.blocks.length 0 [] = .ok true ↔
      C.FlowsMatch fuel side1 side2 := by
  have hdec : Decreases (C.expand fuel side1 side2) Prod.fst :=
    decreases_of_ordered h1.ordered.heap
  obtain ⟨verdict, hverdict, _⟩ := exists_cacheFree hdec
  have hsinks : ∀ b, allEqual verdict (side1.func.dfg.blockSinks b) (side2.func.dfg.blockSinks b) =
      .ok true ↔ List.Forall₂ (C.NodesMatch fuel side1 side2) (side1.func.dfg.blockSinks b)
        (side2.func.dfg.blockSinks b) :=
    fun b => allEqual_iff (fun x _ y => hverdict.eq_true_iff h1.ordered.heap x y) _
  have hblocks : C.compareBlocks fuel side1 side2 side1.func.cfg.blocks.length 0 [] =
      compareBlocksBy verdict side1.func side2.func side1.func.cfg.blocks.length 0 :=
    compareBlocks_eq hdec hverdict (fun b x hx _ => h1.ordered.sinks b x hx) _ _
      (sound_empty VarNodeComparisonCache.asCache _)
  rw [hblocks, compareBlocksBy_iff h1 h2 (Nat.zero_add _)]
  simp only [hsinks]
  constructor
  · intro h
    obtain ⟨hle, hall⟩ := h
    refine ⟨le_antisymm (Nat.le_of_not_lt fun hlt => ?_) hle, fun b hb => (hall b (Nat.zero_le b) hb).2⟩
    exact lt_irrefl _ (hall _ (Nat.zero_le _) hlt).1
  · intro h
    obtain ⟨hlen, hall⟩ := h
    exact ⟨hlen.ge, fun i _ hi => ⟨hlen ▸ hi, hall i hi⟩⟩

end

end ProgramComparator

/-! ### Analysed functions -/

namespace Subject

/-- The function with the results of its analyses. -/
def function (S : Subject) (g : ControlFlowGraph) (st : DataFlowAnalysis.State) : Function where
  toSymbol := S.func
  cfg := g
  dfg := st

def side (S : Subject) (g : ControlFlowGraph) (st : DataFlowAnalysis.State) :
    ProgramComparator.Side where
  func := S.function g st
  funcptr := S.buffer

/-- The comparator of the programs of two functions. -/
def comparator (S₁ S₂ : Subject) : ProgramComparator where
  disasm := S₁.disasm
  pLoader1 := S₁.loader
  pLoader2 := S₂.loader

end Subject

namespace ProgramComparator
open DataFlowAnalysis

variable {S₁ S₂ : Subject} {H₁ H₂ : HashOrder} {g₁ g₂ : ControlFlowGraph} {fuel₁ fuel₂ : Nat}
  {st₁ st₂ : State}

theorem side_fits {P : NodeKind → Prop} (hw : g₁.WellFormed) (hP : MadeKinds P S₁ g₁)
    (hok : functionDFA S₁ H₁ g₁ fuel₁ = .ok st₁) : (S₁.side g₁ st₁).Fits P where
  sinks := by
    obtain ⟨σ, N, h, _, rfl, _⟩ := functionDFA_ok_iff.mp hok
    exact (h.fits (le_refl N)).sinks
  table := hw.room
  ordered := functionDFA_ordered hw hP hok

/-- **The verdict on two analysed functions is `true` iff their flows match.** -/
theorem compareFunctionFlows_iff (fuel : Nat) (hw₁ : g₁.WellFormed) (hw₂ : g₂.WellFormed)
    (hok₁ : functionDFA S₁ H₁ g₁ fuel₁ = .ok st₁) (hok₂ : functionDFA S₂ H₂ g₂ fuel₂ = .ok st₂) :
    (S₁.comparator S₂).compareFunctionFlows fuel (S₁.function g₁ st₁) (S₂.function g₂ st₂) =
        .ok true ↔
      (S₁.comparator S₂).FlowsMatch fuel (S₁.side g₁ st₁) (S₂.side g₂ st₂) := by
  have hptr₁ : (S₁.comparator S₂).pLoader1.getBufferAtLocation (S₁.function g₁ st₁).location =
      .ok (some S₁.buffer) := S₁.located
  have hptr₂ : (S₁.comparator S₂).pLoader2.getBufferAtLocation (S₂.function g₂ st₂).location =
      .ok (some S₂.buffer) := S₂.located
  rw [compareFunctionFlows, hptr₁, hptr₂]
  exact compareBlocks_flows (side_fits hw₁ (madeKinds_true S₁ g₁) hok₁)
    (side_fits hw₂ (madeKinds_true S₂ g₂) hok₂)

end ProgramComparator

end Ppc2cpp
