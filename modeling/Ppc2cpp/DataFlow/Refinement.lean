import Ppc2cpp.ControlFlow.Invariant
import Ppc2cpp.DataFlow.BlockVisit
import Ppc2cpp.Lib.DepthFirst
import Ppc2cpp.Lib.FreshFlow.Basic

/-! `functionDFA` refines the worklist iteration of `FreshFlow`.

The blocks of the flow graph are the internal blocks, the effect of a block is that of
its instructions one after another, and the definitions are told apart by their address
and stand for the instruction of their node. A call of `functionDFAImpl` is a step
(`Visited.refines`), the initial worklist holds every internal block once
(`initWorklist_spec`), so a trace of the analysis is a run (`Trace.run`). -/
namespace Ppc2cpp
open GenKill

/-! ### The control-flow graph as a flow graph -/

namespace ControlFlowGraph
variable (g : ControlFlowGraph)

/-- A block by its index. -/
def block (i : Nat) : BasicBlock := g.blocks.getD i ⟨0, 0, .RUNTIME, false, false, false⟩

def startOf (i : Nat) : Nat := (g.block i).start

def stopOf (i : Nat) : Nat := (g.block i).stop

def Edge (p b : Nat) : Prop := p ∈ g.pred b

def internalBlocks : Finset Nat := (Finset.range g.blocks.length).filter (g.isInternal ·)

def internalSucc (b : Nat) : List Nat := (g.succ b).filter (g.isInternal ·)

variable {g}

theorem isInternal_lt {i : Nat} (h : g.isInternal i = true) : i < g.blocks.length := by
  obtain ⟨x, hx, _⟩ := (g.isInternal_iff i).mp h
  exact (List.getElem?_eq_some_iff.mp hx).1

@[simp] theorem mem_internalBlocks {i : Nat} : i ∈ g.internalBlocks ↔ g.isInternal i = true := by
  simp only [internalBlocks, Finset.mem_filter, Finset.mem_range, and_iff_right_iff_imp]
  exact isInternal_lt

@[simp] theorem mem_internalSucc {b c : Nat} :
    c ∈ g.internalSucc b ↔ c ∈ g.succ b ∧ g.isInternal c = true := by
  simp [internalSucc]

theorem Internal.block_eq {i : Nat} {x : BasicBlock} (h : g.Internal i x) : g.block i = x := by
  rw [block, List.getD_eq_getElem?_getD, h.1]
  rfl

namespace WellFormed
variable (h : g.WellFormed)
include h

theorem startOf_le (i : Nat) : g.startOf i ≤ g.stopOf i := by
  unfold startOf stopOf
  cases hx : g.blocks[i]? with
  | none => simp [block, hx]
  | some x =>
    have hb : g.block i = x := by rw [block, List.getD_eq_getElem?_getD, hx]; rfl
    rw [hb]
    by_cases ht : x.blockType = .INTERNAL
    · exact h.ordered i x ⟨hx, ht⟩
    · exact (h.outside i x hx ht).1.le

theorem mem_pred {i j : Nat} : i ∈ g.pred j ↔ j ∈ g.succ i := by
  rw [← List.count_pos_iff, ← List.count_pos_iff, h.transpose]

theorem internal_of_succ {i j : Nat} (hj : j ∈ g.succ i) : g.isInternal i = true := by
  rw [isInternal_iff]
  rcases Nat.lt_or_ge i g.blocks.length with hi | hi
  · refine ⟨g.blocks[i], List.getElem?_eq_getElem hi, ?_⟩
    by_contra ht
    have hnone := (h.outside i _ (List.getElem?_eq_getElem hi) ht).2.1
    simp [hnone] at hj
  · simp [(h.surplus i hi).1] at hj

theorem internal_of_pred {i j : Nat} (hi : i ∈ g.pred j) : g.isInternal i = true :=
  h.internal_of_succ (h.mem_pred.mp hi)

theorem isInternal_entry : g.isInternal 0 = true := by
  obtain ⟨x, hx, _⟩ := h.entry
  exact hx.isInternal

/-- Every internal block is reached from the entry. -/
theorem reachable {i : Nat} (hi : g.isInternal i = true) :
    Relation.ReflTransGen (fun a b => b ∈ g.internalSucc a) 0 i := by
  induction i using Nat.strong_induction_on with
  | _ i ih =>
    by_cases h0 : i = 0
    · subst h0
      exact .refl
    · obtain ⟨x, hx⟩ := (g.isInternal_iff i).mp hi
      obtain ⟨j, hlt, hj, hsucc⟩ := h.rooted i x hx h0
      exact (ih j hlt hj).tail (mem_internalSucc.mpr ⟨hsucc, hi⟩)

end WellFormed
end ControlFlowGraph

/-- What an instruction of a block does to a storage element. -/
def Subject.effectAt (S : Subject) (g : ControlFlowGraph) (s : Slot) (b pc : Nat) : Effect Nat :=
  S.insnEffect (g.block b).endsInCall pc s

namespace Subject
variable (S : Subject) (g : ControlFlowGraph) (s : Slot) (d b pc : Nat)

/-- The definition by the instruction `d` is there at the end of a block. -/
def ReachesEnd : Prop :=
  Reaches (PointEdge g.Edge g.startOf g.stopOf) (pointEffect (S.effectAt g s)) d (b, g.stopOf b)

/-- The definition by the instruction `d` is there in front of the instruction at `pc` of
a block. -/
def ReachesInsn : Prop :=
  ReachesBefore (PointEdge g.Edge g.startOf g.stopOf) (pointEffect (S.effectAt g s)) d (b, pc)

/-- Some path from the entry to the instruction at `pc` of a block neither defines nor
kills the storage element. -/
def EntryClear : Prop :=
  Clear (PointEdge g.Edge g.startOf g.stopOf) (pointEffect (S.effectAt g s)) (0, g.startOf 0) (b, pc)

def blockEffectAt : Effect Nat := blockEffect g.startOf g.stopOf (S.effectAt g s) b

end Subject

namespace DataFlowAnalysis
open ControlFlowGraph

/-- The flow graph of the internal blocks. -/
def flowGraph (S : Subject) {g : ControlFlowGraph} (hw : g.WellFormed) :
    FreshFlow.Graph Nat Slot Nat where
  blocks := g.internalBlocks
  preds := g.pred
  succs := g.internalSucc
  effect b s := S.blockEffectAt g s b
  pred_mem _ _ _ hp := mem_internalBlocks.mpr (hw.internal_of_pred hp)
  succ_mem _ _ _ hc := mem_internalBlocks.mpr (mem_internalSucc.mp hc).2
  transpose p _ b hb := by
    rw [mem_internalSucc, hw.mem_pred, and_iff_left (mem_internalBlocks.mp hb)]

def State.blockSinks (st : State) (blockIdx : Nat) : List NodeId := st.sinks.getD blockIdx []

def State.abs (st : State) : FreshFlow.State Nat Slot Nat where
  next := st.heap.length
  site := st.heap.index
  ctx b s := (st.context b).definition s
  worklist := st.worklist

/-! ### One step -/

theorem mem_initBlockContext {g : ControlFlowGraph} {st : State} {b : Nat} {s : Slot} {x : NodeId} :
    x ∈ (initBlockContext g st b).definition s ↔
      ∃ p ∈ g.pred b, x ∈ (st.context p).definition s := by
  have hfold : ∀ (preds : List Nat) (c : FlowContext),
      x ∈ (preds.foldl (fun c pred => c.contextUnion (st.context pred)) c).definition s ↔
        x ∈ c.definition s ∨ ∃ p ∈ preds, x ∈ (st.context p).definition s := by
    intro preds
    induction preds with
    | nil => simp
    | cons p preds ih =>
      intro c
      rw [List.foldl_cons, ih]
      simp [or_assoc]
  rw [initBlockContext, hfold]
  simp

theorem mem_queueSuccessors {g : ControlFlowGraph} {successors worklist : List Nat} {c : Nat} :
    c ∈ queueSuccessors g successors worklist ↔
      c ∈ worklist ∨ (c ∈ successors ∧ g.isInternal c = true) := by
  unfold queueSuccessors
  induction successors generalizing worklist with
  | nil => simp
  | cons b successors ih =>
    rw [List.foldl_cons, ih]
    by_cases hi : g.isInternal b = true <;> by_cases hm : b ∈ worklist
    · have hc : c = b → c ∈ worklist := fun he => he ▸ hm
      simp only [hi, hm, not_true_eq_false, decide_false, Bool.and_false, Bool.false_eq_true,
        if_false, List.mem_cons]
      tauto
    · simp only [hi, hm, not_false_eq_true, decide_true, Bool.and_self, if_true, List.mem_cons]
      constructor
      · rintro ((rfl | hc) | hc)
        · exact .inr ⟨.inl rfl, hi⟩
        · exact .inl hc
        · exact .inr ⟨.inr hc.1, hc.2⟩
      · tauto
    all_goals
      have hc : c = b → ¬ g.isInternal c = true := fun he => he ▸ hi
      simp only [hi, Bool.false_and, Bool.false_eq_true, if_false, List.mem_cons]
      tauto

section
variable {S : Subject} {H : HashOrder} {g : ControlFlowGraph} {st st' : State}

/-- A context and a list of sinks for each block. -/
structure State.Fits (g : ControlFlowGraph) (st : State) : Prop where
  contexts : st.blockContexts.length = g.blocks.length
  sinks : st.sinks.length = g.blocks.length

theorem State.Fits.lt_of_mem_blockSinks {st : State} (h : st.Fits g) {b : Nat} {x : NodeId}
    (hx : x ∈ st.blockSinks b) : b < g.blocks.length := by
  rw [← h.sinks]
  by_contra hb
  rw [State.blockSinks, List.getD_eq_getElem?_getD, List.getElem?_eq_none (Nat.le_of_not_lt hb)] at hx
  cases hx

/-- Block `b`, the first of the worklist, was visited with this result. -/
structure Visited (S : Subject) (H : HashOrder) (g : ControlFlowGraph) (st st' : State) (b : Nat)
    (result : BlockState) : Prop where
  visit : processBlock S H (g.block b) st.heap (initBlockContext g st b) = .ok result
  heap : st'.heap = result.heap
  context : ∀ i, st'.context i = if i = b then result.flowContext else st.context i
  sinks : ∀ i, st'.blockSinks i = if i = b then result.blockSinks else st.blockSinks i
  worklist : ∃ rest, st.worklist = b :: rest ∧ st'.worklist =
    if (st.context b).getSizes ≠ result.flowContext.getSizes then
      queueSuccessors g (g.succ b) rest
    else rest
  fits : st'.Fits g

theorem getD_set {α : Type} (xs : List α) {b : Nat} (hb : b < xs.length) (x d : α) (i : Nat) :
    (xs.set b x).getD i d = if i = b then x else xs.getD i d := by
  rw [List.getD_eq_getElem?_getD, List.getElem?_set, List.getD_eq_getElem?_getD]
  by_cases hi : i = b
  · rw [if_pos hi, if_pos hi.symm, if_pos (hi ▸ hb)]
    rfl
  · rw [if_neg hi, if_neg (Ne.symm hi)]

/-- The parts of a step. -/
theorem step_visited {b : Nat} {rest : List Nat} (hf : st.Fits g) (h : step S H g st = .ok st')
    (hlist : st.worklist = b :: rest) : ∃ result, Visited S H g st st' b result := by
  simp only [step, hlist, bind_eq_ok, at?_eq_ok] at h
  obtain ⟨block, hblock, result, hresult, h⟩ := h
  obtain rfl := Except.ok.inj h
  have hlt : b < g.blocks.length := (List.getElem?_eq_some_iff.mp hblock).1
  have hb : g.block b = block := by
    rw [ControlFlowGraph.block, List.getD_eq_getElem?_getD, hblock]
    rfl
  refine ⟨result, hb ▸ hresult, rfl, ?_, ?_, ⟨rest, hlist, rfl⟩, ?_⟩
  · exact getD_set _ (hf.contexts ▸ hlt) _ _
  · exact getD_set _ (hf.sinks ▸ hlt) _ _
  · exact ⟨by simpa using hf.contexts, by simpa using hf.sinks⟩

namespace Visited
variable {b : Nat} {result : BlockState} (h : Visited S H g st st' b result)
include h

theorem extends_block : Extends
    (fun node => True ∧ Sources ⟨st.heap, initBlockContext g st b, []⟩ result node)
    (fun s => S.blockEffectAt g s b) ⟨st.heap, initBlockContext g st b, []⟩ result :=
  processBlock_extends g.block h.visit

theorem changed_iff : FreshFlow.Graph.Changed st.abs st'.abs b ↔
    (st.context b).getSizes ≠ result.flowContext.getSizes := by
  have hctx : st'.context b = result.flowContext := (h.context b).trans (if_pos rfl)
  rw [Ne, FlowContext.getSizes_eq_iff, not_forall, ← hctx]
  exact exists_congr fun s => not_congr eq_comm

theorem worklist_unchanged (hch : ¬ FreshFlow.Graph.Changed st.abs st'.abs b) :
    st'.worklist = st.worklist.tail := by
  obtain ⟨rest, hlist, hnext⟩ := h.worklist
  rw [hnext, if_neg (mt h.changed_iff.mpr hch), hlist, List.tail_cons]

theorem worklist_changed (hch : FreshFlow.Graph.Changed st.abs st'.abs b) :
    st'.worklist = queueSuccessors g (g.succ b) st.worklist.tail := by
  obtain ⟨rest, hlist, hnext⟩ := h.worklist
  rw [hnext, if_pos (h.changed_iff.mp hch), hlist, List.tail_cons]

/-- **A visit is a step of the iteration.** -/
theorem refines (hw : g.WellFormed) : (flowGraph S hw).Step st.abs st'.abs b := by
  have hext := h.extends_block
  have hctx : st'.context b = result.flowContext := (h.context b).trans (if_pos rfl)
  refine ⟨?_, fun n hn => ?_, fun c hc => ?_, fun s => ?_, ?_⟩
  · show st.heap.length ≤ st'.heap.length
    rw [h.heap]
    exact hext.length_le
  · show st'.heap.index n = st.heap.index n
    rw [h.heap]
    exact Heap.index_of_isPrefix hext.heap_isPrefix hn
  · funext s
    show (st'.context c).definition s = (st.context c).definition s
    rw [h.context, if_neg hc]
  · have hslot := hext.slot s
    show (flowGraph S hw).Out _ _ b s (S.blockEffectAt g s b)
    cases he : S.blockEffectAt g s b with
    | pass =>
      rw [he] at hslot
      intro n
      have hdef : result.flowContext.definition s = (initBlockContext g st b).definition s := hslot
      show n ∈ (st'.context b).definition s ↔ _
      rw [hctx, hdef, mem_initBlockContext]
      rfl
    | kill =>
      rw [he] at hslot
      show (st'.context b).definition s = ∅
      rw [hctx]
      exact hslot
    | gen d =>
      rw [he] at hslot
      obtain ⟨x, hx, hmade, hd⟩ := hslot
      refine ⟨x, ?_, hmade.1, ?_, ?_⟩
      · show (st'.context b).definition s = {x}
        rw [hctx, hx]
      · show x < st'.heap.length
        rw [h.heap]
        exact hmade.2
      · show st'.heap.index x = d
        rw [h.heap]
        exact Heap.index_of_defines hd
  · obtain ⟨rest, hlist, _⟩ := h.worklist
    refine ⟨rest, hlist, fun hch => ?_, fun hch c => ?_⟩
    · show st'.worklist = rest
      rw [h.worklist_unchanged hch, hlist, List.tail_cons]
    · show c ∈ st'.worklist ↔ _
      rw [h.worklist_changed hch, hlist, List.tail_cons, mem_queueSuccessors]
      exact or_congr_right mem_internalSucc.symm

end Visited

end

/-! ### The initial worklist -/

section
variable {g : ControlFlowGraph}

theorem initWorklistRecurse_visits (fuel : Nat) : ∀ (b : Nat) (worklist : List Nat),
    g.isInternal b = true → b ∉ worklist →
    (g.internalBlocks \ worklist.toFinset).card < fuel →
    ∃ out, initWorklistRecurse g fuel b worklist = .ok out ∧
      DepthFirst.Visits g.internalSucc worklist [b] out := by
  induction fuel with
  | zero => exact fun _ _ _ _ h => absurd h (Nat.not_lt_zero _)
  | succ fuel ih =>
    intro b worklist hb hnew hfuel
    -- one block fewer is left
    have hless : (g.internalBlocks \ (worklist ++ [b]).toFinset).card < fuel := by
      have hlt : (g.internalBlocks \ (worklist ++ [b]).toFinset).card <
          (g.internalBlocks \ worklist.toFinset).card := by
        refine Finset.card_lt_card ⟨?_, fun hsub => ?_⟩
        · intro c hc
          simp only [Finset.mem_sdiff, List.mem_toFinset, List.mem_append] at hc ⊢
          exact ⟨hc.1, fun h => hc.2 (.inl h)⟩
        · have hmem := hsub (Finset.mem_sdiff.mpr ⟨mem_internalBlocks.mpr hb, by simpa using hnew⟩)
          simp at hmem
      omega
    have hloop : ∀ (succs worklist : List Nat),
        (g.internalBlocks \ worklist.toFinset).card < fuel →
        ∃ out, succs.foldlM (fun worklist successor =>
            if g.isInternal successor && successor ∉ worklist then
              initWorklistRecurse g fuel successor worklist
            else return worklist) worklist = (.ok out : Except Error (List Nat)) ∧
          DepthFirst.Visits g.internalSucc worklist (succs.filter (g.isInternal ·)) out := by
      intro succs
      induction succs with
      | nil => exact fun worklist _ => ⟨worklist, rfl, .done worklist⟩
      | cons c succs ihs =>
        intro worklist hcard
        rw [List.foldlM_cons]
        by_cases hc : g.isInternal c = true
        · rw [List.filter_cons_of_pos hc]
          by_cases hmem : c ∈ worklist
          · obtain ⟨out, hok, hvisit⟩ := ihs worklist hcard
            exact ⟨out, by simpa [hmem] using hok, .skip hmem hvisit⟩
          · obtain ⟨mid, hmid, hvisit⟩ := ih c worklist hc hmem hcard
            have hsub : (g.internalBlocks \ mid.toFinset).card < fuel := by
              refine lt_of_le_of_lt (Finset.card_le_card ?_) hcard
              intro x hx
              simp only [Finset.mem_sdiff, List.mem_toFinset] at hx ⊢
              exact ⟨hx.1, fun h => hx.2 (hvisit.isPrefix.subset h)⟩
            obtain ⟨out, hok, hrest⟩ := ihs mid hsub
            refine ⟨out, ?_, hvisit.append hrest⟩
            simp only [hc, hmem, not_false_eq_true, decide_true, Bool.and_self, if_true, hmid]
            exact hok
        · rw [List.filter_cons_of_neg hc]
          obtain ⟨out, hok, hvisit⟩ := ihs worklist hcard
          exact ⟨out, by simpa [hc] using hok, hvisit⟩
    obtain ⟨out, hok, hvisit⟩ := hloop (g.succ b) (worklist ++ [b]) hless
    refine ⟨out, hok, .enter hnew ?_⟩
    rw [List.append_nil]
    exact hvisit

/-- The initial worklist is the depth-first preorder from the entry. -/
theorem initWorklist_visits (hw : g.WellFormed) : ∃ worklist, initWorklist g = .ok worklist ∧
    DepthFirst.Visits g.internalSucc [] [0] worklist := by
  have hcard : (g.internalBlocks \ ([] : List Nat).toFinset).card < g.blocks.length + 1 := by
    rw [List.toFinset_nil, Finset.sdiff_empty]
    exact Nat.lt_succ_of_le ((Finset.card_filter_le _ _).trans (by simp))
  exact initWorklistRecurse_visits (g.blocks.length + 1) 0 [] hw.isInternal_entry
    List.not_mem_nil hcard

/-- **The initial worklist is the depth-first preorder of the internal blocks.** -/
theorem initWorklist_spec (hw : g.WellFormed) :
    ∃ worklist, initWorklist g = .ok worklist ∧ ∀ b, b ∈ worklist ↔ g.isInternal b = true := by
  obtain ⟨out, hok, hvisit⟩ := initWorklist_visits hw
  refine ⟨out, hok, fun b => ?_⟩
  rw [hvisit.mem_iff]
  constructor
  · intro hpath
    cases hpath with
    | refl => exact hw.isInternal_entry
    | tail _ hb => exact (mem_internalSucc.mp hb).2
  · exact hw.reachable

end

/-! ### Whole traces -/

/-- The first `N` calls of `functionDFAImpl`, by the states before and after each. -/
structure Trace (S : Subject) (H : HashOrder) (g : ControlFlowGraph) (σ : Nat → State) (N : Nat) :
    Prop where
  initial : ∃ worklist, initWorklist g = .ok worklist ∧ σ 0 = initialState g worklist
  step : ∀ n < N, (σ n).worklist ≠ [] ∧ step S H g (σ n) = .ok (σ (n + 1))

section
variable {S : Subject} {H : HashOrder} {g : ControlFlowGraph} {σ : Nat → State} {N : Nat}

theorem context_initialState (g : ControlFlowGraph) (worklist : List Nat) (b : Nat) :
    (initialState g worklist).context b = {} := by
  rw [State.context, initialState, List.getD_eq_getElem?_getD, List.getElem?_replicate]
  split <;> rfl

theorem Trace.fits (h : Trace S H g σ N) {n : Nat} (hn : n ≤ N) : (σ n).Fits g := by
  induction n with
  | zero =>
    obtain ⟨worklist, _, hinit⟩ := h.initial
    rw [hinit]
    exact ⟨by simp [initialState], by simp [initialState]⟩
  | succ n ih =>
    obtain ⟨hne, hstep⟩ := h.step n hn
    obtain ⟨b, rest, hlist⟩ := List.exists_cons_of_ne_nil hne
    obtain ⟨result, hvisited⟩ := step_visited (ih (by omega)) hstep hlist
    exact hvisited.fits

theorem Trace.visited (h : Trace S H g σ N) {n : Nat} (hn : n < N) :
    ∃ b result, Visited S H g (σ n) (σ (n + 1)) b result := by
  obtain ⟨hne, hstep⟩ := h.step n hn
  obtain ⟨b, rest, hlist⟩ := List.exists_cons_of_ne_nil hne
  exact ⟨b, step_visited (h.fits (by omega)) hstep hlist⟩

/-- **A trace of the analysis is a run of the iteration.** -/
theorem Trace.run (h : Trace S H g σ N) (hw : g.WellFormed) :
    (flowGraph S hw).Run (fun n => (σ n).abs) N where
  initial := by
    obtain ⟨worklist, hok, hinit⟩ := h.initial
    obtain ⟨worklist', hok', hmem⟩ := initWorklist_spec hw
    obtain rfl := Except.ok.inj (hok.symm.trans hok')
    rw [hinit]
    refine ⟨fun b s => ?_, fun b => (hmem b).trans mem_internalBlocks.symm⟩
    show ((initialState g worklist).context b).definition s = ∅
    rw [context_initialState]
    rfl
  step n hn := by
    obtain ⟨b, result, hvisited⟩ := h.visited hn
    exact ⟨b, hvisited.refines hw⟩

/-- A block that is visited is inside the function. -/
theorem Trace.internal (h : Trace S H g σ N) (hw : g.WellFormed) {n b : Nat} (hn : n < N)
    {result : BlockState} (hvisited : Visited S H g (σ n) (σ (n + 1)) b result) :
    g.isInternal b = true :=
  mem_internalBlocks.mp
    ((hvisited.refines hw).mem_blocks ((h.run hw).inv (Nat.le_of_lt hn)).worklist)

/-- The states of a trace are determined. -/
theorem Trace.unique {σ' : Nat → State} {N' : Nat} (h : Trace S H g σ N)
    (h' : Trace S H g σ' N') {n : Nat} (hn : n ≤ N) (hn' : n ≤ N') : σ n = σ' n := by
  induction n with
  | zero =>
    obtain ⟨worklist, hok, hinit⟩ := h.initial
    obtain ⟨worklist', hok', hinit'⟩ := h'.initial
    obtain rfl := Except.ok.inj (hok.symm.trans hok')
    rw [hinit, hinit']
  | succ n ih =>
    have hstep := (h.step n hn).2
    rw [ih (by omega) (by omega), (h'.step n hn').2] at hstep
    exact (Except.ok.inj hstep).symm

theorem functionDFAImpl_ok {fuel : Nat} {st st' : State}
    (h : functionDFAImpl S H g fuel st = .ok st') :
    ∃ (τ : Nat → State) (N : Nat), τ 0 = st ∧ τ N = st' ∧ N ≤ fuel ∧ st'.worklist = [] ∧
      ∀ n < N, (τ n).worklist ≠ [] ∧ DataFlowAnalysis.step S H g (τ n) = .ok (τ (n + 1)) := by
  induction fuel generalizing st with
  | zero =>
    unfold functionDFAImpl at h
    by_cases hend : st.worklist = []
    · rw [if_pos hend, Except.ok.injEq] at h
      subst h
      exact ⟨fun _ => st, 0, rfl, rfl, le_refl 0, hend, by simp⟩
    · rw [if_neg hend] at h
      cases h
  | succ fuel ih =>
    unfold functionDFAImpl at h
    by_cases hend : st.worklist = []
    · rw [if_pos hend, Except.ok.injEq] at h
      subst h
      exact ⟨fun _ => st, 0, rfl, rfl, Nat.zero_le _, hend, by simp⟩
    · rw [if_neg hend] at h
      simp only [bind_eq_ok] at h
      obtain ⟨mid, hmid, h⟩ := h
      obtain ⟨τ, N, h0, hN, hle, hdone, hsteps⟩ := ih h
      refine ⟨fun n => Nat.casesOn n st τ, N + 1, rfl, hN, by omega, hdone, fun n hn => ?_⟩
      cases n with
      | zero =>
        refine ⟨hend, ?_⟩
        show DataFlowAnalysis.step S H g st = .ok (τ 0)
        rw [hmid, h0]
      | succ n => exact hsteps n (by omega)

theorem functionDFAImpl_of_steps {fuel : Nat} {τ : Nat → State}
    (hsteps : ∀ n < N, (τ n).worklist ≠ [] ∧ DataFlowAnalysis.step S H g (τ n) = .ok (τ (n + 1)))
    (hend : (τ N).worklist = []) (hle : N ≤ fuel) :
    functionDFAImpl S H g fuel (τ 0) = .ok (τ N) := by
  induction N generalizing τ fuel with
  | zero =>
    unfold functionDFAImpl
    rw [if_pos hend]
  | succ N ih =>
    obtain ⟨k, rfl⟩ : ∃ k, fuel = k + 1 := ⟨fuel - 1, by omega⟩
    obtain ⟨hne, hstep⟩ := hsteps 0 (Nat.succ_pos N)
    rw [functionDFAImpl, if_neg hne, hstep]
    exact ih (τ := fun n => τ (n + 1)) (fun n hn => hsteps (n + 1) (by omega)) hend (by omega)

/-- **The analysis returns what a trace to the empty worklist ends in.** -/
theorem functionDFA_ok_iff {fuel : Nat} {st : State} : functionDFA S H g fuel = .ok st ↔
    ∃ σ N, Trace S H g σ N ∧ N ≤ fuel ∧ σ N = st ∧ st.worklist = [] := by
  rw [functionDFA, bind_eq_ok]
  constructor
  · rintro ⟨worklist, hok, h⟩
    obtain ⟨τ, N, h0, hN, hle, hend, hsteps⟩ := functionDFAImpl_ok h
    exact ⟨τ, N, ⟨⟨worklist, hok, h0⟩, hsteps⟩, hle, hN, hend⟩
  · rintro ⟨σ, N, htrace, hle, rfl, hend⟩
    obtain ⟨worklist, hok, hinit⟩ := htrace.initial
    exact ⟨worklist, hok, hinit ▸ functionDFAImpl_of_steps htrace.step hend hle⟩

theorem worklist_of_ok {fuel : Nat} {st : State} (h : functionDFA S H g fuel = .ok st) :
    st.worklist = [] := by
  obtain ⟨_, _, _, _, _, hend⟩ := functionDFA_ok_iff.mp h
  exact hend

end

end DataFlowAnalysis

end Ppc2cpp
