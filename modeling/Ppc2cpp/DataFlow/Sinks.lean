import Ppc2cpp.DataFlow.LastVisit

/-! The sinks of a block.

The instructions of a block leave a sink for each store and each branch. Behind these an
exit block has a return value for each return register that has a definition at its end,
in the order in which the calling convention lists the registers. Which block has which
return values is therefore a matter of reaching definitions (`Trace.returned_iff`). -/
namespace Ppc2cpp
open GenKill

theorem Heap.kind?_of_isPrefix {heap heap' : Heap} (h : heap <+: heap') {x : NodeId}
    {kind : NodeKind} (hx : heap.kind? x = some kind) :
    heap'.kind? x = some kind ∧ heap'.inputs x = heap.inputs x := by
  obtain ⟨node, hnode, rfl⟩ := Option.map_eq_some_iff.mp hx
  have hnode' : heap'[x]? = some node := by
    rw [Heap.getElem?_of_isPrefix h (List.getElem?_eq_some_iff.mp hnode).1, hnode]
  rw [Heap.kind?, Heap.inputs, Heap.inputs, hnode, hnode']
  exact ⟨rfl, rfl⟩

/-- The register has a definition. -/
def FlowContext.defined (c : FlowContext) (loc : CpuMemoryLocation) : Bool :=
  match loc.slot? with
  | some slot => decide (c.definition slot ≠ ∅)
  | none => false

theorem FlowContext.defined_iff {c : FlowContext} {loc : CpuMemoryLocation} :
    c.defined loc = true ↔ ∃ slot, loc.slot? = some slot ∧ c.definition slot ≠ ∅ := by
  unfold defined
  cases loc.slot? <;> simp

/-- The instruction is a store or a branch. -/
def Subject.leavesSink (S : Subject) (pc : Nat) : Bool :=
  isBranch (S.insn pc) || (S.disasm.lookupPowerpc (S.insn pc) .raw).any fun opcode =>
    decide (opcode.opcode ∈ storeInsn)

theorem Subject.leavesSink_eq (S : Subject) {pc : Nat} {opcode : Opcode} {insnUD : InstructionUD}
    (h : S.decode pc = .ok (opcode, insnUD)) :
    S.leavesSink pc = (isBranch (S.insn pc) || decide (opcode.opcode ∈ storeInsn)) := by
  obtain ⟨maybeReloc, _, h⟩ := bind_eq_ok.mp h
  obtain ⟨opcode', hlookup, h⟩ := bind_eq_ok.mp h
  obtain ⟨insnUD', _, h⟩ := bind_eq_ok.mp h
  cases h
  rw [leavesSink, value_eq_ok.mp hlookup, Option.any_some]

namespace DataFlowAnalysis
open BlockState ControlFlowGraph

section
variable {S : Subject} {H : HashOrder} {endsInCall : Bool} {pc : Nat} {st st' st'' : BlockState}

/-! ### The inputs of an instruction -/

/-- What building the inputs of an instruction leaves as it is. -/
structure Undisturbed (st st' : BlockState) : Prop where
  heap : st.heap <+: st'.heap
  flowContext : st'.flowContext = st.flowContext
  blockSinks : st'.blockSinks = st.blockSinks

theorem Undisturbed.refl (st : BlockState) : Undisturbed st st := ⟨List.prefix_refl _, rfl, rfl⟩

theorem Undisturbed.trans (h : Undisturbed st st') (h' : Undisturbed st' st'') :
    Undisturbed st st'' :=
  ⟨h.heap.trans h'.heap, h'.flowContext.trans h.flowContext, h'.blockSinks.trans h.blockSinks⟩

theorem allocAll_undisturbed (st : BlockState) (nodes : List Node) :
    Undisturbed st (st.allocAll nodes).1 :=
  ⟨List.prefix_append _ _, rfl, rfl⟩

theorem inputNode_undisturbed {loc : CpuMemoryLocation} {x : NodeId}
    (h : inputNode H pc loc st = .ok (st', x)) : Undisturbed st st' := by
  obtain ⟨hext, hctx, _⟩ := inputNode_spec h
  refine ⟨hext.heap_isPrefix, hctx, ?_⟩
  rw [inputNode, bind_eq_ok] at h
  obtain ⟨slot, _, h⟩ := h
  split at h <;> cases h <;> rfl

theorem inputNodes_undisturbed {locs : List CpuMemoryLocation} {xs : List NodeId}
    (h : inputNodes H pc locs st = .ok (st', xs)) : Undisturbed st st' := by
  induction locs generalizing st xs with
  | nil =>
    rw [inputNodes] at h
    cases h
    exact .refl _
  | cons loc rest ih =>
    simp only [inputNodes, bind_eq_ok, Prod.exists] at h
    obtain ⟨st₁, x, hx, st₂, xs, hxs, h⟩ := h
    cases h
    exact (inputNode_undisturbed hx).trans (ih hxs)

theorem insnInputs_undisturbed {insnUD : InstructionUD} {xs : List NodeId}
    (h : insnInputs H pc insnUD st = .ok (st', xs)) : Undisturbed st st' := by
  obtain ⟨opVars, hops, rfl⟩ := insnInputs_eq_ok.mp h
  exact (allocAll_undisturbed st _).trans (inputNodes_undisturbed hops)

/-! ### The sinks of the instructions -/

/-- The sinks added between two states are those of the instructions `pcs`, in order. -/
structure SinksAt (pcs : List Nat) (st st' : BlockState) : Prop where
  heap : st.heap <+: st'.heap
  sinks : ∃ new, st'.blockSinks = st.blockSinks ++ new ∧
    List.Forall₂ (fun x pc => st'.heap.kind? x = some (.sink pc)) new pcs

theorem SinksAt.of_same (heap : st.heap <+: st'.heap) (h : st'.blockSinks = st.blockSinks) :
    SinksAt [] st st' :=
  ⟨heap, [], by simp [h], .nil⟩

theorem SinksAt.trans {pcs pcs' : List Nat} (h : SinksAt pcs st st') (h' : SinksAt pcs' st' st'') :
    SinksAt (pcs ++ pcs') st st'' := by
  obtain ⟨new, hnew, hkinds⟩ := h.sinks
  obtain ⟨new', hnew', hkinds'⟩ := h'.sinks
  refine ⟨h.heap.trans h'.heap, new ++ new', by rw [hnew', hnew, List.append_assoc], ?_⟩
  exact List.rel_append (hkinds.imp fun _ _ hx => (Heap.kind?_of_isPrefix h'.heap hx).1) hkinds'

theorem sinksAt_pushSink (st : BlockState) (pc : Nat) (inputs : List NodeId) :
    SinksAt [pc] st (st.pushSink ⟨.sink pc, inputs⟩) :=
  ⟨List.prefix_append _ _, [st.heap.length], rfl, .cons (by simp [Heap.kind?, pushSink]) .nil⟩

/-- A loop over operands whose body leaves the sinks alone. -/
theorem forSlots_sinksAt {body : Nat → CpuMemoryLocation → Slot → BlockState → BlockState}
    (hbody : ∀ i loc slot st, st.heap <+: (body i loc slot st).heap ∧
      (body i loc slot st).blockSinks = st.blockSinks)
    {i : Nat} {locs : List CpuMemoryLocation} (h : forSlots body i locs st = .ok st') :
    SinksAt [] st st' :=
  forSlots_rel (R := SinksAt []) (fun _ => .of_same (List.prefix_refl _) rfl)
    (fun _ _ _ => SinksAt.trans)
    (fun i loc slot st => .of_same (hbody i loc slot st).1 (hbody i loc slot st).2) h

/-- A store or a branch leaves one sink, any other instruction none. -/
theorem processInsn_sinksAt (h : processInsn S H endsInCall pc st = .ok st') :
    SinksAt (if S.leavesSink pc then [pc] else []) st st' := by
  simp only [processInsn, bind_eq_ok, Prod.exists] at h
  obtain ⟨opcode, insnUD, hdecode, st₁, xs, hinputs, st₂, houtputs, h⟩ := h
  have hsame := insnInputs_undisturbed hinputs
  have hplain : SinksAt [] st st₂ := by
    refine (SinksAt.of_same hsame.heap hsame.blockSinks).trans (forSlots_sinksAt ?_ houtputs)
    exact fun _ _ _ _ => ⟨List.prefix_append _ _, rfl⟩
  have hsink : SinksAt [pc] st (st₂.pushSink ⟨.sink pc, xs⟩) :=
    hplain.trans (sinksAt_pushSink st₂ pc xs)
  rw [S.leavesSink_eq hdecode]
  by_cases hstore : opcode.opcode ∈ storeInsn
  · rw [if_pos hstore] at h
    cases h
    rw [if_pos (by simp [hstore])]
    exact hsink
  · rw [if_neg hstore] at h
    by_cases hbranch : isBranch (S.insn pc) = true
    · rw [if_pos hbranch] at h
      rw [if_pos (by simp [hbranch])]
      split at h
      · obtain ⟨st₃, hkill, hdefine⟩ := bind_eq_ok.mp h
        refine (hsink.trans (forSlots_sinksAt ?_ hkill)).trans (forSlots_sinksAt ?_ hdefine)
        · exact fun _ _ _ _ => ⟨List.prefix_refl _, rfl⟩
        · exact fun _ _ _ _ => ⟨List.prefix_append _ _, rfl⟩
      · cases h
        exact hsink
    · rw [if_neg hbranch] at h
      cases h
      rw [if_neg (by simp [hstore, hbranch])]
      exact hplain

theorem processInsns_sinksAt {count : Nat}
    (h : processInsns S H endsInCall count pc st = .ok st') :
    SinksAt ((List.range' pc count).filter S.leavesSink) st st' := by
  induction count generalizing pc st with
  | zero =>
    rw [processInsns] at h
    cases h
    exact .of_same (List.prefix_refl _) rfl
  | succ count ih =>
    rw [processInsns, bind_eq_ok] at h
    obtain ⟨mid, hmid, h⟩ := h
    rw [List.range'_succ, List.filter_cons]
    have hboth := (processInsn_sinksAt hmid).trans (ih h)
    split at hboth <;> rename_i hleaves
    · rw [if_pos hleaves]
      exact hboth
    · rw [if_neg hleaves]
      exact hboth

/-- The sinks added between two states are those of instructions. -/
structure AddsSinks (st st' : BlockState) : Prop where
  heap : st.heap <+: st'.heap
  sinks : ∃ new, st'.blockSinks = st.blockSinks ++ new ∧
    ∀ x ∈ new, ∃ pc, st'.heap.kind? x = some (.sink pc)

theorem processInsns_addsSinks {count : Nat}
    (h : processInsns S H endsInCall count pc st = .ok st') : AddsSinks st st' := by
  obtain ⟨hheap, new, hnew, hkinds⟩ := processInsns_sinksAt h
  refine ⟨hheap, new, hnew, fun x hx => ?_⟩
  obtain ⟨i, hi, rfl⟩ := List.mem_iff_getElem.mp hx
  obtain ⟨hlen, hget⟩ := List.forall₂_iff_get.mp hkinds
  exact ⟨_, hget i hi (hlen ▸ hi)⟩

/-! ### The return values -/

/-- The sink for a return register with its definitions. -/
structure ReturnOf (S : Subject) (heap : Heap) (c : FlowContext) (returnIdx : Nat) (x : NodeId)
    (loc : CpuMemoryLocation) : Prop where
  kind : heap.kind? x = some (.ret returnIdx loc)
  input : ∃ slot y, loc.slot? = some slot ∧ c.definition slot ≠ ∅ ∧ heap.inputs x = [y] ∧
    Stands heap (c.definition slot) S.length loc y

theorem ReturnOf.mono {heap heap' : Heap} {c : FlowContext} {returnIdx : Nat} {x : NodeId}
    {loc : CpuMemoryLocation} (h : ReturnOf S heap c returnIdx x loc) (hp : heap <+: heap') :
    ReturnOf S heap' c returnIdx x loc := by
  obtain ⟨hkind, hinputs⟩ := Heap.kind?_of_isPrefix hp h.kind
  obtain ⟨slot, y, hslot, hne, hy, hstands⟩ := h.input
  exact ⟨hkind, slot, y, hslot, hne, hinputs.trans hy, hstands.mono hp⟩

/-- The return values for some of the registers. -/
structure AddsReturns (S : Subject) (returnIdx : Nat) (locs : List CpuMemoryLocation)
    (st st' : BlockState) : Prop where
  heap : st.heap <+: st'.heap
  flowContext : st'.flowContext = st.flowContext
  sinks : ∃ rets, st'.blockSinks = st.blockSinks ++ rets ∧
    List.Forall₂ (ReturnOf S st'.heap st.flowContext returnIdx) rets
      (locs.filter st.flowContext.defined)

theorem AddsReturns.trans {returnIdx : Nat} {locs locs' : List CpuMemoryLocation}
    (h : AddsReturns S returnIdx locs st st') (h' : AddsReturns S returnIdx locs' st' st'') :
    AddsReturns S returnIdx (locs ++ locs') st st'' := by
  obtain ⟨rets, hrets, hall⟩ := h.sinks
  obtain ⟨rets', hrets', hall'⟩ := h'.sinks
  refine ⟨h.heap.trans h'.heap, h'.flowContext.trans h.flowContext, rets ++ rets',
    by rw [hrets', hrets, List.append_assoc], ?_⟩
  rw [h.flowContext] at hall'
  rw [List.filter_append]
  exact List.rel_append (hall.imp fun _ _ hx => hx.mono h'.heap) hall'

theorem returnSink_adds (H : HashOrder) (returnIdx : Nat) {loc : CpuMemoryLocation} {slot : Slot}
    (hslot : loc.slot? = some slot) (st : BlockState) :
    AddsReturns S returnIdx [loc] st (returnSink S H returnIdx loc slot st) := by
  unfold returnSink
  set d := st.flowContext.definition slot with hd
  cases hen : H.enumerate st.heap.length d with
  | nil =>
    have hempty : d = ∅ := (H.enumerate_eq_nil).mp hen
    have hdefined : st.flowContext.defined loc = false := by
      simp [FlowContext.defined, hslot, ← hd, hempty]
    exact ⟨List.prefix_refl _, rfl, [], by simp, by simp [hdefined]⟩
  | cons y ys =>
    have hne : d ≠ ∅ := by
      intro hempty
      rw [H.enumerate_eq_nil.mpr hempty] at hen
      cases hen
    have hdefined : st.flowContext.defined loc = true :=
      FlowContext.defined_iff.mpr ⟨slot, hslot, hne⟩
    cases ys with
    | nil =>
      refine ⟨List.prefix_append _ _, rfl, [st.heap.length], rfl, ?_⟩
      simp only [List.filter_cons_of_pos hdefined, List.filter_nil]
      refine .cons ⟨by simp [Heap.kind?, pushSink], slot, y, hslot, hne,
        by simp [Heap.inputs, pushSink], .definition (H.enumerate_eq_singleton.mp hen)⟩ .nil
    | cons z zs =>
      refine ⟨?_, rfl, [st.heap.length + 1], by simp [alloc, pushSink], ?_⟩
      · exact (List.prefix_append _ _).trans (List.prefix_append _ _)
      · simp only [List.filter_cons_of_pos hdefined, List.filter_nil]
        have hcard : 2 ≤ d.card := by
          rw [← H.length_enumerate st.heap.length d, hen]
          simp
        refine .cons ⟨by simp [Heap.kind?, alloc, pushSink], slot, st.heap.length, hslot, hne,
          by simp [Heap.inputs, alloc, pushSink], ?_⟩ .nil
        refine .phi (y :: z :: zs) hcard (by simp [alloc, pushSink]) fun w => ?_
        rw [← hen]
        exact H.mem _ _ w

theorem returnSinks_adds {returnIdx : Nat} (h : returnSinks S H returnIdx st = .ok st') :
    AddsReturns S returnIdx definedByCall st st' := by
  have hloop : ∀ (locs : List CpuMemoryLocation) (i : Nat) (st : BlockState),
      forSlots (fun _ loc slot st => returnSink S H returnIdx loc slot st) i locs st = .ok st' →
      AddsReturns S returnIdx locs st st' := by
    intro locs
    induction locs with
    | nil =>
      intro i st h
      rw [forSlots] at h
      cases h
      exact ⟨List.prefix_refl _, rfl, [], by simp, by simp⟩
    | cons loc rest ih =>
      intro i st h
      rw [forSlots, bind_eq_ok] at h
      obtain ⟨slot, hslot, h⟩ := h
      exact (returnSink_adds H returnIdx (slotOf_eq_ok.mp hslot) st).trans (ih _ _ h)
  exact hloop _ _ _ h

end

/-! ### The sinks of a block -/

/-- Sinks of instructions, and behind them those of some return registers. -/
def Returning (S : Subject) (heap : Heap) (c : FlowContext) (returnIdx : Nat) (sinks : List NodeId)
    (locs : List CpuMemoryLocation) : Prop :=
  ∃ plain rets, sinks = plain ++ rets ∧ (∀ x ∈ plain, ∃ pc, heap.kind? x = some (.sink pc)) ∧
    List.Forall₂ (ReturnOf S heap c returnIdx) rets locs

/-- The registers a block returns, by its context. -/
def returned (g : ControlFlowGraph) (st : State) (b : Nat) : List CpuMemoryLocation :=
  if (g.block b).isExit then definedByCall.filter (st.context b).defined else []

section
variable {S : Subject} {H : HashOrder} {g : ControlFlowGraph} {σ : Nat → State} {N n b : Nat}

theorem Returning.mono {heap heap' : Heap} {c : FlowContext} {returnIdx : Nat}
    {sinks : List NodeId} {locs : List CpuMemoryLocation}
    (h : Returning S heap c returnIdx sinks locs) (hp : heap <+: heap') :
    Returning S heap' c returnIdx sinks locs := by
  obtain ⟨plain, rets, hsinks, hplain, hrets⟩ := h
  refine ⟨plain, rets, hsinks, fun x hx => ?_, hrets.imp fun _ _ hr => hr.mono hp⟩
  obtain ⟨pc, hpc⟩ := hplain x hx
  exact ⟨pc, (Heap.kind?_of_isPrefix hp hpc).1⟩

/-- A sink of the class of return values is one. -/
theorem Returning.returnOf {heap : Heap} {c : FlowContext} {returnIdx i : Nat}
    {sinks : List NodeId} {locs : List CpuMemoryLocation} {x : NodeId} {loc : CpuMemoryLocation}
    (h : Returning S heap c returnIdx sinks locs) (hx : x ∈ sinks)
    (hkind : heap.kind? x = some (.ret i loc)) : loc ∈ locs ∧ ReturnOf S heap c returnIdx x loc := by
  obtain ⟨plain, rets, rfl, hplain, hrets⟩ := h
  have hmem : x ∈ rets := by
    refine (List.mem_append.mp hx).resolve_left fun hp => ?_
    obtain ⟨pc, hpc⟩ := hplain x hp
    rw [hkind] at hpc
    cases hpc
  obtain ⟨k, hk, rfl⟩ := List.mem_iff_getElem.mp hmem
  obtain ⟨hlen, hget⟩ := List.forall₂_iff_get.mp hrets
  have hret := hget k hk (hlen ▸ hk)
  obtain ⟨_, rfl⟩ := NodeKind.ret.inj (Option.some.inj (hkind.symm.trans hret.kind))
  exact ⟨List.get_mem _ _, hret⟩

/-- Each register has a return value. -/
theorem Returning.exists_returnOf {heap : Heap} {c : FlowContext} {returnIdx : Nat}
    {sinks : List NodeId} {locs : List CpuMemoryLocation} {loc : CpuMemoryLocation}
    (h : Returning S heap c returnIdx sinks locs) (hloc : loc ∈ locs) :
    ∃ x ∈ sinks, ReturnOf S heap c returnIdx x loc := by
  obtain ⟨plain, rets, rfl, _, hrets⟩ := h
  obtain ⟨k, hk, rfl⟩ := List.mem_iff_getElem.mp hloc
  obtain ⟨hlen, hget⟩ := List.forall₂_iff_get.mp hrets
  exact ⟨_, List.mem_append_right _ (List.get_mem _ _), hget k (hlen ▸ hk) hk⟩

theorem processBlock_returning {block : BasicBlock} {heap : Heap} {ctx : FlowContext}
    {result : BlockState} (h : processBlock S H block heap ctx = .ok result) :
    Returning S result.heap result.flowContext block.stop result.blockSinks
      (if block.isExit then definedByCall.filter result.flowContext.defined else []) := by
  obtain ⟨mid, hmid, h⟩ := processBlock_eq_ok.mp h
  obtain ⟨plain, hplain, hkinds⟩ := (processInsns_addsSinks hmid).sinks
  rw [List.nil_append] at hplain
  rcases h with ⟨hexit, hreturns⟩ | ⟨hexit, rfl⟩
  · rw [if_pos hexit]
    have hadds := returnSinks_adds hreturns
    obtain ⟨rets, hrets, hall⟩ := hadds.sinks
    refine ⟨plain, rets, by rw [hrets, hplain], fun x hx => ?_, ?_⟩
    · obtain ⟨pc, hpc⟩ := hkinds x hx
      exact ⟨pc, (Heap.kind?_of_isPrefix hadds.heap hpc).1⟩
    · rw [hadds.flowContext]
      exact hall
  · rw [if_neg (Bool.eq_false_iff.mp hexit)]
    exact ⟨plain, [], by rw [hplain, List.append_nil], hkinds, .nil⟩

/-- **At every point of the analysis the sinks of a block are those of its instructions and
the registers it returns.** -/
theorem Trace.returning (h : Trace S H g σ N) (hn : n ≤ N) (b : Nat) :
    Returning S (σ n).heap ((σ n).context b) (g.stopOf b) ((σ n).blockSinks b)
      (returned g (σ n) b) := by
  induction n with
  | zero =>
    obtain ⟨worklist, _, hinit⟩ := h.initial
    have hsinks : (σ 0).blockSinks b = [] := by
      rw [hinit, State.blockSinks, initialState, List.getD_eq_getElem?_getD,
        List.getElem?_replicate]
      split <;> rfl
    have hnone : returned g (σ 0) b = [] := by
      have hdefined : ∀ loc, ¬ ((σ 0).context b).defined loc = true := by
        intro loc hloc
        obtain ⟨slot, _, hne⟩ := FlowContext.defined_iff.mp hloc
        rw [hinit, context_initialState] at hne
        exact hne rfl
      unfold returned
      split
      · exact List.filter_eq_nil_iff.mpr fun loc _ => hdefined loc
      · rfl
    rw [hsinks, hnone]
    exact ⟨[], [], rfl, by simp, .nil⟩
  | succ n ih =>
    obtain ⟨c, result, hvisited⟩ := h.visited hn
    have hreturned : returned g (σ (n + 1)) b =
        if b = c then (if (g.block c).isExit then definedByCall.filter result.flowContext.defined
          else []) else returned g (σ n) b := by
      rw [returned, hvisited.context]
      by_cases hb : b = c
      · rw [if_pos hb, if_pos hb, hb]
      · rw [if_neg hb, if_neg hb, returned]
    rw [hvisited.context, hvisited.sinks, hreturned]
    by_cases hb : b = c
    · subst hb
      rw [if_pos rfl, if_pos rfl, if_pos rfl, hvisited.heap]
      exact processBlock_returning hvisited.visit
    · rw [if_neg hb, if_neg hb, if_neg hb]
      exact (ih (by omega)).mono hvisited.heap_isPrefix

/-- A block whose context holds a definition is inside the function. -/
theorem Trace.internal_of_defined (h : Trace S H g σ N) (hw : g.WellFormed) (hn : n ≤ N) {s : Slot}
    (hne : ((σ n).context b).definition s ≠ ∅) : g.isInternal b = true := by
  induction n with
  | zero =>
    obtain ⟨worklist, _, hinit⟩ := h.initial
    rw [hinit, context_initialState] at hne
    exact absurd rfl hne
  | succ n ih =>
    obtain ⟨c, result, hvisited⟩ := h.visited hn
    rw [hvisited.context] at hne
    by_cases hb : b = c
    · rw [hb]
      exact h.internal hw hn hvisited
    · rw [if_neg hb] at hne
      exact ih (by omega) hne

/-- **A block returns the return registers of which a definition reaches its end**, if it
is an exit. -/
theorem Trace.mem_returned_iff (h : Trace S H g σ N) (hw : g.WellFormed)
    (hend : (σ N).worklist = []) {loc : CpuMemoryLocation} :
    loc ∈ returned g (σ N) b ↔ loc ∈ definedByCall ∧ (∃ x, g.Internal b x ∧ x.isExit = true) ∧
      ∃ slot d, loc.slot? = some slot ∧ S.ReachesEnd g slot d b := by
  have hreach : ∀ slot, g.isInternal b = true →
      (((σ N).context b).definition slot ≠ ∅ ↔ ∃ d, S.ReachesEnd g slot d b) := by
    intro slot hb
    rw [← Finset.nonempty_iff_ne_empty]
    refine ((h.run hw).nonempty_iff hend (mem_internalBlocks.mpr hb) slot).trans ?_
    refine exists_congr fun d => ?_
    rw [Subject.ReachesEnd, reaches_block_iff hw.startOf_le]
    rfl
  have hexit : (∃ x, g.Internal b x ∧ x.isExit = true) ↔
      g.isInternal b = true ∧ (g.block b).isExit = true := by
    rw [isInternal_iff]
    constructor
    · rintro ⟨x, hx, he⟩
      exact ⟨⟨x, hx⟩, by rw [Internal.block_eq hx, he]⟩
    · rintro ⟨⟨x, hx⟩, he⟩
      exact ⟨x, hx, by rwa [Internal.block_eq hx] at he⟩
  rw [hexit]
  constructor
  · intro hmem
    unfold returned at hmem
    split at hmem
    · rename_i he
      obtain ⟨hcall, hdefined⟩ := List.mem_filter.mp hmem
      obtain ⟨slot, hslot, hne⟩ := FlowContext.defined_iff.mp hdefined
      have hb := h.internal_of_defined hw (le_refl N) hne
      obtain ⟨d, hd⟩ := (hreach slot hb).mp hne
      exact ⟨hcall, ⟨hb, he⟩, slot, d, hslot, hd⟩
    · cases hmem
  · rintro ⟨hcall, ⟨hb, he⟩, slot, d, hslot, hd⟩
    rw [returned, if_pos he, List.mem_filter]
    exact ⟨hcall, FlowContext.defined_iff.mpr ⟨slot, hslot, (hreach slot hb).mpr ⟨d, hd⟩⟩⟩

end

end DataFlowAnalysis

end Ppc2cpp
