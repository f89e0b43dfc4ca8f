import Ppc2cpp.ControlFlow.Soundness
import Ppc2cpp.DataFlow.LastVisit
import Ppc2cpp.Lib.FreshFlow.Termination

/-! When the analysis returns.

On instructions that are supported every visit succeeds, so the analysis either returns
or visits blocks for ever (`returns_or_runs`). A visit that takes in two nodes of one
instruction makes a set larger than the number of instructions explains, and a loop can
do so each time round. If from some visit on no visit does, the analysis returns, and
only then (`functionDFA_returns_iff`). -/
namespace Ppc2cpp

/-- The instructions of the internal blocks are decoded, and their operands name storage
elements. -/
def Subject.Supported (S : Subject) (g : ControlFlowGraph) : Prop :=
  ∀ b x, g.Internal b x → ∀ pc, x.start ≤ pc → pc ≤ x.stop →
    ∃ opcode insnUD, S.decode pc = .ok (opcode, insnUD) ∧
      ∀ loc ∈ insnUD.inputs ++ insnUD.outputs, loc.slot?.isSome = true

namespace DataFlowAnalysis
open ControlFlowGraph

/-! ### Visits succeed -/

section
variable {S : Subject} {H : HashOrder} {g : ControlFlowGraph}

theorem slotOf_of_isSome {loc : CpuMemoryLocation} (h : loc.slot?.isSome = true) :
    ∃ slot, slotOf loc = .ok slot := by
  obtain ⟨slot, hslot⟩ := Option.isSome_iff_exists.mp h
  exact ⟨slot, slotOf_eq_ok.mpr hslot⟩

theorem forSlots_returns (body : Nat → CpuMemoryLocation → Slot → BlockState → BlockState)
    (locs : List CpuMemoryLocation) (h : ∀ loc ∈ locs, loc.slot?.isSome = true) (i : Nat)
    (st : BlockState) : ∃ st', forSlots body i locs st = .ok st' := by
  induction locs generalizing i st with
  | nil => exact ⟨st, rfl⟩
  | cons loc rest ih =>
    obtain ⟨slot, hslot⟩ := slotOf_of_isSome (h loc List.mem_cons_self)
    obtain ⟨st', hst'⟩ :=
      ih (fun l hl => h l (List.mem_cons_of_mem _ hl)) (i + 1) (body i loc slot st)
    exact ⟨st', by rw [forSlots, hslot]; exact hst'⟩

theorem inputNode_returns (pc : Nat) {loc : CpuMemoryLocation} (h : loc.slot?.isSome = true)
    (st : BlockState) : ∃ r, inputNode H pc loc st = .ok r := by
  obtain ⟨slot, hslot⟩ := slotOf_of_isSome h
  simp only [inputNode, bind_eq_ok]
  cases hen : H.enumerate st.heap.length (st.flowContext.definition slot) with
  | nil => exact ⟨_, slot, hslot, by rw [hen]; rfl⟩
  | cons x xs =>
    cases xs with
    | nil => exact ⟨_, slot, hslot, by rw [hen]; rfl⟩
    | cons y ys => exact ⟨_, slot, hslot, by rw [hen]; rfl⟩

theorem inputNodes_returns (pc : Nat) {locs : List CpuMemoryLocation}
    (h : ∀ loc ∈ locs, loc.slot?.isSome = true) (st : BlockState) :
    ∃ r, inputNodes H pc locs st = .ok r := by
  induction locs generalizing st with
  | nil => exact ⟨_, rfl⟩
  | cons loc rest ih =>
    obtain ⟨⟨st₁, x⟩, hx⟩ := inputNode_returns (H := H) pc (h loc List.mem_cons_self) st
    obtain ⟨⟨st₂, xs⟩, hxs⟩ := ih (fun l hl => h l (List.mem_cons_of_mem _ hl)) st₁
    simp only [inputNodes, bind_eq_ok, Prod.exists]
    exact ⟨_, _, _, _, hx, _, _, hxs, rfl⟩

theorem processCall_returns (pc : Nat) (insnInputs : List NodeId) (st : BlockState) :
    ∃ st', processCall pc insnInputs st = .ok st' := by
  obtain ⟨st₁, h₁⟩ := forSlots_returns (fun _ _ slot st => st.kill slot) killedByCall
    (fun loc hl => slot_of_call (by simp [hl])) 0 st
  obtain ⟨st₂, h₂⟩ := forSlots_returns
    (fun _ loc slot st => st.define slot ⟨.callReturn pc loc, insnInputs⟩) definedByCall
    (fun loc hl => slot_of_call (by simp [hl])) 0 st₁
  exact ⟨st₂, by rw [processCall, killVolatile, h₁]; exact h₂⟩

theorem processInsn_returns (endsInCall : Bool) {pc : Nat} {opcode : Opcode}
    {insnUD : InstructionUD} (hdecode : S.decode pc = .ok (opcode, insnUD))
    (hslots : ∀ loc ∈ insnUD.inputs ++ insnUD.outputs, loc.slot?.isSome = true)
    (st : BlockState) : ∃ st', processInsn S H endsInCall pc st = .ok st' := by
  obtain ⟨⟨st₁, nodes⟩, hinputs⟩ : ∃ r, insnInputs H pc insnUD st = .ok r := by
    obtain ⟨⟨st₁, opVars⟩, h⟩ := inputNodes_returns (H := H) pc
      (fun loc hl => hslots loc (List.mem_append_left _ hl))
      (st.allocAll (constantNodes pc insnUD)).1
    exact ⟨(st₁, _), insnInputs_eq_ok.mpr ⟨opVars, h, rfl⟩⟩
  obtain ⟨st₂, houtputs⟩ := forSlots_returns
    (fun i loc slot st => st.define slot ⟨.result pc i loc, nodes⟩) insnUD.outputs
    (fun loc hl => hslots loc (List.mem_append_right _ hl)) 0 st₁
  simp only [processInsn, bind_eq_ok, Prod.exists]
  obtain ⟨st₃, hst₃⟩ : ∃ st₃ : BlockState, (if opcode.opcode ∈ storeInsn then
      return st₂.pushSink ⟨.sink pc, nodes⟩
    else if isBranch (S.insn pc) then
      let st := st₂.pushSink ⟨.sink pc, nodes⟩
      if endsInCall then processCall pc nodes st else return st
    else return st₂ : Except Error BlockState) = .ok st₃ := by
    split
    · exact ⟨_, rfl⟩
    · split
      · dsimp only
        split
        · exact processCall_returns pc nodes _
        · exact ⟨_, rfl⟩
      · exact ⟨_, rfl⟩
  exact ⟨st₃, opcode, insnUD, hdecode, st₁, nodes, hinputs, st₂, houtputs, hst₃⟩

theorem processInsns_returns (endsInCall : Bool) (count pc : Nat)
    (h : ∀ k < count, ∃ opcode insnUD, S.decode (pc + k) = .ok (opcode, insnUD) ∧
      ∀ loc ∈ insnUD.inputs ++ insnUD.outputs, loc.slot?.isSome = true) (st : BlockState) :
    ∃ st', processInsns S H endsInCall count pc st = .ok st' := by
  induction count generalizing pc st with
  | zero => exact ⟨st, rfl⟩
  | succ count ih =>
    obtain ⟨opcode, insnUD, hdecode, hslots⟩ := h 0 (Nat.succ_pos count)
    obtain ⟨st₁, h₁⟩ := processInsn_returns (H := H) endsInCall hdecode hslots st
    obtain ⟨st₂, h₂⟩ := ih (pc + 1) (fun k hk => by
      rw [Nat.add_assoc, Nat.add_comm 1 k]
      exact h (k + 1) (by omega)) st₁
    exact ⟨st₂, by rw [processInsns, show processInsn S H endsInCall pc st = .ok st₁ from h₁]; exact h₂⟩

theorem processBlock_returns {block : BasicBlock}
    (h : ∀ pc, block.start ≤ pc → pc ≤ block.stop → ∃ opcode insnUD,
      S.decode pc = .ok (opcode, insnUD) ∧
        ∀ loc ∈ insnUD.inputs ++ insnUD.outputs, loc.slot?.isSome = true)
    (heap : Heap) (ctx : FlowContext) : ∃ result, processBlock S H block heap ctx = .ok result := by
  obtain ⟨st, hst⟩ := processInsns_returns (H := H) block.endsInCall
    (block.stop + 1 - block.start) block.start
    (fun k hk => h (block.start + k) (Nat.le_add_right _ _) (by omega)) ⟨heap, ctx, []⟩
  by_cases hexit : block.isExit = true
  · obtain ⟨result, hresult⟩ := forSlots_returns
      (fun _ loc slot st => returnSink S H block.stop loc slot st) definedByCall
      (fun loc hl => slot_of_call (by simp [hl])) 0 st
    exact ⟨result, processBlock_eq_ok.mpr ⟨st, hst, .inl ⟨hexit, hresult⟩⟩⟩
  · exact ⟨st, processBlock_eq_ok.mpr ⟨st, hst, .inr ⟨Bool.eq_false_iff.mpr hexit, rfl⟩⟩⟩

/-- **On supported instructions every visit of an internal block succeeds.** -/
theorem step_returns {st : State} (hs : S.Supported g)
    (hinternal : ∀ b ∈ st.worklist, g.isInternal b = true) : ∃ st', step S H g st = .ok st' := by
  cases hlist : st.worklist with
  | nil => exact ⟨st, by rw [step, hlist]⟩
  | cons b rest =>
    obtain ⟨x, hx⟩ := (g.isInternal_iff b).mp (hinternal b (by rw [hlist]; exact List.mem_cons_self))
    obtain ⟨result, hresult⟩ := processBlock_returns (H := H) (hs b x hx) st.heap
      (initBlockContext g st b)
    simp only [step, hlist, bind_eq_ok, at?_eq_ok]
    exact ⟨_, x, hx.1, result, hresult, rfl⟩

/-! ### The analysis returns or runs for ever -/

theorem Trace.internal_worklist {σ : Nat → State} {N : Nat} (h : Trace S H g σ N)
    (hw : g.WellFormed) : ∀ b ∈ (σ N).worklist, g.isInternal b = true := by
  intro b hb
  exact mem_internalBlocks.mp (((h.run hw).inv (le_refl N)).worklist b hb)

theorem returns_or_runs (hw : g.WellFormed) (hs : S.Supported g) :
    (∃ fuel st, functionDFA S H g fuel = .ok st) ∨ ∃ σ, ∀ N, Trace S H g σ N := by
  obtain ⟨worklist, hinit, _⟩ := initWorklist_spec hw
  let next : State → State := fun st => (step S H g st).toOption.getD st
  let σ : Nat → State := fun n => next^[n] (initialState g worklist)
  by_cases hend : ∃ N, Trace S H g σ N ∧ (σ N).worklist = []
  · obtain ⟨N, h, hnil⟩ := hend
    exact .inl ⟨N, σ N, functionDFA_ok_iff.mpr ⟨σ, N, h, le_refl N, rfl, hnil⟩⟩
  · refine .inr ⟨σ, fun N => ?_⟩
    push Not at hend
    induction N with
    | zero => exact ⟨⟨worklist, hinit, rfl⟩, by simp⟩
    | succ N ih =>
      obtain ⟨st', hst'⟩ := step_returns (H := H) hs (ih.internal_worklist hw)
      have hnext : σ (N + 1) = st' := by
        show next^[N + 1] _ = st'
        rw [Function.iterate_succ_apply']
        show (step S H g (σ N)).toOption.getD (σ N) = st'
        rw [hst']
        rfl
      refine ⟨ih.initial, fun n hn => ?_⟩
      rcases Nat.lt_succ_iff_lt_or_eq.mp hn with hlt | rfl
      · exact ih.step n hlt
      · exact ⟨hend n ih, hnext ▸ hst'⟩

/-- The visit that is next takes in no two definitions of one instruction. -/
def Unmixed (g : ControlFlowGraph) (st : State) : Prop :=
  ∀ b, st.Visits b → ∀ s, ∀ x ∈ (initBlockContext g st b).definition s,
    ∀ y ∈ (initBlockContext g st b).definition s, st.heap.index x = st.heap.index y → x = y

theorem Unmixed.abs (hw : g.WellFormed) {st : State} (h : Unmixed g st) {b : Nat}
    (hb : st.Visits b) : (flowGraph S hw).Unmixed st.abs b := by
  rintro s x ⟨p, hp, hx⟩ y ⟨q, hq, hy⟩ heq
  exact h b hb s x (mem_initBlockContext.mpr ⟨p, hp, hx⟩) y
    (mem_initBlockContext.mpr ⟨q, hq, hy⟩) heq

/-- **The analysis returns iff from some visit on no visit takes in two definitions of one
instruction.** -/
theorem functionDFA_returns_iff (S : Subject) (H : HashOrder) {g : ControlFlowGraph}
    (hcfa : ControlFlowAnalysis.functionCFA S = .ok g) (hs : S.Supported g) :
    (∃ fuel st, functionDFA S H g fuel = .ok st) ↔
      ∃ n₀, ∀ σ N, Trace S H g σ N → ∀ n, n₀ ≤ n → n < N → Unmixed g (σ n) := by
  have hw := ControlFlowAnalysis.functionCFA_wellFormed S hcfa
  constructor
  · rintro ⟨fuel, st, hok⟩
    obtain ⟨τ, N, hτ, _, hst, hend⟩ := functionDFA_ok_iff.mp hok
    -- no trace is longer than the one to the empty worklist
    refine ⟨N, fun σ M h n hn hlt => ?_⟩
    have heq := h.unique hτ (show N ≤ M by omega) (le_refl N)
    exact absurd (by rw [heq, hst, hend]) (h.step N (by omega)).1
  · rintro ⟨n₀, hun⟩
    rcases returns_or_runs (H := H) hw hs with hret | ⟨σ, h⟩
    · exact hret
    · exfalso
      refine FreshFlow.Graph.not_forever (fun N => (h N).run hw) n₀ fun n hn b hpop => ?_
      have htrace := h (n + 1)
      exact (hun σ (n + 1) htrace n hn (Nat.lt_succ_self n)).abs hw
        ((htrace.pops_iff hw (Nat.lt_succ_self n)).mp hpop)

end

/-- The instruction at `pc` is supported. -/
def supportedAt (S : Subject) (pc : Nat) : Bool :=
  returns (S.decode pc) fun ud => (ud.2.inputs ++ ud.2.outputs).all (·.slot?.isSome)

theorem supported_of_check {S : Subject} {g : ControlFlowGraph}
    (h : ∀ x ∈ g.blocks, ∀ pc < x.stop + 1, supportedAt S pc = true) : S.Supported g := by
  intro b x hx pc _ hle
  obtain ⟨ud, hok, hall⟩ := exists_ok (h x (List.mem_of_getElem? hx.1) pc (by omega))
  exact ⟨ud.1, ud.2, hok, fun loc hl => List.all_eq_true.mp hall loc hl⟩

/-- The analysis of the loop returns, and so it mixes nothing from some visit on. -/
theorem functionDFA_returns_backEdge : ∃ g, ControlFlowAnalysis.functionCFA backEdge = .ok g ∧
    (∃ fuel st, functionDFA backEdge .ascending g fuel = .ok st) ∧
      ∃ n₀, ∀ σ N, Trace backEdge .ascending g σ N → ∀ n, n₀ ≤ n → n < N → Unmixed g (σ n) := by
  obtain ⟨g, hcfa, hcheck⟩ := exists_ok (x := ControlFlowAnalysis.functionCFA backEdge)
    (p := fun g => decide (∀ x ∈ g.blocks, ∀ pc < x.stop + 1, supportedAt backEdge pc = true) &&
      returns (functionDFA backEdge .ascending g 20) fun _ => true) (by decide +kernel)
  simp only [Bool.and_eq_true, decide_eq_true_eq] at hcheck
  obtain ⟨hsupported, hreturns⟩ := hcheck
  obtain ⟨st, hok, _⟩ := exists_ok hreturns
  have hs := supported_of_check hsupported
  exact ⟨g, hcfa, ⟨20, st, hok⟩,
    (functionDFA_returns_iff backEdge .ascending hcfa hs).mp ⟨20, st, hok⟩⟩

/-! ### A loop that grows for ever -/

/-- `beq` to itself; `li r3,1; b` to 0. -/
def selfLoop : Subject := assembledSubject [0x41820000, 0x38600001, 0x4bfffff8] 3 (by decide)

namespace SelfLoop

theorem analysable : selfLoop.Analysable :=
  assembledSubject_analysable (by decide) (by decide) (by decide +kernel) (by decide +kernel)

def graph : ControlFlowGraph where
  blocks := [⟨0, 0, .INTERNAL, false, false, false⟩, ⟨1, 2, .INTERNAL, false, false, false⟩]
  psTable := [⟨[0, 1], [0, 1]⟩, ⟨[0], [0]⟩, ⟨[], []⟩, ⟨[], []⟩]

theorem functionCFA_eq : ControlFlowAnalysis.functionCFA selfLoop = .ok graph := by
  decide +kernel

theorem wellFormed : graph.WellFormed :=
  ControlFlowAnalysis.functionCFA_wellFormed selfLoop functionCFA_eq

theorem effect_zero (s : Slot) : selfLoop.blockEffectAt graph s 0 = .pass := by
  revert s
  decide +kernel

theorem effect_one (s : Slot) :
    selfLoop.blockEffectAt graph s 1 = if s = .gpr 3 then .gen 1 else .pass := by
  revert s
  decide +kernel

variable {st st' : State} {result : BlockState}

/-- The first block takes in its own context and that of the second. -/
theorem visit_zero (h : Visited selfLoop .ascending graph st st' 0 result) :
    st'.context 1 = st.context 1 ∧
      ∀ s, (st'.context 0).definition s = (st.context 0).definition s ∪ (st.context 1).definition s := by
  refine ⟨by rw [h.context, if_neg (by decide)], fun s => ?_⟩
  have hout : (flowGraph selfLoop wellFormed).Out st.abs st'.abs 0 s
      (selfLoop.blockEffectAt graph s 0) := (h.refines wellFormed).out s
  rw [effect_zero] at hout
  ext x
  rw [Finset.mem_union]
  refine (hout x).trans ?_
  show (∃ p ∈ [0, 1], x ∈ (st.context p).definition s) ↔ _
  simp

/-- The second block replaces r3 and passes on the rest. -/
theorem visit_one (h : Visited selfLoop .ascending graph st st' 1 result) :
    st'.context 0 = st.context 0 ∧
      (∃ x, (st'.context 1).definition (.gpr 3) = {x} ∧ st.heap.length ≤ x) ∧
      ∀ s, s ≠ .gpr 3 → (st'.context 1).definition s = (st.context 0).definition s := by
  have hout : ∀ s, (flowGraph selfLoop wellFormed).Out st.abs st'.abs 1 s
      (selfLoop.blockEffectAt graph s 1) := (h.refines wellFormed).out
  refine ⟨by rw [h.context, if_neg (by decide)], ?_, fun s hs => ?_⟩
  · have hgen := hout (.gpr 3)
    rw [effect_one, if_pos rfl] at hgen
    obtain ⟨x, hx, hle, _⟩ := hgen
    exact ⟨x, hx, hle⟩
  · have hpass := hout s
    rw [effect_one, if_neg hs] at hpass
    ext x
    refine (hpass x).trans ?_
    show (∃ p ∈ [0], x ∈ (st.context p).definition s) ↔ _
    simp

/-- Nothing but r3 is ever defined, and the second block has one definition of it. -/
structure Sets (st : State) : Prop where
  other : ∀ s, s ≠ .gpr 3 → (st.context 0).definition s = ∅ ∧ (st.context 1).definition s = ∅
  one : ((st.context 1).definition (.gpr 3)).card = 1

/-- The states of the analysis: two at the start, and then two that take turns. -/
inductive Phase (st : State) : Prop where
  | start : st.worklist = [0, 1] → (∀ b s, (st.context b).definition s = ∅) → Phase st
  | entered : st.worklist = [1] → (∀ b s, (st.context b).definition s = ∅) → Phase st
  /-- The second block has a definition that the first has not. -/
  | ahead : st.worklist = [0] → Sets st →
      Disjoint ((st.context 0).definition (.gpr 3)) ((st.context 1).definition (.gpr 3)) → Phase st
  | level : st.worklist = [1, 0] → Sets st → Phase st

theorem Phase.worklist_ne_nil (h : Phase st) : st.worklist ≠ [] := by
  cases h with
  | start h _ => simp [h]
  | entered h _ => simp [h]
  | ahead h _ _ => simp [h]
  | level h _ => simp [h]

theorem changed_def {b : Nat} : FreshFlow.Graph.Changed st.abs st'.abs b ↔
    ∃ s, ((st'.context b).definition s).card ≠ ((st.context b).definition s).card := Iff.rfl

/-- The definition of r3 that a visit of the second block makes is new to the first. -/
theorem Phase.step (h : Phase st)
    (hold : ∀ x ∈ (st.context 0).definition (.gpr 3), x < st.heap.length)
    (hv : ∃ b result, Visited selfLoop .ascending graph st st' b result) : Phase st' := by
  obtain ⟨b, result, hv⟩ := hv
  have hhead := hv.visits
  unfold State.Visits at hhead
  cases h with
  | start hlist hempty =>
    rw [hlist] at hhead
    obtain rfl : 0 = b := Option.some.inj hhead
    obtain ⟨h1, h0⟩ := visit_zero hv
    have hnone : ∀ s, (st'.context 0).definition s = ∅ := fun s => by simp [h0, hempty]
    refine .entered ?_ fun c s => ?_
    · have hsame := hv.worklist_unchanged (by simp [changed_def, hnone, hempty])
      rw [hsame, hlist, List.tail_cons]
    · by_cases hc : c = 0
      · rw [hc, hnone]
      · rw [hv.context, if_neg hc, hempty]
  | entered hlist hempty =>
    rw [hlist] at hhead
    obtain rfl : 1 = b := Option.some.inj hhead
    obtain ⟨h0, ⟨x, hx, _⟩, hrest⟩ := visit_one hv
    refine .ahead ?_ ⟨fun s hs => ⟨by rw [h0, hempty], by rw [hrest s hs, hempty]⟩, by simp [hx]⟩
      (by simp [h0, hempty])
    have hch := hv.worklist_changed (changed_def.mpr ⟨.gpr 3, by simp [hx, hempty]⟩)
    rw [hch, hlist]
    rfl
  | ahead hlist hsets hdisjoint =>
    rw [hlist] at hhead
    obtain rfl : 0 = b := Option.some.inj hhead
    obtain ⟨h1, h0⟩ := visit_zero hv
    refine .level ?_ ⟨fun s hs => ⟨?_, ?_⟩, by rw [h1]; exact hsets.one⟩
    · have hgrown : ((st'.context 0).definition (.gpr 3)).card ≠
          ((st.context 0).definition (.gpr 3)).card := by
        rw [h0, Finset.card_union_of_disjoint hdisjoint, hsets.one]
        omega
      have hch := hv.worklist_changed (changed_def.mpr ⟨.gpr 3, hgrown⟩)
      rw [hch, hlist]
      rfl
    · rw [h0, (hsets.other s hs).1, (hsets.other s hs).2, Finset.union_empty]
    · rw [h1, (hsets.other s hs).2]
  | level hlist hsets =>
    rw [hlist] at hhead
    obtain rfl : 1 = b := Option.some.inj hhead
    obtain ⟨h0, ⟨x, hx, hle⟩, hrest⟩ := visit_one hv
    refine .ahead ?_ ⟨fun s hs => ⟨?_, ?_⟩, by simp [hx]⟩ ?_
    · have hsame := hv.worklist_unchanged fun hch => by
        obtain ⟨s, hs⟩ := changed_def.mp hch
        by_cases h3 : s = .gpr 3
        · subst h3
          rw [hx, hsets.one, Finset.card_singleton] at hs
          exact hs rfl
        · rw [hrest s h3, (hsets.other s h3).1, (hsets.other s h3).2] at hs
          exact hs rfl
      rw [hsame, hlist, List.tail_cons]
    · rw [h0, (hsets.other s hs).1]
    · rw [hrest s hs, (hsets.other s hs).1]
    · rw [h0, hx, Finset.disjoint_singleton_right]
      intro hmem
      exact absurd (hold x hmem) (Nat.not_lt.mpr hle)

theorem phase {σ : Nat → State} {N : Nat} (h : Trace selfLoop .ascending graph σ N) {n : Nat}
    (hn : n ≤ N) : Phase (σ n) := by
  induction n with
  | zero =>
    obtain ⟨worklist, hok, hinit⟩ := h.initial
    obtain rfl : [0, 1] = worklist := Except.ok.inj ((show initWorklist graph = .ok [0, 1] by
      decide +kernel).symm.trans hok)
    rw [hinit]
    exact .start rfl fun b s => by rw [context_initialState]; rfl
  | succ n ih =>
    exact (ih (by omega)).step (fun x hx => (h.defined (show n ≤ N by omega) _ hx).lt) (h.visited hn)

end SelfLoop

/-- A definition that comes round into a block that is its own predecessor is added to
those of the rounds before: the analysis of `selfLoop` never returns. -/
theorem selfLoop_runs_forever : ¬ ∀ (S : Subject) (H : HashOrder) (g : ControlFlowGraph),
    S.Analysable → ControlFlowAnalysis.functionCFA S = .ok g → S.Supported g →
      ∃ fuel st, functionDFA S H g fuel = .ok st := by
  intro h
  obtain ⟨fuel, st, hok⟩ := h selfLoop .ascending SelfLoop.graph SelfLoop.analysable
    SelfLoop.functionCFA_eq (supported_of_check (by decide +kernel))
  obtain ⟨σ, N, htrace, _, hst, hend⟩ := functionDFA_ok_iff.mp hok
  exact (SelfLoop.phase htrace (le_refl N)).worklist_ne_nil (by rw [hst, hend])

end DataFlowAnalysis

end Ppc2cpp
