import Ppc2cpp.DataFlow.InsnEffect

/-! What the visit of one block does.

The effects of its instructions compose to the effect of a prefix of the block
(`processInsns_extends`), the return sinks of an exit block change no context, and every
node that belongs to an instruction has the inputs that were built for it in this visit
(`processBlock_node`). -/
namespace Ppc2cpp
open GenKill

namespace DataFlowAnalysis
open BlockState

/-- The inputs of a node made between two states: visible in the first, or made as well. -/
def Sources (st st' : BlockState) (node : Node) : Prop :=
  ∀ y ∈ node.inputs, st.Holds y ∨ Made st st' y

section
variable {effect effect' : Slot → Effect Nat} {st st' st'' : BlockState}

theorem Sources.before {node : Node} (h : Sources st st' node)
    (hle : st'.heap.length ≤ st''.heap.length) : Sources st st'' node :=
  fun y hy => (h y hy).imp_right fun hm => hm.before hle

theorem Sources.after {Q : Node → Prop} {node : Node} (h : Sources st' st'' node)
    (hext : Extends Q effect st st') (hle : st'.heap.length ≤ st''.heap.length) :
    Sources st st'' node := by
  intro y hy
  rcases h y hy with hh | hm
  · exact (hext.holds hh).imp_right fun hm => hm.before hle
  · exact .inr (hm.after hext.length_le)

/-- Two pieces whose nodes have known sources and a property in common. -/
theorem Extends.sources_andThen {P : Node → Prop}
    (h : Extends (fun node => P node ∧ Sources st st' node) effect st st')
    (h' : Extends (fun node => P node ∧ Sources st' st'' node) effect' st' st'') :
    Extends (fun node => P node ∧ Sources st st'' node) (fun s => (effect s).andThen (effect' s))
      st st'' :=
  (h.mono fun _ hn => ⟨hn.1, hn.2.before h'.length_le⟩).andThen
    (h'.mono fun _ hn => ⟨hn.1, hn.2.after h h'.length_le⟩)

end

section
variable {S : Subject} {H : HashOrder} {endsInCall : Bool} {pc : Nat} {st st' : BlockState}

theorem processInsn_sources (h : processInsn S H endsInCall pc st = .ok st') :
    Extends (fun node => True ∧ Sources st st' node) (S.insnEffect endsInCall pc) st st' := by
  obtain ⟨opcode, insnUD, st₁, nodes, _, hinputs, hext⟩ := processInsn_extends h
  obtain ⟨hfeeds, _, hsrc, _⟩ := insnInputs_spec hinputs
  have hnodes : ∀ node : Node, node.inputs = nodes → Sources st st' node := by
    intro node hn y hy
    rw [hn] at hy
    exact (hsrc y hy).imp_right fun hm => hm.before hext.length_le
  refine ((hfeeds.mono fun node hn => ⟨trivial, fun y hy => .inl (hn.2 y hy)⟩).andThen
    (hext.mono fun node hn => ⟨trivial, hnodes node hn.2⟩)).congr fun s => ?_
  exact Effect.pass_andThen _

theorem processInsns_add (m n : Nat) : processInsns S H endsInCall (m + n) pc st =
    processInsns S H endsInCall m pc st >>= processInsns S H endsInCall n (pc + m) := by
  induction m generalizing pc st with
  | zero => simp [processInsns, bind, Except.bind]
  | succ m ih =>
    rw [Nat.add_right_comm, processInsns, processInsns, bind_assoc]
    refine congrArg _ (funext fun st₁ => ?_)
    rw [ih, Nat.add_right_comm, Nat.add_assoc pc m 1]

theorem processInsns_one : processInsns S H endsInCall 1 pc st =
    processInsn S H endsInCall pc st := by
  rw [processInsns]
  cases processInsn S H endsInCall pc st <;> rfl

theorem processInsns_split {m n : Nat} (h : processInsns S H endsInCall (m + n) pc st = .ok st') :
    ∃ mid, processInsns S H endsInCall m pc st = .ok mid ∧
      processInsns S H endsInCall n (pc + m) mid = .ok st' := by
  rwa [processInsns_add, bind_eq_ok] at h

/-- What every instruction keeps, a run of instructions keeps. -/
theorem processInsns_keeps {P : BlockState → Prop} {count : Nat}
    (hstep : ∀ k < count, ∀ mid mid', processInsn S H endsInCall (pc + k) mid = .ok mid' →
      P mid → P mid')
    (h : processInsns S H endsInCall count pc st = .ok st') (hst : P st) : P st' := by
  induction count generalizing st' with
  | zero =>
    rw [processInsns, Except.ok.injEq] at h
    exact h ▸ hst
  | succ n ih =>
    obtain ⟨mid, hmid, hlast⟩ := processInsns_split h
    rw [processInsns_one] at hlast
    have hkept := ih (fun k hk => hstep k (Nat.lt_succ_of_lt hk)) hmid
    exact hstep n (Nat.lt_succ_self n) mid st' hlast hkept

/-- **The first instructions of a block do what their effects say one after another.** -/
theorem processInsns_extends {B : Type} (start : B → Nat) (call : B → Bool) {b : B} {n : Nat}
    (h : processInsns S H (call b) n (start b) st = .ok st') :
    Extends (fun node => True ∧ Sources st st' node)
      (fun s => prefixEffect start (fun b k => S.insnEffect (call b) k s) b n) st st' := by
  induction n generalizing st' with
  | zero =>
    rw [processInsns, Except.ok.injEq] at h
    subst h
    exact .refl _ st
  | succ n ih =>
    obtain ⟨mid, hmid, hlast⟩ := processInsns_split h
    rw [processInsns_one] at hlast
    exact (ih hmid).sources_andThen (processInsn_sources hlast)

end

/-! ### The visit of an instruction -/

/-- The visit of the instruction `n` places into a block, in the visit of the block that
starts from `st₀`. -/
structure InsnVisit (S : Subject) (H : HashOrder) (endsInCall : Bool) (start : Nat)
    (st₀ : BlockState) (n : Nat) where
  before : BlockState
  opcode : Opcode
  insnUD : InstructionUD
  withInputs : BlockState
  insnInputs : List NodeId
  reached : processInsns S H endsInCall n start st₀ = .ok before
  decoded : S.decode (start + n) = .ok (opcode, insnUD)
  built : DataFlowAnalysis.insnInputs H (start + n) insnUD before = .ok (withInputs, insnInputs)

section
variable {S : Subject} {H : HashOrder} {endsInCall : Bool} {start : Nat} {st st' : BlockState}

/-- There is only one. -/
theorem InsnVisit.unique {n : Nat} (v w : InsnVisit S H endsInCall start st n) : v = w := by
  obtain ⟨before, opcode, insnUD, withInputs, inputs, hreached, hdecoded, hbuilt⟩ := v
  obtain ⟨before', opcode', insnUD', withInputs', inputs', hreached', hdecoded', hbuilt'⟩ := w
  obtain rfl := Except.ok.inj (hreached.symm.trans hreached')
  obtain ⟨rfl, rfl⟩ := Prod.mk.inj (Except.ok.inj (hdecoded.symm.trans hdecoded'))
  obtain ⟨rfl, rfl⟩ := Prod.mk.inj (Except.ok.inj (hbuilt.symm.trans hbuilt'))
  rfl

/-- An instruction of a block is visited, and the nodes made for it have the inputs that
were built. -/
theorem processInsns_visit {count n : Nat}
    (h : processInsns S H endsInCall count start st = .ok st') (hn : n < count) :
    ∃ (v : InsnVisit S H endsInCall start st n) (after : BlockState),
      Extends (fun node => node.kind.builtFor = some (start + n) ∧ node.inputs = v.insnInputs)
        (S.insnEffect endsInCall (start + n)) v.withInputs after ∧
      processInsns S H endsInCall (n + 1) start st = .ok after ∧ after.heap <+: st'.heap := by
  obtain ⟨k, rfl⟩ : ∃ k, count = n + 1 + k := ⟨count - (n + 1), by omega⟩
  obtain ⟨after, hafter, hrest⟩ := processInsns_split h
  obtain ⟨before, hbefore, hlast⟩ := processInsns_split hafter
  rw [processInsns_one] at hlast
  obtain ⟨opcode, insnUD, mid, nodes, hdecode, hinputs, hext⟩ := processInsn_extends hlast
  exact ⟨⟨before, opcode, insnUD, mid, nodes, hbefore, hdecode, hinputs⟩, after, hext, hafter,
    (processInsns_extends (fun _ : Unit => start + (n + 1)) (fun _ => endsInCall)
      (b := ()) hrest).heap_isPrefix⟩

theorem processInsns_node {count : Nat}
    (h : processInsns S H endsInCall count start st = .ok st') {x : NodeId} {node : Node}
    {pc : Nat} (hx : st.heap.length ≤ x) (hnode : st'.heap[x]? = some node)
    (hpc : node.kind.builtFor = some pc) :
    ∃ n < count, pc = start + n ∧ ∃ v : InsnVisit S H endsInCall start st n,
      node.inputs = v.insnInputs := by
  induction count generalizing st' with
  | zero =>
    rw [processInsns, Except.ok.injEq] at h
    subst h
    have := (List.getElem?_eq_some_iff.mp hnode).1
    omega
  | succ n ih =>
    obtain ⟨before, hbefore, _⟩ := processInsns_split h
    rcases Nat.lt_or_ge x before.heap.length with hold | hnew
    · obtain ⟨v, after, hext, hafter, _⟩ := processInsns_visit h (Nat.lt_succ_self n)
      obtain rfl := Except.ok.inj (h.symm.trans hafter)
      have hmid := v.reached
      rw [hbefore, Except.ok.injEq] at hmid
      have hpre : before.heap <+: st'.heap := by
        rw [hmid]
        exact (insnInputs_spec v.built).1.heap_isPrefix.trans hext.heap_isPrefix
      rw [Heap.getElem?_of_isPrefix hpre hold] at hnode
      obtain ⟨m, hm, heq, hv⟩ := ih hbefore hnode
      exact ⟨m, by omega, heq, hv⟩
    · obtain ⟨v, after, hext, hafter, _⟩ := processInsns_visit h (Nat.lt_succ_self n)
      obtain rfl := Except.ok.inj (h.symm.trans hafter)
      have hmid := v.reached
      rw [hbefore, Except.ok.injEq] at hmid
      rcases Nat.lt_or_ge x v.withInputs.heap.length with hin | hout
      · -- a node that serves as an input belongs to no instruction
        rw [Heap.getElem?_of_isPrefix hext.heap_isPrefix hin] at hnode
        have hfeeds := (insnInputs_spec v.built).1.node (hmid ▸ hnew) hnode
        rw [hfeeds.1] at hpc
        cases hpc
      · obtain ⟨hbuilt, hinputs⟩ := hext.node hout hnode
        rw [hbuilt] at hpc
        exact ⟨n, Nat.lt_succ_self n, (Option.some.inj hpc).symm, v, hinputs⟩

end

/-! ### Return sinks and the whole visit -/

/-- A relation that every turn of a loop over operands satisfies. -/
theorem forSlots_rel_of_operand {R : BlockState → BlockState → Prop} (hrefl : ∀ st, R st st)
    (htrans : ∀ st st' st'', R st st' → R st' st'' → R st st'')
    {body : Nat → CpuMemoryLocation → Slot → BlockState → BlockState} {i : Nat}
    {locs : List CpuMemoryLocation}
    (hbody : ∀ k loc slot st, locs[k]? = some loc → loc.slot? = some slot →
      R st (body (i + k) loc slot st)) {st st' : BlockState}
    (h : forSlots body i locs st = .ok st') : R st st' := by
  induction locs generalizing i st with
  | nil =>
    rw [forSlots, Except.ok.injEq] at h
    exact h ▸ hrefl st
  | cons loc rest ih =>
    rw [forSlots, bind_eq_ok] at h
    obtain ⟨slot, hslot, h⟩ := h
    refine htrans _ _ _ (hbody 0 loc slot st rfl (slotOf_eq_ok.mp hslot)) (ih (fun k l s st hk => ?_) h)
    rw [Nat.add_assoc, Nat.add_comm 1 k]
    exact hbody (k + 1) l s st hk

theorem forSlots_rel {R : BlockState → BlockState → Prop} (hrefl : ∀ st, R st st)
    (htrans : ∀ st st' st'', R st st' → R st' st'' → R st st'')
    {body : Nat → CpuMemoryLocation → Slot → BlockState → BlockState}
    (hbody : ∀ i loc slot st, R st (body i loc slot st)) {i : Nat} {locs : List CpuMemoryLocation}
    {st st' : BlockState} (h : forSlots body i locs st = .ok st') : R st st' :=
  forSlots_rel_of_operand hrefl htrans (fun _ loc slot st _ _ => hbody _ loc slot st) h

/-- Nodes that belong to no instruction, with known sources, and no change of the context. -/
def Aside (st st' : BlockState) : Prop :=
  Extends (fun node => node.kind.builtFor = none ∧ Sources st st' node) (fun _ => .pass) st st'

theorem Aside.trans {st st' st'' : BlockState} (h : Aside st st') (h' : Aside st' st'') :
    Aside st st'' :=
  Extends.sources_andThen h h'

theorem aside_returnSink (S : Subject) (H : HashOrder) (returnIdx : Nat)
    (loc : CpuMemoryLocation) (slot : Slot) (st : BlockState) :
    Aside st (returnSink S H returnIdx loc slot st) := by
  unfold returnSink
  set d := st.flowContext.definition slot with hd
  cases hen : H.enumerate st.heap.length d with
  | nil => exact .refl _ st
  | cons y ys =>
    have hmem : ∀ v ∈ y :: ys, st.Holds v := fun v hv => ⟨slot, (H.mem _ _ v).mp (hen ▸ hv)⟩
    cases ys with
    | nil =>
      refine extends_pushSink ⟨rfl, fun v hv => .inl (hmem v hv)⟩
    | cons z zs =>
      have hphi : Aside st (st.alloc ⟨.phi S.length loc, y :: z :: zs⟩).1 :=
        extends_alloc ⟨rfl, fun v hv => .inl (hmem v hv)⟩
      refine (hphi.mono fun node hn => ⟨hn.1, hn.2.before ?_⟩).andThen
        (extends_pushSink ⟨rfl, fun v hv => .inr ?_⟩)
      · simp [pushSink, alloc]
      · rw [List.mem_singleton.mp hv]
        simp [Made, pushSink, alloc]

theorem aside_returnSinks {S : Subject} {H : HashOrder} {returnIdx : Nat} {st st' : BlockState}
    (h : returnSinks S H returnIdx st = .ok st') : Aside st st' :=
  forSlots_rel (R := Aside) (fun st => .refl _ st) (fun _ _ _ => Aside.trans)
    (fun _ loc slot st => aside_returnSink S H returnIdx loc slot st) h

section
variable {S : Subject} {H : HashOrder} {block : BasicBlock} {heap : Heap} {ctx : FlowContext}
  {result : BlockState}

/-- The instructions, and the return values if the block is an exit. -/
theorem processBlock_eq_ok : processBlock S H block heap ctx = .ok result ↔
    ∃ mid, processInsns S H block.endsInCall (block.stop + 1 - block.start) block.start
      ⟨heap, ctx, []⟩ = .ok mid ∧
      (block.isExit = true ∧ returnSinks S H block.stop mid = .ok result ∨
        block.isExit = false ∧ mid = result) := by
  rw [processBlock, bind_eq_ok]
  apply exists_congr
  intro mid
  apply and_congr_right'
  by_cases hexit : block.isExit = true
  · rw [if_pos hexit]
    simp [hexit]
  · rw [if_neg hexit]
    simp [hexit, pure, Except.pure]

theorem processBlock_spec (h : processBlock S H block heap ctx = .ok result) :
    ∃ mid, processInsns S H block.endsInCall (block.stop + 1 - block.start) block.start
      ⟨heap, ctx, []⟩ = .ok mid ∧ Aside mid result := by
  obtain ⟨mid, hmid, ⟨_, hreturns⟩ | ⟨_, rfl⟩⟩ := processBlock_eq_ok.mp h
  · exact ⟨mid, hmid, aside_returnSinks hreturns⟩
  · exact ⟨mid, hmid, .refl _ _⟩

/-- **A visit applies the effect of the block**, and its nodes are made of its own nodes
and of definitions that come in. -/
theorem processBlock_extends {B : Type} (blockOf : B → BasicBlock) {b : B}
    (h : processBlock S H (blockOf b) heap ctx = .ok result) :
    Extends (fun node => True ∧ Sources ⟨heap, ctx, []⟩ result node)
      (fun s => blockEffect (fun b => (blockOf b).start) (fun b => (blockOf b).stop)
        (fun b k => S.insnEffect (blockOf b).endsInCall k s) b)
      ⟨heap, ctx, []⟩ result := by
  obtain ⟨mid, hmid, haside⟩ := processBlock_spec h
  exact (processInsns_extends (fun b => (blockOf b).start) (fun b => (blockOf b).endsInCall)
    hmid).sources_andThen
    (haside.mono fun _ hn => ⟨trivial, hn.2⟩)

/-- An instruction of the block is visited. -/
theorem processBlock_visit (h : processBlock S H block heap ctx = .ok result) {n : Nat}
    (hn : block.start + n ≤ block.stop) :
    ∃ v : InsnVisit S H block.endsInCall block.start ⟨heap, ctx, []⟩ n,
      v.withInputs.heap <+: result.heap := by
  obtain ⟨mid, hmid, haside⟩ := processBlock_spec h
  obtain ⟨v, after, hext, _, hpre⟩ := processInsns_visit hmid
    (show n < block.stop + 1 - block.start by omega)
  exact ⟨v, (hext.heap_isPrefix.trans hpre).trans haside.heap_isPrefix⟩

/-- **Every node of the visit that belongs to an instruction has the inputs that were
built for it.** -/
theorem processBlock_node (h : processBlock S H block heap ctx = .ok result) {x : NodeId}
    {node : Node} {pc : Nat} (hx : heap.length ≤ x) (hnode : result.heap[x]? = some node)
    (hpc : node.kind.builtFor = some pc) :
    ∃ n, pc = block.start + n ∧ pc ≤ block.stop ∧
      ∃ v : InsnVisit S H block.endsInCall block.start ⟨heap, ctx, []⟩ n,
        node.inputs = v.insnInputs := by
  obtain ⟨mid, hmid, haside⟩ := processBlock_spec h
  rcases Nat.lt_or_ge x mid.heap.length with hlt | hge
  · rw [Heap.getElem?_of_isPrefix haside.heap_isPrefix hlt] at hnode
    obtain ⟨n, hn, heq, hv⟩ := processInsns_node hmid hx hnode hpc
    exact ⟨n, heq, by omega, hv⟩
  · rw [(haside.node hge hnode).1] at hpc
    cases hpc

end

end DataFlowAnalysis

end Ppc2cpp
