import Ppc2cpp.Analysis.Lockstep
import Ppc2cpp.DataFlow.SinkLists

/-! What the verdict `true` says about one block.

Two walks that came to the same block with the same memory compute the same in it: results
that are observed with each other have the same value (`resultsAgree`), and the stores and
branches are the same, one after another (`Arrived.events`). The results of earlier steps
give the values of the registers that come into the block, and the graph has no edge from
a store to a load, so how many stores come before a load in its block has to be asked for
(`ComparableInBlocks`). -/
namespace Ppc2cpp
open GenKill Matching ControlFlowGraph DataFlowAnalysis ProgramComparator Processor

/-- The number of stores in front of an instruction in its block. -/
def Subject.storesAhead (S : Subject) (g : ControlFlowGraph) (pc : Nat) : Nat :=
  match g.findBlockByInsnIdx pc with
  | none => 0
  | some b => (List.range' (g.startOf b) (pc - g.startOf b)).countP (S.hasForm storeInsn)

namespace Analysed

/-- The two functions are compared at the same outputs, and at loads that come after
equally many stores of their block. -/
structure ComparableInBlocks (A₁ A₂ : Analysed) : Prop where
  output : ∀ x₁ x₂, Observed A₁ A₂ x₁ x₂ → ∀ pc₁ i₁ loc₁ pc₂ i₂ loc₂,
    A₁.dfg.heap.kind? x₁ = some (.result pc₁ i₁ loc₁) →
    A₂.dfg.heap.kind? x₂ = some (.result pc₂ i₂ loc₂) → i₁ = i₂
  load : ∀ x₁ x₂, Observed A₁ A₂ x₁ x₂ → ∀ pc₁ i₁ loc₁ pc₂ i₂ loc₂,
    A₁.dfg.heap.kind? x₁ = some (.result pc₁ i₁ loc₁) →
    A₂.dfg.heap.kind? x₂ = some (.result pc₂ i₂ loc₂) →
    A₁.subject.hasForm loadInsn pc₁ = true →
      A₁.subject.storesAhead A₁.cfg pc₁ = A₂.subject.storesAhead A₂.cfg pc₂

/-- Two functions with the verdict `true`, with what makes it one about what they do. -/
structure Equivalent (A₁ A₂ : Analysed) (fuel : Nat) : Prop where
  left : A₁.Trusted
  right : A₂.Trusted
  disasm : A₁.subject.disasm = A₂.subject.disasm
  tables : A₁.subject.disasm.Consistent
  comparable : ComparableInBlocks A₁ A₂
  flows : (A₁.subject.comparator A₂.subject).FlowsMatch fuel A₁.side A₂.side

end Analysed

/-- Processors that differ at most in what the references are, and give references that
compare equal the same value. -/
structure SameMeaning {Value Memory : Type} (C : ProgramComparator) (fuel : Nat)
    (P₁ P₂ : Processor Value Memory) : Prop where
  compute : P₁.compute = P₂.compute
  load : P₁.load = P₂.load
  store : P₁.store = P₂.store
  taken : P₁.taken = P₂.taken
  reference : ∀ reloc₁ reloc₂, C.compareRelocations fuel reloc₁ reloc₂ = .ok true →
    P₁.reference reloc₁ = P₂.reference reloc₂

namespace Interpretation
variable {Value Memory : Type} {I : Interpretation Value Memory} {S : Subject}
  {m m' : Machine Value Memory} {events : List (Event Value)} {start count j : Nat}
  {event : Event Value}

/-- An event is what its instruction read when it was executed. -/
theorem execFrom_event (h : I.execFrom S start count m = .ok (m', events))
    (hj : events[j]? = some event) : ∃ i < count, event.pc = start + i ∧
      (event.opcode.opcode ∈ storeInsn ∨ isBranch (S.insn event.pc) = true) ∧
      ∃ m₁ es insnUD, I.execFrom S start i m = .ok (m₁, es) ∧ es.length = j ∧
        S.decode event.pc = .ok (event.opcode, insnUD) ∧
        I.operands event.pc insnUD m₁.regs = .ok event.operands := by
  induction count generalizing m' events with
  | zero =>
    cases h
    cases hj
  | succ count ih =>
    obtain ⟨m₁, earlier, last, hexec, hstep, rfl⟩ := execFrom_succ.mp h
    rcases Nat.lt_or_ge j earlier.length with hlt | hge
    · rw [List.getElem?_append_left hlt] at hj
      obtain ⟨i, hi, hrest⟩ := ih hexec hj
      exact ⟨i, Nat.lt_succ_of_lt hi, hrest⟩
    · rw [List.getElem?_append_right hge] at hj
      obtain ⟨opcode, insnUD, operands, regs, hdecode, hoperands, _, _, rfl⟩ := step_eq_ok.mp hstep
      split at hj
      · rename_i hsink
        rw [List.getElem?_singleton] at hj
        split at hj
        · cases hj
          exact ⟨count, Nat.lt_succ_self count, rfl, hsink, m₁, earlier, insnUD, hexec, by omega,
            hdecode, hoperands⟩
        · cases hj
      · cases hj

/-- Instructions that were executed are decoded. -/
theorem execFrom_decoded (h : I.execFrom S start count m = .ok (m', events)) {i : Nat}
    (hi : i < count) : ∃ opcode insnUD, S.decode (start + i) = .ok (opcode, insnUD) := by
  obtain ⟨m₁, es, hexec, _⟩ := execFrom_prefix (show i + 1 ≤ count from hi) h
  obtain ⟨_, _, _, _, hstep, _⟩ := execFrom_succ.mp hexec
  obtain ⟨opcode, insnUD, _, _, hdecode, _⟩ := step_eq_ok.mp hstep
  exact ⟨opcode, insnUD, hdecode⟩

end Interpretation

namespace Analysed
variable {A A₁ A₂ : Analysed} {fuel : Nat} {Value Memory : Type} {P₁ P₂ : Processor Value Memory}
  {m₀ : Machine Value Memory} {t b : Nat}

/-- The walks have come to the same block, and agree on what was computed on the way. -/
structure Arrived (A₁ A₂ : Analysed) (P₁ P₂ : Processor Value Memory) (m₀ : Machine Value Memory)
    (t b : Nat) : Prop where
  same : SameBlocks A₁ A₂ P₁ P₂ m₀ t
  block : P₁.blockAt A₁.subject A₁.cfg m₀ t = b
  internal₁ : A₁.cfg.isInternal b = true
  internal₂ : A₂.cfg.isInternal b = true
  earlier : ∀ u < t, ∀ k, ResultsAgree A₁ A₂ P₁ P₂ m₀ u k

theorem Arrived.block₂ (ha : Arrived A₁ A₂ P₁ P₂ m₀ t b) :
    P₂.blockAt A₂.subject A₂.cfg m₀ t = b :=
  (ha.same.block t (le_refl t)).symm.trans ha.block

/-- Sinks at the same place of the block are observed. -/
theorem Arrived.observed_sink (ha : Arrived A₁ A₂ P₁ P₂ m₀ t b) {j : Nat} {x₁ x₂ : NodeId}
    (hx₁ : (A₁.dfg.blockSinks b)[j]? = some x₁) (hx₂ : (A₂.dfg.blockSinks b)[j]? = some x₂) :
    Observed A₁ A₂ x₁ x₂ :=
  ⟨b, j, x₁, x₂, isInternal_lt ha.internal₁, hx₁, hx₂, .refl⟩

/-! ### Operands -/

section
variable {k₁ k₂ : Nat} {m₁ m₂ : Machine Value Memory} {es₁ es₂ : List (Event Value)}

/-- **Registers whose nodes match hold the same value** in front of two instructions. -/
theorem registers_agree (h : A₁.Equivalent A₂ fuel) (ha : Arrived A₁ A₂ P₁ P₂ m₀ t b)
    (hk₁ : A₁.cfg.startOf b + k₁ ≤ A₁.cfg.stopOf b) (hk₂ : A₂.cfg.startOf b + k₂ ≤ A₂.cfg.stopOf b)
    (hwithin : ResultsAgree A₁ A₂ P₁ P₂ m₀ t k₁)
    (hexec₁ : A₁.executed P₁ m₀ t k₁ = .ok (m₁, es₁))
    (hexec₂ : A₂.executed P₂ m₀ t k₂ = .ok (m₂, es₂)) {y₁ y₂ : NodeId}
    (hobserved : Observed A₁ A₂ y₁ y₂) {loc₁ loc₂ : CpuMemoryLocation} {slot₁ slot₂ : Slot}
    {d₁ d₂ : Definition} (hslot₁ : loc₁.slot? = some slot₁) (hslot₂ : loc₂.slot? = some slot₂)
    (hs₁ : Stands A₁.dfg.heap d₁ (A₁.cfg.startOf b + k₁) loc₁ y₁)
    (hs₂ : Stands A₂.dfg.heap d₂ (A₂.cfg.startOf b + k₂) loc₂ y₂)
    (hr₁ : A₁.Reaching b k₁ slot₁ d₁) (hr₂ : A₂.Reaching b k₂ slot₂ d₂)
    (hun₁ : ¬ A₁.Masked b k₁ slot₁) (hun₂ : ¬ A₂.Masked b k₂ slot₂) :
    m₁.regs slot₁ = m₂.regs slot₂ := by
  obtain ⟨hmatch, hentry⟩ := stands_match hobserved h.flows hs₁ hs₂ hr₁.defines hr₂.defines
  refine held_agree h.left h.right h.flows ha.same ha.block ha.internal₁ ha.internal₂ (by omega)
    (by omega) ha.earlier hwithin hr₁ hr₂ hmatch
    (hr₁.setsOwn h.left ha.same.walks₁ ha.block ha.internal₁ hun₁)
    (hr₂.setsOwn h.right ha.same.walks₂ ha.block₂ ha.internal₂ hun₂) (fun hpass hall => ?_)
    (ha.same.walks₁.held h.left.callFree hexec₁ slot₁)
    (ha.same.walks₂.held h.right.callFree hexec₂ slot₂)
  rw [hentry (hr₁.eq_empty ha.same.walks₁ ha.block hun₁ hpass hall)] at hslot₁
  exact Option.some.inj (hslot₁.symm.trans hslot₂)

/-- The node of a register is of no class that an immediate or a reference is compared
with. -/
theorem Reaching.not_constant {k : Nat} {y : NodeId} {loc : CpuMemoryLocation} {slot : Slot}
    {d : Definition} {kind : NodeKind} (hr : A.Reaching b k slot d)
    (hstands : Stands A.dfg.heap d (A.cfg.startOf b + k) loc y)
    (hkind : A.dfg.heap.kind? y = some kind) :
    (∀ pc i n, kind ≠ .immediate pc i n) ∧ ∀ pc i reloc, kind ≠ .reference pc i reloc := by
  rcases stands_cases hstands hr.defines with ⟨hy, _⟩ | ⟨_, _, _, hy, _⟩ | ⟨hy, _⟩
  all_goals
    rw [hkind] at hy
    cases hy
    simp

/-- **Nodes that match stand for the same operand.** -/
theorem reads_agree (h : A₁.Equivalent A₂ fuel)
    (hP : SameMeaning (A₁.subject.comparator A₂.subject) fuel P₁ P₂)
    (ha : Arrived A₁ A₂ P₁ P₂ m₀ t b) (hk₁ : A₁.cfg.startOf b + k₁ ≤ A₁.cfg.stopOf b)
    (hk₂ : A₂.cfg.startOf b + k₂ ≤ A₂.cfg.stopOf b) (hwithin : ResultsAgree A₁ A₂ P₁ P₂ m₀ t k₁)
    (hexec₁ : A₁.executed P₁ m₀ t k₁ = .ok (m₁, es₁))
    (hexec₂ : A₂.executed P₂ m₀ t k₂ = .ok (m₂, es₂)) {y₁ y₂ : NodeId} {v₁ v₂ : Operand Value}
    (hobserved : Observed A₁ A₂ y₁ y₂) (hv₁ : A₁.Reads P₁.reference b k₁ m₁.regs y₁ v₁)
    (hv₂ : A₂.Reads P₂.reference b k₂ m₂.regs y₂ v₂) : v₁ = v₂ := by
  obtain ⟨⟨kind₁, kind₂, hkind₁, hkind₂, hkinds⟩, _⟩ := match_iff.mp (hobserved.nodesMatch h.flows)
  change A₁.dfg.heap.kind? y₁ = _ at hkind₁
  change A₂.dfg.heap.kind? y₂ = _ at hkind₂
  cases hv₁ with
  | immediate hy₁ =>
    cases hkind₁.symm.trans hy₁
    cases hv₂ with
    | immediate hy₂ =>
      cases hkind₂.symm.trans hy₂
      exact congrArg _ (eq_of_beq (Except.ok.inj hkinds))
    | reference hy₂ =>
      cases hkind₂.symm.trans hy₂
      cases hkinds
    | register _ hs₂ hr₂ =>
      cases kind₂ with
      | immediate => exact absurd rfl ((hr₂.not_constant hs₂ hkind₂).1 _ _ _)
      | _ => cases hkinds
  | reference hy₁ =>
    cases hkind₁.symm.trans hy₁
    cases hv₂ with
    | immediate hy₂ =>
      cases hkind₂.symm.trans hy₂
      cases hkinds
    | reference hy₂ =>
      cases hkind₂.symm.trans hy₂
      exact congrArg _ (hP.reference _ _ hkinds)
    | register _ hs₂ hr₂ =>
      cases kind₂ with
      | reference => exact absurd rfl ((hr₂.not_constant hs₂ hkind₂).2 _ _ _)
      | _ => cases hkinds
  | register hslot₁ hs₁ hr₁ hun₁ =>
    cases hv₂ with
    | immediate hy₂ =>
      cases hkind₂.symm.trans hy₂
      cases kind₁ with
      | immediate => exact absurd rfl ((hr₁.not_constant hs₁ hkind₁).1 _ _ _)
      | _ => cases hkinds
    | reference hy₂ =>
      cases hkind₂.symm.trans hy₂
      cases kind₁ with
      | reference => exact absurd rfl ((hr₁.not_constant hs₁ hkind₁).2 _ _ _)
      | _ => cases hkinds
    | register hslot₂ hs₂ hr₂ hun₂ =>
      exact congrArg _ (registers_agree h ha hk₁ hk₂ hwithin hexec₁ hexec₂ hobserved hslot₁ hslot₂ hs₁
        hs₂ hr₁ hr₂ hun₁ hun₂)

/-- **Instructions that are compared read the same operands.** -/
theorem operands_agree (h : A₁.Equivalent A₂ fuel)
    (hP : SameMeaning (A₁.subject.comparator A₂.subject) fuel P₁ P₂)
    (ha : Arrived A₁ A₂ P₁ P₂ m₀ t b) (hwithin : ResultsAgree A₁ A₂ P₁ P₂ m₀ t k₁)
    (hexec₁ : A₁.executed P₁ m₀ t k₁ = .ok (m₁, es₁))
    (hexec₂ : A₂.executed P₂ m₀ t k₂ = .ok (m₂, es₂)) {x₁ x₂ : NodeId}
    (hobserved : Observed A₁ A₂ x₁ x₂) (hx₁ : A₁.BuiltIn b (A₁.cfg.startOf b + k₁) x₁)
    (hx₂ : A₂.BuiltIn b (A₂.cfg.startOf b + k₂) x₂) {opcode₁ opcode₂ : Opcode}
    {insnUD₁ insnUD₂ : InstructionUD} {operands₁ operands₂ : List (Operand Value)}
    (hdecode₁ : A₁.subject.decode (A₁.cfg.startOf b + k₁) = .ok (opcode₁, insnUD₁))
    (hdecode₂ : A₂.subject.decode (A₂.cfg.startOf b + k₂) = .ok (opcode₂, insnUD₂))
    (hops₁ : P₁.interpretation.operands (A₁.cfg.startOf b + k₁) insnUD₁ m₁.regs = .ok operands₁)
    (hops₂ : P₂.interpretation.operands (A₂.cfg.startOf b + k₂) insnUD₂ m₂.regs = .ok operands₂) :
    operands₁ = operands₂ := by
  obtain ⟨values₁, hvalues₁, rfl⟩ := Interpretation.operands_eq_ok.mp hops₁
  obtain ⟨values₂, hvalues₂, rfl⟩ := Interpretation.operands_eq_ok.mp hops₂
  obtain ⟨n₁, j₁, hn₁, hj₁, hmade₁⟩ := hx₁.made
  obtain ⟨n₂, j₂, hn₂, hj₂, hmade₂⟩ := hx₂.made
  obtain rfl := Nat.add_left_cancel hj₁
  obtain rfl := Nat.add_left_cancel hj₂
  have hreads₁ : List.Forall₂ (A₁.Reads P₁.reference b k₁ m₁.regs) (A₁.dfg.heap.inputs x₁) _ :=
    h.left.reads_inputs hn₁ hmade₁ hobserved.dependedOn.1 hdecode₁ hvalues₁
  have hreads₂ : List.Forall₂ (A₂.Reads P₂.reference b k₂ m₂.regs) (A₂.dfg.heap.inputs x₂) _ :=
    h.right.reads_inputs hn₂ hmade₂ hobserved.dependedOn.2 hdecode₂ hvalues₂
  obtain ⟨hlen₁, hall₁⟩ := List.forall₂_iff_get.mp hreads₁
  obtain ⟨hlen₂, hall₂⟩ := List.forall₂_iff_get.mp hreads₂
  obtain ⟨hlen, hall⟩ := List.forall₂_iff_get.mp (hobserved.inputs h.flows)
  refine List.ext_get (hlen₁.symm.trans (hlen.trans hlen₂)) fun i hi₁ hi₂ => ?_
  exact reads_agree h hP ha hx₁.within.2 hx₂.within.2 hwithin hexec₁ hexec₂
    (hall i (hlen₁ ▸ hi₁) (hlen₂ ▸ hi₂)) (hall₁ i (hlen₁ ▸ hi₁) hi₁) (hall₂ i (hlen₂ ▸ hi₂) hi₂)

end

/-! ### Stores and branches -/

section
variable {P : Processor Value Memory} {m m' : Machine Value Memory} {es : List (Event Value)}
  {j k : Nat}

/-- An event has a sink. -/
theorem Trusted.exists_sink (h : A.Trusted) (hb : A.cfg.isInternal b = true)
    (hk : A.cfg.startOf b + k ≤ A.cfg.stopOf b + 1)
    (hexec : P.interpretation.execFrom A.subject (A.cfg.startOf b) k m = .ok (m', es))
    {event : Event Value} (hj : es[j]? = some event) :
    ∃ x, (A.dfg.blockSinks b)[j]? = some x ∧ A.dfg.heap.kind? x = some (.sink event.pc) ∧
      A.BuiltIn b event.pc x := by
  obtain ⟨x, hx⟩ : ∃ x, A.cfg.Internal b x := (A.cfg.isInternal_iff b).mp hb
  have hstart : A.cfg.startOf b = x.start := by rw [startOf, hx.block_eq]
  have hstop : A.cfg.stopOf b = x.stop := by rw [stopOf, hx.block_eq]
  have hprefix : es.map Event.pc <+: A.subject.sinkInsns x := by
    rw [(Interpretation.execFrom_events hexec).1, Subject.sinkInsns, hstart]
    refine List.IsPrefix.filter _ ⟨List.range' (x.start + k) (x.stop + 1 - x.start - k), ?_⟩
    rw [List.range'_append_1]
    congr 1
    omega
  have hlt : j < (es.map Event.pc).length := by
    rw [List.length_map]
    exact (List.getElem?_eq_some_iff.mp hj).1
  have hinsn : (A.subject.sinkInsns x)[j]? = some event.pc := by
    rw [List.getElem?_eq_getElem (Nat.lt_of_lt_of_le hlt hprefix.length_le),
      ← List.IsPrefix.getElem hprefix hlt, List.getElem_map, (List.getElem?_eq_some_iff.mp hj).2]
  have hkind : (sinkKinds A.subject x (A.dfg.context b))[j]? = some (.sink event.pc) := by
    rw [sinkKinds, List.getElem?_append_left (by
      rw [List.length_map]
      exact (List.getElem?_eq_some_iff.mp hinsn).1), List.getElem?_map, hinsn, Option.map_some]
  obtain ⟨hlen, hget⟩ := List.forall₂_iff_get.mp ((functionDFA_haveKinds A.cfa A.dfa).1 b x hx)
  obtain ⟨hj', hsink⟩ := List.getElem?_eq_some_iff.mp hkind
  have hnode := hget j (hlen ▸ hj') hj'
  rw [List.get_eq_getElem, List.get_eq_getElem, hsink] at hnode
  obtain ⟨c, hc⟩ := exists_builtIn (congrArg (Option.bind · NodeKind.builtFor) hnode)
  have hrange := Interpretation.execFrom_event_pc hexec (List.mem_of_getElem? hj)
  obtain rfl := h.block_unique hb hc.internal hrange.1 (by omega) hc.within.1 hc.within.2
  exact ⟨_, List.getElem?_eq_getElem (hlen ▸ hj'), hnode, hc⟩

end

section
variable {k k₁ k₂ j : Nat} {m₁ m₂ : Machine Value Memory} {es₁ es₂ : List (Event Value)}

theorem ResultsAgree.mono (h : ResultsAgree A₁ A₂ P₁ P₂ m₀ t k) {k' : Nat} (hle : k' ≤ k) :
    ResultsAgree A₁ A₂ P₁ P₂ m₀ t k' := by
  intro z₁ z₂ pc₁ i₁ loc₁ pc₂ i₂ loc₂ hobserved hz₁ hz₂ hstop j₁ j₂ hj
  exact h z₁ z₂ pc₁ i₁ loc₁ pc₂ i₂ loc₂ hobserved hz₁ hz₂ hstop j₁ j₂ (lt_of_lt_of_le hj hle)

/-- **Stores and branches at the same place are the same.** -/
theorem Arrived.event (h : A₁.Equivalent A₂ fuel)
    (hP : SameMeaning (A₁.subject.comparator A₂.subject) fuel P₁ P₂)
    (ha : Arrived A₁ A₂ P₁ P₂ m₀ t b) (hwithin : ResultsAgree A₁ A₂ P₁ P₂ m₀ t k₁)
    (hk₁ : A₁.cfg.startOf b + k₁ ≤ A₁.cfg.stopOf b + 1)
    (hk₂ : A₂.cfg.startOf b + k₂ ≤ A₂.cfg.stopOf b + 1)
    (hexec₁ : A₁.executed P₁ m₀ t k₁ = .ok (m₁, es₁))
    (hexec₂ : A₂.executed P₂ m₀ t k₂ = .ok (m₂, es₂)) {event₁ event₂ : Event Value}
    (hj₁ : es₁[j]? = some event₁) (hj₂ : es₂[j]? = some event₂) :
    Semantics.seen event₁ = Semantics.seen event₂ ∧
      (A₁.subject.comparator A₂.subject).compareInsns A₁.side A₂.side event₁.pc event₂.pc =
        .ok true := by
  rw [executed, ha.block] at hexec₁
  rw [executed, ha.block₂] at hexec₂
  obtain ⟨x₁, hx₁, hkind₁, hbuilt₁⟩ := h.left.exists_sink ha.internal₁ hk₁ hexec₁ hj₁
  obtain ⟨x₂, hx₂, hkind₂, hbuilt₂⟩ := h.right.exists_sink ha.internal₂ hk₂ hexec₂ hj₂
  obtain ⟨i₁, hi₁, hpc₁, _, m₁', es₁', insnUD₁, hfirst₁, _, hdecode₁, hops₁⟩ :=
    Interpretation.execFrom_event hexec₁ hj₁
  obtain ⟨i₂, hi₂, hpc₂, _, m₂', es₂', insnUD₂, hfirst₂, _, hdecode₂, hops₂⟩ :=
    Interpretation.execFrom_event hexec₂ hj₂
  have hobserved := ha.observed_sink hx₁ hx₂
  obtain ⟨⟨_, _, hk, hk', hcompare⟩, _⟩ := match_iff.mp (hobserved.nodesMatch h.flows)
  cases hk.symm.trans hkind₁
  cases hk'.symm.trans hkind₂
  refine ⟨Prod.ext (opcode_of_compareInsns h.disasm h.tables hcompare hdecode₁ hdecode₂) ?_,
    hcompare⟩
  rw [hpc₁] at hbuilt₁ hdecode₁ hops₁
  rw [hpc₂] at hbuilt₂ hdecode₂ hops₂
  exact operands_agree h hP ha (hwithin.mono (le_of_lt hi₁)) (by rw [executed, ha.block]; exact hfirst₁)
    (by rw [executed, ha.block₂]; exact hfirst₂) hobserved hbuilt₁ hbuilt₂ hdecode₁ hdecode₂ hops₁ hops₂

/-- After equally many stores and branches the memory is the same. -/
theorem Arrived.memory (h : A₁.Equivalent A₂ fuel)
    (hP : SameMeaning (A₁.subject.comparator A₂.subject) fuel P₁ P₂)
    (ha : Arrived A₁ A₂ P₁ P₂ m₀ t b) (hwithin : ResultsAgree A₁ A₂ P₁ P₂ m₀ t k₁)
    (hk₁ : A₁.cfg.startOf b + k₁ ≤ A₁.cfg.stopOf b + 1)
    (hk₂ : A₂.cfg.startOf b + k₂ ≤ A₂.cfg.stopOf b + 1)
    (hexec₁ : A₁.executed P₁ m₀ t k₁ = .ok (m₁, es₁))
    (hexec₂ : A₂.executed P₂ m₀ t k₂ = .ok (m₂, es₂)) (hlen : es₁.length = es₂.length) :
    es₁.map Semantics.seen = es₂.map Semantics.seen ∧ m₁.memory = m₂.memory := by
  have hseen : es₁.map Semantics.seen = es₂.map Semantics.seen := by
    refine List.ext_getElem (by rw [List.length_map, List.length_map, hlen]) fun j hj₁ hj₂ => ?_
    rw [List.length_map] at hj₁ hj₂
    rw [List.getElem_map, List.getElem_map]
    exact (ha.event h hP hwithin hk₁ hk₂ hexec₁ hexec₂ (List.getElem?_eq_getElem hj₁)
      (List.getElem?_eq_getElem hj₂)).1
  refine ⟨hseen, ?_⟩
  have hreplay : ∀ (es : List (Event Value)) memory,
      P₁.interpretation.replay es memory = P₂.interpretation.replay es memory := by
    intro es memory
    simp only [Interpretation.replay, Semantics.interpretation, hP.store]
  rw [(Interpretation.execFrom_events hexec₁).2, (Interpretation.execFrom_events hexec₂).2,
    ha.same.memory t (le_refl t), P₁.replay_congr hseen, hreplay]

theorem Trusted.finished (h : A.Trusted) {x : BasicBlock} (hx : A.cfg.Internal b x) :
    Finished A.subject A.cfg b x := by
  obtain ⟨g, hok, hfinished⟩ := ControlFlowAnalysis.functionCFA_finished h.analysable
  obtain rfl := Except.ok.inj (hok.symm.trans A.cfa)
  exact hfinished b x hx

/-- Before the end of a block only stores are recorded. -/
theorem Trusted.events_length (h : A.Trusted) (hb : A.cfg.isInternal b = true)
    (hk : A.cfg.startOf b + k ≤ A.cfg.stopOf b) {P : Processor Value Memory}
    {m m' : Machine Value Memory} {es : List (Event Value)}
    (hexec : P.interpretation.execFrom A.subject (A.cfg.startOf b) k m = .ok (m', es)) :
    es.length = A.subject.storesAhead A.cfg (A.cfg.startOf b + k) := by
  obtain ⟨x, hx⟩ : ∃ x, A.cfg.Internal b x := (A.cfg.isInternal_iff b).mp hb
  have hfin := h.finished hx
  rw [Subject.storesAhead, h.findBlock hb (Nat.le_add_right _ _) hk]
  simp only [Nat.add_sub_cancel_left]
  rw [← List.length_map (f := Event.pc), (Interpretation.execFrom_events hexec).1,
    ← List.countP_eq_length_filter]
  refine List.countP_congr fun pc hpc => ?_
  obtain ⟨i, hi, rfl⟩ : ∃ i < k, pc = A.cfg.startOf b + i := by
    obtain ⟨i, hi, rfl⟩ := List.mem_range'.mp hpc
    exact ⟨i, hi, by omega⟩
  obtain ⟨opcode, insnUD, hdecode⟩ := Interpretation.execFrom_decoded hexec hi
  have hplain : isBranch (A.subject.insn (A.cfg.startOf b + i)) = false := by
    refine hfin.plain _ ?_ ?_
    · rw [startOf, hx.block_eq]
      exact Nat.le_add_right _ _
    · rw [stopOf, hx.block_eq] at hk
      omega
  rw [A.subject.leavesSink_eq hdecode, hplain, Subject.hasForm, hdecode]
  rfl

/-- **What a block computes agrees**, if the blocks before agree. -/
theorem Arrived.resultsAgree (h : A₁.Equivalent A₂ fuel)
    (hP : SameMeaning (A₁.subject.comparator A₂.subject) fuel P₁ P₂)
    (ha : Arrived A₁ A₂ P₁ P₂ m₀ t b) (k : Nat) : ResultsAgree A₁ A₂ P₁ P₂ m₀ t k := by
  induction k with
  | zero =>
    intro z₁ z₂ pc₁ i₁ loc₁ pc₂ i₂ loc₂ _ _ _ _ j₁ j₂ hj
    exact absurd hj (Nat.not_lt_zero j₁)
  | succ k ih =>
    intro z₁ z₂ pc₁ i₁ loc₁ pc₂ i₂ loc₂ hobserved hz₁ hz₂ hstop j₁ j₂ hj hpc₁ hpc₂ m₁ es₁ m₂ es₂
      hexec₁ hexec₂ v₁ v₂ hv₁ hv₂
    rcases Nat.lt_succ_iff_lt_or_eq.mp hj with hlt | rfl
    · exact ih z₁ z₂ pc₁ i₁ loc₁ pc₂ i₂ loc₂ hobserved hz₁ hz₂ hstop j₁ j₂ hlt hpc₁ hpc₂ m₁ es₁ m₂
        es₂ hexec₁ hexec₂ v₁ v₂ hv₁ hv₂
    · rw [ha.block] at hpc₁ hstop
      rw [ha.block₂] at hpc₂
      obtain ⟨⟨_, _, hk, hk', hcompare⟩, _⟩ := match_iff.mp (hobserved.nodesMatch h.flows)
      cases hk.symm.trans hz₁
      cases hk'.symm.trans hz₂
      obtain ⟨c, hc₁, hc₂⟩ := exists_builtIn_both h.left h.right (by rw [hz₁]; rfl) (by rw [hz₂]; rfl)
        hcompare
      obtain rfl := h.left.block_unique hc₁.internal ha.internal₁ hc₁.within.1 hc₁.within.2
        (by omega) hstop
      obtain ⟨opcode₁, insnUD₁, operands₁, hdecode₁, hops₁, rfl⟩ := hv₁
      obtain ⟨opcode₂, insnUD₂, operands₂, hdecode₂, hops₂, rfl⟩ := hv₂
      obtain rfl := opcode_of_compareInsns h.disasm h.tables hcompare hdecode₁ hdecode₂
      obtain rfl := h.comparable.output z₁ z₂ hobserved _ _ _ _ _ _ hz₁ hz₂
      subst hpc₁ hpc₂
      obtain rfl := operands_agree h hP ha ih hexec₁ hexec₂ hobserved hc₁ hc₂ hdecode₁ hdecode₂ hops₁
        hops₂
      change (if _ then P₁.load _ _ _ _ else P₁.compute _ _ _) = if _ then P₂.load _ _ _ _ else
        P₂.compute _ _ _
      by_cases hload : opcode₁.opcode ∈ loadInsn
      · have hform : A₁.subject.hasForm loadInsn (A₁.cfg.startOf c + j₁) = true := by
          rw [Subject.hasForm, hdecode₁]
          exact decide_eq_true hload
        have hstores := h.comparable.load z₁ z₂ hobserved _ _ _ _ _ _ hz₁ hz₂ hform
        have hlen : es₁.length = es₂.length := by
          have hfirst₁ := hexec₁
          have hfirst₂ := hexec₂
          rw [executed, ha.block] at hfirst₁
          rw [executed, ha.block₂] at hfirst₂
          rw [h.left.events_length ha.internal₁ hc₁.within.2 hfirst₁, hstores,
            h.right.events_length ha.internal₂ hc₂.within.2 hfirst₂]
        rw [if_pos hload, if_pos hload, hP.load, (ha.memory h hP ih
          (Nat.le_succ_of_le hc₁.within.2) (Nat.le_succ_of_le hc₂.within.2) hexec₁ hexec₂ hlen).2]
      · rw [if_neg hload, if_neg hload, hP.compute]

end

end Analysed
end Ppc2cpp
