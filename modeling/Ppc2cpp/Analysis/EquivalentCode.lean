import Ppc2cpp.Analysis.StraightLine
import Ppc2cpp.ControlFlow.Assembled
import Ppc2cpp.DataFlow.OperandUD

/-! What the verdict on two straight-line functions says about executing them.

Two functions with the verdict `true` make the same stores, one after another, if the
comparison looks at the same outputs and its loads come at the same place among the
stores (`Comparable`). The graph has no edge from a store to a load and no label for the
number of an output, so that has to be asked for. -/
namespace Ppc2cpp
open Matching DataFlowAnalysis ProgramComparator

/-- The meaning of the instructions: only loads depend on the memory, and what an
instruction does depends on nothing but its opcode and its operands. -/
structure Semantics (Value Memory : Type) where
  reference : Relocation → Value
  compute : Opcode → List (Operand Value) → Nat → Value
  load : Opcode → List (Operand Value) → Memory → Nat → Value
  store : Opcode → List (Operand Value) → Memory → Memory

namespace Semantics
variable {Value Memory : Type} (M : Semantics Value Memory)

def interpretation : Interpretation Value Memory where
  reference _ reloc := M.reference reloc
  output _ opcode operands memory i :=
    if opcode.opcode ∈ loadInsn then M.load opcode operands memory i
    else M.compute opcode operands i
  store _ opcode operands memory := M.store opcode operands memory

/-- What the semantics sees of an event. -/
def seen (event : Event Value) : Opcode × List (Operand Value) := (event.opcode, event.operands)

theorem replay_congr {events₁ events₂ : List (Event Value)}
    (h : events₁.map seen = events₂.map seen) (memory : Memory) :
    M.interpretation.replay events₁ memory = M.interpretation.replay events₂ memory := by
  have hseen : ∀ events : List (Event Value), M.interpretation.replay events memory =
      (events.map seen).foldl (fun memory event =>
        if event.1.opcode ∈ storeInsn then M.store event.1 event.2 memory else memory) memory := by
    intro events
    rw [List.foldl_map]
    rfl
  rw [hseen, hseen, h]

end Semantics

/-! ### The code that is compared -/

/-- What the code relies on of the tables. Raw mode has base mnemonics only, which two words
share if they share the mnemonic; and the opcode of a branch is that of a branch. -/
structure Ppcdisasm.Consistent (D : Ppcdisasm) : Prop where
  base : ∀ insn₁ insn₂, D.lookupPowerpc insn₁ .ppc750cl = D.lookupPowerpc insn₂ .ppc750cl →
    D.lookupPowerpc insn₁ .raw = D.lookupPowerpc insn₂ .raw
  branch : ∀ insn opcode, isBranch insn = true → D.lookupPowerpc insn .raw = some opcode →
    opcode.opcode ∈ branchInsn

namespace Subject

/-- No instruction of the function has a relocation. -/
def Unrelocated (S : Subject) : Prop :=
  ∀ pc < S.length, S.loader.reloctab.lookupByInsnLoc (S.pcLocation pc) = none

theorem StraightLine.not_unconditional {S : Subject} (h : S.StraightLine) {pc : Nat}
    (hpc : pc < S.length) : isBranchUncoditional (S.insn pc) = false := by
  rcases Nat.lt_or_ge (pc + 1) S.length with hlt | hge
  · exact (not_isBranch (h.plain pc hlt)).1
  · obtain rfl : pc = S.length - 1 := by omega
    cases hu : isBranchUncoditional (S.insn (S.length - 1)) with
    | false => rfl
    | true =>
      have hblr := h.blr
      rw [(isBranchUncoditional_excludes hu).2.1] at hblr
      cases hblr

/-- Without relocations there are no references. -/
theorem StraightLine.refs {S : Subject} (h : S.StraightLine) (hu : S.Unrelocated) {pc : Nat}
    (hpc : pc < S.length) {opcode : Opcode} {insnUD : InstructionUD}
    (hdecode : S.decode pc = .ok (opcode, insnUD)) : insnUD.refs = [] := by
  have hreloc : S.insnReloc pc = .ok none := by
    rw [insnReloc, hu pc hpc, h.not_unconditional hpc]
    rfl
  simp only [decode, hreloc, bind_eq_ok] at hdecode
  obtain ⟨_, hnone, raw, _, rawUD, hUD, hdecode⟩ := hdecode
  cases hnone
  cases hdecode
  exact instructionUD_refs hUD

end Subject

namespace Analysed

/-- The two functions are compared at the same outputs, and at loads that come after
equally many stores. -/
structure Comparable (A₁ A₂ : Analysed) : Prop where
  output : ∀ x₁ x₂, Observed A₁ A₂ x₁ x₂ → ∀ pc₁ i₁ loc₁ pc₂ i₂ loc₂,
    A₁.dfg.heap.kind? x₁ = some (.result pc₁ i₁ loc₁) →
    A₂.dfg.heap.kind? x₂ = some (.result pc₂ i₂ loc₂) → i₁ = i₂
  load : ∀ x₁ x₂, Observed A₁ A₂ x₁ x₂ → ∀ pc₁ i₁ loc₁ pc₂ i₂ loc₂,
    A₁.dfg.heap.kind? x₁ = some (.result pc₁ i₁ loc₁) →
    A₂.dfg.heap.kind? x₂ = some (.result pc₂ i₂ loc₂) →
    A₁.subject.hasForm loadInsn pc₁ = true →
      A₁.subject.storesBefore pc₁ = A₂.subject.storesBefore pc₂

end Analysed

/-- Instructions that compare equal have the same base opcode. -/
theorem opcode_of_compareInsns {S₁ S₂ : Subject} {g₁ g₂ : ControlFlowGraph} {st₁ st₂ : State}
    (hdisasm : S₁.disasm = S₂.disasm) (htables : S₁.disasm.Consistent) {pc₁ pc₂ : Nat}
    (h : (S₁.comparator S₂).compareInsns (S₁.side g₁ st₁) (S₂.side g₂ st₂) pc₁ pc₂ = .ok true)
    {opcode₁ opcode₂ : Opcode} {insnUD₁ insnUD₂ : InstructionUD}
    (h₁ : S₁.decode pc₁ = .ok (opcode₁, insnUD₁)) (h₂ : S₂.decode pc₂ = .ok (opcode₂, insnUD₂)) :
    opcode₁ = opcode₂ := by
  have hmnemonic : S₁.disasm.lookupPowerpc (S₁.insn pc₁) .ppc750cl =
      S₁.disasm.lookupPowerpc (S₂.insn pc₂) .ppc750cl := (compareInsns_iff.mp h).1
  have hbase := htables.base _ _ hmnemonic
  simp only [Subject.decode, bind_eq_ok] at h₁ h₂
  obtain ⟨_, _, raw₁, hraw₁, _, _, h₁⟩ := h₁
  obtain ⟨_, _, raw₂, hraw₂, _, _, h₂⟩ := h₂
  cases h₁
  cases h₂
  rw [value_eq_ok] at hraw₁ hraw₂
  rw [← hdisasm, ← hbase, hraw₁] at hraw₂
  exact Option.some.inj hraw₂

namespace Analysed
variable {A A₁ A₂ : Analysed} {fuel : Nat} {Value Memory : Type} {M : Semantics Value Memory}
  {m₀ : Machine Value Memory}

/-- The only block of straight-line code. -/
theorem internal_straightLine (h : A.subject.StraightLine) {b : Nat} {x : BasicBlock}
    (hx : A.cfg.Internal b x) : b = 0 ∧ x = straightBlock (A.subject.length - 1) := by
  obtain ⟨hblock, htype⟩ := hx
  rw [cfg_straightLine h] at hblock
  match b, hblock with
  | 0, hblock => exact ⟨rfl, (Option.some.inj hblock).symm⟩
  | 1, hblock =>
    cases hblock
    cases htype

theorem not_reference (h : A.subject.StraightLine) (hu : A.subject.Unrelocated) (x : NodeId)
    (pc i : Nat) (reloc : Relocation) : A.dfg.heap.kind? x ≠ some (.reference pc i reloc) := by
  have hmade : MadeKinds (fun kind => ∀ pc i reloc, kind ≠ .reference pc i reloc) A.subject A.cfg :=
    { insn := by
        intro b x hx pc _ hhi opcode insnUD hdecode
        have hpos := h.nonempty
        obtain ⟨_, rfl⟩ := internal_straightLine h hx
        have hrefs := h.refs hu (show pc < A.subject.length from
          Nat.lt_of_le_of_lt hhi (by simp only [straightBlock]; omega)) hdecode
        refine ⟨fun reloc hreloc => ?_, ?_, ?_, ?_, ?_, ?_, ?_⟩
        · rw [hrefs] at hreloc
          cases hreloc
        all_goals simp
      ret := by simp
      exitPhi := by simp }
  intro hx
  exact (functionDFA_ordered A.wellFormed hmade A.dfa).heap.kind? hx pc i reloc rfl

/-- Before the `blr` only stores are sinks. -/
theorem sinksBefore_eq (h : A.subject.StraightLine) {count : Nat} (hle : count < A.subject.length) :
    A.subject.sinksBefore count = A.subject.storesBefore count := by
  refine List.countP_congr fun pc hpc => ?_
  rw [Subject.isSink, h.plain pc (by have := List.mem_range.mp hpc; omega), Bool.or_false]

/-- What two compared nodes make of the same operands is the same, if loads see the same
memory. -/
theorem interprets_agree (hdisasm : A₁.subject.disasm = A₂.subject.disasm)
    (htables : A₁.subject.disasm.Consistent) (h₁ : A₁.subject.StraightLine)
    (hu₁ : A₁.subject.Unrelocated) (hc : Comparable A₁ A₂) {x y : NodeId}
    (hobserved : Observed A₁ A₂ x y)
    (hkinds : (A₁.subject.comparator A₂.subject).KindsMatch fuel A₁.side A₂.side x y)
    (hmemory : ∀ pc₁ pc₂ m₁ e₁ m₂ e₂, (∃ i loc, A₁.dfg.heap.kind? x = some (.result pc₁ i loc)) →
      (∃ i loc, A₂.dfg.heap.kind? y = some (.result pc₂ i loc)) →
      A₁.subject.storesBefore pc₁ = A₂.subject.storesBefore pc₂ →
      M.interpretation.exec A₁.subject pc₁ m₀ = .ok (m₁, e₁) →
      M.interpretation.exec A₂.subject pc₂ m₀ = .ok (m₂, e₂) → m₁.memory = m₂.memory)
    {operands : List (Operand Value)} {v w : Operand Value}
    (hv : Interprets M.interpretation A₁.subject m₀ A₁.dfg.heap x operands v)
    (hw : Interprets M.interpretation A₂.subject m₀ A₂.dfg.heap y operands w) : v = w := by
  obtain ⟨kind1, kind2, hkind1, hkind2, hcompare⟩ := hkinds
  change A₁.dfg.heap.kind? x = _ at hkind1
  change A₂.dfg.heap.kind? y = _ at hkind2
  cases hv with
  | functionInput hx hslot =>
    rw [hx] at hkind1
    cases hkind1
    cases hw with
    | functionInput hy hslot' =>
      rw [hy] at hkind2
      cases hkind2
      have hloc := eq_of_beq (Except.ok.inj hcompare)
      rw [← hloc, hslot] at hslot'
      cases hslot'
      rfl
    | immediate hy => rw [hy] at hkind2; cases hkind2; cases hcompare
    | reference hy => rw [hy] at hkind2; cases hkind2; cases hcompare
    | result hy => rw [hy] at hkind2; cases hkind2; cases hcompare
  | immediate hx =>
    rw [hx] at hkind1
    cases hkind1
    cases hw with
    | immediate hy =>
      rw [hy] at hkind2
      cases hkind2
      exact congrArg _ (eq_of_beq (Except.ok.inj hcompare))
    | functionInput hy => rw [hy] at hkind2; cases hkind2; cases hcompare
    | reference hy => rw [hy] at hkind2; cases hkind2; cases hcompare
    | result hy => rw [hy] at hkind2; cases hkind2; cases hcompare
  | reference hx => exact absurd hx (not_reference h₁ hu₁ x _ _ _)
  | @result pc₁ i₁ loc₁ _ opcode₁ insnUD₁ m₁ e₁ hx hdecode₁ hexec₁ =>
    rw [hx] at hkind1
    cases hkind1
    cases hw with
    | functionInput hy => rw [hy] at hkind2; cases hkind2; cases hcompare
    | immediate hy => rw [hy] at hkind2; cases hkind2; cases hcompare
    | reference hy => rw [hy] at hkind2; cases hkind2; cases hcompare
    | @result pc₂ i₂ loc₂ _ opcode₂ insnUD₂ m₂ e₂ hy hdecode₂ hexec₂ =>
      rw [hy] at hkind2
      cases hkind2
      obtain rfl := opcode_of_compareInsns hdisasm htables hcompare hdecode₁ hdecode₂
      obtain rfl := hc.output x y hobserved _ _ _ _ _ _ hx hy
      refine congrArg _ ?_
      show (if _ then _ else _) = if _ then _ else _
      by_cases hload : opcode₁.opcode ∈ loadInsn
      · have hform : A₁.subject.hasForm loadInsn pc₁ = true := by
          rw [Subject.hasForm, hdecode₁]
          exact decide_eq_true hload
        have hstores := hc.load x y hobserved _ _ _ _ _ _ hx hy hform
        rw [if_pos hload, if_pos hload,
          hmemory pc₁ pc₂ m₁ e₁ m₂ e₂ ⟨_, _, hx⟩ ⟨_, _, hy⟩ hstores hexec₁ hexec₂]
      · rw [if_neg hload, if_neg hload]

/-! ### One store after another -/

/-- The execution of a function up to its `blr`, with the sinks of its stores and of the
`blr`. -/
structure Execution (A : Analysed) (I : Interpretation Value Memory)
    (m₀ : Machine Value Memory) where
  final : Machine Value Memory
  stores : List (Event Value)
  blr : Event Value
  sinks : List NodeId
  rest : List NodeId
  exec : I.exec A.subject (A.subject.length - 1) m₀ = .ok (final, stores)
  returns : blr.pc = A.subject.length - 1
  blockSinks : A.dfg.blockSinks 0 = sinks ++ rest
  sinkOf : List.Forall₂ (SinkOf I A.subject m₀ A.dfg.heap) sinks (stores ++ [blr])

theorem exists_execution (h : A.subject.StraightLine) (I : Interpretation Value Memory)
    (m₀ : Machine Value Memory) : Nonempty (Execution A I m₀) := by
  obtain ⟨m, events, sinks, rest, hexec, hsinks, hall⟩ := sinks_straightLine h I m₀
  have hlen : A.subject.length - 1 + 1 = A.subject.length := Nat.sub_add_cancel h.nonempty
  have hbranch : isBranch (A.subject.insn (A.subject.length - 1)) = true :=
    (isBranch_iff _).mpr (.inr (.inr (.inl h.blr)))
  rw [← hlen, Interpretation.exec_succ] at hexec
  obtain ⟨mid, stores, last, hexec, hstep, rfl⟩ := hexec
  obtain ⟨opcode, insnUD, operands, regs, _, _, _, _, rfl⟩ := Interpretation.step_eq_ok.mp hstep
  rw [if_pos (.inr hbranch)] at hall
  exact ⟨⟨mid, stores, _, sinks, rest, hexec, rfl, hsinks, hall⟩⟩

namespace Execution
variable {I : Interpretation Value Memory}

theorem event (E : Execution A I m₀) {j : Nat} {event : Event Value}
    (hj : (E.stores ++ [E.blr])[j]? = some event) :
    event.pc ≤ A.subject.length - 1 ∧ A.subject.sinksBefore event.pc = j := by
  rcases Nat.lt_or_ge j E.stores.length with hlt | hge
  · rw [List.getElem?_append_left hlt] at hj
    obtain ⟨hpc, hsinks, _⟩ := Interpretation.exec_event E.exec hj
    exact ⟨hpc.le, hsinks⟩
  · rw [List.getElem?_append_right hge, List.getElem?_singleton] at hj
    split at hj
    · rename_i hzero
      cases hj
      rw [E.returns, ← (Interpretation.exec_memory E.exec).2]
      exact ⟨le_refl _, by omega⟩
    · cases hj

theorem sink (E : Execution A I m₀) {j : Nat} {event : Event Value}
    (hj : (E.stores ++ [E.blr])[j]? = some event) :
    ∃ x, (A.dfg.blockSinks 0)[j]? = some x ∧ SinkOf I A.subject m₀ A.dfg.heap x event := by
  obtain ⟨hlen, hall⟩ := List.forall₂_iff_get.mp E.sinkOf
  obtain ⟨hj', rfl⟩ := List.getElem?_eq_some_iff.mp hj
  have hlt : j < E.sinks.length := by omega
  refine ⟨E.sinks[j], ?_, hall j hlt hj'⟩
  rw [E.blockSinks, List.getElem?_append_left hlt, List.getElem?_eq_getElem hlt]

/-- The memory a load sees is that of the stores before it. -/
theorem memory (E : Execution A I m₀) (h : A.subject.StraightLine) {pc : Nat}
    (hpc : pc ≤ A.subject.length - 1) {m : Machine Value Memory} {events : List (Event Value)}
    (hexec : I.exec A.subject pc m₀ = .ok (m, events)) :
    m.memory = I.replay (E.stores.take (A.subject.storesBefore pc)) m₀.memory := by
  have hlt : pc < A.subject.length := by
    have := h.nonempty
    omega
  rw [Interpretation.exec_memory_take hpc hexec E.exec, sinksBefore_eq h hlt]

end Execution

/-- A node is not older than what stands below it. -/
theorem le_of_together {x y a b : NodeId}
    (h : Together A₁.dfg.heap.inputs A₂.dfg.heap.inputs x y a b) : a ≤ x ∧ b ≤ y := by
  induction h with
  | refl => exact ⟨le_refl x, le_refl y⟩
  | child _ ha hb ih =>
    have hlt₁ := A₁.ordered.lt_of_mem_inputs (List.mem_of_getElem? ha)
    have hlt₂ := A₂.ordered.lt_of_mem_inputs (List.mem_of_getElem? hb)
    exact ⟨hlt₁.le.trans ih.1, hlt₂.le.trans ih.2⟩

/-- **If the same was stored before, the next stores are the same.** -/
theorem Execution.next (hdisasm : A₁.subject.disasm = A₂.subject.disasm)
    (htables : A₁.subject.disasm.Consistent) (h₁ : A₁.subject.StraightLine)
    (h₂ : A₂.subject.StraightLine) (hu₁ : A₁.subject.Unrelocated) (hc : Comparable A₁ A₂)
    (hflows : (A₁.subject.comparator A₂.subject).FlowsMatch fuel A₁.side A₂.side)
    (E₁ : Execution A₁ M.interpretation m₀) (E₂ : Execution A₂ M.interpretation m₀) {j : Nat}
    {event₁ event₂ : Event Value} (hj₁ : (E₁.stores ++ [E₁.blr])[j]? = some event₁)
    (hj₂ : (E₂.stores ++ [E₂.blr])[j]? = some event₂)
    (hbefore : (E₁.stores.map Semantics.seen).take j = (E₂.stores.map Semantics.seen).take j) :
    Semantics.seen event₁ = Semantics.seen event₂ := by
  obtain ⟨hpc₁, hcount₁⟩ := E₁.event hj₁
  obtain ⟨hpc₂, hcount₂⟩ := E₂.event hj₂
  obtain ⟨x, hx, hsink₁⟩ := E₁.sink hj₁
  obtain ⟨y, hy, hsink₂⟩ := E₂.sink hj₂
  have hblock : 0 < A₁.cfg.blocks.length := by
    rw [cfg_straightLine h₁]
    exact Nat.zero_lt_two
  have hobserved : ∀ a b, Together A₁.dfg.heap.inputs A₂.dfg.heap.inputs x y a b →
      Observed A₁ A₂ a b := fun a b hab => ⟨0, j, x, y, hblock, hx, hy, hab⟩
  have hmatch := (hobserved x y .refl).nodesMatch hflows
  obtain ⟨⟨kind1, kind2, hkind1, hkind2, hcompare⟩, hinputs⟩ := match_iff.mp hmatch
  have hopcode : event₁.opcode = event₂.opcode := by
    obtain ⟨_, hdecode₁⟩ := hsink₁.decoded
    obtain ⟨_, hdecode₂⟩ := hsink₂.decoded
    cases hkind1.symm.trans hsink₁.kind
    cases hkind2.symm.trans hsink₂.kind
    exact opcode_of_compareInsns hdisasm htables hcompare hdecode₁ hdecode₂
  -- the loads below the two sinks come after no more than `j` stores
  have hmemory : ∀ a b, Together A₁.dfg.heap.inputs A₂.dfg.heap.inputs x y a b →
      ∀ pc₁ pc₂ m₁ e₁ m₂ e₂, (∃ i loc, A₁.dfg.heap.kind? a = some (.result pc₁ i loc)) →
      (∃ i loc, A₂.dfg.heap.kind? b = some (.result pc₂ i loc)) →
      A₁.subject.storesBefore pc₁ = A₂.subject.storesBefore pc₂ →
      M.interpretation.exec A₁.subject pc₁ m₀ = .ok (m₁, e₁) →
      M.interpretation.exec A₂.subject pc₂ m₀ = .ok (m₂, e₂) → m₁.memory = m₂.memory := by
    rintro a b hab pc₁ pc₂ m₁ e₁ m₂ e₂ ⟨i₁, loc₁, ha⟩ ⟨i₂, loc₂, hb⟩ hstores hexec₁ hexec₂
    obtain ⟨hax, hby⟩ := le_of_together hab
    have hle₁ := hsink₁.last a hax _ pc₁ ha rfl
    have hle₂ := hsink₂.last b hby _ pc₂ hb rfl
    have hlen := h₁.nonempty
    have hbound : A₁.subject.storesBefore pc₁ ≤ j := by
      rw [← sinksBefore_eq h₁ (by omega), ← hcount₁]
      exact A₁.subject.sinksBefore_mono hle₁
    rw [E₁.memory h₁ (hle₁.trans hpc₁) hexec₁, E₂.memory h₂ (hle₂.trans hpc₂) hexec₂, ← hstores]
    refine M.replay_congr ?_ _
    rw [List.map_take, List.map_take, ← Nat.min_eq_left hbound, ← List.take_take, hbefore,
      List.take_take]
  have hoperands : event₁.operands = event₂.operands := by
    obtain ⟨hlen₁, hall₁⟩ := List.forall₂_iff_get.mp hsink₁.inputs
    obtain ⟨hlen₂, hall₂⟩ := List.forall₂_iff_get.mp hsink₂.inputs
    have hlen : (A₁.dfg.heap.inputs x).length = (A₂.dfg.heap.inputs y).length :=
      hinputs.length_eq
    refine List.ext_getElem (by omega) fun i hi₁ hi₂ => ?_
    have hab : Together A₁.dfg.heap.inputs A₂.dfg.heap.inputs x y
        ((A₁.dfg.heap.inputs x)[i]) ((A₂.dfg.heap.inputs y)[i]) :=
      .child .refl (List.getElem?_eq_getElem _) (List.getElem?_eq_getElem _)
    refine Match.value_eq hmatch (fun a b hab hkinds vs v w hv hw => ?_) hab
      (hall₁ i (by omega) hi₁) (hall₂ i (by omega) hi₂)
    exact interprets_agree hdisasm htables h₁ hu₁ hc (hobserved a b hab) hkinds (hmemory a b hab)
      hv hw
  exact Prod.ext hopcode hoperands

theorem Execution.store (E : Execution A M.interpretation m₀) (h : A.subject.StraightLine) {j : Nat}
    {event : Event Value} (hj : E.stores[j]? = some event) : event.opcode.opcode ∈ storeInsn := by
  obtain ⟨hpc, _, hsink⟩ := Interpretation.exec_event E.exec hj
  refine hsink.resolve_right fun hbranch => ?_
  rw [h.plain event.pc (by omega)] at hbranch
  cases hbranch

theorem Execution.branch (E : Execution A M.interpretation m₀) (h : A.subject.StraightLine)
    (htables : A.subject.disasm.Consistent) : E.blr.opcode.opcode ∈ branchInsn := by
  obtain ⟨_, _, hsink⟩ := E.sink (List.getElem?_concat_length)
  obtain ⟨insnUD, hdecode⟩ := hsink.decoded
  simp only [Subject.decode, bind_eq_ok] at hdecode
  obtain ⟨_, _, opcode, hopcode, _, _, hdecode⟩ := hdecode
  cases hdecode
  rw [value_eq_ok, E.returns] at hopcode
  exact htables.branch _ _ ((isBranch_iff _).mpr (.inr (.inr (.inl h.blr)))) hopcode

/-- **Straight-line functions with the verdict `true` leave the same memory**, if the
comparison looks at the same outputs and at loads that come after equally many stores. -/
theorem straightLine_sameMemory {Value Memory : Type} (M : Semantics Value Memory)
    (A₁ A₂ : Analysed) (fuel : Nat) (hdisasm : A₁.subject.disasm = A₂.subject.disasm)
    (htables : A₁.subject.disasm.Consistent) (h₁ : A₁.subject.StraightLine)
    (h₂ : A₂.subject.StraightLine) (hu₁ : A₁.subject.Unrelocated) (hc : Comparable A₁ A₂)
    (hverdict : (A₁.subject.comparator A₂.subject).compareFunctionFlows fuel A₁.function
      A₂.function = .ok true) (m₀ : Machine Value Memory) :
    ∃ m₁ stores₁ m₂ stores₂,
      M.interpretation.exec A₁.subject (A₁.subject.length - 1) m₀ = .ok (m₁, stores₁) ∧
      M.interpretation.exec A₂.subject (A₂.subject.length - 1) m₀ = .ok (m₂, stores₂) ∧
      m₁.memory = m₂.memory := by
  have hflows := compareFunctionFlows_iff.mp hverdict
  obtain ⟨E₁⟩ := exists_execution h₁ M.interpretation m₀
  obtain ⟨E₂⟩ := exists_execution h₂ M.interpretation m₀
  have hnext : ∀ {j : Nat} {event₁ event₂ : Event Value},
      (E₁.stores ++ [E₁.blr])[j]? = some event₁ → (E₂.stores ++ [E₂.blr])[j]? = some event₂ →
      (E₁.stores.map Semantics.seen).take j = (E₂.stores.map Semantics.seen).take j →
      Semantics.seen event₁ = Semantics.seen event₂ :=
    Execution.next hdisasm htables h₁ h₂ hu₁ hc hflows E₁ E₂
  have htake : ∀ j ≤ E₁.stores.length, j ≤ E₂.stores.length →
      (E₁.stores.map Semantics.seen).take j = (E₂.stores.map Semantics.seen).take j := by
    intro j
    induction j with
    | zero => simp
    | succ j ih =>
      intro hj₁ hj₂
      have hbefore := ih (by omega) (by omega)
      have hget₁ := List.getElem?_eq_getElem (show j < E₁.stores.length by omega)
      have hget₂ := List.getElem?_eq_getElem (show j < E₂.stores.length by omega)
      have hseen := hnext (by rw [List.getElem?_append_left (by omega), hget₁])
        (by rw [List.getElem?_append_left (by omega), hget₂]) hbefore
      rw [List.take_add_one, List.take_add_one, hbefore, List.getElem?_map, List.getElem?_map,
        hget₁, hget₂, Option.map_some, Option.map_some, hseen]
  have hdiffer : ∀ {opcode : Opcode}, opcode.opcode ∈ storeInsn → opcode.opcode ∉ branchInsn :=
    fun h => store_not_branch _ h
  have hlen : E₁.stores.length = E₂.stores.length := by
    rcases Nat.lt_trichotomy E₁.stores.length E₂.stores.length with hlt | heq | hgt
    · have hget₂ := List.getElem?_eq_getElem hlt
      have hseen := hnext List.getElem?_concat_length
        (by rw [List.getElem?_append_left hlt, hget₂]) (htake _ (le_refl _) hlt.le)
      have hopcode : E₁.blr.opcode = _ := congrArg Prod.fst hseen
      refine absurd (E₁.branch h₁ htables) (hdiffer ?_)
      rw [hopcode]
      exact E₂.store h₂ hget₂
    · exact heq
    · have hget₁ := List.getElem?_eq_getElem hgt
      have hseen := hnext (by rw [List.getElem?_append_left hgt, hget₁])
        List.getElem?_concat_length (htake _ hgt.le (le_refl _))
      have hopcode : _ = E₂.blr.opcode := congrArg Prod.fst hseen
      refine absurd (E₂.branch h₂ (hdisasm ▸ htables)) (hdiffer ?_)
      rw [← hopcode]
      exact E₁.store h₁ hget₁
  have hstores : E₁.stores.map Semantics.seen = E₂.stores.map Semantics.seen := by
    have h := htake _ (le_refl _) hlen.le
    rwa [List.take_of_length_le (by simp), List.take_of_length_le (by simp [hlen])] at h
  refine ⟨_, _, _, _, E₁.exec, E₂.exec, ?_⟩
  rw [(Interpretation.exec_memory E₁.exec).1, (Interpretation.exec_memory E₂.exec).1]
  exact M.replay_congr hstores _

/-! ### A load and a store -/

/-- Every result is the first output of its instruction, and comes before every store. -/
def resultsFirst (S : Subject) (heap : Heap) : Bool :=
  heap.all fun node => match node.kind with
    | .result pc i _ => i == 0 && S.storesBefore pc == 0
    | _ => true

theorem resultsFirst_result {S : Subject} {heap : Heap} (h : resultsFirst S heap = true) {x : NodeId}
    {pc i : Nat} {loc : CpuMemoryLocation} (hx : heap.kind? x = some (.result pc i loc)) :
    i = 0 ∧ S.storesBefore pc = 0 := by
  obtain ⟨node, hnode, hkind⟩ := Option.map_eq_some_iff.mp hx
  have hcheck := List.all_eq_true.mp h node (List.mem_of_getElem? hnode)
  simpa [hkind] using hcheck

theorem comparable_of_resultsFirst (h₁ : resultsFirst A₁.subject A₁.dfg.heap = true)
    (h₂ : resultsFirst A₂.subject A₂.dfg.heap = true) : Comparable A₁ A₂ where
  output _ _ _ _ _ _ _ _ _ hx hy := by
    rw [(resultsFirst_result h₁ hx).1, (resultsFirst_result h₂ hy).1]
  load _ _ _ _ _ _ _ _ _ hx hy _ := by
    rw [(resultsFirst_result h₁ hx).2, (resultsFirst_result h₂ hy).2]

end Analysed

namespace Excerpt

def word : Operand Word → Word
  | .imm n => BitVec.ofInt 32 n
  | .val v => v

def sum (operands : List (Operand Word)) : Word := (operands.map word).foldr (· + ·) 0

/-- The first register operand. -/
def source : List (Operand Word) → Word
  | [] => 0
  | .imm _ :: operands => source operands
  | .val v :: _ => v

def readWord (memory : Word → BitVec 8) (address : Word) : Word :=
  memory address ++ memory (address + 1) ++ memory (address + 2) ++ memory (address + 3)

def writeWord (memory : Word → BitVec 8) (address w : Word) (x : Word) : BitVec 8 :=
  if x = address then w.extractLsb' 24 8
  else if x = address + 1 then w.extractLsb' 16 8
  else if x = address + 2 then w.extractLsb' 8 8
  else if x = address + 3 then w.extractLsb' 0 8
  else memory x

/-- The instructions of the table: register 0 as a base is the immediate 0, so that a sum
of operands is a sum or an address. -/
def semantics : Semantics Word (Word → BitVec 8) where
  reference _ := 0
  compute opcode operands _ :=
    match opcode.opcode with
    | .ADD | .ADDI => sum operands
    | _ => 0
  load opcode operands memory _ :=
    match opcode.opcode with
    | .LWZ => readWord memory (sum operands)
    | _ => 0
  store opcode operands memory :=
    match opcode.opcode with
    | .STW => writeWord memory (sum operands - source operands) (source operands)
    | _ => memory

theorem ppcdisasm_consistent : ppcdisasm.Consistent where
  base _ _ h := h
  branch := ppcdisasm_branchesListed

end Excerpt

namespace Analysed

/-- Straight-line code, from a check of every instruction. -/
theorem straightLine_of_check {S : Subject} (h : 0 < S.length ∧
    (∀ pc < S.length - 1, isBranch (S.insn pc) = false) ∧
    isBranchToLR (S.insn (S.length - 1)) = true ∧
    isBranchConditionUnconditional (S.insn (S.length - 1)) = true ∧
    isLink (S.insn (S.length - 1)) = false) : S.StraightLine where
  nonempty := h.1
  plain pc hpc := h.2.1 pc (by omega)
  blr := h.2.2.1
  unconditional := h.2.2.2.1
  unlinked := h.2.2.2.2

/-- `lwz r6,0(r4)`, `stw r6,4(r5)`, `blr`. -/
def copyWord : Subject := assembledSubject [0x80c40000, 0x90c50004, 0x4e800020] 3 (by decide)

/-- The same through r7. -/
def copyWordRenamed : Subject := assembledSubject [0x80e40000, 0x90e50004, 0x4e800020] 3 (by decide)

theorem straightLine_sameMemory_copyWord : ∃ A₁ A₂ : Analysed, A₁.subject = copyWord ∧
    A₂.subject = copyWordRenamed ∧ ∀ m₀ : Machine Word (Word → BitVec 8),
    ∃ m₁ stores₁ m₂ stores₂,
      Excerpt.semantics.interpretation.exec A₁.subject (A₁.subject.length - 1) m₀ =
        .ok (m₁, stores₁) ∧
      Excerpt.semantics.interpretation.exec A₂.subject (A₂.subject.length - 1) m₀ =
        .ok (m₂, stores₂) ∧
      m₁.memory = m₂.memory := by
  obtain ⟨A₁, A₂, hS₁, hS₂, hfirst, hverdict⟩ := exists_equivalent copyWord copyWordRenamed 1 1 1
    (p := fun _ st₁ _ st₂ => resultsFirst copyWord st₁.heap && resultsFirst copyWordRenamed st₂.heap)
    (by decide +kernel)
  obtain ⟨hfirst₁, hfirst₂⟩ := Bool.and_eq_true_iff.mp hfirst
  refine ⟨A₁, A₂, hS₁, hS₂, fun m₀ => ?_⟩
  refine straightLine_sameMemory Excerpt.semantics A₁ A₂ 1 (by rw [hS₁, hS₂]; rfl) ?_ ?_ ?_ ?_
    (comparable_of_resultsFirst (hS₁ ▸ hfirst₁) (hS₂ ▸ hfirst₂)) hverdict m₀
  · rw [hS₁]
    exact Excerpt.ppcdisasm_consistent
  · rw [hS₁]
    exact straightLine_of_check (by decide +kernel)
  · rw [hS₂]
    exact straightLine_of_check (by decide +kernel)
  · rw [hS₁]
    exact fun _ _ => rfl

/-- `lwz r3,0(r4)`, `stw r5,0(r4)`, `stw r3,4(r4)`, `blr`. -/
def loadFirst : Subject :=
  assembledSubject [0x80640000, 0x90a40000, 0x90640004, 0x4e800020] 4 (by decide)

/-- The same with the load after the store. -/
def storeFirst : Subject :=
  assembledSubject [0x90a40000, 0x80640000, 0x90640004, 0x4e800020] 4 (by decide)

/-- The verdict on the two is `true`, and the second word stored is that in memory at first
or r5. -/
theorem loadOrder_ignored : ¬ ∀ (A₁ A₂ : Analysed) (fuel : Nat),
    A₁.subject.disasm = Excerpt.ppcdisasm → A₂.subject.disasm = Excerpt.ppcdisasm →
    A₁.subject.StraightLine → A₂.subject.StraightLine →
    A₁.subject.Unrelocated → A₂.subject.Unrelocated →
    (A₁.subject.comparator A₂.subject).compareFunctionFlows fuel A₁.function A₂.function =
      .ok true →
    ∀ (m₀ m₁ m₂ : Machine Word (Word → BitVec 8)) stores₁ stores₂,
      Excerpt.semantics.interpretation.exec A₁.subject (A₁.subject.length - 1) m₀ =
        .ok (m₁, stores₁) →
      Excerpt.semantics.interpretation.exec A₂.subject (A₂.subject.length - 1) m₀ =
        .ok (m₂, stores₂) →
      m₁.memory = m₂.memory := by
  intro hall
  obtain ⟨A₁, A₂, hS₁, hS₂, _, hverdict⟩ := exists_equivalent loadFirst storeFirst 1 1 1
    (p := fun _ _ _ _ => true) (by decide +kernel)
  -- r5 holds 7, and every other register and the memory 0
  let m₀ : Machine Word (Word → BitVec 8) := ⟨fun s => if s = .gpr 5 then 7 else 0, fun _ => 0⟩
  have hrun : ∀ (S : Subject) (byte : BitVec 8),
      returns (Excerpt.semantics.interpretation.exec S 3 m₀) (fun m => m.1.memory 7 == byte) = true →
      ∃ m stores, Excerpt.semantics.interpretation.exec S 3 m₀ = .ok (m, stores) ∧
        m.memory 7 = byte := by
    intro S byte hcheck
    obtain ⟨⟨m, stores⟩, hexec, hbyte⟩ := exists_ok hcheck
    exact ⟨m, stores, hexec, eq_of_beq hbyte⟩
  obtain ⟨m₁, stores₁, hexec₁, hbyte₁⟩ := hrun loadFirst 0 (by decide +kernel)
  obtain ⟨m₂, stores₂, hexec₂, hbyte₂⟩ := hrun storeFirst 7 (by decide +kernel)
  have hsame := hall A₁ A₂ 1 (by rw [hS₁]; rfl) (by rw [hS₂]; rfl)
    (by rw [hS₁]; exact straightLine_of_check (by decide +kernel))
    (by rw [hS₂]; exact straightLine_of_check (by decide +kernel))
    (by rw [hS₁]; exact fun _ _ => rfl) (by rw [hS₂]; exact fun _ _ => rfl)
    hverdict m₀ m₁ m₂ stores₁ stores₂ (by rw [hS₁]; exact hexec₁) (by rw [hS₂]; exact hexec₂)
  rw [hsame, hbyte₂] at hbyte₁
  cases hbyte₁

end Analysed

end Ppc2cpp
