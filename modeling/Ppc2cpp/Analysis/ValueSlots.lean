import Ppc2cpp.Analysis.Analysed
import Ppc2cpp.Analysis.Machine
import Ppc2cpp.ControlFlow.Assembled
import Ppc2cpp.DataFlow.Siblings

/-! Which value a node stands for.

An instruction with several outputs makes a node for each, and all have the same inputs;
the comparison of nodes looks at the instruction and at the inputs, and so takes one
output of an instruction for another. The same goes for the return values of a call.
Where neither can happen, matching nodes stand for the same output, and so they have the
same value under every meaning of the opcodes (`matchedSlotsAgree_iff`). It cannot happen
where instructions have one output each and nothing is called, whatever their operands are
(`matchedSlotsAgree_of_singleOutputs`). -/
namespace Ppc2cpp
open Matching DataFlowAnalysis ProgramComparator

/-- Two nodes are of the same class, and stand for the same output of the same opcode or
for the same return register. -/
inductive SameSlot (opcode₁ opcode₂ : Nat → Option Opcode) : NodeKind → NodeKind → Prop where
  | functionInput {pc₁ pc₂ : Nat} {loc₁ loc₂ : CpuMemoryLocation} :
      SameSlot opcode₁ opcode₂ (.functionInput pc₁ loc₁) (.functionInput pc₂ loc₂)
  | immediate {pc₁ pc₂ i₁ i₂ : Nat} {value₁ value₂ : Int} :
      SameSlot opcode₁ opcode₂ (.immediate pc₁ i₁ value₁) (.immediate pc₂ i₂ value₂)
  | reference {pc₁ pc₂ i₁ i₂ : Nat} {reloc₁ reloc₂ : Relocation} :
      SameSlot opcode₁ opcode₂ (.reference pc₁ i₁ reloc₁) (.reference pc₂ i₂ reloc₂)
  | callReturn {pc₁ pc₂ : Nat} {loc : CpuMemoryLocation} :
      SameSlot opcode₁ opcode₂ (.callReturn pc₁ loc) (.callReturn pc₂ loc)
  | result {pc₁ pc₂ opindex : Nat} {loc₁ loc₂ : CpuMemoryLocation} : opcode₁ pc₁ = opcode₂ pc₂ →
      SameSlot opcode₁ opcode₂ (.result pc₁ opindex loc₁) (.result pc₂ opindex loc₂)
  | sink {pc₁ pc₂ : Nat} : SameSlot opcode₁ opcode₂ (.sink pc₁) (.sink pc₂)
  | ret {pc₁ pc₂ : Nat} {loc₁ loc₂ : CpuMemoryLocation} :
      SameSlot opcode₁ opcode₂ (.ret pc₁ loc₁) (.ret pc₂ loc₂)
  | phi {pc₁ pc₂ : Nat} {loc₁ loc₂ : CpuMemoryLocation} :
      SameSlot opcode₁ opcode₂ (.phi pc₁ loc₁) (.phi pc₂ loc₂)

/-- What registers hold at the entry, and what an opcode makes of the values of its
operands: its outputs, by their number. -/
structure Meaning (Value : Type) where
  entry : CpuMemoryLocation → Value
  output : Option Opcode → List (Operand Value) → Nat → Value

/-- What a node makes of the values of its inputs. An instruction that is a sink stands for
its first output. -/
def Meaning.compute {Value : Type} (M : Meaning Value) (reference : Relocation → Value)
    (opcode : Nat → Option Opcode) : NodeKind → List (Operand Value) → Option (Operand Value)
  | .functionInput _ loc, _ => some (.val (M.entry loc))
  | .immediate _ _ value, _ => some (.imm value)
  | .reference _ _ reloc, _ => some (.val (reference reloc))
  | .result pc opindex _, vs => some (.val (M.output (opcode pc) vs opindex))
  | .sink pc, vs => some (.val (M.output (opcode pc) vs 0))
  | .ret pc _, vs => some (.val (M.output (opcode pc) vs 0))
  | .phi _ _, _ => none
  | .callReturn _ _, _ => none

/-- No node below is a phi or a return value of a call. -/
def Heap.Determined (heap : Heap) (x : NodeId) : Prop :=
  ∀ y, Relation.ReflTransGen (fun x y => y ∈ heap.inputs x) x y → ∀ pc loc,
    heap.kind? y ≠ some (.phi pc loc) ∧ heap.kind? y ≠ some (.callReturn pc loc)

/-- The call that a node is a return value of. -/
def NodeKind.returnedBy : NodeKind → Option Nat
  | .callReturn index _ => some index
  | _ => none

/-- The number of outputs of an instruction. -/
def Subject.outputCount (S : Subject) (pc : Nat) : Nat :=
  match S.decode pc with
  | .ok (_, insnUD) => insnUD.outputs.length
  | .error _ => 0

namespace Analysed

/-- The value of a node, with the opcodes as a disassembler looks them up. -/
def Evaluates (A : Analysed) (D : Ppcdisasm) {Value : Type} (M : Meaning Value)
    (reference : Relocation → Value) : NodeId → Operand Value → Prop :=
  Matching.Value (fun x vs v => ∃ kind, A.dfg.heap.kind? x = some kind ∧
    M.compute reference (A.side.opcode D) kind vs = some v) A.dfg.heap.inputs

/-- The number of outputs of an instruction. -/
def outputCount (A : Analysed) (pc : Nat) : Nat := A.subject.outputCount pc

/-- Two nodes and everything at the same place below them stand for the same slots, and the
nodes have the same value, and no other, where references that compare equal have. -/
structure SlotsAgree (fuel : Nat) (A₁ A₂ : Analysed) (x₁ x₂ : NodeId) : Prop where
  slots : ∀ y₁ y₂, Together A₁.dfg.heap.inputs A₂.dfg.heap.inputs x₁ x₂ y₁ y₂ →
    ∃ kind₁ kind₂, A₁.dfg.heap.kind? y₁ = some kind₁ ∧ A₂.dfg.heap.kind? y₂ = some kind₂ ∧
      SameSlot (A₁.side.opcode A₁.subject.disasm) (A₂.side.opcode A₁.subject.disasm) kind₁ kind₂
  values : ∀ (Value : Type) (M : Meaning Value) (reference₁ reference₂ : Relocation → Value),
    (∀ reloc₁ reloc₂, (A₁.subject.comparator A₂.subject).compareRelocations fuel reloc₁ reloc₂ =
      .ok true → reference₁ reloc₁ = reference₂ reloc₂) →
    A₁.dfg.heap.Determined x₁ → A₂.dfg.heap.Determined x₂ →
    (∃ v, A₁.Evaluates A₁.subject.disasm M reference₁ x₁ v ∧
      A₂.Evaluates A₁.subject.disasm M reference₂ x₂ v) ∧
    ∀ v w, A₁.Evaluates A₁.subject.disasm M reference₁ x₁ v →
      A₂.Evaluates A₁.subject.disasm M reference₂ x₂ w → v = w

/-- Nodes that are compared equal stand for the same slots. -/
def MatchedSlotsAgree (fuel : Nat) (A₁ A₂ : Analysed) : Prop :=
  ∀ x₁ x₂, x₁ < A₁.dfg.heap.length → (∃ cache,
    (A₁.subject.comparator A₂.subject).compareVarNodes fuel A₁.side A₂.side A₁.dfg.heap.length
      x₁ x₂ [] = .ok (true, cache)) → SlotsAgree fuel A₁ A₂ x₁ x₂

/-- No two instructions with the same mnemonic, in blocks of the same index and with
operands that match, have more than one output, and no two calls have operands that
match. -/
structure Unambiguous (fuel : Nat) (A₁ A₂ : Analysed) : Prop where
  results : ∀ x₁ x₂ pc₁ pc₂ i₁ i₂ loc₁ loc₂, A₁.dfg.heap.kind? x₁ = some (.result pc₁ i₁ loc₁) →
    A₂.dfg.heap.kind? x₂ = some (.result pc₂ i₂ loc₂) →
    (A₁.subject.comparator A₂.subject).compareInsns A₁.side A₂.side pc₁ pc₂ = .ok true →
    List.Forall₂ ((A₁.subject.comparator A₂.subject).NodesMatch fuel A₁.side A₂.side)
      (A₁.dfg.heap.inputs x₁) (A₂.dfg.heap.inputs x₂) →
    A₁.outputCount pc₁ ≤ 1 ∧ A₂.outputCount pc₂ ≤ 1
  calls : ∀ x₁ x₂ pc₁ pc₂ loc₁ loc₂, A₁.dfg.heap.kind? x₁ = some (.callReturn pc₁ loc₁) →
    A₂.dfg.heap.kind? x₂ = some (.callReturn pc₂ loc₂) →
    ¬ List.Forall₂ ((A₁.subject.comparator A₂.subject).NodesMatch fuel A₁.side A₂.side)
      (A₁.dfg.heap.inputs x₁) (A₂.dfg.heap.inputs x₂)

/-- Two instructions with the same mnemonic in blocks of the same index have one output each
at most, and one of the functions makes no call. -/
structure SingleOutputs (A₁ A₂ : Analysed) : Prop where
  results : ∀ x₁ x₂ pc₁ pc₂ i₁ i₂ loc₁ loc₂, A₁.dfg.heap.kind? x₁ = some (.result pc₁ i₁ loc₁) →
    A₂.dfg.heap.kind? x₂ = some (.result pc₂ i₂ loc₂) →
    A₁.side.opcode A₁.subject.disasm pc₁ = A₂.side.opcode A₁.subject.disasm pc₂ →
    A₁.cfg.findBlockByInsnIdx pc₁ = A₂.cfg.findBlockByInsnIdx pc₂ →
    A₁.outputCount pc₁ ≤ 1 ∧ A₂.outputCount pc₂ ≤ 1
  calls : (∀ node ∈ A₁.dfg.heap, node.kind.returnedBy = none) ∨
    ∀ node ∈ A₂.dfg.heap, node.kind.returnedBy = none

section
variable {A A₁ A₂ : Analysed} {fuel : Nat}

/-! ### Nodes of one instruction -/

theorem siblings (A : Analysed) : Siblings A.subject A.dfg.heap := by
  have h := A.isTrace.siblings (le_refl A.steps)
  rwa [A.result] at h

/-- A node of the graph with its inputs. -/
theorem exists_mem {x : NodeId} {kind : NodeKind} (h : A.dfg.heap.kind? x = some kind) :
    (⟨kind, A.dfg.heap.inputs x⟩ : Node) ∈ A.dfg.heap := by
  obtain ⟨node, hnode, rfl⟩ := Option.map_eq_some_iff.mp h
  have hinputs : A.dfg.heap.inputs x = node.inputs := by rw [Heap.inputs, hnode]; rfl
  rw [hinputs]
  exact List.mem_of_getElem? hnode

theorem exists_of_mem {kind : NodeKind} {inputs : List NodeId}
    (h : (⟨kind, inputs⟩ : Node) ∈ A.dfg.heap) :
    ∃ x, A.dfg.heap.kind? x = some kind ∧ A.dfg.heap.inputs x = inputs := by
  obtain ⟨x, hx⟩ := List.mem_iff_getElem?.mp h
  exact ⟨x, by rw [Heap.kind?, hx]; rfl, by rw [Heap.inputs, hx]; rfl⟩

/-- The number of a result is one of an output, and every output has its node. -/
theorem exists_result {x : NodeId} {pc i : Nat} {loc : CpuMemoryLocation}
    (h : A.dfg.heap.kind? x = some (.result pc i loc)) : i < A.outputCount pc ∧
      ∀ j < A.outputCount pc, ∃ y loc', A.dfg.heap.kind? y = some (.result pc j loc') ∧
        A.dfg.heap.inputs y = A.dfg.heap.inputs x := by
  obtain ⟨opcode, insnUD, hdecode, hi, hall⟩ := A.siblings.result _ (exists_mem h) pc i loc rfl
  have hcount : A.outputCount pc = insnUD.outputs.length := by
    rw [outputCount, Subject.outputCount, hdecode]
  rw [hcount]
  refine ⟨(List.getElem?_eq_some_iff.mp hi).1, fun j hj => ?_⟩
  obtain ⟨y, hy, hinputs⟩ := exists_of_mem (hall j _ (List.getElem?_eq_getElem hj))
  exact ⟨y, _, hy, hinputs⟩

theorem exists_callReturn {x : NodeId} {pc : Nat} {loc : CpuMemoryLocation}
    (h : A.dfg.heap.kind? x = some (.callReturn pc loc)) {loc' : CpuMemoryLocation}
    (hloc' : loc' ∈ definedByCall) : ∃ y, A.dfg.heap.kind? y = some (.callReturn pc loc') ∧
      A.dfg.heap.inputs y = A.dfg.heap.inputs x :=
  exists_of_mem (A.siblings.callReturn _ (exists_mem h) pc loc rfl loc' hloc')

/-! ### Slots -/

/-- Where no output can be taken for another, nodes that match stand for the same slot. -/
theorem Unambiguous.sameSlot (h : Unambiguous fuel A₁ A₂) {x₁ x₂ : NodeId}
    (hmatch : (A₁.subject.comparator A₂.subject).NodesMatch fuel A₁.side A₂.side x₁ x₂) :
    ∃ kind₁ kind₂, A₁.dfg.heap.kind? x₁ = some kind₁ ∧ A₂.dfg.heap.kind? x₂ = some kind₂ ∧
      SameSlot (A₁.side.opcode A₁.subject.disasm) (A₂.side.opcode A₁.subject.disasm)
        kind₁ kind₂ := by
  obtain ⟨⟨kind₁, kind₂, hkind₁, hkind₂, hkinds⟩, hinputs⟩ := match_iff.mp hmatch
  refine ⟨kind₁, kind₂, hkind₁, hkind₂, ?_⟩
  cases kind₁ <;> cases kind₂ <;> try cases hkinds
  case result.result pc₁ i₁ loc₁ pc₂ i₂ loc₂ =>
    have hinsns : (A₁.subject.comparator A₂.subject).compareInsns A₁.side A₂.side pc₁ pc₂ =
      .ok true := hkinds
    obtain ⟨hone₁, hone₂⟩ := h.results x₁ x₂ _ _ _ _ _ _ hkind₁ hkind₂ hinsns hinputs
    obtain ⟨hi₁, _⟩ := exists_result hkind₁
    obtain ⟨hi₂, _⟩ := exists_result hkind₂
    obtain rfl : i₁ = i₂ := by omega
    exact .result (compareInsns_iff.mp hinsns).1
  case callReturn.callReturn =>
    exact absurd hinputs (h.calls x₁ x₂ _ _ _ _ hkind₁ hkind₂)
  all_goals constructor

theorem compute_eq {Value : Type} {M : Meaning Value} {reference₁ reference₂ : Relocation → Value}
    (href : ∀ reloc₁ reloc₂, (A₁.subject.comparator A₂.subject).compareRelocations fuel reloc₁
      reloc₂ = .ok true → reference₁ reloc₁ = reference₂ reloc₂) {kind₁ kind₂ : NodeKind}
    (hkinds : (A₁.subject.comparator A₂.subject).compareKinds fuel A₁.side A₂.side kind₁ kind₂ =
      .ok true)
    (hslot : SameSlot (A₁.side.opcode A₁.subject.disasm) (A₂.side.opcode A₁.subject.disasm)
      kind₁ kind₂) (vs : List (Operand Value)) :
    M.compute reference₁ (A₁.side.opcode A₁.subject.disasm) kind₁ vs =
      M.compute reference₂ (A₂.side.opcode A₁.subject.disasm) kind₂ vs := by
  have hopcode : ∀ {pc₁ pc₂}, (A₁.subject.comparator A₂.subject).compareInsns A₁.side A₂.side pc₁ pc₂ =
      .ok true → A₁.side.opcode A₁.subject.disasm pc₁ = A₂.side.opcode A₁.subject.disasm pc₂ :=
    fun h => (compareInsns_iff.mp h).1
  cases hslot with
  | functionInput => simp only [Meaning.compute, beq_iff_eq.mp (Except.ok.inj hkinds)]
  | immediate => simp only [Meaning.compute, beq_iff_eq.mp (Except.ok.inj hkinds)]
  | reference => simp only [Meaning.compute, href _ _ hkinds]
  | result h => simp only [Meaning.compute, h]
  | sink => simp only [Meaning.compute, hopcode hkinds]
  | ret => simp only [Meaning.compute, hopcode hkinds]
  | callReturn => rfl
  | phi => rfl

/-- Nodes that stand for the same slots have the same value. -/
theorem slotsAgree_of_slots {x₁ x₂ : NodeId}
    (hmatch : (A₁.subject.comparator A₂.subject).NodesMatch fuel A₁.side A₂.side x₁ x₂)
    (hslots : ∀ y₁ y₂, Together A₁.dfg.heap.inputs A₂.dfg.heap.inputs x₁ x₂ y₁ y₂ →
      ∃ kind₁ kind₂, A₁.dfg.heap.kind? y₁ = some kind₁ ∧ A₂.dfg.heap.kind? y₂ = some kind₂ ∧
        SameSlot (A₁.side.opcode A₁.subject.disasm) (A₂.side.opcode A₁.subject.disasm)
          kind₁ kind₂) :
    SlotsAgree fuel A₁ A₂ x₁ x₂ := by
  refine ⟨hslots, fun Value M reference₁ reference₂ href hdet _ => ?_⟩
  have hsame : ∀ y₁ y₂, Together A₁.dfg.heap.inputs A₂.dfg.heap.inputs x₁ x₂ y₁ y₂ →
      (A₁.subject.comparator A₂.subject).KindsMatch fuel A₁.side A₂.side y₁ y₂ →
      ∃ kind₁ kind₂, A₁.dfg.heap.kind? y₁ = some kind₁ ∧ A₂.dfg.heap.kind? y₂ = some kind₂ ∧
        ∀ vs, M.compute reference₁ (A₁.side.opcode A₁.subject.disasm) kind₁ vs =
          M.compute reference₂ (A₂.side.opcode A₁.subject.disasm) kind₂ vs := by
    rintro y₁ y₂ htogether ⟨kind₁, kind₂, hkind₁, hkind₂, hkinds⟩
    obtain ⟨kind₁', kind₂', hkind₁', hkind₂', hslot⟩ := hslots y₁ y₂ htogether
    obtain rfl := Option.some.inj (hkind₁.symm.trans hkind₁')
    obtain rfl := Option.some.inj (hkind₂.symm.trans hkind₂')
    exact ⟨kind₁, kind₂, hkind₁, hkind₂, compute_eq href hkinds hslot⟩
  constructor
  · refine hmatch.exists_value fun y₁ y₂ htogether hlabel vs => ?_
    obtain ⟨kind₁, kind₂, hkind₁, hkind₂, heq⟩ := hsame y₁ y₂ htogether hlabel
    have hsome : ∃ v, M.compute reference₁ (A₁.side.opcode A₁.subject.disasm) kind₁ vs = some v := by
      have hbelow := hdet y₁ htogether.descends
      cases kind₁ with
      | phi pc loc => exact absurd hkind₁ (hbelow pc loc).1
      | callReturn pc loc => exact absurd hkind₁ (hbelow pc loc).2
      | _ => exact ⟨_, rfl⟩
    obtain ⟨v, hv⟩ := hsome
    exact ⟨v, ⟨kind₁, hkind₁, hv⟩, kind₂, hkind₂, (heq vs).symm.trans hv⟩
  · intro v w hv hw
    refine hmatch.value_eq (fun y₁ y₂ htogether hlabel vs v w hv hw => ?_) .refl hv hw
    obtain ⟨kind₁, kind₂, hkind₁, hkind₂, heq⟩ := hsame y₁ y₂ htogether hlabel
    obtain ⟨kind₁', hkind₁', hv⟩ := hv
    obtain ⟨kind₂', hkind₂', hw⟩ := hw
    obtain rfl := Option.some.inj (hkind₁.symm.trans hkind₁')
    obtain rfl := Option.some.inj (hkind₂.symm.trans hkind₂')
    exact Option.some.inj (hv.symm.trans ((heq vs).trans hw))

/-- Nodes of the same class match if their inputs do, whichever output they stand for. -/
theorem nodesMatch_of_inputs {x₁ x₂ y₁ y₂ : NodeId} {kind₁ kind₂ : NodeKind}
    (hkind₁ : A₁.dfg.heap.kind? y₁ = some kind₁) (hkind₂ : A₂.dfg.heap.kind? y₂ = some kind₂)
    (hkinds : (A₁.subject.comparator A₂.subject).compareKinds fuel A₁.side A₂.side kind₁ kind₂ =
      .ok true)
    (hy₁ : A₁.dfg.heap.inputs y₁ = A₁.dfg.heap.inputs x₁)
    (hy₂ : A₂.dfg.heap.inputs y₂ = A₂.dfg.heap.inputs x₂)
    (hinputs : List.Forall₂ ((A₁.subject.comparator A₂.subject).NodesMatch fuel A₁.side A₂.side)
      (A₁.dfg.heap.inputs x₁) (A₂.dfg.heap.inputs x₂)) :
    (A₁.subject.comparator A₂.subject).NodesMatch fuel A₁.side A₂.side y₁ y₂ := by
  refine match_iff.mpr ⟨⟨kind₁, kind₂, hkind₁, hkind₂, hkinds⟩, ?_⟩
  show List.Forall₂ _ (A₁.dfg.heap.inputs y₁) (A₂.dfg.heap.inputs y₂)
  rw [hy₁, hy₂]
  exact hinputs

theorem lt_of_kind {x : NodeId} {kind : NodeKind} (h : A.dfg.heap.kind? x = some kind) :
    x < A.dfg.heap.length := by
  obtain ⟨node, hnode, _⟩ := Option.map_eq_some_iff.mp h
  exact (List.getElem?_eq_some_iff.mp hnode).1

/-- Nodes that are compared equal stand for the same slots, and have the same value under
every meaning of the opcodes, iff no output can be taken for another. -/
theorem matchedSlotsAgree_iff (fuel : Nat) (A₁ A₂ : Analysed) :
    MatchedSlotsAgree fuel A₁ A₂ ↔ Unambiguous fuel A₁ A₂ := by
  constructor
  · intro h
    -- the slots of two nodes that match
    have hslot : ∀ x₁ x₂ kind₁ kind₂, A₁.dfg.heap.kind? x₁ = some kind₁ →
        A₂.dfg.heap.kind? x₂ = some kind₂ →
        (A₁.subject.comparator A₂.subject).NodesMatch fuel A₁.side A₂.side x₁ x₂ →
        SameSlot (A₁.side.opcode A₁.subject.disasm) (A₂.side.opcode A₁.subject.disasm)
          kind₁ kind₂ := by
      intro x₁ x₂ kind₁ kind₂ hkind₁ hkind₂ hmatch
      have hlt := lt_of_kind hkind₁
      obtain ⟨_, _, hkind₁', hkind₂', hsame⟩ :=
        (h x₁ x₂ hlt ((compareVarNodes_iff A₁.ordered hlt x₂).mpr hmatch)).slots x₁ x₂ .refl
      obtain rfl := Option.some.inj (hkind₁.symm.trans hkind₁')
      obtain rfl := Option.some.inj (hkind₂.symm.trans hkind₂')
      exact hsame
    constructor
    · intro x₁ x₂ pc₁ pc₂ i₁ i₂ loc₁ loc₂ hkind₁ hkind₂ hinsns hinputs
      obtain ⟨hi₁, hall₁⟩ := exists_result hkind₁
      obtain ⟨hi₂, hall₂⟩ := exists_result hkind₂
      have heq : ∀ j₁ < A₁.outputCount pc₁, ∀ j₂ < A₂.outputCount pc₂, j₁ = j₂ := by
        intro j₁ hj₁ j₂ hj₂
        obtain ⟨y₁, loc₁', hy₁, hinputs₁⟩ := hall₁ j₁ hj₁
        obtain ⟨y₂, loc₂', hy₂, hinputs₂⟩ := hall₂ j₂ hj₂
        cases hslot y₁ y₂ _ _ hy₁ hy₂ (nodesMatch_of_inputs hy₁ hy₂ hinsns hinputs₁ hinputs₂ hinputs)
        rfl
      constructor
      · by_contra hgt
        have h0 := heq 0 (by omega) i₂ hi₂
        have h1 := heq 1 (by omega) i₂ hi₂
        omega
      · by_contra hgt
        have h0 := heq i₁ hi₁ 0 (by omega)
        have h1 := heq i₁ hi₁ 1 (by omega)
        omega
    · intro x₁ x₂ pc₁ pc₂ loc₁ loc₂ hkind₁ hkind₂ hinputs
      obtain ⟨y₁, hy₁, hinputs₁⟩ := exists_callReturn hkind₁ (show ⟨.GPR, 3⟩ ∈ definedByCall by decide)
      obtain ⟨y₂, hy₂, hinputs₂⟩ := exists_callReturn hkind₂ (show ⟨.GPR, 4⟩ ∈ definedByCall by decide)
      cases hslot y₁ y₂ _ _ hy₁ hy₂ (nodesMatch_of_inputs hy₁ hy₂ rfl hinputs₁ hinputs₂ hinputs)
  · intro h x₁ x₂ hlt hequal
    have hmatch := (compareVarNodes_iff A₁.ordered hlt x₂).mp hequal
    exact slotsAgree_of_slots hmatch fun y₁ y₂ htogether => h.sameSlot (hmatch.together htogether)

/-- Whatever the operands are. -/
theorem SingleOutputs.unambiguous (h : SingleOutputs A₁ A₂) (fuel : Nat) :
    Unambiguous fuel A₁ A₂ where
  results x₁ x₂ pc₁ pc₂ i₁ i₂ loc₁ loc₂ hkind₁ hkind₂ hinsns _ := by
    obtain ⟨hopcode, b, hb₁, hb₂⟩ := compareInsns_iff.mp hinsns
    exact h.results x₁ x₂ pc₁ pc₂ i₁ i₂ loc₁ loc₂ hkind₁ hkind₂ hopcode (hb₁.trans hb₂.symm)
  calls x₁ x₂ pc₁ pc₂ loc₁ loc₂ hkind₁ hkind₂ _ := by
    rcases h.calls with hnone | hnone
    · exact nomatch hnone _ (exists_mem hkind₁)
    · exact nomatch hnone _ (exists_mem hkind₂)

/-- **Nodes that are compared equal stand for the same slots, and have the same value under
every meaning of the opcodes**, where instructions have one output each and nothing is
called. -/
theorem matchedSlotsAgree_of_singleOutputs {A₁ A₂ : Analysed} (h : SingleOutputs A₁ A₂)
    (fuel : Nat) : MatchedSlotsAgree fuel A₁ A₂ :=
  (matchedSlotsAgree_iff fuel A₁ A₂).mpr (h.unambiguous fuel)

end

end Analysed

/-- `li` of 1 into a register; a store of the register to `0(r4)`; `blr`. -/
def storesOne (register : Word) : Subject :=
  assembledSubject [0x38000001 ||| register <<< 21, 0x90040000 ||| register <<< 21, 0x4e800020] 3
    ⟨by simp, by simp⟩

/-- Through r6 and through r7. -/
theorem matchedSlotsAgree_of_singleOutputs_storesOne : ∃ A₁ A₂ : Analysed,
    A₁.subject = storesOne 6 ∧ A₂.subject = storesOne 7 ∧
      (A₁.subject.comparator A₂.subject).compareFunctionFlows 1 A₁.function A₂.function =
        .ok true ∧ Analysed.MatchedSlotsAgree 1 A₁ A₂ := by
  obtain ⟨A₁, A₂, hS₁, hS₂, h, hverdict⟩ := Analysed.exists_equivalent (storesOne 6) (storesOne 7)
    8 8 1 (p := fun _ st₁ _ st₂ => decide (∀ node ∈ st₁.heap, node.kind.returnedBy = none) &&
      decide (∀ node ∈ st₁.heap, (storesOne 6).outputCount node.kind.index ≤ 1) &&
      decide (∀ node ∈ st₂.heap, (storesOne 7).outputCount node.kind.index ≤ 1)) (by decide +kernel)
  simp only [Bool.and_eq_true, decide_eq_true_eq] at h
  obtain ⟨⟨hcalls, hone₁⟩, hone₂⟩ := h
  have hsingle : Analysed.SingleOutputs A₁ A₂ := by
    refine ⟨fun x₁ x₂ pc₁ pc₂ i₁ i₂ loc₁ loc₂ hkind₁ hkind₂ _ _ => ?_, .inl hcalls⟩
    have hcount₁ := hone₁ _ (Analysed.exists_mem hkind₁)
    have hcount₂ := hone₂ _ (Analysed.exists_mem hkind₂)
    rw [Analysed.outputCount, Analysed.outputCount, hS₁, hS₂]
    exact ⟨hcount₁, hcount₂⟩
  exact ⟨A₁, A₂, hS₁, hS₂, hverdict, Analysed.matchedSlotsAgree_of_singleOutputs hsingle 1⟩

/-! ### A load with update -/

namespace Excerpt

def lwzu : Opcode := ⟨8, .LWZU, "lwzu", [RT, D, .RAL]⟩

/-- With the entry of `lwzu`. -/
def withUpdate : Ppcdisasm :=
  {ppcdisasm with lookupPowerpc := fun insn _ => if OP insn = 33 then some lwzu else lookup insn}

end Excerpt

/-- `lwzu r6,4(r4)`; a store; `blr`. -/
def loadUpdate (store : Word) : Subject :=
  {assembledSubject [0x84c40004, store, 0x4e800020] 3 ⟨by simp, by simp⟩ with
    disasm := Excerpt.withUpdate}

/-- `lwzu r6,4(r4); stw r6,0(r5); blr` stores what was loaded and
`lwzu r6,4(r4); stw r4,0(r5); blr` where it was loaded from. The verdict is `true`. -/
theorem outputs_confused : ¬ ∀ (A₁ A₂ : Analysed) (fuel : Nat),
    A₁.subject.disasm = A₂.subject.disasm →
    (A₁.subject.comparator A₂.subject).compareFunctionFlows fuel A₁.function A₂.function =
      .ok true → Analysed.MatchedSlotsAgree fuel A₁ A₂ := by
  intro hall
  obtain ⟨A₁, A₂, hS₁, hS₂, h, hverdict⟩ := Analysed.exists_equivalent (loadUpdate 0x90c50000)
    (loadUpdate 0x90850000) 8 8 1 (p := fun g₁ st₁ g₂ st₂ =>
      decide (st₁.heap.kind? 2 = some (.result 0 0 ⟨.GPR, 6⟩)) &&
      decide (st₂.heap.kind? 3 = some (.result 0 1 ⟨.GPR, 4⟩)) &&
      returns (((loadUpdate 0x90c50000).comparator (loadUpdate 0x90850000)).compareVarNodes 1
        ((loadUpdate 0x90c50000).side g₁ st₁) ((loadUpdate 0x90850000).side g₂ st₂)
        st₁.heap.length 2 3 []) Prod.fst) (by decide +kernel)
  simp only [Bool.and_eq_true, decide_eq_true_eq] at h
  obtain ⟨⟨hkind₁, hkind₂⟩, hequal⟩ := h
  obtain ⟨⟨equal, cache⟩, hok, htrue⟩ := exists_ok hequal
  obtain rfl : equal = true := htrue
  rw [← hS₁, ← hS₂] at hok
  obtain ⟨_, _, hkind₁', hkind₂', hslot⟩ := (hall A₁ A₂ 1 (by rw [hS₁, hS₂]; rfl) hverdict 2 3
    (Analysed.lt_of_kind hkind₁) ⟨cache, hok⟩).slots 2 3 .refl
  obtain rfl := Option.some.inj (hkind₁.symm.trans hkind₁')
  obtain rfl := Option.some.inj (hkind₂.symm.trans hkind₂')
  cases hslot

end Ppc2cpp
