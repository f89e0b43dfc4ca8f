import Ppc2cpp.Analysis.Analysed
import Ppc2cpp.Analysis.References
import Ppc2cpp.Lib.Unfold

/-! What the comparison looks at, in one function.

Where the references of a function are to symbols that are not local, each of its sinks
unfolds to a tree of what is compared, and the function has a fingerprint: the trees and
the successors of its blocks. The verdict on two functions is `true` iff the fingerprints
are equal (`compareFunctionFlows_fingerprint_iff`), so among such functions it is an
equivalence (`verdict_equivalence`). -/
namespace Ppc2cpp
open Matching DataFlowAnalysis ProgramComparator

/-- A relocation to a symbol that is not local. -/
def ProgramLoader.Names (L : ProgramLoader) (reloc : Relocation) : Prop :=
  ∃ s, L.symtab.lookupByLocation reloc.destination = some s ∧ s.symbolBinding ≠ .LOCAL

/-- The references of the function are to symbols that are not local. -/
def Subject.NamesReferences (S : Subject) (g : ControlFlowGraph) : Prop :=
  ∀ b x, g.Internal b x → ∀ pc, x.start ≤ pc → pc ≤ x.stop → ∀ opcode insnUD,
    S.decode pc = .ok (opcode, insnUD) → ∀ reloc ∈ insnUD.refs, S.loader.Names reloc

/-- What is compared of a node without its inputs. -/
inductive Token where
  | sink (opcode : Option Opcode) (block : Option Nat)
  | ret (opcode : Option Opcode) (block : Option Nat)
  | result (opcode : Option Opcode) (block : Option Nat)
  | functionInput (cpuMemoryLocation : CpuMemoryLocation)
  | immediate (value : Int)
  | reference (name : Option String) (type : BitVec 8) (addend : Int)
  | phi
  | callReturn

namespace Analysed

/-- The opcode and the block of an instruction. -/
def opcodeAt (A : Analysed) (index : Nat) : Option Opcode := A.side.opcode A.subject.disasm index

def blockOf (A : Analysed) (index : Nat) : Option Nat := A.cfg.findBlockByInsnIdx index

def tokenOf (A : Analysed) : NodeKind → Token
  | .sink index => .sink (A.opcodeAt index) (A.blockOf index)
  | .ret index _ => .ret (A.opcodeAt index) (A.blockOf index)
  | .result index _ _ => .result (A.opcodeAt index) (A.blockOf index)
  | .functionInput _ loc => .functionInput loc
  | .immediate _ _ value => .immediate value
  | .reference _ _ reloc =>
    .reference (A.subject.loader.destinationName reloc) reloc.type reloc.addend
  | .phi _ _ => .phi
  | .callReturn _ _ => .callReturn

def token (A : Analysed) (x : NodeId) : Token := ((A.dfg.heap.kind? x).map A.tokenOf).getD .phi

/-- The tree of a node. No node is deeper than there are nodes. -/
def tree (A : Analysed) (x : NodeId) : LabelTree Token :=
  unfold A.token A.dfg.heap.inputs A.dfg.heap.length x

/-- The trees of the sinks of each block, and its successors. -/
def fingerprint (A : Analysed) : List (List (LabelTree Token) × List Nat) :=
  (List.range A.cfg.blocks.length).map fun b => ((A.dfg.blockSinks b).map A.tree, A.cfg.succ b)

/-- A kind of node the token of which says what is compared. -/
def Told (A : Analysed) : NodeKind → Prop
  | .sink index => (A.blockOf index).isSome = true
  | .ret index _ => (A.blockOf index).isSome = true
  | .result index _ _ => (A.blockOf index).isSome = true
  | .reference _ _ reloc => A.subject.loader.Names reloc
  | _ => True

section
variable {A A₁ A₂ : Analysed} {fuel : Nat}

/-- The kinds of node the analysis makes are told by their tokens. -/
theorem madeKinds_told (h : A.subject.NamesReferences A.cfg) :
    MadeKinds A.Told A.subject A.cfg := by
  have hfound : ∀ b x, A.cfg.Internal b x → ∀ pc, x.start ≤ pc → pc ≤ x.stop →
      (A.blockOf pc).isSome = true := by
    intro b x hx pc hlo hhi
    rw [blockOf, ControlFlowGraph.findBlockByInsnIdx, List.findIdx?_isSome, List.any_eq_true]
    exact ⟨x, List.mem_of_getElem? hx.1, by simp [hlo, hhi]⟩
  refine ⟨fun b x hx pc hlo hhi opcode insnUD hdecode => ?_, fun b x hx _ => ?_, fun _ => trivial⟩
  · have hpc := hfound b x hx pc hlo hhi
    exact ⟨fun reloc hreloc _ => h b x hx pc hlo hhi opcode insnUD hdecode reloc hreloc,
      fun _ _ => trivial, fun _ => trivial, fun _ => trivial, fun _ _ => hpc, fun _ => trivial, hpc⟩
  · exact hfound b x hx x.stop (A.wellFormed.ordered b x hx) (le_refl _)

theorem compareInsns_iff_tokens (hdisasm : A₁.subject.disasm = A₂.subject.disasm) {i j : Nat}
    (hi : (A₁.blockOf i).isSome = true) :
    (A₁.subject.comparator A₂.subject).compareInsns A₁.side A₂.side i j = .ok true ↔
      A₁.opcodeAt i = A₂.opcodeAt j ∧ A₁.blockOf i = A₂.blockOf j := by
  obtain ⟨b, hb⟩ := Option.isSome_iff_exists.mp hi
  rw [compareInsns_iff, opcodeAt, opcodeAt, ← hdisasm]
  refine and_congr_right fun _ => ?_
  constructor
  · intro h
    obtain ⟨c, hc, hc'⟩ := h
    exact hc.trans hc'.symm
  · intro h
    exact ⟨b, hb, h.symm.trans hb⟩

theorem compareRelocations_iff_tokens {C : ProgramComparator} {reloc1 reloc2 : Relocation}
    (h1 : C.pLoader1.Names reloc1) (h2 : C.pLoader2.Names reloc2) :
    C.compareRelocations (fuel + 1) reloc1 reloc2 = .ok true ↔
      C.pLoader1.destinationName reloc1 = C.pLoader2.destinationName reloc2 ∧
        reloc1.type = reloc2.type ∧ reloc1.addend = reloc2.addend := by
  obtain ⟨s1, hs1, hglobal1⟩ := h1
  obtain ⟨s2, hs2, hglobal2⟩ := h2
  rw [compareRelocations_succ hs1 hs2, if_neg (not_or.mpr ⟨hglobal1, hglobal2⟩),
    ProgramLoader.destinationName, ProgramLoader.destinationName, hs1, hs2]
  simp [and_assoc]

/-- **Two kinds of node compare equal iff they have the same token.** -/
theorem compareKinds_iff_tokens (hdisasm : A₁.subject.disasm = A₂.subject.disasm)
    {kind1 kind2 : NodeKind} (h1 : A₁.Told kind1) (h2 : A₂.Told kind2) :
    (A₁.subject.comparator A₂.subject).compareKinds (fuel + 1) A₁.side A₂.side kind1 kind2 =
        .ok true ↔ A₁.tokenOf kind1 = A₂.tokenOf kind2 := by
  cases kind1 with
  | sink index1 =>
    cases kind2 with
    | sink index2 => rw [tokenOf, tokenOf, Token.sink.injEq, ← compareInsns_iff_tokens hdisasm h1]; rfl
    | _ => simp [compareKinds, tokenOf]
  | ret index1 loc1 =>
    cases kind2 with
    | ret index2 loc2 => rw [tokenOf, tokenOf, Token.ret.injEq, ← compareInsns_iff_tokens hdisasm h1]; rfl
    | _ => simp [compareKinds, tokenOf]
  | result index1 i1 loc1 =>
    cases kind2 with
    | result index2 i2 loc2 =>
      rw [tokenOf, tokenOf, Token.result.injEq, ← compareInsns_iff_tokens hdisasm h1]
      rfl
    | _ => simp [compareKinds, tokenOf]
  | reference index1 i1 reloc1 =>
    cases kind2 with
    | reference index2 i2 reloc2 =>
      rw [tokenOf, tokenOf, Token.reference.injEq]
      exact compareRelocations_iff_tokens (C := A₁.subject.comparator A₂.subject) h1 h2
    | _ => simp [compareKinds, tokenOf]
  | _ => cases kind2 <;> simp [compareKinds, tokenOf]

theorem heap_ordered (h : A.subject.NamesReferences A.cfg) : A.dfg.Ordered A.Told :=
  functionDFA_ordered A.wellFormed (madeKinds_told h) A.dfa

theorem kindsMatch_iff_tokens (hdisasm : A₁.subject.disasm = A₂.subject.disasm)
    (h₁ : A₁.subject.NamesReferences A₁.cfg) (h₂ : A₂.subject.NamesReferences A₂.cfg) {x y : NodeId}
    (hx : x < A₁.dfg.heap.length) (hy : y < A₂.dfg.heap.length) :
    (A₁.subject.comparator A₂.subject).KindsMatch (fuel + 1) A₁.side A₂.side x y ↔
      A₁.token x = A₂.token y := by
  have hkind₁ : A₁.dfg.heap.kind? x = some A₁.dfg.heap[x].kind := by
    rw [Heap.kind?, List.getElem?_eq_getElem hx, Option.map_some]
  have hkind₂ : A₂.dfg.heap.kind? y = some A₂.dfg.heap[y].kind := by
    rw [Heap.kind?, List.getElem?_eq_getElem hy, Option.map_some]
  rw [token, token, hkind₁, hkind₂, Option.map_some, Option.map_some, Option.getD_some,
    Option.getD_some, ← compareKinds_iff_tokens hdisasm ((heap_ordered h₁).heap.kind? hkind₁)
      ((heap_ordered h₂).heap.kind? hkind₂)]
  constructor
  · intro h
    obtain ⟨kind₁, kind₂, hk₁, hk₂, hkinds⟩ := h
    obtain rfl := Option.some.inj (hkind₁.symm.trans hk₁)
    obtain rfl := Option.some.inj (hkind₂.symm.trans hk₂)
    exact hkinds
  · intro h
    exact ⟨_, _, hkind₁, hkind₂, h⟩

/-- The inputs of a node come before it. -/
theorem ranked_inputs (A : Analysed) :
    Ranked A.dfg.heap.inputs (fun x => x < A.dfg.heap.length) (fun x => x) where
  closed _ hx _ ha := lt_trans (Heap.Ordered.lt_of_mem_inputs A.ordered ha) hx
  below _ _ _ ha := Heap.Ordered.lt_of_mem_inputs A.ordered ha

theorem nodesMatch_iff_tree (hdisasm : A₁.subject.disasm = A₂.subject.disasm)
    (h₁ : A₁.subject.NamesReferences A₁.cfg) (h₂ : A₂.subject.NamesReferences A₂.cfg) {x y : NodeId}
    (hx : x < A₁.dfg.heap.length) (hy : y < A₂.dfg.heap.length) :
    (A₁.subject.comparator A₂.subject).NodesMatch (fuel + 1) A₁.side A₂.side x y ↔
      A₁.tree x = A₂.tree y := by
  have hlabel : ∀ a, a < A₁.dfg.heap.length → ∀ b, b < A₂.dfg.heap.length →
      ((A₁.subject.comparator A₂.subject).KindsMatch (fuel + 1) A₁.side A₂.side a b ↔
        A₁.token a = A₂.token b) :=
    fun a ha b hb => kindsMatch_iff_tokens hdisasm h₁ h₂ ha hb
  exact unfold_eq_iff A₁.ranked_inputs A₂.ranked_inputs hlabel hx hy (le_of_lt hx) (le_of_lt hy)

/-- **The verdict compares fingerprints.** -/
theorem compareFunctionFlows_fingerprint_iff (hdisasm : A₁.subject.disasm = A₂.subject.disasm)
    (h₁ : A₁.subject.NamesReferences A₁.cfg) (h₂ : A₂.subject.NamesReferences A₂.cfg) :
    (A₁.subject.comparator A₂.subject).compareFunctionFlows (fuel + 1) A₁.function A₂.function =
      .ok true ↔ A₁.fingerprint = A₂.fingerprint := by
  have hsinks : ∀ b, List.Forall₂ ((A₁.subject.comparator A₂.subject).NodesMatch (fuel + 1) A₁.side
      A₂.side) (A₁.dfg.blockSinks b) (A₂.dfg.blockSinks b) ↔
      (A₁.dfg.blockSinks b).map A₁.tree = (A₂.dfg.blockSinks b).map A₂.tree := by
    intro b
    rw [map_eq_map_iff]
    exact forall₂_congr fun x hx y hy => nodesMatch_iff_tree hdisasm h₁ h₂
      ((heap_ordered h₁).sinks b x hx) ((heap_ordered h₂).sinks b y hy)
  have hflows : (A₁.subject.comparator A₂.subject).FlowsMatch (fuel + 1) A₁.side A₂.side ↔
      A₁.cfg.blocks.length = A₂.cfg.blocks.length ∧ ∀ b < A₁.cfg.blocks.length,
        (A₁.dfg.blockSinks b).map A₁.tree = (A₂.dfg.blockSinks b).map A₂.tree ∧
          A₁.cfg.succ b = A₂.cfg.succ b := by
    refine and_congr_right fun _ => forall_congr' fun b => forall_congr' fun _ =>
      and_congr_left fun _ => hsinks b
  rw [compareFunctionFlows_iff, hflows, fingerprint, fingerprint]
  constructor
  · intro h
    rw [← h.1]
    refine List.map_congr_left fun b hb => ?_
    obtain ⟨htrees, hsucc⟩ := h.2 b (List.mem_range.mp hb)
    rw [htrees, hsucc]
  · intro h
    have hlength : A₁.cfg.blocks.length = A₂.cfg.blocks.length := by
      simpa only [List.length_map, List.length_range] using congrArg List.length h
    refine ⟨hlength, fun b hb => ?_⟩
    rw [← hlength] at h
    exact Prod.mk.inj (List.map_inj_left.mp h b (List.mem_range.mpr hb))

end

/-! ### An equivalence -/

/-- An analysed function of one disassembler that refers to symbols that are not local. -/
structure Named (disasm : Ppcdisasm) extends Analysed where
  disasm_eq : subject.disasm = disasm
  names : subject.NamesReferences cfg

/-- The references of an instruction are to symbols that are not local. -/
def namesAt (S : Subject) (pc : Nat) : Bool :=
  returns (S.decode pc) fun ud => ud.2.refs.all fun reloc =>
    (S.loader.symtab.lookupByLocation reloc.destination).any (·.symbolBinding ≠ .LOCAL)

theorem namesReferences_of_check {S : Subject} {g : ControlFlowGraph}
    (h : ∀ x ∈ g.blocks, ∀ pc < x.stop + 1, namesAt S pc = true) : S.NamesReferences g := by
  intro b x hx pc _ hle opcode insnUD hdecode reloc hreloc
  obtain ⟨ud, hok, hall⟩ := exists_ok (h x (List.mem_of_getElem? hx.1) pc (by omega))
  obtain rfl := Except.ok.inj (hdecode.symm.trans hok)
  have hany := List.all_eq_true.mp hall reloc hreloc
  rw [Option.any_eq_true] at hany
  obtain ⟨s, hs, hbinding⟩ := hany
  exact ⟨s, hs, of_decide_eq_true hbinding⟩

/-- `li r3,counter@l; blr`, with `counter` somewhere behind. -/
def takesAddress (counter : BitVec 32) : Subject where
  disasm := Excerpt.ppcdisasm
  loader := assembled [0x38600000, 0x4e800020, 0, 0]
    (SymbolTable.reindexed {symbols := [⟨"counter", ⟨⟨0, counter⟩, 0⟩, 4, .DATA, .GLOBAL⟩]})
    (RelocationTable.constructSourceIndex {relocs := [⟨⟨⟨0, 2⟩, 0⟩, ⟨⟨0, counter⟩, 0⟩, 4, 0⟩]})
  func := assembledSymbol 2
  buffer := [0x38600000, 0x4e800020, 0, 0].flatMap wordBytes
  located := (assembledSubject [0x38600000, 0x4e800020, 0, 0] 2 (by decide)).located

/-- **The verdict is an equivalence** on functions that refer to symbols that are not
local. -/
theorem verdict_equivalence (disasm : Ppcdisasm) (fuel : Nat) :
    Equivalence fun A₁ A₂ : Named disasm =>
      (A₁.subject.comparator A₂.subject).compareFunctionFlows (fuel + 1) A₁.function A₂.function =
        .ok true := by
  have hverdict : ∀ A₁ A₂ : Named disasm,
      (A₁.subject.comparator A₂.subject).compareFunctionFlows (fuel + 1) A₁.function A₂.function =
        .ok true ↔ A₁.fingerprint = A₂.fingerprint := fun A₁ A₂ =>
    compareFunctionFlows_fingerprint_iff (A₁.disasm_eq.trans A₂.disasm_eq.symm) A₁.names A₂.names
  refine ⟨fun A => (hverdict A A).mpr rfl, fun {A₁ A₂} h => (hverdict A₂ A₁).mpr ?_,
    fun {A₁ A₂ A₃} h h' => (hverdict A₁ A₃).mpr ?_⟩
  · exact ((hverdict A₁ A₂).mp h).symm
  · exact ((hverdict A₁ A₂).mp h).trans ((hverdict A₂ A₃).mp h')

/-- The counter is at different places, and the functions are equivalent either way round. -/
theorem verdict_equivalence_takesAddress : ∃ A₁ A₂ : Named Excerpt.ppcdisasm,
    A₁.subject = takesAddress 8 ∧ A₂.subject = takesAddress 12 ∧
      (A₂.subject.comparator A₁.subject).compareFunctionFlows 1 A₂.function A₁.function =
        .ok true := by
  obtain ⟨A₁, A₂, hS₁, hS₂, hnames, hverdict⟩ := exists_equivalent (takesAddress 8)
    (takesAddress 12) 8 8 1 (p := fun g₁ _ g₂ _ =>
      decide (∀ x ∈ g₁.blocks, ∀ pc < x.stop + 1, namesAt (takesAddress 8) pc = true) &&
      decide (∀ x ∈ g₂.blocks, ∀ pc < x.stop + 1, namesAt (takesAddress 12) pc = true))
    (by decide +kernel)
  obtain ⟨hnames₁, hnames₂⟩ := Bool.and_eq_true_iff.mp hnames
  have hnamed₁ : A₁.subject.NamesReferences A₁.cfg :=
    namesReferences_of_check (by rw [hS₁]; exact of_decide_eq_true hnames₁)
  have hnamed₂ : A₂.subject.NamesReferences A₂.cfg :=
    namesReferences_of_check (by rw [hS₂]; exact of_decide_eq_true hnames₂)
  refine ⟨⟨A₁, by rw [hS₁]; rfl, hnamed₁⟩, ⟨A₂, by rw [hS₂]; rfl, hnamed₂⟩, hS₁, hS₂, ?_⟩
  exact (verdict_equivalence Excerpt.ppcdisasm 0).symm hverdict

end Analysed

end Ppc2cpp
