import Ppc2cpp.Analysis.EquivalentCode
import Ppc2cpp.Analysis.Unfolding
import Ppc2cpp.DataFlow.Termination

/-! Straight-line functions that are observed alike compare equal.

Two runs on terms with the same events and the same return registers make the sinks of the
two functions unfold to the same terms. Nodes with the same term match, if instructions
with the same key have the same mnemonic and their references compare equal
(`Counterparts`), so that the verdict is `true` (`comparesEqual_of_alike`). -/
namespace Ppc2cpp
open Matching StraightCode DataFlowAnalysis ProgramComparator ControlFlowGraph

namespace Subject
variable (S : Subject)

/-- Every instruction is decoded, and its operands name storage elements. -/
def Decoded : Prop :=
  ∀ pc < S.length, ∃ opcode insnUD, S.decode pc = .ok (opcode, insnUD) ∧
    ∀ loc ∈ insnUD.inputs ++ insnUD.outputs, loc.slot?.isSome = true

/-- The relocation of the instruction at `pc`. -/
def relocAt (pc : Nat) : Option Relocation := S.loader.reloctab.lookupByInsnLoc (S.pcLocation pc)

variable {S}

/-- In straight-line code no reference is made up for a branch. -/
theorem StraightLine.insnReloc (h : S.StraightLine) {pc : Nat} (hpc : pc < S.length) :
    S.insnReloc pc = .ok (S.relocAt pc) := by
  unfold Subject.insnReloc relocAt
  cases S.loader.reloctab.lookupByInsnLoc (S.pcLocation pc) with
  | some reloc => rfl
  | none =>
    dsimp only
    rw [h.not_unconditional hpc, if_neg Bool.false_ne_true]

theorem StraightLine.decode_iff (h : S.StraightLine) {pc : Nat} (hpc : pc < S.length) {opcode : Opcode}
    {insnUD : InstructionUD} : S.decode pc = .ok (opcode, insnUD) ↔
      S.disasm.lookupPowerpc (S.insn pc) .raw = some opcode ∧
        instructionUD S.disasm (S.insn pc) opcode .raw (S.relocAt pc) = .ok insnUD := by
  simp only [Subject.decode, h.insnReloc hpc, bind_eq_ok, Except.ok.injEq, exists_eq_left', value_eq_ok]
  constructor
  · rintro ⟨_, hopcode, _, hud, h⟩
    cases h
    exact ⟨hopcode, hud⟩
  · rintro ⟨hopcode, hud⟩
    exact ⟨_, hopcode, _, hud, rfl⟩

/-- Straight-line code that is supported is analysed, in any order of the hash sets. -/
theorem StraightLine.analysed (h : S.StraightLine) (hdecoded : S.Decoded) (H : HashOrder) :
    ∃ A : Analysed, A.subject = S ∧ A.order = H := by
  have hcfa := ControlFlowAnalysis.functionCFA_straightLine h
  have hpos := h.nonempty
  have hsupported : ∀ pc, (straightBlock (S.length - 1)).start ≤ pc →
      pc ≤ (straightBlock (S.length - 1)).stop → ∃ opcode insnUD,
        S.decode pc = .ok (opcode, insnUD) ∧
          ∀ loc ∈ insnUD.inputs ++ insnUD.outputs, loc.slot?.isSome = true :=
    fun pc _ hhi => hdecoded pc (Nat.lt_of_le_of_lt hhi (by simp only [straightBlock]; omega))
  obtain ⟨result, hresult⟩ := processBlock_returns (H := H) hsupported [] {}
  have hdfa : functionDFA S H (straightGraph (S.length - 1)) 1 = .ok (straightState result) :=
    functionDFA_straightLine.mpr ⟨Nat.one_pos, result, hresult, rfl⟩
  obtain ⟨σ, N, htrace, _, hst, _⟩ := functionDFA_ok_iff.mp hdfa
  exact ⟨⟨S, H, _, _, 1, σ, N, hcfa, hdfa, htrace, hst⟩, rfl, rfl⟩

theorem Decoded.exists_reads {K : Type} (h : S.Decoded) (key : Nat → K) {count : Nat}
    (hcount : count ≤ S.length) : ∃ code, S.Reads key count code := by
  induction count with
  | zero => exact ⟨[], .nil⟩
  | succ count ih =>
    obtain ⟨code, hcode⟩ := ih (Nat.le_of_succ_le hcount)
    obtain ⟨opcode, insnUD, hdecode, _⟩ := h count hcount
    obtain ⟨i, hi⟩ : ∃ i, S.symbolic (key count) count = .ok i :=
      ⟨_, symbolic_eq_ok.mpr ⟨opcode, insnUD, hdecode, rfl⟩⟩
    refine ⟨code ++ [i], ?_⟩
    rw [Reads, List.range_succ]
    exact List.rel_append hcode (.cons hi .nil)

end Subject

/-- Both functions are analysed, whatever the order of the hash sets, and the verdict on
them is `true`. -/
structure ComparesEqual (fuel : Nat) (S₁ S₂ : Subject) : Prop where
  analysed₁ : ∀ H, ∃ A : Analysed, A.subject = S₁ ∧ A.order = H
  analysed₂ : ∀ H, ∃ A : Analysed, A.subject = S₂ ∧ A.order = H
  verdict : ∀ A₁ A₂ : Analysed, A₁.subject = S₁ → A₂.subject = S₂ →
    (A₁.subject.comparator A₂.subject).compareFunctionFlows fuel A₁.function A₂.function = .ok true

/-- Instructions with the same key have the same mnemonic, and their references compare
equal. The last instructions have the same key. -/
structure Counterparts {K : Type} (fuel : Nat) (S₁ S₂ : Subject) (key₁ key₂ : Nat → K) : Prop where
  mnemonic : ∀ pc₁ < S₁.length, ∀ pc₂ < S₂.length, key₁ pc₁ = key₂ pc₂ →
    S₁.disasm.lookupPowerpc (S₁.insn pc₁) .ppc750cl = S₁.disasm.lookupPowerpc (S₂.insn pc₂) .ppc750cl
  references : ∀ pc₁ < S₁.length, ∀ pc₂ < S₂.length, key₁ pc₁ = key₂ pc₂ →
    ∀ opcode₁ insnUD₁ opcode₂ insnUD₂, S₁.decode pc₁ = .ok (opcode₁, insnUD₁) →
      S₂.decode pc₂ = .ok (opcode₂, insnUD₂) → ∀ reloc₁ ∈ insnUD₁.refs, ∀ reloc₂ ∈ insnUD₂.refs,
        (S₁.comparator S₂).compareRelocations fuel reloc₁ reloc₂ = .ok true
  last : key₁ (S₁.length - 1) = key₂ (S₂.length - 1)

namespace Analysed
variable {K : Type} {A A₁ A₂ : Analysed} {fuel : Nat} {key key₁ key₂ : Nat → K}
  {code code₁ code₂ : List (SymbolicInsn K)}

/-! ### Nodes with the same term -/

theorem findBlock_straightLine (h : A.subject.StraightLine) {pc : Nat} (hpc : pc < A.subject.length) :
    A.cfg.findBlockByInsnIdx pc = some 0 := by
  have hle : pc ≤ A.subject.length - 1 := by omega
  rw [cfg_straightLine h, findBlockByInsnIdx, straightGraph, List.findIdx?_cons]
  simp [hle]

/-- Instructions with the same key compare equal. -/
theorem compareInsns_of_key (h₁ : A₁.subject.StraightLine) (h₂ : A₂.subject.StraightLine)
    (hc : Counterparts fuel A₁.subject A₂.subject key₁ key₂) {pc₁ pc₂ : Nat}
    (hpc₁ : pc₁ < A₁.subject.length) (hpc₂ : pc₂ < A₂.subject.length) (hkey : key₁ pc₁ = key₂ pc₂) :
    (A₁.subject.comparator A₂.subject).compareInsns A₁.side A₂.side pc₁ pc₂ = .ok true :=
  compareInsns_iff.mpr ⟨hc.mnemonic pc₁ hpc₁ pc₂ hpc₂ hkey, 0, findBlock_straightLine h₁ hpc₁,
    findBlock_straightLine h₂ hpc₂⟩

/-- **Nodes with the same term match.** -/
theorem nodesMatch_of_term (h₁ : A₁.subject.StraightLine) (h₂ : A₂.subject.StraightLine)
    (hc : Counterparts fuel A₁.subject A₂.subject key₁ key₂) {x₁ x₂ : NodeId} {t : NodeTerm K}
    (hx₁ : TermOf A₁.subject key₁ A₁.dfg.heap x₁ t) (hx₂ : TermOf A₂.subject key₂ A₂.dfg.heap x₂ t) :
    (A₁.subject.comparator A₂.subject).NodesMatch fuel A₁.side A₂.side x₁ x₂ := by
  refine match_of_value_eq (fun a b ts us t ha hb => ?_) hx₁ hx₂
  cases ha with
  | functionInput hx =>
    cases hb with
    | functionInput hy => exact ⟨⟨_, _, hx, hy, congrArg Except.ok (beq_self_eq_true _)⟩, rfl⟩
  | immediate hx =>
    cases hb with
    | immediate hy => exact ⟨⟨_, _, hx, hy, congrArg Except.ok (beq_self_eq_true _)⟩, rfl⟩
  | @reference pc₁ _ _ _ _ hx hpc₁ hdecode₁ hreloc₁ =>
    generalize hkey : key₁ pc₁ = k at hb
    cases hb with
    | reference hy hpc₂ hdecode₂ hreloc₂ =>
      refine ⟨⟨_, _, hx, hy, ?_⟩, rfl⟩
      exact hc.references _ hpc₁ _ hpc₂ hkey _ _ _ _ hdecode₁ hdecode₂ _ hreloc₁ _ hreloc₂
  | @result pc₁ _ _ _ hx hpc₁ =>
    generalize hkey : key₁ pc₁ = k at hb
    cases hb with
    | result hy hpc₂ => exact ⟨⟨_, _, hx, hy, compareInsns_of_key h₁ h₂ hc hpc₁ hpc₂ hkey⟩, rfl⟩

/-- Sinks of the same event match. -/
theorem nodesMatch_of_event (h₁ : A₁.subject.StraightLine) (h₂ : A₂.subject.StraightLine)
    (hc : Counterparts fuel A₁.subject A₂.subject key₁ key₂) {x₁ x₂ : NodeId}
    {event : K × List (NodeTerm K)} (hx₁ : SinkTerm A₁.subject key₁ A₁.dfg.heap x₁ event)
    (hx₂ : SinkTerm A₂.subject key₂ A₂.dfg.heap x₂ event) :
    (A₁.subject.comparator A₂.subject).NodesMatch fuel A₁.side A₂.side x₁ x₂ := by
  obtain ⟨pc₁, hpc₁, hkind₁, hkey₁, hargs₁⟩ := hx₁
  obtain ⟨pc₂, hpc₂, hkind₂, hkey₂, hargs₂⟩ := hx₂
  have hkey : key₁ pc₁ = key₂ pc₂ := hkey₁.trans hkey₂.symm
  refine match_iff.mpr ⟨⟨_, _, hkind₁, hkind₂, compareInsns_of_key h₁ h₂ hc hpc₁ hpc₂ hkey⟩, ?_⟩
  exact forall₂_join hargs₁ hargs₂ fun _ _ _ _ => nodesMatch_of_term h₁ h₂ hc

/-! ### The sinks -/

/-- The block behind the `blr` has no sinks. -/
theorem blockSinks_straightLine (h : A.subject.StraightLine) : A.dfg.blockSinks 1 = [] := by
  obtain ⟨_, result, _, _, hst⟩ := visit_straightLine h
  rw [hst]
  rfl

/-- Two functions of one block match if the sinks of the blocks do. -/
theorem flowsMatch_of_sinks (h₁ : A₁.subject.StraightLine) (h₂ : A₂.subject.StraightLine)
    (hsinks : List.Forall₂ ((A₁.subject.comparator A₂.subject).NodesMatch fuel A₁.side A₂.side)
      (A₁.dfg.blockSinks 0) (A₂.dfg.blockSinks 0)) :
    (A₁.subject.comparator A₂.subject).FlowsMatch fuel A₁.side A₂.side := by
  have hcfg₁ : A₁.side.func.cfg = straightGraph (A₁.subject.length - 1) := cfg_straightLine h₁
  have hcfg₂ : A₂.side.func.cfg = straightGraph (A₂.subject.length - 1) := cfg_straightLine h₂
  rw [FlowsMatch, hcfg₁, hcfg₂]
  refine ⟨rfl, fun b hb => ?_⟩
  match b, hb with
  | 0, _ => exact ⟨hsinks, rfl⟩
  | 1, _ =>
    refine ⟨?_, rfl⟩
    have hnone₁ : A₁.side.func.dfg.blockSinks 1 = [] := blockSinks_straightLine h₁
    have hnone₂ : A₂.side.func.dfg.blockSinks 1 = [] := blockSinks_straightLine h₂
    rw [hnone₁, hnone₂]
    exact .nil

/-- The sinks of the one block: the events, and behind them the return values. -/
structure SinksOf (A : Analysed) (key : Nat → K) (code : List (SymbolicInsn K))
    (plain rets : List NodeId) (c : FlowContext) : Prop where
  sinks : A.dfg.blockSinks 0 = plain ++ rets
  plain : List.Forall₂ (SinkTerm A.subject key A.dfg.heap) plain (events code fun _ => none)
  rets : List.Forall₂ (ReturnOf A.subject A.dfg.heap c (A.subject.length - 1)) rets
    (definedByCall.filter c.defined)
  regs : EnvTerms A.subject key ⟨A.dfg.heap, c, []⟩ (final code fun _ => none)

theorem exists_sinksOf (h : A.subject.StraightLine)
    (hcode : A.subject.Reads key A.subject.length code) : ∃ plain rets c, SinksOf A key code plain rets c := by
  obtain ⟨mid, result, hmid, hreturns, hst⟩ := visit_straightLine h
  obtain ⟨code', hcode', hsim⟩ : ∃ code, A.subject.Reads key A.subject.length code ∧
      Follows A.subject key mid (final code fun _ => none) (events code fun _ => none) :=
    processInsns_follows (le_refl _) hmid
  have hadds : AddsReturns A.subject (A.subject.length - 1) definedByCall mid result :=
    returnSinks_adds hreturns
  obtain ⟨rets, hrets, hall⟩ := hadds.sinks
  have hheap : A.dfg.heap = result.heap := by rw [hst]; rfl
  refine ⟨mid.blockSinks, rets, mid.flowContext, ?_, ?_, hheap ▸ hall, ?_⟩
  · rw [hst, ← hrets]
    rfl
  · rw [hheap, hcode.unique hcode']
    exact hsim.sinks.imp fun _ _ => SinkTerm.mono hadds.heap
  · rw [hheap, hcode.unique hcode']
    exact hsim.regs.mono hadds.heap rfl

/-- A register has a definition if the run has a term for it. -/
theorem SinksOf.defined_iff {plain rets : List NodeId} {c : FlowContext}
    (hs : SinksOf A key code plain rets c) {loc : CpuMemoryLocation} {slot : Slot}
    (hslot : loc.slot? = some slot) :
    c.defined loc = true ↔ (final code fun _ => none) slot ≠ none := by
  rw [FlowContext.defined_iff]
  rcases hs.regs slot with ⟨hnone, hdef⟩ | ⟨x, t, ht, hdef, _⟩
  · refine ⟨fun ⟨s, hs, hne⟩ => ?_, fun hne => absurd hnone hne⟩
    obtain rfl := Option.some.inj (hslot.symm.trans hs)
    exact absurd hdef hne
  · refine ⟨fun _ hnone => ?_, fun _ => ⟨slot, hslot, ?_⟩⟩
    · rw [ht] at hnone
      cases hnone
    · rw [show c.definition slot = {x} from hdef]
      exact Finset.singleton_ne_empty x

/-- The return value in a register unfolds to the term the register holds. -/
theorem SinksOf.ret {plain rets : List NodeId} {c : FlowContext}
    (hs : SinksOf A key code plain rets c) {x : NodeId} {loc : CpuMemoryLocation}
    (hx : ReturnOf A.subject A.dfg.heap c (A.subject.length - 1) x loc) :
    ∃ slot y t, loc.slot? = some slot ∧ A.dfg.heap.inputs x = [y] ∧
      (final code fun _ => none) slot = some t ∧ TermOf A.subject key A.dfg.heap y t := by
  obtain ⟨slot, y, hslot, hne, hy, hstands⟩ := hx.input
  rcases hs.regs slot with ⟨_, hdef⟩ | ⟨z, t, ht, hdef, hterm⟩
  · exact absurd hdef hne
  · refine ⟨slot, y, t, hslot, hy, ht, ?_⟩
    have hdef' : c.definition slot = {z} := hdef
    cases hstands with
    | functionInput hd => exact absurd hd hne
    | definition hd =>
      obtain rfl := Finset.singleton_injective (hdef'.symm.trans hd)
      exact hterm
    | phi _ hcard => simp [hdef'] at hcard

/-- **Functions that are observed alike have the verdict `true`.** -/
theorem compareFunctionFlows_of_alike (h₁ : A₁.subject.StraightLine) (h₂ : A₂.subject.StraightLine)
    (hc : Counterparts fuel A₁.subject A₂.subject key₁ key₂)
    (hcode₁ : A₁.subject.Reads key₁ A₁.subject.length code₁)
    (hcode₂ : A₂.subject.Reads key₂ A₂.subject.length code₂)
    (hevents : events code₁ (fun _ => none) = events code₂ fun _ => none)
    (hfinal : ∀ slot, isReturned slot →
      final code₁ (fun _ => none) slot = final code₂ (fun _ => none) slot) :
    (A₁.subject.comparator A₂.subject).compareFunctionFlows fuel A₁.function A₂.function =
      .ok true := by
  obtain ⟨plain₁, rets₁, c₁, hs₁⟩ := exists_sinksOf h₁ hcode₁
  obtain ⟨plain₂, rets₂, c₂, hs₂⟩ := exists_sinksOf h₂ hcode₂
  have hplain : List.Forall₂ ((A₁.subject.comparator A₂.subject).NodesMatch fuel A₁.side A₂.side)
      plain₁ plain₂ := by
    have hp₁ := hs₁.plain
    rw [hevents] at hp₁
    exact forall₂_join hp₁ hs₂.plain fun _ _ _ _ => nodesMatch_of_event h₁ h₂ hc
  have hreturned : ∀ loc ∈ definedByCall, ∃ slot, loc.slot? = some slot ∧ isReturned slot := by
    intro loc hloc
    have hnamed : loc.slot?.isSome = true := slot_of_call (by simp [hloc])
    obtain ⟨slot, hslot⟩ := Option.isSome_iff_exists.mp hnamed
    exact ⟨slot, hslot, List.mem_filterMap.mpr ⟨loc, hloc, hslot⟩⟩
  have hdefined : definedByCall.filter c₁.defined = definedByCall.filter c₂.defined := by
    refine List.filter_congr fun loc hloc => ?_
    obtain ⟨slot, hslot, hret⟩ := hreturned loc hloc
    rw [Bool.eq_iff_iff, hs₁.defined_iff hslot, hs₂.defined_iff hslot, hfinal slot hret]
  have hrets : List.Forall₂ ((A₁.subject.comparator A₂.subject).NodesMatch fuel A₁.side A₂.side)
      rets₁ rets₂ := by
    have hr₁ := hs₁.rets
    rw [hdefined] at hr₁
    refine forall₂_join hr₁ hs₂.rets fun x₁ x₂ loc hloc hx₁ hx₂ => ?_
    obtain ⟨slot, y₁, t, hslot, hy₁, ht₁, hterm₁⟩ := hs₁.ret hx₁
    obtain ⟨slot', y₂, t', hslot', hy₂, ht₂, hterm₂⟩ := hs₂.ret hx₂
    obtain rfl := Option.some.inj (hslot.symm.trans hslot')
    obtain ⟨slot', hslot', hret⟩ := hreturned loc (List.mem_filter.mp hloc).1
    obtain rfl := Option.some.inj (hslot.symm.trans hslot')
    obtain rfl := Option.some.inj ((ht₁.symm.trans (hfinal slot hret)).trans ht₂)
    have hlast := compareInsns_of_key h₁ h₂ hc (Nat.sub_lt h₁.nonempty Nat.one_pos)
      (Nat.sub_lt h₂.nonempty Nat.one_pos) hc.last
    refine match_iff.mpr ⟨⟨_, _, hx₁.kind, hx₂.kind, hlast⟩, ?_⟩
    have hinputs₁ : A₁.side.heap.inputs x₁ = [y₁] := hy₁
    have hinputs₂ : A₂.side.heap.inputs x₂ = [y₂] := hy₂
    rw [hinputs₁, hinputs₂]
    exact .cons (nodesMatch_of_term h₁ h₂ hc hterm₁ hterm₂) .nil
  refine compareFunctionFlows_iff.mpr (flowsMatch_of_sinks h₁ h₂ ?_)
  rw [hs₁.sinks, hs₂.sinks]
  exact List.rel_append hplain hrets

end Analysed

/-- **Two supported functions whose runs on terms are observed alike compare equal.** -/
theorem comparesEqual_of_alike {K : Type} {fuel : Nat} {S₁ S₂ : Subject} {key₁ key₂ : Nat → K}
    {code₁ code₂ : List (SymbolicInsn K)} (h₁ : S₁.StraightLine) (h₂ : S₂.StraightLine)
    (hdecoded₁ : S₁.Decoded) (hdecoded₂ : S₂.Decoded) (hc : Counterparts fuel S₁ S₂ key₁ key₂)
    (hcode₁ : S₁.Reads key₁ S₁.length code₁) (hcode₂ : S₂.Reads key₂ S₂.length code₂)
    (hevents : events code₁ (fun _ => none) = events code₂ fun _ => none)
    (hfinal : ∀ slot, isReturned slot →
      final code₁ (fun _ => none) slot = final code₂ (fun _ => none) slot) :
    ComparesEqual fuel S₁ S₂ where
  analysed₁ := h₁.analysed hdecoded₁
  analysed₂ := h₂.analysed hdecoded₂
  verdict := by
    rintro A₁ A₂ rfl rfl
    exact Analysed.compareFunctionFlows_of_alike h₁ h₂ hc hcode₁ hcode₂ hevents hfinal

end Ppc2cpp
