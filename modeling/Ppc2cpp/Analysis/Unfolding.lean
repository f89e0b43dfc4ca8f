import Ppc2cpp.Analysis.StraightLine
import Ppc2cpp.DataFlow.Relabelling
import Ppc2cpp.Lib.StraightCode

/-! The nodes of straight-line code as terms.

A node of straight-line code unfolds to a term: an entry register to the location it is
read by, a result to its instruction with the terms of its inputs (`Unfolds`). The
instructions are told by keys, so that two functions can share them. The analysis of
straight-line code goes along with a run on terms (`processInsns_follows`), and two
functions whose runs are observed alike compare equal (`compareFunctionFlows_of_alike`). -/
namespace Ppc2cpp
open Matching StraightCode

/-- What an instruction reads that is not a register. A reference is told by the
instruction it belongs to. -/
inductive Constant (K : Type) where
  | immediate (value : Int)
  | reference (key : K)

abbrev SymbolicInsn (K : Type) := StraightCode.Insn CpuMemoryLocation (Constant K) K Slot

abbrev SymbolicEnv (K : Type) := StraightCode.Env CpuMemoryLocation (Constant K) K Slot

abbrev NodeTerm (K : Type) := StraightCode.Term CpuMemoryLocation (Constant K) K

/-- The locations with the storage elements they name. -/
def namedSlots (locs : List CpuMemoryLocation) : List (CpuMemoryLocation × Slot) :=
  locs.filterMap fun loc => loc.slot?.map (Prod.mk loc)

theorem namedSlots_cons {loc : CpuMemoryLocation} {slot : Slot} (h : loc.slot? = some slot)
    (locs : List CpuMemoryLocation) : namedSlots (loc :: locs) = (loc, slot) :: namedSlots locs := by
  rw [namedSlots, List.filterMap_cons_some (b := (loc, slot)) (by rw [h]; rfl)]
  rfl

theorem mem_namedSlots {locs : List CpuMemoryLocation} {p : CpuMemoryLocation × Slot} :
    p ∈ namedSlots locs ↔ p.1 ∈ locs ∧ p.1.slot? = some p.2 := by
  obtain ⟨loc, slot⟩ := p
  simp only [namedSlots, List.mem_filterMap, Option.map_eq_some_iff, Prod.mk.injEq]
  constructor
  · rintro ⟨_, hloc, _, hslot, rfl, rfl⟩
    exact ⟨hloc, hslot⟩
  · rintro ⟨hloc, hslot⟩
    exact ⟨loc, hloc, slot, hslot, rfl, rfl⟩

def InstructionUD.symbolic {K : Type} (insnUD : InstructionUD) (key : K) (observed : Bool) :
    SymbolicInsn K where
  key := key
  consts := insnUD.refs.map (fun _ => .reference key) ++ insnUD.imms.map .immediate
  reads := namedSlots insnUD.inputs
  writes := slotsOf insnUD.outputs
  observed := observed

/-- An instruction with other registers is the same instruction renamed. -/
theorem InstructionUD.Relabelled.symbolic {K : Type} {g : CpuMemoryLocation → CpuMemoryLocation}
    {f : Slot → Slot} {reloc reloc' : Option Relocation} {ud ud' : InstructionUD}
    (h : ud.Relabelled g reloc reloc' ud') (hslot : ∀ loc, (g loc).slot? = loc.slot?.map f) (key : K)
    (observed : Bool) : ud'.symbolic key observed = (ud.symbolic key observed).rename f g := by
  have hrefs : ud'.refs.map (fun _ => Constant.reference key) =
      ud.refs.map fun _ => Constant.reference key := by
    rw [List.map_const', List.map_const', h.refs.length_eq]
  have hreads : namedSlots (ud.inputs.map g) = (namedSlots ud.inputs).map (Prod.map g f) := by
    rw [namedSlots, namedSlots, List.filterMap_map, List.map_filterMap]
    refine List.filterMap_congr fun loc _ => ?_
    rw [Function.comp_apply, hslot]
    cases loc.slot? <;> rfl
  have hwrites : slotsOf (ud.outputs.map g) = (slotsOf ud.outputs).map f := by
    rw [slotsOf, slotsOf, List.filterMap_map, List.map_filterMap]
    exact List.filterMap_congr fun loc _ => hslot loc
  rw [InstructionUD.symbolic, InstructionUD.symbolic, Insn.rename, h.inputs, h.outputs, h.imms,
    hrefs, hreads, hwrites]

/-- The instruction at `pc`, under the key `key`. Stores and branches are observed. -/
def Subject.symbolic {K : Type} (S : Subject) (key : K) (pc : Nat) : Except Error (SymbolicInsn K) := do
  let (opcode, insnUD) ← S.decode pc
  return insnUD.symbolic key (decide (opcode.opcode ∈ storeInsn ∨ isBranch (S.insn pc) = true))

theorem Subject.symbolic_eq_ok {K : Type} {S : Subject} {key : K} {pc : Nat} {i : SymbolicInsn K} :
    S.symbolic key pc = .ok i ↔ ∃ opcode insnUD, S.decode pc = .ok (opcode, insnUD) ∧
      i = insnUD.symbolic key (decide (opcode.opcode ∈ storeInsn ∨ isBranch (S.insn pc) = true)) := by
  simp only [symbolic, bind_eq_ok, Prod.exists]
  constructor
  · rintro ⟨opcode, insnUD, hdecode, h⟩
    cases h
    exact ⟨opcode, insnUD, hdecode, rfl⟩
  · rintro ⟨opcode, insnUD, hdecode, rfl⟩
    exact ⟨opcode, insnUD, hdecode, rfl⟩

/-- The function is some code, its instructions under their keys. -/
def Subject.Reads {K : Type} (S : Subject) (key : Nat → K) (count : Nat) (code : List (SymbolicInsn K)) :
    Prop :=
  List.Forall₂ (fun pc i => S.symbolic (key pc) pc = .ok i) (List.range count) code

/-- The code of a function is determined by its words. -/
theorem Subject.Reads.unique {K : Type} {S : Subject} {key : Nat → K} {count : Nat}
    {code code' : List (SymbolicInsn K)} (h : S.Reads key count code) (h' : S.Reads key count code') :
    code = code' :=
  List.right_unique_forall₂' (fun _ _ _ ha hb => Except.ok.inj (ha.symm.trans hb)) h h'

theorem Subject.Reads.get {K : Type} {S : Subject} {key : Nat → K} {count : Nat}
    {code : List (SymbolicInsn K)} (h : S.Reads key count code) {k : Nat} {i : SymbolicInsn K}
    (hi : code[k]? = some i) : k < count ∧ S.symbolic (key k) k = .ok i := by
  obtain ⟨hlen, hget⟩ := List.forall₂_iff_get.mp h
  obtain ⟨hk, rfl⟩ := List.getElem?_eq_some_iff.mp hi
  rw [List.length_range] at hlen
  refine ⟨hlen ▸ hk, ?_⟩
  simpa using hget k (by rw [List.length_range]; exact hlen ▸ hk) hk

/-- The storage elements of the return registers. -/
def isReturned (slot : Slot) : Prop := slot ∈ slotsOf definedByCall

/-- What a node makes of the terms of its inputs. -/
inductive Unfolds {K : Type} (S : Subject) (key : Nat → K) (heap : Heap) :
    NodeId → List (NodeTerm K) → NodeTerm K → Prop where
  | functionInput {x : NodeId} {pc : Nat} {loc : CpuMemoryLocation} :
      heap.kind? x = some (.functionInput pc loc) → Unfolds S key heap x [] (.input loc)
  | immediate {x : NodeId} {pc i : Nat} {n : Int} : heap.kind? x = some (.immediate pc i n) →
      Unfolds S key heap x [] (.const (.immediate n))
  | reference {x : NodeId} {pc i : Nat} {reloc : Relocation} {opcode : Opcode}
      {insnUD : InstructionUD} : heap.kind? x = some (.reference pc i reloc) → pc < S.length →
      S.decode pc = .ok (opcode, insnUD) → reloc ∈ insnUD.refs →
      Unfolds S key heap x [] (.const (.reference (key pc)))
  | result {x : NodeId} {pc i : Nat} {loc : CpuMemoryLocation} {args : List (NodeTerm K)} :
      heap.kind? x = some (.result pc i loc) → pc < S.length →
      Unfolds S key heap x args (.node (key pc) args)

/-- The term of a node. -/
abbrev TermOf {K : Type} (S : Subject) (key : Nat → K) (heap : Heap) : NodeId → NodeTerm K → Prop :=
  Matching.Value (Unfolds S key heap) heap.inputs

section
variable {K : Type} {S : Subject} {key : Nat → K} {heap heap' : Heap}

theorem TermOf.mono (hp : heap <+: heap') {x : NodeId} {t : NodeTerm K}
    (h : TermOf S key heap x t) : TermOf S key heap' x t := by
  refine Matching.Value.mono h fun x ts t ht => ?_
  cases ht with
  | functionInput hx =>
    obtain ⟨hkind, hinputs⟩ := Heap.kind?_of_isPrefix hp hx
    exact ⟨.functionInput hkind, hinputs⟩
  | immediate hx =>
    obtain ⟨hkind, hinputs⟩ := Heap.kind?_of_isPrefix hp hx
    exact ⟨.immediate hkind, hinputs⟩
  | reference hx hpc hdecode hreloc =>
    obtain ⟨hkind, hinputs⟩ := Heap.kind?_of_isPrefix hp hx
    exact ⟨.reference hkind hpc hdecode hreloc, hinputs⟩
  | result hx hpc =>
    obtain ⟨hkind, hinputs⟩ := Heap.kind?_of_isPrefix hp hx
    exact ⟨.result hkind hpc, hinputs⟩

theorem termOf_all_mono (hp : heap <+: heap') {xs : List NodeId} {ts : List (NodeTerm K)}
    (h : List.Forall₂ (TermOf S key heap) xs ts) : List.Forall₂ (TermOf S key heap') xs ts :=
  h.imp fun _ _ => TermOf.mono hp

end

/-- The sink of an observed instruction. -/
def SinkTerm {K : Type} (S : Subject) (key : Nat → K) (heap : Heap) (x : NodeId)
    (event : K × List (NodeTerm K)) : Prop :=
  ∃ pc < S.length, heap.kind? x = some (.sink pc) ∧ key pc = event.1 ∧
    List.Forall₂ (TermOf S key heap) (heap.inputs x) event.2

theorem SinkTerm.mono {K : Type} {S : Subject} {key : Nat → K} {heap heap' : Heap}
    (hp : heap <+: heap') {x : NodeId} {event : K × List (NodeTerm K)}
    (h : SinkTerm S key heap x event) : SinkTerm S key heap' x event := by
  obtain ⟨pc, hpc, hx, hkey, hargs⟩ := h
  obtain ⟨hkind, hinputs⟩ := Heap.kind?_of_isPrefix hp hx
  exact ⟨pc, hpc, hkind, hkey, hinputs ▸ termOf_all_mono hp hargs⟩

namespace DataFlowAnalysis
open BlockState

section
variable {K : Type} (S : Subject) (key : Nat → K)

/-- The definition of a register unfolds to the term the register holds; a register without
a term has no definition. -/
def EnvTerms (st : BlockState) (env : SymbolicEnv K) : Prop :=
  ∀ slot, (env slot = none ∧ st.flowContext.definition slot = ∅) ∨
    ∃ x t, env slot = some t ∧ st.flowContext.definition slot = {x} ∧ TermOf S key st.heap x t

/-- The analysis and the run on terms side by side. -/
structure Follows (st : BlockState) (env : SymbolicEnv K) (events : List (K × List (NodeTerm K))) :
    Prop where
  regs : EnvTerms S key st env
  sinks : List.Forall₂ (SinkTerm S key st.heap) st.blockSinks events

end

section
variable {K : Type} {S : Subject} {key : Nat → K} {H : HashOrder} {pc : Nat} {st st' : BlockState}
  {env : SymbolicEnv K}

theorem EnvTerms.mono (h : EnvTerms S key st env) (hp : st.heap <+: st'.heap)
    (hctx : st'.flowContext = st.flowContext) : EnvTerms S key st' env := by
  intro slot
  rw [hctx]
  exact (h slot).imp_right fun ⟨x, t, ht, hx, hterm⟩ => ⟨x, t, ht, hx, hterm.mono hp⟩

/-! ### The inputs -/

/-- The node of a register unfolds to the term it is read as. -/
theorem inputNode_term {loc : CpuMemoryLocation} {x : NodeId} (henv : EnvTerms S key st env)
    (h : inputNode H pc loc st = .ok (st', x)) :
    Undisturbed st st' ∧ ∃ slot, loc.slot? = some slot ∧ TermOf S key st'.heap x (env.read (loc, slot)) := by
  have hsame := inputNode_undisturbed h
  obtain ⟨_, _, _, slot, hslot, hstands⟩ := inputNode_spec h
  refine ⟨hsame, slot, hslot, ?_⟩
  rcases henv slot with ⟨hnone, hdef⟩ | ⟨y, t, ht, hdef, hterm⟩
  · rw [Env.read, hnone, Option.getD_none]
    cases hstands with
    | functionInput _ hx =>
      have hleaf : st'.heap.inputs x = [] := by
        rw [Heap.inputs, hx]
        rfl
      exact value_of_leaf hleaf (.functionInput (by rw [Heap.kind?, hx]; rfl))
    | definition hd => simp [hdef] at hd
    | phi _ hcard => simp [hdef] at hcard
  · rw [Env.read, ht, Option.getD_some]
    cases hstands with
    | functionInput hd => simp [hdef] at hd
    | definition hd =>
      obtain rfl := Finset.singleton_injective (hdef.symm.trans hd)
      exact hterm.mono hsame.heap
    | phi _ hcard => simp [hdef] at hcard

theorem inputNodes_terms {locs : List CpuMemoryLocation} {xs : List NodeId}
    (henv : EnvTerms S key st env) (h : inputNodes H pc locs st = .ok (st', xs)) :
    Undisturbed st st' ∧
      List.Forall₂ (TermOf S key st'.heap) xs ((namedSlots locs).map env.read) := by
  induction locs generalizing st xs with
  | nil =>
    rw [inputNodes] at h
    cases h
    exact ⟨.refl _, .nil⟩
  | cons loc rest ih =>
    simp only [inputNodes, bind_eq_ok, Prod.exists] at h
    obtain ⟨st₁, x, hx, st₂, xs, hxs, h⟩ := h
    cases h
    obtain ⟨hsame, slot, hslot, hterm⟩ := inputNode_term henv hx
    obtain ⟨hsame', hrest⟩ := ih (henv.mono hsame.heap hsame.flowContext) hxs
    refine ⟨hsame.trans hsame', ?_⟩
    rw [namedSlots_cons hslot, List.map_cons]
    exact .cons (hterm.mono hsame'.heap) hrest

/-- **The inputs of an instruction unfold to its arguments.** -/
theorem insnInputs_terms {opcode : Opcode} {insnUD : InstructionUD} {xs : List NodeId}
    (hpc : pc < S.length) (hdecode : S.decode pc = .ok (opcode, insnUD)) (henv : EnvTerms S key st env)
    (h : insnInputs H pc insnUD st = .ok (st', xs)) (observed : Bool) :
    Undisturbed st st' ∧
      List.Forall₂ (TermOf S key st'.heap) xs ((insnUD.symbolic (key pc) observed).args env) := by
  obtain ⟨opVars, hops, rfl⟩ := insnInputs_eq_ok.mp h
  have hsame := allocAll_undisturbed st (constantNodes pc insnUD)
  obtain ⟨hsame', hregNodes⟩ := inputNodes_terms (henv.mono hsame.heap hsame.flowContext) hops
  refine ⟨hsame.trans hsame', ?_⟩
  rw [Insn.args, InstructionUD.symbolic, List.map_append, List.map_map, List.map_map]
  exact List.rel_append (termOf_all_mono hsame'.heap (constantNodes_values st
    (fun _ _ _ _ hreloc hx => .reference hx hpc hdecode hreloc) fun _ _ _ _ hx => .immediate hx))
    hregNodes

/-! ### The outputs -/

/-- The nodes of the outputs unfold to the term of the instruction. -/
theorem defineOutputs_terms {xs : List NodeId} {args : List (NodeTerm K)} (hpc : pc < S.length)
    {i : Nat} {outputs : List CpuMemoryLocation} (henv : EnvTerms S key st env)
    (hxs : List.Forall₂ (TermOf S key st.heap) xs args)
    (h : forSlots (fun i loc slot st => st.define slot ⟨.result pc i loc, xs⟩) i outputs st =
      .ok st') :
    st.heap <+: st'.heap ∧ st'.blockSinks = st.blockSinks ∧
      EnvTerms S key st' fun s => if s ∈ slotsOf outputs then some (.node (key pc) args) else env s := by
  induction outputs generalizing i st env with
  | nil =>
    rw [forSlots] at h
    cases h
    exact ⟨List.prefix_refl _, rfl, henv⟩
  | cons loc rest ih =>
    rw [forSlots, bind_eq_ok] at h
    obtain ⟨slot, hslot, h⟩ := h
    set mid := st.define slot ⟨.result pc i loc, xs⟩ with hmid
    have hheap : st.heap <+: mid.heap := st.prefix_define _ _
    have hresult : TermOf S key mid.heap st.heap.length (.node (key pc) args) := by
      refine value_of_forall₂ ?_ (.result (st.kind?_define _ _) hpc)
      rw [hmid, st.inputs_define]
      exact termOf_all_mono hheap hxs
    have henv' : EnvTerms S key mid
        fun s => if s = slot then some (.node (key pc) args) else env s := by
      intro s
      rw [hmid, st.definition_define]
      by_cases hs : s = slot
      · exact .inr ⟨st.heap.length, _, if_pos hs, by simp [hs], hresult⟩
      · rw [if_neg (Ne.symm hs)]
        simp only [if_neg hs]
        rcases henv s with hnone | ⟨x, t, ht, hx, hterm⟩
        · exact .inl hnone
        · exact .inr ⟨x, t, ht, hx, hterm.mono hheap⟩
    obtain ⟨hheap', hsinks, henv''⟩ := ih henv' (termOf_all_mono hheap hxs) h
    refine ⟨hheap.trans hheap', hsinks, ?_⟩
    have hslots : slotsOf (loc :: rest) = slot :: slotsOf rest := by
      rw [slotsOf, List.filterMap_cons_some (slotOf_eq_ok.mp hslot)]
      rfl
    have hsame : (fun s => if s ∈ slotsOf (loc :: rest) then some (.node (key pc) args) else env s) =
        fun s => if s ∈ slotsOf rest then some (.node (key pc) args)
          else if s = slot then some (.node (key pc) args) else env s := by
      funext s
      rw [hslots]
      by_cases hs : s = slot
      · simp [hs]
      · simp [hs]
    rw [hsame]
    exact henv''

/-! ### Instructions -/

/-- **One instruction, analysed and run on terms.** -/
theorem processInsn_follows {events : List (K × List (NodeTerm K))} (hpc : pc < S.length)
    (hsim : Follows S key st env events) (h : processInsn S H false pc st = .ok st') :
    ∃ i, S.symbolic (key pc) pc = .ok i ∧
      Follows S key st' (i.step env) (events ++ i.events env) := by
  obtain ⟨opcode, insnUD, st₁, xs, st₂, hdecode, hinputs, houtputs, rfl⟩ := processInsn_parts h
  set observed := decide (opcode.opcode ∈ storeInsn ∨ isBranch (S.insn pc) = true) with hobserved
  obtain ⟨hsame, hargs⟩ := insnInputs_terms hpc hdecode hsim.regs hinputs observed
  obtain ⟨hheap, hsinks, henv⟩ :=
    defineOutputs_terms hpc (hsim.regs.mono hsame.heap hsame.flowContext) hargs houtputs
  have hold := hsim.sinks.imp fun _ _ hx => SinkTerm.mono (hsame.heap.trans hheap) hx
  rw [← hsame.blockSinks, ← hsinks] at hold
  refine ⟨insnUD.symbolic (key pc) observed, ?_, ?_⟩
  · exact Subject.symbolic_eq_ok.mpr ⟨opcode, insnUD, hdecode, rfl⟩
  by_cases hsink : opcode.opcode ∈ storeInsn ∨ isBranch (S.insn pc) = true
  · have hevents : (insnUD.symbolic (key pc) observed).events env =
        [(key pc, (insnUD.symbolic (key pc) observed).args env)] :=
      if_pos (hobserved.trans (decide_eq_true hsink))
    rw [if_pos hsink, hevents]
    have hpush : st₂.heap <+: (st₂.pushSink ⟨.sink pc, xs⟩).heap := List.prefix_append _ _
    have hnew : (st₂.pushSink ⟨.sink pc, xs⟩).heap[st₂.heap.length]? = some ⟨.sink pc, xs⟩ := by
      simp [pushSink]
    refine ⟨henv.mono hpush rfl, List.rel_append (hold.imp fun _ _ => SinkTerm.mono hpush) ?_⟩
    refine .cons ⟨pc, hpc, by rw [Heap.kind?, hnew]; rfl, rfl, ?_⟩ .nil
    rw [Heap.inputs, hnew]
    exact termOf_all_mono (hheap.trans hpush) hargs
  · have hevents : (insnUD.symbolic (key pc) observed).events env = [] :=
      if_neg (by rw [InstructionUD.symbolic, hobserved]; simpa using hsink)
    rw [if_neg hsink, hevents, List.append_nil]
    exact ⟨henv, hold⟩

/-- **The first instructions of straight-line code, analysed and run on terms.** -/
theorem processInsns_follows {count : Nat} (hcount : count ≤ S.length)
    (h : processInsns S H false count 0 ⟨[], {}, []⟩ = .ok st) :
    ∃ code, S.Reads key count code ∧
      Follows S key st (final code fun _ => none) (events code fun _ => none) := by
  induction count generalizing st with
  | zero =>
    rw [processInsns] at h
    cases h
    exact ⟨[], .nil, fun slot => .inl ⟨rfl, rfl⟩, .nil⟩
  | succ count ih =>
    obtain ⟨mid, hmid, hinsn⟩ := processInsns_split h
    rw [processInsns_one, Nat.zero_add] at hinsn
    obtain ⟨code, hcode, hsim⟩ := ih (Nat.le_of_succ_le hcount) hmid
    obtain ⟨i, hi, hsim'⟩ := processInsn_follows hcount hsim hinsn
    refine ⟨code ++ [i], ?_, ?_⟩
    · rw [Subject.Reads, List.range_succ]
      exact List.rel_append hcode (.cons hi .nil)
    · rw [final_append, events_append]
      simpa [StraightCode.events] using hsim'

end

end DataFlowAnalysis

end Ppc2cpp
