import Ppc2cpp.DataFlow.Sinks
import Ppc2cpp.Analysis.NodeValues

/-! Which output a definition is.

An instruction can name a storage element more than once among its outputs. The
definition that stays is the last (`LastOutput`), so in a function without calls every
node in a context is the result with that number of the instruction it belongs to
(`Trace.defines`). -/
namespace Ppc2cpp
open GenKill

/-- Output `i` is the last that goes to the storage element. -/
structure LastOutput (outputs : List CpuMemoryLocation) (s : Slot) (i : Nat) : Prop where
  names : (outputs[i]?.bind CpuMemoryLocation.slot?) = some s
  last : ∀ j, i < j → (outputs[j]?.bind CpuMemoryLocation.slot?) ≠ some s

namespace LastOutput
variable {outputs rest : List CpuMemoryLocation} {loc : CpuMemoryLocation} {s : Slot} {i j : Nat}

theorem unique (h : LastOutput outputs s i) (h' : LastOutput outputs s j) : i = j := by
  rcases Nat.lt_trichotomy i j with hlt | heq | hgt
  · exact absurd h'.names (h.last j hlt)
  · exact heq
  · exact absurd h.names (h'.last i hgt)

theorem mem_slots (h : LastOutput outputs s i) : s ∈ slotsOf outputs := by
  obtain ⟨loc, hloc, hslot⟩ := Option.bind_eq_some_iff.mp h.names
  exact List.mem_filterMap.mpr ⟨loc, List.mem_of_getElem? hloc, hslot⟩

theorem succ (h : LastOutput rest s i) : LastOutput (loc :: rest) s (i + 1) where
  names := h.names
  last j hj := by
    obtain ⟨j, rfl⟩ : ∃ k, j = k + 1 := ⟨j - 1, by omega⟩
    exact h.last j (by omega)

theorem zero (hslot : loc.slot? = some s) (hrest : s ∉ slotsOf rest) :
    LastOutput (loc :: rest) s 0 where
  names := hslot
  last j hj := by
    obtain ⟨j, rfl⟩ : ∃ k, j = k + 1 := ⟨j - 1, by omega⟩
    intro hnames
    obtain ⟨loc', hloc', hslot'⟩ := Option.bind_eq_some_iff.mp hnames
    exact hrest (List.mem_filterMap.mpr ⟨loc', List.mem_of_getElem? hloc', hslot'⟩)

end LastOutput

theorem mem_slotsOf_cons {loc : CpuMemoryLocation} {rest : List CpuMemoryLocation} {slot s : Slot}
    (hslot : loc.slot? = some slot) : s ∈ slotsOf (loc :: rest) ↔ s = slot ∨ s ∈ slotsOf rest := by
  simp [slotsOf, hslot]

/-- No block ends in a call. -/
def ControlFlowGraph.CallFree (g : ControlFlowGraph) : Prop := ∀ x ∈ g.blocks, x.endsInCall = false

theorem ControlFlowGraph.CallFree.endsInCall {g : ControlFlowGraph} (h : g.CallFree) (b : Nat) :
    (g.block b).endsInCall = false := by
  rw [ControlFlowGraph.block, List.getD_eq_getElem?_getD]
  cases hb : g.blocks[b]? with
  | none => rfl
  | some x => exact h x (List.mem_of_getElem? hb)

namespace Subject
variable {S : Subject} {pc : Nat} {opcode : Opcode} {insnUD : InstructionUD}

/-- Without calls an instruction defines what its outputs go to. -/
theorem insnEffect_plain (h : S.decode pc = .ok (opcode, insnUD)) (s : Slot) :
    S.insnEffect false pc s = if s ∈ slotsOf insnUD.outputs then .gen pc else .pass := by
  simp [insnEffect, h, onSlots]

theorem insnEffect_cases (S : Subject) (pc : Nat) (s : Slot) :
    S.insnEffect false pc s = .pass ∨ S.insnEffect false pc s = .gen pc := by
  cases h : S.decode pc with
  | error => exact .inl (by simp [insnEffect, h])
  | ok decoded =>
    rw [insnEffect_plain h]
    split
    · exact .inr rfl
    · exact .inl rfl

theorem effectAt_eq {g : ControlFlowGraph} (h : g.CallFree) (s : Slot) :
    S.effectAt g s = fun _ pc => S.insnEffect false pc s := by
  funext b pc
  rw [effectAt, h.endsInCall]

/-- Without calls nothing is killed, and a definition is that of an instruction of the
piece of code. -/
theorem prefixEffect_cases {g : ControlFlowGraph} (h : g.CallFree) (s : Slot) (b n : Nat) :
    prefixEffect g.startOf (S.effectAt g s) b n = .pass ∨
      ∃ k < n, prefixEffect g.startOf (S.effectAt g s) b n = .gen (g.startOf b + k) := by
  rw [effectAt_eq h]
  induction n with
  | zero => exact .inl rfl
  | succ n ih =>
    rw [prefixEffect]
    rcases S.insnEffect_cases (g.startOf b + n) s with hpass | hgen
    · rw [hpass, Effect.andThen_pass]
      rcases ih with hpass | ⟨k, hk, hgen⟩
      · exact .inl hpass
      · exact .inr ⟨k, Nat.lt_succ_of_lt hk, hgen⟩
    · rw [hgen]
      exact .inr ⟨n, Nat.lt_succ_self n, rfl⟩

theorem blockEffectAt_cases {g : ControlFlowGraph} (h : g.CallFree) (hle : ∀ b, g.startOf b ≤ g.stopOf b)
    (s : Slot) (b : Nat) : S.blockEffectAt g s b = .pass ∨
      ∃ k, g.startOf b + k ≤ g.stopOf b ∧ S.blockEffectAt g s b = .gen (g.startOf b + k) := by
  rcases prefixEffect_cases h s b (g.stopOf b + 1 - g.startOf b) with hpass | ⟨k, hk, hgen⟩
  · exact .inl hpass
  · exact .inr ⟨k, by have := hle b; omega, hgen⟩

end Subject

namespace DataFlowAnalysis
open ControlFlowGraph BlockState

/-- The node is the result that an instruction leaves in a storage element. -/
def Defines (S : Subject) (heap : Heap) (s : Slot) (x : NodeId) : Prop :=
  ∃ pc i loc opcode insnUD, heap.kind? x = some (.result pc i loc) ∧
    S.decode pc = .ok (opcode, insnUD) ∧ LastOutput insnUD.outputs s i

section
variable {S : Subject} {H : HashOrder} {pc : Nat} {st st' : BlockState}

theorem Defines.mono {heap heap' : Heap} (hp : heap <+: heap') {s : Slot} {x : NodeId}
    (h : Defines S heap s x) : Defines S heap' s x := by
  obtain ⟨pc, i, loc, opcode, insnUD, hkind, hdecode, hlast⟩ := h
  exact ⟨pc, i, loc, opcode, insnUD, (Heap.kind?_of_isPrefix hp hkind).1, hdecode, hlast⟩

/-- The loop over the outputs leaves the last of each storage element. -/
theorem defineOutputs_lastOutput {xs : List NodeId} {i : Nat} {outputs : List CpuMemoryLocation}
    (h : forSlots (fun i loc slot st => st.define slot ⟨.result pc i loc, xs⟩) i outputs st =
      .ok st') (s : Slot) :
    (s ∉ slotsOf outputs ∧ st'.flowContext.definition s = st.flowContext.definition s) ∨
      ∃ j x loc, LastOutput outputs s j ∧ st'.flowContext.definition s = {x} ∧
        st'.heap.kind? x = some (.result pc (i + j) loc) := by
  induction outputs generalizing i st with
  | nil =>
    cases h
    exact .inl ⟨by simp [slotsOf], rfl⟩
  | cons loc rest ih =>
    rw [forSlots, bind_eq_ok] at h
    obtain ⟨slot, hslot, h⟩ := h
    rw [slotOf_eq_ok] at hslot
    have hprefix := (forSlots_extends (Q := fun _ => True)
      (fun _ _ _ _ => extends_define trivial rfl) h).heap_isPrefix
    rw [mem_slotsOf_cons hslot]
    rcases ih h with ⟨hrest, hdef⟩ | ⟨j, x, loc', hlast, hdef, hkind⟩
    · rw [definition_define] at hdef
      by_cases hs : slot = s
      · subst hs
        rw [if_pos rfl] at hdef
        refine .inr ⟨0, st.heap.length, loc, .zero hslot hrest, hdef, ?_⟩
        exact (Heap.kind?_of_isPrefix hprefix (st.kind?_define _ _)).1
      · rw [if_neg hs] at hdef
        exact .inl ⟨not_or.mpr ⟨Ne.symm hs, hrest⟩, hdef⟩
    · refine .inr ⟨j + 1, x, loc', hlast.succ, hdef, ?_⟩
      rw [hkind, Nat.add_right_comm, Nat.add_assoc]

/-- What is visible is what instructions leave in the storage elements. -/
def BlockState.Defined (S : Subject) (st : BlockState) : Prop :=
  ∀ s x, x ∈ st.flowContext.definition s → Defines S st.heap s x

theorem processInsn_defined (h : processInsn S H false pc st = .ok st') (hst : st.Defined S) :
    st'.Defined S := by
  obtain ⟨opcode, insnUD, st₁, xs, st₂, hdecode, hinputs, houtputs, rfl⟩ := processInsn_parts h
  have hsame := insnInputs_undisturbed hinputs
  have hout : st₂.Defined S := by
    intro s x hx
    have hheap := (defineOutputs_extends houtputs).heap_isPrefix
    rcases defineOutputs_lastOutput houtputs s with ⟨_, hdef⟩ | ⟨j, y, loc, hlast, hdef, hkind⟩
    · rw [hdef, hsame.flowContext] at hx
      exact (hst s x hx).mono (hsame.heap.trans hheap)
    · rw [hdef, Finset.mem_singleton] at hx
      rw [Nat.zero_add] at hkind
      exact hx ▸ ⟨pc, j, loc, opcode, insnUD, hkind, hdecode, hlast⟩
  split
  · exact fun s x hx => (hout s x hx).mono (List.prefix_append _ _)
  · exact hout

theorem processInsns_defined {endsInCall : Bool} (hcall : endsInCall = false) {count : Nat}
    (h : processInsns S H endsInCall count pc st = .ok st') (hst : st.Defined S) :
    st'.Defined S := by
  subst hcall
  exact processInsns_keeps (fun _ _ _ _ hmid hdefined => processInsn_defined hmid hdefined) h hst

end

section
variable {S : Subject} {H : HashOrder} {g : ControlFlowGraph} {σ : Nat → State} {N n b k : Nat}

/-- **Every definition in a context is a result its instruction left there**, at every step
of the analysis. -/
theorem Trace.defines (h : Trace S H g σ N) (hcalls : g.CallFree) (hn : n ≤ N) (b : Nat) (s : Slot)
    {x : NodeId} (hx : x ∈ ((σ n).context b).definition s) : Defines S (σ n).heap s x := by
  induction n generalizing b s x with
  | zero =>
    obtain ⟨worklist, _, hinit⟩ := h.initial
    rw [hinit, context_initialState] at hx
    simp at hx
  | succ n ih =>
    obtain ⟨c, result, hvisited⟩ := h.visited hn
    rw [hvisited.context] at hx
    by_cases hb : b = c
    · rw [if_pos hb] at hx
      obtain ⟨mid, hmid, haside⟩ := processBlock_spec hvisited.visit
      have hdef : result.flowContext.definition s = mid.flowContext.definition s := haside.slot s
      rw [hdef] at hx
      have hmid := processInsns_defined (hcalls.endsInCall c) hmid (fun s y hy => by
        obtain ⟨p, _, hp⟩ := mem_initBlockContext.mp hy
        exact ih (by omega) p s hp) s x hx
      rw [hvisited.heap]
      exact hmid.mono haside.heap_isPrefix
    · rw [if_neg hb] at hx
      exact (ih (by omega) b s hx).mono hvisited.heap_isPrefix

/-- And so is every definition in front of an instruction of a visit. -/
theorem Trace.defines_before (h : Trace S H g σ N) (hcalls : g.CallFree) (hn : n < N)
    (hv : (σ n).Visits b) (hk : g.startOf b + k ≤ g.stopOf b) (v : InsnAt S H g (σ n) b k) {s : Slot}
    {x : NodeId} (hx : x ∈ v.before.flowContext.definition s) : Defines S (σ N).heap s x := by
  obtain ⟨w, hpre⟩ := h.insnAt hn hv hk
  obtain rfl := v.unique w
  refine Defines.mono ((v.before_isPrefix.trans hpre).trans
    (h.heap_isPrefix (show n + 1 ≤ N by omega) (le_refl N))) ?_
  refine processInsns_defined (hcalls.endsInCall b) v.reached (fun s y hy => ?_) s x hx
  obtain ⟨p, _, hp⟩ := mem_initBlockContext.mp hy
  exact h.defines hcalls (Nat.le_of_lt hn) p s hp

end

end DataFlowAnalysis
end Ppc2cpp
