import Ppc2cpp.ControlFlow.Assembled
import Ppc2cpp.DataFlow.OperandUD
import Ppc2cpp.DataFlow.Sinks

/-! What a call leaves of the context.

By the calling convention a called function preserves r1, r2, r13 to r31, f14 to f31 and
the condition fields CR2, CR3 and CR4, returns values in r3, r4 and f1, and may overwrite
every other register (`callRole`). The table of volatile registers is written out one
register at a time, and is off by one at both ends of the preserved condition bits: it has
bit 8, the first one of CR2, and not bit 20, the first one of CR5. -/
namespace Ppc2cpp

/-- What the calling convention says of a storage element. -/
inductive CallRole where
  | preserved | returned | volatile
  /-- Neither a general, float or condition register nor LR, CTR or XER. -/
  | unspecified
deriving DecidableEq, Repr

def callRole : Slot → CallRole
  | .gpr i =>
    if i = 3 ∨ i = 4 then .returned else if i = 1 ∨ i = 2 ∨ 13 ≤ i then .preserved else .volatile
  | .fpr i => if i = 1 then .returned else if 14 ≤ i then .preserved else .volatile
  | .cr i => if 8 ≤ i ∧ i < 20 then .preserved else .volatile
  | .lr | .ctr | .xer => .volatile
  | .ps1 _ | .gqr _ | .fpscr => .unspecified

/-! ### The tables -/

theorem killed_of_preserved (s : Slot) : callRole s = .preserved →
    (s ∈ slotsOf killedByCall ↔ s = .cr 8) := by
  rcases s with i | i | i | i | i | _ | _ | _ | _ <;> first | decide +kernel | decide +kernel +revert

theorem killed_of_volatile (s : Slot) : callRole s = .volatile →
    (s ∈ slotsOf killedByCall ↔ s ≠ .cr 20) := by
  rcases s with i | i | i | i | i | _ | _ | _ | _ <;> first | decide +kernel | decide +kernel +revert

theorem defined_iff_returned (s : Slot) : s ∈ slotsOf definedByCall ↔ callRole s = .returned := by
  rcases s with i | i | i | i | i | _ | _ | _ | _ <;> first | decide +kernel | decide +kernel +revert

/-- A branch writes no register but LR and CTR. -/
theorem Subject.branch_outputs {S : Subject} {pc : Nat} {opcode : Opcode} {insnUD : InstructionUD}
    (hbranch : isBranch (S.insn pc) = true) (h : S.decode pc = .ok (opcode, insnUD)) {s : Slot}
    (hs : s ∈ slotsOf insnUD.outputs) : s = .ctr ∨ s = .lr := by
  obtain ⟨maybeReloc, _, h⟩ := bind_eq_ok.mp h
  obtain ⟨opcode', _, h⟩ := bind_eq_ok.mp h
  obtain ⟨insnUD', hud, h⟩ := bind_eq_ok.mp h
  cases h
  have hsupported := instructionUD_supported hud
  rw [instructionUD] at hud
  simp only [if_neg (not_not_intro hsupported), hbranch, if_true] at hud
  obtain ⟨loc, hloc, hslot⟩ := List.mem_filterMap.mp hs
  rcases handleBranchUD_outputs hud loc hloc with rfl | rfl
  · exact .inl (Option.some.inj hslot).symm
  · exact .inr (Option.some.inj hslot).symm

namespace DataFlowAnalysis
open BlockState

/-- The context after a call at `pc` is that before it as far as registers are preserved,
has the value returned by this call in the return registers, and nothing in the volatile
ones. -/
structure KeepsConvention (pc : Nat) (st st' : BlockState) : Prop where
  preserved : ∀ s, callRole s = .preserved →
    st'.flowContext.definition s = st.flowContext.definition s
  returned : ∀ s, callRole s = .returned → ∃ x loc, st'.flowContext.definition s = {x} ∧
    Made st st' x ∧ st'.heap.kind? x = some (.callReturn pc loc) ∧ loc.slot? = some s
  volatile : ∀ s, callRole s = .volatile → st'.flowContext.definition s = ∅

section
variable {S : Subject} {H : HashOrder} {pc : Nat} {nodes : List NodeId} {st st' : BlockState}

theorem killVolatile_spec (h : killVolatile st = .ok st') : st'.heap = st.heap ∧ ∀ s,
    st'.flowContext.definition s =
      if s ∈ slotsOf killedByCall then ∅ else st.flowContext.definition s := by
  constructor
  · exact forSlots_rel (R := fun st st' => st'.heap = st.heap) (fun _ => rfl)
      (fun _ _ _ h h' => h'.trans h)
      (fun _ _ slot st => show (st.kill slot).heap = st.heap from rfl) h
  · intro s
    have hout := (forSlots_extends (Q := fun _ => True) (fun _ _ slot _ => extends_kill slot) h).slot s
    unfold onSlots at hout
    split at hout <;> rename_i hs
    · rw [if_pos hs]
      exact hout
    · rw [if_neg hs]
      exact hout

/-- The return registers, one after the other. -/
theorem defineReturns_eq (pc : Nat) (nodes : List NodeId) (st : BlockState) :
    defineReturns pc nodes st = .ok (((st.define (.fpr 1) ⟨.callReturn pc ⟨.FPR, 1⟩, nodes⟩).define
      (.gpr 4) ⟨.callReturn pc ⟨.GPR, 4⟩, nodes⟩).define
      (.gpr 3) ⟨.callReturn pc ⟨.GPR, 3⟩, nodes⟩) := rfl

/-- The value returned in a register is a new node. -/
theorem defineReturns_returned (h : defineReturns pc nodes st = .ok st') {s : Slot}
    (hs : callRole s = .returned) : ∃ x loc, st'.flowContext.definition s = {x} ∧ Made st st' x ∧
      st'.heap.kind? x = some (.callReturn pc loc) ∧ loc.slot? = some s := by
  rw [defineReturns_eq] at h
  cases h
  have hcases : s = .fpr 1 ∨ s = .gpr 4 ∨ s = .gpr 3 := by
    have hmem := (defined_iff_returned s).mpr hs
    rw [show slotsOf definedByCall = [.fpr 1, .gpr 4, .gpr 3] from rfl] at hmem
    simpa using hmem
  rcases hcases with rfl | rfl | rfl
  · exact ⟨st.heap.length, ⟨.FPR, 1⟩, by simp [define], by simp [Made, define],
      by simp [Heap.kind?, define], rfl⟩
  · exact ⟨st.heap.length + 1, ⟨.GPR, 4⟩, by simp [define], by simp [Made, define],
      by simp [Heap.kind?, define], rfl⟩
  · exact ⟨st.heap.length + 2, ⟨.GPR, 3⟩, by simp [define], by simp [Made, define],
      by simp [Heap.kind?, define], rfl⟩

theorem defineReturns_other (h : defineReturns pc nodes st = .ok st') {s : Slot}
    (hs : callRole s ≠ .returned) :
    st'.flowContext.definition s = st.flowContext.definition s := by
  have hout := (forSlots_extends (Q := fun _ => True) (e := GenKill.Effect.gen pc)
    (fun _ _ _ _ => extends_define trivial rfl) h).slot s
  rw [onSlots, if_neg (by rwa [defined_iff_returned])] at hout
  exact hout

/-- **What a call does to the context**: the outputs of the branch, the table of volatile
registers, and the return registers. -/
theorem processInsn_call (htables : S.disasm.BranchesListed) (hbranch : isBranch (S.insn pc) = true)
    (h : processInsn S H true pc st = .ok st') :
    ∃ nodes mid, st.heap <+: mid.heap ∧ defineReturns pc nodes mid = .ok st' ∧ ∀ s,
      mid.flowContext.definition s =
        if s ∈ slotsOf killedByCall then ∅ else st.flowContext.definition s := by
  simp only [processInsn, bind_eq_ok, Prod.exists] at h
  obtain ⟨opcode, insnUD, hdecode, st₁, nodes, hinputs, st₂, houtputs, h⟩ := h
  have hform : opcode.opcode ∉ storeInsn := by
    obtain ⟨maybeReloc, _, hd⟩ := bind_eq_ok.mp hdecode
    obtain ⟨opcode', hlookup, hd⟩ := bind_eq_ok.mp hd
    obtain ⟨insnUD', _, hd⟩ := bind_eq_ok.mp hd
    cases hd
    exact fun hstore => store_not_branch _ hstore (htables _ _ hbranch (value_eq_ok.mp hlookup))
  rw [if_neg hform, if_pos hbranch, if_pos trivial] at h
  obtain ⟨mid, hkill, hdefine⟩ := bind_eq_ok.mp h
  have hsame := insnInputs_undisturbed hinputs
  have hout := defineOutputs_extends houtputs
  obtain ⟨hheap, hkilled⟩ := killVolatile_spec hkill
  refine ⟨nodes, mid, ?_, hdefine, fun s => ?_⟩
  · rw [hheap]
    exact (hsame.heap.trans hout.heap_isPrefix).trans (List.prefix_append _ _)
  · rw [hkilled]
    split
    · rfl
    · -- what the branch writes is killed, so `s` is nothing of it
      rename_i hs
      have hnot : s ∉ slotsOf insnUD.outputs := by
        intro hmem
        rcases S.branch_outputs hbranch hdecode hmem with rfl | rfl
        · exact hs (by decide)
        · exact hs (by decide)
      have hpass := hout.slot s
      rw [onSlots, if_neg hnot] at hpass
      rw [← hsame.flowContext]
      exact hpass

end

/-- **Which calls keep to the convention**: those before which neither the condition bit 8
nor the bit 20 has a definition. -/
theorem keepsConvention_iff {S : Subject} {H : HashOrder} (htables : S.disasm.BranchesListed)
    {x : BasicBlock} (hcall : x.endsInCall = true) (hbranch : isBranch (S.insn x.stop) = true)
    {st st' : BlockState} (h : processInsn S H x.endsInCall x.stop st = .ok st') :
    KeepsConvention x.stop st st' ↔
      st.flowContext.definition (.cr 8) = ∅ ∧ st.flowContext.definition (.cr 20) = ∅ := by
  rw [hcall] at h
  obtain ⟨nodes, mid, hheap, hdefine, hmid⟩ := processInsn_call htables hbranch h
  have hother : ∀ s, callRole s ≠ .returned → st'.flowContext.definition s =
      if s ∈ slotsOf killedByCall then ∅ else st.flowContext.definition s :=
    fun s hs => (defineReturns_other hdefine hs).trans (hmid s)
  constructor
  · intro hkeeps
    constructor
    · rw [← hkeeps.preserved (.cr 8) rfl, hother _ (by decide), if_pos (by decide)]
    · rw [← hkeeps.volatile (.cr 20) rfl, hother _ (by decide), if_neg (by decide)]
  · intro hempty
    obtain ⟨hfirst, hlast⟩ := hempty
    refine ⟨fun s hs => ?_, fun s hs => ?_, fun s hs => ?_⟩
    · rw [hother s (by simp [hs])]
      split
      · rename_i hkilled
        rw [(killed_of_preserved s hs).mp hkilled, hfirst]
      · rfl
    · obtain ⟨y, loc, hy, hmade, hkind, hslot⟩ := defineReturns_returned hdefine hs
      exact ⟨y, loc, hy, hmade.after hheap.length_le, hkind, hslot⟩
    · rw [hother s (by simp [hs])]
      split
      · rfl
      · rename_i hkept
        rw [killed_of_volatile s hs, not_not] at hkept
        rw [hkept, hlast]

end DataFlowAnalysis

/-- `bl` to the word behind the function; `blr`. -/
def callsOut : Subject := assembledSubject [0x48000009, 0x4e800020, 0x4e800020] 2 (by decide)

open DataFlowAnalysis in
/-- Before the call an instruction has defined the first bit of CR2. -/
theorem exists_callsOut : ∃ st', processInsn callsOut .ascending true 0
    ⟨[⟨.result 0 0 ⟨.CR_BIT, 8⟩, []⟩], ⟨[(.cr 8, {0})]⟩, []⟩ = .ok st' ∧
    st'.flowContext.definition (.cr 8) = ∅ := by
  obtain ⟨st', hok, hempty⟩ := exists_ok (p := fun st' : BlockState =>
    decide (st'.flowContext.definition (.cr 8) = ∅)) (x := processInsn callsOut .ascending true 0
      ⟨[⟨.result 0 0 ⟨.CR_BIT, 8⟩, []⟩], ⟨[(.cr 8, {0})]⟩, []⟩) (by decide +kernel)
  exact ⟨st', hok, of_decide_eq_true hempty⟩

open DataFlowAnalysis in
/-- Before the call only r14 has a definition. -/
theorem keepsConvention_iff_callsOut : ∃ st', processInsn callsOut .ascending true 0
    ⟨[⟨.result 0 0 ⟨.GPR, 14⟩, []⟩], ⟨[(.gpr 14, {0})]⟩, []⟩ = .ok st' ∧ KeepsConvention 0
      ⟨[⟨.result 0 0 ⟨.GPR, 14⟩, []⟩], ⟨[(.gpr 14, {0})]⟩, []⟩ st' := by
  obtain ⟨st', hok, _⟩ := exists_ok (p := fun _ => true) (x := processInsn callsOut .ascending true 0
    ⟨[⟨.result 0 0 ⟨.GPR, 14⟩, []⟩], ⟨[(.gpr 14, {0})]⟩, []⟩) (by decide +kernel)
  refine ⟨st', hok, ?_⟩
  exact (keepsConvention_iff (x := ⟨0, 0, .INTERNAL, false, true, false⟩)
    Excerpt.ppcdisasm_branchesListed rfl (by decide +kernel) hok).mpr ⟨rfl, rfl⟩

open DataFlowAnalysis in
/-- The call takes the definition away. -/
theorem callsOut_not_keepsConvention : ¬ ∀ (S : Subject) (H : HashOrder) (x : BasicBlock)
    (st st' : BlockState), S.disasm.BranchesListed → x.endsInCall = true →
    isBranch (S.insn x.stop) = true → processInsn S H x.endsInCall x.stop st = .ok st' →
    KeepsConvention x.stop st st' := by
  intro hall
  obtain ⟨st', hok, hempty⟩ := exists_callsOut
  have hkeeps := hall callsOut .ascending ⟨0, 0, .INTERNAL, false, true, false⟩ _ st'
    Excerpt.ppcdisasm_branchesListed rfl (by decide +kernel) hok
  have hsame := hkeeps.preserved (.cr 8) rfl
  rw [hempty] at hsame
  revert hsame
  decide

end Ppc2cpp
