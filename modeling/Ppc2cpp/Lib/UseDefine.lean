import Mathlib.Logic.Function.Basic
import Mathlib.Data.List.Basic

/-! Use-define information of a step.

A state is a register file, whose registers may hold values of different types, and a
memory. A step is described by what it writes. `Complete` says that a list of inputs and a
list of outputs say all of a step: agreement on the inputs decides the outputs, and nothing
else changes but the exempt registers. `complete_of_effect` proves it from the writes, and
`not_complete_of_differ` and `not_complete_of_change` refute it from one run or two. -/
namespace UseDefine

structure State {ρ : Type} (V : ρ → Type) (M : Type) where
  reg : (r : ρ) → V r
  memory : M

structure Write {ρ : Type} (V : ρ → Type) where
  register : ρ
  value : V register

/-- What a step does: `results` are the writes the outputs stand for, `status` the writes to
exempt registers. -/
structure Effect {ρ : Type} (V : ρ → Type) (M : Type) where
  results : List (Write V)
  status : List (Write V) := []
  memory : M

section
variable {ρ : Type} {V : ρ → Type} {M : Type}

/-- `inputs` and `outputs` are all a step reads and writes, but for the exempt registers. -/
structure Complete (exempt : ρ → Prop) (inputs outputs : List ρ)
    (run : State V M → Option (State V M)) : Prop where
  decided : ∀ {s t s' t' : State V M}, s.memory = t.memory → (∀ r ∈ inputs, s.reg r = t.reg r) →
    run s = some s' → run t = some t' → ∀ r ∈ outputs, s'.reg r = t'.reg r
  kept : ∀ {s s' : State V M}, run s = some s' → ∀ r, ¬ exempt r → r ∉ outputs → s'.reg r = s.reg r

variable {exempt : ρ → Prop} {inputs outputs : List ρ} {run : State V M → Option (State V M)}

/-- A step that never runs. -/
theorem complete_of_none (h : ∀ s, run s = none) : Complete exempt inputs outputs run where
  decided := by
    intro s t s' t' _ _ hs
    rw [h] at hs
    cases hs
  kept := by
    intro s s' hs
    rw [h] at hs
    cases hs

/-- **Two runs that refute completeness.** The states agree on the inputs, and afterwards
differ on an output or on a register on which they agreed as well. -/
theorem not_complete_of_differ {s t s' t' : State V M} {r : ρ} (hmem : s.memory = t.memory)
    (hagree : ∀ r ∈ inputs, s.reg r = t.reg r) (hs : run s = some s') (ht : run t = some t')
    (hr : r ∈ outputs ∨ (¬ exempt r ∧ s.reg r = t.reg r)) (hafter : s'.reg r ≠ t'.reg r) :
    ¬ Complete exempt inputs outputs run := by
  intro hcomplete
  by_cases hout : r ∈ outputs
  · exact hafter (hcomplete.decided hmem hagree hs ht r hout)
  · obtain ⟨hexempt, hbefore⟩ := hr.resolve_left hout
    exact hafter (((hcomplete.kept hs r hexempt hout).trans hbefore).trans
      (hcomplete.kept ht r hexempt hout).symm)

/-- **One run that refutes completeness.** -/
theorem not_complete_of_change {s s' : State V M} {r : ρ} (hs : run s = some s')
    (hexempt : ¬ exempt r) (hr : r ∉ outputs) (hafter : s'.reg r ≠ s.reg r) :
    ¬ Complete exempt inputs outputs run :=
  fun hcomplete => hafter (hcomplete.kept hs r hexempt hr)

variable [DecidableEq ρ]

/-- The register file after a list of writes, the last first. -/
def write (reg : (r : ρ) → V r) : List (Write V) → (r : ρ) → V r
  | [] => reg
  | w :: rest => Function.update (write reg rest) w.register w.value

def Effect.apply (effect : Effect V M) (s : State V M) : State V M where
  reg := write (write s.reg effect.status) effect.results
  memory := effect.memory

/-! ### Writing -/

theorem write_head (reg : (r : ρ) → V r) (w : Write V) (ws : List (Write V)) :
    write reg (w :: ws) w.register = w.value := Function.update_self ..

theorem write_tail (reg : (r : ρ) → V r) {w : Write V} (ws : List (Write V)) {r : ρ}
    (h : r ≠ w.register) : write reg (w :: ws) r = write reg ws r := Function.update_of_ne h ..

theorem write_of_not_mem {ws : List (Write V)} {r : ρ} (h : r ∉ ws.map Write.register)
    (reg : (r : ρ) → V r) : write reg ws r = reg r := by
  induction ws with
  | nil => rfl
  | cons w rest ih =>
    rw [List.map_cons, List.mem_cons, not_or] at h
    rw [write_tail _ _ h.1]
    exact ih h.2

/-- What is written does not depend on what was there. -/
theorem write_congr {ws : List (Write V)} {r : ρ} (h : r ∈ ws.map Write.register)
    (reg reg' : (r : ρ) → V r) : write reg ws r = write reg' ws r := by
  induction ws with
  | nil => cases h
  | cons w rest ih =>
    by_cases hr : r = w.register
    · subst hr
      rw [write_head, write_head]
    · rw [write_tail _ _ hr, write_tail _ _ hr]
      rw [List.map_cons, List.mem_cons] at h
      exact ih (h.resolve_left hr)

theorem write_of_unique {ws : List (Write V)} {w : Write V} (hw : w ∈ ws)
    (hnodup : (ws.map Write.register).Nodup) (reg : (r : ρ) → V r) :
    write reg ws w.register = w.value := by
  induction ws with
  | nil => cases hw
  | cons v rest ih =>
    rw [List.map_cons, List.nodup_cons] at hnodup
    rcases List.mem_cons.mp hw with rfl | hw
    · exact write_head ..
    · have hne : w.register ≠ v.register := by
        rintro heq
        exact hnodup.1 (heq ▸ List.mem_map_of_mem hw)
      rw [write_tail _ _ hne]
      exact ih hw hnodup.2

/-! ### Completeness -/

variable {effect : State V M → Option (Effect V M)}

/-- **Completeness from the effect.** The results are written to the outputs, agreement on the
inputs decides them, and the rest of the writes go to exempt registers. -/
theorem complete_of_effect (hrun : ∀ s, run s = (effect s).map (·.apply s))
    (houtputs : ∀ {s e}, effect s = some e → e.results.map Write.register = outputs)
    (hstatus : ∀ {s e}, effect s = some e → ∀ w ∈ e.status, exempt w.register)
    (hresults : ∀ {s t e e'}, s.memory = t.memory → (∀ r ∈ inputs, s.reg r = t.reg r) →
      effect s = some e → effect t = some e' → e.results = e'.results) :
    Complete exempt inputs outputs run where
  decided := by
    intro s t s' t' hmem hagree hs ht r hr
    rw [hrun, Option.map_eq_some_iff] at hs ht
    obtain ⟨e, he, rfl⟩ := hs
    obtain ⟨e', he', rfl⟩ := ht
    show write _ e.results r = write _ e'.results r
    rw [← hresults hmem hagree he he']
    exact write_congr (houtputs he ▸ hr) _ _
  kept := by
    intro s s' hs r hexempt hr
    rw [hrun, Option.map_eq_some_iff] at hs
    obtain ⟨e, he, rfl⟩ := hs
    have hresult : r ∉ e.results.map Write.register := houtputs he ▸ hr
    have hstat : r ∉ e.status.map Write.register := by
      rintro hmem
      obtain ⟨w, hw, rfl⟩ := List.mem_map.mp hmem
      exact hexempt (hstatus he w hw)
    exact (write_of_not_mem hresult _).trans (write_of_not_mem hstat _)

end

end UseDefine
