import Ppc2cpp.Analysis.LastOutputs
import Ppc2cpp.Analysis.Processor
import Ppc2cpp.Lib.LastTouch

/-! What the registers hold along a walk.

What a storage element holds in front of an instruction was written by an instruction
before it in the block, or else by the block that touched the element last on the way
there, or it is what the element held at the entry (`Held`). -/
namespace Ppc2cpp
open GenKill ControlFlowGraph DataFlowAnalysis

namespace Interpretation
variable {Value Memory : Type} {I : Interpretation Value Memory} {S : Subject}
  {m m' : Machine Value Memory} {events : List (Event Value)} {pc start count : Nat} {s : Slot}

/-- The last output that goes to a storage element is what it holds afterwards. -/
theorem writeRegs_lastOutput {value : Nat → Value} {i : Nat} {outputs : List CpuMemoryLocation}
    {regs regs' : Slot → Value} (h : writeRegs value i outputs regs = .ok regs') (s : Slot) :
    (s ∉ slotsOf outputs ∧ regs' s = regs s) ∨
      ∃ j, LastOutput outputs s j ∧ regs' s = value (i + j) := by
  induction outputs generalizing i regs with
  | nil =>
    cases h
    exact .inl ⟨by simp [slotsOf], rfl⟩
  | cons loc rest ih =>
    rw [writeRegs, bind_eq_ok] at h
    obtain ⟨slot, hslot, h⟩ := h
    rw [slotOf_eq_ok] at hslot
    rw [mem_slotsOf_cons hslot]
    rcases ih h with ⟨hrest, hregs⟩ | ⟨j, hlast, hregs⟩
    · by_cases hs : s = slot
      · subst hs
        exact .inr ⟨0, .zero hslot hrest, by rw [hregs, if_pos rfl]; rfl⟩
      · rw [if_neg hs] at hregs
        exact .inl ⟨not_or.mpr ⟨hs, hrest⟩, hregs⟩
    · refine .inr ⟨j + 1, hlast.succ, ?_⟩
      rw [hregs, Nat.add_right_comm, Nat.add_assoc]

variable (I S) in
/-- An output of the instruction at `pc`, executed in a state. -/
def Computes (m : Machine Value Memory) (pc i : Nat) (v : Value) : Prop :=
  ∃ opcode insnUD operands, S.decode pc = .ok (opcode, insnUD) ∧
    I.operands pc insnUD m.regs = .ok operands ∧ v = I.output pc opcode operands m.memory i

variable (I S) in
/-- What the instruction at `pc`, executed in a state, leaves in a storage element. -/
def Writes (m : Machine Value Memory) (pc : Nat) (s : Slot) (v : Value) : Prop :=
  ∃ opcode insnUD i, S.decode pc = .ok (opcode, insnUD) ∧ LastOutput insnUD.outputs s i ∧
    I.Computes S m pc i v

variable (I S) in
/-- What a storage element holds after a piece of code from `start` on that has an effect
on it. -/
def Outcome (start : Nat) (m : Machine Value Memory) (s : Slot) (v : Value) : Effect Nat → Prop
  | .pass => v = m.regs s
  | .kill => False
  | .gen d => ∃ k m₁ events, d = start + k ∧ I.execFrom S start k m = .ok (m₁, events) ∧
      I.Writes S m₁ d s v

theorem step_writes (h : I.step S pc m = .ok (m', events)) (s : Slot) :
    (S.insnEffect false pc s = .pass ∧ m'.regs s = m.regs s) ∨
      (S.insnEffect false pc s = .gen pc ∧ I.Writes S m pc s (m'.regs s)) := by
  obtain ⟨opcode, insnUD, operands, regs, hdecode, hoperands, hwrite, rfl, _⟩ := step_eq_ok.mp h
  rw [S.insnEffect_plain hdecode]
  rcases writeRegs_lastOutput hwrite s with ⟨hnone, hregs⟩ | ⟨i, hlast, hregs⟩
  · exact .inl ⟨if_neg hnone, hregs⟩
  · rw [Nat.zero_add] at hregs
    exact .inr ⟨if_pos hlast.mem_slots, opcode, insnUD, i, hdecode, hlast, opcode, insnUD, operands,
      hdecode, hoperands, hregs⟩

/-- **The registers after the first instructions of a block.** -/
theorem execFrom_outcome {B : Type} {start : B → Nat} {b : B} {n : Nat}
    (h : I.execFrom S (start b) n m = .ok (m', events)) (s : Slot) :
    I.Outcome S (start b) m s (m'.regs s)
      (prefixEffect start (fun _ pc => S.insnEffect false pc s) b n) := by
  induction n generalizing m' events with
  | zero =>
    cases h
    exact rfl
  | succ n ih =>
    obtain ⟨m₁, earlier, last, hexec, hstep, _⟩ := execFrom_succ.mp h
    rw [prefixEffect]
    rcases step_writes hstep s with ⟨hpass, hregs⟩ | ⟨hgen, hwrites⟩
    · rw [hpass, Effect.andThen_pass, hregs]
      exact ih hexec
    · rw [hgen, Effect.andThen_gen]
      exact ⟨n, m₁, earlier, rfl, hexec, hwrites⟩

end Interpretation

namespace Processor
variable {Value Memory : Type} {P : Processor Value Memory} {S : Subject} {g : ControlFlowGraph}
  {m₀ : Machine Value Memory} {n t k : Nat} {s : Slot}

section
variable (P S g m₀)

/-- The position of a walk after some blocks. -/
def position (t : Nat) : Position Value Memory :=
  match P.walk S g m₀ t with
  | .ok p => p
  | .error _ => ⟨0, m₀, []⟩

/-- The first `n` blocks of the walk are blocks of the function. -/
def Walks (n : Nat) : Prop :=
  ∀ t < n, g.isInternal (P.position S g m₀ t).block = true ∧
    P.advance S g (P.position S g m₀ t) = .ok (P.position S g m₀ (t + 1))

/-- The block of a position of the walk. -/
def blockAt (t : Nat) : Nat := (P.position S g m₀ t).block

end

theorem Walks.mono (h : P.Walks S g m₀ n) {n' : Nat} (hle : n' ≤ n) : P.Walks S g m₀ n' :=
  fun t ht => h t (lt_of_lt_of_le ht hle)

theorem Walks.walk_eq (h : P.Walks S g m₀ n) (ht : t ≤ n) :
    P.walk S g m₀ t = .ok (P.position S g m₀ t) := by
  induction t with
  | zero => rfl
  | succ t ih =>
    rw [walk, ih (Nat.le_of_succ_le ht)]
    exact (h t ht).2

/-- The blocks are executed one after another. -/
theorem Walks.step (h : P.Walks S g m₀ n) (ht : t < n) : ∃ events,
    P.interpretation.execFrom S (g.startOf (P.blockAt S g m₀ t)) (blockLength g (P.blockAt S g m₀ t))
      (P.position S g m₀ t).machine = .ok ((P.position S g m₀ (t + 1)).machine, events) ∧
    choose (P.turns S (g.stopOf (P.blockAt S g m₀ t)) events) (g.succ (P.blockAt S g m₀ t)) =
      some (P.blockAt S g m₀ (t + 1)) ∧
    (P.position S g m₀ (t + 1)).events = (P.position S g m₀ t).events ++ events := by
  obtain ⟨hb, hadvance⟩ := h t ht
  obtain ⟨m', events, next, hexec, hchoose, hq⟩ := (advance_internal hb).mp hadvance
  refine ⟨events, ?_, ?_, ?_⟩
  · rw [hq]
    exact hexec
  · rw [blockAt, blockAt, hq]
    exact hchoose
  · rw [hq]
    rfl

theorem mem_of_choose {α : Type} {taken : Bool} {xs : List α} {x : α}
    (h : choose taken xs = some x) : x ∈ xs := by
  cases taken with
  | true => exact List.mem_of_mem_head? h
  | false => exact List.mem_of_mem_getLast? h

/-- The blocks of a walk are a walk through the graph. -/
theorem Walks.walk (h : P.Walks S g m₀ n) (hw : g.WellFormed) :
    GenKill.Walk g.Edge 0 (P.blockAt S g m₀) n where
  entry := rfl
  edge t ht := by
    obtain ⟨events, _, hchoose, _⟩ := h.step ht
    exact hw.mem_pred.mpr (mem_of_choose hchoose)

/-- What a block does to the registers. -/
theorem Walks.outcome (h : P.Walks S g m₀ n) (hcalls : g.CallFree) (ht : t < n) (s : Slot) :
    P.interpretation.Outcome S (g.startOf (P.blockAt S g m₀ t)) (P.position S g m₀ t).machine s
      ((P.position S g m₀ (t + 1)).machine.regs s) (S.blockEffectAt g s (P.blockAt S g m₀ t)) := by
  obtain ⟨events, hexec, _⟩ := h.step ht
  rw [Subject.blockEffectAt, blockEffect, Subject.effectAt_eq hcalls]
  exact Interpretation.execFrom_outcome hexec s

/-- Where the value of a storage element in front of an instruction comes from: from an
instruction before it in the block, from the block that touched the element last, or from
the entry. -/
inductive Held (P : Processor Value Memory) (S : Subject) (g : ControlFlowGraph)
    (m₀ : Machine Value Memory) (t k : Nat) (s : Slot) (v : Value) : Prop where
  | own (d j : Nat) (m₁ : Machine Value Memory) (events : List (Event Value)) :
      prefixEffect g.startOf (S.effectAt g s) (P.blockAt S g m₀ t) k = .gen d → j < k →
      d = g.startOf (P.blockAt S g m₀ t) + j →
      P.interpretation.execFrom S (g.startOf (P.blockAt S g m₀ t)) j (P.position S g m₀ t).machine =
        .ok (m₁, events) →
      P.interpretation.Writes S m₁ d s v → Held P S g m₀ t k s v
  | earlier (u d j : Nat) (m₁ : Machine Value Memory) (events : List (Event Value)) :
      prefixEffect g.startOf (S.effectAt g s) (P.blockAt S g m₀ t) k = .pass →
      LastTouch (S.blockEffectAt g s) (P.blockAt S g m₀) t u →
      S.blockEffectAt g s (P.blockAt S g m₀ u) = .gen d →
      d = g.startOf (P.blockAt S g m₀ u) + j →
      P.interpretation.execFrom S (g.startOf (P.blockAt S g m₀ u)) j (P.position S g m₀ u).machine =
        .ok (m₁, events) →
      P.interpretation.Writes S m₁ d s v → Held P S g m₀ t k s v
  | entry : prefixEffect g.startOf (S.effectAt g s) (P.blockAt S g m₀ t) k = .pass →
      (∀ u < t, S.blockEffectAt g s (P.blockAt S g m₀ u) = .pass) → v = m₀.regs s →
      Held P S g m₀ t k s v

/-- **Every value is held from somewhere.** -/
theorem Walks.held (h : P.Walks S g m₀ t) (hcalls : g.CallFree) {m' : Machine Value Memory}
    {events : List (Event Value)}
    (hexec : P.interpretation.execFrom S (g.startOf (P.blockAt S g m₀ t)) k
      (P.position S g m₀ t).machine = .ok (m', events)) (s : Slot) :
    Held P S g m₀ t k s (m'.regs s) := by
  have hpass : ∀ u < t, S.blockEffectAt g s (P.blockAt S g m₀ u) = .pass →
      (P.position S g m₀ (u + 1)).machine.regs s = (P.position S g m₀ u).machine.regs s := by
    intro u hu hpass
    have hout := h.outcome hcalls hu s
    rw [hpass] at hout
    exact hout
  have hout := Interpretation.execFrom_outcome hexec s
  rw [← Subject.effectAt_eq hcalls] at hout
  rcases Subject.prefixEffect_cases (S := S) hcalls s (P.blockAt S g m₀ t) k with hnone | ⟨j, hj, hgen⟩
  · rw [hnone] at hout
    rw [show m'.regs s = _ from hout]
    rcases exists_lastTouch_or (S.blockEffectAt g s) (P.blockAt S g m₀) t with ⟨u, hu⟩ | hall
    · have hkept := hu.kept (fun u => (P.position S g m₀ u).machine.regs s) hpass
      have hblock := h.outcome hcalls hu.lt s
      cases he : S.blockEffectAt g s (P.blockAt S g m₀ u) with
      | pass => exact absurd he hu.touches
      | kill =>
        rw [he] at hblock
        exact hblock.elim
      | gen d =>
        rw [he] at hblock
        obtain ⟨j, m₁, es, hd, hfirst, hwrites⟩ := hblock
        refine .earlier u d j m₁ es hnone hu he hd hfirst ?_
        rw [show (P.position S g m₀ t).machine.regs s = _ from hkept]
        exact hwrites
    · exact .entry hnone hall (untouched_kept
        (fun u => (P.position S g m₀ u).machine.regs s) hall hpass)
  · rw [hgen] at hout
    obtain ⟨j', m₁, es, hd, hfirst, hwrites⟩ := hout
    obtain rfl : j' = j := by omega
    exact .own _ j' m₁ es hgen hj rfl hfirst hwrites

end Processor
end Ppc2cpp
