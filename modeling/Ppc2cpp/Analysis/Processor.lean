import Ppc2cpp.Analysis.EquivalentCode
import Ppc2cpp.ControlFlow.Soundness

/-! Executing a function with its branches.

A processor is a meaning of the instructions and of the branches: whether a branch is
taken depends on its mnemonic and its operands. `run` executes a function instruction by
instruction, along the exits the instructions have. `walk` executes it block by block, and
takes the exits from the successors of the blocks in the control-flow graph. Both do the
same (`functionCFA_simulates`), whether the blocks overlap or not. -/
namespace Ppc2cpp
open ControlFlowGraph DataFlowAnalysis

/-- A meaning of the instructions, and whether a branch is taken. -/
structure Processor (Value Memory : Type) extends Semantics Value Memory where
  taken : Option Opcode → List (Operand Value) → Bool

/-- Of one or two possibilities the first if the branch is taken, else the last. -/
def choose {α : Type} (taken : Bool) (xs : List α) : Option α :=
  if taken then xs.head? else xs.getLast?

theorem choose_map {α β : Type} (taken : Bool) (f : α → β) (xs : List α) :
    choose taken (xs.map f) = (choose taken xs).map f := by
  cases taken with
  | true => exact List.head?_map
  | false => exact List.getLast?_map

theorem exists_choose {α : Type} (taken : Bool) {xs : List α} (h : xs ≠ []) :
    ∃ x ∈ xs, choose taken xs = some x := by
  cases taken with
  | true => exact ⟨xs.head h, List.head_mem h, List.head?_eq_some_head h⟩
  | false => exact ⟨xs.getLast h, List.getLast_mem h, List.getLast?_eq_some_getLast h⟩

namespace Interpretation
variable {Value Memory : Type} (I : Interpretation Value Memory) (S : Subject)

/-- Some instructions from `start` on, one after another. -/
def execFrom (start : Nat) : (count : Nat) → Machine Value Memory →
    Except Error (Machine Value Memory × List (Event Value))
  | 0, m => .ok (m, [])
  | count + 1, m => do
    let (m, events) ← execFrom start count m
    let (m, last) ← I.step S (start + count) m
    return (m, events ++ last)

variable {I S} {m m' : Machine Value Memory} {events events' : List (Event Value)}
  {start count : Nat}

theorem execFrom_succ : I.execFrom S start (count + 1) m = .ok (m', events') ↔
    ∃ m₁ events last, I.execFrom S start count m = .ok (m₁, events) ∧
      I.step S (start + count) m₁ = .ok (m', last) ∧ events' = events ++ last := by
  simp only [execFrom, bind_eq_ok, Prod.exists]
  constructor
  · intro h
    obtain ⟨m₁, events, hexec, m₂, last, hstep, h⟩ := h
    cases h
    exact ⟨m₁, events, last, hexec, hstep, rfl⟩
  · intro h
    obtain ⟨m₁, events, last, hexec, hstep, rfl⟩ := h
    exact ⟨m₁, events, hexec, m', last, hstep, rfl⟩

/-- The first instructions were executed on the way. -/
theorem execFrom_prefix {n : Nat} (hle : count ≤ n)
    (h : I.execFrom S start n m = .ok (m', events')) :
    ∃ m₁ events, I.execFrom S start count m = .ok (m₁, events) ∧ events <+: events' := by
  induction n, hle using Nat.le_induction generalizing m' events' with
  | base => exact ⟨m', events', h, List.prefix_refl _⟩
  | succ n _ ih =>
    obtain ⟨m₂, earlier, last, hexec, _, rfl⟩ := execFrom_succ.mp h
    obtain ⟨m₁, events, hfirst, hprefix⟩ := ih hexec
    exact ⟨m₁, events, hfirst, hprefix.trans (List.prefix_append earlier last)⟩

/-! ### What is recorded -/

/-- An instruction records itself if it is a store or a branch, with the operands it read. -/
theorem step_events {pc : Nat} (h : I.step S pc m = .ok (m', events)) :
    events.map Event.pc = (if S.leavesSink pc then [pc] else []) ∧
      m'.memory = I.replay events m.memory := by
  refine ⟨?_, (step_memory h).1⟩
  obtain ⟨opcode, insnUD, operands, regs, hdecode, _, _, _, rfl⟩ := step_eq_ok.mp h
  rw [S.leavesSink_eq hdecode]
  by_cases hsink : opcode.opcode ∈ storeInsn ∨ isBranch (S.insn pc) = true
  · have hleaves : (isBranch (S.insn pc) || decide (opcode.opcode ∈ storeInsn)) = true := by
      rcases hsink with hstore | hbranch
      · simp [hstore]
      · simp [hbranch]
    rw [if_pos hsink, if_pos hleaves]
    rfl
  · obtain ⟨hstore, hbranch⟩ := not_or.mp hsink
    rw [if_neg hsink]
    simp [hstore, Bool.eq_false_iff.mpr hbranch]

/-- The events of some instructions are those of the stores and branches among them. -/
theorem execFrom_events (h : I.execFrom S start count m = .ok (m', events)) :
    events.map Event.pc = (List.range' start count).filter S.leavesSink ∧
      m'.memory = I.replay events m.memory := by
  induction count generalizing m' events with
  | zero =>
    cases h
    exact ⟨rfl, rfl⟩
  | succ count ih =>
    obtain ⟨m₁, earlier, last, hexec, hstep, rfl⟩ := execFrom_succ.mp h
    obtain ⟨hpcs, hmemory⟩ := ih hexec
    obtain ⟨hpc, hmemory'⟩ := step_events hstep
    constructor
    · rw [List.map_append, hpcs, hpc, List.range'_1_concat, List.filter_append, List.filter_singleton]
      cases S.leavesSink (start + count) <;> rfl
    · rw [hmemory', hmemory, replay, replay, replay, List.foldl_append]

theorem execFrom_event_pc (h : I.execFrom S start count m = .ok (m', events)) {event : Event Value}
    (hevent : event ∈ events) : start ≤ event.pc ∧ event.pc < start + count := by
  have hmem : event.pc ∈ events.map Event.pc := List.mem_map_of_mem hevent
  rw [(execFrom_events h).1] at hmem
  exact List.mem_range'_1.mp (List.mem_filter.mp hmem).1

end Interpretation

namespace Processor
variable {Value Memory : Type} (P : Processor Value Memory) (S : Subject)

abbrev interpretation : Interpretation Value Memory := P.toSemantics.interpretation

/-- The mnemonic of an instruction. -/
def mnemonic (S : Subject) (pc : Nat) : Option Opcode :=
  S.disasm.lookupPowerpc (S.insn pc) .ppc750cl

/-- The branch at `pc` is among the events, and it was taken. -/
def turns (pc : Nat) (events : List (Event Value)) : Bool :=
  events.any fun event => event.pc == pc && P.taken (mnemonic S pc) event.operands

/-! ### Instruction by instruction -/

/-- In front of an instruction, or outside the function. -/
structure Config (Value Memory : Type) where
  place : Option Nat
  machine : Machine Value Memory
  events : List (Event Value)

/-- Where an exit leads. -/
def exitPlace (exit : Nat × BlockType) : Option Nat :=
  if exit.2 = .INTERNAL then some exit.1 else none

def stepConfig (c : Config Value Memory) : Except Error (Config Value Memory) :=
  match c.place with
  | none => .ok c
  | some pc => do
    let (m, events) ← P.interpretation.step S pc c.machine
    let exit ← value (choose (P.turns S pc events) (S.exits pc))
    return ⟨exitPlace exit, m, c.events ++ events⟩

/-- The first steps of a call of the function. -/
def run (m₀ : Machine Value Memory) : Nat → Except Error (Config Value Memory)
  | 0 => .ok ⟨some 0, m₀, []⟩
  | n + 1 => do
    let c ← run m₀ n
    P.stepConfig S c

/-! ### Block by block -/

variable (g : ControlFlowGraph)

/-- In front of a block, or of the placeholder for code outside the function. -/
structure Position (Value Memory : Type) where
  block : Nat
  machine : Machine Value Memory
  events : List (Event Value)

/-- The number of instructions of a block. -/
def blockLength (b : Nat) : Nat := g.stopOf b + 1 - g.startOf b

def advance (p : Position Value Memory) : Except Error (Position Value Memory) :=
  if g.isInternal p.block then do
    let (m, events) ← P.interpretation.execFrom S (g.startOf p.block) (blockLength g p.block) p.machine
    let next ← value (choose (P.turns S (g.stopOf p.block) events) (g.succ p.block))
    return ⟨next, m, p.events ++ events⟩
  else .ok p

def walk (m₀ : Machine Value Memory) : Nat → Except Error (Position Value Memory)
  | 0 => .ok ⟨0, m₀, []⟩
  | n + 1 => do
    let p ← walk m₀ n
    P.advance S g p

end Processor

namespace Subject
variable {S : Subject}

theorem exits_plain {pc : Nat} (h : isBranch (S.insn pc) = false) :
    S.exits pc = [(pc + 1, .INTERNAL)] := by
  obtain ⟨hu, hc, hlr, hctr⟩ := not_isBranch h
  simp [exits, branchesToAddress, branchesToRegister, fallsThrough, h, hu, hc, hlr, hctr]

end Subject

namespace Processor
variable {Value Memory : Type} {P : Processor Value Memory} {S : Subject} {g : ControlFlowGraph}
  {m m' m₀ : Machine Value Memory} {events es : List (Event Value)} {b k n : Nat} {x : BasicBlock}

/-! ### The blocks are the instructions -/

theorem stepConfig_eq_ok {pc : Nat} {c : Config Value Memory} :
    P.stepConfig S ⟨some pc, m, es⟩ = .ok c ↔ ∃ m' events exit,
      P.interpretation.step S pc m = .ok (m', events) ∧
      choose (P.turns S pc events) (S.exits pc) = some exit ∧
      c = ⟨exitPlace exit, m', es ++ events⟩ := by
  simp only [stepConfig, bind_eq_ok, value_eq_ok]
  constructor
  · intro h
    obtain ⟨⟨m', events⟩, hstep, exit, hchoose, h⟩ := h
    cases h
    exact ⟨m', events, exit, hstep, hchoose, rfl⟩
  · intro h
    obtain ⟨m', events, exit, hstep, hchoose, rfl⟩ := h
    exact ⟨(m', events), hstep, exit, hchoose, rfl⟩

theorem advance_internal (hb : g.isInternal b = true) {q : Position Value Memory} :
    P.advance S g ⟨b, m, es⟩ = .ok q ↔ ∃ m' events next,
      P.interpretation.execFrom S (g.startOf b) (blockLength g b) m = .ok (m', events) ∧
      choose (P.turns S (g.stopOf b) events) (g.succ b) = some next ∧
      q = ⟨next, m', es ++ events⟩ := by
  simp only [advance, hb, if_true, bind_eq_ok, Prod.exists, value_eq_ok]
  constructor
  · intro h
    obtain ⟨m', events, hexec, next, hchoose, h⟩ := h
    cases h
    exact ⟨m', events, next, hexec, hchoose, rfl⟩
  · intro h
    obtain ⟨m', events, next, hexec, hchoose, rfl⟩ := h
    exact ⟨m', events, hexec, next, hchoose, rfl⟩

/-- Within a block control goes on to the instruction after. -/
theorem run_within (hfin : Finished S g b x)
    (hrun : P.run S m₀ n = .ok ⟨some x.start, m, es⟩) (hk : x.start + k ≤ x.stop)
    (hexec : P.interpretation.execFrom S x.start k m = .ok (m', events)) :
    P.run S m₀ (n + k) = .ok ⟨some (x.start + k), m', es ++ events⟩ := by
  induction k generalizing m' events with
  | zero =>
    cases hexec
    rw [List.append_nil]
    exact hrun
  | succ k ih =>
    obtain ⟨m₁, earlier, last, hfirst, hstep, rfl⟩ := Interpretation.execFrom_succ.mp hexec
    have hplain := hfin.plain (x.start + k) (Nat.le_add_right _ _) (by omega)
    have hconfig := ih (by omega) hfirst
    rw [← Nat.add_assoc, run, hconfig]
    refine stepConfig_eq_ok.mpr ⟨m', last, (x.start + k + 1, .INTERNAL), hstep, ?_, ?_⟩
    · rw [Subject.exits_plain hplain, choose]
      split <;> rfl
    · rw [List.append_assoc]
      rfl

/-- The branch at the end of a block is its last event. -/
theorem turns_append {pc : Nat} {last : List (Event Value)} (h : ∀ event ∈ events, event.pc < pc) :
    P.turns S pc (events ++ last) = P.turns S pc last := by
  have hnone : (events.any fun event =>
      event.pc == pc && P.taken (mnemonic S pc) event.operands) = false := by
    rw [List.any_eq_false]
    intro event hevent
    simp [(h event hevent).ne]
  rw [turns, turns, List.any_append, hnone, Bool.false_or]

/-- Where the placeholder or the block of a position is. -/
def place (g : ControlFlowGraph) (b : Nat) : Option Nat :=
  if g.isInternal b then some (g.startOf b) else none

/-- A successor is where the exit leads. -/
theorem place_of_key {j : Nat} {exit : Nat × BlockType} (h : g.key j = some exit) :
    place g j = exitPlace exit := by
  unfold key at h
  obtain ⟨y, hy, rfl⟩ := Option.map_eq_some_iff.mp h
  rw [place, exitPlace, isInternal, hy, startOf, block, List.getD_eq_getElem?_getD, hy]
  simp

/-- The exit chosen at the end of a block is the one of its last instruction. -/
theorem choose_succ (hfin : Finished S g b x) (taken : Bool) :
    ∃ next exit, choose taken (g.succ b) = some next ∧ choose taken (S.exits x.stop) = some exit ∧
      place g next = exitPlace exit := by
  obtain ⟨exit, _, hexit⟩ := exists_choose taken (S.exits_ne_nil x.stop)
  have hkeys := congrArg (choose taken) hfin.linked
  rw [choose_map, choose_map, hexit, Option.map_some] at hkeys
  obtain ⟨next, hnext, hkey⟩ := Option.map_eq_some_iff.mp hkeys
  exact ⟨next, exit, hnext, hexit, place_of_key hkey⟩

/-- **The last instruction of a block leads to the block that is walked to next.** -/
theorem run_block (hfin : Finished S g b x) (hx : g.Internal b x)
    (hrun : P.run S m₀ n = .ok ⟨some x.start, m, es⟩) {q : Position Value Memory}
    (hadvance : P.advance S g ⟨b, m, es⟩ = .ok q) :
    P.run S m₀ (n + blockLength g b) = .ok ⟨place g q.block, q.machine, q.events⟩ := by
  obtain ⟨m', events, next, hexec, hchoose, rfl⟩ := (advance_internal hx.isInternal).mp hadvance
  have hrange := hfin.range
  obtain ⟨k, hk⟩ := Nat.exists_eq_add_of_le hrange.1
  have hlength : blockLength g b = k + 1 := by
    rw [blockLength, startOf, stopOf, hx.block_eq]
    omega
  rw [hlength, startOf, hx.block_eq] at hexec
  rw [stopOf, hx.block_eq] at hchoose
  obtain ⟨m₁, earlier, last, hfirst, hstep, rfl⟩ := Interpretation.execFrom_succ.mp hexec
  have hconfig := run_within hfin hrun (by omega) hfirst
  rw [hlength, ← Nat.add_assoc, run, hconfig]
  rw [turns_append fun event hevent => by
    have := (Interpretation.execFrom_event_pc hfirst hevent).2
    omega] at hchoose
  obtain ⟨next', exit, hnext, hexit, hplace⟩ := choose_succ hfin (P.turns S x.stop last)
  obtain rfl := Option.some.inj (hchoose.symm.trans hnext)
  rw [hk] at hexit
  refine stepConfig_eq_ok.mpr ⟨m', last, exit, hstep, hexit, ?_⟩
  rw [hplace, List.append_assoc]

/-- Some instructions into the block of a position, or outside with it. -/
def PartWay (P : Processor Value Memory) (S : Subject) (g : ControlFlowGraph)
    (p : Position Value Memory) (c : Config Value Memory) : Prop :=
  if g.isInternal p.block then
    ∃ k events, g.startOf p.block + k ≤ g.stopOf p.block ∧
      P.interpretation.execFrom S (g.startOf p.block) k p.machine = .ok (c.machine, events) ∧
      c.place = some (g.startOf p.block + k) ∧ c.events = p.events ++ events
  else c = ⟨none, p.machine, p.events⟩

/-- In front of the block. -/
theorem partWay_place (hle : ∀ b, g.startOf b ≤ g.stopOf b) (p : Position Value Memory) :
    PartWay P S g p ⟨place g p.block, p.machine, p.events⟩ := by
  unfold PartWay place
  split
  · exact ⟨0, [], hle _, rfl, rfl, (List.append_nil _).symm⟩
  · rfl

/-- **A step stays in the block, or leads to the next position of the walk.** -/
theorem PartWay.step (hle : ∀ b, g.startOf b ≤ g.stopOf b)
    (hfin : ∀ b x, g.Internal b x → Finished S g b x) {p : Position Value Memory}
    {c c' : Config Value Memory} (h : PartWay P S g p c) (hstep : P.stepConfig S c = .ok c') :
    PartWay P S g p c' ∨ ∃ q, P.advance S g p = .ok q ∧ PartWay P S g q c' := by
  obtain ⟨b, m, es⟩ := p
  unfold PartWay at h
  split at h
  · rename_i hb
    obtain ⟨k, events, hk, hexec, hplace, hevents⟩ := h
    obtain ⟨x, hx⟩ : ∃ x, g.Internal b x := (g.isInternal_iff b).mp hb
    have hfin := hfin b x hx
    obtain ⟨place', m₁, es₁⟩ := c
    dsimp only at hk hexec hplace hevents
    obtain rfl := hplace
    obtain ⟨m', last, exit, hinsn, hchoose, rfl⟩ := stepConfig_eq_ok.mp hstep
    have hnext : P.interpretation.execFrom S (g.startOf b) (k + 1) m = .ok (m', events ++ last) :=
      Interpretation.execFrom_succ.mpr ⟨m₁, events, last, hexec, hinsn, rfl⟩
    rw [startOf, stopOf, hx.block_eq] at hk
    rcases Nat.eq_or_lt_of_le hk with hstop | hlt
    · -- the last instruction of the block
      right
      have hturns : P.turns S x.stop (events ++ last) = P.turns S x.stop last := by
        refine turns_append fun event hevent => ?_
        have := (Interpretation.execFrom_event_pc hexec hevent).2
        rw [startOf, hx.block_eq] at this
        omega
      have hlength : blockLength g b = k + 1 := by
        rw [blockLength, startOf, stopOf, hx.block_eq]
        omega
      obtain ⟨next, exit', hsucc, hexit, hplace⟩ := choose_succ hfin (P.turns S x.stop last)
      rw [startOf, hx.block_eq, hstop] at hchoose
      obtain rfl := Option.some.inj (hchoose.symm.trans hexit)
      refine ⟨⟨next, m', es ++ (events ++ last)⟩, (advance_internal hb).mpr
        ⟨m', events ++ last, next, hlength ▸ hnext, ?_, rfl⟩, ?_⟩
      · rw [stopOf, hx.block_eq, hturns]
        exact hsucc
      · rw [← hplace, hevents, List.append_assoc]
        exact partWay_place hle ⟨next, m', es ++ (events ++ last)⟩
    · left
      have hplain := hfin.plain (x.start + k) (Nat.le_add_right _ _) hlt
      rw [startOf, hx.block_eq, Subject.exits_plain hplain, choose] at hchoose
      obtain rfl : (x.start + k + 1, BlockType.INTERNAL) = exit := by
        split at hchoose <;> exact Option.some.inj hchoose
      rw [PartWay, if_pos hb]
      refine ⟨k + 1, events ++ last, ?_, hnext, ?_, ?_⟩
      · rw [startOf, stopOf, hx.block_eq]
        exact hlt
      · rw [startOf, hx.block_eq]
        rfl
      · rw [hevents, List.append_assoc]
  · rename_i hb
    left
    rw [h] at hstep
    rw [PartWay, if_neg hb]
    exact (Except.ok.inj hstep).symm

/-- The entry is the first instruction. -/
theorem place_entry (hw : g.WellFormed) : place g 0 = some 0 := by
  obtain ⟨x, hx, hstart⟩ := hw.entry
  rw [place, if_pos hx.isInternal, startOf, hx.block_eq, hstart]

theorem run_of_walk (hw : g.WellFormed) (hfin : ∀ b x, g.Internal b x → Finished S g b x) {t : Nat}
    {p : Position Value Memory} (hwalk : P.walk S g m₀ t = .ok p) :
    ∃ n, P.run S m₀ n = .ok ⟨place g p.block, p.machine, p.events⟩ := by
  induction t generalizing p with
  | zero =>
    cases hwalk
    exact ⟨0, by rw [place_entry hw]; rfl⟩
  | succ t ih =>
    obtain ⟨q, hq, hadvance⟩ := bind_eq_ok.mp hwalk
    obtain ⟨n, hrun⟩ := ih hq
    obtain ⟨b, m, es⟩ := q
    by_cases hb : g.isInternal b = true
    · obtain ⟨x, hx⟩ : ∃ x, g.Internal b x := (g.isInternal_iff b).mp hb
      dsimp only at hrun
      rw [place, if_pos hb, startOf, hx.block_eq] at hrun
      exact ⟨_, run_block (hfin b x hx) hx hrun hadvance⟩
    · rw [advance, if_neg hb] at hadvance
      cases hadvance
      exact ⟨n, hrun⟩

end Processor

end Ppc2cpp
