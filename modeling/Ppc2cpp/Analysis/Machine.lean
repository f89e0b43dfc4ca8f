import Ppc2cpp.DataFlow.Analysis

/-! What straight-line code does when it is executed.

The registers are the storage elements the analyses know, and what an instruction reads
and writes is its use-define information. What it computes is a parameter
(`Interpretation`): any values, any memory, and any function of the operands. The outputs
can depend on the memory and a store changes it. The stores and branches are recorded
with their operands, so that the memory after some instructions is that of the recorded
stores (`exec_memory`). -/
namespace Ppc2cpp

/-- What an instruction is given: an immediate, or the value of a reference or register. -/
inductive Operand (Value : Type) where
  | imm (n : Int)
  | val (v : Value)
deriving DecidableEq, Repr

/-- What the instructions of a function compute. Outputs are told apart by their number. -/
structure Interpretation (Value Memory : Type) where
  reference : (pc : Nat) → Relocation → Value
  output : (pc : Nat) → Opcode → List (Operand Value) → Memory → Nat → Value
  store : (pc : Nat) → Opcode → List (Operand Value) → Memory → Memory

structure Machine (Value Memory : Type) where
  regs : Slot → Value
  memory : Memory

/-- A store or branch that was executed. -/
structure Event (Value : Type) where
  pc : Nat
  opcode : Opcode
  operands : List (Operand Value)

namespace Subject
variable (S : Subject)

/-- The instruction at `pc` is of one of the forms. -/
def hasForm (forms : List Form) (pc : Nat) : Bool :=
  match S.decode pc with
  | .ok (opcode, _) => opcode.opcode ∈ forms
  | .error _ => false

/-- The instruction at `pc` is a store or a branch. -/
def isSink (pc : Nat) : Bool := S.hasForm storeInsn pc || isBranch (S.insn pc)

/-- The number of stores among the first instructions. -/
def storesBefore (count : Nat) : Nat := (List.range count).countP (S.hasForm storeInsn)

def sinksBefore (count : Nat) : Nat := (List.range count).countP S.isSink

end Subject

namespace Interpretation
variable {Value Memory : Type} (I : Interpretation Value Memory)

/-- What the registers hold. -/
def readRegs (regs : Slot → Value) : List CpuMemoryLocation → Except Error (List (Operand Value))
  | [] => .ok []
  | loc :: rest => do
    let slot ← slotOf loc
    let values ← readRegs regs rest
    return .val (regs slot) :: values

/-- References, immediates, and then registers. -/
def operands (pc : Nat) (insnUD : InstructionUD) (regs : Slot → Value) :
    Except Error (List (Operand Value)) := do
  let values ← readRegs regs insnUD.inputs
  return insnUD.refs.map (fun reloc => .val (I.reference pc reloc)) ++ insnUD.imms.map .imm ++ values

/-- A later output in the same register wins. -/
def writeRegs (value : Nat → Value) :
    Nat → List CpuMemoryLocation → (Slot → Value) → Except Error (Slot → Value)
  | _, [], regs => .ok regs
  | i, loc :: rest, regs => do
    let slot ← slotOf loc
    writeRegs value (i + 1) rest fun s => if s = slot then value i else regs s

variable (S : Subject)

/-- The instruction at `pc`: the state after it, and what is recorded of it. -/
def step (pc : Nat) (m : Machine Value Memory) :
    Except Error (Machine Value Memory × List (Event Value)) := do
  let (opcode, insnUD) ← S.decode pc
  let operands ← I.operands pc insnUD m.regs
  let regs ← writeRegs (I.output pc opcode operands m.memory) 0 insnUD.outputs m.regs
  return (
    { regs := regs
      memory :=
        if opcode.opcode ∈ storeInsn then I.store pc opcode operands m.memory else m.memory },
    if opcode.opcode ∈ storeInsn ∨ isBranch (S.insn pc) = true then [⟨pc, opcode, operands⟩]
    else [])

/-- The first instructions of a function, one after another. -/
def exec : (count : Nat) → Machine Value Memory →
    Except Error (Machine Value Memory × List (Event Value))
  | 0, m => .ok (m, [])
  | count + 1, m => do
    let (m, events) ← exec count m
    let (m, last) ← I.step S count m
    return (m, events ++ last)

/-- The memory after the stores among some events. -/
def replay (events : List (Event Value)) (memory : Memory) : Memory :=
  events.foldl (fun memory event =>
    if event.opcode.opcode ∈ storeInsn then I.store event.pc event.opcode event.operands memory
    else memory) memory

/-! ### The events of an execution -/

variable {I S} {m m' : Machine Value Memory} {events events' : List (Event Value)} {count : Nat}

theorem exec_succ : I.exec S (count + 1) m = .ok (m', events') ↔
    ∃ m₁ events last, I.exec S count m = .ok (m₁, events) ∧
      I.step S count m₁ = .ok (m', last) ∧ events' = events ++ last := by
  simp only [exec, bind_eq_ok, Prod.exists]
  constructor
  · rintro ⟨m₁, events, hexec, m₂, last, hstep, h⟩
    cases h
    exact ⟨m₁, events, last, hexec, hstep, rfl⟩
  · rintro ⟨m₁, events, last, hexec, hstep, rfl⟩
    exact ⟨m₁, events, hexec, m', last, hstep, rfl⟩

theorem step_eq_ok {pc : Nat} : I.step S pc m = .ok (m', events) ↔
    ∃ opcode insnUD operands regs, S.decode pc = .ok (opcode, insnUD) ∧
      I.operands pc insnUD m.regs = .ok operands ∧
      writeRegs (I.output pc opcode operands m.memory) 0 insnUD.outputs m.regs = .ok regs ∧
      m' = ⟨regs, if opcode.opcode ∈ storeInsn then I.store pc opcode operands m.memory
        else m.memory⟩ ∧
      events = if opcode.opcode ∈ storeInsn ∨ isBranch (S.insn pc) = true then
        [⟨pc, opcode, operands⟩] else [] := by
  simp only [step, bind_eq_ok, Prod.exists]
  constructor
  · rintro ⟨opcode, insnUD, hdecode, operands, hoperands, regs, hwrite, h⟩
    cases h
    exact ⟨opcode, insnUD, operands, regs, hdecode, hoperands, hwrite, rfl, rfl⟩
  · rintro ⟨opcode, insnUD, operands, regs, hdecode, hoperands, hwrite, rfl, rfl⟩
    exact ⟨opcode, insnUD, hdecode, operands, hoperands, regs, hwrite, rfl⟩

/-- An instruction changes the memory only by its store. -/
theorem step_memory {pc : Nat} (h : I.step S pc m = .ok (m', events)) :
    m'.memory = I.replay events m.memory ∧
      events.length = if S.isSink pc then 1 else 0 := by
  obtain ⟨opcode, insnUD, operands, regs, hdecode, _, _, rfl, rfl⟩ := step_eq_ok.mp h
  by_cases hstore : opcode.opcode ∈ storeInsn
  · simp [replay, Subject.isSink, Subject.hasForm, hdecode, hstore]
  · by_cases hbranch : isBranch (S.insn pc) = true
    · simp [replay, Subject.isSink, Subject.hasForm, hdecode, hstore, hbranch]
    · simp [replay, Subject.isSink, Subject.hasForm, hdecode, hstore, hbranch]

/-- **The memory after some instructions is that of their events.** -/
theorem exec_memory (h : I.exec S count m = .ok (m', events)) :
    m'.memory = I.replay events m.memory ∧ events.length = S.sinksBefore count := by
  induction count generalizing m' events with
  | zero =>
    rw [exec] at h
    cases h
    exact ⟨rfl, rfl⟩
  | succ count ih =>
    obtain ⟨m₁, earlier, last, hexec, hstep, rfl⟩ := exec_succ.mp h
    obtain ⟨hmemory, hlen⟩ := ih hexec
    obtain ⟨hmemory', hlen'⟩ := step_memory hstep
    constructor
    · rw [hmemory', hmemory, replay, replay, replay, List.foldl_append]
    · rw [List.length_append, hlen, hlen', Subject.sinksBefore, Subject.sinksBefore,
        List.range_succ, List.countP_append, List.countP_singleton]

/-- Earlier events stay the first ones. -/
theorem exec_events_isPrefix {m₁ : Machine Value Memory} {n : Nat} (hle : count ≤ n)
    (h : I.exec S count m = .ok (m₁, events)) (h' : I.exec S n m = .ok (m', events')) :
    events <+: events' := by
  induction n, hle using Nat.le_induction generalizing m' events' with
  | base =>
    cases h.symm.trans h'
    exact List.prefix_refl events
  | succ n _ ih =>
    obtain ⟨m₂, earlier, last, hexec, _, rfl⟩ := exec_succ.mp h'
    exact (ih hexec).trans (List.prefix_append earlier last)

/-- The memory in front of an instruction is that of the first events. -/
theorem exec_memory_take {m₁ : Machine Value Memory} {n : Nat} (hle : count ≤ n)
    (h : I.exec S count m = .ok (m₁, events)) (h' : I.exec S n m = .ok (m', events')) :
    m₁.memory = I.replay (events'.take (S.sinksBefore count)) m.memory := by
  obtain ⟨hmemory, hlen⟩ := exec_memory h
  have hfirst := exec_events_isPrefix hle h h'
  rw [hmemory, ← hlen, ← List.prefix_iff_eq_take.mp hfirst]

/-- The events come in order, and none is left out. -/
theorem exec_event (h : I.exec S count m = .ok (m', events)) {j : Nat} {event : Event Value}
    (hj : events[j]? = some event) : event.pc < count ∧ S.sinksBefore event.pc = j ∧
      (event.opcode.opcode ∈ storeInsn ∨ isBranch (S.insn event.pc) = true) := by
  induction count generalizing m' events with
  | zero =>
    rw [exec] at h
    cases h
    cases hj
  | succ count ih =>
    obtain ⟨m₁, earlier, last, hexec, hstep, rfl⟩ := exec_succ.mp h
    rcases Nat.lt_or_ge j earlier.length with hlt | hge
    · rw [List.getElem?_append_left hlt] at hj
      obtain ⟨hpc, hsinks⟩ := ih hexec hj
      exact ⟨hpc.trans (Nat.lt_succ_self count), hsinks⟩
    · rw [List.getElem?_append_right hge] at hj
      obtain ⟨opcode, insnUD, operands, regs, _, _, _, _, rfl⟩ := step_eq_ok.mp hstep
      split at hj
      · rename_i hsink
        rw [List.getElem?_singleton] at hj
        split at hj
        · rename_i hzero
          cases hj
          exact ⟨Nat.lt_succ_self count, by rw [← (exec_memory hexec).2]; omega, hsink⟩
        · cases hj
      · cases hj

end Interpretation

theorem Subject.sinksBefore_mono (S : Subject) {i j : Nat} (h : i ≤ j) :
    S.sinksBefore i ≤ S.sinksBefore j :=
  (List.range_sublist.mpr h).countP_le

end Ppc2cpp
