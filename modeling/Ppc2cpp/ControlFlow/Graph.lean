import Mathlib.Tactic

/-! The control-flow graph: a list of basic blocks and, next to it, the table of
predecessors and successors.

The two lists grow separately. The arm of `tryCreateSuccessorInternal` that finds
its target pushes a table entry without a block, so the table may run ahead of the
blocks; its surplus entries are empty (`ControlFlow/Invariant.lean`). -/
namespace Ppc2cpp

inductive BlockType where
  /-- Block inside function. -/
  | INTERNAL
  /-- Block in other function, known at compile time. -/
  | EXTERNAL
  /-- Block in other function, determined at runtime. -/
  | RUNTIME
deriving DecidableEq, Repr

structure BasicBlock where
  /-- Offset from function start. The branch target of the previous block. -/
  start : Nat
  /-- Offset from function start. The instruction of the function that branches to
  another basic block. -/
  stop : Nat
  blockType : BlockType
  isExit : Bool := false
  endsInCall : Bool := false
  endsInTailCall : Bool := false
deriving DecidableEq, Repr

structure PSEntry where
  pred : List Nat := []
  succ : List Nat := []
deriving DecidableEq, Repr

structure ControlFlowGraph where
  blocks : List BasicBlock := []
  /-- For each basic block the indices of its predecessors and successors. -/
  psTable : List PSEntry := []
deriving DecidableEq, Repr

namespace ControlFlowGraph

def init : ControlFlowGraph := ⟨[⟨0, 0, .INTERNAL, false, false, false⟩], [{}]⟩

/-- The index of the block an instruction belongs to. -/
def findBlockByInsnIdx (g : ControlFlowGraph) (idx : Nat) : Option Nat :=
  g.blocks.findIdx? (fun b => b.start ≤ idx && idx ≤ b.stop)

def findBlockByPosition (g : ControlFlowGraph) (branchTarget : Nat) (blockType : BlockType) :
    Option Nat :=
  g.blocks.findIdx? (fun b => b.start == branchTarget && b.blockType == blockType)

def findInternalBlockByPosition (g : ControlFlowGraph) (branchTarget : Nat) : Option Nat :=
  g.findBlockByPosition branchTarget .INTERNAL

/-! ### The updates the operations are made of -/

def setEnd (g : ControlFlowGraph) (blockIdx pos : Nat) : ControlFlowGraph :=
  {g with blocks := g.blocks.modify blockIdx (fun b => {b with stop := pos})}

def pushBlock (g : ControlFlowGraph) (b : BasicBlock) : ControlFlowGraph :=
  {g with blocks := g.blocks ++ [b]}

def pushEntry (g : ControlFlowGraph) : ControlFlowGraph := {g with psTable := g.psTable ++ [{}]}

/-- `succ` of the origin, then `pred` of the target. -/
def addEdge (g : ControlFlowGraph) (originBlockIdx targetBlockIdx : Nat) : ControlFlowGraph :=
  let table := g.psTable.modify originBlockIdx (fun e => {e with succ := e.succ ++ [targetBlockIdx]})
  {g with psTable := table.modify targetBlockIdx (fun e => {e with pred := e.pred ++ [originBlockIdx]})}

/-! ### The four operations that create edges -/

/-- The index of the successor if a new one was created, else `none`. -/
def tryCreateSuccessorInternal (g : ControlFlowGraph) (originBlockIdx branchPos : Nat)
    (targetPosition : Nat) : ControlFlowGraph × Option Nat :=
  let g := g.setEnd originBlockIdx branchPos
  match g.findInternalBlockByPosition targetPosition with
  | some existingBlock => (g.pushEntry.addEdge originBlockIdx existingBlock, none)
  | none =>
    let blockIdx := g.blocks.length
    (((g.pushBlock ⟨targetPosition, targetPosition, .INTERNAL, false, false, false⟩).pushEntry).addEdge
      originBlockIdx blockIdx, some blockIdx)

/-- `createSuccessorExternal` and `createSuccessorRuntime`, which differ in the type of
the block they create. -/
def createSuccessorOutside (blockType : BlockType) (g : ControlFlowGraph)
    (originBlockIdx branchPos : Nat) : ControlFlowGraph :=
  let g := g.setEnd originBlockIdx branchPos
  let blockIdx := g.blocks.length
  ((g.pushBlock ⟨branchPos, branchPos, blockType, false, false, false⟩).pushEntry).addEdge
    originBlockIdx blockIdx

def createSuccessorExternal : ControlFlowGraph → Nat → Nat → ControlFlowGraph :=
  createSuccessorOutside .EXTERNAL

def createSuccessorRuntime : ControlFlowGraph → Nat → Nat → ControlFlowGraph :=
  createSuccessorOutside .RUNTIME

def createSuccessorFallthrough (g : ControlFlowGraph) (originBlockIdx pos : Nat)
    (fallthroughBlockIdx : Nat) : ControlFlowGraph :=
  (g.setEnd originBlockIdx pos).addEdge originBlockIdx fallthroughBlockIdx

/-! ### Reading the graph -/

def succ (g : ControlFlowGraph) (blockIdx : Nat) : List Nat := (g.psTable.getD blockIdx {}).succ

def pred (g : ControlFlowGraph) (blockIdx : Nat) : List Nat := (g.psTable.getD blockIdx {}).pred

/-- The index is that of a block inside the function. -/
def isInternal (g : ControlFlowGraph) (blockIdx : Nat) : Bool :=
  match g.blocks[blockIdx]? with
  | some b => b.blockType == .INTERNAL
  | none => false

def hasExternalSuccessor (g : ControlFlowGraph) (blockIdx : Nat) : Bool :=
  (g.succ blockIdx).any (fun successor => !g.isInternal successor)

/-- Flags set on a block after its edges are made. -/
def setFlags (g : ControlFlowGraph) (blockIdx : Nat) (f : BasicBlock → BasicBlock) :
    ControlFlowGraph :=
  {g with blocks := g.blocks.modify blockIdx f}

/-! ### What each update changes -/

variable (g : ControlFlowGraph)

theorem getElem?_setEnd (b pos i : Nat) :
    (g.setEnd b pos).blocks[i]? =
      g.blocks[i]?.map (fun x => if b = i then {x with stop := pos} else x) := by
  simp [setEnd, List.getElem?_modify]

theorem getElem?_setFlags (b i : Nat) (f : BasicBlock → BasicBlock) :
    (g.setFlags b f).blocks[i]? = g.blocks[i]?.map (fun x => if b = i then f x else x) := by
  simp [setFlags, List.getElem?_modify]

theorem getElem?_setFlags_of_ne {b i : Nat} (hne : i ≠ b) (f : BasicBlock → BasicBlock) :
    (g.setFlags b f).blocks[i]? = g.blocks[i]? := by
  rw [getElem?_setFlags]
  simp [Ne.symm hne]

theorem getElem?_pushBlock (x : BasicBlock) (i : Nat) :
    (g.pushBlock x).blocks[i]? = if i = g.blocks.length then some x else g.blocks[i]? := by
  rw [pushBlock, List.getElem?_append]
  by_cases hi : i < g.blocks.length
  · rw [if_pos hi, if_neg (by omega)]
  · rw [if_neg hi]
    by_cases he : i = g.blocks.length
    · simp [he]
    · rw [if_neg he, List.getElem?_eq_none (by simp; omega), List.getElem?_eq_none (by omega)]

@[simp] theorem blocks_length_setEnd (b pos : Nat) :
    (g.setEnd b pos).blocks.length = g.blocks.length := by
  simp [setEnd]

@[simp] theorem blocks_length_setFlags (b : Nat) (f : BasicBlock → BasicBlock) :
    (g.setFlags b f).blocks.length = g.blocks.length := by
  simp [setFlags]

@[simp] theorem blocks_length_pushBlock (x : BasicBlock) :
    (g.pushBlock x).blocks.length = g.blocks.length + 1 := by
  simp [pushBlock]

@[simp] theorem blocks_pushEntry : g.pushEntry.blocks = g.blocks := rfl

@[simp] theorem blocks_addEdge (o t : Nat) : (g.addEdge o t).blocks = g.blocks := rfl

@[simp] theorem psTable_setEnd (b pos : Nat) : (g.setEnd b pos).psTable = g.psTable := rfl

@[simp] theorem psTable_setFlags (b : Nat) (f : BasicBlock → BasicBlock) :
    (g.setFlags b f).psTable = g.psTable := rfl

@[simp] theorem psTable_pushBlock (x : BasicBlock) : (g.pushBlock x).psTable = g.psTable := rfl

@[simp] theorem psTable_length_pushEntry :
    g.pushEntry.psTable.length = g.psTable.length + 1 := by
  simp [pushEntry]

@[simp] theorem psTable_length_addEdge (o t : Nat) :
    (g.addEdge o t).psTable.length = g.psTable.length := by
  simp [addEdge]

@[simp] theorem succ_setEnd (b pos i : Nat) : (g.setEnd b pos).succ i = g.succ i := rfl

@[simp] theorem pred_setEnd (b pos i : Nat) : (g.setEnd b pos).pred i = g.pred i := rfl

@[simp] theorem succ_setFlags (b i : Nat) (f : BasicBlock → BasicBlock) :
    (g.setFlags b f).succ i = g.succ i := rfl

@[simp] theorem pred_setFlags (b i : Nat) (f : BasicBlock → BasicBlock) :
    (g.setFlags b f).pred i = g.pred i := rfl

@[simp] theorem succ_pushBlock (x : BasicBlock) (i : Nat) : (g.pushBlock x).succ i = g.succ i := rfl

@[simp] theorem pred_pushBlock (x : BasicBlock) (i : Nat) : (g.pushBlock x).pred i = g.pred i := rfl

/-- A new entry is empty, and so is what `getD` answers beyond the table. -/
theorem getD_pushEntry (i : Nat) : g.pushEntry.psTable.getD i {} = g.psTable.getD i {} := by
  simp only [pushEntry, List.getD_eq_getElem?_getD, List.getElem?_append]
  by_cases hi : i < g.psTable.length
  · rw [if_pos hi]
  · rw [if_neg hi, List.getElem?_eq_none (show g.psTable.length ≤ i by omega)]
    by_cases he : i - g.psTable.length = 0
    · simp [he]
    · rw [List.getElem?_eq_none (by simp; omega)]

@[simp] theorem succ_pushEntry (i : Nat) : g.pushEntry.succ i = g.succ i := by
  simp only [succ, getD_pushEntry]

@[simp] theorem pred_pushEntry (i : Nat) : g.pushEntry.pred i = g.pred i := by
  simp only [pred, getD_pushEntry]

theorem succ_addEdge (o t i : Nat) (ho : o < g.psTable.length) :
    (g.addEdge o t).succ i = if o = i then g.succ i ++ [t] else g.succ i := by
  by_cases hi : i < g.psTable.length
  · have hget : g.psTable[i]? = some g.psTable[i] := List.getElem?_eq_getElem hi
    simp only [succ, addEdge, List.getD_eq_getElem?_getD, List.getElem?_modify, hget,
      Option.map_eq_map, Option.map_some, Option.getD_some]
    by_cases hio : o = i <;> by_cases hit : t = i <;> simp [hio, hit]
  · have hget : g.psTable[i]? = none := List.getElem?_eq_none (by omega)
    have hne : o ≠ i := by omega
    simp [succ, addEdge, List.getElem?_modify, hget, hne]

theorem pred_addEdge (o t i : Nat) (ht : t < g.psTable.length) :
    (g.addEdge o t).pred i = if t = i then g.pred i ++ [o] else g.pred i := by
  by_cases hi : i < g.psTable.length
  · have hget : g.psTable[i]? = some g.psTable[i] := List.getElem?_eq_getElem hi
    simp only [pred, addEdge, List.getD_eq_getElem?_getD, List.getElem?_modify, hget,
      Option.map_eq_map, Option.map_some, Option.getD_some]
    by_cases hio : o = i <;> by_cases hit : t = i <;> simp [hio, hit]
  · have hget : g.psTable[i]? = none := List.getElem?_eq_none (by omega)
    have hne : t ≠ i := by omega
    simp [pred, addEdge, List.getElem?_modify, hget, hne]

/-! ### Searching the blocks -/

theorem findInternal_some {p j : Nat} (h : g.findInternalBlockByPosition p = some j) :
    ∃ x, g.blocks[j]? = some x ∧ x.start = p ∧ x.blockType = .INTERNAL := by
  obtain ⟨hlt, hx, _⟩ := List.findIdx?_eq_some_iff_getElem.mp h
  simp only [Bool.and_eq_true, beq_iff_eq] at hx
  exact ⟨g.blocks[j], List.getElem?_eq_getElem hlt, hx.1, hx.2⟩

theorem findInternal_none {p : Nat} (h : g.findInternalBlockByPosition p = none) {j : Nat}
    {x : BasicBlock} (hx : g.blocks[j]? = some x) (ht : x.blockType = .INTERNAL) : x.start ≠ p := by
  have := List.findIdx?_eq_none_iff.mp h x (List.mem_of_getElem? hx)
  simp only [ht, beq_self_eq_true, Bool.and_true, beq_eq_false_iff_ne] at this
  exact this

/-- The end of a block plays no part in the search. -/
@[simp] theorem findInternal_setEnd (b pos p : Nat) :
    (g.setEnd b pos).findInternalBlockByPosition p = g.findInternalBlockByPosition p := by
  have hkeys : (g.setEnd b pos).blocks.map (fun x => x.start == p && x.blockType == .INTERNAL) =
      g.blocks.map fun x => x.start == p && x.blockType == .INTERNAL := by
    apply List.ext_getElem?
    intro i
    rw [List.getElem?_map, List.getElem?_map, getElem?_setEnd]
    cases g.blocks[i]? with
    | none => rfl
    | some x => by_cases hi : b = i <;> simp [hi]
  have hid : ∀ xs : List BasicBlock,
      xs.findIdx? (fun x => x.start == p && x.blockType == .INTERNAL) =
        (xs.map fun x => x.start == p && x.blockType == .INTERNAL).findIdx? id := by
    intro xs
    rw [List.findIdx?_map]
    rfl
  rw [findInternalBlockByPosition, findBlockByPosition, hid, hkeys, ← hid]
  rfl

theorem isInternal_iff (i : Nat) :
    g.isInternal i = true ↔ ∃ x, g.blocks[i]? = some x ∧ x.blockType = .INTERNAL := by
  unfold isInternal
  cases h : g.blocks[i]? <;> simp

end ControlFlowGraph

end Ppc2cpp
