import Ppc2cpp.Model.CpuMemory
import Ppc2cpp.Model.Symbol

/-! Nodes of the data-flow graph.

A node is a shared object that is compared by its address. `Heap` is the list of all
nodes allocated so far and a `NodeId` the place of a node in it, so that a node keeps
its identity and two nodes are different even if they look alike. The inputs of a node
are fixed before anything reads them, so they are given when it is allocated. -/
namespace Ppc2cpp

abbrev NodeId := Nat

/-- The classes of nodes. `index` is the instruction associated with the node, the one
that defined the variable or its first usage. -/
inductive NodeKind where
  /-- An input to a function (the function does not define it but uses it). -/
  | functionInput (index : Nat) (cpuMemoryLocation : CpuMemoryLocation)
  | immediate (index opindex : Nat) (value : Int)
  /-- A symbol reference. -/
  | reference (index opindex : Nat) (reloc : Relocation)
  /-- Returned by a called function. -/
  | callReturn (index : Nat) (cpuMemoryLocation : CpuMemoryLocation)
  /-- An intermediate result of an instruction. -/
  | result (index opindex : Nat) (cpuMemoryLocation : CpuMemoryLocation)
  /-- An instruction that uses its inputs but has no usages by other nodes. -/
  | sink (index : Nat)
  /-- `ReturnNode`. -/
  | ret (index : Nat) (cpuMemoryLocation : CpuMemoryLocation)
  | phi (index : Nat) (cpuMemoryLocation : CpuMemoryLocation)
deriving DecidableEq, Repr

def NodeKind.index : NodeKind → Nat
  | .functionInput index _ => index
  | .immediate index _ _ => index
  | .reference index _ _ => index
  | .callReturn index _ => index
  | .result index _ _ => index
  | .sink index => index
  | .ret index _ => index
  | .phi index _ => index

/-- The instruction whose operands the inputs of a node are. -/
def NodeKind.builtFor : NodeKind → Option Nat
  | .callReturn index _ => some index
  | .result index _ _ => some index
  | .sink index => some index
  | _ => none

/-- The instruction a definition belongs to. -/
def NodeKind.defines : NodeKind → Option Nat
  | .callReturn index _ => some index
  | .result index _ _ => some index
  | _ => none

structure Node where
  kind : NodeKind
  inputs : List NodeId := []
deriving DecidableEq, Repr

abbrev Heap := List Node

/-- The node at an address that was handed out. -/
def Heap.kind? (heap : Heap) (n : NodeId) : Option NodeKind := heap[n]?.map Node.kind

def Heap.inputs (heap : Heap) (n : NodeId) : List NodeId := (heap[n]?.map Node.inputs).getD []

/-- The instruction a node is associated with. -/
def Heap.index (heap : Heap) (n : NodeId) : Nat := (heap[n]?.map fun node => node.kind.index).getD 0

/-- `std::unordered_set<VarNodePtr>`. -/
abbrev Definition := Finset NodeId

/-- The order in which a hash set of nodes enumerates its elements. It can be another
one each time; the sets are told apart by the next address when they are enumerated. -/
structure HashOrder where
  enumerate : NodeId → Definition → List NodeId
  nodup : ∀ n d, (enumerate n d).Nodup
  mem : ∀ n d x, x ∈ enumerate n d ↔ x ∈ d

namespace HashOrder

theorem toFinset_enumerate (H : HashOrder) (n : NodeId) (d : Definition) :
    (H.enumerate n d).toFinset = d := by
  ext x
  rw [List.mem_toFinset, H.mem]

theorem length_enumerate (H : HashOrder) (n : NodeId) (d : Definition) :
    (H.enumerate n d).length = d.card := by
  rw [← List.toFinset_card_of_nodup (H.nodup n d), H.toFinset_enumerate]

theorem enumerate_eq_nil (H : HashOrder) {n : NodeId} {d : Definition} :
    H.enumerate n d = [] ↔ d = ∅ := by
  rw [← List.length_eq_zero_iff, H.length_enumerate, Finset.card_eq_zero]

theorem enumerate_eq_singleton (H : HashOrder) {n : NodeId} {d : Definition} {x : NodeId} :
    H.enumerate n d = [x] ↔ d = {x} := by
  constructor
  · intro h
    rw [← H.toFinset_enumerate n d, h]
    rfl
  · intro h
    obtain ⟨y, hy⟩ := List.length_eq_one_iff.mp
      ((H.length_enumerate n d).trans (by rw [h, Finset.card_singleton]))
    have hmem : y ∈ d := (H.mem n d y).mp (by rw [hy]; exact List.mem_singleton_self y)
    rw [h, Finset.mem_singleton] at hmem
    rw [hy, hmem]

/-- By address, from the lowest. -/
def ascending : HashOrder where
  enumerate _ d := (List.range (d.sup (· + 1))).filter (· ∈ d)
  nodup _ d := List.nodup_range.filter _
  mem _ d x := by
    simp only [List.mem_filter, List.mem_range, decide_eq_true_eq, and_iff_right_iff_imp]
    intro hx
    exact Finset.le_sup (f := (· + 1)) hx

/-- By address, from the highest. -/
def descending : HashOrder where
  enumerate n d := (ascending.enumerate n d).reverse
  nodup n d := List.nodup_reverse.mpr (ascending.nodup n d)
  mem n d x := by rw [List.mem_reverse, ascending.mem]

end HashOrder

end Ppc2cpp
