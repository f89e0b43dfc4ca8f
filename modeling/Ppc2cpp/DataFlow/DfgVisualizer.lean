import Ppc2cpp.Analysis.ProgramComparator

/-! The data-flow graph as text for a graph drawing program.

Nodes are told apart by `getNodeId` only: two nodes with the same string are one vertex.
`outputDfgDotRecurse` follows inputs and does not look whether it has been at a node
before; `depth` bounds how deep it goes. -/
namespace Ppc2cpp

def sprAlias (sprNum : Int) : Except Error String :=
  if sprNum = sprValueXER then .ok "xer"
  else if sprNum = sprValueLR then .ok "lr"
  else if sprNum = sprValueCTR then .ok "ctr"
  else if 912 ≤ sprNum ∧ sprNum < 920 then .ok ("gqr" ++ toString (sprNum - 912))
  else .error (.runtimeError ("Unknown SPR " ++ toString sprNum))

def cpuMemorySpace2label (memLoc : CpuMemoryLocation) : Except Error String :=
  match memLoc.memspace with
  | .GPR => .ok ("r" ++ toString memLoc.value)
  | .FPR => .ok ("f" ++ toString memLoc.value)
  | .CR_BIT => .ok ("cr" ++ toString memLoc.value)
  | .GQR => .ok ("gqr" ++ toString memLoc.value)
  | .PS1 => .ok ("ps1" ++ toString memLoc.value)
  | .SPR => sprAlias memLoc.value

namespace DfgVisualizer

/-- A string that uniquely identifies a node in a graph. -/
def getNodeId : NodeKind → Except Error String
  | .result index _ _ => .ok ("res_insn" ++ toString index ++ "op" ++ toString index)
  | .ret _ cpuMemoryLocation => do
    return "return_" ++ (← cpuMemorySpace2label cpuMemoryLocation)
  | .sink index => .ok ("sink_insn" ++ toString index)
  | .callReturn index cpuMemoryLocation => do
    return "callret_insn" ++ toString index ++ "op" ++ (← cpuMemorySpace2label cpuMemoryLocation)
  | .phi index _ => .ok ("phi_insn" ++ toString index ++ "op" ++ toString index)
  | .immediate index _ _ => .ok ("imm_insn" ++ toString index ++ "op" ++ toString index)
  | .reference index _ _ => .ok ("ref_insn" ++ toString index ++ "op" ++ toString index)
  | .functionInput index cpuMemoryLocation => do
    return "funcinput_insn" ++ toString index ++ (← cpuMemorySpace2label cpuMemoryLocation)

section
variable (D : Ppcdisasm) (programLoader : ProgramLoader) (func : Function)

def getDotLabel (kind : NodeKind) : Except Error String := do
  let funcPtr ← value (← programLoader.getBufferAtLocation func.location)
  let opcode := D.lookupPowerpc (be32 funcPtr kind.index) .ppc750cl
  match kind with
  | .result _ _ _ => return (← value opcode).name
  | .callReturn index cpuMemoryLocation =>
    return "ret" ++ toString index ++ (← cpuMemorySpace2label cpuMemoryLocation)
  | .ret _ cpuMemoryLocation => return "return " ++ (← cpuMemorySpace2label cpuMemoryLocation)
  | .sink _ => return (← value opcode).name
  | .immediate _ _ value => return toString value
  | .reference _ _ reloc =>
    match programLoader.symtab.lookupByLocation reloc.destination with
    | some relocSym => return relocSym.name
    | none => throw (.runtimeError ("Could not resolve reference at " ++
        (← programLoader.locationString reloc.source) ++ " to " ++
        (← programLoader.locationString reloc.destination)))
  | .functionInput _ cpuMemoryLocation => cpuMemorySpace2label cpuMemoryLocation
  | .phi _ _ => return "Φ"

def outputNode (kind : NodeKind) : Except Error String := do
  return "  " ++ (← getNodeId kind) ++ "[label=\"" ++ (← getDotLabel D programLoader func kind) ++
    "\"]" ++ ";\n"

/-- The text for the node at an address and all it depends on. -/
def outputDfgDotRecurse : (depth : Nat) → NodeId → Except Error String
  | 0, _ => .error .outOfFuel
  | depth + 1, var => do
    let node ← at? func.dfg.heap var
    if node.inputs = [] then return ""
    let inputs ← node.inputs.mapM (at? func.dfg.heap)
    let nodes ← inputs.mapM fun input => outputNode D programLoader func input.kind
    let ids ← inputs.mapM fun input => getNodeId input.kind
    let sources := match ids with
      | [id] => id
      | ids => "\x7b" ++ ", ".intercalate ids ++ "\x7d"
    let id ← getNodeId node.kind
    let rest ← node.inputs.mapM (outputDfgDotRecurse depth)
    return String.join nodes ++ "  " ++ sources ++ " -> " ++ id ++ String.join rest

def outputDfgDot : Except Error String := do
  let sinks ← func.dfg.sinks.flatten.mapM fun sink => do
    let node ← at? func.dfg.heap sink
    return (← outputNode D programLoader func node.kind) ++
      (← outputDfgDotRecurse D programLoader func func.dfg.heap.length sink)
  return "strict digraph \x7b\n" ++ String.join sinks ++ "\n\x7d\n"

end

end DfgVisualizer

end Ppc2cpp
