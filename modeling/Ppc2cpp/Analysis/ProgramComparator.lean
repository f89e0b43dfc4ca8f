import Ppc2cpp.DataFlow.Analysis

/-! Comparison of two programs, and of two functions by their data flow.

`comparePrograms` compares symbol by symbol and word by word. `compareFunctionFlows`
compares the sinks of two analysed functions in order, each with everything it depends
on (`compareVarNodes`). A relocation to a local symbol is compared by comparing the
symbols, whose relocations may lead on to further local symbols and back; that recursion
is on fuel. -/
namespace Ppc2cpp

/-- For messages. -/
def ProgramLoader.locationString (L : ProgramLoader) (l : ProgramLocation) :
    Except Error String := do
  let b ← L.binary? l.binaryIdx
  let s ← b.section? l.sectionIdx
  return "\x7b" ++ b.name ++ ", " ++ s.name ++ ", 0x" ++
    String.ofList (Nat.toDigits 16 l.sectionOffset.toNat) ++ "\x7d"

/-- `ASSERT(x.has_value(), message)`. -/
def assertSome {α : Type} (x : Option α) (message : Except Error String) : Except Error α :=
  match x with
  | some a => .ok a
  | none => do throw (.assertFailed (← message))

/-- A function and the two graphs the analyses make of it. -/
structure Function extends Symbol where
  cfg : ControlFlowGraph
  dfg : DataFlowAnalysis.State

structure ProgramComparator where
  disasm : Ppcdisasm
  pLoader1 : ProgramLoader
  pLoader2 : ProgramLoader

/-! ### Symbols by their bytes -/

/-- The bits of a word that a relocation of this type fills in. -/
def getRelocMask (relocType : BitVec 8) : Word :=
  if relocType ∈ [3, 6, 5, 4] then 0xffff -- ADDR16, _HA, _HI, _LO
  else if relocType ∈ [7, 9, 8, 11, 13, 12] then 0xfffc -- ADDR14 and REL14, _BRNTAKEN, _BRTAKEN
  else if relocType ∈ [2, relocREL24] then 0x3fffffc -- ADDR24
  else if relocType = 1 then 0xffffffff -- ADDR32
  else if relocType = 109 then 0x1fffff -- EMB_SDA21
  else 0

namespace ProgramComparator
variable (C : ProgramComparator)

/-- `std::max` of the sizes, as `int`. -/
def compareSize (sourceSym targetSym : Symbol) : Int :=
  (if sourceSym.size.ult targetSym.size then targetSym.size else sourceSym.size).toInt

/-- The buffers at two locations: that of the target symbol in the first program, that of
the source symbol in the second. -/
def buffersAt (sourceSym targetSym : Symbol) (pos1 pos2 : ProgramLocation) :
    Except Error (Buffer × Buffer) := do
  let buf1 ← assertSome (← C.pLoader1.getBufferAtLocation pos1) (do
    return "Failed to get buffer to symbol " ++ targetSym.name ++ " at " ++
      (← C.pLoader1.locationString pos1))
  let buf2 ← assertSome (← C.pLoader2.getBufferAtLocation pos2) (do
    return "Failed to get buffer to symbol " ++ sourceSym.name ++ " at " ++
      (← C.pLoader2.locationString pos2))
  return (buf1, buf2)

/-- The loop over the words of two symbols. Where both programs have a relocation the
relocations are compared, and then what `masked` compares of the words; where neither has
one the words are. -/
def compareWords (compareRelocations : Relocation → Relocation → Except Error Bool)
    (lookup : RelocationTable → ProgramLocation → Option Relocation)
    (masked : Relocation → Word → Word → Bool) (sourceSym targetSym : Symbol) :
    Except Error Bool :=
  (List.range ((compareSize sourceSym targetSym + 3) / 4).toNat).allM fun i => do
    let pos2 := sourceSym.location.add (4 * i)
    let pos1 := targetSym.location.add (4 * i)
    match lookup C.pLoader1.reloctab pos1, lookup C.pLoader2.reloctab pos2 with
    | some reloc1, some reloc2 =>
      let (buf1, buf2) ← C.buffersAt sourceSym targetSym pos1 pos2
      if ← compareRelocations reloc1 reloc2 then return masked reloc1 (be32 buf1 0) (be32 buf2 0)
      else return false
    | none, none =>
      let (buf1, buf2) ← C.buffersAt sourceSym targetSym pos1 pos2
      return be32 buf1 0 == be32 buf2 0
    | _, _ => return false

def compareData (compareRelocations : Relocation → Relocation → Except Error Bool)
    (sourceSym targetSym : Symbol) : Except Error Bool := do
  let (buf1, buf2) ← C.buffersAt sourceSym targetSym targetSym.location sourceSym.location
  -- the comment in the code says that both are aligned here; the test says that they are not
  if sourceSym.location.sectionOffset % 4 ≠ 0 ∨ sourceSym.size % 4 ≠ 0 ∨
      targetSym.location.sectionOffset % 4 ≠ 0 ∨ targetSym.size % 4 ≠ 0 then
    C.compareWords compareRelocations RelocationTable.lookupBySource (fun _ _ _ => true)
      sourceSym targetSym
  else
    let size := compareSize sourceSym targetSym
    -- as `size_t` a negative size is longer than any buffer
    if size < 0 then throw .outOfRange
    return (List.range size.toNat).all fun i => buf1.getD i 0 == buf2.getD i 0

def compareFunctions (compareRelocations : Relocation → Relocation → Except Error Bool)
    (sourceSym targetSym : Symbol) : Except Error Bool := do
  if ¬ (sourceSym.size.toInt - targetSym.size.toInt).natAbs < 8 then
    throw (.assertFailed ("Symbol sizes are wildly different " ++ toString sourceSym.size.toNat ++
      " vs " ++ toString targetSym.size.toNat))
  C.compareWords compareRelocations RelocationTable.lookupByInsnLoc
    (fun reloc word1 word2 =>
      (getRelocMask reloc.type ||| word1) == (getRelocMask reloc.type ||| word2))
    sourceSym targetSym

/-- `binaries[binary_idx]->sections[section_idx]->getType()`. -/
def sectionType (L : ProgramLoader) (l : ProgramLocation) : Except Error SectionType := do
  let b ← L.binary? l.binaryIdx
  let s ← b.section? l.sectionIdx
  return s.type

/-- `compareSymbols`, with the comparison of relocations it leads to. -/
def compareSymbolsBy (compareRelocations : Relocation → Relocation → Except Error Bool)
    (sourceSym targetSym : Symbol) : Except Error Bool := do
  let symSectionType2 ← sectionType C.pLoader2 targetSym.location
  let symSectionType1 ← sectionType C.pLoader1 sourceSym.location
  if symSectionType1 ≠ symSectionType2 then return false
  match symSectionType1 with
  | .TEXT => C.compareFunctions compareRelocations sourceSym targetSym
  | .DATA => C.compareData compareRelocations sourceSym targetSym
  | _ => return true

def compareRelocations : (fuel : Nat) → Relocation → Relocation → Except Error Bool
  | 0, _, _ => .error .outOfFuel
  | fuel + 1, reloc1, reloc2 => do
    let relocSym1 ← assertSome (C.pLoader1.symtab.lookupByLocation reloc1.destination) (do
      return "Source: could not find symbol referenced by relocation at " ++
        (← C.pLoader1.locationString reloc1.source) ++ ", destination " ++
        (← C.pLoader1.locationString reloc1.destination))
    let relocSym2 ← assertSome (C.pLoader2.symtab.lookupByLocation reloc2.destination) (do
      return "Target: could not find symbol referenced by relocation at " ++
        (← C.pLoader2.locationString reloc2.source) ++ ", destination " ++
        (← C.pLoader2.locationString reloc2.destination))
    if relocSym1.symbolBinding = .LOCAL ∨ relocSym2.symbolBinding = .LOCAL then
      -- local symbols are not contained in the symbols indexed by name
      C.compareSymbolsBy (compareRelocations fuel) relocSym1 relocSym2
    else
      return relocSym1.name == relocSym2.name && reloc1.type == reloc2.type &&
        reloc1.addend == reloc2.addend

def compareSymbols (fuel : Nat) : Symbol → Symbol → Except Error Bool :=
  C.compareSymbolsBy (C.compareRelocations fuel)

/-- Every symbol of the second program that is not local. -/
def comparePrograms (fuel : Nat) : Except Error Bool :=
  C.pLoader2.symtab.symbols.allM fun targetSym =>
    if targetSym.symbolBinding = .LOCAL then return true
    else match C.pLoader1.symtab.lookupByName targetSym.name with
    | none => return false
    | some sourceSym => C.compareSymbols fuel sourceSym targetSym

/-! ### Nodes of the data-flow graphs -/

/-- One of the two functions of a comparison, with its `funcptr`. -/
structure Side where
  func : Function
  funcptr : Buffer

namespace Side

def heap (side : Side) : Heap := side.func.dfg.heap

/-- `lookup_powerpc(be32(*(funcptr + insnIdx)), dialect)`. -/
def opcode (side : Side) (D : Ppcdisasm) (insnIdx : Nat) : Option Opcode :=
  D.lookupPowerpc (be32 side.funcptr insnIdx) .ppc750cl

end Side

variable (fuel : Nat) (side1 side2 : Side)

/-- The instructions of two nodes. -/
def compareInsns (insnIdx1 insnIdx2 : Nat) : Except Error Bool := do
  let opcode1 := side1.opcode C.disasm insnIdx1
  let opcode2 := side2.opcode C.disasm insnIdx2
  if opcode1 ≠ opcode2 then
    -- the names of both are printed
    let _ ← value opcode1
    let _ ← value opcode2
    return false
  -- instructions must belong to the same basic block
  let cfgIdx1 := side1.func.cfg.findBlockByInsnIdx insnIdx1
  let cfgIdx2 := side2.func.cfg.findBlockByInsnIdx insnIdx2
  return cfgIdx1 == cfgIdx2 && cfgIdx1.isSome

/-- Two nodes without their inputs. They must be of one class; what is compared beyond
that depends on the class. -/
def compareKinds : NodeKind → NodeKind → Except Error Bool
  | .sink index1, .sink index2 => C.compareInsns side1 side2 index1 index2
  | .ret index1 _, .ret index2 _ => C.compareInsns side1 side2 index1 index2
  | .result index1 _ _, .result index2 _ _ => C.compareInsns side1 side2 index1 index2
  | .functionInput _ loc1, .functionInput _ loc2 => .ok (loc1 == loc2)
  | .immediate _ _ value1, .immediate _ _ value2 => .ok (value1 == value2)
  | .reference _ _ reloc1, .reference _ _ reloc2 => C.compareRelocations fuel reloc1 reloc2
  | .phi _ _, .phi _ _ => .ok true -- no checks for now
  | .callReturn _ _, .callReturn _ _ => .ok true -- no checks for now
  | _, _ => .ok false

abbrev NodePair := NodeId × NodeId

/-- Caches the result of comparison between varnodes. -/
abbrev VarNodeComparisonCache := List (NodePair × Bool)

namespace VarNodeComparisonCache

def set (cache : VarNodeComparisonCache) (pair : NodePair) (equal : Bool) :
    VarNodeComparisonCache :=
  (pair, equal) :: cache

def check (cache : VarNodeComparisonCache) (pair : NodePair) : Option Bool :=
  (cache.find? fun e => e.1 == pair).map Prod.snd

end VarNodeComparisonCache

/-- The loop over the inputs of a pair of nodes. After each input the result so far is
the result of the pair. -/
def compareInputs
    (compareVarNodes : NodeId → NodeId → VarNodeComparisonCache →
      Except Error (Bool × VarNodeComparisonCache)) (pair : NodePair) :
    List NodeId → List NodeId → VarNodeComparisonCache → Except Error (Bool × VarNodeComparisonCache)
  | [], [], cache => .ok (true, cache)
  | [], _ :: _, cache => .ok (false, cache)
  | _ :: _, [], cache => .ok (false, cache)
  | input1 :: inputs1, input2 :: inputs2, cache => do
    let (equal, cache) ← compareVarNodes input1 input2 cache
    if equal then compareInputs compareVarNodes pair inputs1 inputs2 (cache.set pair true)
    else return (false, cache.set pair false)

def compareVarNodes : (depth : Nat) → NodeId → NodeId → VarNodeComparisonCache →
    Except Error (Bool × VarNodeComparisonCache)
  | 0, _, _, _ => .error .outOfFuel
  | depth + 1, var1, var2, cache =>
    match cache.check (var1, var2) with
    | some equal => .ok (equal, cache)
    | none => do
      let node1 ← at? side1.heap var1
      let node2 ← at? side2.heap var2
      if ← C.compareKinds fuel side1 side2 node1.kind node2.kind then
        compareInputs (compareVarNodes depth) (var1, var2) node1.inputs node2.inputs cache
      else return (false, cache)

/-! ### Functions by their data flow -/

/-- The loop over the sinks of a block. -/
def compareSinks : List NodeId → List NodeId → VarNodeComparisonCache →
    Except Error (Bool × VarNodeComparisonCache)
  | [], [], cache => .ok (true, cache)
  | [], _ :: _, cache => .ok (false, cache)
  | _ :: _, [], cache => .ok (false, cache)
  | sink1 :: sinks1, sink2 :: sinks2, cache => do
    -- the inputs of a node come before it, so the recursion is not deeper than there are nodes
    let (equal, cache) ← C.compareVarNodes fuel side1 side2 side1.heap.length sink1 sink2 cache
    if equal then compareSinks sinks1 sinks2 cache
    else return (false, cache.set (sink1, sink2) true)

/-- The loop over the basic blocks, with `remaining` of the first function to go. -/
def compareBlocks : (remaining bblockIdx : Nat) → VarNodeComparisonCache → Except Error Bool
  | 0, _, _ => .ok (decide (side2.func.cfg.blocks.length ≤ side1.func.cfg.blocks.length))
  | remaining + 1, bblockIdx, cache => do
    if side2.func.cfg.blocks.length ≤ bblockIdx then return false
    let sinks1 ← at? side1.func.dfg.sinks bblockIdx
    let sinks2 ← at? side2.func.dfg.sinks bblockIdx
    let (equal, cache) ← C.compareSinks fuel side1 side2 sinks1 sinks2 cache
    if !equal then return false
    -- basic blocks must branch to equivalent successors
    let entry1 ← at? side1.func.cfg.psTable bblockIdx
    let entry2 ← at? side2.func.cfg.psTable bblockIdx
    if entry1.succ ≠ entry2.succ then return false
    compareBlocks remaining (bblockIdx + 1) cache

def compareFunctionFlows (func1 func2 : Function) : Except Error Bool := do
  let func1ptr ← value (← C.pLoader1.getBufferAtLocation func1.location)
  let func2ptr ← value (← C.pLoader2.getBufferAtLocation func2.location)
  C.compareBlocks fuel ⟨func1, func1ptr⟩ ⟨func2, func2ptr⟩ func1.cfg.blocks.length 0 []

end ProgramComparator

end Ppc2cpp
