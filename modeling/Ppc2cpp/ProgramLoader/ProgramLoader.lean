import Ppc2cpp.Model.Tables
import Ppc2cpp.ProgramLoader.Binary

/-! The program loader: locations to bytes, addresses to locations, and the target of
a branch.

`getReferenceAtLocation` is virtual. The ELF loader answers from the relocation
table; the RVL loader answers from the REL file's own relocations, with addresses
for references into the DOL. -/
namespace Ppc2cpp

inductive LoaderKind where
  | elf
  | rvl
deriving DecidableEq, Repr

structure ProgramLoader where
  kind : LoaderKind
  binaries : List Binary
  symtab : SymbolTable
  reloctab : RelocationTable
deriving Repr

namespace ProgramLoader

/-- `binaries[binary_idx]`; a negative index is out of range. -/
def binary? (L : ProgramLoader) (idx : Int) : Except Error Binary :=
  if idx < 0 then .error .outOfRange else at? L.binaries idx.toNat

/-- The section of a location. -/
def section? (L : ProgramLoader) (l : ProgramLocation) : Except Error BinarySection := do
  let b ← L.binary? l.binaryIdx
  b.section? l.sectionIdx

def getBufferAtLocation (L : ProgramLoader) (l : ProgramLocation) :
    Except Error (Option Buffer) := do
  let b ← L.binary? l.binaryIdx
  b.getBufferAtLocation l.toBinaryLocation

theorem getBufferAtLocation_eq {L : ProgramLoader} {l : ProgramLocation} {s : BinarySection}
    (hsection : L.section? l = .ok s) :
    L.getBufferAtLocation l = .ok (s.getBufferAtOffset l.sectionOffset) := by
  obtain ⟨b, hb, hs⟩ := bind_eq_ok.mp hsection
  simp only [getBufferAtLocation, Binary.getBufferAtLocation, hb, hs, bind, Except.bind, pure,
    Except.pure]

/-- The first section of that name, in a binary of that name, that has the offset. -/
def getLocation (L : ProgramLoader) (binaryName sectionName : String) (offset : BitVec 32) :
    Option ProgramLocation :=
  L.binaries.zipIdx.findSome? fun (b, i) =>
    if b.name = binaryName then
      (b.sections.findIdx? fun s => s.name == sectionName && offset.ult s.length).map
        fun (j : Nat) => ⟨⟨j, offset⟩, i⟩
    else none

def resolveVMAFrom (vma : BitVec 32) : Nat → List Binary → Option ProgramLocation
  | _, [] => none
  | i, b :: rest =>
    match b.resolveVMA vma with
    | some loc => some ⟨loc, i⟩
    | none => resolveVMAFrom vma (i + 1) rest

def resolveVMA (L : ProgramLoader) (vma : BitVec 32) : Option ProgramLocation :=
  resolveVMAFrom vma 0 L.binaries

/-- The last binary with the module id wins; a DOL is module 0. -/
def moduleId2binaryIdx (L : ProgramLoader) (moduleId : Nat) : Int :=
  (List.range L.binaries.length).foldl (fun (found : Int) (i : Nat) =>
    match L.binaries[i]?.map Binary.kind with
    | some (.rel id _) => if id = moduleId then i else found
    | some .dol => if moduleId = 0 then i else found
    | _ => found) (-1)

/-- If the given location refers to some other part of the program, its location. -/
def getReferenceAtLocation (L : ProgramLoader) (l : ProgramLocation) :
    Except Error (Option ProgramLocation) :=
  match L.kind with
  | .elf => .ok ((L.reloctab.lookupBySource l).map Relocation.destination)
  | .rvl => do
    let b ← L.binary? l.binaryIdx
    match b.kind with
    | .dol => return none
    | .rel _ relocLUT =>
      match FirstWins.find BinaryLocation.operatorEq relocLUT l.toBinaryLocation with
      | none => return none
      | some r =>
        -- relocations to DOL are directly VMAs of symbol
        if r.srcModuleId = 0 then return L.resolveVMA r.srcOffset
        let binaryIdx := L.moduleId2binaryIdx r.srcModuleId
        if binaryIdx < 0 then
          throw (.runtimeError ("Could not find module with id " ++ toString r.srcModuleId))
        return some ⟨⟨r.srcSectionIdx, r.srcOffset⟩, binaryIdx⟩
    | .elf => throw (.runtimeError ("Unsupported RVL binary type at index " ++ toString l.binaryIdx))

/-- Where the branch at `pc` with displacement or address `val` goes: to the location
the branch refers to, if it refers to one; else to the address `val`, or to the place
`val` bytes from `pc` in the section of `pc`. -/
def resolveTarget (L : ProgramLoader) (pc : ProgramLocation) (val : Int) (isAbsolute : Bool) :
    Except Error (Option ProgramLocation) := do
  match ← L.getReferenceAtLocation pc with
  | some reference => return some reference
  | none =>
    if isAbsolute then return L.resolveVMA (BitVec.ofInt 32 val)
    let b ← L.binary? pc.binaryIdx
    let s ← b.section? pc.sectionIdx
    let targetOff : BitVec 32 := pc.sectionOffset + BitVec.ofInt 32 val
    if 0 ≤ targetOff.toInt && targetOff.ult s.length then return some (pc.add val)
    return none

end ProgramLoader

end Ppc2cpp
