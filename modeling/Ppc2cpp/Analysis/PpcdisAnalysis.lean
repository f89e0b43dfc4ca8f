import Ppc2cpp.Common.InsnProperties
import Ppc2cpp.Lib.Appending
import Ppc2cpp.ProgramLoader.Loading

/-! What ppcdis knows of a program, imported into the tables of a loaded program.

For each binary there are three files: a configuration with the load addresses, the labels
and the relocations, both by address. The files are read by yaml-cpp and protobuf, which
are no part of the repository (`PpcdisReaders`). A label or a relocation is added unless
there is one at its location already, as far as the lookups of the tables know. -/
namespace Ppc2cpp

namespace Ppcdis

inductive LabelType where
  | NOTYPE | DATA | FUNCTION | LABEL | JUMPTABLE | ENTRY
  | other (value : Int)
deriving DecidableEq, Repr

structure Label where
  type : LabelType
  size : BitVec 32
deriving DecidableEq, Repr

structure Reloc where
  type : BitVec 32
  target : BitVec 32
  offset : BitVec 32
deriving DecidableEq, Repr

/-- A protobuf map from addresses, in the order its entries are visited. -/
structure AddressMap (α : Type) where
  entries : List (BitVec 32 × α)
  keys_nodup : (entries.map Prod.fst).Nodup

structure BinConfig where
  path : String
  address : Option (BitVec 32)
  bssAddress : Option (BitVec 32)
deriving DecidableEq, Repr

end Ppcdis

structure PpcdisInfoFiles where
  binYaml : String
  labelProto : String
  relocProto : String
deriving DecidableEq, Repr

/-- What is read from the files, or the exception raised. -/
structure PpcdisReaders where
  binConfig : String → Except Error Ppcdis.BinConfig
  labelInfo : String → Except Error (Ppcdis.AddressMap Ppcdis.Label)
  relocInfo : String → Except Error (Ppcdis.AddressMap Ppcdis.Reloc)
  /-- The entries under `global`, in order. -/
  symbolMap : String → Except Error (List (BitVec 32 × String))

/-! ### Placing a binary -/

def RelSection.setLoadInfo (relLoadAddr bssLoadAddr : BitVec 32) (s : BinarySection) :
    BinarySection :=
  {s with kind := .rel (if s.type = .BSS then bssLoadAddr else relLoadAddr + s.offset)}

def Rel.setLoadInfo (relLoadAddr bssLoadAddr : BitVec 32) (b : Binary) : Binary :=
  {b with sections := b.sections.map (RelSection.setLoadInfo relLoadAddr bssLoadAddr)}

/-- `ProgramLoader::findBinaryIdxByName`. -/
def findBinaryIdxByName (binaries : List Binary) (name : String) : Option Nat :=
  binaries.findIdx? fun b => b.name == name

/-- If the binary is a REL, apply its load information so that addresses can be resolved. -/
def applyLoadInfo (config : Ppcdis.BinConfig) (binaryIdx : Nat) (binaries : List Binary) :
    Except Error (List Binary) := do
  let b ← at? binaries binaryIdx
  match b.kind with
  | .rel _ _ =>
    let address ← value config.address
    let bssAddress ← value config.bssAddress
    return binaries.modify binaryIdx (Rel.setLoadInfo address bssAddress)
  | _ => return binaries

/-! ### Labels and relocations -/

/-- `ASSERT(maybeLoc.has_value(), …)`. -/
def assertResolved (pLoader : ProgramLoader) (addr : BitVec 32) : Except Error ProgramLocation :=
  match pLoader.resolveVMA addr with
  | some loc => .ok loc
  | none => .error (.assertFailed ("Could not resolve VMA 0x" ++
      String.ofList (Nat.toDigits 16 addr.toNat)))

/-- The map from address to name keeps the last name of an address. -/
def findName (namemap : List (BitVec 32 × String)) (addr : BitVec 32) : Option String :=
  (namemap.reverse.find? (fun e => e.1 == addr)).map Prod.snd

/-- The name of the symbol map if there is one, otherwise a sensible default. -/
def labelName (namemap : List (BitVec 32 × String)) (addr : BitVec 32) : String :=
  (findName namemap addr).getD ("lab_" ++ String.ofList (Nat.toDigits 16 addr.toNat))

/-- The symbol type a label is registered with, if it is. -/
def Ppcdis.LabelType.symbolType : LabelType → Option SymbolType
  | .DATA => some .DATA
  | .JUMPTABLE => some .DATA
  | .FUNCTION => some .FUNCTION
  | _ => none

def importLabel (pLoader : ProgramLoader) (namemap : List (BitVec 32 × String)) (binaryIdx : Nat)
    (symtab : SymbolTable) (it : BitVec 32 × Ppcdis.Label) : Except Error SymbolTable := do
  let symLoc ← assertResolved pLoader it.1
  -- ppcdis sizes are only valid for the binary itself
  if symLoc.binaryIdx ≠ binaryIdx then return symtab
  if (symtab.lookupByLocation symLoc).isSome then return symtab
  match it.2.type.symbolType with
  | some symbolType =>
    return symtab.pushBack ⟨labelName namemap it.1, symLoc, it.2.size, symbolType, .GLOBAL⟩
  | none => return symtab

def getElfRelocTypeFromPpcdis (pLoader : ProgramLoader) (ppcdisType : BitVec 32)
    (location : ProgramLocation) : Except Error (BitVec 8) := do
  if ppcdisType = 3 then return 109 -- EMB_SDA21
  if ppcdisType = 2 then return 6 -- ADDR16_HA
  let s ← pLoader.section? location
  if s.type ≠ .TEXT then return 1 -- ADDR32
  let buffer ← value (← pLoader.getBufferAtLocation location)
  return if isLis (be32 buffer 0) then 5 else 4 -- ADDR16_HI, ADDR16_LO

def importReloc (pLoader : ProgramLoader) (reloctab : RelocationTable)
    (it : BitVec 32 × Ppcdis.Reloc) : Except Error RelocationTable := do
  let location ← assertResolved pLoader it.1
  if (reloctab.lookupBySource location).isSome then return reloctab
  let target ← assertResolved pLoader it.2.target
  let elfRelocType ← getElfRelocTypeFromPpcdis pLoader it.2.type location
  return reloctab.pushBack ⟨location, target, elfRelocType, it.2.offset.toInt⟩

def loadBinaryInfoFromPpcdis (readers : PpcdisReaders) (namemap : List (BitVec 32 × String))
    (pLoader : ProgramLoader) (files : PpcdisInfoFiles) : Except Error ProgramLoader := do
  let config ← readers.binConfig files.binYaml
  let binFilename := filename config.path
  match findBinaryIdxByName pLoader.binaries binFilename with
  | none => throw (.assertFailed
      ("Could not find ppcdis binary named " ++ binFilename ++ " in project"))
  | some binaryIdx =>
    let binaries ← applyLoadInfo config binaryIdx pLoader.binaries
    let pLoader := {pLoader with binaries := binaries}
    let labelinfo ← readers.labelInfo files.labelProto
    let relocinfo ← readers.relocInfo files.relocProto
    let symtab ← labelinfo.entries.foldlM (importLabel pLoader namemap binaryIdx) pLoader.symtab
    let reloctab ← relocinfo.entries.foldlM (importReloc pLoader) pLoader.reloctab
    return {pLoader with symtab := symtab, reloctab := reloctab}

def loadAnalysisFromPpcdis (readers : PpcdisReaders) (pLoader : ProgramLoader)
    (ppcdisInfo : List PpcdisInfoFiles) (symmapPath : String) : Except Error ProgramLoader := do
  let namemap ← readers.symbolMap symmapPath
  ppcdisInfo.foldlM (loadBinaryInfoFromPpcdis readers namemap) pLoader

end Ppc2cpp
