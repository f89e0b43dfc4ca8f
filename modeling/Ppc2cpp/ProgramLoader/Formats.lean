import Ppc2cpp.Lib.FirstWins
import Ppc2cpp.ProgramLoader.Binary

/-! The files a program is loaded from, and the sections made of each.

ELF files are read by ELFIO, DOL and REL files by ninutils. Neither is part of the
repository: `Formats` is what they make of the bytes of a file, and the rest is what the
repository makes of that. -/
namespace Ppc2cpp

abbrev Bytes := List (BitVec 8)

/-- The content of every file that can be opened. -/
abbrev FileSystem := String → Option Bytes

/-! ### What the format libraries read -/

/-- An entry of a symbol section: `symbol_section_accessor::get_symbol`. -/
structure ElfSymbol where
  name : String
  value : BitVec 64
  size : BitVec 64
  bind : BitVec 8
  type : BitVec 8
  sectionIndex : BitVec 16
deriving DecidableEq, Repr

/-- An entry of a relocation section: `relocation_section_accessor::get_entry`. -/
structure ElfRelocation where
  offset : BitVec 64
  symbol : BitVec 32
  type : BitVec 32
  addend : BitVec 64
deriving DecidableEq, Repr

/-- `ELFIO::section`, with the entries of a symbol or relocation section. -/
structure ElfioSection where
  name : String
  type : BitVec 32
  flags : BitVec 64
  info : BitVec 32
  link : BitVec 32
  address : BitVec 64
  offset : BitVec 64
  size : BitVec 64
  data : Bytes
  symbols : List ElfSymbol
  relocations : List ElfRelocation
deriving DecidableEq, Repr

/-- `ELFIO::segment`. -/
structure ElfioSegment where
  type : BitVec 32
  offset : BitVec 64
  virtualAddress : BitVec 64
  memorySize : BitVec 64
  data : Bytes
deriving DecidableEq, Repr

/-- `ELFIO::elfio` after `load`. -/
structure Elfio where
  type : BitVec 16
  sections : List ElfioSection
  segments : List ElfioSegment
deriving DecidableEq, Repr

/-- `ninutils::DolSection`. -/
structure NinDolSection where
  name : String
  offset : BitVec 32
  length : BitVec 32
  address : BitVec 32
  isText : Bool
  isBss : Bool
deriving DecidableEq, Repr

/-- `ninutils::RelSection`. -/
structure NinRelSection where
  name : String
  offset : BitVec 32
  length : BitVec 32
  exec : Bool
  isBss : Bool
deriving DecidableEq, Repr

/-- `ninutils::Rel`; a relocation comes with the place it applies to. -/
structure NinRel where
  moduleId : Nat
  sections : List NinRelSection
  rels : List (BinaryLocation × RelReloc)
  loadAddr : BitVec 32
  bssLoadAddr : BitVec 32
deriving DecidableEq, Repr

/-- What the libraries make of the bytes of a file, or the exception they raise. -/
structure Formats where
  elf : Bytes → Elfio
  dol : Bytes → Except Error (List NinDolSection)
  rel : Bytes → Except Error NinRel

/-! ### Binaries with their file -/

structure LoadedBinary extends Binary where
  filepath : String
  /-- Buffer to file data. -/
  data : Bytes
deriving Repr

/-- `path.filename()`. -/
def filename (path : String) : String := (path.splitOn "/").getLastD ""

/-- The data of `Binary::Binary`. -/
def readFile (fs : FileSystem) (path : String) : Except Error Bytes :=
  match fs path with
  | some data => .ok data
  | none => .error (.runtimeError ("Input file " ++ path ++ " was not found"))

/-! ### ELF -/

def SHF_ALLOC : BitVec 64 := 2
def SHF_EXECINSTR : BitVec 64 := 4
def SHT_SYMTAB : BitVec 32 := 2
def SHT_RELA : BitVec 32 := 4
def SHT_NOBITS : BitVec 32 := 8
def PT_LOAD : BitVec 32 := 1

namespace ElfSection

/-- The type of what is loaded from `elfsec`. -/
def loadedType (elfsec : ElfioSection) : SectionType :=
  if elfsec.type = SHT_NOBITS then .BSS
  else if elfsec.flags &&& SHF_EXECINSTR ≠ 0 then .TEXT
  else .DATA

def ofSection (elfsec : ElfioSection) : BinarySection where
  name := elfsec.name
  offset := elfsec.offset.setWidth 32
  length := elfsec.size.setWidth 32
  type := if elfsec.flags &&& SHF_ALLOC = 0 then .NOLOAD else loadedType elfsec
  kind := .elf (elfsec.address.setWidth 32)
  buffer := elfsec.data

/-- The segment at an index, with the name and the type of the first section that starts
where it starts. -/
def ofSegment (elf : Elfio) (elfseg : ElfioSegment) (index : Nat) :
    Except Error BinarySection :=
  match elf.sections.find? (fun s => s.offset == (elfseg.offset.setWidth 32).setWidth 64) with
  | none => .error (.runtimeError
      ("Failed to find segment " ++ toString index ++ " corresponding section"))
  | some elfsec => .ok
    { name := elfsec.name
      offset := elfseg.offset.setWidth 32
      length := elfseg.memorySize.setWidth 32
      type := if elfseg.type ≠ PT_LOAD then .NOLOAD else loadedType elfsec
      kind := .elf (elfseg.virtualAddress.setWidth 32)
      buffer := elfseg.data }

end ElfSection

/-- Files that are not fully linked do not have segments, so their sections are used
instead. -/
def ElfBinary.sections (elf : Elfio) : Except Error (List BinarySection) :=
  if elf.segments.length > 0 then
    elf.segments.zipIdx.mapM fun (elfseg, index) => ElfSection.ofSegment elf elfseg index
  else .ok (elf.sections.map ElfSection.ofSection)

/-- `ElfBinary::ElfBinary`, with the file ELFIO keeps. -/
def ElfBinary.load (formats : Formats) (fs : FileSystem) (path : String) :
    Except Error (LoadedBinary × Elfio) := do
  let data ← readFile fs path
  let elf := formats.elf data
  let sections ← sections elf
  return (⟨⟨filename path, .elf, sections⟩, path, data⟩, elf)

/-! ### DOL -/

def DolSection.ofNin (file : Bytes) (dolsection : NinDolSection) : BinarySection where
  name := dolsection.name
  offset := dolsection.offset
  length := dolsection.length
  type := if dolsection.isText then .TEXT else if dolsection.isBss then .BSS else .DATA
  kind := .dol dolsection.address
  buffer := file.drop dolsection.offset.toNat

/-- `Dol::Dol`. -/
def Dol.load (formats : Formats) (fs : FileSystem) (path : String) :
    Except Error LoadedBinary := do
  let data ← readFile fs path
  let secs ← formats.dol data
  return ⟨⟨filename path, .dol, secs.map (DolSection.ofNin data)⟩, path, data⟩

/-! ### REL -/

namespace RelSection

/-- `RelSection::RelSection`, with `setLoadInfo`. -/
def ofNin (file : Bytes) (rel : NinRel) (relsection : NinRelSection) : BinarySection :=
  let type : SectionType :=
    if relsection.length = 0 then .NOLOAD
    else if relsection.exec then .TEXT
    else if relsection.isBss then .BSS
    else .DATA
  { name := relsection.name
    offset := relsection.offset
    length := relsection.length
    type
    kind := .rel (if type = .BSS then rel.bssLoadAddr else rel.loadAddr + relsection.offset)
    buffer := file.drop relsection.offset.toNat }

end RelSection

namespace Rel

/-- The loop of `genSectionName`, whose variable is a byte: how many sections other than
`sec` have its type, as a byte again. -/
def countSimilar (sections : List BinarySection) (sec : BitVec 8) (type : SectionType) :
    (fuel : Nat) → (i count : BitVec 8) → Except Error (BitVec 8)
  | 0, _, _ => .error .outOfFuel
  | fuel + 1, i, count =>
    match sections[i.toNat]? with
    | none => .ok count
    | some s => countSimilar sections sec type fuel (i + 1)
        (if i ≠ sec ∧ s.type = type then count + 1 else count)

/-- A sensible default name for the section at an index. -/
def genSectionName (fuel : Nat) (sections : List BinarySection) (sec : BitVec 8) :
    Except Error String := do
  let s ← at? sections sec.toNat
  if s.type = .NOLOAD then return ""
  let similarSectionTypeCount ← countSimilar sections sec s.type fuel 0 0
  let sectionBaseName := match s.type with
    | .TEXT => ".text"
    | .BSS => ".bss"
    | .DATA => ".data"
    | .NOLOAD => ""
  if similarSectionTypeCount = 0 then return sectionBaseName
  return sectionBaseName ++ toString (similarSectionTypeCount.toNat + 1)

/-- One section more, named; the index is passed as a byte. -/
def pushSection (fuel : Nat) (sections : List BinarySection) (added : BinarySection) :
    Except Error (List BinarySection) := do
  let sections := sections ++ [added]
  let sec := BitVec.ofNat 8 (sections.length - 1)
  let name ← genSectionName fuel sections sec
  return sections.modify sec.toNat fun s => {s with name := name}

/-- `Rel::Rel`. -/
def load (formats : Formats) (fuel : Nat) (fs : FileSystem) (path : String) :
    Except Error LoadedBinary := do
  let data ← readFile fs path
  let rel ← formats.rel data
  let sections ← (rel.sections.map (RelSection.ofNin data rel)).foldlM (pushSection fuel) []
  let relocLUT := rel.rels.foldl
    (fun m (l, r) => FirstWins.insert BinaryLocation.operatorEq m l r) []
  return ⟨⟨filename path, .rel rel.moduleId relocLUT, sections⟩, path, data⟩

end Rel

end Ppc2cpp
