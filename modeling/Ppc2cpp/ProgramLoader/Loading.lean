import Ppc2cpp.Model.Persistence
import Ppc2cpp.ProgramLoader.Formats
import Ppc2cpp.ProgramLoader.ProgramLoader

/-! Loading a program from its files.

`ElfProgramLoader` registers the symbols of each file as it is read, and the relocations
of all of them once the symbols are indexed. `NinProgramLoader` chooses the format by the
extension of the file and registers a relocation for every branch of a REL.

Whatever the format, a binary is read from its path: `loadProgram_files`. -/
namespace Ppc2cpp

/-- A program with the files it was loaded from. -/
structure LoadedProgram where
  loaderType : LoaderKind
  binaries : List LoadedBinary
  symtab : SymbolTable := {}
  reloctab : RelocationTable := {}
deriving Repr

/-- The program without its files. -/
def LoadedProgram.toProgramLoader (P : LoadedProgram) : ProgramLoader where
  kind := P.loaderType
  binaries := P.binaries.map LoadedBinary.toBinary
  symtab := P.symtab
  reloctab := P.reloctab

/-! ### ELF -/

namespace ElfProgramLoader

def ET_REL : BitVec 16 := 1
def SHN_UNDEF : BitVec 16 := 0
def SHN_LORESERVE : BitVec 16 := 0xff00
def SHN_ABS : BitVec 16 := 0xfff1

def getElfSymbolLocation (P : LoadedProgram) (binaryIdx : Nat) (sectionIndex : BitVec 16)
    (value : BitVec 64) (interpretSymValueAsAddr : Bool) : Except Error ProgramLocation :=
  if interpretSymValueAsAddr ∨ sectionIndex = SHN_ABS then
    match P.toProgramLoader.resolveVMA (value.setWidth 32) with
    | some maybeSymLoc => .ok maybeSymLoc
    | none => .error (.assertFailed ("Could not resolve symbol at address 0x" ++
        String.ofList (Nat.toDigits 16 value.toNat)))
  else .ok ⟨⟨sectionIndex.toNat, value.setWidth 32⟩, binaryIdx⟩

/-- One entry of a symbol section. Only objects, functions and untyped symbols with a
definition in the file are registered. -/
def registerSymbol (P : LoadedProgram) (elf : Elfio) (binaryIdx : Nat) (symtab : SymbolTable)
    (symbol : ElfSymbol) : Except Error SymbolTable := do
  if symbol.sectionIndex ≠ SHN_UNDEF ∧
      (symbol.sectionIndex = SHN_ABS ∨ symbol.sectionIndex.ult SHN_LORESERVE) then
    match SymbolType.ofUInt32 (symbol.type.setWidth 32) with
    | none => return symtab
    | some symbolType =>
      let symLocation ← getElfSymbolLocation P binaryIdx symbol.sectionIndex symbol.value
        (elf.type ≠ ET_REL)
      return symtab.pushBack ⟨symbol.name, symLocation, symbol.size.setWidth 32, symbolType,
        SymbolBinding.ofUInt32 (symbol.bind.setWidth 32)⟩
  else return symtab

def registerSymbols (P : LoadedProgram) (elf : Elfio) (binaryIdx : Nat) :
    Except Error SymbolTable :=
  ((elf.sections.filter (·.type = SHT_SYMTAB)).flatMap ElfioSection.symbols).foldlM
    (registerSymbol P elf binaryIdx) P.symtab

/-- `ProgramLoader::resolveByName`. -/
def resolveByName (P : LoadedProgram) (name : String) : Option ProgramLocation :=
  (P.symtab.lookupByName name).map Symbol.location

def getElfRelocDest (P : LoadedProgram) (accessor : ElfioSection) (symIdx : BitVec 32)
    (binaryIdx : Nat) (interpretSymValueAsAddr : Bool) : Except Error ProgramLocation := do
  let symbol ← at? accessor.symbols symIdx.toNat
  if symbol.sectionIndex ≠ SHN_UNDEF then
    getElfSymbolLocation P binaryIdx symbol.sectionIndex symbol.value interpretSymValueAsAddr
  else
    -- a reference to an undefined symbol only warns
    return (resolveByName P symbol.name).getD ⟨⟨0, 0⟩, 0⟩

/-- The entries of one relocation section. -/
def registerSection (P : LoadedProgram) (elf : Elfio) (binaryIdx : Nat)
    (reloctab : RelocationTable) (psec : ElfioSection) : Except Error RelocationTable := do
  let elfSymTab ← at? elf.sections psec.link.toNat
  psec.relocations.foldlM (fun reloctab entry => do
    let relocSource : ProgramLocation := ⟨⟨psec.info.toInt, entry.offset.setWidth 32⟩, binaryIdx⟩
    let relocDest ← getElfRelocDest P elfSymTab entry.symbol binaryIdx (elf.type ≠ ET_REL)
    return reloctab.pushBack ⟨relocSource, relocDest, entry.type.setWidth 8,
      (entry.addend.setWidth 32).toInt⟩) reloctab

def registerRelocations (P : LoadedProgram) (reloctab : RelocationTable) (elf : Elfio)
    (binaryIdx : Nat) : Except Error RelocationTable :=
  (elf.sections.filter (·.type = SHT_RELA)).foldlM (registerSection P elf binaryIdx) reloctab

/-- One file of the first loop, which keeps what ELFIO made of each. -/
def loadBinary (formats : Formats) (fs : FileSystem) :
    LoadedProgram × List Elfio → String → Except Error (LoadedProgram × List Elfio)
  | (P, elfs), path => do
    let (binary, elf) ← ElfBinary.load formats fs path
    let P := {P with binaries := P.binaries ++ [binary]}
    let symtab ← registerSymbols P elf (P.binaries.length - 1)
    return ({P with symtab := symtab}, elfs ++ [elf])

/-- `ElfProgramLoader::ElfProgramLoader`. -/
def load (formats : Formats) (fs : FileSystem) (binaryPaths : List String) :
    Except Error LoadedProgram := do
  let (P, elfs) ← binaryPaths.foldlM (loadBinary formats fs)
    ({loaderType := .elf, binaries := []}, [])
  let P := {P with symtab := P.symtab.constructNameIndex.constructLocationIndex}
  let reloctab ← elfs.zipIdx.foldlM
    (fun reloctab (elf, i) => registerRelocations P reloctab elf i) P.reloctab
  return {P with reloctab := reloctab.constructSourceIndex}

end ElfProgramLoader

/-! ### DOL and REL -/

/-- `Binary::findSectionByOffset`. -/
def Binary.findSectionByOffset (b : Binary) (off : BitVec 32) : Option Nat :=
  b.sections.findIdx? fun sec => off.ule sec.offset && sec.offset.ult (off + sec.length)

namespace NinProgramLoader

/-- `filename.substr(filename.find_last_of("."))`. -/
def fileExtension (filename : String) : Except Error String :=
  match (filename.splitOn ".").reverse with
  | last :: _ :: _ => .ok ("." ++ last)
  | _ => .error .outOfRange

/-- One file of the first loop. -/
def loadBinary (formats : Formats) (fuel : Nat) (fs : FileSystem) (binaryPath : String) :
    Except Error LoadedBinary := do
  let _ ← readFile fs binaryPath
  let fileExtension ← fileExtension (filename binaryPath)
  if fileExtension = ".dol" then Dol.load formats fs binaryPath
  else if fileExtension = ".rel" then Rel.load formats fuel fs binaryPath
  else throw (.runtimeError ("Unknown extension " ++ fileExtension))

/-- The instruction `j` words into section `i` of the REL at `binaryIdx`. -/
def registerRel24Reloc (rel : Binary) (binaryIdx i : Nat) (s : BinarySection)
    (reloctab : RelocationTable) (j : Nat) : RelocationTable :=
  let insn := be32 s.buffer j
  if isBranchUncoditional insn then
    let branchVal := branchValue insn
    let targetOff : BitVec 32 := s.offset + BitVec.ofNat 32 (4 * j) + BitVec.ofInt 32 branchVal
    match rel.findSectionByOffset targetOff with
    | some maybeTargetSection => reloctab.pushBack ⟨⟨⟨i, BitVec.ofNat 32 (4 * j)⟩, binaryIdx⟩,
        ⟨⟨maybeTargetSection, targetOff⟩, binaryIdx⟩, relocREL24, 0⟩
    | none => reloctab
  else reloctab

def registerRel24Relocs (reloctab : RelocationTable) (rel : Binary) (binaryIdx : Nat) :
    RelocationTable :=
  rel.sections.zipIdx.foldl (fun reloctab (s, i) =>
    if s.type = .TEXT then
      (List.range (s.length.toNat / 4)).foldl (registerRel24Reloc rel binaryIdx i s) reloctab
    else reloctab) reloctab

/-- `NinProgramLoader::NinProgramLoader`. -/
def load (formats : Formats) (fuel : Nat) (fs : FileSystem) (binaryPaths : List String) :
    Except Error LoadedProgram := do
  let binaries ← binaryPaths.mapM (loadBinary formats fuel fs)
  let reloctab := binaries.zipIdx.foldl (fun reloctab (b, i) =>
    match b.kind with
    | .rel _ _ => registerRel24Relocs reloctab b.toBinary i
    | _ => reloctab) {}
  return {loaderType := .rvl, binaries := binaries, reloctab := reloctab}

end NinProgramLoader

/-! ### Either -/

namespace Persistence

/-- What program loader the project uses. -/
inductive ProgramLoaderType where
  | LOADER_UNSPECIFIED | LOADER_RVL | LOADER_ELF
deriving DecidableEq, Repr

end Persistence

def LoaderKind.toProto : LoaderKind → Persistence.ProgramLoaderType
  | .elf => .LOADER_ELF
  | .rvl => .LOADER_RVL

namespace LoadedProgram

/-- `ProgramLoader::loadProgram`, which does not look at the version. -/
def loadProgram (formats : Formats) (fuel : Nat) (fs : FileSystem)
    (loaderType : Persistence.ProgramLoaderType) (binaryPaths : List String) :
    Except Error LoadedProgram :=
  match loaderType with
  | .LOADER_RVL => NinProgramLoader.load formats fuel fs binaryPaths
  | .LOADER_ELF => ElfProgramLoader.load formats fs binaryPaths
  | .LOADER_UNSPECIFIED => .error (.runtimeError ("Unknown program loader type " ++ toString 0))

end LoadedProgram

/-! ### Every binary is read from its path -/

/-- The binary holds what the file at `path` contains. -/
structure LoadedBinary.ReadFrom (fs : FileSystem) (path : String) (b : LoadedBinary) : Prop where
  filepath : b.filepath = path
  data : fs path = some b.data

theorem readFile_eq_ok {fs : FileSystem} {path : String} {data : Bytes} :
    readFile fs path = .ok data ↔ fs path = some data := by
  unfold readFile
  cases fs path <;> simp

section Files
variable {formats : Formats} {fuel : Nat} {fs : FileSystem} {path : String}

theorem ElfBinary.load_readFrom {b : LoadedBinary} {elf : Elfio}
    (h : ElfBinary.load formats fs path = .ok (b, elf)) : b.ReadFrom fs path := by
  simp only [ElfBinary.load, bind_eq_ok] at h
  obtain ⟨data, hdata, sections, _, h⟩ := h
  cases h
  exact ⟨rfl, readFile_eq_ok.mp hdata⟩

theorem Dol.load_readFrom {b : LoadedBinary} (h : Dol.load formats fs path = .ok b) :
    b.ReadFrom fs path := by
  simp only [Dol.load, bind_eq_ok] at h
  obtain ⟨data, hdata, secs, _, h⟩ := h
  cases h
  exact ⟨rfl, readFile_eq_ok.mp hdata⟩

theorem Rel.load_readFrom {b : LoadedBinary} (h : Rel.load formats fuel fs path = .ok b) :
    b.ReadFrom fs path := by
  simp only [Rel.load, bind_eq_ok] at h
  obtain ⟨data, hdata, rel, _, sections, _, h⟩ := h
  cases h
  exact ⟨rfl, readFile_eq_ok.mp hdata⟩

theorem NinProgramLoader.loadBinary_readFrom {b : LoadedBinary}
    (h : NinProgramLoader.loadBinary formats fuel fs path = .ok b) : b.ReadFrom fs path := by
  simp only [NinProgramLoader.loadBinary, bind_eq_ok] at h
  obtain ⟨_, _, extension, _, h⟩ := h
  split at h
  · exact Dol.load_readFrom h
  · split at h
    · exact Rel.load_readFrom h
    · cases h

/-- Loading one file looks at nothing else. -/
theorem readFile_congr {fs' : FileSystem} (h : fs path = fs' path) :
    readFile fs path = readFile fs' path := by
  rw [readFile, readFile, h]

theorem ElfBinary.load_congr {fs' : FileSystem} (h : fs path = fs' path) :
    ElfBinary.load formats fs path = ElfBinary.load formats fs' path := by
  simp only [ElfBinary.load, readFile_congr h]

theorem NinProgramLoader.loadBinary_congr {fs' : FileSystem} (h : fs path = fs' path) :
    loadBinary formats fuel fs path = loadBinary formats fuel fs' path := by
  simp only [loadBinary, Dol.load, Rel.load, readFile_congr h]

end Files

/-- What a loader of a kind makes of the file at `path`. -/
def LoadedBinary.LoadedAs (formats : Formats) (fuel : Nat) (fs : FileSystem) (path : String)
    (b : LoadedBinary) : LoaderKind → Prop
  | .elf => ∃ elf, ElfBinary.load formats fs path = .ok (b, elf)
  | .rvl => NinProgramLoader.loadBinary formats fuel fs path = .ok b

namespace LoadedBinary.LoadedAs
variable {formats : Formats} {fuel : Nat} {fs : FileSystem} {path : String}
  {b : LoadedBinary} {kind : LoaderKind}

theorem readFrom (h : b.LoadedAs formats fuel fs path kind) : b.ReadFrom fs path := by
  cases kind with
  | elf =>
    obtain ⟨elf, hload⟩ := h
    exact ElfBinary.load_readFrom hload
  | rvl => exact NinProgramLoader.loadBinary_readFrom h

end LoadedBinary.LoadedAs

/-- A list computed element by element. -/
theorem forall₂_of_mapM {α β : Type} {f : α → Except Error β} {R : α → β → Prop}
    (hf : ∀ a b, f a = .ok b → R a b) {xs : List α} {ys : List β} (h : xs.mapM f = .ok ys) :
    List.Forall₂ R xs ys := by
  induction xs generalizing ys with
  | nil =>
    cases h
    exact .nil
  | cons x xs ih =>
    simp only [List.mapM_cons, bind_eq_ok] at h
    obtain ⟨y, hy, rest, hrest, h⟩ := h
    cases h
    exact .cons (hf x y hy) (ih hrest)

theorem forall₂_getElem? {α β : Type} {R : α → β → Prop} {xs : List α} {ys : List β}
    (h : List.Forall₂ R xs ys) {i : Nat} {a : α} (ha : xs[i]? = some a) :
    ∃ b, ys[i]? = some b ∧ R a b := by
  induction h generalizing i with
  | nil => cases ha
  | cons hab _ ih =>
    cases i with
    | zero =>
      cases ha
      exact ⟨_, rfl, hab⟩
    | succ i => exact ih ha

theorem forall₂_exists_left {α β : Type} {R : α → β → Prop} {xs : List α} {ys : List β}
    (h : List.Forall₂ R xs ys) {b : β} (hb : b ∈ ys) : ∃ a ∈ xs, R a b := by
  induction h with
  | nil => cases hb
  | cons hab _ ih =>
    rcases List.mem_cons.mp hb with rfl | hb
    · exact ⟨_, List.mem_cons_self .., hab⟩
    · obtain ⟨a, ha, hR⟩ := ih hb
      exact ⟨a, List.mem_cons_of_mem _ ha, hR⟩

section Programs
variable {formats : Formats} {fuel : Nat} {fs : FileSystem} {binaryPaths : List String}

/-- One file more is one binary more. -/
theorem ElfProgramLoader.binaries_loadedAs {P P' : LoadedProgram} {elfs elfs' : List Elfio}
    {before : List String}
    (hP : List.Forall₂ (fun path b => b.LoadedAs formats fuel fs path .elf) before P.binaries)
    (h : binaryPaths.foldlM (ElfProgramLoader.loadBinary formats fs) (P, elfs) = .ok (P', elfs')) :
    P'.loaderType = P.loaderType ∧ List.Forall₂
      (fun path b => b.LoadedAs formats fuel fs path .elf) (before ++ binaryPaths) P'.binaries := by
  induction binaryPaths generalizing P elfs before with
  | nil =>
    cases h
    simpa using hP
  | cons path rest ih =>
    simp only [List.foldlM_cons, bind_eq_ok, Prod.exists, ElfProgramLoader.loadBinary] at h
    obtain ⟨Q, elfsQ, ⟨b, elf, hb, symtab, _, hQ⟩, h⟩ := h
    cases hQ
    simpa using ih (List.rel_append hP (.cons ⟨elf, hb⟩ .nil)) h

/-- **A loaded program has one binary for each path, in order, made of the file there.** -/
theorem LoadedProgram.loadProgram_files {loaderType : Persistence.ProgramLoaderType}
    {P : LoadedProgram} (h : loadProgram formats fuel fs loaderType binaryPaths = .ok P) :
    P.loaderType.toProto = loaderType ∧ List.Forall₂
      (fun path b => b.LoadedAs formats fuel fs path P.loaderType) binaryPaths P.binaries := by
  cases loaderType with
  | LOADER_UNSPECIFIED => cases h
  | LOADER_RVL =>
    simp only [loadProgram, NinProgramLoader.load, bind_eq_ok] at h
    obtain ⟨binaries, hbinaries, h⟩ := h
    cases h
    exact ⟨rfl, forall₂_of_mapM (fun _ _ hb => hb) hbinaries⟩
  | LOADER_ELF =>
    simp only [loadProgram, ElfProgramLoader.load, bind_eq_ok, Prod.exists] at h
    obtain ⟨Q, elfs, hQ, reloctab, _, h⟩ := h
    cases h
    obtain ⟨htype, hbinaries⟩ := ElfProgramLoader.binaries_loadedAs .nil hQ
    dsimp only at htype ⊢
    rw [htype]
    exact ⟨rfl, hbinaries⟩

end Programs

end Ppc2cpp
