import Ppc2cpp.Analysis.PpcdisAnalysis
import Ppc2cpp.ProgramLoader.Project

/-! Projects and the files they are kept in.

A project is opened from its file, changed in memory and saved. The file holds a message of
protobuf, which is no part of the repository (`ProjectFormat`). What an open project says of
the binaries comes from their files, and what it says of symbols and relocations comes from
the message, if that has any (`LoadedProgram.fromProto`). -/
namespace Ppc2cpp

namespace Persistence

/-- The top level persistence binary. -/
structure Project where
  formatVersion : Int
  projectName : String
  projectVersion : Int
  programLoader : ProgramLoader
deriving DecidableEq, Repr

end Persistence

/-! ### What loading looks at -/

section
variable {α β ε : Type}

theorem foldlM_congr_mem {f g : β → α → Except ε β} {xs : List α}
    (h : ∀ x ∈ xs, ∀ b, f b x = g b x) (b : β) : xs.foldlM f b = xs.foldlM g b := by
  induction xs generalizing b with
  | nil => rfl
  | cons x xs ih =>
    obtain ⟨hx, hxs⟩ := List.forall_mem_cons.mp h
    rw [List.foldlM_cons, List.foldlM_cons, hx b]
    exact congrArg _ (funext fun b => ih hxs b)

theorem mapM_congr_mem {f g : α → Except ε β} {xs : List α} (h : ∀ x ∈ xs, f x = g x) :
    xs.mapM f = xs.mapM g := by
  induction xs with
  | nil => rfl
  | cons x xs ih =>
    obtain ⟨hx, hxs⟩ := List.forall_mem_cons.mp h
    rw [List.mapM_cons, List.mapM_cons, hx, ih hxs]

end

/-- Loading looks at the files of the binaries alone. -/
theorem LoadedProgram.loadProgram_congr {formats : Formats} {fuel : Nat} {fs fs' : FileSystem}
    {loaderType : Persistence.ProgramLoaderType} {paths : List String}
    (h : ∀ path ∈ paths, fs path = fs' path) :
    loadProgram formats fuel fs loaderType paths = loadProgram formats fuel fs' loaderType paths := by
  cases loaderType with
  | LOADER_UNSPECIFIED => rfl
  | LOADER_RVL =>
    rw [loadProgram, loadProgram, NinProgramLoader.load, NinProgramLoader.load,
      mapM_congr_mem fun path hpath => NinProgramLoader.loadBinary_congr (h path hpath)]
  | LOADER_ELF =>
    have hround : ∀ path ∈ paths, ∀ st, ElfProgramLoader.loadBinary formats fs st path =
        ElfProgramLoader.loadBinary formats fs' st path := by
      intro path hpath st
      rw [ElfProgramLoader.loadBinary, ElfProgramLoader.loadBinary,
        ElfBinary.load_congr (h path hpath)]
    rw [loadProgram, loadProgram, ElfProgramLoader.load, ElfProgramLoader.load,
      foldlM_congr_mem hround]

/-! ### The project file -/

/-- A message that could be written is read back; it can be too large. -/
structure ProjectFormat where
  serialize : Persistence.Project → Option Bytes
  parse : Bytes → Option Persistence.Project
  parse_serialize : ∀ p data, serialize p = some data → parse data = some p

/-- What YAML and protobuf make of the files of ppcdis, or of one that is not there. -/
structure PpcdisFormats where
  binConfig : Option Bytes → Except Error Ppcdis.BinConfig
  labelInfo : Option Bytes → Except Error (Ppcdis.AddressMap Ppcdis.Label)
  relocInfo : Option Bytes → Except Error (Ppcdis.AddressMap Ppcdis.Reloc)
  symbolMap : Option Bytes → Except Error (List (BitVec 32 × String))

/-- The libraries that read and write files, and the files that can be written. -/
structure FileLibraries where
  formats : Formats
  fuel : Nat
  projects : ProjectFormat
  ppcdis : PpcdisFormats
  writable : String → Bool
  /-- What is in a file when writing it was cut short. -/
  torn : Bytes

/-- Configuration passed to `createProject` when a user creates a new project. -/
structure ProjectCreationOptions where
  /-- Path of input files (binaries) for program loader. -/
  inputFiles : List String
  /-- Output path of the created project persistence file. -/
  projectFile : String
  projectName : String
  programLoaderType : Persistence.ProgramLoaderType
deriving DecidableEq, Repr

structure Project where
  name : String
  programLoader : LoadedProgram
  projectFile : String
deriving Repr

/-- The file at `path` has other content. -/
def writeFile (fs : FileSystem) (path : String) (data : Bytes) : FileSystem :=
  Function.update fs path (some data)

@[simp] theorem writeFile_self (fs : FileSystem) (path : String) (data : Bytes) :
    writeFile fs path data path = some data :=
  Function.update_self ..

@[simp] theorem writeFile_of_ne {fs : FileSystem} {path path' : String} {data : Bytes}
    (h : path' ≠ path) : writeFile fs path data path' = fs path' :=
  Function.update_of_ne h ..

namespace FileLibraries
variable (E : FileLibraries)

def readers (fs : FileSystem) : PpcdisReaders where
  binConfig path := E.ppcdis.binConfig (fs path)
  labelInfo path := E.ppcdis.labelInfo (fs path)
  relocInfo path := E.ppcdis.relocInfo (fs path)
  symbolMap path := E.ppcdis.symbolMap (fs path)

def openProject (fs : FileSystem) (projectFile : String) : Except Error Project := do
  match (fs projectFile).bind E.projects.parse with
  | none => throw (.runtimeError "Failed to read project file")
  | some projectProto =>
    let programLoader ← LoadedProgram.fromProto E.formats E.fuel fs projectProto.programLoader
    return ⟨projectProto.projectName, programLoader, projectFile⟩

/-- The message of a project, in the current version of the format. -/
def projectProto (name : String) (programLoader : LoadedProgram) : Persistence.Project where
  formatVersion := 1
  projectName := name
  projectVersion := 1
  programLoader := programLoader.toProto

def writeFailed : Error := .runtimeError "Failed to write project file"

/-- The files after writing a project to `path`. The file is opened first, and empty then. -/
def writeProject (fs : FileSystem) (path : String) (name : String) (programLoader : LoadedProgram) :
    FileSystem × Except Error Unit :=
  if E.writable path then
    match E.projects.serialize (projectProto name programLoader) with
    | some data => (writeFile fs path data, .ok ())
    | none => (writeFile fs path E.torn, .error writeFailed)
  else (fs, .error writeFailed)

def saveProjectAs (fs : FileSystem) (project : Project) (projectFile : String) :
    FileSystem × Except Error Unit :=
  E.writeProject fs projectFile project.name project.programLoader

def saveProject (fs : FileSystem) (project : Project) : FileSystem × Except Error Unit :=
  E.saveProjectAs fs project project.projectFile

/-- The files after creating a project; it is opened in the end. -/
def createProject (fs : FileSystem) (options : ProjectCreationOptions) :
    Except Error (FileSystem × Except Error Project) := do
  let pLoader ← LoadedProgram.loadProgram E.formats E.fuel fs options.programLoaderType
    options.inputFiles
  let (fs, written) := E.writeProject fs options.projectFile options.projectName pLoader
  return (fs, written.bind fun _ => E.openProject fs options.projectFile)

end FileLibraries

/-- A program with its analysis information taken from elsewhere. -/
def LoadedProgram.withAnalysis (P : LoadedProgram) (L : ProgramLoader) : LoadedProgram :=
  {P with
    binaries := List.zipWith (fun b binary => {b with toBinary := binary}) P.binaries L.binaries
    symtab := L.symtab
    reloctab := L.reloctab}

/-- `loadAnalysisFromPpcdis` on the program of a project. -/
def FileLibraries.importPpcdis (E : FileLibraries) (fs : FileSystem) (project : Project)
    (ppcdisInfo : List PpcdisInfoFiles) (symmapPath : String) : Except Error Project := do
  let pLoader ← loadAnalysisFromPpcdis (E.readers fs) project.programLoader.toProgramLoader
    ppcdisInfo symmapPath
  return {project with programLoader := project.programLoader.withAnalysis pLoader}

end Ppc2cpp
