import Ppc2cpp.ProgramLoader.Loading

/-! A project saved and opened again.

The project file holds the path and the bytes of every binary and the two tables. Opening
it reads the binaries from their paths once more and takes only the tables from the
project file, so what the tables are about is whatever the files contain by then:
`fromProto_sameBytes_iff`. -/
namespace Ppc2cpp

namespace Persistence

structure ProgramLoaderBinary where
  filePath : String
  data : Bytes
deriving DecidableEq, Repr

structure ProgramLoader where
  formatVersion : Int
  loaderType : ProgramLoaderType
  binaries : List ProgramLoaderBinary
  symtab : SymbolTable
  reloctab : RelocTable
deriving DecidableEq, Repr

end Persistence

def LoadedBinary.toProto (b : LoadedBinary) : Persistence.ProgramLoaderBinary :=
  ⟨b.filepath, b.data⟩

namespace LoadedProgram

def toProto (P : LoadedProgram) : Persistence.ProgramLoader where
  formatVersion := 1
  loaderType := P.loaderType.toProto
  binaries := P.binaries.map LoadedBinary.toProto
  symtab := P.symtab.toProto
  reloctab := P.reloctab.toProto

/-- The symbol table is overridden if anything is already defined in the protos. -/
def restoreSymtab (symtabProto : Persistence.SymbolTable) (symtab : SymbolTable) :
    Except Error SymbolTable :=
  if symtabProto.symbols.length > 0 then
    -- an enumeration value out of range is undefined
    match SymbolTable.fromProto symtabProto with
    | some symtab => .ok symtab
    | none => .error .outOfRange
  else .ok symtab

/-- The relocation table likewise. -/
def restoreReloctab (reloctabProto : Persistence.RelocTable) (reloctab : RelocationTable) :
    RelocationTable :=
  if reloctabProto.relocs.length > 0 then RelocationTable.fromProto reloctabProto else reloctab

def fromProto (formats : Formats) (fuel : Nat) (fs : FileSystem)
    (loaderProto : Persistence.ProgramLoader) : Except Error LoadedProgram := do
  let binaryPaths := loaderProto.binaries.map Persistence.ProgramLoaderBinary.filePath
  let programLoader ← loadProgram formats fuel fs loaderProto.loaderType binaryPaths
  let symtab ← restoreSymtab loaderProto.symtab programLoader.symtab
  let reloctab := restoreReloctab loaderProto.reloctab programLoader.reloctab
  return {programLoader with symtab := symtab, reloctab := reloctab}

/-- Binary by binary, the programs hold the same bytes. -/
def SameBytes (P saved : LoadedProgram) : Prop :=
  P.binaries.map LoadedBinary.data = saved.binaries.map LoadedBinary.data

/-- At the path of every binary is the file it was read from. -/
def FilesUnchanged (fs : FileSystem) (saved : LoadedProgram) : Prop :=
  ∀ b ∈ saved.binaries, fs b.filepath = some b.data

section Reopened
variable {formats : Formats} {fuel : Nat} {fs : FileSystem} {saved P : LoadedProgram}

/-- The binaries of a reopened program are those of a fresh load. -/
theorem fromProto_loadedAs (h : fromProto formats fuel fs saved.toProto = .ok P) :
    P.loaderType = saved.loaderType ∧ List.Forall₂
      (fun b' b => b'.LoadedAs formats fuel fs b.filepath saved.loaderType)
      P.binaries saved.binaries := by
  simp only [fromProto, bind_eq_ok] at h
  obtain ⟨programLoader, hload, symtab, _, h⟩ := h
  cases h
  obtain ⟨htoProto, hfiles⟩ := loadProgram_files hload
  have htype : programLoader.loaderType = saved.loaderType := by
    revert htoProto
    dsimp only [toProto]
    cases programLoader.loaderType <;> cases saved.loaderType <;> simp [LoaderKind.toProto]
  have hpaths : saved.toProto.binaries.map Persistence.ProgramLoaderBinary.filePath =
      saved.binaries.map LoadedBinary.filepath := by
    simp [toProto, LoadedBinary.toProto, Function.comp_def]
  rw [hpaths, List.forall₂_map_left_iff, htype] at hfiles
  exact ⟨htype, hfiles.flip⟩

/-- What the binaries of a reopened program hold is what is at the saved paths. -/
theorem data_of_fromProto (h : fromProto formats fuel fs saved.toProto = .ok P) :
    P.binaries.map (fun b => some b.data) = saved.binaries.map (fun b => fs b.filepath) := by
  rw [← List.forall₂_eq_eq_eq, List.forall₂_map_left_iff, List.forall₂_map_right_iff]
  exact (fromProto_loadedAs h).2.imp fun _ _ hb => hb.readFrom.data.symm

end Reopened

end LoadedProgram

/-! ### A file that changes -/

namespace Excerpt

/-- An ELF file for the PowerPC that is a header alone. -/
def elfHeader (type flags : BitVec 8) : Bytes :=
  [0x7f, 0x45, 0x4c, 0x46, 1, 2, 1, 0, 0, 0, 0, 0, 0, 0, 0, 0, 0, type, 0, 0x14, 0, 0, 0, 1,
    0, 0, 0, 0, 0, 0, 0, 0, 0, 0, 0, 0, flags, 0, 0, 0, 0, 0x34, 0, 0, 0, 0, 0, 0x28, 0, 0, 0, 0]

/-- The formats, as far as such files go. -/
def headerFormats : Formats where
  elf data := ⟨data.getD 16 0 ++ data.getD 17 0, [], []⟩
  dol _ := .error (.runtimeError "not a DOL")
  rel _ := .error (.runtimeError "not a REL")

/-- A program of one object file. -/
def headerProgram (data : Bytes) : LoadedProgram :=
  { loaderType := .elf, binaries := [⟨⟨filename "main.o", .elf, []⟩, "main.o", data⟩] }

/-- The file with some content. -/
def headerFiles (data : Bytes) : FileSystem := fun path =>
  if path = "main.o" then some data else none

/-- Reopened, the program holds what the file contains by then. -/
theorem headerProgram_reopened (data data' : Bytes) :
    LoadedProgram.fromProto headerFormats 0 (headerFiles data') (headerProgram data).toProto =
      .ok { loaderType := .elf, binaries := (headerProgram data').binaries,
            symtab := SymbolTable.reindexed {},
            reloctab := RelocationTable.constructSourceIndex {} } := by
  rfl

end Excerpt

/-! ### What a reopened program holds -/

namespace LoadedProgram

/-- **A reopened program holds the bytes that were saved exactly when every file still
contains them.** The bytes in the project file play no part. -/
theorem fromProto_sameBytes_iff (formats : Formats) (fuel : Nat) (fs : FileSystem)
    (saved P : LoadedProgram) (h : fromProto formats fuel fs saved.toProto = .ok P) :
    P.SameBytes saved ↔ FilesUnchanged fs saved := by
  have hdata := data_of_fromProto h
  calc P.SameBytes saved
      ↔ (P.binaries.map LoadedBinary.data).map some =
          (saved.binaries.map LoadedBinary.data).map some :=
        (List.map_inj_right fun _ _ => Option.some.inj).symm
    _ ↔ saved.binaries.map (fun b => fs b.filepath) =
          saved.binaries.map (fun b => some b.data) := by
        rw [← hdata, List.map_map, List.map_map]
        rfl
    _ ↔ FilesUnchanged fs saved := List.map_inj_left

/-- An object file that is still as it was. -/
theorem fromProto_sameBytes_iff_unchanged :
    let data := Excerpt.elfHeader 1 0
    SameBytes { loaderType := .elf, binaries := (Excerpt.headerProgram data).binaries,
                symtab := SymbolTable.reindexed {},
                reloctab := RelocationTable.constructSourceIndex {} }
        (Excerpt.headerProgram data) ↔
      FilesUnchanged (Excerpt.headerFiles data) (Excerpt.headerProgram data) :=
  fromProto_sameBytes_iff Excerpt.headerFormats 0 _ _ _ (Excerpt.headerProgram_reopened _ _)

/-- The object file is built again, with other flags, between saving and opening: the
program opens, with the new bytes. -/
theorem reopened_otherBytes :
    ¬ ∀ (formats : Formats) (fuel : Nat) (fs : FileSystem) (saved P : LoadedProgram),
      fromProto formats fuel fs saved.toProto = .ok P → P.SameBytes saved := by
  intro h
  have hsame := h _ _ _ _ _
    (Excerpt.headerProgram_reopened (Excerpt.elfHeader 1 0) (Excerpt.elfHeader 1 0x80))
  revert hsame
  unfold SameBytes
  decide

end LoadedProgram

end Ppc2cpp
