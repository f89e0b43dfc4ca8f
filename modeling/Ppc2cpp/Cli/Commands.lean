import Ppc2cpp.Analysis.NodesMatch
import Ppc2cpp.Cli.Project
import Ppc2cpp.DataFlow.DfgVisualizer
import Ppc2cpp.Lib.ArgumentList

/-! The commands of the tool.

Every command is a process of its own: it reads its arguments, opens the projects it is
about and ends with an exit code. What it leaves behind are files. An exception that nothing
catches ends the process where it is thrown. The texts that are printed are left out. -/
namespace Ppc2cpp
open ArgumentList

/-- What the process is given: libraries, tables, the order in which its `i`-th pair of
analyses enumerates sets, and the values of locals that nothing was assigned to. -/
structure Environment extends FileLibraries where
  disasm : Ppcdisasm
  orders : Nat → HashOrder × HashOrder
  steps : Nat
  unassignedType : Persistence.ProgramLoaderType
  unassignedMagic : Bytes

/-- What ends a process where it stands. -/
inductive Halt where
  | exit (code : Int)
  | threw (error : Error)
deriving DecidableEq, Repr

/-- How a process ends. -/
inductive Outcome where
  | halted (halt : Halt)
  /-- `main` returns. -/
  | returned
deriving DecidableEq, Repr

def orThrow {α : Type} (x : Except Error α) : Except Halt α := x.mapError Halt.threw

/-- `main` returns unless something was thrown. -/
def Outcome.of {α : Type} : Except Error α → Outcome
  | .ok _ => .returned
  | .error e => .halted (.threw e)

/-- `if (c) exit(code)`. -/
def exitIf (c : Prop) [Decidable c] (code : Int) : Except Halt Unit :=
  if c then .error (.exit code) else .ok ()

/-- `filesystem::is_regular_file`, or the exit. -/
def checkFile (fs : FileSystem) (code : Int) (path : String) : Except Halt Unit :=
  exitIf ((fs path).isNone = true) code

/-! ### File names -/

/-- `path.stem()` and `path.extension()`. -/
def splitExtension (path : String) : String × String :=
  let name := filename path
  match (name.splitOn ".").reverse with
  | last :: before :: rest =>
    let stem := ".".intercalate (before :: rest).reverse
    if stem = "" ∨ name = ".." then (name, "") else (stem, "." ++ last)
  | _ => (name, "")

namespace ElfProgramLoader

def elfmagic : Bytes := [0x7f, 0x45, 0x4c, 0x46]

/-- The loop over the files. A short file leaves the rest of `magic` as it was. -/
def isElfProgramFrom (fs : FileSystem) : (magic : Bytes) → List String → Bool
  | _, [] => true
  | magic, file :: rest =>
    let read := ((fs file).getD []).take 4
    let magic := read ++ magic.drop read.length
    magic == elfmagic && isElfProgramFrom fs magic rest

end ElfProgramLoader

def NinProgramLoader.isRvlProgram (files : List String) : Bool :=
  files.all fun file => (splitExtension file).2 == ".rel" || (splitExtension file).2 == ".dol"

/-! ### Numbers -/

/-- `atol`, as a `uint32_t`. -/
def atol (s : String) : BitVec 32 :=
  let chars := s.toList.dropWhile (· ∈ [' ', '\t', '\n', '\x0b', '\x0c', '\r'])
  let digits := if chars.head? = some '-' ∨ chars.head? = some '+' then chars.tail else chars
  let magnitude := (digits.takeWhile Char.isDigit).foldl
    (fun n c => 10 * n + (c.toNat - '0'.toNat)) 0
  let value : Int := if chars.head? = some '-' then -(min magnitude (2 ^ 63) : Nat)
    else (min magnitude (2 ^ 63 - 1) : Nat)
  BitVec.ofInt 32 value

namespace Environment
variable (E : Environment)

/-! ### create -/

structure CreateArgs where
  projectFile : String := ""
  projectName : String := ""
  inputFiles : List String := []
deriving DecidableEq, Repr

def createArg (fs : FileSystem) (arg : String) : Kind CreateArgs Halt :=
  if arg = "--out" ∨ arg = "-o" then .one (.exit 2) fun value options =>
    .ok {options with projectFile := value}
  else if arg = "--name" ∨ arg = "-n" then .one (.exit 3) fun value options =>
    .ok {options with projectName := value}
  else if arg = "--help" ∨ arg = "-h" then .stop (.exit 0)
  else .plain fun options => do
    checkFile fs 4 arg
    return {options with inputFiles := options.inputFiles ++ [arg]}

/-- Infer program loader type from binaries. -/
def loaderTypeOf (fs : FileSystem) (inputFiles : List String) : Persistence.ProgramLoaderType :=
  if ElfProgramLoader.isElfProgramFrom fs E.unassignedMagic inputFiles then .LOADER_ELF
  else if NinProgramLoader.isRvlProgram inputFiles then .LOADER_RVL
  else E.unassignedType

def cliCreate (fs : FileSystem) (argv : List String) : Except Halt (FileSystem × Outcome) := do
  let args ← parse (createArg fs) argv {}
  exitIf (args.projectFile = "") 5
  let projectName := if args.projectName.length = 0 then (splitExtension args.projectFile).1
    else args.projectName
  exitIf (args.inputFiles.length = 0) 6
  let (fs, project) ← orThrow (E.createProject fs ⟨args.inputFiles, args.projectFile, projectName,
    E.loaderTypeOf fs args.inputFiles⟩)
  return (fs, .of project)

/-! ### importppcdis -/

structure ImportArgs where
  projectProtoFile : String := ""
  symbolMap : String := ""
  ppcdisInfoFiles : List PpcdisInfoFiles := []
deriving DecidableEq, Repr

def importArg (fs : FileSystem) (arg : String) : Kind ImportArgs Halt :=
  if arg = "--input" ∨ arg = "-i" then .one (.exit 7) fun value args => do
    checkFile fs 13 value
    return {args with projectProtoFile := value}
  else if arg = "--ppcdis" ∨ arg = "-p" then .three (.exit 8) fun binYaml labels relocs args => do
    checkFile fs 13 binYaml
    checkFile fs 13 labels
    checkFile fs 13 relocs
    return {args with ppcdisInfoFiles := args.ppcdisInfoFiles ++ [⟨binYaml, labels, relocs⟩]}
  else if arg = "--symbols" ∨ arg = "-s" then .one (.exit 9) fun value args => do
    checkFile fs 13 value
    return {args with symbolMap := value}
  else .stop (.exit 11)

def cliImportPpcdis (fs : FileSystem) (argv : List String) :
    Except Halt (FileSystem × Outcome) := do
  let args ← parse (importArg fs) argv {}
  exitIf (args.projectProtoFile = "") 10
  exitIf (args.symbolMap.length = 0) 12
  let project ← orThrow (E.openProject fs args.projectProtoFile)
  let project ← orThrow (E.importPpcdis fs project args.ppcdisInfoFiles args.symbolMap)
  let (fs, saved) := E.saveProject fs project
  return (fs, .of saved)

/-! ### checkflow -/

/-- What an analysis is told of a function. -/
def subject (L : ProgramLoader) (func : Symbol) : Except Error Subject :=
  match h : L.getBufferAtLocation func.location with
  | .ok (some buffer) => .ok ⟨E.disasm, L, func, buffer, h⟩
  | .ok none => .error .badOptionalAccess
  | .error e => .error e

def getLocOrExit (project : Project) (vma : BitVec 32) : Except Halt ProgramLocation :=
  match project.programLoader.toProgramLoader.resolveVMA vma with
  | some loc => .ok loc
  | none => .error (.exit 22)

/-- The symbols an argument stands for. -/
def findSymbols (project1 project2 : Project) (arg : String) :
    Except Halt (Option Symbol × Option Symbol) := do
  let symtab1 := project1.programLoader.symtab
  let symtab2 := project2.programLoader.symtab
  if atol arg ≠ 0 then
    let loc1 ← getLocOrExit project1 (atol arg)
    -- the first project again
    let loc2 ← getLocOrExit project1 (atol arg)
    return (symtab1.lookupByLocation loc1, symtab2.lookupByLocation loc2)
  else return (symtab1.lookupByName arg, symtab2.lookupByName arg)

/-- The `i`-th function. -/
def checkFunction (project1 project2 : Project) (arg : String) (i : Nat) : Except Halt Unit := do
  let (maybeSym1, maybeSym2) ← findSymbols project1 project2 arg
  let func1 ← maybeSym1.elim (.error (.exit 22)) .ok
  let func2 ← maybeSym2.elim (.error (.exit 22)) .ok
  let S₁ ← orThrow (E.subject project1.programLoader.toProgramLoader func1)
  let cfg1 ← orThrow (ControlFlowAnalysis.functionCFA S₁)
  let S₂ ← orThrow (E.subject project2.programLoader.toProgramLoader func2)
  let cfg2 ← orThrow (ControlFlowAnalysis.functionCFA S₂)
  let dfg1 ← orThrow (DataFlowAnalysis.functionDFA S₁ (E.orders i).1 cfg1 E.steps)
  let dfg2 ← orThrow (DataFlowAnalysis.functionDFA S₂ (E.orders i).2 cfg2 E.steps)
  let funcsEqual ← orThrow ((S₁.comparator S₂).compareFunctionFlows E.steps
    (S₁.function cfg1 dfg1) (S₂.function cfg2 dfg2))
  exitIf (funcsEqual = false) 23

def cliCheckflow (fs : FileSystem) : List String → Except Halt Outcome
  | projectFile1 :: projectFile2 :: name :: names => do
    checkFile fs 21 projectFile1
    checkFile fs 21 projectFile2
    let project1 ← orThrow (E.openProject fs projectFile1)
    let project2 ← orThrow (E.openProject fs projectFile2)
    (name :: names).zipIdx.forM fun (arg, i) => E.checkFunction project1 project2 arg i
    return .halted (.exit 0)
  | _ => .error (.exit 20)

/-! ### compare -/

def cliCompare (fs : FileSystem) : List String → Except Halt Outcome
  | [projectFile1, projectFile2] => do
    checkFile fs 16 projectFile1
    checkFile fs 16 projectFile2
    let project1 ← orThrow (E.openProject fs projectFile1)
    let project2 ← orThrow (E.openProject fs projectFile2)
    let programComparator : ProgramComparator := ⟨E.disasm,
      project1.programLoader.toProgramLoader, project2.programLoader.toProgramLoader⟩
    let equal ← orThrow (programComparator.comparePrograms E.steps)
    if equal then return .halted (.exit 0) else return .halted (.exit (-1))
  | _ => .error (.exit 15)

/-! ### viz -/

structure VizArgs where
  projectFile : String := ""
  vizFile : String := ""
  symName : String := ""
deriving DecidableEq, Repr

def vizArg (arg : String) : Kind VizArgs Halt :=
  if arg = "--out" ∨ arg = "-o" then .one (.exit 2) fun value args =>
    .ok {args with vizFile := value}
  else if arg = "--input" ∨ arg = "-i" then .one (.exit 3) fun value args =>
    .ok {args with projectFile := value}
  else if arg = "--help" ∨ arg = "-h" then .stop (.exit 0)
  else .plain fun args => .ok {args with symName := arg}

def textBytes (text : String) : Bytes := text.toUTF8.toList.map UInt8.toBitVec

/-- A stream that is not open swallows what is written to it. -/
def writeStream (fs : FileSystem) (path : String) (data : Bytes) : FileSystem :=
  if E.writable path then writeFile fs path data else fs

/-- What comes to the file of a graph. -/
def drawing (text : Except Error String) : Bytes :=
  match text with
  | .ok text => textBytes text
  | .error _ => E.torn

def cliViz (fs : FileSystem) (argv : List String) : Except Halt (FileSystem × Outcome) := do
  let args ← parse vizArg argv {}
  exitIf (args.projectFile = "" ∨ args.vizFile = "" ∨ args.symName = "") 8
  checkFile fs 16 args.projectFile
  let project ← orThrow (E.openProject fs args.projectFile)
  let programLoader := project.programLoader.toProgramLoader
  let func ← (programLoader.symtab.lookupByName args.symName).elim (.error (.exit 22)) .ok
  let S ← orThrow (E.subject programLoader func)
  let cfg ← orThrow (ControlFlowAnalysis.functionCFA S)
  let dfg ← orThrow (DataFlowAnalysis.functionDFA S (E.orders 0).1 cfg E.steps)
  let text := DfgVisualizer.outputDfgDot E.disasm programLoader (S.function cfg dfg)
  return (E.writeStream fs args.vizFile (E.drawing text), .of text)

/-! ### main -/

/-- The files after a command that may fail before it writes. -/
def finish (fs : FileSystem) : Except Halt (FileSystem × Outcome) → FileSystem × Outcome
  | .ok result => result
  | .error halt => (fs, .halted halt)

/-- The files after a command that writes none. -/
def finishReading (fs : FileSystem) : Except Halt Outcome → FileSystem × Outcome
  | .ok outcome => (fs, outcome)
  | .error halt => (fs, .halted halt)

def main (fs : FileSystem) : List String → FileSystem × Outcome
  | [] => (fs, .halted (.exit 1))
  | verb :: argv =>
    if verb = "create" then finish fs (E.cliCreate fs argv)
    else if verb = "importppcdis" then finish fs (E.cliImportPpcdis fs argv)
    else if verb = "checkflow" then finishReading fs (E.cliCheckflow fs argv)
    else if verb = "compare" then finishReading fs (E.cliCompare fs argv)
    else if verb = "viz" then finish fs (E.cliViz fs argv)
    else if verb = "--help" ∨ verb = "-h" then (fs, .halted (.exit 0))
    else (fs, .halted (.exit 1))

end Environment

end Ppc2cpp
