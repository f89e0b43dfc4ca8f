import Ppc2cpp.Cli.Commands
import Ppc2cpp.Cli.Messages
import Ppc2cpp.ControlFlow.Assembled
import Ppc2cpp.ProgramLoader.FreshIndexes

/-! What becomes of a project.

Commands are run one after another, and between them other programs change files. Of a
project nothing but its file is left when a command ends. Whatever a run does, short of
replacing the file, the project keeps its name, its binaries and every entry of its tables
(`created_project_kept`). -/
namespace Ppc2cpp

/-! ### One command -/

namespace ProjectFormat
variable {F : ProjectFormat} {fs fs' : FileSystem} {path : String} {m : Persistence.Project}

/-- The project file at `path` holds this message. -/
def Holds (F : ProjectFormat) (fs : FileSystem) (path : String) (m : Persistence.Project) : Prop :=
  (fs path).bind F.parse = some m

theorem holds_writeFile {data : Bytes} (h : F.serialize m = some data) :
    F.Holds (writeFile fs path data) path m := by
  rw [Holds, writeFile_self]
  exact F.parse_serialize m data h

theorem Holds.congr (h : F.Holds fs path m) (heq : fs' path = fs path) : F.Holds fs' path m := by
  rw [Holds, heq]
  exact h

theorem Holds.unique {m' : Persistence.Project} (h : F.Holds fs path m) (h' : F.Holds fs path m') :
    m = m' :=
  Option.some.inj (h.symm.trans h')

end ProjectFormat

namespace FileLibraries
variable {E : FileLibraries} {fs fs' : FileSystem} {path : String}

theorem openProject_eq_ok {project : Project} (h : E.openProject fs path = .ok project) :
    project.projectFile = path ∧ ∃ m, E.projects.Holds fs path m ∧ m.projectName = project.name ∧
      LoadedProgram.fromProto E.formats E.fuel fs m.programLoader = .ok project.programLoader := by
  unfold openProject at h
  split at h
  · cases h
  · rename_i m hm
    obtain ⟨P, hP, h⟩ := bind_eq_ok.mp h
    cases h
    exact ⟨rfl, m, hm, rfl, hP⟩

theorem writeProject_of_ne (fs : FileSystem) (name : String) (P : LoadedProgram) {path' : String}
    (h : path' ≠ path) : (E.writeProject fs path' name P).1 path = fs path := by
  unfold writeProject
  split_ifs
  · cases E.projects.serialize (projectProto name P) <;> exact writeFile_of_ne h.symm
  · rfl

/-- A project that could be saved is in its file. -/
theorem writeProject_holds {name : String} {P : LoadedProgram}
    (h : (E.writeProject fs path name P).2 = .ok ()) :
    E.projects.Holds (E.writeProject fs path name P).1 path (projectProto name P) := by
  unfold writeProject at h ⊢
  split_ifs at h ⊢
  cases hdata : E.projects.serialize (projectProto name P) with
  | none =>
    rw [hdata] at h
    cases h
  | some data => exact ProjectFormat.holds_writeFile hdata

/-- A file that cannot be written is as it was. -/
theorem writeProject_of_not_writable (name : String) (P : LoadedProgram)
    (h : E.writable path = false) : E.writeProject fs path name P = (fs, .error writeFailed) := by
  rw [writeProject, h]
  rfl

theorem writeProject_error {name : String} {P : LoadedProgram} {e : Error}
    (h : (E.writeProject fs path name P).2 = .error e) : e = writeFailed := by
  unfold writeProject at h
  split_ifs at h
  · cases hdata : E.projects.serialize (projectProto name P) with
    | none =>
      rw [hdata] at h
      exact (Except.error.inj h).symm
    | some data =>
      rw [hdata] at h
      cases h
  · exact (Except.error.inj h).symm

end FileLibraries

namespace Environment
open ArgumentList
variable {E : Environment} {fs fs' : FileSystem} {argv : List String} {path : String}
  {outcome : Outcome}

theorem bindHalt_eq_ok {α β : Type} {x : Except Halt α} {f : α → Except Halt β} {b : β} :
    (x >>= f) = .ok b ↔ ∃ a, x = .ok a ∧ f a = .ok b :=
  bind_ok_iff

theorem orThrow_eq_ok {α : Type} {x : Except Error α} {a : α} : orThrow x = .ok a ↔ x = .ok a := by
  cases x <;> simp [orThrow, Except.mapError]

/-- The name of the project, the stem of the file if none is given. -/
def CreateArgs.name (args : CreateArgs) : String :=
  if args.projectName.length = 0 then (splitExtension args.projectFile).1 else args.projectName

/-- What `create` does when it has come to writing. -/
theorem cliCreate_eq_ok (h : E.cliCreate fs argv = .ok (fs', outcome)) : ∃ args P written,
    parse (createArg fs) argv {} = .ok args ∧ LoadedProgram.loadProgram E.formats E.fuel fs
      (E.loaderTypeOf fs args.inputFiles) args.inputFiles = .ok P ∧
    E.writeProject fs args.projectFile args.name P = (fs', written) ∧
    outcome = .of (written.bind fun _ => E.openProject fs' args.projectFile) := by
  obtain ⟨args, hargs, h⟩ := bindHalt_eq_ok.mp h
  obtain ⟨_, _, h⟩ := bindHalt_eq_ok.mp h
  obtain ⟨_, _, h⟩ := bindHalt_eq_ok.mp h
  obtain ⟨⟨written, opened⟩, hcreate, h⟩ := bindHalt_eq_ok.mp h
  cases h
  obtain ⟨P, hload, hcreate⟩ := bind_eq_ok.mp (orThrow_eq_ok.mp hcreate)
  cases hcreate
  exact ⟨args, P, _, hargs, hload, rfl, rfl⟩

theorem exitIf_eq_ok {c : Prop} [Decidable c] {code : Int} {u : Unit} :
    exitIf c code = .ok u ↔ ¬c := by
  unfold exitIf
  split_ifs with hc <;> simp [hc]

/-- The arguments that `importppcdis` needs are there. -/
def ImportArgs.Complete (args : ImportArgs) : Prop :=
  args.projectProtoFile ≠ "" ∧ args.symbolMap.length ≠ 0

/-- What `importppcdis` does when it has come to writing. -/
theorem cliImportPpcdis_eq_ok (h : E.cliImportPpcdis fs argv = .ok (fs', outcome)) :
    ∃ args project L saved, parse (importArg fs) argv {} = .ok args ∧ args.Complete ∧
      E.openProject fs args.projectProtoFile = .ok project ∧
      loadAnalysisFromPpcdis (E.readers fs) project.programLoader.toProgramLoader
        args.ppcdisInfoFiles args.symbolMap = .ok L ∧
      E.writeProject fs args.projectProtoFile project.name (project.programLoader.withAnalysis L) =
        (fs', saved) ∧ outcome = .of saved := by
  obtain ⟨args, hargs, h⟩ := bindHalt_eq_ok.mp h
  obtain ⟨_, hfile, h⟩ := bindHalt_eq_ok.mp h
  obtain ⟨_, hmap, h⟩ := bindHalt_eq_ok.mp h
  obtain ⟨project, hopen, h⟩ := bindHalt_eq_ok.mp h
  obtain ⟨imported, himport, h⟩ := bindHalt_eq_ok.mp h
  cases h
  have hopen := orThrow_eq_ok.mp hopen
  obtain ⟨L, hL, himported⟩ := bind_eq_ok.mp (orThrow_eq_ok.mp himport)
  cases himported
  refine ⟨args, project, L, _, hargs, ⟨exitIf_eq_ok.mp hfile, exitIf_eq_ok.mp hmap⟩, hopen, hL, ?_,
    rfl⟩
  rw [← (FileLibraries.openProject_eq_ok hopen).1]
  rfl

theorem cliViz_eq_ok (h : E.cliViz fs argv = .ok (fs', outcome)) : ∃ args data,
    parse vizArg argv {} = .ok args ∧ fs' = E.writeStream fs args.vizFile data := by
  obtain ⟨args, hargs, h⟩ := bindHalt_eq_ok.mp h
  obtain ⟨_, _, h⟩ := bindHalt_eq_ok.mp h
  obtain ⟨_, _, h⟩ := bindHalt_eq_ok.mp h
  obtain ⟨project, _, h⟩ := bindHalt_eq_ok.mp h
  obtain ⟨func, _, h⟩ := bindHalt_eq_ok.mp h
  obtain ⟨S, _, h⟩ := bindHalt_eq_ok.mp h
  obtain ⟨cfg, _, h⟩ := bindHalt_eq_ok.mp h
  obtain ⟨dfg, _, h⟩ := bindHalt_eq_ok.mp h
  cases h
  exact ⟨args, _, hargs, rfl⟩

/-- A project that opens is saved with what was imported. -/
theorem cliImportPpcdis_of {args : ImportArgs} {project : Project} {L : ProgramLoader}
    (hargs : parse (importArg fs) argv {} = .ok args) (hcomplete : args.Complete)
    (hopen : E.openProject fs args.projectProtoFile = .ok project)
    (hL : loadAnalysisFromPpcdis (E.readers fs) project.programLoader.toProgramLoader
      args.ppcdisInfoFiles args.symbolMap = .ok L) :
    E.main fs ("importppcdis" :: argv) =
      ((E.writeProject fs args.projectProtoFile project.name
        (project.programLoader.withAnalysis L)).1,
      .of (E.writeProject fs args.projectProtoFile project.name
        (project.programLoader.withAnalysis L)).2) := by
  have hfile : project.projectFile = args.projectProtoFile :=
    (FileLibraries.openProject_eq_ok hopen).1
  change finish fs (E.cliImportPpcdis fs argv) = _
  have hcli : E.cliImportPpcdis fs argv = .ok
      ((E.writeProject fs args.projectProtoFile project.name
        (project.programLoader.withAnalysis L)).1,
      .of (E.writeProject fs args.projectProtoFile project.name
        (project.programLoader.withAnalysis L)).2) := by
    refine bindHalt_eq_ok.mpr ⟨args, hargs, ?_⟩
    refine bindHalt_eq_ok.mpr ⟨(), exitIf_eq_ok.mpr hcomplete.1, ?_⟩
    refine bindHalt_eq_ok.mpr ⟨(), exitIf_eq_ok.mpr hcomplete.2, ?_⟩
    refine bindHalt_eq_ok.mpr ⟨project, orThrow_eq_ok.mpr hopen, ?_⟩
    refine bindHalt_eq_ok.mpr ⟨{project with programLoader := project.programLoader.withAnalysis L},
      orThrow_eq_ok.mpr (bind_eq_ok.mpr ⟨L, hL, rfl⟩), ?_⟩
    rw [← hfile]
    rfl
  rw [hcli]
  rfl

/-! ### The file a command overwrites -/

/-- A file system where every file is there. -/
def anyFile : FileSystem := fun _ => some []

/-- The file that a command line writes over whatever it holds. -/
def overwrites : List String → Option String
  | "create" :: argv => (parse (createArg anyFile) argv {}).toOption.map CreateArgs.projectFile
  | "viz" :: argv => (parse vizArg argv {}).toOption.map VizArgs.vizFile
  | _ => none

/-- Options do not look at files. -/
theorem createArg_plain {fs fs' : FileSystem} {word : String}
    (h : createArg fs word ≠ createArg fs' word) :
    createArg fs word = .plain (fun options => do
      checkFile fs 4 word
      return {options with inputFiles := options.inputFiles ++ [word]}) ∧
    createArg fs' word = .plain (fun options => do
      checkFile fs' 4 word
      return {options with inputFiles := options.inputFiles ++ [word]}) := by
  unfold createArg at h ⊢
  split_ifs at h ⊢
  · exact absurd rfl h
  · exact absurd rfl h
  · exact absurd rfl h
  · exact ⟨rfl, rfl⟩

/-- The names that are accepted do not depend on the files that are there. -/
theorem parse_createArg_anyFile {args : CreateArgs} (h : parse (createArg fs) argv {} = .ok args) :
    parse (createArg anyFile) argv {} = .ok args := by
  obtain ⟨groups, hwords, hreads⟩ := parse_eq_ok_iff.mp h
  refine parse_eq_ok_iff.mpr ⟨groups, hwords, hreads.mono ?_⟩
  intro g _ set st mid heffect hset
  by_cases hoption : createArg fs g.word = createArg anyFile g.word
  · refine ⟨set, ?_, hset⟩
    rw [effect, ← hoption]
    exact heffect
  · obtain ⟨hplain, hplain'⟩ := createArg_plain hoption
    obtain ⟨hvalues, rfl⟩ := (effect_eq_of_plain hplain).mp heffect
    obtain ⟨_, _, hmid⟩ := bindHalt_eq_ok.mp hset
    exact ⟨_, (effect_eq_of_plain hplain').mpr ⟨hvalues, rfl⟩, hmid⟩

theorem overwrites_create {args : CreateArgs} (h : parse (createArg fs) argv {} = .ok args) :
    overwrites ("create" :: argv) = some args.projectFile := by
  rw [overwrites, parse_createArg_anyFile h]
  rfl

/-! ### Runs -/

/-- A command of the tool, or another program that changes a file. What a process finds by
chance, the order of its sets say, is in its environment. -/
inductive Action where
  | command (E : Environment) (argv : List String)
  | edit (path : String) (content : Option Bytes)

def step (fs : FileSystem) : Action → FileSystem
  | .command E argv => (E.main fs argv).1
  | .edit path content => Function.update fs path content

def run (fs : FileSystem) (actions : List Action) : FileSystem := actions.foldl step fs

/-- The action does not put something else in the place of the file at `path`, and does not
fail when it writes to it. -/
def Action.Spares (F : ProjectFormat) (path : String) (fs : FileSystem) : Action → Prop
  | .command E argv => E.projects = F ∧ overwrites argv ≠ some path ∧
      ((E.main fs argv).2 = .halted (.threw FileLibraries.writeFailed) → E.writable path = false)
  | .edit path' _ => path' ≠ path

/-- None of the actions does, each in the files it finds. -/
def SparedBy (F : ProjectFormat) (path : String) : FileSystem → List Action → Prop
  | _, [] => True
  | fs, a :: actions => a.Spares F path fs ∧ SparedBy F path (step fs a) actions

/-- The file at `path` holds this project, or what has become of it. -/
def Kept (F : ProjectFormat) (path : String) (m : Persistence.Project) (fs : FileSystem) : Prop :=
  ∃ m', F.Holds fs path m' ∧ m'.projectName = m.projectName ∧
    m.programLoader.Grown m'.programLoader ∧ m'.programLoader.WellFormed

section
variable {F : ProjectFormat} {m : Persistence.Project}

theorem Kept.congr (h : Kept F path m fs) (heq : fs' path = fs path) : Kept F path m fs' := by
  obtain ⟨m', hholds, hkept⟩ := h
  exact ⟨m', hholds.congr heq, hkept⟩

theorem cliCreate_kept (h : Kept F path m fs) (hspares : overwrites ("create" :: argv) ≠ some path)
    (hcli : E.cliCreate fs argv = .ok (fs', outcome)) : Kept F path m fs' := by
  obtain ⟨args, P, written, hargs, _, hwrite, _⟩ := cliCreate_eq_ok hcli
  have hne : args.projectFile ≠ path := by
    intro heq
    refine hspares ?_
    rw [overwrites_create hargs, heq]
  refine h.congr ?_
  rw [← FileLibraries.writeProject_of_ne fs args.name P hne, hwrite]

theorem cliViz_kept (h : Kept F path m fs) (hspares : overwrites ("viz" :: argv) ≠ some path)
    (hcli : E.cliViz fs argv = .ok (fs', outcome)) : Kept F path m fs' := by
  obtain ⟨args, data, hargs, rfl⟩ := cliViz_eq_ok hcli
  have hne : path ≠ args.vizFile := by
    intro heq
    refine hspares ?_
    rw [overwrites, hargs, heq]
    rfl
  refine h.congr ?_
  unfold writeStream
  split_ifs
  · exact writeFile_of_ne hne
  · rfl

/-- An import saves the project it has opened. -/
theorem cliImportPpcdis_kept (h : Kept E.projects path m fs)
    (hcli : E.cliImportPpcdis fs argv = .ok (fs', outcome))
    (hwrites : outcome = .halted (.threw FileLibraries.writeFailed) → E.writable path = false) :
    Kept E.projects path m fs' := by
  obtain ⟨args, project, L, saved, _, _, hopen, hL, hwrite, rfl⟩ := cliImportPpcdis_eq_ok hcli
  by_cases hpath : args.projectProtoFile = path
  · rw [hpath] at hopen hwrite
    cases saved with
    | error e =>
      have he : e = FileLibraries.writeFailed :=
        FileLibraries.writeProject_error (congrArg Prod.snd hwrite)
      have hwritable := hwrites (congrArg (fun e => Outcome.halted (.threw e)) he)
      rw [FileLibraries.writeProject_of_not_writable _ _ hwritable] at hwrite
      cases hwrite
      exact h
    | ok _ =>
      obtain ⟨m', hholds, hname, hgrown, hwell⟩ := h
      obtain ⟨_, m'', hholds', hname', hfrom⟩ := FileLibraries.openProject_eq_ok hopen
      cases hholds.unique hholds'
      have hsaved := FileLibraries.writeProject_holds (congrArg Prod.snd hwrite)
      rw [hwrite] at hsaved
      refine ⟨_, hsaved, hname'.symm.trans hname, ?_, LoadedProgram.toProto_wellFormed _⟩
      exact (hgrown.trans (LoadedProgram.toProto_of_fromProto hwell hfrom)).trans
        (LoadedProgram.grown_withAnalysis (loadAnalysisFromPpcdis_added hL))
  · refine h.congr ?_
    rw [← FileLibraries.writeProject_of_ne fs project.name
      (project.programLoader.withAnalysis L) hpath, hwrite]

theorem kept_finish {result : Except Halt (FileSystem × Outcome)} (h : Kept F path m fs)
    (hok : ∀ fs' outcome, result = .ok (fs', outcome) → (finish fs result).2 = outcome →
      Kept F path m fs') : Kept F path m (finish fs result).1 := by
  cases result with
  | ok r => exact hok r.1 r.2 rfl rfl
  | error e => exact h

theorem kept_finishReading {result : Except Halt Outcome} (h : Kept F path m fs) :
    Kept F path m (finishReading fs result).1 := by
  cases result <;> exact h

/-- One command. -/
theorem main_kept (h : Kept E.projects path m fs) (hspares : overwrites argv ≠ some path)
    (hwrites : (E.main fs argv).2 = .halted (.threw FileLibraries.writeFailed) →
      E.writable path = false) : Kept E.projects path m (E.main fs argv).1 := by
  cases argv with
  | nil => exact h
  | cons verb argv =>
    rw [main] at hwrites ⊢
    split_ifs at hwrites ⊢ with hcreate himport hcheckflow hcompare hviz hhelp
    · subst hcreate
      exact kept_finish h fun _ _ hcli _ => cliCreate_kept h hspares hcli
    · exact kept_finish h fun _ _ hcli houtcome =>
        cliImportPpcdis_kept h hcli fun heq => hwrites (houtcome.trans heq)
    · exact kept_finishReading h
    · exact kept_finishReading h
    · subst hviz
      exact kept_finish h fun _ _ hcli _ => cliViz_kept h hspares hcli
    · exact h
    · exact h

theorem step_kept {a : Action} (h : Kept F path m fs) (hspares : a.Spares F path fs) :
    Kept F path m (step fs a) := by
  cases a with
  | command E argv =>
    obtain ⟨rfl, hspares, hwrites⟩ := hspares
    exact main_kept h hspares hwrites
  | edit path' content => exact h.congr (Function.update_of_ne hspares.symm ..)

theorem run_kept {actions : List Action} (h : Kept F path m fs)
    (hspared : SparedBy F path fs actions) : Kept F path m (run fs actions) := by
  induction actions generalizing fs with
  | nil => exact h
  | cons a actions ih => exact ih (step_kept h hspared.1) hspared.2

end

/-- What a successful `create` has written. -/
theorem kept_create (h : E.main fs ("create" :: argv) = (fs', .returned)) : ∃ args P,
    parse (createArg fs) argv {} = .ok args ∧ LoadedProgram.loadProgram E.formats E.fuel fs
      (E.loaderTypeOf fs args.inputFiles) args.inputFiles = .ok P ∧
    Kept E.projects args.projectFile (FileLibraries.projectProto args.name P) fs' := by
  change finish fs (E.cliCreate fs argv) = (fs', .returned) at h
  cases hcli : E.cliCreate fs argv with
  | error e =>
    rw [hcli] at h
    cases h
  | ok result =>
    rw [hcli] at h
    cases h
    obtain ⟨args, P, written, hargs, hload, hwrite, houtcome⟩ := cliCreate_eq_ok hcli
    have hwritten : written = .ok () := by
      cases written with
      | error e => cases houtcome
      | ok _ => rfl
    rw [hwritten] at hwrite
    have hholds := FileLibraries.writeProject_holds (congrArg Prod.snd hwrite)
    rw [hwrite] at hholds
    exact ⟨args, P, hargs, hload, _, hholds, rfl, .refl _, P.toProto_wellFormed⟩

/-- What is kept opens, if its binaries are there. -/
theorem Kept.openProject {m : Persistence.Project} {P : LoadedProgram}
    (h : Kept E.projects path m fs) (hload : LoadedProgram.loadProgram E.formats E.fuel fs
      m.programLoader.loaderType m.programLoader.paths = .ok P) :
    ∃ P', E.openProject fs path = .ok ⟨m.projectName, P', path⟩ ∧ P'.binaries = P.binaries ∧
      m.programLoader.Grown P'.toProto := by
  obtain ⟨m', hholds, hname, hgrown, hwell⟩ := h
  rw [← hgrown.loaderType, ← hgrown.paths] at hload
  obtain ⟨P', hfrom, hbinaries⟩ := LoadedProgram.exists_fromProto hwell hload
  refine ⟨P', ?_, hbinaries, hgrown.trans (LoadedProgram.toProto_of_fromProto hwell hfrom)⟩
  rw [FileLibraries.openProject, hholds]
  dsimp only
  rw [hfrom, hname]
  rfl

end Environment

/-! ### A project of one module -/

namespace Excerpt
open Environment ArgumentList

/-- The project of `loopProgram` before and after a label was imported. -/
def loopMessage (symbols : List Symbol) : Persistence.Project :=
  FileLibraries.projectProto "demo" {loopProgram with symtab := {symbols := symbols}}

def importedSymbol : Symbol := ⟨"lab_80500040", ⟨⟨1, 0⟩, 0⟩, 8, .FUNCTION, .GLOBAL⟩

/-- The messages as protobuf writes them. -/
def loopBytes (size symtab : Bytes) : Bytes :=
  [0x08, 1, 0x12, 4, 0x64, 0x65, 0x6d, 0x6f, 0x18, 1, 0x22] ++ size ++
  [0x08, 1, 0x10, 1, 0x1a, 81, 0x0a, 5, 0x61, 0x2e, 0x72, 0x65, 0x6c, 0x12, 72] ++ loopFile ++
  [0x22] ++ symtab ++
  [0x2a, 14, 0x0a, 12, 0x0a, 2, 0x10, 1, 0x12, 4, 0x10, 1, 0x18, 0x40, 0x18, 10]

def bytesBefore : Bytes := loopBytes [105] [0]

def bytesAfter : Bytes :=
  loopBytes [0x83, 1] [26, 0x0a, 24, 0x0a, 12, 0x6c, 0x61, 0x62, 0x5f, 0x38, 0x30, 0x35, 0x30, 0x30,
    0x30, 0x34, 0x30, 0x12, 2, 0x10, 1, 0x18, 8, 0x20, 1, 0x28, 2]

/-- Protobuf, as far as these messages go. -/
def loopProjects : ProjectFormat where
  serialize p := if p = loopMessage [] then some bytesBefore
    else if p = loopMessage [importedSymbol] then some bytesAfter else none
  parse data := if data = bytesBefore then some (loopMessage [])
    else if data = bytesAfter then some (loopMessage [importedSymbol]) else none
  parse_serialize p data h := by
    split_ifs at h with hp hp
    · cases h
      rw [if_pos rfl, hp]
    · cases h
      rw [if_neg (by decide), if_pos rfl, hp]

def importedLabels : Ppcdis.AddressMap Ppcdis.Label := ⟨[(0x80500040, ⟨.FUNCTION, 8⟩)], by decide⟩

theorem keys_noRelocs : (([] : List (BitVec 32 × Ppcdis.Reloc)).map Prod.fst).Nodup := List.nodup_nil

def importEnvironment : Environment where
  formats := branchFormats
  fuel := 4
  projects := loopProjects
  ppcdis := ⟨fun _ => .ok ⟨"a.rel", some 0x80500000, some 0⟩, fun _ => .ok importedLabels,
    fun _ => .ok ⟨[], keys_noRelocs⟩, fun _ => .ok []⟩
  writable _ := true
  torn := []
  disasm := ppcdisasm
  orders _ := (HashOrder.ascending, HashOrder.ascending)
  steps := 0
  unassignedType := .LOADER_UNSPECIFIED
  unassignedMagic := [0, 0, 0, 0]

def loopFiles : FileSystem := fun _ => some loopFile

/-- With the project that is created. -/
def importFiles : FileSystem := writeFile loopFiles "demo.proj" bytesBefore

def createCommand : List String := ["-o", "demo.proj", "-n", "demo", "a.rel"]

def importCommand : List String :=
  ["-i", "demo.proj", "-s", "symbols.yml", "-p", "a.yml", "a.labels", "a.relocs"]

def importedArgs : ImportArgs :=
  ⟨"demo.proj", "symbols.yml", [⟨"a.yml", "a.labels", "a.relocs"⟩]⟩

def openedLoop : LoadedProgram :=
  {loopProgram with reloctab := loopProgram.reloctab.constructSourceIndex}

theorem parse_importCommand :
    parse (importArg importFiles) importCommand {} = .ok importedArgs := by
  rfl

theorem openProject_loop : importEnvironment.openProject importFiles "demo.proj" =
    .ok ⟨"demo", openedLoop, "demo.proj"⟩ := by
  have hload : LoadedProgram.loadProgram branchFormats 4 importFiles .LOADER_RVL ["a.rel"] =
      .ok loopProgram := by
    rw [← load_loopProgram]
    exact LoadedProgram.loadProgram_congr (List.forall_mem_singleton.mpr rfl)
  have hfrom : LoadedProgram.fromProto branchFormats 4 importFiles (loopMessage []).programLoader =
      .ok openedLoop := bind_eq_ok.mpr ⟨loopProgram, hload, rfl⟩
  have hparse : (importFiles "demo.proj").bind importEnvironment.projects.parse =
      some (loopMessage []) := by rfl
  rw [FileLibraries.openProject, hparse]
  exact bind_eq_ok.mpr ⟨openedLoop, hfrom, rfl⟩

theorem loaderTypeOf_loop : importEnvironment.loaderTypeOf loopFiles ["a.rel"] = .LOADER_RVL := by
  have hext : (splitExtension "a.rel").2 = ".rel" := by
    rw [splitExtension, filename_rel, splitOn_rel]
    rfl
  have hrvl : NinProgramLoader.isRvlProgram ["a.rel"] = true := by
    simp only [NinProgramLoader.isRvlProgram, List.all_cons, List.all_nil, hext]
    rfl
  have helf : ElfProgramLoader.isElfProgramFrom loopFiles importEnvironment.unassignedMagic
      ["a.rel"] = false := by rfl
  rw [loaderTypeOf, helf, hrvl]
  rfl

theorem main_createCommand :
    importEnvironment.main loopFiles ("create" :: createCommand) = (importFiles, .returned) := by
  have hargs : parse (createArg loopFiles) createCommand {} =
      .ok ⟨"demo.proj", "demo", ["a.rel"]⟩ := by rfl
  have hcreate : importEnvironment.createProject loopFiles
      ⟨["a.rel"], "demo.proj", "demo", .LOADER_RVL⟩ =
      .ok (importFiles, .ok ⟨"demo", openedLoop, "demo.proj"⟩) := by
    refine bind_eq_ok.mpr ⟨loopProgram, load_loopProgram, ?_⟩
    rw [← openProject_loop]
    rfl
  have hcli : importEnvironment.cliCreate loopFiles createCommand =
      .ok (importFiles, .returned) := by
    refine bindHalt_eq_ok.mpr ⟨_, hargs, ?_⟩
    refine bindHalt_eq_ok.mpr ⟨(), rfl, ?_⟩
    refine bindHalt_eq_ok.mpr ⟨(), rfl, ?_⟩
    refine bindHalt_eq_ok.mpr ⟨(importFiles, .ok ⟨"demo", openedLoop, "demo.proj"⟩),
      orThrow_eq_ok.mpr ?_, rfl⟩
    rw [loaderTypeOf_loop]
    exact hcreate
  change finish loopFiles (importEnvironment.cliCreate loopFiles createCommand) = _
  rw [hcli]
  rfl

def importedLoop : ProgramLoader :=
  {openedLoop.toProgramLoader with
    binaries := [Rel.setLoadInfo 0x80500000 0 loopBinary.toBinary]
    symtab := {symbols := [importedSymbol]}}

theorem loadAnalysis_loop : loadAnalysisFromPpcdis (importEnvironment.readers importFiles)
    openedLoop.toProgramLoader importedArgs.ppcdisInfoFiles importedArgs.symbolMap =
      .ok importedLoop := by
  have hidx : findBinaryIdxByName openedLoop.toProgramLoader.binaries (filename "a.rel") =
      some 0 := by
    simp [findBinaryIdxByName, openedLoop, LoadedProgram.toProgramLoader, loopProgram, loopBinary]
  have hread : Ppcdis.readContents (importEnvironment.readers importFiles)
      openedLoop.toProgramLoader.binaries ⟨"a.yml", "a.labels", "a.relocs"⟩ =
      .ok ⟨importedLoop.binaries, 0, importedLabels, ⟨[], keys_noRelocs⟩⟩ := by
    refine bind_eq_ok.mpr ⟨⟨"a.rel", some 0x80500000, some 0⟩, rfl, ?_⟩
    dsimp only
    rw [hidx]
    rfl
  refine bind_eq_ok.mpr ⟨[], rfl, ?_⟩
  change List.foldlM _ _ [_] = _
  have hcontents : Ppcdis.importContents [] openedLoop.toProgramLoader
      ⟨importedLoop.binaries, 0, importedLabels, ⟨[], keys_noRelocs⟩⟩ = .ok importedLoop := by rfl
  rw [List.foldlM_cons, Ppcdis.loadBinaryInfoFromPpcdis_eq, hread]
  exact bind_eq_ok.mpr ⟨importedLoop, hcontents, rfl⟩

def importedFiles : FileSystem := writeFile importFiles "demo.proj" bytesAfter

theorem main_importCommand :
    importEnvironment.main importFiles ("importppcdis" :: importCommand) =
      (importedFiles, .returned) := by
  rw [cliImportPpcdis_of parse_importCommand ⟨by decide, by decide⟩ openProject_loop
    loadAnalysis_loop]
  rfl

/-- The label is imported, and the notes are thrown away. -/
def demoActions : List Action :=
  [.command importEnvironment ("importppcdis" :: importCommand), .edit "notes.txt" none]

theorem sparedBy_demoActions : SparedBy loopProjects "demo.proj" importFiles demoActions := by
  refine ⟨⟨rfl, ?_, ?_⟩, ?_, trivial⟩
  · exact Option.some_ne_none _ ∘ Eq.symm
  · intro h
    rw [main_importCommand] at h
    cases h
  · change "notes.txt" ≠ "demo.proj"
    decide

end Excerpt

namespace Environment
open ArgumentList
variable {E : Environment} {fs fs' : FileSystem} {argv : List String}

/-- **A project that was created keeps its name, its binaries and all that is in its
tables**, whatever is done after, unless its file is replaced or a save of it fails. It
opens as long as the binaries are what they were. -/
theorem created_project_kept {actions : List Action}
    (hcreate : E.main fs ("create" :: argv) = (fs', .returned))
    (hspared : ∀ path ∈ overwrites ("create" :: argv), SparedBy E.projects path fs' actions) :
    ∃ args P m, parse (createArg fs) argv {} = .ok args ∧
      LoadedProgram.loadProgram E.formats E.fuel fs (E.loaderTypeOf fs args.inputFiles)
        args.inputFiles = .ok P ∧
      E.projects.Holds (run fs' actions) args.projectFile m ∧ m.projectName = args.name ∧
      P.toProto.Grown m.programLoader ∧
      ((∀ path ∈ args.inputFiles, run fs' actions path = fs path) → ∃ P',
        E.openProject (run fs' actions) args.projectFile =
          .ok ⟨args.name, P', args.projectFile⟩ ∧
        P'.binaries = P.binaries ∧ P.toProto.Grown P'.toProto) := by
  obtain ⟨args, P, hargs, hload, hkept⟩ := kept_create hcreate
  have hkept := run_kept hkept (hspared _ (overwrites_create hargs))
  obtain ⟨m, hholds, hname, hgrown, hwell⟩ := id hkept
  refine ⟨args, P, m, hargs, hload, hholds, hname, hgrown, ?_⟩
  intro hfiles
  obtain ⟨htype, hpaths⟩ := LoadedProgram.loadProgram_paths hload
  refine hkept.openProject ?_
  change LoadedProgram.loadProgram E.formats E.fuel (run fs' actions) P.toProto.loaderType
    P.toProto.paths = .ok P
  rw [htype, hpaths, LoadedProgram.loadProgram_congr hfiles]
  exact hload

/-- The relocation of the branch is in the table all along, and the label is added. -/
theorem created_project_kept_demo :
    let fs := run Excerpt.importFiles Excerpt.demoActions
    ∃ args P m, parse (createArg Excerpt.loopFiles) Excerpt.createCommand {} = .ok args ∧
      LoadedProgram.loadProgram branchFormats 4 Excerpt.loopFiles
        (Excerpt.importEnvironment.loaderTypeOf Excerpt.loopFiles args.inputFiles)
        args.inputFiles = .ok P ∧
      Excerpt.loopProjects.Holds fs args.projectFile m ∧ m.projectName = args.name ∧
      P.toProto.Grown m.programLoader ∧
      ((∀ path ∈ args.inputFiles, fs path = Excerpt.loopFiles path) → ∃ P',
        Excerpt.importEnvironment.openProject fs args.projectFile =
          .ok ⟨args.name, P', args.projectFile⟩ ∧
        P'.binaries = P.binaries ∧ P.toProto.Grown P'.toProto) := by
  refine created_project_kept Excerpt.main_createCommand ?_
  intro path hpath
  have hoverwrites : overwrites ("create" :: Excerpt.createCommand) = some "demo.proj" := rfl
  rw [hoverwrites] at hpath
  cases hpath
  exact Excerpt.sparedBy_demoActions

end Environment

end Ppc2cpp
