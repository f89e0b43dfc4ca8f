import Ppc2cpp.Cli.Runs

/-! Importing the same files again.

After an import the project file has an entry wherever the imported files ask for one. The
tables only grow from then on, and when the project is opened their indexes are built anew.
So the same import finds everything there, however long after and in whatever order it
meets the entries, and adds nothing (`reimport_adds_nothing`). -/
namespace Ppc2cpp

/-! ### The indexes of a program that was opened -/

section
variable {formats : Formats} {fuel : Nat} {fs : FileSystem} {m : Persistence.ProgramLoader}
  {P P₀ : LoadedProgram}

theorem LoadedProgram.symtab_of_loadProgram {loaderType : Persistence.ProgramLoaderType}
    {paths : List String} (h : loadProgram formats fuel fs loaderType paths = .ok P) :
    P.symtab.constructLocationIndex = P.symtab := by
  cases loaderType with
  | LOADER_UNSPECIFIED => cases h
  | LOADER_RVL => rw [(NinProgramLoader.load_unindexed h).symtab]; rfl
  | LOADER_ELF =>
    simp only [loadProgram, ElfProgramLoader.load, bind_eq_ok, Prod.exists] at h
    obtain ⟨Q, elfs, _, reloctab, _, h⟩ := h
    cases h
    rfl

/-- The REL loader leaves the index empty. -/
theorem LoadedProgram.reloctab_of_loadProgram {loaderType : Persistence.ProgramLoaderType}
    {paths : List String} (h : loadProgram formats fuel fs loaderType paths = .ok P) :
    P.reloctab.sourceIndex = [] ∨ P.reloctab.constructSourceIndex = P.reloctab := by
  cases loaderType with
  | LOADER_UNSPECIFIED => cases h
  | LOADER_RVL => exact .inl (NinProgramLoader.load_unindexed h).sourceIndex
  | LOADER_ELF =>
    simp only [loadProgram, ElfProgramLoader.load, bind_eq_ok, Prod.exists] at h
    obtain ⟨Q, elfs, _, reloctab, _, h⟩ := h
    cases h
    exact .inr rfl

/-- A table is taken from the message if it has entries there. -/
theorem LoadedProgram.restoreSymtab_cases {p : Persistence.SymbolTable} {t₀ t : SymbolTable}
    (h : restoreSymtab p t₀ = .ok t) :
    p.symbols = [] ∧ t = t₀ ∨ p.symbols ≠ [] ∧ SymbolTable.fromProto p = some t := by
  unfold restoreSymtab at h
  split at h
  · rename_i hlength
    cases hproto : SymbolTable.fromProto p with
    | none => simp [hproto] at h
    | some t' =>
      rw [hproto] at h
      cases h
      exact .inr ⟨List.length_pos_iff.mp hlength, rfl⟩
  · rename_i hlength
    cases h
    exact .inl ⟨List.eq_nil_of_length_eq_zero (Nat.eq_zero_of_not_pos hlength), rfl⟩

theorem LoadedProgram.restoreReloctab_cases (p : Persistence.RelocTable) (t₀ : RelocationTable) :
    p.relocs = [] ∧ restoreReloctab p t₀ = t₀ ∨
      p.relocs ≠ [] ∧ restoreReloctab p t₀ = RelocationTable.fromProto p := by
  unfold restoreReloctab
  split
  · rename_i hlength
    exact .inr ⟨List.length_pos_iff.mp hlength, rfl⟩
  · rename_i hlength
    exact .inl ⟨List.eq_nil_of_length_eq_zero (Nat.eq_zero_of_not_pos hlength), rfl⟩

theorem LoadedProgram.fromProto_eq_ok (h : fromProto formats fuel fs m = .ok P) :
    ∃ P₀, loadProgram formats fuel fs m.loaderType m.paths = .ok P₀ ∧
      P.loaderType = P₀.loaderType ∧ P.binaries = P₀.binaries ∧
      restoreSymtab m.symtab P₀.symtab = .ok P.symtab ∧
      P.reloctab = restoreReloctab m.reloctab P₀.reloctab := by
  simp only [fromProto, bind_eq_ok] at h
  obtain ⟨P₀, hload, symtab, hsymtab, h⟩ := h
  cases h
  exact ⟨P₀, hload, rfl, rfl, hsymtab, rfl⟩

theorem SymbolTable.construct_of_fromProto {p : Persistence.SymbolTable} {t : SymbolTable}
    (h : fromProto p = some t) : t.constructLocationIndex = t := by
  obtain ⟨symbols, _, h⟩ := Option.bind_eq_some_iff.mp h
  cases h
  rfl

/-- Every symbol of the message is in the table. -/
theorem SymbolTable.mem_of_fromProto {p : Persistence.SymbolTable} {t : SymbolTable}
    (h : fromProto p = some t) {s : Persistence.Symbol} (hs : s ∈ p.symbols) :
    ∃ sym ∈ t.symbols, Symbol.fromProto s = some sym := by
  have hmapM : ∀ {xs : List Persistence.Symbol} {ys : List Symbol},
      xs.mapM Symbol.fromProto = some ys → s ∈ xs → ∃ sym ∈ ys, Symbol.fromProto s = some sym := by
    intro xs
    induction xs with
    | nil => exact fun _ hs => absurd hs List.not_mem_nil
    | cons x xs ih =>
      intro ys hys hs
      simp only [List.mapM_cons, Option.bind_eq_bind, Option.bind_eq_some_iff] at hys
      obtain ⟨y, hy, rest, hrest, hys⟩ := hys
      cases hys
      rcases List.mem_cons.mp hs with rfl | hs
      · exact ⟨y, List.mem_cons_self .., hy⟩
      · obtain ⟨sym, hsym, heq⟩ := ih hrest hs
        exact ⟨sym, List.mem_cons_of_mem _ hsym, heq⟩
  obtain ⟨symbols, hsymbols, h⟩ := Option.bind_eq_some_iff.mp h
  cases h
  obtain ⟨sym, hsym, heq⟩ := hmapM hsymbols hs
  refine ⟨sym, ?_, heq⟩
  rw [reindexed, constructLocationIndex, constructNameIndex, symbols_foldl_pushBack]
  exact hsym

theorem Symbol.location_of_fromProto_toProto {s sym : Symbol}
    (h : fromProto s.toProto = some sym) :
    sym.location = ProgramLocation.fromProto s.location.toProto := by
  simp only [fromProto, toProto, SymbolType.ofUInt32_toUInt32, SymbolBinding.ofUInt32_toUInt32] at h
  cases h
  rfl

theorem RelocationTable.construct_of_empty {t : RelocationTable} (hrelocs : t.relocs = [])
    (hindex : t.sourceIndex = []) : t.constructSourceIndex = t := by
  cases t
  cases hrelocs
  cases hindex
  rfl

theorem RelocationTable.mem_of_fromProto {p : Persistence.RelocTable} {r : Persistence.Relocation}
    (hr : r ∈ p.relocs) : Relocation.fromProto r ∈ (fromProto p).relocs := by
  rw [fromProto, constructSourceIndex, relocs_foldl_pushBack]
  exact List.mem_map_of_mem hr

/-- Whatever the indexes miss, what they find is right. -/
theorem LoadedProgram.pointsAt_of_fromProto (h : fromProto formats fuel fs m = .ok P) :
    P.symtab.PointsAt ∧ P.reloctab.PointsAt := by
  obtain ⟨P₀, hload, _, _, hsymtab, hreloctab⟩ := fromProto_eq_ok h
  constructor
  · apply SymbolTable.pointsAt_of_construct
    rcases restoreSymtab_cases hsymtab with ⟨_, heq⟩ | ⟨_, hproto⟩
    · rw [heq]
      exact symtab_of_loadProgram hload
    · exact SymbolTable.construct_of_fromProto hproto
  · rw [hreloctab]
    rcases restoreReloctab_cases m.reloctab P₀.reloctab with ⟨_, heq⟩ | ⟨_, heq⟩
    · rw [heq]
      rcases reloctab_of_loadProgram hload with hindex | hindex
      · exact RelocationTable.pointsAt_of_sourceIndex hindex
      · exact RelocationTable.pointsAt_of_construct hindex
    · rw [heq]
      exact RelocationTable.pointsAt_of_construct rfl

/-! ### A message opened once more -/

/-- What loading finds by itself is in the message too, where the message says nothing. -/
structure Persistence.ProgramLoader.Settles (m : Persistence.ProgramLoader) (P₀ : LoadedProgram) :
    Prop where
  symbols : m.symtab.symbols = [] → P₀.symtab.symbols = []
  relocs : m.reloctab.relocs = [] → P₀.reloctab.relocs = []

theorem Persistence.ProgramLoader.Settles.of_grown {m' : Persistence.ProgramLoader}
    (h : m.Settles P₀) (hgrown : m.Grown m') : m'.Settles P₀ where
  symbols hnil := h.symbols (List.prefix_nil.mp (hnil ▸ hgrown.symbols))
  relocs hnil := h.relocs (List.prefix_nil.mp (hnil ▸ hgrown.relocs))

/-- So it is once a program that was opened is saved. -/
theorem LoadedProgram.settles_toProto (h : fromProto formats fuel fs m = .ok P)
    (hload : loadProgram formats fuel fs m.loaderType m.paths = .ok P₀) :
    P.toProto.Settles P₀ := by
  obtain ⟨P₀', hload', _, _, hsymtab, hreloctab⟩ := fromProto_eq_ok h
  cases hload.symm.trans hload'
  constructor
  · intro hnil
    rcases restoreSymtab_cases hsymtab with ⟨_, heq⟩ | ⟨hne, hproto⟩
    · rw [← heq]
      exact List.map_eq_nil_iff.mp hnil
    · rw [← SymbolTable.toProto_of_fromProto hproto] at hne
      exact absurd hnil hne
  · intro hnil
    have hnone : P.reloctab.relocs = [] := List.map_eq_nil_iff.mp hnil
    rcases restoreReloctab_cases m.reloctab P₀.reloctab with ⟨_, heq⟩ | ⟨hne, heq⟩
    · rw [← heq, ← hreloctab]
      exact hnone
    · obtain ⟨r, hr⟩ := List.exists_mem_of_ne_nil _ hne
      have hmem := RelocationTable.mem_of_fromProto hr
      rw [← heq, ← hreloctab, hnone] at hmem
      cases hmem

/-- The tables of a program opened from such a message. -/
structure LoadedProgram.Reopened (m : Persistence.ProgramLoader) (P : LoadedProgram) : Prop where
  locIndex : P.symtab.constructLocationIndex = P.symtab
  sourceIndex : P.reloctab.constructSourceIndex = P.reloctab
  symtab : P.toProto.symtab = m.symtab
  reloctab : P.toProto.reloctab = m.reloctab

theorem LoadedProgram.reopened (hwell : m.WellFormed) (hsettles : m.Settles P₀)
    (hload : loadProgram formats fuel fs m.loaderType m.paths = .ok P₀)
    (h : fromProto formats fuel fs m = .ok P) : Reopened m P := by
  obtain ⟨P₀', hload', _, _, hsymtab, hreloctab⟩ := fromProto_eq_ok h
  cases hload.symm.trans hload'
  have hsymtab : P.symtab.constructLocationIndex = P.symtab ∧ P.toProto.symtab = m.symtab := by
    rcases restoreSymtab_cases hsymtab with ⟨hnil, heq⟩ | ⟨_, hproto⟩
    · refine ⟨heq ▸ symtab_of_loadProgram hload, ?_⟩
      have hnone : P.symtab.toProto.symbols = [] := by
        rw [SymbolTable.toProto, heq, hsettles.symbols hnil]
        rfl
      exact congrArg Persistence.SymbolTable.mk (hnone.trans hnil.symm)
    · exact ⟨SymbolTable.construct_of_fromProto hproto, SymbolTable.toProto_of_fromProto hproto⟩
  have hreloctab : P.reloctab.constructSourceIndex = P.reloctab ∧
      P.toProto.reloctab = m.reloctab := by
    change _ ∧ P.reloctab.toProto = m.reloctab
    rw [hreloctab]
    rcases restoreReloctab_cases m.reloctab P₀.reloctab with ⟨hnil, heq⟩ | ⟨_, heq⟩
    · have hnone := hsettles.relocs hnil
      rw [heq]
      constructor
      · rcases reloctab_of_loadProgram hload with hindex | hindex
        · exact RelocationTable.construct_of_empty hnone hindex
        · exact hindex
      · rw [RelocationTable.toProto, hnone]
        exact congrArg Persistence.RelocTable.mk hnil.symm
    · rw [heq]
      exact ⟨rfl, RelocationTable.toProto_fromProto hwell.relocs⟩
  exact ⟨hsymtab.1, hreloctab.1, hsymtab.2, hreloctab.2⟩

/-- What was there when the program was saved is there when it is opened. -/
theorem Ppcdis.Imported.Covered.reopened {x : Ppcdis.Imported} {symbols : List Symbol}
    {relocs : List Relocation} (hsmall : Ppcdis.SectionsSmall x.binaries)
    (hcovered : x.Covered symbols relocs)
    (hsymbols : symbols.map Symbol.toProto <+: m.symtab.symbols)
    (hrelocs : relocs.map Relocation.toProto <+: m.reloctab.relocs)
    (h : LoadedProgram.fromProto formats fuel fs m = .ok P) :
    x.Covered P.symtab.symbols P.reloctab.relocs := by
  obtain ⟨P₀, _, _, _, hsymtab, hreloctab⟩ := LoadedProgram.fromProto_eq_ok h
  refine hcovered.saved hsmall ?_ ?_
  · intro s hs
    have hmem : s.toProto ∈ m.symtab.symbols := hsymbols.subset (List.mem_map_of_mem hs)
    rcases LoadedProgram.restoreSymtab_cases hsymtab with ⟨hnil, _⟩ | ⟨_, hproto⟩
    · rw [hnil] at hmem
      cases hmem
    · obtain ⟨sym, hsym, heq⟩ := SymbolTable.mem_of_fromProto hproto hmem
      exact ⟨sym, hsym, Symbol.location_of_fromProto_toProto heq⟩
  · intro r hr
    have hmem : r.toProto ∈ m.reloctab.relocs := hrelocs.subset (List.mem_map_of_mem hr)
    rcases LoadedProgram.restoreReloctab_cases m.reloctab P₀.reloctab with ⟨hnil, _⟩ | ⟨_, heq⟩
    · rw [hnil] at hmem
      cases hmem
    · refine ⟨Relocation.fromProto r.toProto, ?_, rfl⟩
      rw [hreloctab, heq]
      exact RelocationTable.mem_of_fromProto hmem

end

/-! ### The same files in another process -/

def PpcdisInfoFiles.files (info : PpcdisInfoFiles) : List String :=
  [info.binYaml, info.labelProto, info.relocProto]

namespace FileLibraries

/-- The same libraries, but every process enumerates maps in an order of its own. -/
structure Alike (E E' : FileLibraries) : Prop where
  formats : E'.formats = E.formats
  fuel : E'.fuel = E.fuel
  projects : E'.projects = E.projects
  binConfig : E'.ppcdis.binConfig = E.ppcdis.binConfig
  symbolMap : E'.ppcdis.symbolMap = E.ppcdis.symbolMap
  labelInfo : ∀ file labels, E.ppcdis.labelInfo file = .ok labels →
    ∃ labels', E'.ppcdis.labelInfo file = .ok labels' ∧ labels'.entries.Perm labels.entries
  relocInfo : ∀ file relocs, E.ppcdis.relocInfo file = .ok relocs →
    ∃ relocs', E'.ppcdis.relocInfo file = .ok relocs' ∧ relocs'.entries.Perm relocs.entries

theorem Alike.refl (E : FileLibraries) : E.Alike E where
  formats := rfl
  fuel := rfl
  projects := rfl
  binConfig := rfl
  symbolMap := rfl
  labelInfo _ labels h := ⟨labels, h, .refl _⟩
  relocInfo _ relocs h := ⟨relocs, h, .refl _⟩

theorem Alike.filesAlike {E E' : FileLibraries} {fs fs' : FileSystem} {info : PpcdisInfoFiles}
    (h : E.Alike E') (hfiles : ∀ file ∈ info.files, fs' file = fs file) :
    Ppcdis.FilesAlike (E.readers fs) (E'.readers fs') info := by
  constructor
  · simp only [readers]
    rw [h.binConfig, hfiles info.binYaml (by simp [PpcdisInfoFiles.files])]
  · intro labels hlabels
    simp only [readers] at hlabels ⊢
    rw [hfiles info.labelProto (by simp [PpcdisInfoFiles.files])]
    exact h.labelInfo _ labels hlabels
  · intro relocs hrelocs
    simp only [readers] at hrelocs ⊢
    rw [hfiles info.relocProto (by simp [PpcdisInfoFiles.files])]
    exact h.relocInfo _ relocs hrelocs

end FileLibraries

namespace Environment
open ArgumentList
variable {E E' : Environment} {fs fs' : FileSystem} {argv : List String}

/-- All that is imported was named. -/
def ImportArgs.Named (argv : List String) (args : ImportArgs) : Prop :=
  (args.symbolMap = "" ∨ args.symbolMap ∈ argv) ∧
    ∀ info ∈ args.ppcdisInfoFiles, ∀ file ∈ info.files, file ∈ argv

theorem checkFile_eq_ok {code : Int} {path : String} {u : Unit} :
    checkFile fs code path = .ok u ↔ (fs path).isSome = true := by
  rw [checkFile, exitIf_eq_ok]
  cases fs path <;> simp

/-- What a word of `importppcdis` does with its values. -/
theorem importArg_cases (argv : List String) {g : ArgumentList.Group}
    {set : ImportArgs → Except Halt ImportArgs} {st mid : ImportArgs}
    (heffect : effect (importArg fs) g = some set) (hset : set st = .ok mid)
    (hfiles : ∀ file ∈ g.values, (fs file).isSome = true → (fs' file).isSome = true) :
    (∃ set', effect (importArg fs') g = some set' ∧ set' st = .ok mid) ∧
      (st.Named argv → (∀ file ∈ g.values, file ∈ argv) → mid.Named argv) := by
  by_cases hinput : g.word = "--input" ∨ g.word = "-i"
  · obtain ⟨value, hvalues, rfl⟩ := (effect_eq_of_one (if_pos hinput)).mp heffect
    obtain ⟨u, hcheck, hmid⟩ := bindHalt_eq_ok.mp hset
    have hcheck' := hfiles value (by simp [hvalues]) (checkFile_eq_ok.mp hcheck)
    refine ⟨⟨_, (effect_eq_of_one (if_pos hinput)).mpr ⟨value, hvalues, rfl⟩,
      bindHalt_eq_ok.mpr ⟨u, checkFile_eq_ok.mpr hcheck', hmid⟩⟩, fun hnamed _ => ?_⟩
    cases hmid
    exact hnamed
  · by_cases hppcdis : g.word = "--ppcdis" ∨ g.word = "-p"
    · have hkind : ∀ fs, importArg fs g.word = _ := fun fs => (if_neg hinput).trans (if_pos hppcdis)
      obtain ⟨binYaml, labels, relocs, hvalues, rfl⟩ := (effect_eq_of_three (hkind fs)).mp heffect
      obtain ⟨u₁, hbin, hset⟩ := bindHalt_eq_ok.mp hset
      obtain ⟨u₂, hlabels, hset⟩ := bindHalt_eq_ok.mp hset
      obtain ⟨u₃, hrelocs, hmid⟩ := bindHalt_eq_ok.mp hset
      have hcheck : ∀ file ∈ g.values, (fs file).isSome = true → checkFile fs' 13 file = .ok () :=
        fun file hfile hthere => checkFile_eq_ok.mpr (hfiles file hfile hthere)
      refine ⟨⟨_, (effect_eq_of_three (hkind fs')).mpr ⟨binYaml, labels, relocs, hvalues, rfl⟩, ?_⟩,
        fun hnamed hargv => ?_⟩
      · have hbin' := hcheck binYaml (by simp [hvalues]) (checkFile_eq_ok.mp hbin)
        have hlabels' := hcheck labels (by simp [hvalues]) (checkFile_eq_ok.mp hlabels)
        have hrelocs' := hcheck relocs (by simp [hvalues]) (checkFile_eq_ok.mp hrelocs)
        refine bindHalt_eq_ok.mpr ⟨u₁, hbin', bindHalt_eq_ok.mpr ⟨u₂, hlabels', ?_⟩⟩
        exact bindHalt_eq_ok.mpr ⟨u₃, hrelocs', hmid⟩
      · cases hmid
        refine ⟨hnamed.1, List.forall_mem_append.mpr ⟨hnamed.2, ?_⟩⟩
        rw [hvalues] at hargv
        exact List.forall_mem_singleton.mpr hargv
    · by_cases hsymbols : g.word = "--symbols" ∨ g.word = "-s"
      · have hkind : ∀ fs, importArg fs g.word = _ := fun fs =>
          ((if_neg hinput).trans (if_neg hppcdis)).trans (if_pos hsymbols)
        obtain ⟨value, hvalues, rfl⟩ := (effect_eq_of_one (hkind fs)).mp heffect
        obtain ⟨u, hcheck, hmid⟩ := bindHalt_eq_ok.mp hset
        have hcheck' := hfiles value (by simp [hvalues]) (checkFile_eq_ok.mp hcheck)
        refine ⟨⟨_, (effect_eq_of_one (hkind fs')).mpr ⟨value, hvalues, rfl⟩,
          bindHalt_eq_ok.mpr ⟨u, checkFile_eq_ok.mpr hcheck', hmid⟩⟩, fun hnamed hargv => ?_⟩
        cases hmid
        exact ⟨.inr (hargv value (by simp [hvalues])), hnamed.2⟩
      · have hkind : importArg fs g.word = _ :=
          ((if_neg hinput).trans (if_neg hppcdis)).trans (if_neg hsymbols)
        rw [effect_eq_of_stop hkind] at heffect
        cases heffect

theorem mem_of_mem_values {groups : List ArgumentList.Group} {g : ArgumentList.Group}
    {value : String} (hg : g ∈ groups) (hvalue : value ∈ g.values) : value ∈ groups.flatMap Group.words :=
  List.mem_flatMap.mpr ⟨g, hg, List.mem_cons_of_mem _ hvalue⟩

theorem named_of_parse {args : ImportArgs} (h : parse (importArg fs) argv {} = .ok args) :
    args.Named argv := by
  obtain ⟨groups, rfl, hreads⟩ := parse_eq_ok_iff.mp h
  refine hreads.keeps (I := ImportArgs.Named (groups.flatMap Group.words)) ?_
    ⟨.inl rfl, fun info hinfo => absurd hinfo List.not_mem_nil⟩
  intro g hg set st mid heffect hset hst
  exact (importArg_cases _ heffect hset fun _ _ hthere => hthere).2 hst
    fun value hvalue => mem_of_mem_values hg hvalue

/-- The arguments are read alike where the files are there. -/
theorem parse_importArg_congr {args : ImportArgs} (h : parse (importArg fs) argv {} = .ok args)
    (hfiles : ∀ file ∈ argv, (fs file).isSome = true → (fs' file).isSome = true) :
    parse (importArg fs') argv {} = .ok args := by
  obtain ⟨groups, hwords, hreads⟩ := parse_eq_ok_iff.mp h
  refine parse_eq_ok_iff.mpr ⟨groups, hwords, hreads.mono ?_⟩
  intro g hg set st mid heffect hset
  have hvalues : ∀ file ∈ g.values, (fs file).isSome = true → (fs' file).isSome = true := by
    intro file hfile
    refine hfiles file ?_
    rw [← hwords]
    exact mem_of_mem_values hg hfile
  exact (importArg_cases argv heffect hset hvalues).1

/-- The file at `path` holds what an import has saved, or what has become of it. -/
theorem imported_kept {args : ImportArgs} {project : Project}
    (hargs : parse (importArg fs) argv {} = .ok args)
    (hopen : E.openProject fs args.projectProtoFile = .ok project)
    (h : E.main fs ("importppcdis" :: argv) = (fs', .returned)) : args.Complete ∧ ∃ L,
      loadAnalysisFromPpcdis (E.readers fs) project.programLoader.toProgramLoader
        args.ppcdisInfoFiles args.symbolMap = .ok L ∧
      Kept E.projects args.projectProtoFile
        (FileLibraries.projectProto project.name (project.programLoader.withAnalysis L)) fs' := by
  change finish fs (E.cliImportPpcdis fs argv) = (fs', .returned) at h
  cases hcli : E.cliImportPpcdis fs argv with
  | error e =>
    rw [hcli] at h
    cases h
  | ok result =>
    rw [hcli] at h
    cases h
    obtain ⟨args', project', L, saved, hargs', hcomplete, hopen', hL, hwrite, houtcome⟩ :=
      cliImportPpcdis_eq_ok hcli
    cases hargs.symm.trans hargs'
    cases hopen.symm.trans hopen'
    have hsaved : saved = .ok () := by
      cases saved with
      | error e => cases houtcome
      | ok _ => rfl
    rw [hsaved] at hwrite
    have hholds := FileLibraries.writeProject_holds (congrArg Prod.snd hwrite)
    rw [hwrite] at hholds
    exact ⟨hcomplete, L, hL, _, hholds, rfl, .refl _, LoadedProgram.toProto_wellFormed _⟩

/-- The files an import reads, the project apart. -/
def ImportArgs.inputs (args : ImportArgs) : List String :=
  args.symbolMap :: args.ppcdisInfoFiles.flatMap PpcdisInfoFiles.files

/-- The same binaries and the same entries. -/
structure Same (m m' : Persistence.ProgramLoader) : Prop where
  loaderType : m'.loaderType = m.loaderType
  paths : m'.paths = m.paths
  symtab : m'.symtab = m.symtab
  reloctab : m'.reloctab = m.reloctab

section
variable {args : ImportArgs} {project : Project} {L : ProgramLoader} {m : Persistence.Project}

/-- A later process finds all of it there. -/
theorem reimport_of_kept (halike : E.Alike E'.toFileLibraries)
    (hopen : E.openProject fs args.projectProtoFile = .ok project)
    (hsmall : Ppcdis.SectionsSmall project.programLoader.toProgramLoader.binaries)
    (hL : loadAnalysisFromPpcdis (E.readers fs) project.programLoader.toProgramLoader
      args.ppcdisInfoFiles args.symbolMap = .ok L)
    (hholds : E.projects.Holds fs' args.projectProtoFile m)
    (hgrown : (project.programLoader.withAnalysis L).toProto.Grown m.programLoader)
    (hwell : m.programLoader.WellFormed)
    (hinputs : ∀ file ∈ args.inputs, fs' file = fs file)
    (hbinaries : ∀ file ∈ project.programLoader.toProto.paths, fs' file = fs file) :
    ∃ P L', E'.openProject fs' args.projectProtoFile =
        .ok ⟨m.projectName, P, args.projectProtoFile⟩ ∧
      loadAnalysisFromPpcdis (E'.readers fs') P.toProgramLoader args.ppcdisInfoFiles
        args.symbolMap = .ok L' ∧
      Same m.programLoader (P.withAnalysis L').toProto := by
  obtain ⟨_, m₀, _, _, hfrom₀⟩ := FileLibraries.openProject_eq_ok hopen
  obtain ⟨P₀, hload₀, htype₀, hbinaries₀, _, _⟩ := LoadedProgram.fromProto_eq_ok hfrom₀
  have hadded := LoadedProgram.grown_withAnalysis (loadAnalysisFromPpcdis_added hL)
  -- the first import
  obtain ⟨namemap, hnamemap, hfold⟩ := bind_eq_ok.mp hL
  obtain ⟨hpoints, hpoints'⟩ := LoadedProgram.pointsAt_of_fromProto hfrom₀
  obtain ⟨xs, hxs, hcovered⟩ := Ppcdis.importAll_covered hpoints hpoints' hfold
  -- the project opened again
  have hpaths₀ : project.programLoader.toProto.paths = P₀.toProto.paths := by
    rw [LoadedProgram.paths_toProto, LoadedProgram.paths_toProto, hbinaries₀]
  obtain ⟨htype, hpaths⟩ := LoadedProgram.loadProgram_paths hload₀
  have hload : LoadedProgram.loadProgram E.formats E.fuel fs' m.programLoader.loaderType
      m.programLoader.paths = .ok P₀ := by
    have htype' : m.programLoader.loaderType = m₀.programLoader.loaderType := by
      rw [hgrown.loaderType, hadded.loaderType, ← htype, LoadedProgram.toProto,
        LoadedProgram.toProto, htype₀]
    rw [htype', hgrown.paths, hadded.paths, LoadedProgram.loadProgram_congr hbinaries, hpaths₀,
      hpaths]
    exact hload₀
  obtain ⟨P, hfrom, hbinaries₁⟩ := LoadedProgram.exists_fromProto hwell hload
  have hreopened := LoadedProgram.reopened hwell
    ((LoadedProgram.settles_toProto hfrom₀ hload₀).of_grown (hadded.trans hgrown)) hload hfrom
  have hsame : P.toProgramLoader.binaries = project.programLoader.toProgramLoader.binaries := by
    rw [LoadedProgram.toProgramLoader, LoadedProgram.toProgramLoader, hbinaries₁, hbinaries₀]
  -- the import over again
  have hfilesAlike : ∀ info ∈ args.ppcdisInfoFiles,
      Ppcdis.FilesAlike (E.readers fs) (E'.readers fs') info := fun info hinfo =>
    halike.filesAlike fun file hfile =>
      hinputs file (List.mem_cons_of_mem _ (List.mem_flatMap.mpr ⟨info, hinfo, hfile⟩))
  obtain ⟨xs', hxs', halikes⟩ := Ppcdis.readAll_alike hfilesAlike hxs
  have hcovered' : ∀ x' ∈ xs', x'.Covered P.symtab.symbols P.reloctab.relocs := by
    intro x' hx'
    obtain ⟨x, hx, halike⟩ := halikes x' hx'
    exact ((hcovered x hx).reopened (Ppcdis.readAll_small hsmall hxs x hx) hgrown.symbols
      hgrown.relocs hfrom).of_alike halike
  rw [← hsame] at hxs'
  have hself : args.ppcdisInfoFiles.foldlM (loadBinaryInfoFromPpcdis (E'.readers fs') namemap)
      P.toProgramLoader = .ok _ :=
    Ppcdis.importAll_eq_self_of_covered hreopened.locIndex hreopened.sourceIndex hxs' hcovered'
  have hsymbolMap : (E'.readers fs').symbolMap args.symbolMap = .ok namemap := by
    rw [← hnamemap]
    simp only [FileLibraries.readers]
    rw [halike.symbolMap, hinputs args.symbolMap (List.mem_cons_self ..)]
  have hL' : loadAnalysisFromPpcdis (E'.readers fs') P.toProgramLoader args.ppcdisInfoFiles
      args.symbolMap = .ok _ := bind_eq_ok.mpr ⟨namemap, hsymbolMap, hself⟩
  have hsaved := (LoadedProgram.toProto_of_fromProto hwell hfrom).trans
    (LoadedProgram.grown_withAnalysis (loadAnalysisFromPpcdis_added hL'))
  refine ⟨P, _, ?_, hL', hsaved.loaderType, hsaved.paths, hreopened.symtab, hreopened.reloctab⟩
  rw [FileLibraries.openProject, halike.projects, hholds, halike.formats, halike.fuel]
  dsimp only
  rw [hfrom]
  rfl

end

end Environment

/-! ### What importing again does -/

namespace Environment
open ArgumentList
variable {E E' : Environment} {fs fs' : FileSystem} {argv : List String}

/-- **Importing the same files again adds nothing**, whatever was done in between that spared
the project and left the files alone: the same entries are saved, in the same order. -/
theorem reimport_adds_nothing {args : ImportArgs} {project : Project} {actions : List Action}
    (halike : E.Alike E'.toFileLibraries) (hargs : parse (importArg fs) argv {} = .ok args)
    (hopen : E.openProject fs args.projectProtoFile = .ok project)
    (hsmall : Ppcdis.SectionsSmall project.programLoader.toProgramLoader.binaries)
    (hown : args.projectProtoFile ∉ args.inputs ++ project.programLoader.toProto.paths)
    (himport : E.main fs ("importppcdis" :: argv) = (fs', .returned))
    (hspared : SparedBy E.projects args.projectProtoFile fs' actions)
    (hfiles : ∀ file ∈ argv ++ project.programLoader.toProto.paths,
      file ≠ args.projectProtoFile → run fs' actions file = fs file) :
    ∃ m, E.projects.Holds (run fs' actions) args.projectProtoFile m ∧
      ∃ fs'' outcome, E'.main (run fs' actions) ("importppcdis" :: argv) = (fs'', outcome) ∧
        (outcome = .halted (.threw FileLibraries.writeFailed) ∨ outcome = .returned ∧
          ∃ m', E.projects.Holds fs'' args.projectProtoFile m' ∧
            m'.projectName = m.projectName ∧ Same m.programLoader m'.programLoader) := by
  obtain ⟨hcomplete, L, hL, hkept⟩ := imported_kept hargs hopen himport
  obtain ⟨m, hholds, hname, hgrown, hwell⟩ := run_kept hkept hspared
  obtain ⟨hmap, hinfos⟩ := named_of_parse hargs
  have hinputs : ∀ file ∈ args.inputs, run fs' actions file = fs file := by
    intro file hfile
    have hne : file ≠ args.projectProtoFile := fun heq =>
      hown (heq ▸ List.mem_append_left _ hfile)
    refine hfiles file (List.mem_append_left _ ?_) hne
    rcases List.mem_cons.mp hfile with rfl | hfile
    · refine hmap.resolve_left fun hempty => hcomplete.2 ?_
      rw [hempty]
      rfl
    · obtain ⟨info, hinfo, hfile⟩ := List.mem_flatMap.mp hfile
      exact hinfos info hinfo file hfile
  have hbinaries : ∀ file ∈ project.programLoader.toProto.paths, run fs' actions file = fs file :=
    fun file hfile => hfiles file (List.mem_append_right _ hfile) fun heq =>
      hown (heq ▸ List.mem_append_right _ hfile)
  obtain ⟨P, L', hopen', hL', hsame⟩ :=
    reimport_of_kept halike hopen hsmall hL hholds hgrown hwell hinputs hbinaries
  have hthere : ∀ file ∈ argv, (fs file).isSome = true → (run fs' actions file).isSome = true := by
    intro file hfile hthere
    by_cases heq : file = args.projectProtoFile
    · obtain ⟨data, hdata, _⟩ := Option.bind_eq_some_iff.mp hholds
      rw [heq, hdata]
      rfl
    · rw [hfiles file (List.mem_append_left _ hfile) heq]
      exact hthere
  have hmain := cliImportPpcdis_of (parse_importArg_congr hargs hthere) hcomplete hopen' hL'
  refine ⟨m, hholds, _, _, hmain, ?_⟩
  cases hwrite : (E'.writeProject (run fs' actions) args.projectProtoFile m.projectName
      (P.withAnalysis L')).2 with
  | error e => exact .inl (by rw [FileLibraries.writeProject_error hwrite]; rfl)
  | ok _ =>
    have hholds' := FileLibraries.writeProject_holds hwrite
    rw [halike.projects] at hholds'
    exact .inr ⟨rfl, _, hholds', rfl, hsame⟩

/-- Between the two imports the notes are thrown away. -/
theorem reimport_adds_nothing_label :
    let fs := run Excerpt.importedFiles [.edit "notes.txt" none]
    ∃ m, Excerpt.loopProjects.Holds fs "demo.proj" m ∧ ∃ fs'' outcome,
      Excerpt.importEnvironment.main fs ("importppcdis" :: Excerpt.importCommand) =
        (fs'', outcome) ∧
      (outcome = .halted (.threw FileLibraries.writeFailed) ∨ outcome = .returned ∧
        ∃ m', Excerpt.loopProjects.Holds fs'' "demo.proj" m' ∧
          m'.projectName = m.projectName ∧ Same m.programLoader m'.programLoader) := by
  have hspared : SparedBy Excerpt.importEnvironment.projects "demo.proj" Excerpt.importedFiles
      [.edit "notes.txt" none] :=
    ⟨by change "notes.txt" ≠ "demo.proj"; decide, trivial⟩
  refine reimport_adds_nothing (FileLibraries.Alike.refl _) Excerpt.parse_importCommand
    Excerpt.openProject_loop ?_ ?_ Excerpt.main_importCommand hspared ?_
  · intro b hb
    cases List.mem_singleton.mp hb
    decide
  · decide
  · decide

end Environment

end Ppc2cpp
