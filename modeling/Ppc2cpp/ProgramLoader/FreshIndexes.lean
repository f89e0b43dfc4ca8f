import Ppc2cpp.ProgramLoader.RelBinary

/-! The indexes of a program that was just loaded.

A table answers from an index that is rebuilt on request and not kept up to date. The ELF
loader rebuilds every index after the last entry, so its entries are found
(`ElfProgramLoader.load_indexed`). The REL loader adds relocations and leaves the index of
their sources empty, so it finds none of them: its program is indexed exactly when there
was none to add (`loadProgram_indexed_iff`). -/
namespace Ppc2cpp

/-! ### Entries that are found -/

/-- For every entry, some entry at its section and offset is found, and for every entry
that is not local, some entry of its name. -/
structure SymbolTable.Indexed (t : SymbolTable) : Prop where
  byLocation : ∀ s ∈ t.symbols, ∃ s', t.lookupByLocation s.location = some s' ∧
    s'.location.toBinaryLocation = s.location.toBinaryLocation
  byName : ∀ s ∈ t.symbols, s.symbolBinding ≠ .LOCAL →
    ∃ s', t.lookupByName s.name = some s' ∧ s'.name = s.name

def RelocationTable.Indexed (t : RelocationTable) : Prop :=
  ∀ r ∈ t.relocs, ∃ r', t.lookupBySource r.source = some r' ∧
    r'.source.toBinaryLocation = r.source.toBinaryLocation

structure LoadedProgram.Indexed (P : LoadedProgram) : Prop where
  symtab : P.symtab.Indexed
  reloctab : P.reloctab.Indexed

/-- A search by an element's own key finds an element with that key. -/
theorem exists_find? {α : Type} {p : α → Bool} {xs : List α} {x : α} (hx : x ∈ xs)
    (hp : p x = true) : ∃ y, xs.find? p = some y ∧ p y = true := by
  have hfound : (xs.find? p).isSome := by
    rw [List.find?_isSome]
    exact ⟨x, hx, hp⟩
  obtain ⟨y, hy⟩ := Option.isSome_iff_exists.mp hfound
  exact ⟨y, hy, List.find?_some hy⟩

theorem exists_find?_location {α : Type} (location : α → ProgramLocation) {xs : List α} {x : α}
    (hx : x ∈ xs) : ∃ y, xs.find? (fun y => locationKeyEq (location y) (location x)) = some y ∧
      (location y).toBinaryLocation = (location x).toBinaryLocation := by
  obtain ⟨y, hy, hkey⟩ := exists_find? (p := fun y => locationKeyEq (location y) (location x)) hx
    (locationKeyEq_keyEq.refl _)
  exact ⟨y, hy, (BinaryLocation.operatorEq_iff _ _).mp hkey⟩

theorem SymbolTable.indexed_construct (t : SymbolTable) :
    t.constructNameIndex.constructLocationIndex.Indexed where
  byLocation s hs := by
    rw [lookupByLocation_constructLocationIndex]
    exact exists_find?_location Symbol.location hs
  byName s hs hlocal := by
    have hindex : t.constructNameIndex.constructLocationIndex.lookupByName s.name =
        t.constructNameIndex.lookupByName s.name := rfl
    rw [hindex, lookupByName_constructNameIndex]
    obtain ⟨s', hs', htest⟩ := exists_find? (p := fun s' : Symbol =>
      decide (s'.symbolBinding ≠ .LOCAL) && s'.name == s.name) hs (by simp [hlocal])
    simp only [Bool.and_eq_true, beq_iff_eq] at htest
    exact ⟨s', hs', htest.2⟩

theorem RelocationTable.indexed_construct (t : RelocationTable) :
    t.constructSourceIndex.Indexed := by
  intro r hr
  rw [lookupBySource_constructSourceIndex]
  exact exists_find?_location Relocation.source hr

/-- With an empty index nothing is found. -/
theorem RelocationTable.indexed_iff_of_sourceIndex {t : RelocationTable} (h : t.sourceIndex = []) :
    t.Indexed ↔ t.relocs = [] := by
  constructor
  · intro hindexed
    rw [List.eq_nil_iff_forall_not_mem]
    intro r hr
    obtain ⟨r', hr', _⟩ := hindexed r hr
    rw [lookupBySource, h, FirstWins.find_nil] at hr'
    cases hr'
  · intro hnil r hr
    rw [hnil] at hr
    cases hr

theorem SymbolTable.indexed_empty : SymbolTable.Indexed {} where
  byLocation s hs := by cases hs
  byName s hs := by cases hs

/-! ### ELF -/

theorem ElfProgramLoader.load_indexed {formats : Formats} {fs : FileSystem}
    {binaryPaths : List String} {P : LoadedProgram} (h : load formats fs binaryPaths = .ok P) :
    P.Indexed := by
  simp only [load, bind_eq_ok, Prod.exists] at h
  obtain ⟨Q, elfs, _, reloctab, _, h⟩ := h
  cases h
  exact ⟨Q.symtab.indexed_construct, reloctab.indexed_construct⟩

/-! ### DOL and REL -/

theorem Dol.load_kind {formats : Formats} {fs : FileSystem} {path : String} {b : LoadedBinary}
    (h : Dol.load formats fs path = .ok b) : b.kind = .dol := by
  simp only [Dol.load, bind_eq_ok] at h
  obtain ⟨data, _, secs, _, h⟩ := h
  cases h
  rfl

theorem Rel.load_kind {formats : Formats} {fuel : Nat} {fs : FileSystem} {path : String}
    {b : LoadedBinary}
    (h : Rel.load formats fuel fs path = .ok b) :
    ∃ moduleId relocLUT, b.kind = .rel moduleId relocLUT := by
  simp only [Rel.load, bind_eq_ok] at h
  obtain ⟨data, _, rel, _, sections, _, h⟩ := h
  cases h
  exact ⟨_, _, rfl⟩

namespace NinProgramLoader

/-- Some word of a text section is a branch to a place that the search finds a section for. -/
def FindsTarget (sections : List BinarySection) : Prop :=
  ∃ s ∈ sections, s.type = .TEXT ∧ ∃ j < s.length.toNat / 4,
    isBranchUncoditional (be32 s.buffer j) = true ∧
      ∃ u ∈ sections, (⟨s.branchTargetOff j, u.length⟩ : AddressRange 32).testEnd u.offset = true

theorem findSectionByOffset_isSome {b : Binary} {off : BitVec 32} :
    (b.findSectionByOffset off).isSome = true ↔
      ∃ u ∈ b.sections, (⟨off, u.length⟩ : AddressRange 32).testEnd u.offset = true := by
  rw [Binary.findSectionByOffset_eq, List.findIdx?_isSome, List.any_eq_true]

theorem rel24Reloc?_isSome {rel : Binary} {binaryIdx i j : Nat} {s : BinarySection} :
    (rel24Reloc? rel binaryIdx i s j).isSome = true ↔
      isBranchUncoditional (be32 s.buffer j) = true ∧
        (rel.findSectionByOffset (s.branchTargetOff j)).isSome = true := by
  unfold rel24Reloc?
  split
  · next hbranch => simp [hbranch]
  · next hbranch => simp [hbranch]

/-- A relocation is registered for the REL iff a target is found. -/
theorem exists_mem_relocs_iff {rel : Binary} {binaryIdx : Nat} :
    (∃ r, r ∈ rel.sections.zipIdx.flatMap (sectionRel24Relocs rel binaryIdx)) ↔
      FindsTarget rel.sections := by
  constructor
  · rintro ⟨r, hr⟩
    obtain ⟨p, hp, hr⟩ := List.mem_flatMap.mp hr
    have hs : p.1 ∈ rel.sections := List.mem_of_getElem? (List.mem_zipIdx_iff_getElem?.mp hp)
    unfold sectionRel24Relocs at hr
    split at hr
    · next htext =>
      obtain ⟨j, hj, hreloc⟩ := List.mem_filterMap.mp hr
      obtain ⟨hbranch, hfound⟩ := rel24Reloc?_isSome.mp (Option.isSome_of_mem hreloc)
      exact ⟨p.1, hs, htext, j, List.mem_range.mp hj, hbranch, findSectionByOffset_isSome.mp hfound⟩
    · cases hr
  · rintro ⟨s, hs, htext, j, hj, hbranch, hfound⟩
    obtain ⟨i, hi⟩ := List.mem_iff_getElem?.mp hs
    have hreloc : (rel24Reloc? rel binaryIdx i s j).isSome = true :=
      rel24Reloc?_isSome.mpr ⟨hbranch, findSectionByOffset_isSome.mpr hfound⟩
    obtain ⟨r, hr⟩ := Option.isSome_iff_exists.mp hreloc
    exact ⟨r, ((mem_relocs_at_iff hi htext hj r).mpr hr).1⟩

/-- The names of the sections play no part. -/
theorem FindsTarget.rename {sections sections' : List BinarySection} (h : FindsTarget sections)
    (hsame : ∀ s ∈ sections, ∃ s' ∈ sections', ∃ name, s = {s' with name := name}) :
    FindsTarget sections' := by
  obtain ⟨s, hs, htext, j, hj, hbranch, u, hu, htest⟩ := h
  obtain ⟨s', hs', _, rfl⟩ := hsame s hs
  obtain ⟨u', hu', _, rfl⟩ := hsame u hu
  exact ⟨s', hs', htext, j, hj, hbranch, u', hu', htest⟩

theorem findsTarget_iff_of_sectionOf {file : Bytes} {rel : NinRel} {sections : List BinarySection}
    (h : List.Forall₂ (Rel.SectionOf file rel) rel.sections sections) :
    FindsTarget sections ↔ FindsTarget (rel.sections.map (RelSection.ofNin file rel)) := by
  constructor
  · refine fun hfinds => hfinds.rename fun s hs => ?_
    obtain ⟨n, hn, name, hname⟩ := forall₂_exists_left h hs
    exact ⟨_, List.mem_map_of_mem hn, name, hname⟩
  · refine fun hfinds => hfinds.rename fun s' hs' => ?_
    obtain ⟨n, hn, rfl⟩ := List.mem_map.mp hs'
    obtain ⟨s, hs, name, rfl⟩ := forall₂_exists_left h.flip hn
    exact ⟨_, hs, n.name, rfl⟩

/-! ### The loop over the binaries -/

theorem registerRel24Relocs_sourceIndex (reloctab : RelocationTable) (rel : Binary)
    (binaryIdx : Nat) :
    (registerRel24Relocs reloctab rel binaryIdx).sourceIndex = reloctab.sourceIndex := by
  refine Appending.view_foldl_of_kept RelocationTable.sourceIndex (fun t p => ?_) _ _
  dsimp only
  split
  · refine Appending.view_foldl_of_kept RelocationTable.sourceIndex (fun t j => ?_) _ _
    unfold registerRel24Reloc
    dsimp only
    split
    · split
      · rfl
      · rfl
    · rfl
  · rfl

/-- The relocations registered for a binary. -/
def binaryRelocs (p : LoadedBinary × Nat) : List Relocation :=
  match p.1.kind with
  | .rel _ _ => p.1.sections.zipIdx.flatMap (sectionRel24Relocs p.1.toBinary p.2)
  | _ => []

/-- What is loaded: the files, and relocations that are not indexed. -/
structure Unindexed (formats : Formats) (fuel : Nat) (fs : FileSystem) (binaryPaths : List String)
    (P : LoadedProgram) : Prop where
  binaries : List.Forall₂ (fun path b => loadBinary formats fuel fs path = .ok b) binaryPaths
    P.binaries
  symtab : P.symtab = {}
  relocs : P.reloctab.relocs = P.binaries.zipIdx.flatMap binaryRelocs
  sourceIndex : P.reloctab.sourceIndex = []

variable {formats : Formats} {fuel : Nat} {fs : FileSystem} {binaryPaths : List String}
  {P : LoadedProgram}

theorem load_unindexed (h : load formats fuel fs binaryPaths = .ok P) :
    Unindexed formats fuel fs binaryPaths P := by
  simp only [load, bind_eq_ok] at h
  obtain ⟨binaries, hbinaries, h⟩ := h
  cases h
  refine ⟨forall₂_of_mapM (fun _ _ hb => hb) hbinaries, rfl, ?_, ?_⟩
  · refine Appending.view_foldl RelocationTable.relocs (fun t p => ?_) _ _
    unfold binaryRelocs
    cases p.1.kind with
    | rel moduleId relocLUT => exact registerRel24Relocs_relocs t p.1.toBinary p.2
    | elf => exact (List.append_nil _).symm
    | dol => exact (List.append_nil _).symm
  · refine Appending.view_foldl_of_kept RelocationTable.sourceIndex (fun t p => ?_) _ _
    cases p.1.kind with
    | rel moduleId relocLUT => exact registerRel24Relocs_sourceIndex t p.1.toBinary p.2
    | elf => rfl
    | dol => rfl

/-- The file is a REL that ninutils can read, with a branch whose target is found. -/
def RegistersReloc (formats : Formats) (fs : FileSystem) (path : String) : Prop :=
  fileExtension (filename path) = .ok ".rel" ∧ ∃ file rel, fs path = some file ∧
    formats.rel file = .ok rel ∧ FindsTarget (rel.sections.map (RelSection.ofNin file rel))

/-- A relocation is registered for a binary iff its file is a REL that has one to register. -/
theorem exists_mem_binaryRelocs_iff {path : String} {b : LoadedBinary}
    (h : loadBinary formats fuel fs path = .ok b) (i : Nat) :
    (∃ r, r ∈ binaryRelocs (b, i)) ↔ RegistersReloc formats fs path := by
  simp only [loadBinary, bind_eq_ok] at h
  obtain ⟨_, _, extension, hextension, h⟩ := h
  unfold binaryRelocs RegistersReloc
  rw [hextension]
  split at h
  · next hdol =>
    rw [Dol.load_kind h, hdol]
    simp
  · split at h
    · next hrel =>
      obtain ⟨moduleId, relocLUT, hkind⟩ := Rel.load_kind h
      obtain ⟨rel, hread, hsections⟩ := Rel.load_sections h
      have hdata := (Rel.load_readFrom h).data
      dsimp only
      rw [hkind]
      dsimp only
      rw [exists_mem_relocs_iff, findsTarget_iff_of_sectionOf hsections]
      constructor
      · exact fun hfinds => ⟨by rw [hrel], _, rel, hdata, hread, hfinds⟩
      · rintro ⟨_, file, rel', hfile, hrel', hfinds⟩
        obtain rfl := Option.some.inj (hdata.symm.trans hfile)
        obtain rfl := Except.ok.inj (hread.symm.trans hrel')
        exact hfinds
    · cases h

/-- The program is indexed iff no relocation was registered. -/
theorem Unindexed.indexed_iff (h : Unindexed formats fuel fs binaryPaths P) :
    P.Indexed ↔ ∀ path ∈ binaryPaths, ¬ RegistersReloc formats fs path := by
  have hindexed : P.Indexed ↔ P.reloctab.relocs = [] := by
    rw [← RelocationTable.indexed_iff_of_sourceIndex h.sourceIndex]
    refine ⟨LoadedProgram.Indexed.reloctab, fun hreloctab => ⟨?_, hreloctab⟩⟩
    rw [h.symtab]
    exact SymbolTable.indexed_empty
  rw [hindexed, h.relocs, List.eq_nil_iff_forall_not_mem]
  constructor
  · intro hnone path hpath hregisters
    obtain ⟨k, hk⟩ := List.mem_iff_getElem?.mp hpath
    obtain ⟨b, hb, hload⟩ := forall₂_getElem? h.binaries hk
    obtain ⟨r, hr⟩ := (exists_mem_binaryRelocs_iff hload k).mpr hregisters
    exact hnone r (List.mem_flatMap.mpr ⟨(b, k), List.mem_zipIdx_iff_getElem?.mpr hb, hr⟩)
  · intro hnone r hr
    obtain ⟨p, hp, hr⟩ := List.mem_flatMap.mp hr
    obtain ⟨path, hpath, hload⟩ := forall₂_exists_left h.binaries
      (List.mem_of_getElem? (List.mem_zipIdx_iff_getElem?.mp hp))
    exact hnone path hpath ((exists_mem_binaryRelocs_iff hload p.2).mp ⟨r, hr⟩)

end NinProgramLoader

open NinProgramLoader

/-- **The indexes of a program just loaded are coherent iff it is an ELF program or none of
its RELs has a relocation to register.** -/
theorem loadProgram_indexed_iff {formats : Formats} {fuel : Nat} {fs : FileSystem}
    {loaderType : Persistence.ProgramLoaderType} {binaryPaths : List String} {P : LoadedProgram}
    (h : LoadedProgram.loadProgram formats fuel fs loaderType binaryPaths = .ok P) :
    P.Indexed ↔ loaderType = .LOADER_ELF ∨
      ∀ path ∈ binaryPaths, ¬ RegistersReloc formats fs path := by
  cases loaderType with
  | LOADER_UNSPECIFIED => cases h
  | LOADER_RVL =>
    rw [(load_unindexed h).indexed_iff]
    simp
  | LOADER_ELF =>
    have hindexed := ElfProgramLoader.load_indexed h
    simp [hindexed]

/-! ### A branch to itself -/

/-- A character that is not the separator. -/
theorem splitOnAux_skip {s sep : String} {b i : String.Pos.Raw} {r : List String}
    (hin : i.atEnd s = false) (hne : (i.get s == (0 : String.Pos.Raw).get sep) = false) :
    s.splitOnAux sep b i 0 r = s.splitOnAux sep b ((i.unoffsetBy 0).next s) 0 r := by
  rw [String.splitOnAux.eq_def, if_neg (by rw [hin]; decide), if_neg (by rw [hne]; decide)]

/-- The separator, of one character. -/
theorem splitOnAux_hit {s sep : String} {b i : String.Pos.Raw} {r : List String}
    (hin : i.atEnd s = false) (heq : (i.get s == (0 : String.Pos.Raw).get sep) = true)
    (hlast : ((0 : String.Pos.Raw).next sep).atEnd sep = true) :
    s.splitOnAux sep b i 0 r = s.splitOnAux sep (i.next s) (i.next s) 0
      (b.extract s ((i.next s).unoffsetBy ((0 : String.Pos.Raw).next sep)) :: r) := by
  rw [String.splitOnAux.eq_def, if_neg (by rw [hin]; decide), if_pos heq]
  dsimp only
  rw [if_pos hlast]

theorem splitOnAux_end {s sep : String} {b i : String.Pos.Raw} {r : List String}
    (hin : i.atEnd s = true) : s.splitOnAux sep b i 0 r = (b.extract s i :: r).reverse := by
  rw [String.splitOnAux.eq_def, if_pos hin]

theorem filename_rel : filename "a.rel" = "a.rel" := by
  have hparts : "a.rel".splitOn "/" = ["a.rel"] := by
    rw [String.splitOn, if_neg (by decide), splitOnAux_skip (by rfl) (by decide),
      splitOnAux_skip (by rfl) (by decide), splitOnAux_skip (by rfl) (by decide),
      splitOnAux_skip (by rfl) (by decide), splitOnAux_skip (by rfl) (by decide),
      splitOnAux_end (by rfl)]
    rfl
  rw [filename, hparts]
  rfl

theorem splitOn_rel : "a.rel".splitOn "." = ["a", "rel"] := by
  rw [String.splitOn, if_neg (by decide), splitOnAux_skip (by rfl) (by decide),
    splitOnAux_hit (by rfl) (by decide) (by rfl), splitOnAux_skip (by rfl) (by decide),
    splitOnAux_skip (by rfl) (by decide), splitOnAux_skip (by rfl) (by decide),
    splitOnAux_end (by rfl)]
  rfl

theorem fileExtension_rel : fileExtension (filename "a.rel") = .ok ".rel" := by
  rw [filename_rel, fileExtension, splitOn_rel]
  rfl

/-- `b .` and `blr` in the text section of `branchRel`. -/
def loopFile : Bytes :=
  List.replicate 0x40 0 ++ [0x48, 0x00, 0x00, 0x00, 0x4e, 0x80, 0x00, 0x20]

def loopBinary : LoadedBinary where
  name := filename "a.rel"
  kind := .rel 1 []
  sections := [⟨"", 0, 0, .NOLOAD, .rel 0, loopFile⟩,
    ⟨".text", 0x40, 8, .TEXT, .rel 0x40, loopFile.drop 0x40⟩]
  filepath := "a.rel"
  data := loopFile

def loopProgram : LoadedProgram where
  loaderType := .rvl
  binaries := [loopBinary]
  reloctab := {relocs := [⟨⟨⟨1, 0⟩, 0⟩, ⟨⟨1, 0x40⟩, 0⟩, relocREL24, 0⟩]}

theorem loadBinary_loopBinary :
    loadBinary branchFormats 4 (fun _ => some loopFile) "a.rel" = .ok loopBinary := by
  simp only [loadBinary, fileExtension_rel]
  rfl

theorem load_loopProgram : LoadedProgram.loadProgram branchFormats 4 (fun _ => some loopFile)
    .LOADER_RVL ["a.rel"] = .ok loopProgram := by
  rw [LoadedProgram.loadProgram, load, List.mapM_cons, loadBinary_loopBinary]
  rfl

/-- The relocation of the branch is not found at the branch. -/
theorem loopProgram_not_indexed : ¬ ∀ formats fuel fs loaderType binaryPaths P,
    LoadedProgram.loadProgram formats fuel fs loaderType binaryPaths = .ok P → P.Indexed := by
  intro h
  have hindexed := h branchFormats 4 _ .LOADER_RVL ["a.rel"] loopProgram load_loopProgram
  obtain ⟨r, hr, _⟩ := hindexed.reloctab _ List.mem_cons_self
  cases hr

theorem loadProgram_indexed_iff_loopProgram :
    loopProgram.Indexed ↔ Persistence.ProgramLoaderType.LOADER_RVL = .LOADER_ELF ∨
      ∀ path ∈ ["a.rel"], ¬ RegistersReloc branchFormats (fun _ => some loopFile) path :=
  loadProgram_indexed_iff load_loopProgram

end Ppc2cpp
