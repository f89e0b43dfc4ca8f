import Ppc2cpp.Analysis.PpcdisAnalysis
import Ppc2cpp.ProgramLoader.Addresses

/-! What importing ppcdis information adds to the tables.

Adding an entry does not bring the index of its table up to date, and nothing brings it up
to date while files are imported, so the lookups that ask whether an entry is there know of
the entries from before the import only (`lookupByLocation_extend`). What a file adds
therefore depends on where the binaries are placed and on the tables before the import, and
not on the files imported before it. -/
namespace Ppc2cpp

/-! ### Tables with entries their index does not know -/

def SymbolTable.extend (t : SymbolTable) (added : List Symbol) : SymbolTable :=
  {t with symbols := t.symbols ++ added}

def RelocationTable.extend (t : RelocationTable) (added : List Relocation) : RelocationTable :=
  {t with relocs := t.relocs ++ added}

theorem SymbolTable.lookupByLocation_extend {t : SymbolTable} (h : t.constructLocationIndex = t)
    (added : List Symbol) (loc : ProgramLocation) :
    (t.extend added).lookupByLocation loc = t.lookupByLocation loc :=
  FirstWins.find_index_append locationKeyEq_keyEq (congrArg SymbolTable.locIndex h) added loc

theorem RelocationTable.lookupBySource_extend {t : RelocationTable}
    (h : t.constructSourceIndex = t) (added : List Relocation) (loc : ProgramLocation) :
    (t.extend added).lookupBySource loc = t.lookupBySource loc :=
  FirstWins.find_index_append locationKeyEq_keyEq (congrArg RelocationTable.sourceIndex h) added loc

namespace Ppcdis

/-! ### What the files of a binary add -/

/-- The contents of the files of a binary, with all binaries as they are placed then. -/
structure Imported where
  binaries : List Binary
  binaryIdx : Nat
  labels : AddressMap Label
  relocs : AddressMap Reloc

namespace Imported

def resolve (x : Imported) (addr : BitVec 32) : Option ProgramLocation :=
  ProgramLoader.resolveVMAFrom addr 0 x.binaries

/-- Where a label adds a symbol to the table, if it does. -/
def newLoc? (t : SymbolTable) (x : Imported) (it : BitVec 32 × Label) : Option ProgramLocation :=
  (x.resolve it.1).filter fun loc =>
    loc.binaryIdx == x.binaryIdx && (t.lookupByLocation loc).isNone && it.2.type.symbolType.isSome

/-- Where a relocation is added to the table, if it is. -/
def newSource? (t : RelocationTable) (x : Imported) (it : BitVec 32 × Reloc) :
    Option ProgramLocation :=
  (x.resolve it.1).filter fun loc => (t.lookupBySource loc).isNone

def newLocs (t : SymbolTable) (x : Imported) : List ProgramLocation :=
  x.labels.entries.filterMap (newLoc? t x)

def newSources (t : RelocationTable) (x : Imported) : List ProgramLocation :=
  x.relocs.entries.filterMap (newSource? t x)

/-- Every address of the files is in some section. -/
def Resolved (x : Imported) : Prop :=
  (∀ it ∈ x.labels.entries, (x.resolve it.1).isSome) ∧
    ∀ it ∈ x.relocs.entries, (x.resolve it.1).isSome

end Imported

/-! ### One binary -/

theorem assertResolved_eq_ok {pLoader : ProgramLoader} {addr : BitVec 32} {loc : ProgramLocation} :
    assertResolved pLoader addr = .ok loc ↔ pLoader.resolveVMA addr = some loc := by
  unfold assertResolved
  cases pLoader.resolveVMA addr <;> simp

section Binary
variable {symtab₀ : SymbolTable} {reloctab₀ : RelocationTable} {pLoader : ProgramLoader}
  {x : Imported} {namemap : List (BitVec 32 × String)}

/-- The symbol a label adds. -/
def newSymbol? (t : SymbolTable) (x : Imported) (namemap : List (BitVec 32 × String))
    (it : BitVec 32 × Label) : Option Symbol :=
  (x.newLoc? t it).bind fun loc => it.2.type.symbolType.map fun symbolType =>
    ⟨labelName namemap it.1, loc, it.2.size, symbolType, .GLOBAL⟩

theorem newSymbol?_location (t : SymbolTable) (x : Imported) (it : BitVec 32 × Label) :
    (newSymbol? t x namemap it).toList.map Symbol.location = (x.newLoc? t it).toList := by
  unfold newSymbol?
  cases hloc : x.newLoc? t it with
  | none => rfl
  | some loc =>
    obtain ⟨_, hnew⟩ := Option.filter_eq_some_iff.mp hloc
    obtain ⟨symbolType, htype⟩ := Option.isSome_iff_exists.mp (Bool.and_eq_true_iff.mp hnew).2
    simp [htype]

theorem resolve_of_assertResolved (hbinaries : pLoader.binaries = x.binaries) {addr : BitVec 32}
    {loc : ProgramLocation} (h : assertResolved pLoader addr = .ok loc) :
    x.resolve addr = some loc := by
  rw [← assertResolved_eq_ok.mp h, ProgramLoader.resolveVMA, hbinaries, Imported.resolve]

/-- A label that resolves adds its new symbol, if it has one. -/
theorem importLabel_eq (hindex : symtab₀.constructLocationIndex = symtab₀)
    (hbinaries : pLoader.binaries = x.binaries) (before : List Symbol) (it : BitVec 32 × Label) :
    importLabel pLoader namemap x.binaryIdx (symtab₀.extend before) it =
      (assertResolved pLoader it.1).map fun _ =>
        symtab₀.extend (before ++ (newSymbol? symtab₀ x namemap it).toList) := by
  rw [importLabel]
  cases hassert : assertResolved pLoader it.1 with
  | error e => rfl
  | ok symLoc =>
    have hloc := resolve_of_assertResolved hbinaries hassert
    simp only [bind, Except.bind, pure, Except.pure, Except.map, newSymbol?, Imported.newLoc?,
      hloc, Option.filter]
    rw [SymbolTable.lookupByLocation_extend hindex]
    by_cases hidx : symLoc.binaryIdx = x.binaryIdx
    · rw [if_neg (not_not.mpr hidx)]
      by_cases hknown : (symtab₀.lookupByLocation symLoc).isSome = true
      · rw [if_pos hknown]
        simp [Option.ne_none_iff_isSome.mpr hknown]
      · rw [if_neg hknown]
        cases htype : it.2.type.symbolType with
        | none => simp
        | some symbolType =>
          have hnone : symtab₀.lookupByLocation symLoc = none := by simpa using hknown
          simp [hidx, hnone, SymbolTable.extend, SymbolTable.pushBack]
    · simp [hidx]

/-- A relocation is added at its new source, if it has one. -/
theorem importReloc_eq_ok (hindex : reloctab₀.constructSourceIndex = reloctab₀)
    (hbinaries : pLoader.binaries = x.binaries) {before : List Relocation}
    {it : BitVec 32 × Reloc} {t : RelocationTable}
    (h : importReloc pLoader (reloctab₀.extend before) it = .ok t) :
    (x.resolve it.1).isSome = true ∧ ∃ added, t = reloctab₀.extend (before ++ added) ∧
      added.map Relocation.source = (x.newSource? reloctab₀ it).toList := by
  obtain ⟨location, hassert, h⟩ := bind_eq_ok.mp h
  have hloc := resolve_of_assertResolved hbinaries hassert
  rw [RelocationTable.lookupBySource_extend hindex] at h
  rw [Imported.newSource?, hloc]
  refine ⟨rfl, ?_⟩
  by_cases hknown : (reloctab₀.lookupBySource location).isSome = true
  · rw [if_pos hknown] at h
    cases h
    refine ⟨[], by rw [List.append_nil], ?_⟩
    simp [Option.filter, Option.ne_none_iff_isSome.mpr hknown]
  · rw [if_neg hknown] at h
    obtain ⟨target, _, h⟩ := bind_eq_ok.mp h
    obtain ⟨elfRelocType, _, h⟩ := bind_eq_ok.mp h
    cases h
    have hnone : reloctab₀.lookupBySource location = none := by simpa using hknown
    refine ⟨[_], congrArg (fun relocs => {reloctab₀ with relocs := relocs})
      (List.append_assoc _ _ _), ?_⟩
    simp [Option.filter, hnone]

theorem importReloc_eq_self (hindex : reloctab₀.constructSourceIndex = reloctab₀)
    (hbinaries : pLoader.binaries = x.binaries) (before : List Relocation)
    {it : BitVec 32 × Reloc} (hresolved : (x.resolve it.1).isSome = true)
    (hnew : x.newSource? reloctab₀ it = none) :
    importReloc pLoader (reloctab₀.extend before) it = .ok (reloctab₀.extend before) := by
  obtain ⟨location, hloc⟩ := Option.isSome_iff_exists.mp hresolved
  have hassert : assertResolved pLoader it.1 = .ok location := by
    rw [assertResolved_eq_ok, ProgramLoader.resolveVMA, hbinaries]
    exact hloc
  have hknown : (reloctab₀.lookupBySource location).isSome = true := by
    rw [Imported.newSource?, hloc] at hnew
    simpa [Option.filter, Option.isSome_iff_ne_none] using hnew
  simp only [importReloc, hassert, bind, Except.bind]
  rw [RelocationTable.lookupBySource_extend hindex, if_pos hknown]
  rfl

theorem importLabel_eq_self (hindex : symtab₀.constructLocationIndex = symtab₀)
    (hbinaries : pLoader.binaries = x.binaries) (before : List Symbol)
    {it : BitVec 32 × Label} (hresolved : (x.resolve it.1).isSome = true)
    (hnew : x.newLoc? symtab₀ it = none) :
    importLabel pLoader namemap x.binaryIdx (symtab₀.extend before) it =
      .ok (symtab₀.extend before) := by
  obtain ⟨symLoc, hloc⟩ := Option.isSome_iff_exists.mp hresolved
  have hassert : assertResolved pLoader it.1 = .ok symLoc := by
    rw [assertResolved_eq_ok, ProgramLoader.resolveVMA, hbinaries]
    exact hloc
  rw [importLabel_eq hindex hbinaries, hassert, newSymbol?, hnew]
  exact congrArg Except.ok (congrArg symtab₀.extend (List.append_nil before))

/-- What an import makes of a program: tables with entries added behind those of before, at
the given places. -/
structure Adds (symtab₀ : SymbolTable) (reloctab₀ : RelocationTable) (L L' : ProgramLoader)
    (locs sources : List ProgramLocation) : Prop where
  symtab : ∃ all, L'.symtab = symtab₀.extend all
  reloctab : ∃ all, L'.reloctab = reloctab₀.extend all
  locs : ∃ added, added.map Symbol.location = locs ∧
    L'.symtab.symbols = L.symtab.symbols ++ added
  sources : ∃ added, added.map Relocation.source = sources ∧
    L'.reloctab.relocs = L.reloctab.relocs ++ added

theorem Adds.trans {L L' L'' : ProgramLoader} {locs locs' sources sources' : List ProgramLocation}
    (h : Adds symtab₀ reloctab₀ L L' locs sources)
    (h' : Adds symtab₀ reloctab₀ L' L'' locs' sources') :
    Adds symtab₀ reloctab₀ L L'' (locs ++ locs') (sources ++ sources') := by
  obtain ⟨added, hlocs, hsymbols⟩ := h.locs
  obtain ⟨added', hlocs', hsymbols'⟩ := h'.locs
  obtain ⟨relocs, hsources, hrelocs⟩ := h.sources
  obtain ⟨relocs', hsources', hrelocs'⟩ := h'.sources
  refine ⟨h'.symtab, h'.reloctab, ⟨added ++ added', ?_, ?_⟩, ⟨relocs ++ relocs', ?_, ?_⟩⟩
  · rw [List.map_append, hlocs, hlocs']
  · rw [hsymbols', hsymbols, List.append_assoc]
  · rw [List.map_append, hsources, hsources']
  · rw [hrelocs', hrelocs, List.append_assoc]

/-- Importing the contents of the files of a binary, which is placed already. -/
def importContents (namemap : List (BitVec 32 × String)) (pLoader : ProgramLoader)
    (x : Imported) : Except Error ProgramLoader := do
  let pLoader := {pLoader with binaries := x.binaries}
  let symtab ← x.labels.entries.foldlM (importLabel pLoader namemap x.binaryIdx) pLoader.symtab
  let reloctab ← x.relocs.entries.foldlM (importReloc pLoader) pLoader.reloctab
  return {pLoader with symtab := symtab, reloctab := reloctab}

/-- The table is that of before the import with entries added. -/
structure Extended (symtab₀ : SymbolTable) (reloctab₀ : RelocationTable) (L : ProgramLoader) :
    Prop where
  symtab : ∃ all, L.symtab = symtab₀.extend all
  reloctab : ∃ all, L.reloctab = reloctab₀.extend all

theorem importLabels_adds (hindex : symtab₀.constructLocationIndex = symtab₀)
    (hbinaries : pLoader.binaries = x.binaries) {labels : List (BitVec 32 × Label)}
    {t t' : SymbolTable} (ht : ∃ all, t = symtab₀.extend all)
    (h : labels.foldlM (importLabel pLoader namemap x.binaryIdx) t = .ok t') :
    (∃ all, t' = symtab₀.extend all) ∧
      ∃ added, added.map Symbol.location = labels.filterMap (x.newLoc? symtab₀) ∧
        t'.symbols = t.symbols ++ added := by
  rw [List.filterMap_eq_flatMap_toList]
  refine Appending.keys_foldlM SymbolTable.symbols
    (I := fun t => ∃ all, t = symtab₀.extend all) (fun s it s' hs hit => ?_) ht h
  obtain ⟨before, rfl⟩ := hs
  rw [importLabel_eq hindex hbinaries] at hit
  obtain ⟨_, _, rfl⟩ := map_eq_ok.mp hit
  exact ⟨⟨_, rfl⟩, _, newSymbol?_location symtab₀ x it, (List.append_assoc _ _ _).symm⟩

theorem importRelocs_adds (hindex : reloctab₀.constructSourceIndex = reloctab₀)
    (hbinaries : pLoader.binaries = x.binaries) {relocs : List (BitVec 32 × Reloc)}
    {t t' : RelocationTable} (ht : ∃ all, t = reloctab₀.extend all)
    (h : relocs.foldlM (importReloc pLoader) t = .ok t') :
    (∃ all, t' = reloctab₀.extend all) ∧
      ∃ added, added.map Relocation.source = relocs.filterMap (x.newSource? reloctab₀) ∧
        t'.relocs = t.relocs ++ added := by
  rw [List.filterMap_eq_flatMap_toList]
  refine Appending.keys_foldlM RelocationTable.relocs
    (I := fun t => ∃ all, t = reloctab₀.extend all) (fun s it s' hs hit => ?_) ht h
  obtain ⟨before, rfl⟩ := hs
  obtain ⟨_, added, rfl, hadded⟩ := importReloc_eq_ok hindex hbinaries hit
  exact ⟨⟨_, rfl⟩, added, hadded, (List.append_assoc _ _ _).symm⟩

/-- Whatever it adds, an import looks up every address. -/
theorem resolved_of_importContents {L : ProgramLoader}
    (h : importContents namemap pLoader x = .ok L) : x.Resolved := by
  obtain ⟨symtab, hlabels, h⟩ := bind_eq_ok.mp h
  obtain ⟨reloctab, hrelocs, _⟩ := bind_eq_ok.mp h
  constructor
  · intro it hit
    obtain ⟨_, _, hround⟩ := Appending.round_of_foldlM hlabels it hit
    obtain ⟨loc, hassert, _⟩ := bind_eq_ok.mp hround
    rw [resolve_of_assertResolved rfl hassert]
    rfl
  · intro it hit
    obtain ⟨_, _, hround⟩ := Appending.round_of_foldlM hrelocs it hit
    obtain ⟨loc, hassert, _⟩ := bind_eq_ok.mp hround
    rw [resolve_of_assertResolved rfl hassert]
    rfl

theorem importContents_adds (hsymtab : symtab₀.constructLocationIndex = symtab₀)
    (hreloctab : reloctab₀.constructSourceIndex = reloctab₀) {L : ProgramLoader}
    (hL : Extended symtab₀ reloctab₀ pLoader) (h : importContents namemap pLoader x = .ok L) :
    L.binaries = x.binaries ∧
      Adds symtab₀ reloctab₀ pLoader L (x.newLocs symtab₀) (x.newSources reloctab₀) := by
  obtain ⟨symtab, hlabels, h⟩ := bind_eq_ok.mp h
  obtain ⟨reloctab, hrelocs, h⟩ := bind_eq_ok.mp h
  cases h
  obtain ⟨hsymbols, hlocs⟩ := importLabels_adds hsymtab rfl hL.symtab hlabels
  obtain ⟨hall, hsources⟩ := importRelocs_adds hreloctab rfl hL.reloctab hrelocs
  exact ⟨rfl, hsymbols, hall, hlocs, hsources⟩

/-- An import that finds everything there changes nothing but the place of the binaries. -/
theorem importContents_eq_self (hsymtab : symtab₀.constructLocationIndex = symtab₀)
    (hreloctab : reloctab₀.constructSourceIndex = reloctab₀)
    (hL : Extended symtab₀ reloctab₀ pLoader) (hresolved : x.Resolved)
    (hlocs : x.newLocs symtab₀ = []) (hsources : x.newSources reloctab₀ = []) :
    importContents namemap pLoader x = .ok {pLoader with binaries := x.binaries} := by
  obtain ⟨symbols, hsymbols⟩ := hL.symtab
  obtain ⟨relocs, hrelocs⟩ := hL.reloctab
  have hlabels : x.labels.entries.foldlM (importLabel {pLoader with binaries := x.binaries}
      namemap x.binaryIdx) pLoader.symtab = .ok pLoader.symtab := by
    rw [hsymbols]
    refine Appending.foldlM_eq_self fun it hit => ?_
    exact importLabel_eq_self hsymtab rfl symbols (hresolved.1 it hit)
      (List.filterMap_eq_nil_iff.mp hlocs it hit)
  have hrelocs : x.relocs.entries.foldlM (importReloc {pLoader with binaries := x.binaries})
      pLoader.reloctab = .ok pLoader.reloctab := by
    rw [hrelocs]
    refine Appending.foldlM_eq_self fun it hit => ?_
    exact importReloc_eq_self hreloctab rfl relocs (hresolved.2 it hit)
      (List.filterMap_eq_nil_iff.mp hsources it hit)
  simp only [importContents, hlabels, hrelocs, bind, Except.bind, pure, Except.pure]

end Binary

/-! ### A list of binaries -/

/-- The contents of the files of a binary, which is placed as its configuration says. -/
def readContents (readers : PpcdisReaders) (binaries : List Binary) (files : PpcdisInfoFiles) :
    Except Error Imported := do
  let config ← readers.binConfig files.binYaml
  let binFilename := filename config.path
  match findBinaryIdxByName binaries binFilename with
  | none => throw (.assertFailed
      ("Could not find ppcdis binary named " ++ binFilename ++ " in project"))
  | some binaryIdx =>
    let binaries ← applyLoadInfo config binaryIdx binaries
    let labelinfo ← readers.labelInfo files.labelProto
    let relocinfo ← readers.relocInfo files.relocProto
    return ⟨binaries, binaryIdx, labelinfo, relocinfo⟩

theorem loadBinaryInfoFromPpcdis_eq (readers : PpcdisReaders)
    (namemap : List (BitVec 32 × String)) (pLoader : ProgramLoader) (files : PpcdisInfoFiles) :
    loadBinaryInfoFromPpcdis readers namemap pLoader files =
      readContents readers pLoader.binaries files >>= importContents namemap pLoader := by
  unfold loadBinaryInfoFromPpcdis readContents importContents
  simp only [bind, Except.bind]
  cases readers.binConfig files.binYaml with
  | error e => rfl
  | ok config =>
    dsimp only
    cases findBinaryIdxByName pLoader.binaries (filename config.path) with
    | none => rfl
    | some binaryIdx =>
      dsimp only
      cases applyLoadInfo config binaryIdx pLoader.binaries with
      | error e => rfl
      | ok binaries =>
        dsimp only
        cases readers.labelInfo files.labelProto with
        | error e => rfl
        | ok labels => cases readers.relocInfo files.relocProto <;> rfl

/-- The contents of all files, each binary placed when its turn comes. -/
def readAll (readers : PpcdisReaders) : List Binary → List PpcdisInfoFiles →
    Except Error (List Imported)
  | _, [] => .ok []
  | binaries, files :: rest => do
    let x ← readContents readers binaries files
    let xs ← readAll readers x.binaries rest
    return x :: xs

/-- The binaries as they are placed in the end. -/
def placedLast (binaries : List Binary) (xs : List Imported) : List Binary :=
  xs.foldl (fun _ x => x.binaries) binaries

section All
variable {readers : PpcdisReaders} {namemap : List (BitVec 32 × String)}
  {symtab₀ : SymbolTable} {reloctab₀ : RelocationTable} {infos : List PpcdisInfoFiles}

theorem importAll_adds (hsymtab : symtab₀.constructLocationIndex = symtab₀)
    (hreloctab : reloctab₀.constructSourceIndex = reloctab₀) {L L' : ProgramLoader}
    (hL : Extended symtab₀ reloctab₀ L)
    (h : infos.foldlM (loadBinaryInfoFromPpcdis readers namemap) L = .ok L') :
    ∃ xs, readAll readers L.binaries infos = .ok xs ∧ L'.binaries = placedLast L.binaries xs ∧
      (∀ x ∈ xs, x.Resolved) ∧ Adds symtab₀ reloctab₀ L L'
        (xs.flatMap (·.newLocs symtab₀)) (xs.flatMap (·.newSources reloctab₀)) := by
  induction infos generalizing L with
  | nil =>
    cases h
    exact ⟨[], rfl, rfl, fun x hx => (List.not_mem_nil hx).elim, hL.symtab, hL.reloctab,
      ⟨[], rfl, (List.append_nil _).symm⟩, ⟨[], rfl, (List.append_nil _).symm⟩⟩
  | cons files rest ih =>
    rw [List.foldlM_cons, loadBinaryInfoFromPpcdis_eq] at h
    obtain ⟨mid, hmid, h⟩ := bind_eq_ok.mp h
    obtain ⟨x, hx, hmid⟩ := bind_eq_ok.mp hmid
    obtain ⟨hplaced, hadds⟩ := importContents_adds hsymtab hreloctab hL hmid
    obtain ⟨xs, hxs, hlast, hresolved, hrest⟩ := ih ⟨hadds.symtab, hadds.reloctab⟩ h
    rw [hplaced] at hxs hlast
    refine ⟨x :: xs, ?_, hlast, ?_, ?_⟩
    · simp only [readAll, hx, hxs, bind, Except.bind, pure, Except.pure]
    · exact List.forall_mem_cons.mpr ⟨resolved_of_importContents hmid, hresolved⟩
    · rw [List.flatMap_cons, List.flatMap_cons]
      exact hadds.trans hrest

theorem importAll_eq_self (hsymtab : symtab₀.constructLocationIndex = symtab₀)
    (hreloctab : reloctab₀.constructSourceIndex = reloctab₀) {L : ProgramLoader}
    (hL : Extended symtab₀ reloctab₀ L) {xs : List Imported}
    (hxs : readAll readers L.binaries infos = .ok xs)
    (hknown : ∀ x ∈ xs, x.Resolved ∧ x.newLocs symtab₀ = [] ∧ x.newSources reloctab₀ = []) :
    infos.foldlM (loadBinaryInfoFromPpcdis readers namemap) L =
      .ok {L with binaries := placedLast L.binaries xs} := by
  induction infos generalizing L xs with
  | nil =>
    cases hxs
    rfl
  | cons files rest ih =>
    obtain ⟨x, hx, hxs⟩ := bind_eq_ok.mp hxs
    obtain ⟨rest, hrest, hxs⟩ := bind_eq_ok.mp hxs
    cases hxs
    obtain ⟨⟨hresolved, hlocs, hsources⟩, hknown⟩ := List.forall_mem_cons.mp hknown
    have hself : importContents namemap L x = .ok {L with binaries := x.binaries} :=
      importContents_eq_self hsymtab hreloctab hL hresolved hlocs hsources
    rw [List.foldlM_cons, loadBinaryInfoFromPpcdis_eq, hx]
    simp only [bind, Except.bind, hself]
    exact ih (L := {L with binaries := x.binaries}) ⟨hL.symtab, hL.reloctab⟩ hrest hknown

end All

/-! ### No entry twice -/

/-- No location has two symbols and none is the source of two relocations, and importing the
files again leaves the tables as they are. -/
structure NeverTwice (readers : PpcdisReaders) (infos : List PpcdisInfoFiles)
    (symmapPath : String) (L : ProgramLoader) : Prop where
  symbols : (L.symtab.symbols.map Symbol.location).Nodup
  relocs : (L.reloctab.relocs.map Relocation.source).Nodup
  again : ∃ L', loadAnalysisFromPpcdis readers L infos symmapPath = .ok L' ∧
    L'.symtab = L.symtab ∧ L'.reloctab = L.reloctab

/-- What two binaries add to the tables is at different places, and with the binaries where
the import leaves them, there is nothing to add. -/
def AddsOnce (readers : PpcdisReaders) (infos : List PpcdisInfoFiles) (L : ProgramLoader) : Prop :=
  ∃ xs ys, readAll readers L.binaries infos = .ok xs ∧
    readAll readers (placedLast L.binaries xs) infos = .ok ys ∧
    xs.Pairwise (fun x y => (x.newLocs L.symtab).Disjoint (y.newLocs L.symtab) ∧
      (x.newSources L.reloctab).Disjoint (y.newSources L.reloctab)) ∧
    ∀ y ∈ ys, y.Resolved ∧ y.newLocs L.symtab = [] ∧ y.newSources L.reloctab = []

namespace Imported
variable {x : Imported} {symtab₀ : SymbolTable} {reloctab₀ : RelocationTable}

/-- Different addresses are different locations. -/
theorem resolve_inj {addr addr' : BitVec 32} {loc : ProgramLocation}
    (h : x.resolve addr = some loc) (h' : x.resolve addr' = some loc) : addr = addr' := by
  let placed : ProgramLoader := ⟨.rvl, x.binaries, {}, {}⟩
  have hvma : placed.getLocationVMA loc = .ok (some addr) :=
    ProgramLoader.getLocationVMA_of_resolveVMA h
  have hvma' : placed.getLocationVMA loc = .ok (some addr') :=
    ProgramLoader.getLocationVMA_of_resolveVMA h'
  rw [hvma] at hvma'
  exact Option.some.inj (Except.ok.inj hvma')

/-- What is added for an address is at the location of the address. -/
theorem nodup_filterMap {α : Type} {m : AddressMap α}
    {f : BitVec 32 × α → Option ProgramLocation}
    (hf : ∀ it loc, f it = some loc → x.resolve it.1 = some loc) :
    (m.entries.filterMap f).Nodup := by
  rw [List.Nodup, List.pairwise_filterMap]
  have hkeys := List.pairwise_map.mp m.keys_nodup
  refine hkeys.imp fun {it it'} hne loc hloc loc' hloc' heq => ?_
  subst heq
  exact hne (resolve_inj (hf it loc hloc) (hf it' loc hloc'))

theorem newLocs_nodup : (x.newLocs symtab₀).Nodup :=
  nodup_filterMap fun _ _ h => (Option.filter_eq_some_iff.mp h).1

theorem newSources_nodup : (x.newSources reloctab₀).Nodup :=
  nodup_filterMap fun _ _ h => (Option.filter_eq_some_iff.mp h).1

/-- A lookup that finds nothing means that there is nothing at the very location. -/
theorem not_mem_of_find?_eq_none {α : Type} {key : α → ProgramLocation} {entries : List α}
    {loc : ProgramLocation} (h : entries.find? (fun e => locationKeyEq (key e) loc) = none) :
    loc ∉ entries.map key := by
  intro hmem
  obtain ⟨e, he, rfl⟩ := List.mem_map.mp hmem
  exact List.find?_eq_none.mp h e he (locationKeyEq_keyEq.refl _)

theorem not_mem_of_newLocs (hindex : symtab₀.constructLocationIndex = symtab₀)
    {loc : ProgramLocation} (h : loc ∈ x.newLocs symtab₀) :
    loc ∉ symtab₀.symbols.map Symbol.location := by
  obtain ⟨it, _, hnew⟩ := List.mem_filterMap.mp h
  obtain ⟨_, htest⟩ := Option.filter_eq_some_iff.mp hnew
  simp only [Bool.and_eq_true, Option.isNone_iff_eq_none] at htest
  have hnone := htest.1.2
  rw [← hindex, SymbolTable.lookupByLocation_constructLocationIndex] at hnone
  exact not_mem_of_find?_eq_none hnone

theorem not_mem_of_newSources (hindex : reloctab₀.constructSourceIndex = reloctab₀)
    {loc : ProgramLocation} (h : loc ∈ x.newSources reloctab₀) :
    loc ∉ reloctab₀.relocs.map Relocation.source := by
  obtain ⟨it, _, hnew⟩ := List.mem_filterMap.mp h
  obtain ⟨_, hnone⟩ := Option.filter_eq_some_iff.mp hnew
  rw [Option.isNone_iff_eq_none, ← hindex,
    RelocationTable.lookupBySource_constructSourceIndex] at hnone
  exact not_mem_of_find?_eq_none hnone

end Imported

/-- New keys added to a table without duplicates, part by part. -/
theorem nodup_keys_append_iff {α β : Type} {key : α → ProgramLocation} {old added : List α}
    {parts : List β} {g : β → List ProgramLocation} (hold : (old.map key).Nodup)
    (hadded : added.map key = parts.flatMap g) (hparts : ∀ p ∈ parts, (g p).Nodup)
    (hnew : ∀ p ∈ parts, ∀ k ∈ g p, k ∉ old.map key) :
    ((old ++ added).map key).Nodup ↔ parts.Pairwise (fun p q => (g p).Disjoint (g q)) := by
  rw [List.map_append, hadded, List.nodup_append', List.nodup_flatMap]
  constructor
  · intro h
    exact h.2.1.2
  · intro h
    refine ⟨hold, ⟨hparts, h⟩, fun k hk hk' => ?_⟩
    obtain ⟨p, hp, hkp⟩ := List.mem_flatMap.mp hk'
    exact hnew p hp k hkp hk

theorem extended_self (L : ProgramLoader) : Extended L.symtab L.reloctab L :=
  ⟨⟨[], congrArg (fun symbols => {L.symtab with symbols := symbols}) (List.append_nil _).symm⟩,
    ⟨[], congrArg (fun relocs => {L.reloctab with relocs := relocs}) (List.append_nil _).symm⟩⟩

/-- **Importing never duplicates an entry iff no two binaries of the list add an entry at the
same place, and with the binaries where the import leaves them nothing is new to the tables
from before it.** -/
theorem neverTwice_iff {readers : PpcdisReaders} {infos : List PpcdisInfoFiles}
    {symmapPath : String} {L L' : ProgramLoader}
    (hsymtab : L.symtab.constructLocationIndex = L.symtab)
    (hreloctab : L.reloctab.constructSourceIndex = L.reloctab)
    (hsymbols : (L.symtab.symbols.map Symbol.location).Nodup)
    (hrelocs : (L.reloctab.relocs.map Relocation.source).Nodup)
    (himport : loadAnalysisFromPpcdis readers L infos symmapPath = .ok L') :
    NeverTwice readers infos symmapPath L' ↔ AddsOnce readers infos L := by
  obtain ⟨namemap, hnamemap, h⟩ := bind_eq_ok.mp himport
  obtain ⟨xs, hxs, hplaced, _, hadds⟩ := importAll_adds hsymtab hreloctab (extended_self L) h
  obtain ⟨symbols, hlocs, hsymbols'⟩ := hadds.locs
  obtain ⟨relocs, hsources, hrelocs'⟩ := hadds.sources
  have hL' : Extended L.symtab L.reloctab L' := ⟨hadds.symtab, hadds.reloctab⟩
  have huniqueSymbols : (L'.symtab.symbols.map Symbol.location).Nodup ↔
      xs.Pairwise (fun x y => (x.newLocs L.symtab).Disjoint (y.newLocs L.symtab)) := by
    rw [hsymbols']
    exact nodup_keys_append_iff hsymbols hlocs (fun _ _ => Imported.newLocs_nodup)
      (fun _ _ _ hk => Imported.not_mem_of_newLocs hsymtab hk)
  have huniqueRelocs : (L'.reloctab.relocs.map Relocation.source).Nodup ↔
      xs.Pairwise (fun x y => (x.newSources L.reloctab).Disjoint (y.newSources L.reloctab)) := by
    rw [hrelocs']
    exact nodup_keys_append_iff hrelocs hsources (fun _ _ => Imported.newSources_nodup)
      (fun _ _ _ hk => Imported.not_mem_of_newSources hreloctab hk)
  have hsecond : ∀ r, loadAnalysisFromPpcdis readers L' infos symmapPath = r ↔
      infos.foldlM (loadBinaryInfoFromPpcdis readers namemap) L' = r := by
    intro r
    simp only [loadAnalysisFromPpcdis, hnamemap, bind, Except.bind]
  constructor
  · intro hnever
    obtain ⟨L'', hagain, hsame, hsame'⟩ := hnever.again
    obtain ⟨ys, hys, _, hresolved, hmore⟩ :=
      importAll_adds hsymtab hreloctab hL' ((hsecond _).mp hagain)
    obtain ⟨moreSymbols, hmoreLocs, hmoreSymbols⟩ := hmore.locs
    obtain ⟨moreRelocs, hmoreSources, hmoreRelocs⟩ := hmore.sources
    -- the second import adds nothing, so there was nothing new
    rw [hsame, List.self_eq_append_right] at hmoreSymbols
    rw [hsame', List.self_eq_append_right] at hmoreRelocs
    rw [hmoreSymbols, List.map_nil, eq_comm, List.flatMap_eq_nil_iff] at hmoreLocs
    rw [hmoreRelocs, List.map_nil, eq_comm, List.flatMap_eq_nil_iff] at hmoreSources
    rw [hplaced] at hys
    refine ⟨xs, ys, hxs, hys, ?_, fun y hy => ⟨hresolved y hy, hmoreLocs y hy, hmoreSources y hy⟩⟩
    exact List.pairwise_and_iff.mpr
      ⟨huniqueSymbols.mp hnever.symbols, huniqueRelocs.mp hnever.relocs⟩
  · rintro ⟨xs', ys, hxs', hys, hapart, hknown⟩
    rw [hxs] at hxs'
    cases hxs'
    obtain ⟨hapartLocs, hapartSources⟩ := List.pairwise_and_iff.mp hapart
    rw [← hplaced] at hys
    refine ⟨huniqueSymbols.mpr hapartLocs, huniqueRelocs.mpr hapartSources, _,
      (hsecond _).mpr (importAll_eq_self hsymtab hreloctab hL' hys hknown), rfl, rfl⟩

/-- A DOL with one section and no symbols. -/
def plainDol : ProgramLoader where
  kind := .rvl
  binaries := [⟨filename "main.dol", .dol, [⟨".text", 0x100, 8, .TEXT, .dol 0x80003100, []⟩]⟩]
  symtab := {}
  reloctab := {}

/-- One function is known, at the start of the section. -/
def oneLabel : AddressMap Label := ⟨[(0x80003100, ⟨.FUNCTION, 8⟩)], by decide⟩

def oneLabelReaders : PpcdisReaders where
  binConfig _ := .ok ⟨"main.dol", none, none⟩
  labelInfo _ := .ok oneLabel
  relocInfo _ := .ok ⟨[], List.nodup_nil⟩
  symbolMap _ := .ok []

def mainFiles : PpcdisInfoFiles := ⟨"main.yml", "main.labels", "main.relocs"⟩

def oneLabelContents : Imported := ⟨plainDol.binaries, 0, oneLabel, ⟨[], List.nodup_nil⟩⟩

def labelSymbol : Symbol := ⟨"lab_80003100", ⟨⟨0, 0⟩, 0⟩, 8, .FUNCTION, .GLOBAL⟩

/-- The DOL with the symbol of the function, as often as the label is imported. -/
def importedDol (times : Nat) : ProgramLoader :=
  {plainDol with symtab := {symbols := List.replicate times labelSymbol}}

theorem readContents_oneLabel :
    readContents oneLabelReaders plainDol.binaries mainFiles = .ok oneLabelContents := by
  have hfound : findBinaryIdxByName plainDol.binaries (filename "main.dol") = some 0 := by
    simp [findBinaryIdxByName, plainDol, List.findIdx?_cons]
  simp only [readContents, oneLabelReaders, bind, Except.bind, hfound]
  rfl

/-- In a program with the binaries of the DOL, the import is that of the one label. -/
theorem loadAnalysis_oneLabel {L L' : ProgramLoader} (hbinaries : L.binaries = plainDol.binaries)
    (hcontents : importContents [] L oneLabelContents = .ok L') :
    loadAnalysisFromPpcdis oneLabelReaders L [mainFiles] "symbols.yml" = .ok L' := by
  have hread : readContents oneLabelReaders L.binaries mainFiles = .ok oneLabelContents := by
    rw [hbinaries]
    exact readContents_oneLabel
  simp only [loadAnalysisFromPpcdis, List.foldlM_cons, List.foldlM_nil,
    loadBinaryInfoFromPpcdis_eq, bind, Except.bind]
  rw [hread]
  dsimp only [oneLabelReaders]
  rw [hcontents]
  rfl

theorem loadAnalysis_plainDol :
    loadAnalysisFromPpcdis oneLabelReaders plainDol [mainFiles] "symbols.yml" =
      .ok (importedDol 1) :=
  loadAnalysis_oneLabel rfl rfl

theorem loadAnalysis_importedDol :
    loadAnalysisFromPpcdis oneLabelReaders (importedDol 1) [mainFiles] "symbols.yml" =
      .ok (importedDol 2) :=
  loadAnalysis_oneLabel rfl rfl

/-- The second import adds the symbol again. -/
theorem plainDol_importedTwice : ¬ ∀ readers infos symmapPath (L L' : ProgramLoader),
    L.symtab.constructLocationIndex = L.symtab → L.reloctab.constructSourceIndex = L.reloctab →
    (L.symtab.symbols.map Symbol.location).Nodup →
    (L.reloctab.relocs.map Relocation.source).Nodup →
    loadAnalysisFromPpcdis readers L infos symmapPath = .ok L' →
    NeverTwice readers infos symmapPath L' := by
  intro h
  have hnever := h oneLabelReaders [mainFiles] "symbols.yml" plainDol (importedDol 1) rfl rfl
    List.nodup_nil List.nodup_nil loadAnalysis_plainDol
  obtain ⟨L'', hagain, hsame, _⟩ := hnever.again
  rw [loadAnalysis_importedDol] at hagain
  cases hagain
  have hcount := congrArg (fun t => t.symbols.length) hsame
  revert hcount
  decide

theorem neverTwice_iff_plainDol :
    NeverTwice oneLabelReaders [mainFiles] "symbols.yml" (importedDol 1) ↔
      AddsOnce oneLabelReaders [mainFiles] plainDol :=
  neverTwice_iff rfl rfl List.nodup_nil List.nodup_nil loadAnalysis_plainDol

end Ppcdis

end Ppc2cpp
