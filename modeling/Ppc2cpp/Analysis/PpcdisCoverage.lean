import Ppc2cpp.Analysis.PpcdisImport
import Ppc2cpp.Model.Persistence

/-! What an import leaves behind.

An import adds to the ends of the tables (`loadAnalysisFromPpcdis_added`). Whether the
indexes know every entry or not, after an import there is a symbol wherever a
label asks for one and a relocation wherever there is one in the files
(`importAll_covered`). Where that is so and the indexes are fresh, an import adds nothing
(`importAll_eq_self_of_covered`). -/
namespace Ppc2cpp

/-! ### Tables that grow -/

/-- As many binaries, and tables to the end of which something may have been added. -/
structure ProgramLoader.Added (L L' : ProgramLoader) : Prop where
  binaries : L'.binaries.length = L.binaries.length
  symbols : L.symtab.symbols <+: L'.symtab.symbols
  relocs : L.reloctab.relocs <+: L'.reloctab.relocs

theorem ProgramLoader.Added.refl (L : ProgramLoader) : L.Added L :=
  ⟨rfl, List.prefix_refl _, List.prefix_refl _⟩

theorem ProgramLoader.Added.trans (L L' L'' : ProgramLoader) (h : L.Added L') (h' : L'.Added L'') :
    L.Added L'' :=
  ⟨h'.binaries.trans h.binaries, h.symbols.trans h'.symbols, h.relocs.trans h'.relocs⟩

theorem importLabel_added {pLoader : ProgramLoader} {namemap : List (BitVec 32 × String)}
    {binaryIdx : Nat} {t t' : SymbolTable} {it : BitVec 32 × Ppcdis.Label}
    (h : importLabel pLoader namemap binaryIdx t it = .ok t') : t.symbols <+: t'.symbols := by
  obtain ⟨symLoc, _, h⟩ := bind_eq_ok.mp h
  split at h
  · cases h
    exact List.prefix_refl _
  · split at h
    · cases h
      exact List.prefix_refl _
    · split at h
      · cases h
        exact List.prefix_append _ _
      · cases h
        exact List.prefix_refl _

theorem importReloc_added {pLoader : ProgramLoader} {t t' : RelocationTable}
    {it : BitVec 32 × Ppcdis.Reloc} (h : importReloc pLoader t it = .ok t') :
    t.relocs <+: t'.relocs := by
  obtain ⟨location, _, h⟩ := bind_eq_ok.mp h
  split at h
  · cases h
    exact List.prefix_refl _
  · obtain ⟨target, _, h⟩ := bind_eq_ok.mp h
    obtain ⟨elfRelocType, _, h⟩ := bind_eq_ok.mp h
    cases h
    exact List.prefix_append _ _

theorem applyLoadInfo_length {config : Ppcdis.BinConfig} {binaryIdx : Nat}
    {binaries binaries' : List Binary} (h : applyLoadInfo config binaryIdx binaries = .ok binaries') :
    binaries'.length = binaries.length := by
  obtain ⟨b, _, h⟩ := bind_eq_ok.mp h
  split at h
  · obtain ⟨address, _, h⟩ := bind_eq_ok.mp h
    obtain ⟨bssAddress, _, h⟩ := bind_eq_ok.mp h
    cases h
    exact List.length_modify ..
  · cases h
    rfl

theorem loadBinaryInfoFromPpcdis_added {readers : PpcdisReaders}
    {namemap : List (BitVec 32 × String)} {L L' : ProgramLoader} {files : PpcdisInfoFiles}
    (h : loadBinaryInfoFromPpcdis readers namemap L files = .ok L') : L.Added L' := by
  obtain ⟨config, _, h⟩ := bind_eq_ok.mp h
  dsimp only at h
  split at h
  · cases h
  · obtain ⟨binaries, hbinaries, h⟩ := bind_eq_ok.mp h
    obtain ⟨labelinfo, _, h⟩ := bind_eq_ok.mp h
    obtain ⟨relocinfo, _, h⟩ := bind_eq_ok.mp h
    obtain ⟨symtab, hsymtab, h⟩ := bind_eq_ok.mp h
    obtain ⟨reloctab, hreloctab, h⟩ := bind_eq_ok.mp h
    cases h
    refine ⟨applyLoadInfo_length hbinaries, ?_, ?_⟩
    · exact Appending.rel_of_foldlM (R := fun t t' => SymbolTable.symbols t <+: t'.symbols)
        (fun _ => List.prefix_refl _) (fun _ _ _ h h' => h.trans h')
        (fun _ _ _ h => importLabel_added h) hsymtab
    · exact Appending.rel_of_foldlM (R := fun t t' => RelocationTable.relocs t <+: t'.relocs)
        (fun _ => List.prefix_refl _) (fun _ _ _ h h' => h.trans h')
        (fun _ _ _ h => importReloc_added h) hreloctab

/-- **An import adds to the ends of the tables.** -/
theorem loadAnalysisFromPpcdis_added {readers : PpcdisReaders} {L L' : ProgramLoader}
    {ppcdisInfo : List PpcdisInfoFiles} {symmapPath : String}
    (h : loadAnalysisFromPpcdis readers L ppcdisInfo symmapPath = .ok L') : L.Added L' := by
  obtain ⟨namemap, _, h⟩ := bind_eq_ok.mp h
  exact Appending.rel_of_foldlM ProgramLoader.Added.refl ProgramLoader.Added.trans
    (fun _ _ _ h => loadBinaryInfoFromPpcdis_added h) h

/-! ### Indexes that may be out of date -/

/-- What the index finds has the location; it need not find every symbol. -/
def SymbolTable.PointsAt (t : SymbolTable) : Prop :=
  FirstWins.PointsAt locationKeyEq Symbol.location t.locIndex t.symbols

def RelocationTable.PointsAt (t : RelocationTable) : Prop :=
  FirstWins.PointsAt locationKeyEq Relocation.source t.sourceIndex t.relocs

theorem SymbolTable.pointsAt_of_construct {t : SymbolTable} (h : t.constructLocationIndex = t) :
    t.PointsAt := by
  rw [PointsAt, ← h]
  exact FirstWins.pointsAt_index locationKeyEq_keyEq Symbol.location t.symbols

theorem RelocationTable.pointsAt_of_construct {t : RelocationTable}
    (h : t.constructSourceIndex = t) : t.PointsAt := by
  rw [PointsAt, ← h]
  exact FirstWins.pointsAt_index locationKeyEq_keyEq Relocation.source t.relocs

theorem RelocationTable.pointsAt_of_sourceIndex {t : RelocationTable} (h : t.sourceIndex = []) :
    t.PointsAt := by
  rw [PointsAt, h]
  exact FirstWins.pointsAt_nil locationKeyEq Relocation.source t.relocs

theorem SymbolTable.PointsAt.pushBack {t : SymbolTable} (h : t.PointsAt) (s : Symbol) :
    (t.pushBack s).PointsAt := FirstWins.PointsAt.append h [s]

theorem RelocationTable.PointsAt.pushBack {t : RelocationTable} (h : t.PointsAt)
    (r : Relocation) : (t.pushBack r).PointsAt := FirstWins.PointsAt.append h [r]

/-- An index that is fresh finds every location of a symbol. -/
theorem SymbolTable.isSome_lookupByLocation {t : SymbolTable} (h : t.constructLocationIndex = t)
    {s : Symbol} {loc : ProgramLocation} (hs : s ∈ t.symbols)
    (heq : locationKeyEq s.location loc = true) : (t.lookupByLocation loc).isSome = true := by
  rw [← h]
  exact FirstWins.isSome_find_index locationKeyEq_keyEq hs heq

theorem RelocationTable.isSome_lookupBySource {t : RelocationTable}
    (h : t.constructSourceIndex = t) {r : Relocation} {loc : ProgramLocation} (hr : r ∈ t.relocs)
    (heq : locationKeyEq r.source loc = true) : (t.lookupBySource loc).isSome = true := by
  rw [← h]
  exact FirstWins.isSome_find_index locationKeyEq_keyEq hr heq

theorem locationKeyEq_refl (l : ProgramLocation) : locationKeyEq l l = true :=
  locationKeyEq_keyEq.refl l

/-! ### What is there after an import -/

namespace Ppcdis

namespace Imported

/-- A symbol is where the label asks for one. -/
def LabelCovered (x : Imported) (symbols : List Symbol) (it : BitVec 32 × Label) : Prop :=
  ∃ loc, x.resolve it.1 = some loc ∧
    (loc.binaryIdx = x.binaryIdx → it.2.type.symbolType.isSome = true →
      ∃ s ∈ symbols, locationKeyEq s.location loc = true)

/-- A relocation is where the files have one. -/
def RelocCovered (x : Imported) (relocs : List Relocation) (it : BitVec 32 × Reloc) : Prop :=
  ∃ loc, x.resolve it.1 = some loc ∧ ∃ r ∈ relocs, locationKeyEq r.source loc = true

structure Covered (symbols : List Symbol) (relocs : List Relocation) (x : Imported) : Prop where
  labels : ∀ it ∈ x.labels.entries, x.LabelCovered symbols it
  relocs : ∀ it ∈ x.relocs.entries, x.RelocCovered relocs it

variable {x : Imported} {symbols symbols' : List Symbol} {relocs relocs' : List Relocation}

theorem LabelCovered.mono {it : BitVec 32 × Label} (h : x.LabelCovered symbols it)
    (hsub : symbols ⊆ symbols') : x.LabelCovered symbols' it := by
  obtain ⟨loc, hloc, hcovered⟩ := h
  refine ⟨loc, hloc, fun hidx htype => ?_⟩
  obtain ⟨s, hs, heq⟩ := hcovered hidx htype
  exact ⟨s, hsub hs, heq⟩

theorem RelocCovered.mono {it : BitVec 32 × Reloc} (h : x.RelocCovered relocs it)
    (hsub : relocs ⊆ relocs') : x.RelocCovered relocs' it := by
  obtain ⟨loc, hloc, r, hr, heq⟩ := h
  exact ⟨loc, hloc, r, hsub hr, heq⟩

theorem Covered.mono (h : x.Covered symbols relocs) (hsymbols : symbols ⊆ symbols')
    (hrelocs : relocs ⊆ relocs') : x.Covered symbols' relocs' where
  labels it hit := (h.labels it hit).mono hsymbols
  relocs it hit := (h.relocs it hit).mono hrelocs

end Imported

section
variable {x : Imported} {pLoader : ProgramLoader} {namemap : List (BitVec 32 × String)}

theorem importLabel_covered (hbinaries : pLoader.binaries = x.binaries) {t t' : SymbolTable}
    {it : BitVec 32 × Label} (ht : t.PointsAt)
    (h : importLabel pLoader namemap x.binaryIdx t it = .ok t') :
    t'.PointsAt ∧ x.LabelCovered t'.symbols it := by
  obtain ⟨symLoc, hassert, h⟩ := bind_eq_ok.mp h
  have hloc := resolve_of_assertResolved hbinaries hassert
  split at h
  · rename_i hother
    cases h
    exact ⟨ht, symLoc, hloc, fun hidx => absurd hidx hother⟩
  · split at h
    · rename_i hfound
      cases h
      exact ⟨ht, symLoc, hloc, fun _ _ => FirstWins.PointsAt.exists_of_isSome ht hfound⟩
    · split at h
      · cases h
        refine ⟨ht.pushBack _, symLoc, hloc, fun _ _ =>
          ⟨_, List.mem_append_right _ (List.mem_singleton_self _), ?_⟩⟩
        exact locationKeyEq_refl symLoc
      · rename_i hnone
        cases h
        refine ⟨ht, symLoc, hloc, fun _ htype => ?_⟩
        rw [hnone] at htype
        cases htype

theorem importReloc_covered (hbinaries : pLoader.binaries = x.binaries) {t t' : RelocationTable}
    {it : BitVec 32 × Reloc} (ht : t.PointsAt) (h : importReloc pLoader t it = .ok t') :
    t'.PointsAt ∧ x.RelocCovered t'.relocs it := by
  obtain ⟨location, hassert, h⟩ := bind_eq_ok.mp h
  have hloc := resolve_of_assertResolved hbinaries hassert
  split at h
  · rename_i hfound
    cases h
    exact ⟨ht, location, hloc, FirstWins.PointsAt.exists_of_isSome ht hfound⟩
  · obtain ⟨target, _, h⟩ := bind_eq_ok.mp h
    obtain ⟨elfRelocType, _, h⟩ := bind_eq_ok.mp h
    cases h
    refine ⟨ht.pushBack _, location, hloc, _,
      List.mem_append_right _ (List.mem_singleton_self _), ?_⟩
    exact locationKeyEq_refl location

/-- The files of one binary. -/
theorem importContents_covered {L : ProgramLoader} (hsymtab : pLoader.symtab.PointsAt)
    (hreloctab : pLoader.reloctab.PointsAt) (h : importContents namemap pLoader x = .ok L) :
    L.binaries = x.binaries ∧ L.symtab.PointsAt ∧ L.reloctab.PointsAt ∧
      x.Covered L.symtab.symbols L.reloctab.relocs := by
  obtain ⟨symtab, hlabels, h⟩ := bind_eq_ok.mp h
  obtain ⟨reloctab, hrelocs, h⟩ := bind_eq_ok.mp h
  cases h
  obtain ⟨hpoints, hlabels⟩ := Appending.forall_of_foldlM (I := SymbolTable.PointsAt)
    (Q := fun it t => x.LabelCovered (SymbolTable.symbols t) it)
    (fun _ _ _ ht hit => importLabel_covered rfl ht hit)
    (fun _ _ _ _ hit hcovered => hcovered.mono (importLabel_added hit).subset) hsymtab hlabels
  obtain ⟨hpoints', hrelocs⟩ := Appending.forall_of_foldlM (I := RelocationTable.PointsAt)
    (Q := fun it t => x.RelocCovered (RelocationTable.relocs t) it)
    (fun _ _ _ ht hit => importReloc_covered rfl ht hit)
    (fun _ _ _ _ hit hcovered => hcovered.mono (importReloc_added hit).subset) hreloctab hrelocs
  exact ⟨rfl, hpoints, hpoints', hlabels, hrelocs⟩

end

section
variable {readers : PpcdisReaders} {namemap : List (BitVec 32 × String)}
  {infos : List PpcdisInfoFiles}

/-- **After an import all that its files ask for is there.** -/
theorem importAll_covered {L L' : ProgramLoader} (hsymtab : L.symtab.PointsAt)
    (hreloctab : L.reloctab.PointsAt)
    (h : infos.foldlM (loadBinaryInfoFromPpcdis readers namemap) L = .ok L') :
    ∃ xs, readAll readers L.binaries infos = .ok xs ∧
      ∀ x ∈ xs, x.Covered L'.symtab.symbols L'.reloctab.relocs := by
  induction infos generalizing L with
  | nil => exact ⟨[], rfl, fun x hx => absurd hx List.not_mem_nil⟩
  | cons files rest ih =>
    rw [List.foldlM_cons] at h
    obtain ⟨mid, hmid, h⟩ := bind_eq_ok.mp h
    have hadded : mid.Added L' := Appending.rel_of_foldlM ProgramLoader.Added.refl
      ProgramLoader.Added.trans (fun _ _ _ h => loadBinaryInfoFromPpcdis_added h) h
    rw [loadBinaryInfoFromPpcdis_eq] at hmid
    obtain ⟨x, hx, hmid⟩ := bind_eq_ok.mp hmid
    obtain ⟨hbinaries, hpoints, hpoints', hcovered⟩ :=
      importContents_covered hsymtab hreloctab hmid
    obtain ⟨xs, hxs, hrest⟩ := ih hpoints hpoints' h
    rw [hbinaries] at hxs
    refine ⟨x :: xs, ?_, List.forall_mem_cons.mpr
      ⟨hcovered.mono hadded.symbols.subset hadded.relocs.subset, hrest⟩⟩
    simp only [readAll, hx, hxs, bind, Except.bind, pure, Except.pure]

theorem Imported.Covered.resolved {x : Imported} {symbols : List Symbol} {relocs : List Relocation}
    (h : x.Covered symbols relocs) : x.Resolved := by
  constructor
  · intro it hit
    obtain ⟨loc, hloc, _⟩ := h.labels it hit
    rw [hloc]
    rfl
  · intro it hit
    obtain ⟨loc, hloc, _⟩ := h.relocs it hit
    rw [hloc]
    rfl

/-- Fresh indexes find all that is there. -/
theorem Imported.Covered.newLocs_eq_nil {x : Imported} {t : SymbolTable} {relocs : List Relocation}
    (hindex : t.constructLocationIndex = t) (h : x.Covered t.symbols relocs) :
    x.newLocs t = [] := by
  refine List.filterMap_eq_nil_iff.mpr fun it hit => ?_
  obtain ⟨loc, hloc, hcovered⟩ := h.labels it hit
  rw [newLoc?, hloc, Option.filter_some_eq_none]
  intro hnew
  rw [Bool.and_eq_true, Bool.and_eq_true, beq_iff_eq] at hnew
  obtain ⟨⟨hidx, hnone⟩, htype⟩ := hnew
  obtain ⟨s, hs, heq⟩ := hcovered hidx htype
  have hfound := SymbolTable.isSome_lookupByLocation hindex hs heq
  rw [Option.isNone_iff_eq_none.mp hnone] at hfound
  cases hfound

theorem Imported.Covered.newSources_eq_nil {x : Imported} {t : RelocationTable}
    {symbols : List Symbol} (hindex : t.constructSourceIndex = t)
    (h : x.Covered symbols t.relocs) : x.newSources t = [] := by
  refine List.filterMap_eq_nil_iff.mpr fun it hit => ?_
  obtain ⟨loc, hloc, r, hr, heq⟩ := h.relocs it hit
  rw [newSource?, hloc, Option.filter_some_eq_none]
  intro hnone
  have hfound := RelocationTable.isSome_lookupBySource hindex hr heq
  rw [Option.isNone_iff_eq_none.mp hnone] at hfound
  cases hfound

/-- **Where all is there already, an import adds nothing.** -/
theorem importAll_eq_self_of_covered {L : ProgramLoader} {xs : List Imported}
    (hsymtab : L.symtab.constructLocationIndex = L.symtab)
    (hreloctab : L.reloctab.constructSourceIndex = L.reloctab)
    (hxs : readAll readers L.binaries infos = .ok xs)
    (hcovered : ∀ x ∈ xs, x.Covered L.symtab.symbols L.reloctab.relocs) :
    infos.foldlM (loadBinaryInfoFromPpcdis readers namemap) L =
      .ok {L with binaries := placedLast L.binaries xs} := by
  refine importAll_eq_self hsymtab hreloctab (extended_self L) hxs fun x hx => ?_
  exact ⟨(hcovered x hx).resolved, (hcovered x hx).newLocs_eq_nil hsymtab,
    (hcovered x hx).newSources_eq_nil hreloctab⟩

end

/-! ### Read again -/

/-- The same contents, their maps enumerated in another order. -/
structure Imported.Alike (x x' : Imported) : Prop where
  binaries : x'.binaries = x.binaries
  binaryIdx : x'.binaryIdx = x.binaryIdx
  labels : x'.labels.entries.Perm x.labels.entries
  relocs : x'.relocs.entries.Perm x.relocs.entries

theorem Imported.Covered.of_alike {x x' : Imported} {symbols : List Symbol}
    {relocs : List Relocation} (h : x.Covered symbols relocs) (halike : x.Alike x') :
    x'.Covered symbols relocs := by
  constructor
  · intro it hit
    obtain ⟨loc, hloc, hcovered⟩ := h.labels it (halike.labels.subset hit)
    refine ⟨loc, ?_, fun hidx => hcovered (hidx.trans (by rw [halike.binaryIdx]))⟩
    rw [resolve, halike.binaries]
    exact hloc
  · intro it hit
    obtain ⟨loc, hloc, hcovered⟩ := h.relocs it (halike.relocs.subset hit)
    refine ⟨loc, ?_, hcovered⟩
    rw [resolve, halike.binaries]
    exact hloc

/-- The files of a binary have the same contents for both readers, up to the order in which
maps are enumerated. -/
structure FilesAlike (readers readers' : PpcdisReaders) (files : PpcdisInfoFiles) : Prop where
  config : readers'.binConfig files.binYaml = readers.binConfig files.binYaml
  labels : ∀ labels, readers.labelInfo files.labelProto = .ok labels →
    ∃ labels', readers'.labelInfo files.labelProto = .ok labels' ∧
      labels'.entries.Perm labels.entries
  relocs : ∀ relocs, readers.relocInfo files.relocProto = .ok relocs →
    ∃ relocs', readers'.relocInfo files.relocProto = .ok relocs' ∧
      relocs'.entries.Perm relocs.entries

section
variable {readers readers' : PpcdisReaders} {binaries : List Binary}

theorem readContents_alike {files : PpcdisInfoFiles} {x : Imported}
    (h : FilesAlike readers readers' files) (hx : readContents readers binaries files = .ok x) :
    ∃ x', readContents readers' binaries files = .ok x' ∧ x.Alike x' := by
  obtain ⟨config, hconfig, hx⟩ := bind_eq_ok.mp hx
  dsimp only at hx
  split at hx
  · cases hx
  · rename_i binaryIdx hidx
    obtain ⟨placed, hplaced, hx⟩ := bind_eq_ok.mp hx
    obtain ⟨labels, hlabels, hx⟩ := bind_eq_ok.mp hx
    obtain ⟨relocs, hrelocs, hx⟩ := bind_eq_ok.mp hx
    cases hx
    obtain ⟨labels', hlabels', hperm⟩ := h.labels labels hlabels
    obtain ⟨relocs', hrelocs', hperm'⟩ := h.relocs relocs hrelocs
    refine ⟨⟨placed, binaryIdx, labels', relocs'⟩, ?_, rfl, rfl, hperm, hperm'⟩
    simp only [readContents, h.config, hconfig, hidx, hplaced, hlabels', hrelocs', bind, Except.bind,
      pure, Except.pure]

theorem readAll_alike {infos : List PpcdisInfoFiles} {xs : List Imported}
    (h : ∀ files ∈ infos, FilesAlike readers readers' files)
    (hxs : readAll readers binaries infos = .ok xs) :
    ∃ xs', readAll readers' binaries infos = .ok xs' ∧ ∀ x' ∈ xs', ∃ x ∈ xs, x.Alike x' := by
  induction infos generalizing binaries xs with
  | nil => exact ⟨[], rfl, fun x' hx' => absurd hx' List.not_mem_nil⟩
  | cons files rest ih =>
    obtain ⟨hfiles, hrest⟩ := List.forall_mem_cons.mp h
    obtain ⟨x, hx, hxs⟩ := bind_eq_ok.mp hxs
    obtain ⟨xs, hxsrest, hxs⟩ := bind_eq_ok.mp hxs
    cases hxs
    obtain ⟨x', hx', halike⟩ := readContents_alike hfiles hx
    rw [← halike.binaries] at hxsrest
    obtain ⟨xs', hxs', halikes⟩ := ih hrest hxsrest
    refine ⟨x' :: xs', ?_, List.forall_mem_cons.mpr ⟨⟨x, List.mem_cons_self .., halike⟩, ?_⟩⟩
    · simp only [readAll, hx', hxs', bind, Except.bind, pure, Except.pure]
    · intro y' hy'
      obtain ⟨y, hy, hyalike⟩ := halikes y' hy'
      exact ⟨y, List.mem_cons_of_mem _ hy, hyalike⟩

end

/-! ### Saved in between -/

/-- The index of every section is an `int32_t`. -/
def SectionsSmall (binaries : List Binary) : Prop := ∀ b ∈ binaries, b.sections.length < 2 ^ 31

theorem Imported.sectionIdx_isInt32 {x : Imported} (hsmall : SectionsSmall x.binaries)
    {addr : BitVec 32} {loc : ProgramLocation} (h : x.resolve addr = some loc) :
    IsInt32 loc.sectionIdx := by
  obtain ⟨k, b, hb, _, hloc⟩ := ProgramLoader.resolveVMAFrom_eq_some h
  obtain ⟨j, s, r, hj, _, _, hl⟩ := Binary.resolveVMA_eq_some.mp hloc
  obtain ⟨hlt, _⟩ := List.findIdx?_eq_some_iff_getElem.mp hj
  have hlength := hsmall b (List.mem_of_getElem? hb)
  have hidx : loc.sectionIdx = j := congrArg BinaryLocation.sectionIdx hl
  rw [hidx]
  constructor <;> omega

/-- A location that was saved is still found under a key that fits. -/
theorem locationKeyEq_fromProto_toProto {l loc : ProgramLocation} (hfits : IsInt32 loc.sectionIdx)
    (h : locationKeyEq l loc = true) :
    locationKeyEq (ProgramLocation.fromProto l.toProto) loc = true := by
  have heq : l.toBinaryLocation = loc.toBinaryLocation := (BinaryLocation.operatorEq_iff _ _).mp h
  have hidx : l.sectionIdx = loc.sectionIdx := congrArg BinaryLocation.sectionIdx heq
  refine (BinaryLocation.operatorEq_iff _ _).mpr ?_
  rw [← heq]
  simp only [ProgramLocation.fromProto, ProgramLocation.toProto]
  rw [hidx, hfits.toInt_ofInt, ← hidx]

theorem Imported.Covered.saved {x : Imported} {symbols symbols' : List Symbol}
    {relocs relocs' : List Relocation} (hsmall : SectionsSmall x.binaries)
    (h : x.Covered symbols relocs)
    (hsymbols : ∀ s ∈ symbols, ∃ s' ∈ symbols',
      s'.location = ProgramLocation.fromProto s.location.toProto)
    (hrelocs : ∀ r ∈ relocs, ∃ r' ∈ relocs',
      r'.source = ProgramLocation.fromProto r.source.toProto) : x.Covered symbols' relocs' := by
  constructor
  · intro it hit
    obtain ⟨loc, hloc, hcovered⟩ := h.labels it hit
    refine ⟨loc, hloc, fun hidx htype => ?_⟩
    obtain ⟨s, hs, heq⟩ := hcovered hidx htype
    obtain ⟨s', hs', hlocation⟩ := hsymbols s hs
    refine ⟨s', hs', ?_⟩
    rw [hlocation]
    exact locationKeyEq_fromProto_toProto (sectionIdx_isInt32 hsmall hloc) heq
  · intro it hit
    obtain ⟨loc, hloc, r, hr, heq⟩ := h.relocs it hit
    obtain ⟨r', hr', hsource⟩ := hrelocs r hr
    refine ⟨loc, hloc, r', hr', ?_⟩
    rw [hsource]
    exact locationKeyEq_fromProto_toProto (sectionIdx_isInt32 hsmall hloc) heq

theorem applyLoadInfo_small {config : BinConfig} {binaryIdx : Nat} {binaries placed : List Binary}
    (hsmall : SectionsSmall binaries) (h : applyLoadInfo config binaryIdx binaries = .ok placed) :
    SectionsSmall placed := by
  obtain ⟨b, _, h⟩ := bind_eq_ok.mp h
  split at h
  · obtain ⟨address, _, h⟩ := bind_eq_ok.mp h
    obtain ⟨bssAddress, _, h⟩ := bind_eq_ok.mp h
    cases h
    intro c hc
    obtain ⟨i, hi⟩ := List.mem_iff_getElem?.mp hc
    rw [List.getElem?_modify] at hi
    obtain ⟨c₀, hc₀, rfl⟩ := Option.map_eq_some_iff.mp hi
    have hlength := hsmall c₀ (List.mem_of_getElem? hc₀)
    split_ifs
    · rw [Rel.setLoadInfo, List.length_map]
      exact hlength
    · exact hlength
  · cases h
    exact hsmall

theorem readAll_small {readers : PpcdisReaders} {binaries : List Binary}
    {infos : List PpcdisInfoFiles} {xs : List Imported} (hsmall : SectionsSmall binaries)
    (h : readAll readers binaries infos = .ok xs) : ∀ x ∈ xs, SectionsSmall x.binaries := by
  induction infos generalizing binaries xs with
  | nil =>
    cases h
    exact fun x hx => absurd hx List.not_mem_nil
  | cons files rest ih =>
    obtain ⟨x, hx, h⟩ := bind_eq_ok.mp h
    obtain ⟨xs, hxs, h⟩ := bind_eq_ok.mp h
    cases h
    have hplaced : SectionsSmall x.binaries := by
      obtain ⟨config, _, hx⟩ := bind_eq_ok.mp hx
      dsimp only at hx
      split at hx
      · cases hx
      · obtain ⟨placed, hplaced, hx⟩ := bind_eq_ok.mp hx
        obtain ⟨labels, _, hx⟩ := bind_eq_ok.mp hx
        obtain ⟨relocs, _, hx⟩ := bind_eq_ok.mp hx
        cases hx
        exact applyLoadInfo_small hsmall hplaced
    exact List.forall_mem_cons.mpr ⟨hplaced, ih hplaced hxs⟩

end Ppcdis

end Ppc2cpp
