import Ppc2cpp.Lib.Appending
import Ppc2cpp.ProgramLoader.Addresses
import Ppc2cpp.ProgramLoader.Loading

/-! The relocations of an ELF program.

Every entry of every relocation section becomes one relocation, in order
(`load_registered`). Its source has the index of the related section and the offset of the
entry as they are in the file, which is where the patched bytes are if the sections of the
binary are the sections of the file (`denotesPatched_iff`). -/
namespace Ppc2cpp

namespace ElfProgramLoader

/-- An entry of a relocation section, with the file and the section it is in. -/
structure RelaEntry where
  binaryIdx : Nat
  elf : Elfio
  psec : ElfioSection
  entry : ElfRelocation

def sectionEntries (elf : Elfio) (binaryIdx : Nat) (psec : ElfioSection) : List RelaEntry :=
  psec.relocations.map fun entry => ⟨binaryIdx, elf, psec, entry⟩

def fileEntries (file : Elfio × Nat) : List RelaEntry :=
  (file.1.sections.filter (·.type = SHT_RELA)).flatMap (sectionEntries file.1 file.2)

/-- The entries of all files, in the order they are registered in. -/
def relaEntries (elfs : List Elfio) : List RelaEntry := elfs.zipIdx.flatMap fileEntries

/-- What ELFIO makes of the files. -/
def elfFiles (formats : Formats) (fs : FileSystem) (binaryPaths : List String) : List Elfio :=
  binaryPaths.map fun path => formats.elf ((fs path).getD [])

theorem mem_relaEntries {elfs : List Elfio} {x : RelaEntry} (h : x ∈ relaEntries elfs) :
    elfs[x.binaryIdx]? = some x.elf ∧ x.psec ∈ x.elf.sections ∧ x.entry ∈ x.psec.relocations := by
  obtain ⟨file, hfile, hx⟩ := List.mem_flatMap.mp h
  obtain ⟨psec, hpsec, hx⟩ := List.mem_flatMap.mp hx
  obtain ⟨entry, hentry, rfl⟩ := List.mem_map.mp hx
  exact ⟨List.mem_zipIdx_iff_getElem?.mp hfile, (List.mem_filter.mp hpsec).1, hentry⟩

/-! ### What is registered -/

/-- The relocation made of an entry. -/
structure Registered (P : LoadedProgram) (x : RelaEntry) (r : Relocation) : Prop where
  source : r.source = ⟨⟨x.psec.info.toInt, x.entry.offset.setWidth 32⟩, x.binaryIdx⟩
  destination : ∃ symtab, x.elf.sections[x.psec.link.toNat]? = some symtab ∧
    getElfRelocDest P symtab x.entry.symbol x.binaryIdx (x.elf.type ≠ ET_REL) = .ok r.destination
  type : r.type = x.entry.type.setWidth 8
  addend : r.addend = (x.entry.addend.setWidth 32).toInt

theorem registerSection_registered {P : LoadedProgram} {elf : Elfio} {binaryIdx : Nat}
    {psec : ElfioSection} {t t' : RelocationTable}
    (h : registerSection P elf binaryIdx t psec = .ok t') :
    ∃ added, List.Forall₂ (Registered P) (sectionEntries elf binaryIdx psec) added ∧
      t'.relocs = t.relocs ++ added := by
  simp only [registerSection, bind_eq_ok] at h
  obtain ⟨symtab, hsymtab, h⟩ := h
  obtain ⟨added, hadded, ht'⟩ := Appending.view_foldlM_map RelocationTable.relocs
    (R := fun entry r => Registered P ⟨binaryIdx, elf, psec, entry⟩ r)
    (fun t entry t' hentry => by
      obtain ⟨relocDest, hdest, hentry⟩ := bind_eq_ok.mp hentry
      cases hentry
      exact ⟨_, ⟨rfl, ⟨symtab, at?_eq_ok.mp hsymtab, hdest⟩, rfl, rfl⟩, rfl⟩) h
  exact ⟨added, List.forall₂_map_left_iff.mpr hadded, ht'⟩

theorem registerRelocations_registered {P : LoadedProgram} {elf : Elfio} {binaryIdx : Nat}
    {t t' : RelocationTable} (h : registerRelocations P t elf binaryIdx = .ok t') :
    ∃ added, List.Forall₂ (Registered P) (fileEntries (elf, binaryIdx)) added ∧
      t'.relocs = t.relocs ++ added :=
  Appending.view_foldlM RelocationTable.relocs (fun _ _ _ hsection => registerSection_registered hsection) h

/-! ### The files -/

/-- The state of the loop over the files. -/
structure Read (formats : Formats) (fs : FileSystem) (before : List String) (P : LoadedProgram)
    (elfs : List Elfio) : Prop where
  files : elfs = elfFiles formats fs before
  binaries : List.Forall₂ (fun elf b => ElfBinary.sections elf = .ok b.sections) elfs P.binaries
  reloctab : P.reloctab = {}

variable {formats : Formats} {fs : FileSystem} {binaryPaths : List String}

theorem loadBinary_read {before : List String} {P P' : LoadedProgram} {elfs elfs' : List Elfio}
    {path : String} (hread : Read formats fs before P elfs)
    (h : loadBinary formats fs (P, elfs) path = .ok (P', elfs')) :
    Read formats fs (before ++ [path]) P' elfs' := by
  simp only [loadBinary, ElfBinary.load, bind_eq_ok, Prod.exists] at h
  obtain ⟨b, elf, ⟨data, hdata, sections, hsections, hb⟩, symtab, _, h⟩ := h
  cases hb
  cases h
  refine ⟨?_, List.rel_append hread.binaries (.cons (by exact hsections) .nil), hread.reloctab⟩
  rw [hread.files, elfFiles, elfFiles, List.map_append, List.map_cons, List.map_nil,
    readFile_eq_ok.mp hdata, Option.getD_some]

theorem loadBinaries_read {before : List String} {P P' : LoadedProgram} {elfs elfs' : List Elfio}
    (hread : Read formats fs before P elfs)
    (h : binaryPaths.foldlM (loadBinary formats fs) (P, elfs) = .ok (P', elfs')) :
    Read formats fs (before ++ binaryPaths) P' elfs' := by
  induction binaryPaths generalizing before P elfs with
  | nil =>
    cases h
    simpa using hread
  | cons path rest ih =>
    rw [List.foldlM_cons] at h
    obtain ⟨⟨Q, elfsQ⟩, hQ, h⟩ := bind_eq_ok.mp h
    simpa using ih (loadBinary_read hread hQ) h

/-- **A loaded program has a binary made of each file and a relocation made of each entry,
in order.** -/
theorem load_registered {P : LoadedProgram} (h : load formats fs binaryPaths = .ok P) :
    List.Forall₂ (fun elf b => ElfBinary.sections elf = .ok b.sections)
        (elfFiles formats fs binaryPaths) P.binaries ∧
      List.Forall₂ (Registered P) (relaEntries (elfFiles formats fs binaryPaths))
        P.reloctab.relocs := by
  simp only [load, bind_eq_ok, Prod.exists] at h
  obtain ⟨Q, elfs, hQ, reloctab, hreloctab, h⟩ := h
  cases h
  have hempty : Read formats fs [] {loaderType := .elf, binaries := []} [] := ⟨rfl, .nil, rfl⟩
  have hread := loadBinaries_read hempty hQ
  rw [List.nil_append] at hread
  obtain ⟨added, hadded, htable⟩ := Appending.view_foldlM RelocationTable.relocs
    (fun _ file _ hfile => registerRelocations_registered hfile) hreloctab
  rw [hread.reloctab] at htable
  rw [← hread.files]
  refine ⟨hread.binaries, ?_⟩
  have hrelocs : reloctab.constructSourceIndex.relocs = added := htable
  rw [hrelocs]
  -- a destination does not depend on the relocations that are there already
  exact hadded.imp fun _ _ hx => ⟨hx.source, hx.destination, hx.type, hx.addend⟩

/-! ### Sources -/

/-- The section of a location of the program is the one of its binary at the index. -/
theorem section?_of_binary {P : LoadedProgram} {i : Nat} {b : LoadedBinary}
    (hb : P.binaries[i]? = some b) (idx : Int) (off : BitVec 32) :
    P.toProgramLoader.section? ⟨⟨idx, off⟩, i⟩ = b.section? idx := by
  have hbinary : P.toProgramLoader.binary? i = .ok b.toBinary :=
    ProgramLoader.binary?_eq_ok.mpr ⟨i, rfl, by simp [LoadedProgram.toProgramLoader, hb]⟩
  rw [ProgramLoader.section?]
  simp only [hbinary, bind, Except.bind]

theorem ofSegment_kind {elf : Elfio} {elfseg : ElfioSegment} {index : Nat} {s : BinarySection}
    (h : ElfSection.ofSegment elf elfseg index = .ok s) :
    s.kind = .elf (elfseg.virtualAddress.setWidth 32) := by
  unfold ElfSection.ofSegment at h
  split at h
  · cases h
  · cases h
    rfl

theorem sections_kind {elf : Elfio} {sections : List BinarySection}
    (h : ElfBinary.sections elf = .ok sections) :
    ∀ s ∈ sections, ∃ address, s.kind = .elf address := by
  unfold ElfBinary.sections at h
  split at h
  · have hsegments := forall₂_of_mapM
      (R := fun (_ : ElfioSegment × Nat) s => ∃ address, s.kind = .elf address)
      (fun p s hs => ⟨_, ofSegment_kind hs⟩) h
    intro s hs
    obtain ⟨p, _, hp⟩ := forall₂_exists_left hsegments hs
    exact hp
  · cases h
    intro s hs
    obtain ⟨elfsec, _, rfl⟩ := List.mem_map.mp hs
    exact ⟨_, rfl⟩

/-- The index in the section list of the binary of the section at an index of the file: a
binary made of segments has none. -/
def sectionPlace (elf : Elfio) (idx : Int) : Option Int :=
  if elf.segments.length > 0 then none
  else if 0 ≤ idx ∧ idx < elf.sections.length then some idx
  else none

/-- The location is in a section of its binary, at the bytes that the entry is about: in a
relocatable file at an offset in the related section, in a linked file at an address. -/
def DenotesPatched (P : LoadedProgram) (x : RelaEntry) (source : ProgramLocation) : Prop :=
  source.binaryIdx = x.binaryIdx ∧ ∃ sec, P.toProgramLoader.section? source = .ok sec ∧
    if x.elf.type = ET_REL then
      sectionPlace x.elf x.psec.info.toInt = some source.sectionIdx ∧
        source.sectionOffset.toNat = x.entry.offset.toNat
    else ∃ vma, P.toProgramLoader.getLocationVMA source = .ok (some vma) ∧
      vma.toNat = x.entry.offset.toNat

/-- The file is relocatable, its binary is made of its sections, the related section is one
of them, and the offset of the entry has 32 bits. -/
structure PatchesSection (x : RelaEntry) : Prop where
  relocatable : x.elf.type = ET_REL
  sections : x.elf.segments = []
  related : 0 ≤ x.psec.info.toInt ∧ x.psec.info.toInt < x.elf.sections.length
  offset : x.entry.offset.toNat < 2 ^ 32

theorem toNat_setWidth_eq_iff (x : BitVec 64) :
    (x.setWidth 32).toNat = x.toNat ↔ x.toNat < 2 ^ 32 := by
  rw [BitVec.toNat_setWidth]
  omega

theorem sectionPlace_eq_some {elf : Elfio} {idx place : Int} :
    sectionPlace elf idx = some place ↔
      elf.segments = [] ∧ (0 ≤ idx ∧ idx < elf.sections.length) ∧ place = idx := by
  unfold sectionPlace
  split
  · next hseg =>
    have hne : elf.segments ≠ [] := List.ne_nil_of_length_pos hseg
    simp [hne]
  · next hseg =>
    have hnil : elf.segments = [] := List.eq_nil_of_length_eq_zero (by omega)
    split <;> simp_all [eq_comm]

/-- A section of an ELF file does not have the address zero. -/
theorem start_ne_zero {P : LoadedProgram} {i : Nat} {b : LoadedBinary}
    (hb : P.binaries[i]? = some b) (hkind : ∀ s ∈ b.sections, ∃ address, s.kind = .elf address)
    {idx : Int} {off : BitVec 32} {r : AddressRange 32}
    (hr : P.toProgramLoader.range? ⟨⟨idx, off⟩, i⟩ = some r) : r.start ≠ 0 := by
  obtain ⟨s, hs, hrange⟩ := ProgramLoader.range?_eq_some.mp hr
  rw [section?_of_binary hb] at hs
  obtain ⟨k, _, hk⟩ := Binary.section?_eq_ok.mp hs
  obtain ⟨address, hkind⟩ := hkind s (List.mem_of_getElem? hk)
  have haddr := (BinarySection.range?_eq_some.mp hrange).1
  rw [BinarySection.getAddress, hkind] at haddr
  dsimp only at haddr
  split at haddr
  · cases haddr
  · next hne =>
    cases haddr
    exact hne

/-- **The source of a relocation denotes the patched bytes exactly in relocatable files whose
binaries are made of their sections.** In a linked file it never does. -/
theorem denotesPatched_iff {P : LoadedProgram} (hload : load formats fs binaryPaths = .ok P) :
    List.Forall₂ (fun x r => DenotesPatched P x r.source ↔ PatchesSection x)
      (relaEntries (elfFiles formats fs binaryPaths)) P.reloctab.relocs := by
  obtain ⟨hbinaries, hregistered⟩ := load_registered hload
  obtain ⟨hlength, hzip⟩ := List.forall₂_iff_zip.mp hregistered
  refine List.forall₂_iff_zip.mpr ⟨hlength, fun {x r} hxr => ?_⟩
  obtain ⟨b, hb, hsections⟩ :=
    forall₂_getElem? hbinaries (mem_relaEntries (List.of_mem_zip hxr).1).1
  rw [(hzip hxr).source, DenotesPatched, section?_of_binary hb]
  dsimp only
  by_cases htype : x.elf.type = ET_REL
  · simp only [htype, if_true, true_and, sectionPlace_eq_some, and_true, toNat_setWidth_eq_iff]
    constructor
    · rintro ⟨_, _, ⟨hsegments, hrelated⟩, hoffset⟩
      exact ⟨htype, hsegments, hrelated, hoffset⟩
    · intro h
      have hplain : b.sections = x.elf.sections.map ElfSection.ofSection := by
        rw [ElfBinary.sections, h.sections] at hsections
        exact (Except.ok.inj hsections).symm
      obtain ⟨hnonneg, hlt⟩ := h.related
      have hget : x.psec.info.toInt.toNat < b.sections.length := by
        rw [hplain, List.length_map]
        omega
      exact ⟨_, Binary.section?_eq_ok.mpr ⟨_, (Int.toNat_of_nonneg hnonneg).symm,
        List.getElem?_eq_getElem hget⟩, ⟨h.sections, h.related⟩, h.offset⟩
  · simp only [htype, if_false, true_and]
    constructor
    · rintro ⟨_, _, vma, hvma, haddr⟩
      -- an address plus the address of a section is the address itself only at address zero
      exfalso
      obtain ⟨range, hrange, hsum⟩ := ProgramLoader.getLocationVMA_eq_some.mp hvma
      have hsmall : x.entry.offset.toNat < 2 ^ 32 := by
        rw [← haddr]
        exact vma.isLt
      have hoffset : vma = x.entry.offset.setWidth 32 :=
        BitVec.eq_of_toNat_eq (by rw [haddr, (toNat_setWidth_eq_iff _).mpr hsmall])
      apply start_ne_zero hb (sections_kind hsections) hrange
      rw [hoffset] at hsum
      dsimp only at hsum
      bv_omega
    · intro h
      exact absurd h.relocatable htype

/-- A section without entries. -/
def elfSection (name : String) (type : BitVec 32) (address offset size : BitVec 64) :
    ElfioSection where
  name := name
  type := type
  flags := SHF_ALLOC
  info := 0
  link := 0
  address := address
  offset := offset
  size := size
  data := []
  symbols := []
  relocations := []

/-- An executable of one segment, with the relocation of the word at 0x80003104 to `_start`
kept in it. -/
def linkedElf : Elfio where
  type := 2
  sections := [elfSection "" 0 0 0 0,
    {elfSection ".text" 1 0x80003100 0x100 8 with flags := SHF_ALLOC ||| SHF_EXECINSTR},
    {elfSection ".symtab" SHT_SYMTAB 0 0x200 16 with
      symbols := [⟨"_start", 0x80003100, 8, 1, 2, 1⟩]},
    {elfSection ".rela.text" SHT_RELA 0 0x210 12 with
      info := 1, link := 2, relocations := [⟨0x80003104, 0, 10, 0⟩]}]
  segments := [⟨PT_LOAD, 0x100, 0x80003100, 8, []⟩]

def linkedFormats : Formats where
  elf _ := linkedElf
  dol _ := .ok []
  rel _ := .ok ⟨0, [], [], 0, 0⟩

def linkedProgram : LoadedProgram where
  loaderType := .elf
  binaries := [⟨⟨filename "main.elf", .elf,
    [⟨".text", 0x100, 8, .TEXT, .elf 0x80003100, []⟩]⟩, "main.elf", []⟩]
  symtab := SymbolTable.constructLocationIndex (SymbolTable.constructNameIndex
    { symbols := [⟨"_start", ⟨⟨0, 0⟩, 0⟩, 8, .FUNCTION, .GLOBAL⟩] })
  reloctab := RelocationTable.constructSourceIndex
    { relocs := [⟨⟨⟨1, 0x80003104⟩, 0⟩, ⟨⟨0, 0⟩, 0⟩, relocREL24, 0⟩] }

theorem load_linkedProgram :
    load linkedFormats (fun _ => some []) ["main.elf"] = .ok linkedProgram := by rfl

/-- The relocated word is in section 0 at offset 4; the source says section 1, which is not
there, at offset 0x80003104. -/
theorem linkedProgram_source : ¬ ∀ formats fs binaryPaths (P : LoadedProgram),
    load formats fs binaryPaths = .ok P →
    List.Forall₂ (fun x r => DenotesPatched P x r.source)
      (relaEntries (elfFiles formats fs binaryPaths)) P.reloctab.relocs := by
  intro h
  have hall := h linkedFormats _ ["main.elf"] linkedProgram load_linkedProgram
  have hentries : relaEntries (elfFiles linkedFormats (fun _ => some []) ["main.elf"]) =
      [⟨0, linkedElf, linkedElf.sections[3], ⟨0x80003104, 0, 10, 0⟩⟩] := by rfl
  have hrelocs : linkedProgram.reloctab.relocs =
      [⟨⟨⟨1, 0x80003104⟩, 0⟩, ⟨⟨0, 0⟩, 0⟩, relocREL24, 0⟩] := by rfl
  rw [hentries, hrelocs, List.forall₂_cons] at hall
  obtain ⟨_, sec, hsec, _⟩ := hall.1
  have hrange : linkedProgram.toProgramLoader.section? ⟨⟨1, 0x80003104⟩, 0⟩ =
      .error .outOfRange := by rfl
  rw [hrange] at hsec
  cases hsec

theorem denotesPatched_iff_linkedProgram :
    List.Forall₂ (fun x r => DenotesPatched linkedProgram x r.source ↔ PatchesSection x)
      (relaEntries (elfFiles linkedFormats (fun _ => some []) ["main.elf"]))
      linkedProgram.reloctab.relocs :=
  denotesPatched_iff load_linkedProgram

end ElfProgramLoader

end Ppc2cpp
