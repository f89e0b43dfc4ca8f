import Ppc2cpp.Lib.Appending
import Ppc2cpp.ProgramLoader.AddressQueries
import Ppc2cpp.ProgramLoader.Loading

/-! The sections of a REL, where they are placed, and where its branches go.

A section of a REL keeps the place and the bytes that ninutils reads, and is named when it
is added (`load_sections`). Its address is the load address plus its offset in the file,
also while the load address is zero, which stands for unknown (`claimsNoAddress_iff`).
For each branch of a text section a relocation is registered by the file offset of the
target (`relocatesBranch_iff`). -/
namespace Ppc2cpp

/-! ### Sections -/

namespace Rel

/-- The section made of what ninutils reads of it, under some name. -/
def SectionOf (file : Bytes) (rel : NinRel) (relsection : NinRelSection) (s : BinarySection) :
    Prop :=
  ∃ name, s = {RelSection.ofNin file rel relsection with name := name}

theorem forall₂_modify {α β : Type} {R : α → β → Prop} {f : β → β}
    (hf : ∀ a b, R a b → R a (f b)) {xs : List α} {ys : List β} (h : List.Forall₂ R xs ys)
    (i : Nat) : List.Forall₂ R xs (ys.modify i f) := by
  induction h generalizing i with
  | nil => simp
  | cons hab _ ih =>
    cases i with
    | zero => exact .cons (hf _ _ hab) ‹_›
    | succ i => exact .cons hab (ih i)

variable {file : Bytes} {rel : NinRel} {fuel : Nat}

theorem pushSection_sectionOf {before : List NinRelSection} {relsection : NinRelSection}
    {sections sections' : List BinarySection}
    (hbefore : List.Forall₂ (SectionOf file rel) before sections)
    (h : pushSection fuel sections (RelSection.ofNin file rel relsection) = .ok sections') :
    List.Forall₂ (SectionOf file rel) (before ++ [relsection]) sections' := by
  simp only [pushSection, bind_eq_ok] at h
  obtain ⟨name, _, h⟩ := h
  cases h
  apply forall₂_modify
  · rintro n s ⟨_, rfl⟩
    exact ⟨name, rfl⟩
  · exact List.rel_append hbefore (.cons ⟨relsection.name, rfl⟩ .nil)

theorem foldlM_pushSection {relsections before : List NinRelSection}
    {sections sections' : List BinarySection}
    (hbefore : List.Forall₂ (SectionOf file rel) before sections)
    (h : (relsections.map (RelSection.ofNin file rel)).foldlM (pushSection fuel) sections =
      .ok sections') :
    List.Forall₂ (SectionOf file rel) (before ++ relsections) sections' := by
  induction relsections generalizing before sections with
  | nil =>
    cases h
    simpa using hbefore
  | cons n rest ih =>
    simp only [List.map_cons, List.foldlM_cons, bind_eq_ok] at h
    obtain ⟨pushed, hpushed, h⟩ := h
    simpa using ih (pushSection_sectionOf hbefore hpushed) h

variable {formats : Formats} {fs : FileSystem} {path : String} {b : LoadedBinary}

/-- **The sections of a REL are those ninutils reads, in order.** -/
theorem load_sections (h : load formats fuel fs path = .ok b) :
    ∃ rel, formats.rel b.data = .ok rel ∧
      List.Forall₂ (SectionOf b.data rel) rel.sections b.sections := by
  simp only [load, bind_eq_ok] at h
  obtain ⟨data, _, rel, hrel, sections, hsections, h⟩ := h
  cases h
  exact ⟨rel, hrel, foldlM_pushSection .nil hsections⟩

/-! ### Addresses -/

/-- Nothing is found in the binary under any address. -/
structure ClaimsNoAddress (b : Binary) : Prop where
  getAddress : ∀ s ∈ b.sections, s.getAddress = none
  resolveVMA : ∀ vma, b.resolveVMA vma = none
  getSectionByAddress : ∀ vma, b.getSectionByAddress vma = none

theorem SectionOf.kind_eq {n : NinRelSection} {s : BinarySection} (h : SectionOf file rel n s) :
    s.kind = .rel (if s.type = .BSS then rel.bssLoadAddr else rel.loadAddr + s.offset) := by
  obtain ⟨name, rfl⟩ := h
  rfl

/-- With no load address, a section that is no BSS gets its file offset for an address. -/
theorem SectionOf.getAddress_eq_none_iff {n : NinRelSection} {s : BinarySection}
    (h : SectionOf file rel n s) (hload : rel.loadAddr = 0) (hbss : rel.bssLoadAddr = 0) :
    s.getAddress = none ↔ (s.type ≠ .BSS → s.offset = 0) := by
  rw [BinarySection.getAddress, h.kind_eq, hload, hbss]
  by_cases htype : s.type = .BSS <;> simp [htype]

/-- **A REL without load information claims no address iff all its sections but the BSS are
at offset zero of the file.** -/
theorem claimsNoAddress_iff (h : load formats fuel fs path = .ok b) {rel : NinRel}
    (hrel : formats.rel b.data = .ok rel) (hload : rel.loadAddr = 0)
    (hbss : rel.bssLoadAddr = 0) :
    ClaimsNoAddress b.toBinary ↔ ∀ s ∈ b.sections, s.type ≠ .BSS → s.offset = 0 := by
  obtain ⟨rel', hrel', hsections⟩ := load_sections h
  rw [hrel] at hrel'
  cases hrel'
  constructor
  · intro hnone s hs
    obtain ⟨n, _, hn⟩ := forall₂_exists_left hsections hs
    exact (hn.getAddress_eq_none_iff hload hbss).mp (hnone.getAddress s hs)
  · intro hoffset
    have hnone : ∀ s ∈ b.sections, s.getAddress = none := by
      intro s hs
      obtain ⟨n, _, hn⟩ := forall₂_exists_left hsections hs
      exact (hn.getAddress_eq_none_iff hload hbss).mpr (hoffset s hs)
    refine ⟨hnone, fun vma => ?_, fun vma => ?_⟩
    · refine Binary.resolveVMA_eq_none.mpr fun s hs => ?_
      rw [BinarySection.claims, BinarySection.range?, hnone s hs]
      rfl
    · rw [Binary.getSectionByAddress_eq, List.findIdx?_eq_none_iff]
      intro s hs
      obtain ⟨n, _, hn⟩ := forall₂_exists_left hsections hs
      exact BinarySection.reaches_of_rel hn.kind_eq (hnone s hs) vma

end Rel

/-- A REL of one text section at 0x40 of the file, `b .+4` and `blr`. -/
def branchRel : NinRel := ⟨1, [⟨"", 0, 0, false, false⟩, ⟨"", 0x40, 8, true, false⟩], [], 0, 0⟩

def branchFile : Bytes :=
  List.replicate 0x40 0 ++ [0x48, 0x00, 0x00, 0x04, 0x4e, 0x80, 0x00, 0x20]

def branchFormats : Formats where
  elf _ := ⟨0, [], []⟩
  dol _ := .ok []
  rel _ := .ok branchRel

def branchBinary : LoadedBinary where
  name := filename "branch.rel"
  kind := .rel 1 []
  sections := [⟨"", 0, 0, .NOLOAD, .rel 0, branchFile⟩,
    ⟨".text", 0x40, 8, .TEXT, .rel 0x40, branchFile.drop 0x40⟩]
  filepath := "branch.rel"
  data := branchFile

theorem load_branchBinary :
    Rel.load branchFormats 4 (fun _ => some branchFile) "branch.rel" = .ok branchBinary := by rfl

namespace Rel

/-- The text section of the module that is not placed is at address 0x40. -/
theorem branchBinary_claimsAddress : ¬ ∀ (formats : Formats) fuel fs path b rel,
    load formats fuel fs path = .ok b → formats.rel b.data = .ok rel → rel.loadAddr = 0 →
    rel.bssLoadAddr = 0 → ClaimsNoAddress b.toBinary := by
  intro h
  have hnone := h branchFormats 4 _ "branch.rel" branchBinary branchRel load_branchBinary rfl rfl rfl
  have hfound := hnone.resolveVMA 0x44
  revert hfound
  decide

theorem claimsNoAddress_iff_branchBinary :
    ClaimsNoAddress branchBinary.toBinary ↔
      ∀ s ∈ branchBinary.sections, s.type ≠ .BSS → s.offset = 0 :=
  have hrel : branchFormats.rel branchBinary.data = .ok branchRel := rfl
  claimsNoAddress_iff load_branchBinary hrel rfl rfl

end Rel

/-! ### Branches -/

namespace BinarySection

/-- The offsets of the file that the section is at. -/
def fileRange (s : BinarySection) : AddressRange 32 := ⟨s.offset, s.length⟩

/-- The file offset that the branch at word `j` goes to. -/
def branchTargetOff (s : BinarySection) (j : Nat) : BitVec 32 :=
  s.offset + BitVec.ofNat 32 (4 * j) + BitVec.ofInt 32 (branchValue (be32 s.buffer j))

end BinarySection

/-- The search tests the offset of a section against a range at the offset looked for. -/
theorem Binary.findSectionByOffset_eq (b : Binary) (off : BitVec 32) :
    b.findSectionByOffset off =
      b.sections.findIdx? fun sec => (⟨off, sec.length⟩ : AddressRange 32).testEnd sec.offset := rfl

namespace NinProgramLoader

/-- The relocation registered at word `j` of section `i`. -/
def rel24Reloc? (rel : Binary) (binaryIdx i : Nat) (s : BinarySection) (j : Nat) :
    Option Relocation :=
  if isBranchUncoditional (be32 s.buffer j) then
    (rel.findSectionByOffset (s.branchTargetOff j)).map fun (t : Nat) =>
      ⟨⟨⟨i, BitVec.ofNat 32 (4 * j)⟩, binaryIdx⟩, ⟨⟨t, s.branchTargetOff j⟩, binaryIdx⟩,
        relocREL24, 0⟩
  else none

/-- The relocations registered for section `i`. -/
def sectionRel24Relocs (rel : Binary) (binaryIdx : Nat) (p : BinarySection × Nat) :
    List Relocation :=
  if p.1.type = .TEXT then
    (List.range (p.1.length.toNat / 4)).filterMap (rel24Reloc? rel binaryIdx p.2 p.1)
  else []

theorem registerRel24Reloc_relocs (rel : Binary) (binaryIdx i : Nat) (s : BinarySection)
    (reloctab : RelocationTable) (j : Nat) :
    (registerRel24Reloc rel binaryIdx i s reloctab j).relocs =
      reloctab.relocs ++ (rel24Reloc? rel binaryIdx i s j).toList := by
  unfold registerRel24Reloc rel24Reloc?
  dsimp only
  split
  · rw [BinarySection.branchTargetOff]
    split
    · next t ht =>
      rw [ht]
      rfl
    · next ht =>
      rw [ht]
      exact (List.append_nil _).symm
  · exact (List.append_nil _).symm

theorem registerRel24Relocs_relocs (reloctab : RelocationTable) (rel : Binary) (binaryIdx : Nat) :
    (registerRel24Relocs reloctab rel binaryIdx).relocs =
      reloctab.relocs ++ rel.sections.zipIdx.flatMap (sectionRel24Relocs rel binaryIdx) := by
  refine Appending.view_foldl RelocationTable.relocs (fun t p => ?_) _ _
  unfold sectionRel24Relocs
  dsimp only
  split
  · rw [Appending.view_foldl RelocationTable.relocs (registerRel24Reloc_relocs rel binaryIdx p.2 p.1),
      List.filterMap_eq_flatMap_toList]
  · exact (List.append_nil _).symm

variable {rel : Binary} {binaryIdx i j : Nat} {s : BinarySection}

theorem source_of_rel24Reloc? {r : Relocation} (h : rel24Reloc? rel binaryIdx i s j = some r) :
    r.source = ⟨⟨i, BitVec.ofNat 32 (4 * j)⟩, binaryIdx⟩ := by
  unfold rel24Reloc? at h
  split at h
  · obtain ⟨t, _, rfl⟩ := Option.map_eq_some_iff.mp h
    rfl
  · cases h

/-- Every word of a text section has at most one relocation, its own. -/
theorem mem_relocs_at_iff (hs : rel.sections[i]? = some s) (htext : s.type = .TEXT)
    (hj : j < s.length.toNat / 4) (r : Relocation) :
    r ∈ rel.sections.zipIdx.flatMap (sectionRel24Relocs rel binaryIdx) ∧
        r.source = ⟨⟨i, BitVec.ofNat 32 (4 * j)⟩, binaryIdx⟩ ↔
      rel24Reloc? rel binaryIdx i s j = some r := by
  constructor
  · rintro ⟨hr, hsource⟩
    obtain ⟨p, hp, hr⟩ := List.mem_flatMap.mp hr
    unfold sectionRel24Relocs at hr
    split at hr
    · obtain ⟨k, hk, hr⟩ := List.mem_filterMap.mp hr
      rw [source_of_rel24Reloc? hr] at hsource
      simp only [ProgramLocation.mk.injEq, BinaryLocation.mk.injEq, Nat.cast_inj, and_true] at hsource
      have hp := List.mem_zipIdx_iff_getElem?.mp hp
      rw [hsource.1, hs, Option.some.injEq] at hp
      subst hp
      have hlength := p.1.length.isLt
      have hwords := congrArg BitVec.toNat hsource.2
      rw [BitVec.toNat_ofNat, BitVec.toNat_ofNat, Nat.mod_eq_of_lt (by
        have := List.mem_range.mp hk
        omega), Nat.mod_eq_of_lt (by omega)] at hwords
      have hkj : k = j := by omega
      rw [← hsource.1, ← hkj]
      exact hr
    · cases hr
  · intro hr
    refine ⟨List.mem_flatMap.mpr ⟨(s, i), List.mem_zipIdx_iff_getElem?.mpr hs, ?_⟩,
      source_of_rel24Reloc? hr⟩
    rw [sectionRel24Relocs, if_pos htext]
    exact List.mem_filterMap.mpr ⟨j, List.mem_range.mpr hj, hr⟩

/-- What registering the branches of a REL adds to the table. -/
def addedRelocs (reloctab : RelocationTable) (rel : Binary) (binaryIdx : Nat) : List Relocation :=
  (registerRel24Relocs reloctab rel binaryIdx).relocs.drop reloctab.relocs.length

theorem addedRelocs_eq (reloctab : RelocationTable) (rel : Binary) (binaryIdx : Nat) :
    addedRelocs reloctab rel binaryIdx =
      rel.sections.zipIdx.flatMap (sectionRel24Relocs rel binaryIdx) := by
  rw [addedRelocs, registerRel24Relocs_relocs, List.drop_left]

end NinProgramLoader

open NinProgramLoader

/-- The branch at word `j` of section `i` gets a relocation to the place of its target in
the section that has it, where the bytes of the file at the target are; or none, if no
section has the target. -/
structure RelocatesBranch (b : LoadedBinary) (binaryIdx i : Nat) (s : BinarySection) (j : Nat)
    (added : List Relocation) : Prop where
  inSection : ∀ (t : Nat) ts, b.sections[t]? = some ts →
    ts.fileRange.Covers (s.branchTargetOff j) →
    ∃ r ∈ added, r.source = ⟨⟨i, BitVec.ofNat 32 (4 * j)⟩, binaryIdx⟩ ∧
      r.destination = ⟨⟨t, s.branchTargetOff j - ts.offset⟩, binaryIdx⟩ ∧
      b.getBufferAtLocation r.destination.toBinaryLocation =
        .ok (some (b.data.drop (s.branchTargetOff j).toNat))
  inNone : (∀ ts ∈ b.sections, ¬ ts.fileRange.Covers (s.branchTargetOff j)) →
    ∀ r ∈ added, r.source ≠ ⟨⟨i, BitVec.ofNat 32 (4 * j)⟩, binaryIdx⟩

/-- The search for `off` with the bounds the wrong way round comes out right. A section that
has `off` is found when both are at the start of the file and no section before is longer
than its offset; no section is found when none starts at `off` or within its own length
behind it. -/
structure FoundReversed (sections : List BinarySection) (off : BitVec 32) : Prop where
  inSection : ∀ (t : Nat) ts, sections[t]? = some ts → ts.fileRange.Covers off →
    off = 0 ∧ ts.offset = 0 ∧
      ∀ u < t, ∀ us, sections[u]? = some us → us.length.toNat ≤ us.offset.toNat
  inNone : (∀ ts ∈ sections, ¬ ts.fileRange.Covers off) → ∀ us ∈ sections,
    ¬ (off.toNat ≤ us.offset.toNat ∧ us.offset.toNat < off.toNat + us.length.toNat ∧
      off.toNat + us.length.toNat < 2 ^ 32)

theorem testEnd_eq_true {off : BitVec 32} {us : BinarySection} :
    (⟨off, us.length⟩ : AddressRange 32).testEnd us.offset = true ↔
      off.toNat ≤ us.offset.toNat ∧ us.offset.toNat < off.toNat + us.length.toNat ∧
        off.toNat + us.length.toNat < 2 ^ 32 := by
  rw [AddressRange.testEnd_iff]
  unfold AddressRange.EndFits AddressRange.Covers
  dsimp only
  tauto

theorem test_of_findSectionByOffset {b : Binary} {off : BitVec 32} {t : Nat}
    (h : b.findSectionByOffset off = some t) :
    ∃ ts, b.sections[t]? = some ts ∧ off.toNat ≤ ts.offset.toNat ∧
      ts.offset.toNat < off.toNat + ts.length.toNat ∧ off.toNat + ts.length.toNat < 2 ^ 32 := by
  rw [Binary.findSectionByOffset_eq] at h
  obtain ⟨hlt, htest, _⟩ := List.findIdx?_eq_some_iff_getElem.mp h
  exact ⟨_, List.getElem?_eq_getElem hlt, testEnd_eq_true.mp htest⟩

/-- From offset zero the search stops at the first section longer than its offset. -/
theorem findSectionByOffset_zero {b : Binary} {t : Nat} {ts : BinarySection}
    (hts : b.sections[t]? = some ts) (hoff : ts.offset = 0) (hcovers : ts.fileRange.Covers 0) :
    b.findSectionByOffset 0 = some t ↔
      ∀ u < t, ∀ us, b.sections[u]? = some us → us.length.toNat ≤ us.offset.toNat := by
  obtain ⟨hlt, hget⟩ := List.getElem?_eq_some_iff.mp hts
  have hzero : (0 : BitVec 32).toNat = 0 := rfl
  have hpass : ∀ us : BinarySection,
      (⟨0, us.length⟩ : AddressRange 32).testEnd us.offset = true ↔
        us.offset.toNat < us.length.toNat := by
    intro us
    have hlength := us.length.isLt
    rw [testEnd_eq_true, hzero]
    omega
  rw [Binary.findSectionByOffset_eq, List.findIdx?_eq_some_iff_getElem]
  constructor
  · rintro ⟨_, _, hfirst⟩ u hu us hus
    have hnot := hfirst u hu
    rw [(List.getElem?_eq_some_iff.mp hus).2, hpass] at hnot
    omega
  · intro hfirst
    refine ⟨hlt, ?_, fun u hu => ?_⟩
    · rw [hget, hpass, hoff]
      unfold AddressRange.Covers BinarySection.fileRange at hcovers
      simpa [hoff] using hcovers
    · rw [hpass]
      have hle := hfirst u hu _ (List.getElem?_eq_getElem (by omega))
      omega

/-- A section found that has the offset, and has it at the same offset, is at the start of the
file: the search finds no section that starts before the offset. -/
theorem zero_of_findSectionByOffset {b : Binary} {off : BitVec 32} {t : Nat} {ts : BinarySection}
    (hfound : b.findSectionByOffset off = some t) (hts : b.sections[t]? = some ts)
    (hcovers : ts.fileRange.Covers off) (hsame : off = off - ts.offset) :
    off = 0 ∧ ts.offset = 0 := by
  obtain ⟨ts', hts', htest, _⟩ := test_of_findSectionByOffset hfound
  rw [hts, Option.some.injEq] at hts'
  subst hts'
  have hle : ts.offset.toNat ≤ off.toNat := hcovers.1
  have hdistance := congrArg BitVec.toNat hsame
  rw [BitVec.toNat_sub_of_le hle] at hdistance
  have hzero : (0 : BitVec 32).toNat = 0 := rfl
  constructor
  · apply BitVec.eq_of_toNat_eq
    omega
  · apply BitVec.eq_of_toNat_eq
    omega

section Branches
variable {formats : Formats} {fuel : Nat} {fs : FileSystem} {path : String} {b : LoadedBinary}
  {i j : Nat} {s : BinarySection}

/-- The bytes of a section of a REL are those of the file at its offset. -/
theorem Rel.getBufferAtLocation_eq (hload : Rel.load formats fuel fs path = .ok b) {t : Nat}
    {ts : BinarySection} (hts : b.sections[t]? = some ts) {off : BitVec 32}
    (hcovers : ts.fileRange.Covers off) :
    b.getBufferAtLocation ⟨t, off - ts.offset⟩ = .ok (some (b.data.drop off.toNat)) := by
  obtain ⟨rel, _, hsections⟩ := Rel.load_sections hload
  obtain ⟨n, _, name, hn⟩ := forall₂_exists_left hsections (List.mem_of_getElem? hts)
  have hbuffer : ts.buffer = b.data.drop ts.offset.toNat := by
    rw [hn]
    rfl
  have hsection : b.section? t = .ok ts := Binary.section?_eq_ok.mpr ⟨t, rfl, hts⟩
  obtain ⟨hle, hlt⟩ := hcovers
  dsimp only [BinarySection.fileRange] at hle hlt
  have hoff : (off - ts.offset).toNat = off.toNat - ts.offset.toNat := BitVec.toNat_sub_of_le hle
  have hin : (off - ts.offset).ult ts.length = true := by
    simp only [BitVec.ult, decide_eq_true_eq, hoff]
    omega
  rw [Binary.getBufferAtLocation]
  simp only [hsection, bind, Except.bind, pure, Except.pure, BinarySection.getBufferAtOffset]
  rw [if_pos hin, hbuffer, List.drop_drop, hoff, Nat.add_sub_cancel' hle]

/-- The relocations at a branch are those of the section its target is found in. -/
theorem mem_addedRelocs_iff (hs : b.sections[i]? = some s) (htext : s.type = .TEXT)
    (hj : j < s.length.toNat / 4) (hbranch : isBranchUncoditional (be32 s.buffer j) = true)
    (reloctab : RelocationTable) (binaryIdx : Nat) (r : Relocation) :
    r ∈ addedRelocs reloctab b.toBinary binaryIdx ∧
        r.source = ⟨⟨i, BitVec.ofNat 32 (4 * j)⟩, binaryIdx⟩ ↔
      ∃ t, b.findSectionByOffset (s.branchTargetOff j) = some t ∧
        r = ⟨⟨⟨i, BitVec.ofNat 32 (4 * j)⟩, binaryIdx⟩, ⟨⟨t, s.branchTargetOff j⟩, binaryIdx⟩,
          relocREL24, 0⟩ := by
  rw [addedRelocs_eq, mem_relocs_at_iff hs htext hj, rel24Reloc?, if_pos hbranch,
    Option.map_eq_some_iff]
  simp only [eq_comm]

/-- **A branch of a REL gets the relocation to its target exactly where searching with the
bounds the wrong way round comes out right.** -/
theorem relocatesBranch_iff (hload : Rel.load formats fuel fs path = .ok b)
    (hs : b.sections[i]? = some s) (htext : s.type = .TEXT) (hj : j < s.length.toNat / 4)
    (hbranch : isBranchUncoditional (be32 s.buffer j) = true) (reloctab : RelocationTable)
    (binaryIdx : Nat) :
    RelocatesBranch b binaryIdx i s j (addedRelocs reloctab b.toBinary binaryIdx) ↔
      FoundReversed b.sections (s.branchTargetOff j) := by
  have hadded := mem_addedRelocs_iff hs htext hj hbranch reloctab binaryIdx
  generalize hoff : s.branchTargetOff j = off at hadded
  constructor
  · intro h
    refine ⟨fun t ts hts hcovers => ?_, fun hnone us hus hpass => ?_⟩
    · obtain ⟨r, hr, hsource, hdestination, _⟩ := h.inSection t ts hts (by rw [hoff]; exact hcovers)
      obtain ⟨t', hfound, hreloc⟩ := (hadded r).mp ⟨hr, hsource⟩
      rw [hreloc, hoff] at hdestination
      simp only [ProgramLocation.mk.injEq, BinaryLocation.mk.injEq, Nat.cast_inj,
        and_true] at hdestination
      obtain ⟨htt, hsame⟩ := hdestination
      rw [htt] at hfound
      obtain ⟨rfl, hzero⟩ := zero_of_findSectionByOffset hfound hts hcovers hsame
      exact ⟨rfl, hzero, (findSectionByOffset_zero hts hzero hcovers).mp hfound⟩
    · cases hfound : b.findSectionByOffset off with
      | none =>
        rw [Binary.findSectionByOffset_eq] at hfound
        have hfalse := List.findIdx?_eq_none_iff.mp hfound us hus
        rw [testEnd_eq_true.mpr hpass] at hfalse
        cases hfalse
      | some t =>
        obtain ⟨hr, hsource⟩ := (hadded _).mpr ⟨t, hfound, rfl⟩
        exact h.inNone (by rw [hoff]; exact hnone) _ hr hsource
  · intro h
    refine ⟨fun t ts hts hcovers => ?_, fun hnone r hr hsource => ?_⟩
    · rw [hoff] at hcovers ⊢
      obtain ⟨rfl, hzero, hfirst⟩ := h.inSection t ts hts hcovers
      have hfound := (findSectionByOffset_zero hts hzero hcovers).mpr hfirst
      obtain ⟨hr, hsource⟩ := (hadded _).mpr ⟨t, hfound, rfl⟩
      have hplace : (0 : BitVec 32) = 0 - ts.offset := by
        rw [hzero]
        rfl
      refine ⟨_, hr, hsource, by rw [← hplace], ?_⟩
      rw [← Rel.getBufferAtLocation_eq hload hts hcovers, ← hplace]
    · rw [hoff] at hnone
      obtain ⟨t, hfound, _⟩ := (hadded r).mp ⟨hr, hsource⟩
      obtain ⟨us, hus, htest⟩ := test_of_findSectionByOffset hfound
      exact h.inNone hnone us (List.mem_of_getElem? hus) htest

/-- The branch of the module, from 0x40 to 0x44 of the file, is in section 1 and gets no
relocation. -/
theorem branchBinary_not_relocated : ¬ ∀ (formats : Formats) fuel fs path (b : LoadedBinary)
    (i : Nat) s j (reloctab : RelocationTable) (binaryIdx : Nat),
    Rel.load formats fuel fs path = .ok b →
    b.sections.Pairwise (fun s t => s.fileRange.Apart t.fileRange) →
    b.sections[i]? = some s → s.type = .TEXT → j < s.length.toNat / 4 →
    isBranchUncoditional (be32 s.buffer j) = true →
    RelocatesBranch b binaryIdx i s j (addedRelocs reloctab b.toBinary binaryIdx) := by
  intro h
  have hrelocates := h branchFormats 4 _ "branch.rel" branchBinary 1 _ 0 {} 0 load_branchBinary
    (by decide) rfl rfl (by decide) (by decide)
  obtain ⟨r, hr, _⟩ := hrelocates.inSection 1 _ rfl (by decide)
  have hnone : addedRelocs {} branchBinary.toBinary 0 = [] := by decide
  rw [hnone] at hr
  cases hr

theorem relocatesBranch_iff_branchBinary :
    RelocatesBranch branchBinary 0 1
        ⟨".text", 0x40, 8, .TEXT, .rel 0x40, branchFile.drop 0x40⟩ 0
        (addedRelocs {} branchBinary.toBinary 0) ↔
      FoundReversed branchBinary.sections 0x44 :=
  relocatesBranch_iff load_branchBinary rfl rfl (by decide) (by decide) {} 0

end Branches

end Ppc2cpp
