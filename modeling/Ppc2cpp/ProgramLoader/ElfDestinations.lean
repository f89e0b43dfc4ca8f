import Ppc2cpp.ProgramLoader.ElfRelocations

/-! Which relocations of an ELF program tell their symbols apart.

The destination of a relocation is found by the section of its symbol, by its address or by
its name. In relocatable files all of these are places in a section with contents
(`meaning_eq_place`), but for two kinds of symbol: the section index of a common symbol is
that of no section, and every symbol that is defined nowhere is at the start of the first
binary. `toldApart_iff` says that these are the only ones mixed up. -/
namespace Ppc2cpp

namespace ElfProgramLoader

/-- A relocatable file as the format has it: no segments, fewer sections than the first
reserved index, a null section first, and symbols in sections that are there. -/
structure Relocatable (elf : Elfio) : Prop where
  type : elf.type = ET_REL
  segments : elf.segments = []
  count : elf.sections.length ≤ SHN_LORESERVE.toNat
  null : ∃ s, elf.sections[0]? = some s ∧ s.address = 0
  symbols : ∀ sec ∈ elf.sections, ∀ y ∈ sec.symbols, y.sectionIndex.ult SHN_LORESERVE = true →
    y.sectionIndex.toNat < elf.sections.length

/-- What a symbol stands for: a place of the program, or a name that no file defines. -/
inductive Meaning where
  | place (l : ProgramLocation)
  | name (n : String)
deriving DecidableEq

/-- An absolute symbol is at its address and a defined one in its section. Any other, undefined
or common, is what is defined under its name, if anything is. -/
def meaning (P : LoadedProgram) (binaryIdx : Nat) (y : ElfSymbol) : Meaning :=
  if y.sectionIndex = SHN_ABS then
    (P.toProgramLoader.resolveVMA (y.value.setWidth 32)).elim (.name y.name) .place
  else if y.sectionIndex ≠ SHN_UNDEF ∧ y.sectionIndex.ult SHN_LORESERVE = true then
    .place ⟨⟨y.sectionIndex.toNat, y.value.setWidth 32⟩, binaryIdx⟩
  else (resolveByName P y.name).elim (.name y.name) .place

/-- The symbol of an entry. -/
def RelaEntry.symbol? (x : RelaEntry) : Option ElfSymbol :=
  x.elf.sections[x.psec.link.toNat]?.bind fun symtab => symtab.symbols[x.entry.symbol.toNat]?

/-- The section index is reserved and not that of absolute symbols, as for a common symbol. -/
def Reserved (y : ElfSymbol) : Prop :=
  y.sectionIndex ≠ SHN_ABS ∧ SHN_LORESERVE.toNat ≤ y.sectionIndex.toNat

/-- An undefined symbol that no file defines. -/
def DefinedNowhere (P : LoadedProgram) (y : ElfSymbol) : Prop :=
  y.sectionIndex = SHN_UNDEF ∧ resolveByName P y.name = none

/-- The location is in a section of the program. -/
def Inside (P : LoadedProgram) (l : ProgramLocation) : Prop :=
  ∃ sec, P.toProgramLoader.section? l = .ok sec

/-- The location is in a section other than the null section of a file. -/
structure Placed (P : LoadedProgram) (l : ProgramLocation) : Prop where
  inside : Inside P l
  notNull : l.sectionIdx ≠ 0

/-- The null section of every binary is there and has no address. -/
def NullSections (P : LoadedProgram) : Prop :=
  ∀ b ∈ P.binaries, ∃ s, b.sections[0]? = some s ∧ s.getAddress = none

theorem nullSection_of_relocatable {elf : Elfio} (h : Relocatable elf)
    {sections : List BinarySection} (hsections : ElfBinary.sections elf = .ok sections) :
    ∃ s, sections[0]? = some s ∧ s.getAddress = none := by
  obtain ⟨elfsec, hget, haddr⟩ := h.null
  rw [ElfBinary.sections, h.segments] at hsections
  cases hsections
  refine ⟨ElfSection.ofSection elfsec, by rw [List.getElem?_map, hget, Option.map_some], ?_⟩
  simp [BinarySection.getAddress, ElfSection.ofSection, haddr]

section Placed
variable {P : LoadedProgram} {l : ProgramLocation}

/-- What is found by its address is not in a null section. -/
theorem placed_of_resolveVMA (hnull : NullSections P) {vma : BitVec 32}
    (h : P.toProgramLoader.resolveVMA vma = some l) : Placed P l := by
  obtain ⟨r, hr, _⟩ := ProgramLoader.testEnd_of_resolveVMA h
  obtain ⟨s, hs, hrange⟩ := ProgramLoader.range?_eq_some.mp hr
  refine ⟨⟨s, hs⟩, fun hzero => ?_⟩
  obtain ⟨b, hb, hs⟩ := ProgramLoader.section?_eq_ok.mp hs
  obtain ⟨i, _, hi⟩ := ProgramLoader.binary?_eq_ok.mp hb
  obtain ⟨k, hk, hs⟩ := Binary.section?_eq_ok.mp hs
  obtain ⟨loaded, hloaded, rfl⟩ := List.mem_map.mp (List.mem_of_getElem? hi)
  obtain ⟨null, hfirst, haddr⟩ := hnull loaded hloaded
  have hk0 : k = 0 := by omega
  rw [hk0, hfirst, Option.some.injEq] at hs
  rw [hs] at haddr
  rw [(BinarySection.range?_eq_some.mp hrange).1] at haddr
  cases haddr

/-- A file more leaves the locations of the others where they are. -/
theorem Placed.append {b : LoadedBinary} (h : Placed P l) :
    Placed {P with binaries := P.binaries ++ [b]} l := by
  obtain ⟨s, hs⟩ := h.inside
  obtain ⟨c, hc, hs⟩ := ProgramLoader.section?_eq_ok.mp hs
  obtain ⟨i, hidx, hi⟩ := ProgramLoader.binary?_eq_ok.mp hc
  refine ⟨⟨s, ProgramLoader.section?_eq_ok.mpr ⟨c, ProgramLoader.binary?_eq_ok.mpr ⟨i, hidx, ?_⟩,
    hs⟩⟩, h.notNull⟩
  obtain ⟨hlt, _⟩ := List.getElem?_eq_some_iff.mp hi
  simp only [LoadedProgram.toProgramLoader, List.map_append] at hi hlt ⊢
  rw [List.getElem?_append_left hlt]
  exact hi

/-- A defined symbol is in the section of its index. -/
theorem placed_of_section {i : Nat} {b : LoadedBinary} (hb : P.binaries[i]? = some b)
    {elf : Elfio} (hrelocatable : Relocatable elf)
    (hsections : ElfBinary.sections elf = .ok b.sections) {idx : Nat} (hidx : idx ≠ 0)
    (hlt : idx < elf.sections.length) (off : BitVec 32) : Placed P ⟨⟨idx, off⟩, i⟩ := by
  rw [ElfBinary.sections, hrelocatable.segments] at hsections
  have hplain : elf.sections.map ElfSection.ofSection = b.sections := Except.ok.inj hsections
  have hget : idx < b.sections.length := by
    rw [← hplain, List.length_map]
    exact hlt
  refine ⟨⟨b.sections[idx], ?_⟩, fun hzero => hidx (Int.natCast_eq_zero.mp hzero)⟩
  rw [section?_of_binary hb]
  exact Binary.section?_eq_ok.mpr ⟨idx, rfl, List.getElem?_eq_getElem hget⟩

/-- A location of a symbol of a relocatable file. -/
theorem getElfSymbolLocation_eq {binaryIdx : Nat} {sectionIndex : BitVec 16} {value : BitVec 64} :
    getElfSymbolLocation P binaryIdx sectionIndex value false = .ok l ↔
      if sectionIndex = SHN_ABS then P.toProgramLoader.resolveVMA (value.setWidth 32) = some l
      else l = ⟨⟨sectionIndex.toNat, value.setWidth 32⟩, binaryIdx⟩ := by
  unfold getElfSymbolLocation
  by_cases habs : sectionIndex = SHN_ABS
  · simp only [habs, Bool.false_eq_true, or_true, if_true]
    cases P.toProgramLoader.resolveVMA (value.setWidth 32) <;> simp
  · simp only [habs, Bool.false_eq_true, or_false, if_false, Except.ok.injEq, eq_comm]

theorem placed_of_symbol (hnull : NullSections P) {i : Nat} {b : LoadedBinary}
    (hb : P.binaries[i]? = some b) {elf : Elfio} (hrelocatable : Relocatable elf)
    (hsections : ElfBinary.sections elf = .ok b.sections) {sec : ElfioSection}
    (hsec : sec ∈ elf.sections) {y : ElfSymbol} (hy : y ∈ sec.symbols)
    (hundef : y.sectionIndex ≠ SHN_UNDEF)
    (hindex : y.sectionIndex = SHN_ABS ∨ y.sectionIndex.ult SHN_LORESERVE = true)
    (h : getElfSymbolLocation P i y.sectionIndex y.value false = .ok l) : Placed P l := by
  rw [getElfSymbolLocation_eq] at h
  split at h
  · exact placed_of_resolveVMA hnull h
  · next habs =>
    subst h
    refine placed_of_section hb hrelocatable hsections (fun hzero => hundef ?_)
      (hrelocatable.symbols sec hsec y hy (hindex.resolve_left habs)) _
    exact BitVec.eq_of_toNat_eq hzero

/-- What registering a symbol adds, if anything. -/
theorem registerSymbol_eq_ok {elf : Elfio} {i : Nat} {t t' : SymbolTable} {y : ElfSymbol}
    (htype : elf.type = ET_REL) (h : registerSymbol P elf i t y = .ok t') :
    t' = t ∨ ∃ s, t' = t.pushBack s ∧ y.sectionIndex ≠ SHN_UNDEF ∧
      (y.sectionIndex = SHN_ABS ∨ y.sectionIndex.ult SHN_LORESERVE = true) ∧
      getElfSymbolLocation P i y.sectionIndex y.value false = .ok s.location := by
  unfold registerSymbol at h
  split at h
  · next hindex =>
    split at h
    · cases h
      exact .inl rfl
    · obtain ⟨symLocation, hlocation, h⟩ := bind_eq_ok.mp h
      simp only [htype, ne_eq, not_true_eq_false, decide_false] at hlocation
      cases h
      exact .inr ⟨_, rfl, hindex.1, hindex.2, hlocation⟩
  · cases h
    exact .inl rfl

end Placed

/-- Every symbol of the table is placed. -/
def SymbolsPlaced (P : LoadedProgram) (t : SymbolTable) : Prop :=
  ∀ s ∈ t.symbols, Placed P s.location

theorem registerSymbols_placed {P : LoadedProgram} (hnull : NullSections P) {i : Nat}
    {b : LoadedBinary} (hb : P.binaries[i]? = some b) {elf : Elfio}
    (hrelocatable : Relocatable elf) (hsections : ElfBinary.sections elf = .ok b.sections)
    {symbols : List ElfSymbol} (hsymbols : ∀ y ∈ symbols, ∃ sec ∈ elf.sections, y ∈ sec.symbols)
    {t t' : SymbolTable} (ht : SymbolsPlaced P t)
    (h : symbols.foldlM (registerSymbol P elf i) t = .ok t') : SymbolsPlaced P t' := by
  induction symbols generalizing t with
  | nil =>
    cases h
    exact ht
  | cons y rest ih =>
    rw [List.foldlM_cons] at h
    obtain ⟨mid, hmid, h⟩ := bind_eq_ok.mp h
    refine ih (fun z hz => hsymbols z (List.mem_cons_of_mem _ hz)) ?_ h
    rcases registerSymbol_eq_ok hrelocatable.type hmid with rfl | ⟨s, rfl, hundef, hindex, hlocation⟩
    · exact ht
    · obtain ⟨sec, hsec, hy⟩ := hsymbols y (List.mem_cons_self ..)
      intro z hz
      rcases List.mem_append.mp hz with hz | hz
      · exact ht z hz
      · rw [List.mem_singleton.mp hz]
        exact placed_of_symbol hnull hb hrelocatable hsections hsec hy hundef hindex hlocation

/-- What the loop over relocatable files keeps. -/
structure Sound (P : LoadedProgram) : Prop where
  nullSections : NullSections P
  symbols : SymbolsPlaced P P.symtab

section Files
variable {formats : Formats} {fs : FileSystem} {binaryPaths : List String}

theorem loadBinary_sound {P P' : LoadedProgram} {elfs elfs' : List Elfio} {path : String}
    (hsound : Sound P) (hrelocatable : Relocatable (formats.elf ((fs path).getD [])))
    (h : loadBinary formats fs (P, elfs) path = .ok (P', elfs')) : Sound P' := by
  simp only [loadBinary, ElfBinary.load, bind_eq_ok, Prod.exists] at h
  obtain ⟨b, elf, ⟨data, hdata, sections, hsections, hb⟩, symtab, hsymtab, h⟩ := h
  cases hb
  cases h
  rw [readFile_eq_ok.mp hdata, Option.getD_some] at hrelocatable
  let Q : LoadedProgram :=
    {P with binaries := P.binaries ++ [⟨⟨filename path, .elf, sections⟩, path, data⟩]}
  have hnull : NullSections Q := by
    intro c hc
    rcases List.mem_append.mp hc with hc | hc
    · exact hsound.nullSections c hc
    · rw [List.mem_singleton.mp hc]
      exact nullSection_of_relocatable hrelocatable hsections
  have hlast : Q.binaries[Q.binaries.length - 1]? =
      some ⟨⟨filename path, .elf, sections⟩, path, data⟩ := by simp [Q]
  have hplaced := registerSymbols_placed hnull hlast hrelocatable hsections
    (fun y hy => by
      obtain ⟨sec, hsec, hy⟩ := List.mem_flatMap.mp hy
      exact ⟨sec, (List.mem_filter.mp hsec).1, hy⟩)
    (fun z hz => (hsound.symbols z hz).append) hsymtab
  exact ⟨hnull, fun z hz => ⟨(hplaced z hz).inside, (hplaced z hz).notNull⟩⟩

theorem loadBinaries_sound {P P' : LoadedProgram} {elfs elfs' : List Elfio} (hsound : Sound P)
    (hrelocatable : ∀ elf ∈ elfFiles formats fs binaryPaths, Relocatable elf)
    (h : binaryPaths.foldlM (loadBinary formats fs) (P, elfs) = .ok (P', elfs')) : Sound P' := by
  induction binaryPaths generalizing P elfs with
  | nil =>
    cases h
    exact hsound
  | cons path rest ih =>
    rw [List.foldlM_cons] at h
    obtain ⟨⟨Q, elfsQ⟩, hQ, h⟩ := bind_eq_ok.mp h
    rw [elfFiles, List.map_cons, List.forall_mem_cons] at hrelocatable
    exact ih (loadBinary_sound hsound hrelocatable.1 hQ) hrelocatable.2 h

theorem load_sound {P : LoadedProgram} (h : load formats fs binaryPaths = .ok P)
    (hrelocatable : ∀ elf ∈ elfFiles formats fs binaryPaths, Relocatable elf) : Sound P := by
  simp only [load, bind_eq_ok, Prod.exists] at h
  obtain ⟨Q, elfs, hQ, reloctab, _, h⟩ := h
  cases h
  have hempty : Sound {loaderType := .elf, binaries := []} :=
    ⟨fun b hb => (List.not_mem_nil hb).elim, fun z hz => (List.not_mem_nil hz).elim⟩
  have hsound := loadBinaries_sound hempty hrelocatable hQ
  exact ⟨hsound.nullSections, fun z hz =>
    ⟨(hsound.symbols z hz).inside, (hsound.symbols z hz).notNull⟩⟩

/-! ### Which destinations tell symbols apart -/

/-- The destinations are different locations, each in a section of the program. -/
structure ToldApart (P : LoadedProgram) (r₁ r₂ : Relocation) : Prop where
  ne : r₁.destination ≠ r₂.destination
  inside₁ : Inside P r₁.destination
  inside₂ : Inside P r₂.destination

section Entry
variable {P : LoadedProgram} {x : RelaEntry} {r : Relocation} {y : ElfSymbol} {b : LoadedBinary}

/-- The destination of an entry of a relocatable file, by its symbol. -/
theorem Registered.destination_of_symbol (h : Registered P x r) (hy : x.symbol? = some y)
    (htype : x.elf.type = ET_REL) :
    if y.sectionIndex ≠ SHN_UNDEF then
      getElfSymbolLocation P x.binaryIdx y.sectionIndex y.value false = .ok r.destination
    else r.destination = (resolveByName P y.name).getD ⟨⟨0, 0⟩, 0⟩ := by
  obtain ⟨symtab, hsymtab, hdest⟩ := h.destination
  rw [RelaEntry.symbol?, hsymtab, Option.bind_some] at hy
  simp only [getElfRelocDest, bind_eq_ok, at?_eq_ok, hy, Option.some.injEq, htype, ne_eq,
    not_true_eq_false, decide_false] at hdest
  obtain ⟨_, rfl, hdest⟩ := hdest
  by_cases hundef : y.sectionIndex = SHN_UNDEF
  · rw [if_neg (not_not.mpr hundef)] at hdest ⊢
    exact (Except.ok.inj hdest).symm
  · rw [if_pos hundef] at hdest ⊢
    exact hdest

theorem sectionIndex_ne_zero_of_reserved (h : Reserved y) : y.sectionIndex ≠ SHN_UNDEF := by
  intro hundef
  have hle := h.2
  rw [hundef] at hle
  revert hle
  decide

/-- The binary of an entry. -/
structure MadeOf (P : LoadedProgram) (x : RelaEntry) (b : LoadedBinary) : Prop where
  binary : P.binaries[x.binaryIdx]? = some b
  sections : ElfBinary.sections x.elf = .ok b.sections

/-- A common symbol is in no section. -/
theorem not_inside_of_reserved (h : Registered P x r) (hy : x.symbol? = some y)
    (hb : MadeOf P x b) (hrelocatable : Relocatable x.elf) (hreserved : Reserved y) :
    ¬ Inside P r.destination := by
  have hdest := h.destination_of_symbol hy hrelocatable.type
  rw [if_pos (sectionIndex_ne_zero_of_reserved hreserved), getElfSymbolLocation_eq,
    if_neg hreserved.1] at hdest
  rintro ⟨s, hs⟩
  rw [hdest, section?_of_binary hb.binary] at hs
  obtain ⟨k, hk, hs⟩ := Binary.section?_eq_ok.mp hs
  obtain ⟨hlt, _⟩ := List.getElem?_eq_some_iff.mp hs
  have hsections := hb.sections
  rw [ElfBinary.sections, hrelocatable.segments] at hsections
  have hplain : x.elf.sections.map ElfSection.ofSection = b.sections := Except.ok.inj hsections
  rw [← hplain, List.length_map] at hlt
  have hcount := hrelocatable.count
  have hindex := hreserved.2
  omega

theorem destination_of_nowhere (h : Registered P x r) (hy : x.symbol? = some y)
    (hrelocatable : Relocatable x.elf) (hnowhere : DefinedNowhere P y) :
    r.destination = ⟨⟨0, 0⟩, 0⟩ := by
  have hdest := h.destination_of_symbol hy hrelocatable.type
  rw [if_neg (not_not.mpr hnowhere.1), hnowhere.2] at hdest
  exact hdest

theorem symbol?_eq_some (hy : x.symbol? = some y) : ∃ sec ∈ x.elf.sections, y ∈ sec.symbols := by
  obtain ⟨sec, hsec, hy⟩ := Option.bind_eq_some_iff.mp hy
  exact ⟨sec, List.mem_of_getElem? hsec, List.mem_of_getElem? hy⟩

theorem mem_of_resolveByName {name : String} {l : ProgramLocation}
    (h : resolveByName P name = some l) : ∃ s ∈ P.symtab.symbols, s.location = l := by
  obtain ⟨s, hs, rfl⟩ := Option.map_eq_some_iff.mp h
  obtain ⟨i, _, hi⟩ := Option.bind_eq_some_iff.mp hs
  exact ⟨s, List.mem_of_getElem? hi, rfl⟩

/-- Any other symbol is at the destination, which is in a section with contents. -/
theorem meaning_eq_place (h : Registered P x r) (hy : x.symbol? = some y) (hb : MadeOf P x b)
    (hrelocatable : Relocatable x.elf) (hsound : Sound P) (hreserved : ¬ Reserved y)
    (hnowhere : ¬ DefinedNowhere P y) :
    meaning P x.binaryIdx y = .place r.destination ∧ Placed P r.destination := by
  have hdest := h.destination_of_symbol hy hrelocatable.type
  by_cases hundef : y.sectionIndex = SHN_UNDEF
  · rw [if_neg (not_not.mpr hundef)] at hdest
    cases hname : resolveByName P y.name with
    | none => exact absurd ⟨hundef, hname⟩ hnowhere
    | some l =>
      rw [hname, Option.getD_some] at hdest
      obtain ⟨s, hs, hl⟩ := mem_of_resolveByName hname
      refine ⟨?_, by rw [hdest, ← hl]; exact hsound.symbols s hs⟩
      rw [meaning, hundef, if_neg (by decide), if_neg (by decide), hname, hdest]
      rfl
  · rw [if_pos hundef] at hdest
    have hindex : y.sectionIndex = SHN_ABS ∨ y.sectionIndex.ult SHN_LORESERVE = true := by
      by_contra hother
      rw [not_or] at hother
      apply hreserved
      refine ⟨hother.1, ?_⟩
      simpa [BitVec.ult] using hother.2
    obtain ⟨sec, hsec, hmem⟩ := symbol?_eq_some hy
    refine ⟨?_, placed_of_symbol hsound.nullSections hb.binary hrelocatable hb.sections hsec hmem
      hundef hindex hdest⟩
    rw [getElfSymbolLocation_eq] at hdest
    by_cases habs : y.sectionIndex = SHN_ABS
    · rw [if_pos habs] at hdest
      rw [meaning, if_pos habs, hdest]
      rfl
    · rw [if_neg habs] at hdest
      rw [meaning, if_neg habs, if_pos ⟨hundef, hindex.resolve_left habs⟩, hdest]

theorem inside_zero (hsound : Sound P) (hb : MadeOf P x b) : Inside P ⟨⟨0, 0⟩, 0⟩ := by
  obtain ⟨hlt, _⟩ := List.getElem?_eq_some_iff.mp hb.binary
  have hfirst : P.binaries[0]? = some P.binaries[0] := List.getElem?_eq_getElem (by omega)
  obtain ⟨s, hs, _⟩ := hsound.nullSections _ (List.mem_of_getElem? hfirst)
  refine ⟨s, ?_⟩
  have hsection := section?_of_binary hfirst 0 0
  rw [Nat.cast_zero] at hsection
  rw [hsection]
  exact Binary.section?_eq_ok.mpr ⟨0, rfl, hs⟩

theorem ToldApart.symm {r₁ r₂ : Relocation} (h : ToldApart P r₁ r₂) : ToldApart P r₂ r₁ :=
  ⟨h.ne.symm, h.inside₂, h.inside₁⟩

/-- What is defined nowhere is in a null section, and what is placed is not. -/
theorem toldApart_of_zero {r₁ r₂ : Relocation} (hsound : Sound P) (hb : MadeOf P x b)
    (hzero : r₁.destination = ⟨⟨0, 0⟩, 0⟩) (hplaced : Placed P r₂.destination) :
    ToldApart P r₁ r₂ where
  ne heq := by
    apply hplaced.notNull
    rw [← heq, hzero]
  inside₁ := by
    rw [hzero]
    exact inside_zero hsound hb
  inside₂ := hplaced.inside

end Entry

/-- **The destinations of two entries that name different symbols tell them apart unless one
of the symbols is common, or both are defined nowhere.** -/
theorem toldApart_iff {P : LoadedProgram} (hload : load formats fs binaryPaths = .ok P)
    (hrelocatable : ∀ elf ∈ elfFiles formats fs binaryPaths, Relocatable elf)
    {x₁ x₂ : RelaEntry} {r₁ r₂ : Relocation}
    (h₁ : (x₁, r₁) ∈ (relaEntries (elfFiles formats fs binaryPaths)).zip P.reloctab.relocs)
    (h₂ : (x₂, r₂) ∈ (relaEntries (elfFiles formats fs binaryPaths)).zip P.reloctab.relocs)
    {y₁ y₂ : ElfSymbol} (hy₁ : x₁.symbol? = some y₁) (hy₂ : x₂.symbol? = some y₂)
    (hne : meaning P x₁.binaryIdx y₁ ≠ meaning P x₂.binaryIdx y₂) :
    ToldApart P r₁ r₂ ↔
      ¬ Reserved y₁ ∧ ¬ Reserved y₂ ∧ ¬ (DefinedNowhere P y₁ ∧ DefinedNowhere P y₂) := by
  have hsound := load_sound hload hrelocatable
  obtain ⟨hbinaries, hregistered⟩ := load_registered hload
  obtain ⟨_, hzip⟩ := List.forall₂_iff_zip.mp hregistered
  have hmade : ∀ {x r}, (x, r) ∈ (relaEntries (elfFiles formats fs binaryPaths)).zip
      P.reloctab.relocs → Relocatable x.elf ∧ ∃ b, MadeOf P x b := by
    intro x r hxr
    have hx := (mem_relaEntries (List.of_mem_zip hxr).1).1
    obtain ⟨b, hb, hsections⟩ := forall₂_getElem? hbinaries hx
    exact ⟨hrelocatable _ (List.mem_of_getElem? hx), b, hb, hsections⟩
  obtain ⟨hrel₁, b₁, hb₁⟩ := hmade h₁
  obtain ⟨hrel₂, b₂, hb₂⟩ := hmade h₂
  constructor
  · intro h
    refine ⟨fun hr => ?_, fun hr => ?_, fun hn => h.ne ?_⟩
    · exact not_inside_of_reserved (hzip h₁) hy₁ hb₁ hrel₁ hr h.inside₁
    · exact not_inside_of_reserved (hzip h₂) hy₂ hb₂ hrel₂ hr h.inside₂
    · rw [destination_of_nowhere (hzip h₁) hy₁ hrel₁ hn.1,
        destination_of_nowhere (hzip h₂) hy₂ hrel₂ hn.2]
  · rintro ⟨hr₁, hr₂, hn⟩
    have hplace₁ := meaning_eq_place (hzip h₁) hy₁ hb₁ hrel₁ hsound hr₁
    have hplace₂ := meaning_eq_place (hzip h₂) hy₂ hb₂ hrel₂ hsound hr₂
    by_cases hn₁ : DefinedNowhere P y₁
    · obtain ⟨_, hplaced₂⟩ := hplace₂ fun hn₂ => hn ⟨hn₁, hn₂⟩
      exact toldApart_of_zero hsound hb₁ (destination_of_nowhere (hzip h₁) hy₁ hrel₁ hn₁) hplaced₂
    · obtain ⟨hmeaning₁, hplaced₁⟩ := hplace₁ hn₁
      by_cases hn₂ : DefinedNowhere P y₂
      · have hzero := destination_of_nowhere (hzip h₂) hy₂ hrel₂ hn₂
        exact (toldApart_of_zero hsound hb₂ hzero hplaced₁).symm
      · obtain ⟨hmeaning₂, hplaced₂⟩ := hplace₂ hn₂
        refine ⟨fun heq => hne ?_, hplaced₁.inside, hplaced₂.inside⟩
        rw [hmeaning₁, hmeaning₂, heq]

end Files

/-- An object file that calls `puts` and `exit`, which no file defines. -/
def callerElf : Elfio where
  type := ET_REL
  sections := [elfSection "" 0 0 0 0,
    {elfSection ".text" 1 0 0x34 8 with flags := SHF_ALLOC ||| SHF_EXECINSTR},
    {elfSection ".symtab" SHT_SYMTAB 0 0x40 32 with
      symbols := [⟨"puts", 0, 0, 1, 0, SHN_UNDEF⟩, ⟨"exit", 0, 0, 1, 0, SHN_UNDEF⟩]},
    {elfSection ".rela.text" SHT_RELA 0 0x60 24 with
      info := 1, link := 2, relocations := [⟨0, 0, 10, 0⟩, ⟨4, 1, 10, 0⟩]}]
  segments := []

theorem callerElf_relocatable : Relocatable callerElf where
  type := rfl
  segments := rfl
  count := by decide
  null := ⟨_, rfl, rfl⟩
  symbols := by decide

def callerFormats : Formats where
  elf _ := callerElf
  dol _ := .ok []
  rel _ := .ok ⟨0, [], [], 0, 0⟩

def callerProgram : LoadedProgram where
  loaderType := .elf
  binaries := [⟨⟨filename "main.o", .elf, callerElf.sections.map ElfSection.ofSection⟩,
    "main.o", []⟩]
  reloctab := RelocationTable.constructSourceIndex
    { relocs := [⟨⟨⟨1, 0⟩, 0⟩, ⟨⟨0, 0⟩, 0⟩, relocREL24, 0⟩,
        ⟨⟨⟨1, 4⟩, 0⟩, ⟨⟨0, 0⟩, 0⟩, relocREL24, 0⟩] }

theorem load_callerProgram :
    load callerFormats (fun _ => some []) ["main.o"] = .ok callerProgram := by rfl

def callEntry (entry : ElfRelocation) : RelaEntry := ⟨0, callerElf, callerElf.sections[3], entry⟩

/-- The calls of two functions that are defined nowhere have one destination. -/
theorem callerProgram_not_toldApart : ¬ ∀ formats fs binaryPaths (P : LoadedProgram) x₁ x₂ r₁ r₂
    y₁ y₂, load formats fs binaryPaths = .ok P →
    (∀ elf ∈ elfFiles formats fs binaryPaths, Relocatable elf) →
    (x₁, r₁) ∈ (relaEntries (elfFiles formats fs binaryPaths)).zip P.reloctab.relocs →
    (x₂, r₂) ∈ (relaEntries (elfFiles formats fs binaryPaths)).zip P.reloctab.relocs →
    x₁.symbol? = some y₁ → x₂.symbol? = some y₂ →
    meaning P x₁.binaryIdx y₁ ≠ meaning P x₂.binaryIdx y₂ → ToldApart P r₁ r₂ := by
  intro h
  have happart := h callerFormats _ ["main.o"] callerProgram (callEntry ⟨0, 0, 10, 0⟩)
    (callEntry ⟨4, 1, 10, 0⟩) _ _ ⟨"puts", 0, 0, 1, 0, SHN_UNDEF⟩ ⟨"exit", 0, 0, 1, 0, SHN_UNDEF⟩
    load_callerProgram (List.forall_mem_singleton.mpr callerElf_relocatable)
    (List.mem_cons_self ..) (List.mem_cons_of_mem _ (List.mem_cons_self ..)) rfl rfl (by decide)
  exact happart.ne rfl

theorem toldApart_iff_callerProgram :
    ToldApart callerProgram ⟨⟨⟨1, 0⟩, 0⟩, ⟨⟨0, 0⟩, 0⟩, relocREL24, 0⟩
        ⟨⟨⟨1, 4⟩, 0⟩, ⟨⟨0, 0⟩, 0⟩, relocREL24, 0⟩ ↔
      ¬ Reserved ⟨"puts", 0, 0, 1, 0, SHN_UNDEF⟩ ∧ ¬ Reserved ⟨"exit", 0, 0, 1, 0, SHN_UNDEF⟩ ∧
        ¬ (DefinedNowhere callerProgram ⟨"puts", 0, 0, 1, 0, SHN_UNDEF⟩ ∧
          DefinedNowhere callerProgram ⟨"exit", 0, 0, 1, 0, SHN_UNDEF⟩) :=
  have hmem₁ : (callEntry ⟨0, 0, 10, 0⟩, ⟨⟨⟨1, 0⟩, 0⟩, ⟨⟨0, 0⟩, 0⟩, relocREL24, 0⟩) ∈
      (relaEntries (elfFiles callerFormats (fun _ => some []) ["main.o"])).zip
        callerProgram.reloctab.relocs := List.mem_cons_self ..
  have hmem₂ : (callEntry ⟨4, 1, 10, 0⟩, ⟨⟨⟨1, 4⟩, 0⟩, ⟨⟨0, 0⟩, 0⟩, relocREL24, 0⟩) ∈
      (relaEntries (elfFiles callerFormats (fun _ => some []) ["main.o"])).zip
        callerProgram.reloctab.relocs := List.mem_cons_of_mem _ (List.mem_cons_self ..)
  toldApart_iff load_callerProgram (List.forall_mem_singleton.mpr callerElf_relocatable)
    hmem₁ hmem₂ rfl rfl (by decide)

end ElfProgramLoader

end Ppc2cpp
