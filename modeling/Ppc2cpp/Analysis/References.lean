import Ppc2cpp.Analysis.Layout

/-! What the comparison makes of references.

Two relocations to global symbols are compared by the names of the symbols, by type and by
addend. If one of the symbols is local the symbols are compared and nothing else, so
references to different places of a static table are taken for the same. The comparison is
exact where no symbol is local or type and addend are the same anyway
(`compareRelocations_exact`).

Data that is aligned is compared byte by byte, and data that is not is compared word by
word with its relocations; the comment in the code has it the other way round. What a
relocation fills in is not in the bytes, so equal bytes say nothing of the references, and
equal references nothing of the bytes. The comparison is exact where there is no relocation
in the data, and where the data differs in a word that no reference stands in
(`compareData_exact`). -/
namespace Ppc2cpp

namespace ProgramLoader

/-- The word at a location. -/
def wordAt (L : ProgramLoader) (l : ProgramLocation) : Option Word :=
  match L.getBufferAtLocation l with
  | .ok (some buffer) => some (be32 buffer 0)
  | _ => none

variable {L : ProgramLoader} {sym : Symbol}

/-- An offset into a symbol is an offset into its section. -/
theorem Encloses.getBufferAtLocation_add (h : L.Encloses sym) {buffer : Buffer}
    (hbuffer : L.getBufferAtLocation sym.location = .ok (some buffer)) {k : Nat}
    (hk : k < sym.size.toNat) :
    L.getBufferAtLocation (sym.location.add k) = .ok (some (buffer.drop k)) := by
  obtain ⟨s, hsection, hle⟩ := h
  have hadd : L.section? (sym.location.add k) = .ok s := hsection
  have hlength := s.length.isLt
  have hoffset : (sym.location.add k).sectionOffset.toNat =
      sym.location.sectionOffset.toNat + k := ProgramLocation.add_sectionOffset_toNat (by omega)
  have hinside : (sym.location.add k).sectionOffset.ult s.length = true := by
    rw [BitVec.ult, decide_eq_true_eq, hoffset]
    omega
  rw [getBufferAtLocation_eq hsection, BinarySection.getBufferAtOffset] at hbuffer
  split at hbuffer
  · cases hbuffer
    rw [getBufferAtLocation_eq hadd, BinarySection.getBufferAtOffset, if_pos hinside, hoffset,
      List.drop_drop]
  · cases hbuffer

theorem Encloses.wordAt_add (h : L.Encloses sym) {buffer : Buffer}
    (hbuffer : L.getBufferAtLocation sym.location = .ok (some buffer)) {k : Nat}
    (hk : 4 * k < sym.size.toNat) : L.wordAt (sym.location.add (4 * k)) = some (be32 buffer k) := by
  have hadd := h.getBufferAtLocation_add hbuffer hk
  rw [Nat.cast_mul, Nat.cast_ofNat] at hadd
  rw [wordAt, hadd]
  exact congrArg some (be32_drop buffer k)

end ProgramLoader

namespace ProgramComparator
variable (C : ProgramComparator)

def RelocationsEqual (reloc1 reloc2 : Relocation) : Prop :=
  ∃ fuel, C.compareRelocations fuel reloc1 reloc2 = .ok true

def SymbolsEqual (sourceSym targetSym : Symbol) : Prop :=
  ∃ fuel, C.compareSymbols fuel sourceSym targetSym = .ok true

/-! ### References -/

/-- Two references with one meaning, to these two symbols. -/
structure Exact (reloc1 reloc2 : Relocation) (relocSym1 relocSym2 : Symbol) : Prop where
  type : reloc1.type = reloc2.type
  addend : reloc1.addend = reloc2.addend
  symbol : (relocSym1.symbolBinding ≠ .LOCAL ∧ relocSym2.symbolBinding ≠ .LOCAL ∧
      relocSym1.name = relocSym2.name) ∨
    ((relocSym1.symbolBinding = .LOCAL ∨ relocSym2.symbolBinding = .LOCAL) ∧
      C.SymbolsEqual relocSym1 relocSym2)

section
variable {C} {reloc1 reloc2 : Relocation} {relocSym1 relocSym2 : Symbol}
  (h1 : C.pLoader1.symtab.lookupByLocation reloc1.destination = some relocSym1)
  (h2 : C.pLoader2.symtab.lookupByLocation reloc2.destination = some relocSym2)
include h1 h2

/-- One step of the comparison of two relocations. -/
theorem compareRelocations_succ (fuel : Nat) :
    C.compareRelocations (fuel + 1) reloc1 reloc2 =
      if relocSym1.symbolBinding = .LOCAL ∨ relocSym2.symbolBinding = .LOCAL then
        C.compareSymbols fuel relocSym1 relocSym2
      else
        .ok (relocSym1.name == relocSym2.name && reloc1.type == reloc2.type &&
          reloc1.addend == reloc2.addend) := by
  rw [compareRelocations, h1, h2]
  rfl

/-- With a local symbol the symbols decide. -/
theorem relocationsEqual_local
    (hlocal : relocSym1.symbolBinding = .LOCAL ∨ relocSym2.symbolBinding = .LOCAL) :
    C.RelocationsEqual reloc1 reloc2 ↔ C.SymbolsEqual relocSym1 relocSym2 := by
  constructor
  · intro hequal
    obtain ⟨fuel, hfuel⟩ := hequal
    cases fuel with
    | zero => cases hfuel
    | succ fuel =>
      rw [compareRelocations_succ h1 h2, if_pos hlocal] at hfuel
      exact ⟨fuel, hfuel⟩
  · intro hequal
    obtain ⟨fuel, hfuel⟩ := hequal
    exact ⟨fuel + 1, by rw [compareRelocations_succ h1 h2, if_pos hlocal, hfuel]⟩

/-- Without one, name, type and addend. -/
theorem relocationsEqual_global
    (hlocal : ¬ (relocSym1.symbolBinding = .LOCAL ∨ relocSym2.symbolBinding = .LOCAL)) :
    C.RelocationsEqual reloc1 reloc2 ↔ relocSym1.name = relocSym2.name ∧
      reloc1.type = reloc2.type ∧ reloc1.addend = reloc2.addend := by
  have hdecided : ∀ fuel, C.compareRelocations (fuel + 1) reloc1 reloc2 = .ok true ↔
      relocSym1.name = relocSym2.name ∧ reloc1.type = reloc2.type ∧
        reloc1.addend = reloc2.addend := by
    intro fuel
    rw [compareRelocations_succ h1 h2, if_neg hlocal]
    simp [and_assoc]
  constructor
  · intro hequal
    obtain ⟨fuel, hfuel⟩ := hequal
    cases fuel with
    | zero => cases hfuel
    | succ fuel => exact (hdecided fuel).mp hfuel
  · intro hsame
    exact ⟨1, (hdecided 0).mpr hsame⟩

/-- **A comparison that succeeds is exact** if neither symbol is local, or if type and addend
are the same. -/
theorem compareRelocations_exact
    (hplain : (relocSym1.symbolBinding ≠ .LOCAL ∧ relocSym2.symbolBinding ≠ .LOCAL) ∨
      (reloc1.type = reloc2.type ∧ reloc1.addend = reloc2.addend))
    (hequal : C.RelocationsEqual reloc1 reloc2) : C.Exact reloc1 reloc2 relocSym1 relocSym2 := by
  by_cases hlocal : relocSym1.symbolBinding = .LOCAL ∨ relocSym2.symbolBinding = .LOCAL
  · have hsymbols := (relocationsEqual_local h1 h2 hlocal).mp hequal
    rcases hplain with ⟨hglobal1, hglobal2⟩ | ⟨htype, haddend⟩
    · exact absurd hlocal (not_or.mpr ⟨hglobal1, hglobal2⟩)
    · exact ⟨htype, haddend, .inr ⟨hlocal, hsymbols⟩⟩
  · obtain ⟨hname, htype, haddend⟩ := (relocationsEqual_global h1 h2 hlocal).mp hequal
    obtain ⟨hglobal1, hglobal2⟩ := not_or.mp hlocal
    exact ⟨htype, haddend, .inl ⟨hglobal1, hglobal2, hname⟩⟩

/-- What the other references miss: local symbols that compare equal, referred to by
different types or with different addends, are taken for the same. -/
theorem not_exact_of_local
    (hlocal : relocSym1.symbolBinding = .LOCAL ∨ relocSym2.symbolBinding = .LOCAL)
    (hdiffer : ¬ (reloc1.type = reloc2.type ∧ reloc1.addend = reloc2.addend))
    (hsymbols : C.SymbolsEqual relocSym1 relocSym2) :
    C.RelocationsEqual reloc1 reloc2 ∧ ¬ C.Exact reloc1 reloc2 relocSym1 relocSym2 :=
  ⟨(relocationsEqual_local h1 h2 hlocal).mpr hsymbols,
    fun hexact => hdiffer ⟨hexact.type, hexact.addend⟩⟩

end

end ProgramComparator

/-- A program of one section of data. -/
def dataProgram (words : List Word) (symbols : List Symbol) (relocs : List Relocation) :
    ProgramLoader :=
  {assembled words (SymbolTable.reindexed {symbols := symbols})
      (RelocationTable.constructSourceIndex {relocs := relocs}) with
    binaries := [⟨"", .elf, [{textSection words with name := ".data", type := .DATA}]⟩]}

def tableSymbol : Symbol := ⟨"table", ⟨⟨0, 0⟩, 0⟩, 8, .DATA, .LOCAL⟩

def pointerTo (addend : Int) : Relocation := ⟨⟨⟨0, 8⟩, 0⟩, ⟨⟨0, 0⟩, 0⟩, 1, addend⟩

/-- `static int table[2] = {1, 2};` and a pointer into it. -/
def pointerInto (addend : Int) : ProgramLoader :=
  dataProgram [1, 2, 0] [tableSymbol, ⟨"entry", ⟨⟨0, 8⟩, 0⟩, 4, .DATA, .GLOBAL⟩]
    [pointerTo addend]

namespace ProgramComparator

/-- `entry = &table[0]` and `entry = &table[1]`. -/
def entries : ProgramComparator := ⟨Excerpt.ppcdisasm, pointerInto 0, pointerInto 4⟩

/-- Two references to the second entry. -/
theorem compareRelocations_exact_entries :
    (⟨Excerpt.ppcdisasm, pointerInto 4, pointerInto 4⟩ : ProgramComparator).Exact (pointerTo 4)
      (pointerTo 4) tableSymbol tableSymbol :=
  compareRelocations_exact rfl rfl (.inr ⟨rfl, rfl⟩) ⟨1, rfl⟩

/-- The table is compared with itself, and the addends are not compared. -/
theorem entries_inexact : ¬ ∀ (C : ProgramComparator) (reloc1 reloc2 : Relocation)
    (relocSym1 relocSym2 : Symbol),
    reloc1 ∈ C.pLoader1.reloctab.relocs → reloc2 ∈ C.pLoader2.reloctab.relocs →
    C.pLoader1.symtab.lookupByLocation reloc1.destination = some relocSym1 →
    C.pLoader2.symtab.lookupByLocation reloc2.destination = some relocSym2 →
    C.RelocationsEqual reloc1 reloc2 → C.Exact reloc1 reloc2 relocSym1 relocSym2 := by
  intro hall
  have hequal : entries.RelocationsEqual (pointerTo 0) (pointerTo 4) := ⟨1, rfl⟩
  exact (not_exact_of_local rfl rfl (.inl rfl) (by decide) ⟨0, rfl⟩).2
    (hall entries (pointerTo 0) (pointerTo 4) tableSymbol tableSymbol (List.mem_singleton_self _)
      (List.mem_singleton_self _) rfl rfl hequal)

/-! ### Data -/

variable (C : ProgramComparator)

/-- One of the programs has a relocation there. -/
def Relocated (l : ProgramLocation) : Prop :=
  C.pLoader1.reloctab.lookupBySource l ≠ none ∨ C.pLoader2.reloctab.lookupBySource l ≠ none

/-- Both programs have the same word there. -/
def SameWord (l : ProgramLocation) : Prop := C.pLoader1.wordAt l = C.pLoader2.wordAt l

/-- The words are the same and without relocations, or have relocations that compare equal. -/
def WordAgrees (l : ProgramLocation) : Prop :=
  match C.pLoader1.reloctab.lookupBySource l, C.pLoader2.reloctab.lookupBySource l with
  | none, none => C.SameWord l
  | some reloc1, some reloc2 => C.RelocationsEqual reloc1 reloc2
  | _, _ => False

/-- `memcmp` can be called: the symbol starts inside its section, and its size is not
negative as an `int`. -/
structure Comparable (sym : Symbol) : Prop where
  size : 0 ≤ sym.size.toInt
  buffers : ∃ buf1 buf2, C.Buffers sym.location sym.location buf1 buf2

/-- Something holds of every word of a symbol. -/
def EveryWord (sym : Symbol) (P : ProgramLocation → Prop) : Prop :=
  ∀ k : Nat, 4 * k < sym.size.toNat → P (sym.location.add (4 * k))

/-- Words that no comparison of relocations makes up for: they differ and neither program has
a relocation there, or one has and the other has not. -/
def Mismatch (l : ProgramLocation) : Prop :=
  match C.pLoader1.reloctab.lookupBySource l, C.pLoader2.reloctab.lookupBySource l with
  | none, none => ¬ C.SameWord l
  | some _, some _ => False
  | _, _ => True

/-- The bytes settle the comparison: nothing in the symbol is relocated, or the bytes differ
and some words do, whatever the relocations are. -/
def BytesSettle (sym : Symbol) : Prop :=
  (C.Comparable sym ∧ EveryWord sym fun l => ¬ C.Relocated l) ∨
    (¬ EveryWord sym C.SameWord ∧ ¬ EveryWord sym fun l => ¬ C.Mismatch l)

variable {C}

/-- Without relocations it is the words that are compared. -/
theorem wordAgrees_of_not_relocated {l : ProgramLocation} (h : ¬ C.Relocated l) :
    C.WordAgrees l ↔ C.SameWord l := by
  obtain ⟨h1, h2⟩ := not_or.mp h
  rw [WordAgrees, not_not.mp h1, not_not.mp h2]

theorem not_mismatch_of_wordAgrees {l : ProgramLocation} (h : C.WordAgrees l) : ¬ C.Mismatch l := by
  unfold WordAgrees at h
  unfold Mismatch
  split at h
  · exact not_not_intro h
  · exact not_false
  · exact h.elim

/-- What `memcmp` compares, word by word. -/
theorem bytesAgree_iff {sym : Symbol} (h1 : C.pLoader1.Encloses sym)
    (h2 : C.pLoader2.Encloses sym) (hsize : sym.size % 4 = 0) :
    C.BytesAgree sym.location sym.location sym.size ↔
      C.Comparable sym ∧ EveryWord sym C.SameWord := by
  have hwhole : sym.size.toNat % 4 = 0 := by
    have := congrArg BitVec.toNat hsize
    simpa using this
  have hwords {buf1 buf2 : Buffer} (hbufs : C.Buffers sym.location sym.location buf1 buf2) :
      (∀ i < sym.size.toNat, buf1.getD i 0 = buf2.getD i 0) ↔ EveryWord sym C.SameWord := by
    constructor
    · intro hbytes k hk
      rw [SameWord, h1.wordAt_add hbufs.1 hk, h2.wordAt_add hbufs.2 hk, Option.some_inj,
        be32_eq_iff]
      exact fun j hj => hbytes _ (by omega)
    · intro hsame i hi
      have hword := hsame (i / 4) (by omega)
      rw [SameWord, h1.wordAt_add hbufs.1 (by omega), h2.wordAt_add hbufs.2 (by omega),
        Option.some_inj, be32_eq_iff] at hword
      have hbyte := hword (i % 4) (Nat.mod_lt i (by decide))
      rwa [Nat.div_add_mod] at hbyte
  constructor
  · intro hagree
    obtain ⟨hnonneg, buf1, buf2, hbufs, hbytes⟩ := hagree
    exact ⟨⟨hnonneg, buf1, buf2, hbufs⟩, (hwords hbufs).mp hbytes⟩
  · intro hsame
    obtain ⟨⟨hnonneg, buf1, buf2, hbufs⟩, hsame⟩ := hsame
    exact ⟨hnonneg, buf1, buf2, hbufs, (hwords hbufs).mpr hsame⟩

/-- Aligned data is compared without a look at its relocations. -/
theorem exists_compareData_iff {sourceSym targetSym : Symbol}
    (hlocation : sourceSym.location = targetSym.location) (hsize : sourceSym.size = targetSym.size)
    (haligned : sourceSym.location.sectionOffset % 4 = 0 ∧ sourceSym.size % 4 = 0) :
    (∃ fuel, C.compareData (C.compareRelocations fuel) sourceSym targetSym = .ok true) ↔
      C.BytesAgree sourceSym.location sourceSym.location sourceSym.size := by
  have hfun (fuel : Nat) : C.compareRelocations fuel =
      fun reloc1 reloc2 => Checklist.answer .outOfFuel C.questions fuel (reloc1, reloc2) := by
    funext reloc1 reloc2
    exact C.compareRelocations_eq fuel reloc1 reloc2
  simp only [hfun, C.compareData_eq]
  rw [Checklist.exists_runAll_yes_iff,
    dataChecks_hold_iff hsize haligned (by rwa [← hlocation, ← hsize]), ← hlocation]

/-- **Aligned data compares as equal just when its words and references do**, where the bytes
settle it. -/
theorem compareData_exact {sourceSym targetSym : Symbol}
    (hlocation : sourceSym.location = targetSym.location) (hsize : sourceSym.size = targetSym.size)
    (haligned : sourceSym.location.sectionOffset % 4 = 0 ∧ sourceSym.size % 4 = 0)
    (h1 : C.pLoader1.Encloses sourceSym) (h2 : C.pLoader2.Encloses targetSym)
    (hsettle : C.BytesSettle sourceSym) :
    (∃ fuel, C.compareData (C.compareRelocations fuel) sourceSym targetSym = .ok true) ↔
      EveryWord sourceSym C.WordAgrees := by
  have h2' : C.pLoader2.Encloses sourceSym := by
    rw [ProgramLoader.Encloses, hlocation, hsize]
    exact h2
  rw [exists_compareData_iff hlocation hsize haligned, bytesAgree_iff h1 h2' haligned.2]
  rcases hsettle with ⟨hcomparable, hplain⟩ | ⟨hdiffer, hmismatch⟩
  · rw [and_iff_right hcomparable]
    exact forall₂_congr fun k hk => (wordAgrees_of_not_relocated (hplain k hk)).symm
  · refine iff_of_false (fun h => hdiffer h.2) fun h => hmismatch fun k hk => ?_
    exact not_mismatch_of_wordAgrees (h k hk)

/-- The tables, which nothing is relocated in. -/
theorem compareData_exact_entries : EveryWord tableSymbol entries.WordAgrees := by
  have hplain : EveryWord tableSymbol fun l => ¬ entries.Relocated l := by
    intro k hk
    have hlt : 4 * k < 8 := hk
    obtain rfl | rfl : k = 0 ∨ k = 1 := by omega
    · exact not_or.mpr ⟨by decide, by decide⟩
    · exact not_or.mpr ⟨by decide, by decide⟩
  have hsettle : entries.BytesSettle tableSymbol :=
    .inl ⟨⟨by decide, _, _, rfl, rfl⟩, hplain⟩
  exact (compareData_exact rfl rfl (by decide) (by decide) (by decide) hsettle).mp ⟨0, rfl⟩

end ProgramComparator

def pointerSymbol : Symbol := ⟨"pointer", ⟨⟨0, 0⟩, 0⟩, 4, .DATA, .GLOBAL⟩

/-- A pointer before the two objects it may point to. -/
def pointsAt (destination : BitVec 32) : ProgramLoader :=
  dataProgram [0, 1, 2] [pointerSymbol, ⟨"first", ⟨⟨0, 4⟩, 0⟩, 4, .DATA, .GLOBAL⟩,
      ⟨"second", ⟨⟨0, 8⟩, 0⟩, 4, .DATA, .GLOBAL⟩]
    [⟨⟨⟨0, 0⟩, 0⟩, ⟨⟨0, destination⟩, 0⟩, 1, 0⟩]

namespace ProgramComparator

/-- `pointer = &first` and `pointer = &second`. -/
def pointers : ProgramComparator := ⟨Excerpt.ppcdisasm, pointsAt 4, pointsAt 8⟩

/-- The pointers are zero in both files, and the relocations are not compared. -/
theorem pointers_confused : ¬ ∀ (C : ProgramComparator) (sourceSym targetSym : Symbol),
    sectionType C.pLoader1 sourceSym.location = .ok .DATA →
    sectionType C.pLoader2 targetSym.location = .ok .DATA →
    sourceSym.location = targetSym.location → sourceSym.size = targetSym.size →
    sourceSym.location.sectionOffset % 4 = 0 ∧ sourceSym.size % 4 = 0 →
    (∀ reloc ∈ C.pLoader1.reloctab.relocs, reloc.source.sectionOffset % 4 = 0) →
    (∀ reloc ∈ C.pLoader2.reloctab.relocs, reloc.source.sectionOffset % 4 = 0) →
    C.pLoader1.Encloses sourceSym → C.pLoader2.Encloses targetSym →
    ((∃ fuel, C.compareData (C.compareRelocations fuel) sourceSym targetSym = .ok true) ↔
      EveryWord sourceSym C.WordAgrees) := by
  intro hall
  have hiff := hall pointers pointerSymbol pointerSymbol rfl rfl rfl rfl (by decide) (by decide)
    (by decide) (by decide) (by decide)
  have hagree : pointers.RelocationsEqual _ _ := hiff.mp ⟨0, rfl⟩ 0 (by decide)
  have hname := ((relocationsEqual_global rfl rfl (by decide)).mp hagree).1
  exact absurd hname (by decide)

end ProgramComparator

end Ppc2cpp
