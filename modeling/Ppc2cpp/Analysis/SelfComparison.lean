import Ppc2cpp.Analysis.Layout

/-! A program compared with itself.

Both sides look up the same names and the same locations, so every check is of a symbol
with itself, and what is left of the comparison is a walk: from each symbol that is not
local to the local symbols its relocations refer to, and from those on. `compareData`
reads the bytes at a symbol before it knows whether there are any to compare, and
`compareFunctions` does not. `comparesToItself_iff`: a program compares equal to itself
exactly when the walk comes to no cycle and to no data symbol whose bytes cannot be read. -/
namespace Ppc2cpp

/-- The locations of the words of a symbol: `off` from 0 to the size in steps of 4. -/
def Symbol.wordLocations (s : Symbol) : List ProgramLocation :=
  (List.range ((s.size.toInt + 3) / 4).toNat).map fun (i : Nat) => s.location.add (4 * (i : Int))

namespace ProgramLoader
variable (L : ProgramLoader)

/-- The relocations the comparison of a symbol finds: those of its instructions, or of its
words where data is compared by words. -/
def foundRelocations (s : Symbol) : List Relocation :=
  match ProgramComparator.sectionType L s.location with
  | .ok .TEXT => s.wordLocations.filterMap L.reloctab.lookupByInsnLoc
  | .ok .DATA =>
    if s.location.sectionOffset % 4 = 0 then []
    else s.wordLocations.filterMap L.reloctab.lookupBySource
  | _ => []

/-- A symbol refers to a local one. -/
def LocalReference (s s' : Symbol) : Prop :=
  ∃ r ∈ L.foundRelocations s, L.symtab.lookupByLocation r.destination = some s' ∧
    s'.symbolBinding = .LOCAL

/-- A symbol the comparison comes to. -/
def Visited (s : Symbol) : Prop :=
  ∃ start ∈ L.symtab.symbols, start.symbolBinding ≠ .LOCAL ∧
    Relation.ReflTransGen L.LocalReference start s

/-- Data starts before its section ends, and where it is compared as a whole its size is
no negative `int`. -/
def Readable (s : Symbol) : Prop :=
  ProgramComparator.sectionType L s.location = .ok .DATA →
    (∃ t, L.section? s.location = .ok t ∧ s.location.sectionOffset.toNat < t.length.toNat) ∧
    (s.location.sectionOffset % 4 = 0 → 0 ≤ s.size.toInt)

/-- Symbols that are not local have names of their own and are indexed by them, and
symbols are of whole words. -/
structure WellNamed extends L.WellReferenced where
  symtab : L.symtab.constructNameIndex = L.symtab
  names : ((L.symtab.symbols.filter fun s => s.symbolBinding ≠ .LOCAL).map Symbol.name).Nodup
  sizes : ∀ s ∈ L.symtab.symbols, s.size % 4 = 0

variable {L}

/-! ### What the walk stays in -/

theorem mem_of_foundRelocations {s : Symbol} {r : Relocation} (h : r ∈ L.foundRelocations s) :
    r ∈ L.reloctab.relocs := by
  unfold foundRelocations at h
  split at h
  · obtain ⟨l, _, hl⟩ := List.mem_filterMap.mp h
    exact RelocationTable.mem_of_lookupByInsnLoc hl
  · split at h
    · cases h
    · obtain ⟨l, _, hl⟩ := List.mem_filterMap.mp h
      exact RelocationTable.mem_of_lookupBySource hl
  · cases h

theorem LocalReference.mem {s s' : Symbol} (h : L.LocalReference s s') : s' ∈ L.symtab.symbols := by
  obtain ⟨r, _, hsym, _⟩ := h
  exact SymbolTable.mem_of_lookupByLocation hsym

theorem mem_of_reflTransGen {start s : Symbol} (hstart : start ∈ L.symtab.symbols)
    (h : Relation.ReflTransGen L.LocalReference start s) : s ∈ L.symtab.symbols := by
  induction h with
  | refl => exact hstart
  | tail _ hstep _ => exact hstep.mem

theorem finite_reflTransGen {start : Symbol} (hstart : start ∈ L.symtab.symbols) :
    {s | Relation.ReflTransGen L.LocalReference start s}.Finite :=
  (List.finite_toSet L.symtab.symbols).subset fun _ hs => mem_of_reflTransGen hstart hs

/-! ### The bytes of a symbol -/

theorem exists_buffer_iff {l : ProgramLocation} {t : BinarySection} (h : L.section? l = .ok t) :
    (∃ buf, L.getBufferAtLocation l = .ok (some buf)) ↔
      l.sectionOffset.toNat < t.length.toNat := by
  rw [getBufferAtLocation_eq h, BinarySection.getBufferAtOffset]
  simp only [BitVec.ult, decide_eq_true_eq]
  by_cases hlt : l.sectionOffset.toNat < t.length.toNat <;> simp [hlt]

/-- Inside its section a symbol has bytes at each of its words. -/
theorem exists_buffer_of_mem_wordLocations {s : Symbol} (hs : L.Encloses s) {l : ProgramLocation}
    (hl : l ∈ s.wordLocations) : ∃ buf, L.getBufferAtLocation l = .ok (some buf) := by
  obtain ⟨t, ht, hle⟩ := hs
  obtain ⟨i, hi, rfl⟩ := List.mem_map.mp hl
  have hword : 4 * (i : Int) < s.size.toInt := by
    have := List.mem_range.mp hi
    omega
  have hsize : s.size.toInt ≤ s.size.toNat := by
    rw [BitVec.toInt_eq_toNat_cond]
    split <;> omega
  have ht' : L.section? (s.location.add (4 * (i : Int))) = .ok t := ht
  rw [exists_buffer_iff ht']
  have hbound := t.length.isLt
  have hoffset := ProgramLocation.add_sectionOffset_toNat (l := s.location) (n := 4 * i) (by omega)
  rw [Nat.cast_mul, Nat.cast_ofNat] at hoffset
  omega

end ProgramLoader

namespace ProgramComparator
open ProgramCheck

/-- A program and a second load of it. -/
abbrev twice (D : Ppcdisasm) (L : ProgramLoader) : ProgramComparator := ⟨D, L, L⟩

variable {D : Ppcdisasm} {L : ProgramLoader} {P : RelocationPair → Prop}

/-! ### The checks of a symbol with itself -/

/-- The buffers at one location of both loads are the same. -/
theorem buffersAt_twice {s : Symbol} {l : ProgramLocation} {buf : Buffer}
    (h : L.getBufferAtLocation l = .ok (some buf)) :
    (twice D L).buffersAt s s l l = .ok (buf, buf) :=
  (buffersAt_eq_ok _).mpr ⟨h, h⟩

section Words
variable {lookup : RelocationTable → ProgramLocation → Option Relocation}
  {masked : Relocation → Word → Word → Bool} (hmasked : ∀ r w, masked r w w = true) {s : Symbol}
include hmasked

/-- A word agrees with itself when the relocation found there does. -/
theorem wordCheck_twice_passes_iff {i : Int} {buf : Buffer}
    (hbuf : L.getBufferAtLocation (s.location.add (4 * i)) = .ok (some buf)) :
    ((twice D L).wordCheck lookup masked s s i).Passes P ↔
      ∀ r, lookup L.reloctab (s.location.add (4 * i)) = some r → P (r, r) := by
  have hbufs := buffersAt_twice (D := D) (s := s) hbuf
  rw [wordCheck]
  dsimp only
  rw [hbufs]
  cases lookup L.reloctab (s.location.add (4 * i)) with
  | none => simp [Checklist.Check.Passes]
  | some r => simp [Checklist.Check.Passes, hmasked]

theorem wordChecks_twice_pass_iff (hs : L.Encloses s) :
    (∀ c ∈ (twice D L).wordChecks lookup masked s s, c.Passes P) ↔
      ∀ r ∈ s.wordLocations.filterMap (lookup L.reloctab), P (r, r) := by
  have hword : ∀ i ∈ List.range ((s.size.toInt + 3) / 4).toNat,
      (((twice D L).wordCheck lookup masked s s i).Passes P ↔
        ∀ r, lookup L.reloctab (s.location.add (4 * (i : Int))) = some r → P (r, r)) := by
    intro i hi
    have hl : s.location.add (4 * (i : Int)) ∈ s.wordLocations :=
      List.mem_map.mpr ⟨i, hi, rfl⟩
    obtain ⟨buf, hbuf⟩ := ProgramLoader.exists_buffer_of_mem_wordLocations hs hl
    exact wordCheck_twice_passes_iff hmasked hbuf
  rw [wordChecks, compareSize_eq rfl, List.forall_mem_map]
  simp only [List.mem_filterMap, Symbol.wordLocations, List.mem_map]
  constructor
  · rintro h r ⟨_, ⟨i, hi, rfl⟩, hr⟩
    exact (hword i hi).mp (h i hi) r hr
  · intro h i hi
    exact (hword i hi).mpr fun r hr => h r ⟨_, ⟨i, hi, rfl⟩, hr⟩

end Words

theorem maskedEqual_self (r : Relocation) (w : Word) : maskedEqual r w w = true :=
  beq_self_eq_true _

/-- A function agrees with itself when the relocations of its instructions do. -/
theorem functionChecks_twice_pass_iff {s : Symbol} (hs : L.Encloses s) :
    (∀ c ∈ listOf ((twice D L).functionChecks s s), c.Passes P) ↔
      ∀ r ∈ s.wordLocations.filterMap L.reloctab.lookupByInsnLoc, P (r, r) := by
  have hchecks : (twice D L).functionChecks s s =
      .ok ((twice D L).wordChecks RelocationTable.lookupByInsnLoc maskedEqual s s) := by
    rw [functionChecks, if_neg (by simp)]
    rfl
  rw [hchecks]
  exact wordChecks_twice_pass_iff maskedEqual_self hs

/-- Data agrees with itself when it has a first byte, and then as a whole, if its size is
no negative `int`, or word by word. -/
theorem dataChecks_twice_pass_iff {s : Symbol} (hs : L.Encloses s) (hsize : s.size % 4 = 0) :
    (∀ c ∈ listOf ((twice D L).dataChecks s s), c.Passes P) ↔
      (∃ buf, L.getBufferAtLocation s.location = .ok (some buf)) ∧
        if s.location.sectionOffset % 4 = 0 then 0 ≤ s.size.toInt
        else ∀ r ∈ s.wordLocations.filterMap L.reloctab.lookupBySource, P (r, r) := by
  by_cases hbuf : ∃ buf, L.getBufferAtLocation s.location = .ok (some buf)
  · obtain ⟨buf, hbuf⟩ := hbuf
    simp only [hbuf, Except.ok.injEq, Option.some.injEq, exists_eq', true_and]
    rw [dataChecks, buffersAt_twice hbuf]
    simp only [bind, Except.bind, compareSize_eq, hsize]
    by_cases haligned : s.location.sectionOffset % 4 = 0
    · rw [if_neg (by tauto), if_pos haligned]
      by_cases hneg : s.size.toInt < 0
      · rw [if_pos hneg]
        exact iff_of_false (fun h => by cases h _ (List.mem_singleton_self _)) (not_le.mpr hneg)
      · rw [if_neg hneg]
        refine iff_of_true ?_ (not_lt.mp hneg)
        intro c hc
        rw [List.mem_singleton.mp hc]
        simp [Checklist.Check.Passes]
    · rw [if_pos (.inl haligned), if_neg haligned]
      exact wordChecks_twice_pass_iff (fun _ _ => rfl) hs
  · refine iff_of_false ?_ fun h => hbuf h.1
    intro h
    obtain ⟨checks, hchecks, _⟩ := forall_listOf_passes.mp h
    obtain ⟨⟨buf1, buf2⟩, hbufs, _⟩ := bind_eq_ok.mp hchecks
    exact hbuf ⟨buf1, ((buffersAt_eq_ok _).mp hbufs).1⟩

/-- **What one symbol comes to**: its bytes can be read, and the relocations found in it
agree with themselves. -/
theorem symbolChecks_twice_pass_iff (h : L.WellNamed) {s : Symbol} (hs : s ∈ L.symtab.symbols) :
    (∀ c ∈ listOf ((twice D L).symbolChecks s s), c.Passes P) ↔
      L.Readable s ∧ ∀ r ∈ L.foundRelocations s, P (r, r) := by
  have henclosed := h.enclosed s hs
  obtain ⟨t, ht, _⟩ := henclosed
  have htype := ProgramLoader.sectionType_of_section? ht
  rw [symbolChecks, ProgramLoader.Readable, ProgramLoader.foundRelocations, htype]
  cases t.type with
  | TEXT =>
    refine (functionChecks_twice_pass_iff (h.enclosed s hs)).trans ?_
    simp
  | DATA =>
    refine (dataChecks_twice_pass_iff (h.enclosed s hs) (h.sizes s hs)).trans ?_
    rw [ProgramLoader.exists_buffer_iff ht]
    simp only [ht, Except.ok.injEq, exists_eq_left', forall_const]
    by_cases haligned : s.location.sectionOffset % 4 = 0
    · rw [if_pos haligned, if_pos haligned]
      simp only [haligned, true_implies, List.not_mem_nil, false_implies, implies_true, and_true]
    · rw [if_neg haligned, if_neg haligned]
      simp only [haligned, false_implies, and_true]
  | NOLOAD => exact iff_of_true (fun c hc => absurd hc List.not_mem_nil) (by simp)
  | BSS => exact iff_of_true (fun c hc => absurd hc List.not_mem_nil) (by simp)

/-- A relocation agrees with itself when the local symbol it refers to, if it is one, does. -/
theorem questions_twice_pass_iff (h : L.WellNamed) {r : Relocation} (hr : r ∈ L.reloctab.relocs) :
    (∀ c ∈ (twice D L).questions (r, r), c.Passes P) ↔
      ∀ s, L.symtab.lookupByLocation r.destination = some s → s.symbolBinding = .LOCAL →
        ∀ c ∈ listOf ((twice D L).symbolChecks s s), c.Passes P := by
  obtain ⟨s, hs⟩ := Option.isSome_iff_exists.mp (h.named r hr)
  have hchecks : (twice D L).relocationChecks (r, r) =
      if s.symbolBinding = .LOCAL ∨ s.symbolBinding = .LOCAL then (twice D L).symbolChecks s s
      else .ok [.settled (.ok (s.name == s.name && r.type == r.type && r.addend == r.addend))] := by
    simp only [relocationChecks, hs, assertSome, bind, Except.bind]
    rfl
  rw [questions, hchecks]
  simp only [hs, Option.some.injEq, forall_eq', or_self]
  by_cases hlocal : s.symbolBinding = .LOCAL
  · rw [if_pos hlocal]
    simp [hlocal]
  · rw [if_neg hlocal]
    simp [hlocal, listOf, Checklist.Check.Passes]

/-! ### The walk -/

/-- Every check of a symbol with itself holds. -/
def SymbolHolds (D : Ppcdisasm) (L : ProgramLoader) (s : Symbol) : Prop :=
  ∀ c ∈ listOf ((twice D L).symbolChecks s s), c.Passes (Checklist.Holds (twice D L).questions)

theorem holds_twice_iff (h : L.WellNamed) {r : Relocation} (hr : r ∈ L.reloctab.relocs) :
    Checklist.Holds (twice D L).questions (r, r) ↔
      ∀ s, L.symtab.lookupByLocation r.destination = some s → s.symbolBinding = .LOCAL →
        SymbolHolds D L s := by
  rw [Checklist.holds_iff]
  simp only [Checklist.Check.holds_iff_passes]
  exact questions_twice_pass_iff h hr

/-- One step of the walk. -/
theorem symbolHolds_iff (h : L.WellNamed) {s : Symbol} (hs : s ∈ L.symtab.symbols) :
    SymbolHolds D L s ↔ L.Readable s ∧ ∀ s', L.LocalReference s s' → SymbolHolds D L s' := by
  rw [SymbolHolds, symbolChecks_twice_pass_iff h hs]
  refine and_congr_right fun _ => ?_
  constructor
  · rintro hall s' ⟨r, hr, hsym, hlocal⟩
    exact (holds_twice_iff h (ProgramLoader.mem_of_foundRelocations hr)).mp (hall r hr) s' hsym
      hlocal
  · intro hall r hr
    exact (holds_twice_iff h (ProgramLoader.mem_of_foundRelocations hr)).mpr
      fun s' hsym hlocal => hall s' ⟨r, hr, hsym, hlocal⟩

/-- Where the checks of a symbol with itself hold the walk descends. -/
theorem acc_of_symbolHolds (h : L.WellNamed) {s : Symbol} (hs : s ∈ L.symtab.symbols)
    (hholds : SymbolHolds D L s) : Acc (fun s' s => L.LocalReference s s') s := by
  let Descends (pair : RelocationPair) : Prop := ∀ r ∈ L.reloctab.relocs, pair = (r, r) →
    ∀ s, L.symtab.lookupByLocation r.destination = some s → s.symbolBinding = .LOCAL →
      Acc (fun s' s => L.LocalReference s s') s
  have hacc : ∀ s ∈ L.symtab.symbols, (∀ r ∈ L.foundRelocations s, Descends (r, r)) →
      Acc (fun s' s => L.LocalReference s s') s := by
    intro s _ hall
    refine Acc.intro s ?_
    rintro s' ⟨r, hr, hsym, hlocal⟩
    exact hall r hr r (ProgramLoader.mem_of_foundRelocations hr) rfl s' hsym hlocal
  have hstep : ∀ pair, (∀ c ∈ (twice D L).questions pair, c.Passes Descends) → Descends pair := by
    rintro pair hpair r hr rfl s hsym hlocal
    have hs := SymbolTable.mem_of_lookupByLocation hsym
    have hchecks := (questions_twice_pass_iff h hr).mp hpair s hsym hlocal
    exact hacc s hs ((symbolChecks_twice_pass_iff h hs).mp hchecks).2
  have hrelocs := ((symbolChecks_twice_pass_iff h hs).mp hholds).2
  exact hacc s hs fun r hr => (hrelocs r hr).of_passes hstep

/-- The walk from a symbol whose checks hold comes to such symbols only. -/
theorem symbolHolds_of_reflTransGen (h : L.WellNamed) {start s : Symbol}
    (hstart : start ∈ L.symtab.symbols) (hholds : SymbolHolds D L start)
    (hwalk : Relation.ReflTransGen L.LocalReference start s) : SymbolHolds D L s := by
  induction hwalk with
  | refl => exact hholds
  | tail hbefore hstep ih =>
    have hmem := ProgramLoader.mem_of_reflTransGen hstart hbefore
    exact ((symbolHolds_iff h hmem).mp ih).2 _ hstep

/-- **The checks of a symbol hold exactly when the walk from it comes to no cycle and to no
data that cannot be read.** -/
theorem symbolHolds_iff_walk (h : L.WellNamed) {start : Symbol} (hstart : start ∈ L.symtab.symbols) :
    SymbolHolds D L start ↔ ∀ s, Relation.ReflTransGen L.LocalReference start s →
      ¬ Relation.TransGen L.LocalReference s s ∧ L.Readable s := by
  have hcycles := Checklist.acc_iff_forall_not_transGen
    (ProgramLoader.finite_reflTransGen hstart)
  constructor
  · intro hholds s hwalk
    have hs := ProgramLoader.mem_of_reflTransGen hstart hwalk
    refine ⟨hcycles.mp (acc_of_symbolHolds h hstart hholds) s hwalk, ?_⟩
    exact ((symbolHolds_iff h hs).mp (symbolHolds_of_reflTransGen h hstart hholds hwalk)).1
  · intro hwalk
    have hacc := hcycles.mpr fun s hs => (hwalk s hs).1
    have hall : ∀ s, Acc (fun s' s => L.LocalReference s s') s →
        Relation.ReflTransGen L.LocalReference start s → SymbolHolds D L s := by
      intro s hs
      induction hs with
      | intro s _ ih =>
        intro hbefore
        rw [symbolHolds_iff h (ProgramLoader.mem_of_reflTransGen hstart hbefore)]
        exact ⟨(hwalk s hbefore).2, fun s' hstep => ih s' hstep (hbefore.tail hstep)⟩
    exact hall start hacc .refl

/-! ### The symbols the walk starts from -/

/-- A symbol that is not local is found under its name. -/
theorem lookupByName_of_wellNamed (h : L.WellNamed) {s : Symbol} (hs : s ∈ L.symtab.symbols)
    (hlocal : s.symbolBinding ≠ .LOCAL) : L.symtab.lookupByName s.name = some s := by
  rw [← h.symtab]
  exact SymbolTable.lookupByName_constructNameIndex_of_nodup h.names hs hlocal

theorem targetChecks_twice_hold_iff (h : L.WellNamed) {s : Symbol} (hs : s ∈ L.symtab.symbols) :
    (∀ c ∈ (twice D L).targetChecks s, c.Holds (twice D L).questions) ↔
      (s.symbolBinding ≠ .LOCAL → SymbolHolds D L s) := by
  by_cases hlocal : s.symbolBinding = .LOCAL
  · rw [targetChecks, if_pos hlocal]
    simp [hlocal]
  · rw [targetChecks, if_neg hlocal, lookupByName_of_wellNamed h hs hlocal]
    simp only [Checklist.Check.holds_iff_passes]
    simp [hlocal, SymbolHolds]

/-- **A program compares equal to a second load of itself exactly when, of the symbols the
comparison comes to, none leads back to itself and all can be read.** -/
theorem comparesToItself_iff (D : Ppcdisasm) (h : L.WellNamed) :
    (∃ fuel, (twice D L).comparePrograms fuel = .ok true) ↔
      ∀ s, L.Visited s → ¬ Relation.TransGen L.LocalReference s s ∧ L.Readable s := by
  simp only [comparePrograms_eq]
  rw [Checklist.exists_runAll_yes_iff, programChecks]
  simp only [List.mem_flatMap, forall_exists_index, and_imp]
  constructor
  · rintro hall s ⟨start, hstart, hlocal, hwalk⟩
    have hholds := (targetChecks_twice_hold_iff h hstart).mp
      (fun c hc => hall c start hstart hc) hlocal
    exact (symbolHolds_iff_walk h hstart).mp hholds s hwalk
  · intro hall c start hstart hc
    refine (targetChecks_twice_hold_iff h hstart).mpr (fun hlocal => ?_) c hc
    exact (symbolHolds_iff_walk h hstart).mpr fun s hwalk => hall s ⟨start, hstart, hlocal, hwalk⟩

end ProgramComparator

/-! ### A static function, and the end of a table -/

/-- `main: bl helper; blr`, `helper: blr`, with `helper` static. -/
def staticCall : ProgramLoader :=
  assembled [0x48000009, 0x4e800020, 0x4e800020]
    (SymbolTable.reindexed
      { symbols := [⟨"main", ⟨⟨0, 0⟩, 0⟩, 8, .FUNCTION, .GLOBAL⟩,
          ⟨"helper", ⟨⟨0, 8⟩, 0⟩, 4, .FUNCTION, .LOCAL⟩] })
    (RelocationTable.constructSourceIndex
      { relocs := [⟨⟨⟨0, 0⟩, 0⟩, ⟨⟨0, 8⟩, 0⟩, relocREL24, 0⟩] })

theorem staticCall_wellNamed : staticCall.WellNamed where
  named := by decide
  enclosed := by decide
  symtab := rfl
  names := by decide
  sizes := by decide

/-- `table`, a word of data, and `tableEnd`, the label after it. -/
def labelledTable : ProgramLoader where
  kind := .elf
  binaries := [⟨"", .elf, [⟨".data", 0, 4, .DATA, .elf 0, wordBytes 42⟩]⟩]
  symtab := SymbolTable.reindexed
    { symbols := [⟨"table", ⟨⟨0, 0⟩, 0⟩, 4, .DATA, .GLOBAL⟩,
        ⟨"tableEnd", ⟨⟨0, 4⟩, 0⟩, 0, .NOTYPE, .GLOBAL⟩] }
  reloctab := {}

theorem labelledTable_wellNamed : labelledTable.WellNamed where
  named := by decide
  enclosed := by decide
  symtab := rfl
  names := by decide
  sizes := by decide

/-- A table of as many bytes as an `int` cannot count. -/
def hugeTable : ProgramLoader where
  kind := .elf
  binaries := [⟨"", .elf,
    [⟨".data", 0, 0x80000000, .DATA, .elf 0, List.replicate 0x80000000 0⟩]⟩]
  symtab := SymbolTable.reindexed
    { symbols := [⟨"table", ⟨⟨0, 0⟩, 0⟩, 0x80000000, .DATA, .GLOBAL⟩] }
  reloctab := {}

theorem hugeTable_wellNamed : hugeTable.WellNamed where
  named := by decide
  enclosed := by decide
  symtab := rfl
  names := by decide
  sizes := by decide

/-- Without relocations nothing refers to anything. -/
theorem ProgramLoader.not_transGen_of_relocs_nil {L : ProgramLoader} (h : L.reloctab.relocs = [])
    (s : Symbol) : ¬ Relation.TransGen L.LocalReference s s := by
  intro hcycle
  obtain ⟨s', ⟨r, hr, _⟩, _⟩ := Relation.TransGen.head'_iff.mp hcycle
  have hmem := mem_of_foundRelocations hr
  rw [h] at hmem
  cases hmem

namespace ProgramComparator

theorem comparesToItself_iff_staticCall :
    (∃ fuel, (twice Excerpt.ppcdisasm staticCall).comparePrograms fuel = .ok true) ↔
      ∀ s, staticCall.Visited s →
        ¬ Relation.TransGen staticCall.LocalReference s s ∧ staticCall.Readable s :=
  comparesToItself_iff Excerpt.ppcdisasm staticCall_wellNamed

/-- There are no bytes at `tableEnd`, and the comparison asks for them before it compares
none. -/
theorem labelledTable_differs : ¬ ∀ (D : Ppcdisasm) (L : ProgramLoader), L.WellNamed →
    (∀ s, ¬ Relation.TransGen L.LocalReference s s) →
    ∃ fuel, (twice D L).comparePrograms fuel = .ok true := by
  intro hall
  have hequal := hall Excerpt.ppcdisasm labelledTable labelledTable_wellNamed
    (ProgramLoader.not_transGen_of_relocs_nil rfl)
  simp only [comparePrograms_eq] at hequal
  rw [Checklist.exists_runAll_yes_iff] at hequal
  have hlast : ∃ e, .settled (.error e) ∈ (twice Excerpt.ppcdisasm labelledTable).programChecks :=
    ⟨_, List.mem_of_getElem? (i := 1) rfl⟩
  obtain ⟨e, he⟩ := hlast
  exact absurd (hequal _ he) (by simp [Checklist.Check.Holds])

/-- Nor do programs without empty symbols: the size of `table` is negative for `memcmp`. -/
theorem hugeTable_differs : ¬ ∀ (D : Ppcdisasm) (L : ProgramLoader), L.WellNamed →
    (∀ s ∈ L.symtab.symbols, s.size ≠ 0) → (∀ s, ¬ Relation.TransGen L.LocalReference s s) →
    ∃ fuel, (twice D L).comparePrograms fuel = .ok true := by
  intro hall
  have hequal := hall Excerpt.ppcdisasm hugeTable hugeTable_wellNamed (by decide)
    (ProgramLoader.not_transGen_of_relocs_nil rfl)
  simp only [comparePrograms_eq] at hequal
  rw [Checklist.exists_runAll_yes_iff] at hequal
  have hmem : ⟨"table", ⟨⟨0, 0⟩, 0⟩, 0x80000000, .DATA, .GLOBAL⟩ ∈ hugeTable.symtab.symbols :=
    List.mem_singleton_self _
  have hholds := (targetChecks_twice_hold_iff hugeTable_wellNamed hmem).mp
    (fun c hc => hequal c (List.mem_flatMap.mpr ⟨_, hmem, hc⟩)) (by decide)
  have hreadable := ((symbolHolds_iff hugeTable_wellNamed hmem).mp hholds).1
  exact absurd ((hreadable rfl).2 rfl) (by decide)

end ProgramComparator

end Ppc2cpp
