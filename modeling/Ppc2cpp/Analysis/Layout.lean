import Ppc2cpp.Analysis.ComparisonTermination
import Ppc2cpp.Model.Persistence

/-! Programs that differ only in where their symbols are.

`compareFunctions` and `compareData` look for the symbol of the second program at its
place in the first, and the other way round: `pos1` is the location of `targetSym` and is
looked up in `pLoader1`. With both programs laid out alike this is the same.

`comparePrograms_rearranged_iff` says what it comes to when they are not: the comparison
succeeds exactly when each program holds, at the place a symbol has in the other one, what
the other one holds at the place it has in this one. -/
namespace Ppc2cpp

namespace ProgramLoader
variable (L : ProgramLoader)

/-- The byte at a location. -/
def byteAt (l : ProgramLocation) : Option (BitVec 8) :=
  match L.getBufferAtLocation l with
  | .ok (some buffer) => buffer.head?
  | _ => none

/-- The name of the symbol a relocation refers to. -/
def destinationName (r : Relocation) : Option String :=
  (L.symtab.lookupByLocation r.destination).map Symbol.name

/-- Symbols occupy no byte in common. -/
def Disjoint (s s' : Symbol) : Prop :=
  s.location.binaryIdx = s'.location.binaryIdx → s.location.sectionIdx = s'.location.sectionIdx →
    s.location.sectionOffset.toNat + s.size.toNat ≤ s'.location.sectionOffset.toNat ∨
    s'.location.sectionOffset.toNat + s'.size.toNat ≤ s.location.sectionOffset.toNat

/-- One binary, indexed tables, and global symbols of different names, aligned, inside
their sections and apart from each other. -/
structure Orderly : Prop where
  single : L.binaries.length = 1
  symtab : L.symtab.reindexed = L.symtab
  reloctab : L.reloctab.constructSourceIndex = L.reloctab
  isGlobal : ∀ s ∈ L.symtab.symbols, s.symbolBinding = .GLOBAL
  names : (L.symtab.symbols.map Symbol.name).Nodup
  aligned : ∀ s ∈ L.symtab.symbols, s.location.sectionOffset % 4 = 0 ∧ s.size % 4 = 0
  enclosed : ∀ s ∈ L.symtab.symbols, L.Encloses s
  disjoint : L.symtab.symbols.Pairwise Disjoint

end ProgramLoader

namespace ProgramComparator
variable (C : ProgramComparator)

/-- References of one type with one addend to symbols of one name. -/
structure SameReference (reloc1 reloc2 : Relocation) : Prop where
  name : ∃ name, C.pLoader1.destinationName reloc1 = some name ∧
    C.pLoader2.destinationName reloc2 = some name
  type : reloc1.type = reloc2.type
  addend : reloc1.addend = reloc2.addend

/-- Neither is there, or both are and are the same reference. -/
def SameRelocation : Option Relocation → Option Relocation → Prop
  | none, none => True
  | some reloc1, some reloc2 => C.SameReference reloc1 reloc2
  | _, _ => False

/-- A symbol of the first program and its counterpart in the second. -/
structure Corresponds (sourceSym targetSym : Symbol) : Prop where
  name : sourceSym.name = targetSym.name
  size : sourceSym.size = targetSym.size
  type : sectionType C.pLoader1 sourceSym.location = sectionType C.pLoader2 targetSym.location
  content : ∀ i < sourceSym.size.toNat, C.pLoader1.byteAt (sourceSym.location.add i) =
    C.pLoader2.byteAt (targetSym.location.add i)
  relocations : ∀ i < sourceSym.size.toNat,
    C.SameRelocation (C.pLoader1.reloctab.lookupBySource (sourceSym.location.add i))
      (C.pLoader2.reloctab.lookupBySource (targetSym.location.add i))
  data : sectionType C.pLoader1 sourceSym.location = .ok .DATA → ∀ i < sourceSym.size.toNat,
    C.pLoader1.reloctab.lookupBySource (sourceSym.location.add i) = none

/-- The symbols of the programs correspond one to one. -/
def Rearranged : Prop :=
  ∃ symbols, symbols.Perm C.pLoader2.symtab.symbols ∧
    List.Forall₂ C.Corresponds C.pLoader1.symtab.symbols symbols

/-- The memory of both programs from two locations on, if there is any. -/
def Buffers (pos1 pos2 : ProgramLocation) (buf1 buf2 : Buffer) : Prop :=
  C.pLoader1.getBufferAtLocation pos1 = .ok (some buf1) ∧
    C.pLoader2.getBufferAtLocation pos2 = .ok (some buf2)

/-- Two instructions agree: they are equal and without relocations, or equal outside what
one and the same reference fills in. -/
def InsnsAgree (pos1 pos2 : ProgramLocation) : Prop :=
  ∃ buf1 buf2, C.Buffers pos1 pos2 buf1 buf2 ∧
    match C.pLoader1.reloctab.lookupByInsnLoc pos1, C.pLoader2.reloctab.lookupByInsnLoc pos2 with
    | none, none => be32 buf1 0 = be32 buf2 0
    | some reloc1, some reloc2 => C.SameReference reloc1 reloc2 ∧
        maskedEqual reloc1 (be32 buf1 0) (be32 buf2 0) = true
    | _, _ => False

/-- Some bytes agree, fewer than an `int` can count. -/
def BytesAgree (pos1 pos2 : ProgramLocation) (size : BitVec 32) : Prop :=
  0 ≤ size.toInt ∧ ∃ buf1 buf2, C.Buffers pos1 pos2 buf1 buf2 ∧
    ∀ i < size.toNat, buf1.getD i 0 = buf2.getD i 0

/-- What the first program holds from `pos1` on is what the second holds from `pos2` on,
for a symbol of some size in sections of some type. -/
def ContentAgrees (pos1 pos2 : ProgramLocation) (size : BitVec 32) : SectionType → Prop
  | .TEXT => ∀ i : Nat, 4 * i < size.toInt → C.InsnsAgree (pos1.add (4 * i)) (pos2.add (4 * i))
  | .DATA => C.BytesAgree pos1 pos2 size
  | _ => True

/-- Each program at the place of the symbol in the other. -/
def ExchangedAgree (sourceSym targetSym : Symbol) : Prop :=
  ∀ type, sectionType C.pLoader1 sourceSym.location = .ok type →
    C.ContentAgrees targetSym.location sourceSym.location sourceSym.size type

/-! ### What a check comes to -/

theorem assertSome_eq_ok {α : Type} {x : Option α} {message : Except Error String} {a : α} :
    assertSome x message = .ok a ↔ x = some a := by
  cases x with
  | some b => simp [assertSome]
  | none => cases message <;> simp [assertSome, bind, Except.bind, throw, throwThe,
      MonadExceptOf.throw]

theorem buffersAt_eq_ok {sourceSym targetSym : Symbol} {pos1 pos2 : ProgramLocation}
    {buf1 buf2 : Buffer} :
    C.buffersAt sourceSym targetSym pos1 pos2 = .ok (buf1, buf2) ↔
      C.Buffers pos1 pos2 buf1 buf2 := by
  simp only [buffersAt, bind_eq_ok, assertSome_eq_ok, pure, Except.pure, Except.ok.injEq,
    Prod.mk.injEq, Buffers]
  constructor
  · rintro ⟨maybeBuf1, h1, buf1', rfl, maybeBuf2, h2, buf2', rfl, rfl, rfl⟩
    exact ⟨h1, h2⟩
  · rintro ⟨h1, h2⟩
    exact ⟨_, h1, _, rfl, _, h2, _, rfl, rfl, rfl⟩

theorem exists_buffers_iff (sourceSym targetSym : Symbol) (pos1 pos2 : ProgramLocation)
    (P : Buffer → Buffer → Prop) :
    (∃ buf1 buf2, C.Buffers pos1 pos2 buf1 buf2 ∧ P buf1 buf2) ↔
      ∃ buf1 buf2, C.buffersAt sourceSym targetSym pos1 pos2 = .ok (buf1, buf2) ∧ P buf1 buf2 := by
  simp only [buffersAt_eq_ok]

open ProgramCheck in
theorem forall_listOf_passes {x : Except Error (List ProgramCheck)} {P : RelocationPair → Prop} :
    (∀ c ∈ listOf x, c.Passes P) ↔ ∃ checks, x = .ok checks ∧ ∀ c ∈ checks, c.Passes P := by
  cases x with
  | ok checks => simp [listOf]
  | error e => simp [listOf, Checklist.Check.Passes]

open ProgramCheck in
theorem forall_listOf_holds {x : Except Error (List ProgramCheck)} :
    (∀ c ∈ listOf x, c.Holds C.questions) ↔
      ∃ checks, x = .ok checks ∧ ∀ c ∈ checks, c.Holds C.questions := by
  simp only [Checklist.Check.holds_iff_passes]
  exact forall_listOf_passes

variable {C}

/-- Between global symbols a pair of relocations is a matter of names. -/
theorem questions_hold_iff (h1 : C.pLoader1.Orderly) (h2 : C.pLoader2.Orderly)
    (reloc1 reloc2 : Relocation) :
    Checklist.Holds C.questions (reloc1, reloc2) ↔ C.SameReference reloc1 reloc2 := by
  rw [Checklist.holds_iff, questions, forall_listOf_holds, relocationChecks]
  simp only [bind_eq_ok, assertSome_eq_ok]
  constructor
  · rintro ⟨checks, ⟨relocSym1, hsym1, relocSym2, hsym2, hchecks⟩, hholds⟩
    have hglobal1 := h1.isGlobal _ (SymbolTable.mem_of_lookupByLocation hsym1)
    have hglobal2 := h2.isGlobal _ (SymbolTable.mem_of_lookupByLocation hsym2)
    rw [if_neg (by simp [hglobal1, hglobal2])] at hchecks
    cases hchecks
    have hsame := hholds _ (List.mem_singleton_self _)
    simp only [Checklist.Check.Holds, Except.ok.injEq, Bool.and_eq_true, beq_iff_eq] at hsame
    obtain ⟨⟨hname, htype⟩, haddend⟩ := hsame
    exact ⟨⟨relocSym1.name, by rw [ProgramLoader.destinationName, hsym1]; rfl,
      by rw [ProgramLoader.destinationName, hsym2, hname]; rfl⟩, htype, haddend⟩
  · rintro ⟨⟨name, hname1, hname2⟩, htype, haddend⟩
    obtain ⟨relocSym1, hsym1, rfl⟩ := Option.map_eq_some_iff.mp hname1
    obtain ⟨relocSym2, hsym2, hname⟩ := Option.map_eq_some_iff.mp hname2
    have hglobal1 := h1.isGlobal _ (SymbolTable.mem_of_lookupByLocation hsym1)
    have hglobal2 := h2.isGlobal _ (SymbolTable.mem_of_lookupByLocation hsym2)
    refine ⟨_, ⟨relocSym1, hsym1, relocSym2, hsym2, if_neg (by simp [hglobal1, hglobal2])⟩, ?_⟩
    intro c hc
    rw [List.mem_singleton.mp hc]
    simp [Checklist.Check.Holds, hname, htype, haddend]

/-- One round of the loop over two functions. -/
theorem wordCheck_holds_iff (h1 : C.pLoader1.Orderly) (h2 : C.pLoader2.Orderly)
    (sourceSym targetSym : Symbol) (i : Int) :
    (C.wordCheck RelocationTable.lookupByInsnLoc maskedEqual sourceSym targetSym i).Holds
        C.questions ↔
      C.InsnsAgree (targetSym.location.add (4 * i)) (sourceSym.location.add (4 * i)) := by
  rw [InsnsAgree, C.exists_buffers_iff sourceSym targetSym, wordCheck]
  cases C.buffersAt sourceSym targetSym (targetSym.location.add (4 * i))
      (sourceSym.location.add (4 * i)) with
  | error e =>
    cases C.pLoader1.reloctab.lookupByInsnLoc (targetSym.location.add (4 * i)) <;>
      cases C.pLoader2.reloctab.lookupByInsnLoc (sourceSym.location.add (4 * i)) <;>
      simp [Checklist.Check.Holds]
  | ok bufs =>
    obtain ⟨buf1, buf2⟩ := bufs
    cases C.pLoader1.reloctab.lookupByInsnLoc (targetSym.location.add (4 * i)) with
    | none =>
      cases C.pLoader2.reloctab.lookupByInsnLoc (sourceSym.location.add (4 * i)) <;>
        simp [Checklist.Check.Holds]
    | some reloc1 =>
      cases C.pLoader2.reloctab.lookupByInsnLoc (sourceSym.location.add (4 * i)) with
      | none => simp [Checklist.Check.Holds]
      | some reloc2 =>
        simp [Checklist.Check.Holds, questions_hold_iff h1 h2, and_comm]

theorem compareSize_eq {sourceSym targetSym : Symbol} (hsize : sourceSym.size = targetSym.size) :
    compareSize sourceSym targetSym = sourceSym.size.toInt := by
  simp [compareSize, hsize]

/-- Symbols of one size have as many words to compare as that size has. -/
theorem lt_words_iff {sourceSym targetSym : Symbol} (hsize : sourceSym.size = targetSym.size)
    (i : Nat) :
    i < ((compareSize sourceSym targetSym + 3) / 4).toNat ↔ 4 * i < sourceSym.size.toInt := by
  rw [compareSize_eq hsize]
  omega

theorem functionChecks_hold_iff (h1 : C.pLoader1.Orderly) (h2 : C.pLoader2.Orderly)
    {sourceSym targetSym : Symbol} (hsize : sourceSym.size = targetSym.size) :
    (∀ c ∈ ProgramCheck.listOf (C.functionChecks sourceSym targetSym), c.Holds C.questions) ↔
      C.ContentAgrees targetSym.location sourceSym.location sourceSym.size .TEXT := by
  have hchecks : C.functionChecks sourceSym targetSym =
      .ok (C.wordChecks RelocationTable.lookupByInsnLoc maskedEqual sourceSym targetSym) := by
    rw [functionChecks, if_neg (by simp [hsize])]
    rfl
  rw [hchecks, ContentAgrees]
  simp only [ProgramCheck.listOf, wordChecks, List.forall_mem_map, List.mem_range,
    wordCheck_holds_iff h1 h2, lt_words_iff hsize]

theorem dataChecks_hold_iff {sourceSym targetSym : Symbol}
    (hsize : sourceSym.size = targetSym.size)
    (haligned : sourceSym.location.sectionOffset % 4 = 0 ∧ sourceSym.size % 4 = 0)
    (haligned' : targetSym.location.sectionOffset % 4 = 0 ∧ targetSym.size % 4 = 0) :
    (∀ c ∈ ProgramCheck.listOf (C.dataChecks sourceSym targetSym), c.Holds C.questions) ↔
      C.BytesAgree targetSym.location sourceSym.location sourceSym.size := by
  rw [forall_listOf_holds, BytesAgree, C.exists_buffers_iff sourceSym targetSym, dataChecks]
  cases C.buffersAt sourceSym targetSym targetSym.location sourceSym.location with
  | error e => simp [bind, Except.bind]
  | ok bufs =>
    obtain ⟨buf1, buf2⟩ := bufs
    simp only [bind, Except.bind, compareSize_eq hsize, haligned.1, haligned.2, haligned'.1, haligned'.2]
    rw [if_neg (by simp)]
    by_cases hneg : sourceSym.size.toInt < 0
    · rw [if_pos hneg]
      refine iff_of_false ?_ fun h => absurd h.1 (not_le.mpr hneg)
      simp [throw, throwThe, MonadExceptOf.throw]
    · rw [if_neg hneg]
      have hbytes : sourceSym.size.toInt.toNat = sourceSym.size.toNat := by
        rw [BitVec.toInt_eq_toNat_cond] at hneg ⊢
        split at hneg <;> omega
      rw [hbytes, and_iff_right (not_lt.mp hneg)]
      simp [pure, Except.pure, Checklist.Check.Holds]

/-- The checks of two symbols in sections of one type. -/
theorem symbolChecks_hold_iff (h1 : C.pLoader1.Orderly) (h2 : C.pLoader2.Orderly)
    {sourceSym targetSym : Symbol} (hsource : sourceSym ∈ C.pLoader1.symtab.symbols)
    (htarget : targetSym ∈ C.pLoader2.symtab.symbols) (hsize : sourceSym.size = targetSym.size)
    {type : SectionType} (htype1 : sectionType C.pLoader1 sourceSym.location = .ok type)
    (htype2 : sectionType C.pLoader2 targetSym.location = .ok type) :
    (∀ c ∈ ProgramCheck.listOf (C.symbolChecks sourceSym targetSym), c.Holds C.questions) ↔
      C.ContentAgrees targetSym.location sourceSym.location sourceSym.size type := by
  rw [symbolChecks, htype1, htype2]
  cases type with
  | TEXT => exact functionChecks_hold_iff h1 h2 hsize
  | DATA => exact dataChecks_hold_iff hsize (h1.aligned _ hsource) (h2.aligned _ htarget)
  | NOLOAD => exact iff_of_true (fun c hc => absurd hc List.not_mem_nil) trivial
  | BSS => exact iff_of_true (fun c hc => absurd hc List.not_mem_nil) trivial

/-! ### The symbols of one name -/

/-- A global symbol of a name of its own is found under it. -/
theorem lookupByName_of_orderly {L : ProgramLoader} (h : L.Orderly) {s : Symbol}
    (hs : s ∈ L.symtab.symbols) : L.symtab.lookupByName s.name = some s := by
  have hindexed : L.symtab.lookupByName s.name = L.symtab.constructNameIndex.lookupByName s.name := by
    conv_lhs => rw [← h.symtab]
    rfl
  rw [hindexed]
  have hnames : ((L.symtab.symbols.filter fun s => s.symbolBinding ≠ .LOCAL).map
      Symbol.name).Nodup := h.names.sublist (List.filter_sublist.map Symbol.name)
  exact SymbolTable.lookupByName_constructNameIndex_of_nodup hnames hs (by simp [h.isGlobal s hs])

/-- Every symbol of the second program has a counterpart. -/
theorem Rearranged.exists_source (h : C.Rearranged) {targetSym : Symbol}
    (htarget : targetSym ∈ C.pLoader2.symtab.symbols) :
    ∃ sourceSym ∈ C.pLoader1.symtab.symbols, C.Corresponds sourceSym targetSym := by
  obtain ⟨symbols, hperm, hcorresponds⟩ := h
  obtain ⟨i, hi, rfl⟩ := List.getElem_of_mem (hperm.mem_iff.mpr htarget)
  have hsource : i < C.pLoader1.symtab.symbols.length := by rwa [hcorresponds.length_eq]
  exact ⟨_, List.getElem_mem hsource, hcorresponds.get hsource hi⟩

/-- The checks a symbol of the second program adds, by its counterpart. -/
theorem targetChecks_hold_iff (h1 : C.pLoader1.Orderly) (h2 : C.pLoader2.Orderly)
    {sourceSym targetSym : Symbol} (hsource : sourceSym ∈ C.pLoader1.symtab.symbols)
    (htarget : targetSym ∈ C.pLoader2.symtab.symbols)
    (hcorresponds : C.Corresponds sourceSym targetSym) :
    (∀ c ∈ C.targetChecks targetSym, c.Holds C.questions) ↔
      C.ExchangedAgree sourceSym targetSym := by
  have hlocal : targetSym.symbolBinding ≠ .LOCAL := by simp [h2.isGlobal _ htarget]
  have hfound : C.pLoader1.symtab.lookupByName targetSym.name = some sourceSym := by
    rw [← hcorresponds.name]
    exact lookupByName_of_orderly h1 hsource
  have hchecks : C.targetChecks targetSym =
      ProgramCheck.listOf (C.symbolChecks sourceSym targetSym) := by
    rw [targetChecks, if_neg hlocal, hfound]
  obtain ⟨section1, hsection1, _⟩ := h1.enclosed _ hsource
  have htype1 := ProgramLoader.sectionType_of_section? hsection1
  have htype2 := hcorresponds.type.symm.trans htype1
  rw [hchecks, symbolChecks_hold_iff h1 h2 hsource htarget hcorresponds.size htype1 htype2]
  constructor
  · intro h type htype
    rw [htype1] at htype
    cases htype
    exact h
  · intro h
    exact h _ htype1

/-- **Two programs that differ only in where their symbols are compare as equal exactly
when each holds at the place a symbol has in the other what the other holds at the place it
has in this one.** -/
theorem comparePrograms_rearranged_iff (h1 : C.pLoader1.Orderly) (h2 : C.pLoader2.Orderly)
    (hrearranged : C.Rearranged) :
    (∃ fuel, C.comparePrograms fuel = .ok true) ↔
      ∀ sourceSym ∈ C.pLoader1.symtab.symbols, ∀ targetSym ∈ C.pLoader2.symtab.symbols,
        sourceSym.name = targetSym.name → C.ExchangedAgree sourceSym targetSym := by
  simp only [C.comparePrograms_eq]
  rw [Checklist.exists_runAll_yes_iff]
  have heach : (∀ c ∈ C.programChecks, c.Holds C.questions) ↔
      ∀ targetSym ∈ C.pLoader2.symtab.symbols, ∀ c ∈ C.targetChecks targetSym,
        c.Holds C.questions := by
    simp only [programChecks, List.mem_flatMap, forall_exists_index, and_imp]
    exact ⟨fun h t ht c hc => h c t ht hc, fun h c t ht hc => h t ht c hc⟩
  rw [heach]
  constructor
  · intro h sourceSym hsource targetSym htarget hname
    obtain ⟨sourceSym', hsource', hcorresponds⟩ := hrearranged.exists_source htarget
    have hsame : sourceSym' = sourceSym := List.inj_on_of_nodup_map h1.names hsource' hsource
      (hcorresponds.name.trans hname.symm)
    rw [← hsame]
    exact (targetChecks_hold_iff h1 h2 hsource' htarget hcorresponds).mp (h targetSym htarget)
  · intro h targetSym htarget
    obtain ⟨sourceSym, hsource, hcorresponds⟩ := hrearranged.exists_source htarget
    exact (targetChecks_hold_iff h1 h2 hsource htarget hcorresponds).mpr
      (h sourceSym hsource targetSym htarget hcorresponds.name)

end ProgramComparator

/-! ### Three functions in another order -/

instance : DecidableRel ProgramLoader.Disjoint :=
  fun _ _ => inferInstanceAs (Decidable (_ → _ → _ ∨ _))

/-- Three functions of two instructions each, by their places. -/
def functionsAt (words : List Word) (first second third : BitVec 32) : ProgramLoader :=
  assembled words (SymbolTable.reindexed
    { symbols := [⟨"first", ⟨⟨0, first⟩, 0⟩, 8, .FUNCTION, .GLOBAL⟩,
        ⟨"second", ⟨⟨0, second⟩, 0⟩, 8, .FUNCTION, .GLOBAL⟩,
        ⟨"third", ⟨⟨0, third⟩, 0⟩, 8, .FUNCTION, .GLOBAL⟩] }) {}

/-- `li r3,1; blr`, `li r3,2; blr` and `li r3,3; blr`, in this order. -/
def inOrder : ProgramLoader :=
  functionsAt [0x38600001, 0x4e800020, 0x38600002, 0x4e800020, 0x38600003, 0x4e800020] 0 8 16

/-- The same functions with the first one last. -/
def rotated : ProgramLoader :=
  functionsAt [0x38600002, 0x4e800020, 0x38600003, 0x4e800020, 0x38600001, 0x4e800020] 16 0 8

theorem inOrder_orderly : inOrder.Orderly where
  single := rfl
  symtab := rfl
  reloctab := rfl
  isGlobal := by decide
  names := by decide
  aligned := by decide
  enclosed := by decide
  disjoint := by decide

theorem rotated_orderly : rotated.Orderly where
  single := rfl
  symtab := rfl
  reloctab := rfl
  isGlobal := by decide
  names := by decide
  aligned := by decide
  enclosed := by decide
  disjoint := by decide

namespace ProgramComparator

def rotation : ProgramComparator := ⟨Excerpt.ppcdisasm, inOrder, rotated⟩

theorem rotation_rearranged : rotation.Rearranged := by
  refine ⟨_, List.Perm.refl _, .cons ?_ (.cons ?_ (.cons ?_ .nil))⟩
  all_goals exact ⟨rfl, rfl, rfl, by decide, fun _ _ => trivial, fun _ _ _ => rfl⟩

theorem comparePrograms_rearranged_iff_rotation :
    (∃ fuel, rotation.comparePrograms fuel = .ok true) ↔
      ∀ sourceSym ∈ inOrder.symtab.symbols, ∀ targetSym ∈ rotated.symtab.symbols,
        sourceSym.name = targetSym.name → rotation.ExchangedAgree sourceSym targetSym :=
  comparePrograms_rearranged_iff inOrder_orderly rotated_orderly rotation_rearranged

/-- `first` is at 0 in one program and at 16 in the other, and the comparison is of 16 in
the one, `li r3,3`, with 0 in the other, `li r3,2`. -/
theorem rotation_differs : ¬ ∀ C : ProgramComparator, C.pLoader1.Orderly → C.pLoader2.Orderly →
    C.Rearranged → ∃ fuel, C.comparePrograms fuel = .ok true := by
  intro hall
  have hequal := hall rotation inOrder_orderly rotated_orderly rotation_rearranged
  simp only [rotation.comparePrograms_eq] at hequal
  rw [Checklist.exists_runAll_yes_iff] at hequal
  have hfirst : rotation.programChecks.head? = some (.settled (.ok false)) := by rfl
  exact absurd (hequal _ (List.mem_of_head? hfirst)) (by simp [Checklist.Check.Holds])

end ProgramComparator

end Ppc2cpp
