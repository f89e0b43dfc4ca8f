import Ppc2cpp.Lib.Checklist
import Ppc2cpp.Analysis.ProgramComparator

/-! The comparison of programs as lists of checks.

Comparing two relocations to local symbols compares the words of the symbols, and where
both have a relocation there the comparison asks about those. So a pair of relocations
is a question in the sense of `Checklist`, with a check for every word, and a comparison
of programs is one list: the checks of every symbol of the second program. The fuel of
the comparison is the fuel of the questions. -/
namespace Ppc2cpp

/-- The two relocations at one word of two symbols. -/
abbrev RelocationPair := Relocation × Relocation

abbrev ProgramCheck := Checklist.Check RelocationPair Error

namespace ProgramCheck

/-- A comparison that fails before its first check. -/
def listOf : Except Error (List ProgramCheck) → List ProgramCheck
  | .ok checks => checks
  | .error e => [.settled (.error e)]

theorem runAll_listOf_bind {α : Type} (f : RelocationPair → Except Error Bool) (x : Except Error α)
    (k : α → Except Error (List ProgramCheck)) :
    Checklist.runAll f (listOf (x >>= k)) = (x >>= fun a => Checklist.runAll f (listOf (k a))) := by
  cases x with
  | error e => rfl
  | ok a => rfl

theorem runAll_settled (f : RelocationPair → Except Error Bool) (x : Except Error Bool) :
    Checklist.runAll f [.settled x] = x := by
  cases x with
  | error e => rfl
  | ok b => cases b <;> rfl

end ProgramCheck

namespace ProgramComparator
open ProgramCheck

variable (C : ProgramComparator)

/-! ### The checks -/

/-- The check of the word at an index: one round of the loop of `compareWords`. -/
def wordCheck (lookup : RelocationTable → ProgramLocation → Option Relocation)
    (masked : Relocation → Word → Word → Bool) (sourceSym targetSym : Symbol) (i : Int) :
    ProgramCheck :=
  let pos2 := sourceSym.location.add (4 * i)
  let pos1 := targetSym.location.add (4 * i)
  match lookup C.pLoader1.reloctab pos1, lookup C.pLoader2.reloctab pos2 with
  | some reloc1, some reloc2 =>
    match C.buffersAt sourceSym targetSym pos1 pos2 with
    | .ok (buf1, buf2) => .ask (reloc1, reloc2) (masked reloc1 (be32 buf1 0) (be32 buf2 0))
    | .error e => .settled (.error e)
  | none, none =>
    match C.buffersAt sourceSym targetSym pos1 pos2 with
    | .ok (buf1, buf2) => .settled (.ok (be32 buf1 0 == be32 buf2 0))
    | .error e => .settled (.error e)
  | _, _ => .settled (.ok false)

def wordChecks (lookup : RelocationTable → ProgramLocation → Option Relocation)
    (masked : Relocation → Word → Word → Bool) (sourceSym targetSym : Symbol) :
    List ProgramCheck :=
  (List.range ((compareSize sourceSym targetSym + 3) / 4).toNat).map fun (i : Nat) =>
    C.wordCheck lookup masked sourceSym targetSym i

def dataChecks (sourceSym targetSym : Symbol) : Except Error (List ProgramCheck) := do
  let (buf1, buf2) ← C.buffersAt sourceSym targetSym targetSym.location sourceSym.location
  if sourceSym.location.sectionOffset % 4 ≠ 0 ∨ sourceSym.size % 4 ≠ 0 ∨
      targetSym.location.sectionOffset % 4 ≠ 0 ∨ targetSym.size % 4 ≠ 0 then
    return C.wordChecks RelocationTable.lookupBySource (fun _ _ _ => true) sourceSym targetSym
  else
    let size := compareSize sourceSym targetSym
    if size < 0 then throw .outOfRange
    return [.settled (.ok ((List.range size.toNat).all fun i => buf1.getD i 0 == buf2.getD i 0))]

/-- Equal outside the bits the relocation fills in. -/
def maskedEqual (reloc : Relocation) (word1 word2 : Word) : Bool :=
  (getRelocMask reloc.type ||| word1) == (getRelocMask reloc.type ||| word2)

def functionChecks (sourceSym targetSym : Symbol) : Except Error (List ProgramCheck) := do
  if ¬ (sourceSym.size.toInt - targetSym.size.toInt).natAbs < 8 then
    throw (.assertFailed ("Symbol sizes are wildly different " ++ toString sourceSym.size.toNat ++
      " vs " ++ toString targetSym.size.toNat))
  return C.wordChecks RelocationTable.lookupByInsnLoc maskedEqual sourceSym targetSym

def symbolChecks (sourceSym targetSym : Symbol) : Except Error (List ProgramCheck) := do
  let symSectionType2 ← sectionType C.pLoader2 targetSym.location
  let symSectionType1 ← sectionType C.pLoader1 sourceSym.location
  if symSectionType1 ≠ symSectionType2 then return [.settled (.ok false)]
  match symSectionType1 with
  | .TEXT => C.functionChecks sourceSym targetSym
  | .DATA => C.dataChecks sourceSym targetSym
  | _ => return []

/-- What a pair of relocations leads to: nothing unless one of the symbols is local. -/
def relocationChecks (pair : RelocationPair) : Except Error (List ProgramCheck) := do
  let (reloc1, reloc2) := pair
  let relocSym1 ← assertSome (C.pLoader1.symtab.lookupByLocation reloc1.destination) (do
    return "Source: could not find symbol referenced by relocation at " ++
      (← C.pLoader1.locationString reloc1.source) ++ ", destination " ++
      (← C.pLoader1.locationString reloc1.destination))
  let relocSym2 ← assertSome (C.pLoader2.symtab.lookupByLocation reloc2.destination) (do
    return "Target: could not find symbol referenced by relocation at " ++
      (← C.pLoader2.locationString reloc2.source) ++ ", destination " ++
      (← C.pLoader2.locationString reloc2.destination))
  if relocSym1.symbolBinding = .LOCAL ∨ relocSym2.symbolBinding = .LOCAL then
    C.symbolChecks relocSym1 relocSym2
  else
    return [.settled (.ok (relocSym1.name == relocSym2.name && reloc1.type == reloc2.type &&
      reloc1.addend == reloc2.addend))]

/-- The questions of the comparison. -/
def questions (pair : RelocationPair) : List ProgramCheck := listOf (C.relocationChecks pair)

/-- The checks a symbol of the second program adds. -/
def targetChecks (targetSym : Symbol) : List ProgramCheck :=
  if targetSym.symbolBinding = .LOCAL then []
  else match C.pLoader1.symtab.lookupByName targetSym.name with
  | none => [.settled (.ok false)]
  | some sourceSym => listOf (C.symbolChecks sourceSym targetSym)

def programChecks : List ProgramCheck := C.pLoader2.symtab.symbols.flatMap C.targetChecks

/-! ### The comparison makes these checks -/

section Run
variable (f : RelocationPair → Except Error Bool) (sourceSym targetSym : Symbol)

theorem compareWords_eq (lookup : RelocationTable → ProgramLocation → Option Relocation)
    (masked : Relocation → Word → Word → Bool) :
    C.compareWords (fun reloc1 reloc2 => f (reloc1, reloc2)) lookup masked sourceSym targetSym =
      Checklist.runAll f (C.wordChecks lookup masked sourceSym targetSym) := by
  have hindices (n : Nat) : (do let i ← List.range n; pure (i : Int) : List Int) =
      (List.range n).map fun (i : Nat) => (i : Int) :=
    List.flatMap_pure_eq_map _ _
  have hmap (xs : List Nat) :
      (xs.map fun (i : Nat) => C.wordCheck lookup masked sourceSym targetSym i) =
        (xs.map fun (i : Nat) => (i : Int)).map (C.wordCheck lookup masked sourceSym targetSym) := by
    rw [List.map_map]
    rfl
  unfold compareWords wordChecks
  rw [hindices, hmap, Checklist.runAll_map]
  congr 1
  funext i
  unfold wordCheck
  dsimp only
  cases lookup C.pLoader1.reloctab (targetSym.location.add (4 * i)) with
  | none =>
    cases lookup C.pLoader2.reloctab (sourceSym.location.add (4 * i)) with
    | none => cases C.buffersAt sourceSym targetSym _ _ <;> rfl
    | some reloc2 => rfl
  | some reloc1 =>
    cases lookup C.pLoader2.reloctab (sourceSym.location.add (4 * i)) with
    | none => rfl
    | some reloc2 => cases C.buffersAt sourceSym targetSym _ _ <;> rfl

theorem compareData_eq :
    C.compareData (fun reloc1 reloc2 => f (reloc1, reloc2)) sourceSym targetSym =
      Checklist.runAll f (listOf (C.dataChecks sourceSym targetSym)) := by
  unfold compareData dataChecks
  rw [runAll_listOf_bind]
  congr 1
  funext bufs
  obtain ⟨buf1, buf2⟩ := bufs
  dsimp only
  split
  · exact C.compareWords_eq f sourceSym targetSym _ _
  · split
    · rfl
    · exact (runAll_settled f _).symm

theorem compareFunctions_eq :
    C.compareFunctions (fun reloc1 reloc2 => f (reloc1, reloc2)) sourceSym targetSym =
      Checklist.runAll f (listOf (C.functionChecks sourceSym targetSym)) := by
  unfold compareFunctions functionChecks
  split
  · rfl
  · exact C.compareWords_eq f sourceSym targetSym _ _

theorem compareSymbolsBy_eq :
    C.compareSymbolsBy (fun reloc1 reloc2 => f (reloc1, reloc2)) sourceSym targetSym =
      Checklist.runAll f (listOf (C.symbolChecks sourceSym targetSym)) := by
  unfold compareSymbolsBy symbolChecks
  rw [runAll_listOf_bind]
  congr 1
  funext symSectionType2
  rw [runAll_listOf_bind]
  congr 1
  funext symSectionType1
  split
  · rfl
  · cases symSectionType1 with
    | TEXT => exact C.compareFunctions_eq f sourceSym targetSym
    | DATA => exact C.compareData_eq f sourceSym targetSym
    | NOLOAD => rfl
    | BSS => rfl

end Run

theorem compareRelocations_eq (fuel : Nat) (reloc1 reloc2 : Relocation) :
    C.compareRelocations fuel reloc1 reloc2 =
      Checklist.answer .outOfFuel C.questions fuel (reloc1, reloc2) := by
  induction fuel generalizing reloc1 reloc2 with
  | zero => rfl
  | succ fuel ih =>
    have hfun : C.compareRelocations fuel =
        fun reloc1 reloc2 => Checklist.answer .outOfFuel C.questions fuel (reloc1, reloc2) := by
      funext reloc1 reloc2
      exact ih reloc1 reloc2
    rw [compareRelocations, Checklist.answer, questions, relocationChecks]
    rw [runAll_listOf_bind]
    congr 1
    funext relocSym1
    rw [runAll_listOf_bind]
    congr 1
    funext relocSym2
    split
    · rw [hfun]
      exact C.compareSymbolsBy_eq _ relocSym1 relocSym2
    · exact (runAll_settled _ _).symm

theorem comparePrograms_eq (fuel : Nat) :
    C.comparePrograms fuel =
      Checklist.runAll (Checklist.answer .outOfFuel C.questions fuel) C.programChecks := by
  have hfun : C.compareRelocations fuel =
      fun reloc1 reloc2 => Checklist.answer .outOfFuel C.questions fuel (reloc1, reloc2) := by
    funext reloc1 reloc2
    exact C.compareRelocations_eq fuel reloc1 reloc2
  unfold comparePrograms programChecks
  rw [Checklist.runAll_flatMap]
  congr 1
  funext targetSym
  unfold targetChecks
  split
  · rfl
  · cases C.pLoader1.symtab.lookupByName targetSym.name with
    | none => rfl
    | some sourceSym =>
      dsimp only
      rw [compareSymbols, hfun]
      exact C.compareSymbolsBy_eq _ sourceSym targetSym

end ProgramComparator

end Ppc2cpp
