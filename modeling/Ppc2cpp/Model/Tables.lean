import Ppc2cpp.Lib.FirstWins
import Ppc2cpp.Model.Symbol

/-! The symbol table and the relocation table with their hash indexes.

`push_back` leaves the indexes as they are; `construct…Index` rebuilds one from the
entries, keeping for each key the first entry in table order. The location indexes
are keyed by `ProgramLocation`, whose equality forgets the binary
(`BinaryLocation.operatorEq`), and `lookup_exact_iff` says what that costs: a lookup
is exact precisely when the first entry recorded for that section and offset is of
the binary asked about. -/
namespace Ppc2cpp

structure SymbolTable where
  symbols : List Symbol := []
  /-- Index by symbol name. -/
  nameIndex : FirstWins.Map String Nat := []
  /-- Index by symbol location. -/
  locIndex : FirstWins.Map ProgramLocation Nat := []
deriving Repr

structure RelocationTable where
  relocs : List Relocation := []
  /-- Index by relocation location. -/
  sourceIndex : FirstWins.Map ProgramLocation Nat := []
deriving Repr

/-- The key equality of the location indexes. -/
def locationKeyEq (a b : ProgramLocation) : Bool := a.operatorEq b.toBinaryLocation

theorem locationKeyEq_keyEq : FirstWins.KeyEq locationKeyEq where
  refl a := (BinaryLocation.operatorEq_iff _ _).mpr rfl
  trans a b c hab hbc := by
    simp only [locationKeyEq, BinaryLocation.operatorEq_iff] at *
    exact hab.trans hbc

namespace SymbolTable

/-- Invalidates the indexes. -/
def pushBack (t : SymbolTable) (sym : Symbol) : SymbolTable := {t with symbols := t.symbols ++ [sym]}

/-- Local symbols can have duplicate names, so they are not indexed; the positions
stored are positions in the whole table. -/
def constructNameIndex (t : SymbolTable) : SymbolTable :=
  {t with nameIndex := (List.range t.symbols.length).foldl (fun m i =>
    match t.symbols[i]? with
    | some s => if s.symbolBinding ≠ .LOCAL then FirstWins.insert (· == ·) m s.name i else m
    | none => m) []}

def lookupByName (t : SymbolTable) (name : String) : Option Symbol :=
  (FirstWins.find (· == ·) t.nameIndex name).bind (fun i => t.symbols[i]?)

/-- What a lookup by name finds after the index is built: the first symbol of that name
that is not local. -/
theorem lookupByName_constructNameIndex (t : SymbolTable) (name : String) :
    t.constructNameIndex.lookupByName name =
      t.symbols.find? (fun s => decide (s.symbolBinding ≠ .LOCAL) && s.name == name) := by
  have hindex : ∀ n ≤ t.symbols.length, FirstWins.find (· == ·)
      ((List.range n).foldl (fun m i => match t.symbols[i]? with
        | some s => if s.symbolBinding ≠ .LOCAL then FirstWins.insert (· == ·) m s.name i else m
        | none => m) []) name =
      (t.symbols.take n).findIdx? (fun s => decide (s.symbolBinding ≠ .LOCAL) && s.name == name) := by
    intro n hn
    induction n with
    | zero => rfl
    | succ n ih =>
      have hget : t.symbols[n]? = some t.symbols[n] := List.getElem?_eq_getElem hn
      rw [List.range_succ, List.foldl_append, List.foldl_cons, List.foldl_nil, hget,
        List.take_add_one, hget, List.findIdx?_append, ← ih (by omega)]
      dsimp only [Option.toList]
      by_cases hlocal : t.symbols[n].symbolBinding = .LOCAL
      · simp [hlocal]
      · rw [if_pos hlocal, FirstWins.find_insert FirstWins.keyEq_beq]
        by_cases hname : t.symbols[n].name = name <;>
          simp [hlocal, hname, List.length_take_of_le (Nat.le_of_succ_le hn)]
  unfold lookupByName constructNameIndex
  rw [hindex _ (Nat.le_refl _), List.take_length, List.find?_eq_bind_findIdx?_getElem?]

/-- A symbol that is not local is found under its name when no other such symbol has it. -/
theorem lookupByName_constructNameIndex_of_nodup {t : SymbolTable}
    (hnames : ((t.symbols.filter fun s => s.symbolBinding ≠ .LOCAL).map Symbol.name).Nodup)
    {s : Symbol} (hs : s ∈ t.symbols) (hlocal : s.symbolBinding ≠ .LOCAL) :
    t.constructNameIndex.lookupByName s.name = some s := by
  rw [lookupByName_constructNameIndex]
  have hfound : (t.symbols.find? fun s' =>
      decide (s'.symbolBinding ≠ .LOCAL) && s'.name == s.name).isSome := by
    rw [List.find?_isSome]
    exact ⟨s, hs, by simp [hlocal]⟩
  obtain ⟨s', hs'⟩ := Option.isSome_iff_exists.mp hfound
  have hsame := List.find?_some hs'
  simp only [Bool.and_eq_true, beq_iff_eq] at hsame
  have hmem' : s' ∈ t.symbols.filter fun s => s.symbolBinding ≠ .LOCAL :=
    List.mem_filter.mpr ⟨List.mem_of_find?_eq_some hs', hsame.1⟩
  have hmem : s ∈ t.symbols.filter fun s => s.symbolBinding ≠ .LOCAL :=
    List.mem_filter.mpr ⟨hs, by simp [hlocal]⟩
  rw [hs', List.inj_on_of_nodup_map hnames hmem' hmem hsame.2]

def constructLocationIndex (t : SymbolTable) : SymbolTable :=
  {t with locIndex := FirstWins.index locationKeyEq Symbol.location t.symbols}

def lookupByLocation (t : SymbolTable) (loc : ProgramLocation) : Option Symbol :=
  (FirstWins.find locationKeyEq t.locIndex loc).bind (fun i => t.symbols[i]?)

/-- What a lookup finds after the index is built: the first symbol at that section
and offset, of whichever binary. -/
theorem lookupByLocation_constructLocationIndex (t : SymbolTable) (loc : ProgramLocation) :
    t.constructLocationIndex.lookupByLocation loc =
      t.symbols.find? (fun s => locationKeyEq s.location loc) :=
  FirstWins.find_index locationKeyEq_keyEq Symbol.location t.symbols loc

theorem mem_of_lookupByLocation {t : SymbolTable} {l : ProgramLocation} {s : Symbol}
    (h : t.lookupByLocation l = some s) : s ∈ t.symbols := by
  obtain ⟨i, _, hi⟩ := Option.bind_eq_some_iff.mp h
  exact List.mem_of_getElem? hi

end SymbolTable

namespace RelocationTable

/-- Invalidates the index. -/
def pushBack (t : RelocationTable) (r : Relocation) : RelocationTable :=
  {t with relocs := t.relocs ++ [r]}

def constructSourceIndex (t : RelocationTable) : RelocationTable :=
  {t with sourceIndex := FirstWins.index locationKeyEq Relocation.source t.relocs}

def lookupBySource (t : RelocationTable) (loc : ProgramLocation) : Option Relocation :=
  (FirstWins.find locationKeyEq t.sourceIndex loc).bind (fun i => t.relocs[i]?)

/-- LO, HA and HI relocations are applied to the latter half of the instruction. -/
def lookupByInsnLoc (t : RelocationTable) (loc : ProgramLocation) : Option Relocation :=
  match t.lookupBySource loc with
  | none => t.lookupBySource (loc.add 2)
  | some r => some r

theorem lookupBySource_constructSourceIndex (t : RelocationTable) (loc : ProgramLocation) :
    t.constructSourceIndex.lookupBySource loc =
      t.relocs.find? (fun r => locationKeyEq r.source loc) :=
  FirstWins.find_index locationKeyEq_keyEq Relocation.source t.relocs loc

theorem mem_of_lookupBySource {t : RelocationTable} {l : ProgramLocation} {r : Relocation}
    (h : t.lookupBySource l = some r) : r ∈ t.relocs := by
  obtain ⟨i, _, hi⟩ := Option.bind_eq_some_iff.mp h
  exact List.mem_of_getElem? hi

theorem mem_of_lookupByInsnLoc {t : RelocationTable} {l : ProgramLocation} {r : Relocation}
    (h : t.lookupByInsnLoc l = some r) : r ∈ t.relocs := by
  unfold lookupByInsnLoc at h
  split at h
  · exact mem_of_lookupBySource h
  · next hl =>
    cases h
    exact mem_of_lookupBySource hl

end RelocationTable

/-! ### When a lookup is exact -/

/-- The first entry recorded for the section and offset of `l`, if there is one, is
an entry of the binary of `l`. -/
def FirstOfBinary {α : Type} (location : α → ProgramLocation) (entries : List α)
    (l : ProgramLocation) : Prop :=
  ∀ x, entries.find? (fun x => locationKeyEq (location x) l) = some x →
    (location x).binaryIdx = l.binaryIdx

theorem find_location_iff {α : Type} (location : α → ProgramLocation) (entries : List α)
    (l : ProgramLocation) :
    entries.find? (fun x => locationKeyEq (location x) l) =
        entries.find? (fun x => location x == l) ↔ FirstOfBinary location entries l := by
  have hfine : (fun x => location x == l) = fun x =>
      locationKeyEq (location x) l && (location x).binaryIdx == l.binaryIdx := by
    funext x
    apply Bool.eq_iff_iff.mpr
    simp only [beq_iff_eq, ProgramLocation.eq_iff, locationKeyEq, Bool.and_eq_true]
  rw [hfine, FirstWins.find?_coarse_iff]
  simp only [FirstOfBinary, beq_iff_eq]

/-- **A lookup by location is exact iff the first entry at that section and offset is
of the binary asked about**, in the symbol table and in the relocation table. -/
theorem lookup_exact_iff (symtab : SymbolTable) (reloctab : RelocationTable)
    (l : ProgramLocation) :
    (symtab.constructLocationIndex.lookupByLocation l =
        symtab.symbols.find? (fun s => s.location == l) ↔
      FirstOfBinary Symbol.location symtab.symbols l) ∧
    (reloctab.constructSourceIndex.lookupBySource l =
        reloctab.relocs.find? (fun r => r.source == l) ↔
      FirstOfBinary Relocation.source reloctab.relocs l) := by
  rw [SymbolTable.lookupByLocation_constructLocationIndex,
    RelocationTable.lookupBySource_constructSourceIndex]
  exact ⟨find_location_iff _ _ l, find_location_iff _ _ l⟩

/-- Two binaries whose first section starts with a symbol: the lookup in the second
binary answers with the symbol of the first. -/
theorem lookup_other_binary :
    ¬ ∀ (symtab : SymbolTable) (reloctab : RelocationTable) (l : ProgramLocation),
      symtab.constructLocationIndex.lookupByLocation l =
          symtab.symbols.find? (fun s => s.location == l) ∧
        reloctab.constructSourceIndex.lookupBySource l =
          reloctab.relocs.find? (fun r => r.source == l) := by
  intro h
  have hsym := (h
    { symbols := [⟨"first", ⟨⟨0, 0⟩, 0⟩, 4, .FUNCTION, .GLOBAL⟩,
        ⟨"second", ⟨⟨0, 0⟩, 1⟩, 4, .FUNCTION, .GLOBAL⟩] } {} ⟨⟨0, 0⟩, 1⟩).1
  revert hsym
  decide

end Ppc2cpp
