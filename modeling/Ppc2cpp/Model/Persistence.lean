import Ppc2cpp.Model.Tables

/-! The analysis tables as they are saved.

A project file holds the symbols and the relocations of a program, not the indexes
over them. Every number is a `uint32` field: the signed indices and addends, the
enumerations and the byte of a relocation's type are converted on the way out and back
again on the way in, and the indexes are built anew.

`tables_roundTrip` is the whole trip: the entries come back as they were, in order, and
every lookup answers what it would have answered. -/
namespace Ppc2cpp

/-! ### The messages -/

namespace Persistence

structure ProgramLocation where
  binaryIdx : BitVec 32
  sectionIdx : BitVec 32
  offset : BitVec 32
deriving DecidableEq, Repr

structure Symbol where
  name : String
  location : ProgramLocation
  size : BitVec 32
  stBind : BitVec 32
  stType : BitVec 32
deriving DecidableEq, Repr

structure SymbolTable where
  symbols : List Symbol := []
deriving DecidableEq, Repr

structure Relocation where
  location : ProgramLocation
  target : ProgramLocation
  type : BitVec 32
  addend : BitVec 32
deriving DecidableEq, Repr

structure RelocTable where
  relocs : List Relocation := []
deriving DecidableEq, Repr

end Persistence

/-! ### Out and in -/

/-- The values of an `int32_t`. -/
def IsInt32 (x : Int) : Prop := -2 ^ 31 ≤ x ∧ x < 2 ^ 31

instance (x : Int) : Decidable (IsInt32 x) := inferInstanceAs (Decidable (_ ∧ _))

namespace ProgramLocation

def toProto (l : ProgramLocation) : Persistence.ProgramLocation where
  binaryIdx := BitVec.ofInt 32 l.binaryIdx
  sectionIdx := BitVec.ofInt 32 l.sectionIdx
  offset := l.sectionOffset

def fromProto (p : Persistence.ProgramLocation) : ProgramLocation where
  binaryIdx := p.binaryIdx.toInt
  sectionIdx := p.sectionIdx.toInt
  sectionOffset := p.offset

/-- The indices are `int32_t`. -/
structure Fits (l : ProgramLocation) : Prop where
  binaryIdx : IsInt32 l.binaryIdx
  sectionIdx : IsInt32 l.sectionIdx

end ProgramLocation

def SymbolType.toUInt32 : SymbolType → BitVec 32
  | .NOTYPE => 0
  | .DATA => 1
  | .FUNCTION => 2

/-- `static_cast<SymbolType>`, as far as the enumeration has a name for the value. -/
def SymbolType.ofUInt32 (n : BitVec 32) : Option SymbolType :=
  if n = 0 then some .NOTYPE
  else if n = 1 then some .DATA
  else if n = 2 then some .FUNCTION
  else none

def SymbolBinding.toUInt32 : SymbolBinding → BitVec 32
  | .LOCAL => 0
  | .GLOBAL => 1
  | .WEAK => 2
  | .unnamed value _ => value

/-- `static_cast<SymbolBinding>`. -/
def SymbolBinding.ofUInt32 (n : BitVec 32) : SymbolBinding :=
  if hn : 2 < n.toNat then .unnamed n hn
  else if n = 0 then .LOCAL
  else if n = 1 then .GLOBAL
  else .WEAK

namespace Symbol

def toProto (s : Symbol) : Persistence.Symbol where
  name := s.name
  location := s.location.toProto
  size := s.size
  stType := s.symbolType.toUInt32
  stBind := s.symbolBinding.toUInt32

def fromProto (p : Persistence.Symbol) : Option Symbol := do
  let symbolType ← SymbolType.ofUInt32 p.stType
  return ⟨p.name, ProgramLocation.fromProto p.location, p.size, symbolType,
    SymbolBinding.ofUInt32 p.stBind⟩

end Symbol

namespace Relocation

def toProto (r : Relocation) : Persistence.Relocation where
  location := r.source.toProto
  target := r.destination.toProto
  type := r.type.setWidth 32
  addend := BitVec.ofInt 32 r.addend

def fromProto (p : Persistence.Relocation) : Relocation where
  source := ProgramLocation.fromProto p.location
  destination := ProgramLocation.fromProto p.target
  type := p.type.setWidth 8
  addend := p.addend.toInt

/-- The indices and the addend are `int32_t`. -/
structure Fits (r : Relocation) : Prop where
  source : r.source.Fits
  destination : r.destination.Fits
  addend : IsInt32 r.addend

end Relocation

namespace SymbolTable

def toProto (t : SymbolTable) : Persistence.SymbolTable where
  symbols := t.symbols.map Symbol.toProto

/-- The table with both of its indexes built anew. -/
def reindexed (t : SymbolTable) : SymbolTable := t.constructLocationIndex.constructNameIndex

def fromProto (p : Persistence.SymbolTable) : Option SymbolTable := do
  let symbols ← p.symbols.mapM Symbol.fromProto
  return (symbols.foldl pushBack {}).reindexed

end SymbolTable

namespace RelocationTable

def toProto (t : RelocationTable) : Persistence.RelocTable where
  relocs := t.relocs.map Relocation.toProto

def fromProto (p : Persistence.RelocTable) : RelocationTable :=
  ((p.relocs.map Relocation.fromProto).foldl pushBack {}).constructSourceIndex

end RelocationTable

/-! ### The trip of one entry -/

/-- A signed number through an unsigned field. -/
theorem IsInt32.toInt_ofInt {x : Int} (h : IsInt32 x) : (BitVec.ofInt 32 x).toInt = x := by
  obtain ⟨hlo, hhi⟩ := h
  rw [BitVec.toInt_ofInt]
  apply Int.bmod_eq_of_le_mul_two <;> omega

@[simp] theorem SymbolType.ofUInt32_toUInt32 (t : SymbolType) : ofUInt32 t.toUInt32 = some t := by
  cases t <;> rfl

@[simp] theorem SymbolBinding.ofUInt32_toUInt32 (b : SymbolBinding) :
    ofUInt32 b.toUInt32 = b := by
  cases b with
  | unnamed value beyond => rw [toUInt32, ofUInt32, dif_pos beyond]
  | _ => rfl

theorem ProgramLocation.Fits.fromProto_toProto {l : ProgramLocation} (h : l.Fits) :
    fromProto l.toProto = l := by
  simp only [fromProto, toProto, h.binaryIdx.toInt_ofInt, h.sectionIdx.toInt_ofInt]

theorem Symbol.fromProto_toProto {s : Symbol} (h : s.location.Fits) :
    fromProto s.toProto = some s := by
  simp only [fromProto, toProto, SymbolType.ofUInt32_toUInt32, SymbolBinding.ofUInt32_toUInt32,
    h.fromProto_toProto]
  rfl

theorem Relocation.Fits.fromProto_toProto {r : Relocation} (h : r.Fits) :
    fromProto r.toProto = r := by
  have htype : (r.type.setWidth 32).setWidth 8 = r.type := by
    rw [BitVec.setWidth_setWidth_of_le _ (by decide), BitVec.setWidth_eq]
  simp only [fromProto, toProto, htype, h.source.fromProto_toProto,
    h.destination.fromProto_toProto, h.addend.toInt_ofInt]

/-! ### The trip of the tables -/

/-- Entries that each survive the trip survive it as a list. -/
theorem mapM_map_of_inverse {α β : Type} {out : α → β} {back : β → Option α} (xs : List α)
    (h : ∀ x ∈ xs, back (out x) = some x) : (xs.map out).mapM back = some xs := by
  induction xs with
  | nil => rfl
  | cons x rest ih =>
    have hrest := ih fun y hy => h y (List.mem_cons_of_mem x hy)
    simp only [List.map_cons, List.mapM_cons, h x (List.mem_cons_self ..), hrest]
    rfl

theorem SymbolTable.symbols_foldl_pushBack (t : SymbolTable) (symbols : List Symbol) :
    symbols.foldl pushBack t = {t with symbols := t.symbols ++ symbols} := by
  induction symbols generalizing t with
  | nil => simp
  | cons s rest ih => simp [ih, pushBack]

theorem RelocationTable.relocs_foldl_pushBack (t : RelocationTable) (relocs : List Relocation) :
    relocs.foldl pushBack t = {t with relocs := t.relocs ++ relocs} := by
  induction relocs generalizing t with
  | nil => simp
  | cons r rest ih => simp [ih, pushBack]

theorem SymbolTable.fromProto_toProto (t : SymbolTable)
    (hfits : ∀ s ∈ t.symbols, s.location.Fits) : fromProto t.toProto = some t.reindexed := by
  have hsymbols : (t.symbols.map Symbol.toProto).mapM Symbol.fromProto = some t.symbols :=
    mapM_map_of_inverse t.symbols fun s hs => Symbol.fromProto_toProto (hfits s hs)
  simp only [fromProto, toProto, hsymbols, Option.bind_eq_bind, Option.bind_some,
    symbols_foldl_pushBack, List.nil_append]
  rfl

theorem RelocationTable.fromProto_toProto (t : RelocationTable)
    (hfits : ∀ r ∈ t.relocs, r.Fits) : fromProto t.toProto = t.constructSourceIndex := by
  have hrelocs : (t.relocs.map Relocation.toProto).map Relocation.fromProto = t.relocs := by
    rw [List.map_map]
    calc t.relocs.map (Relocation.fromProto ∘ Relocation.toProto)
        = t.relocs.map id := List.map_congr_left fun r hr => (hfits r hr).fromProto_toProto
      _ = t.relocs := List.map_id _
  simp only [fromProto, toProto, hrelocs, relocs_foldl_pushBack, List.nil_append]
  rfl

/-- **The tables survive being saved and read back**: the entries are the same in the
same order, and every lookup answers as it does once the indexes are rebuilt. -/
theorem tables_roundTrip (symtab : SymbolTable) (reloctab : RelocationTable)
    (hsymbols : ∀ s ∈ symtab.symbols, s.location.Fits) (hrelocs : ∀ r ∈ reloctab.relocs, r.Fits) :
    ∃ symtab' reloctab', SymbolTable.fromProto symtab.toProto = some symtab' ∧
      RelocationTable.fromProto reloctab.toProto = reloctab' ∧
      symtab'.symbols = symtab.symbols ∧ reloctab'.relocs = reloctab.relocs ∧
      (∀ name, symtab'.lookupByName name = symtab.constructNameIndex.lookupByName name) ∧
      (∀ l, symtab'.lookupByLocation l = symtab.constructLocationIndex.lookupByLocation l) ∧
      (∀ l, reloctab'.lookupBySource l = reloctab.constructSourceIndex.lookupBySource l) ∧
      ∀ l, reloctab'.lookupByInsnLoc l = reloctab.constructSourceIndex.lookupByInsnLoc l := by
  refine ⟨_, _, symtab.fromProto_toProto hsymbols, reloctab.fromProto_toProto hrelocs, ?_⟩
  exact ⟨rfl, rfl, fun _ => rfl, fun _ => rfl, fun _ => rfl, fun _ => rfl⟩

/-- Two symbols of one name at one place, one of them weak, and a relocation of type 255
from there with a negative addend into a section that has no index. -/
theorem tables_roundTrip_duplicates :
    let l : ProgramLocation := ⟨⟨-1, 0xfffffffc⟩, 0⟩
    let symtab : SymbolTable := { symbols := [⟨"twice", l, 4, .DATA, .GLOBAL⟩,
      ⟨"twice", l, 0xffffffff, .NOTYPE, .WEAK⟩] }
    let reloctab : RelocationTable := { relocs := [⟨l, ⟨⟨-2 ^ 31, 0⟩, 2 ^ 31 - 1⟩, 255, -4⟩] }
    ∃ symtab' reloctab', SymbolTable.fromProto symtab.toProto = some symtab' ∧
      RelocationTable.fromProto reloctab.toProto = reloctab' ∧
      symtab'.symbols = symtab.symbols ∧ reloctab'.relocs = reloctab.relocs ∧
      (∀ name, symtab'.lookupByName name = symtab.constructNameIndex.lookupByName name) ∧
      (∀ l, symtab'.lookupByLocation l = symtab.constructLocationIndex.lookupByLocation l) ∧
      (∀ l, reloctab'.lookupBySource l = reloctab.constructSourceIndex.lookupBySource l) ∧
      ∀ l, reloctab'.lookupByInsnLoc l = reloctab.constructSourceIndex.lookupByInsnLoc l := by
  refine tables_roundTrip _ _ ?_ ?_
  · rintro s hs
    simp only [List.mem_cons, List.not_mem_nil, or_false] at hs
    obtain rfl | rfl := hs <;> exact ⟨by decide, by decide⟩
  · rintro r hr
    simp only [List.mem_singleton] at hr
    subst hr
    exact ⟨⟨by decide, by decide⟩, ⟨by decide, by decide⟩, by decide⟩

end Ppc2cpp
