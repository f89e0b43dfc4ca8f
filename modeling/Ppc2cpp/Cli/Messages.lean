import Ppc2cpp.Analysis.PpcdisCoverage
import Ppc2cpp.Cli.Project

/-! The message in a project file.

Opening it and saving it again gives the message back (`toProto_of_fromProto`), with more
entries in the tables if something was imported in between (`grown_withAnalysis`). -/
namespace Ppc2cpp

/-! ### A message opened and saved -/

theorem ProgramLocation.toProto_fromProto (p : Persistence.ProgramLocation) :
    (ProgramLocation.fromProto p).toProto = p := by
  simp [ProgramLocation.fromProto, ProgramLocation.toProto]

theorem SymbolType.toUInt32_of_ofUInt32 {n : BitVec 32} {t : SymbolType} (h : ofUInt32 n = some t) :
    t.toUInt32 = n := by
  unfold ofUInt32 at h
  split_ifs at h with h0 h1 h2
  · cases h
    exact h0.symm
  · cases h
    exact h1.symm
  · cases h
    exact h2.symm

theorem SymbolBinding.toUInt32_ofUInt32 (n : BitVec 32) : (ofUInt32 n).toUInt32 = n := by
  unfold ofUInt32
  split_ifs with hn h0 h1
  · rfl
  · exact h0.symm
  · exact h1.symm
  · apply BitVec.eq_of_toNat_eq
    rw [BitVec.toNat_eq] at h0 h1
    change 2 = n.toNat
    change n.toNat ≠ 0 at h0
    change n.toNat ≠ 1 at h1
    omega

theorem Symbol.toProto_of_fromProto {p : Persistence.Symbol} {s : Symbol}
    (h : Symbol.fromProto p = some s) : s.toProto = p := by
  simp only [Symbol.fromProto, Option.bind_eq_bind, Option.bind_eq_some_iff] at h
  obtain ⟨symbolType, htype, h⟩ := h
  cases h
  simp only [Symbol.toProto, SymbolType.toUInt32_of_ofUInt32 htype,
    SymbolBinding.toUInt32_ofUInt32, ProgramLocation.toProto_fromProto]

theorem Symbol.isSome_fromProto_toProto (s : Symbol) : (fromProto s.toProto).isSome = true := by
  simp only [fromProto, toProto, SymbolType.ofUInt32_toUInt32, SymbolBinding.ofUInt32_toUInt32]
  rfl

/-- The type of a relocation is a byte. -/
def Persistence.Relocation.TypeFits (r : Persistence.Relocation) : Prop := r.type.toNat < 2 ^ 8

theorem Relocation.toProto_fromProto {p : Persistence.Relocation} (h : p.TypeFits) :
    (Relocation.fromProto p).toProto = p := by
  have htype : (p.type.setWidth 8).setWidth 32 = p.type := by
    apply BitVec.eq_of_toNat_eq
    rw [BitVec.toNat_setWidth, BitVec.toNat_setWidth, Nat.mod_eq_of_lt h]
    exact Nat.mod_eq_of_lt p.type.isLt
  simp only [Relocation.fromProto, Relocation.toProto, ProgramLocation.toProto_fromProto, htype,
    BitVec.ofInt_toInt]

theorem Relocation.toProto_typeFits (r : Relocation) : r.toProto.TypeFits := by
  have hlt := r.type.isLt
  rw [Persistence.Relocation.TypeFits, Relocation.toProto, BitVec.toNat_setWidth]
  exact lt_of_le_of_lt (Nat.mod_le _ _) hlt

theorem mapM_eq_some_map {α β : Type} {f : α → Option β} {g : β → α}
    (hfg : ∀ a b, f a = some b → g b = a) {xs : List α} {ys : List β} (h : xs.mapM f = some ys) :
    ys.map g = xs := by
  induction xs generalizing ys with
  | nil =>
    cases h
    rfl
  | cons x xs ih =>
    simp only [List.mapM_cons, Option.bind_eq_bind, Option.bind_eq_some_iff] at h
    obtain ⟨y, hy, rest, hrest, h⟩ := h
    cases h
    rw [List.map_cons, hfg x y hy, ih hrest]

theorem SymbolTable.toProto_of_fromProto {p : Persistence.SymbolTable} {t : SymbolTable}
    (h : SymbolTable.fromProto p = some t) : t.toProto = p := by
  simp only [SymbolTable.fromProto, Option.bind_eq_bind, Option.bind_eq_some_iff] at h
  obtain ⟨symbols, hsymbols, h⟩ := h
  cases h
  have hmap := mapM_eq_some_map (fun _ _ => Symbol.toProto_of_fromProto) hsymbols
  rw [SymbolTable.toProto, SymbolTable.reindexed, SymbolTable.constructLocationIndex,
    SymbolTable.constructNameIndex, SymbolTable.symbols_foldl_pushBack]
  exact congrArg Persistence.SymbolTable.mk hmap

theorem RelocationTable.toProto_fromProto {p : Persistence.RelocTable}
    (h : ∀ r ∈ p.relocs, r.TypeFits) : (RelocationTable.fromProto p).toProto = p := by
  rw [RelocationTable.toProto, RelocationTable.fromProto, RelocationTable.constructSourceIndex,
    RelocationTable.relocs_foldl_pushBack]
  refine congrArg Persistence.RelocTable.mk ?_
  change List.map Relocation.toProto (p.relocs.map Relocation.fromProto) = p.relocs
  rw [List.map_map]
  calc p.relocs.map (Relocation.toProto ∘ Relocation.fromProto)
      = p.relocs.map id := List.map_congr_left fun r hr => Relocation.toProto_fromProto (h r hr)
    _ = p.relocs := List.map_id _

namespace Persistence.ProgramLoader

def paths (m : Persistence.ProgramLoader) : List String :=
  m.binaries.map Persistence.ProgramLoaderBinary.filePath

/-- The tables hold what the tool can write: types of symbols that there are, and types of
relocations that are bytes. -/
structure WellFormed (m : Persistence.ProgramLoader) : Prop where
  symbols : ∀ s ∈ m.symtab.symbols, (Symbol.fromProto s).isSome = true
  relocs : ∀ r ∈ m.reloctab.relocs, r.TypeFits

/-- The same binaries, and tables to the end of which something may have been added. -/
structure Grown (m m' : Persistence.ProgramLoader) : Prop where
  loaderType : m'.loaderType = m.loaderType
  paths : m'.paths = m.paths
  symbols : m.symtab.symbols <+: m'.symtab.symbols
  relocs : m.reloctab.relocs <+: m'.reloctab.relocs

theorem Grown.refl (m : Persistence.ProgramLoader) : m.Grown m :=
  ⟨rfl, rfl, List.prefix_refl _, List.prefix_refl _⟩

theorem Grown.trans {m m' m'' : Persistence.ProgramLoader} (h : m.Grown m') (h' : m'.Grown m'') :
    m.Grown m'' :=
  ⟨h'.loaderType.trans h.loaderType, h'.paths.trans h.paths, h.symbols.trans h'.symbols,
    h.relocs.trans h'.relocs⟩

end Persistence.ProgramLoader

theorem LoadedProgram.toProto_wellFormed (P : LoadedProgram) : P.toProto.WellFormed where
  symbols := by
    intro s hs
    obtain ⟨sym, _, rfl⟩ := List.mem_map.mp hs
    exact sym.isSome_fromProto_toProto
  relocs := by
    intro r hr
    obtain ⟨reloc, _, rfl⟩ := List.mem_map.mp hr
    exact reloc.toProto_typeFits

theorem LoadedProgram.paths_toProto (P : LoadedProgram) :
    P.toProto.paths = P.binaries.map LoadedBinary.filepath := by
  rw [Persistence.ProgramLoader.paths, LoadedProgram.toProto, List.map_map]
  rfl

/-- What a loaded program is saved as names what it was loaded from. -/
theorem LoadedProgram.loadProgram_paths {formats : Formats} {fuel : Nat} {fs : FileSystem}
    {loaderType : Persistence.ProgramLoaderType} {paths : List String} {P : LoadedProgram}
    (h : loadProgram formats fuel fs loaderType paths = .ok P) :
    P.toProto.loaderType = loaderType ∧ P.toProto.paths = paths := by
  obtain ⟨htype, hfiles⟩ := loadProgram_files h
  refine ⟨htype, ?_⟩
  have hpaths : List.Forall₂ (fun path b => LoadedBinary.filepath b = path) paths P.binaries :=
    hfiles.imp fun _ _ hb => hb.readFrom.filepath
  have heq : List.Forall₂ Eq (P.binaries.map LoadedBinary.filepath) paths :=
    List.forall₂_map_left_iff.mpr hpaths.flip
  rw [paths_toProto]
  rwa [List.forall₂_eq_eq_eq] at heq

/-- **What a message says is kept when it is opened and saved**, tables that it has none of
apart. -/
theorem LoadedProgram.toProto_of_fromProto {formats : Formats} {fuel : Nat} {fs : FileSystem}
    {m : Persistence.ProgramLoader} {P : LoadedProgram} (hwell : m.WellFormed)
    (h : fromProto formats fuel fs m = .ok P) : m.Grown P.toProto := by
  simp only [fromProto, bind_eq_ok] at h
  obtain ⟨programLoader, hload, symtab, hsymtab, h⟩ := h
  cases h
  obtain ⟨htype, hpaths⟩ := loadProgram_paths hload
  refine ⟨htype, hpaths, ?_, ?_⟩
  · unfold restoreSymtab at hsymtab
    split at hsymtab
    · cases hproto : SymbolTable.fromProto m.symtab with
      | none => simp [hproto] at hsymtab
      | some t =>
        rw [hproto] at hsymtab
        cases hsymtab
        change m.symtab.symbols <+: symtab.toProto.symbols
        rw [SymbolTable.toProto_of_fromProto hproto]
    · rename_i hnone
      rw [List.eq_nil_of_length_eq_zero (Nat.eq_zero_of_not_pos hnone)]
      exact List.nil_prefix
  · change m.reloctab.relocs <+: (restoreReloctab m.reloctab programLoader.reloctab).toProto.relocs
    unfold restoreReloctab
    split
    · rw [RelocationTable.toProto_fromProto hwell.relocs]
    · rename_i hnone
      rw [List.eq_nil_of_length_eq_zero (Nat.eq_zero_of_not_pos hnone)]
      exact List.nil_prefix

theorem SymbolTable.isSome_fromProto {p : Persistence.SymbolTable}
    (h : ∀ s ∈ p.symbols, (Symbol.fromProto s).isSome = true) :
    (fromProto p).isSome = true := by
  have hmapM : ∀ symbols : List Persistence.Symbol,
      (∀ s ∈ symbols, (Symbol.fromProto s).isSome = true) →
      (symbols.mapM Symbol.fromProto).isSome = true := by
    intro symbols hsymbols
    induction symbols with
    | nil => rfl
    | cons s symbols ih =>
      obtain ⟨hs, hrest⟩ := List.forall_mem_cons.mp hsymbols
      obtain ⟨sym, hsym⟩ := Option.isSome_iff_exists.mp hs
      obtain ⟨rest, hrest⟩ := Option.isSome_iff_exists.mp (ih hrest)
      rw [List.mapM_cons, hsym, hrest]
      rfl
  obtain ⟨symbols, hsymbols⟩ := Option.isSome_iff_exists.mp (hmapM p.symbols h)
  rw [fromProto, hsymbols]
  rfl

/-- The program of a well-formed message opens whenever its binaries load. -/
theorem LoadedProgram.exists_fromProto {formats : Formats} {fuel : Nat} {fs : FileSystem}
    {m : Persistence.ProgramLoader} {P₀ : LoadedProgram} (hwell : m.WellFormed)
    (hload : loadProgram formats fuel fs m.loaderType m.paths = .ok P₀) :
    ∃ P, fromProto formats fuel fs m = .ok P ∧ P.binaries = P₀.binaries := by
  have hsymtab : ∃ symtab, restoreSymtab m.symtab P₀.symtab = .ok symtab := by
    unfold restoreSymtab
    split_ifs
    · obtain ⟨t, ht⟩ := Option.isSome_iff_exists.mp (SymbolTable.isSome_fromProto hwell.symbols)
      rw [ht]
      exact ⟨t, rfl⟩
    · exact ⟨_, rfl⟩
  obtain ⟨symtab, hsymtab⟩ := hsymtab
  refine ⟨{P₀ with symtab := symtab, reloctab := restoreReloctab m.reloctab P₀.reloctab}, ?_, rfl⟩
  refine bind_eq_ok.mpr ⟨P₀, hload, ?_⟩
  exact bind_eq_ok.mpr ⟨symtab, hsymtab, rfl⟩

/-! ### Importing -/

theorem LoadedProgram.filepaths_withAnalysis {P : LoadedProgram} {L : ProgramLoader}
    (h : L.binaries.length = P.binaries.length) :
    (P.withAnalysis L).binaries.map LoadedBinary.filepath = P.binaries.map LoadedBinary.filepath := by
  have hzip : ∀ (bs : List LoadedBinary) (cs : List Binary), cs.length = bs.length →
      (List.zipWith (fun b binary => ({b with toBinary := binary} : LoadedBinary)) bs cs).map
        LoadedBinary.filepath = bs.map LoadedBinary.filepath := by
    intro bs
    induction bs with
    | nil => exact fun _ _ => rfl
    | cons b bs ih =>
      intro cs hlength
      cases cs with
      | nil => cases hlength
      | cons c cs =>
        rw [List.zipWith_cons_cons, List.map_cons, List.map_cons, ih cs (Nat.succ.inj hlength)]
  exact hzip P.binaries L.binaries h

/-- A program that was saved is the same with more in its tables. -/
theorem LoadedProgram.grown_withAnalysis {P : LoadedProgram} {L : ProgramLoader}
    (h : P.toProgramLoader.Added L) : P.toProto.Grown (P.withAnalysis L).toProto := by
  have hlength : L.binaries.length = P.binaries.length := by
    rw [h.binaries, toProgramLoader, List.length_map]
  refine ⟨rfl, ?_, h.symbols.map Symbol.toProto, h.relocs.map Relocation.toProto⟩
  rw [paths_toProto, paths_toProto, filepaths_withAnalysis hlength]

end Ppc2cpp
