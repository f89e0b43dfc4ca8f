import Ppc2cpp.Analysis.ProgramChecks
import Ppc2cpp.ControlFlow.Assembled

/-! When the comparison of two programs returns.

Comparing relocations to local symbols compares the words of the symbols and so the
relocations at those words, and nothing is remembered of the pairs that are being
compared already. `comparePrograms_returns_iff`: the comparison returns exactly when no
pair of relocations it gets to leads back to itself. A static function that calls itself
is such a pair. -/
namespace Ppc2cpp

/-! ### Everything else returns -/

/-- A computation that does not run out of fuel. -/
def Returns {α : Type} (x : Except Error α) : Prop := x ≠ .error .outOfFuel

section Returns
variable {α β : Type}

@[simp] theorem returns_ok (a : α) : Returns (.ok a) := by simp [Returns]

@[simp] theorem returns_pure (a : α) : Returns (pure a) := returns_ok a

@[simp] theorem returns_error (e : Error) : Returns (.error e : Except Error α) ↔ e ≠ .outOfFuel := by
  simp [Returns]

theorem Returns.bind_of_ok {x : Except Error α} {f : α → Except Error β} (hx : Returns x)
    (hf : ∀ a, x = .ok a → Returns (f a)) : Returns (x >>= f) := by
  cases x with
  | ok a => exact hf a rfl
  | error e =>
    intro h
    exact hx (congrArg Except.error (Except.error.inj h))

theorem Returns.bind {x : Except Error α} {f : α → Except Error β} (hx : Returns x)
    (hf : ∀ a, Returns (f a)) : Returns (x >>= f) :=
  hx.bind_of_ok fun a _ => hf a

theorem at?_returns (xs : List α) (i : Nat) : Returns (at? xs i) := by
  unfold at?
  cases xs[i]? <;> simp

theorem assertSome_returns (x : Option α) {message : Except Error String} (h : Returns message) :
    Returns (assertSome x message) := by
  cases x with
  | some a => simp [assertSome]
  | none => exact h.bind fun text => by simp [throw, throwThe, MonadExceptOf.throw]

end Returns

theorem Binary.section?_returns (b : Binary) (idx : Int) : Returns (b.section? idx) := by
  unfold section?
  split
  · simp
  · exact at?_returns _ _

namespace ProgramLoader
variable (L : ProgramLoader) (l : ProgramLocation)

theorem binary?_returns (idx : Int) : Returns (L.binary? idx) := by
  unfold binary?
  split
  · simp
  · exact at?_returns _ _

theorem getBufferAtLocation_returns : Returns (L.getBufferAtLocation l) :=
  (L.binary?_returns _).bind fun b => (b.section?_returns _).bind fun _ => returns_pure _

theorem locationString_returns : Returns (L.locationString l) :=
  (L.binary?_returns _).bind fun b => (b.section?_returns _).bind fun _ => returns_pure _

end ProgramLoader

namespace ProgramComparator
open ProgramCheck

variable (C : ProgramComparator)

theorem buffersAt_returns (sourceSym targetSym : Symbol) (pos1 pos2 : ProgramLocation) :
    Returns (C.buffersAt sourceSym targetSym pos1 pos2) := by
  unfold buffersAt
  refine (C.pLoader1.getBufferAtLocation_returns _).bind fun maybeBuf1 => ?_
  refine (assertSome_returns _ ?_).bind fun buf1 => ?_
  · exact (C.pLoader1.locationString_returns _).bind fun _ => returns_pure _
  refine (C.pLoader2.getBufferAtLocation_returns _).bind fun maybeBuf2 => ?_
  refine (assertSome_returns _ ?_).bind fun buf2 => returns_pure _
  exact (C.pLoader2.locationString_returns _).bind fun _ => returns_pure _

theorem sectionType_returns (L : ProgramLoader) (l : ProgramLocation) :
    Returns (sectionType L l) :=
  (L.binary?_returns _).bind fun b => (b.section?_returns _).bind fun _ => returns_pure _

end ProgramComparator

namespace ProgramComparator
open ProgramCheck

variable (C : ProgramComparator)

/-- A check that returns, or asks about relocations of the two programs. -/
def Within : ProgramCheck → Prop
  | .settled x => Returns x
  | .ask pair _ => pair.1 ∈ C.pLoader1.reloctab.relocs ∧ pair.2 ∈ C.pLoader2.reloctab.relocs

theorem wordCheck_within {lookup : RelocationTable → ProgramLocation → Option Relocation}
    (hlookup : ∀ (t : RelocationTable) l r, lookup t l = some r → r ∈ t.relocs)
    (masked : Relocation → Word → Word → Bool) (sourceSym targetSym : Symbol) (i : Int) :
    C.Within (C.wordCheck lookup masked sourceSym targetSym i) := by
  have hbuffers := C.buffersAt_returns sourceSym targetSym (targetSym.location.add (4 * i))
    (sourceSym.location.add (4 * i))
  unfold wordCheck
  dsimp only
  split
  · next reloc1 reloc2 h1 h2 =>
    split
    · exact ⟨hlookup _ _ _ h1, hlookup _ _ _ h2⟩
    · next e he =>
      rw [he] at hbuffers
      simpa [Within] using hbuffers
  · split
    · simp [Within]
    · next e he =>
      rw [he] at hbuffers
      simpa [Within] using hbuffers
  · simp [Within]

theorem wordChecks_within {lookup : RelocationTable → ProgramLocation → Option Relocation}
    (hlookup : ∀ (t : RelocationTable) l r, lookup t l = some r → r ∈ t.relocs)
    (masked : Relocation → Word → Word → Bool) (sourceSym targetSym : Symbol) :
    ∀ c ∈ C.wordChecks lookup masked sourceSym targetSym, C.Within c := by
  intro c hc
  obtain ⟨i, _, rfl⟩ := List.mem_map.mp hc
  exact C.wordCheck_within hlookup masked sourceSym targetSym i

/-- A comparison all of whose checks are within the programs. -/
def ListWithin (x : Except Error (List ProgramCheck)) : Prop := ∀ c ∈ listOf x, C.Within c

theorem listWithin_error {e : Error} (h : e ≠ .outOfFuel) : C.ListWithin (.error e) := by
  intro c hc
  rw [List.mem_singleton.mp hc]
  simpa [Within] using h

theorem listWithin_settled {x : Except Error Bool} (h : Returns x) :
    C.ListWithin (pure [.settled x]) := by
  intro c hc
  rw [List.mem_singleton.mp hc]
  exact h

theorem listWithin_bind {α : Type} {x : Except Error α} {k : α → Except Error (List ProgramCheck)}
    (hx : Returns x) (hk : ∀ a, C.ListWithin (k a)) : C.ListWithin (x >>= k) := by
  cases x with
  | ok a => exact hk a
  | error e => exact C.listWithin_error ((returns_error e).mp hx)

theorem dataChecks_within (sourceSym targetSym : Symbol) :
    C.ListWithin (C.dataChecks sourceSym targetSym) := by
  refine C.listWithin_bind (C.buffersAt_returns _ _ _ _) fun (buf1, buf2) => ?_
  dsimp only
  split
  · exact C.wordChecks_within (fun _ _ _ => RelocationTable.mem_of_lookupBySource) _ _ _
  · split
    · exact C.listWithin_error (by simp)
    · exact C.listWithin_settled (returns_ok _)

theorem functionChecks_within (sourceSym targetSym : Symbol) :
    C.ListWithin (C.functionChecks sourceSym targetSym) := by
  unfold functionChecks
  split
  · exact C.listWithin_error (by simp)
  · exact C.wordChecks_within (fun _ _ _ => RelocationTable.mem_of_lookupByInsnLoc) _ _ _

theorem symbolChecks_within (sourceSym targetSym : Symbol) :
    C.ListWithin (C.symbolChecks sourceSym targetSym) := by
  refine C.listWithin_bind (sectionType_returns _ _) fun symSectionType2 => ?_
  refine C.listWithin_bind (sectionType_returns _ _) fun symSectionType1 => ?_
  split
  · exact C.listWithin_settled (returns_ok _)
  · cases symSectionType1 with
    | TEXT => exact C.functionChecks_within sourceSym targetSym
    | DATA => exact C.dataChecks_within sourceSym targetSym
    | NOLOAD => exact fun c hc => absurd hc (by simp [listOf, pure, Except.pure])
    | BSS => exact fun c hc => absurd hc (by simp [listOf, pure, Except.pure])

/-- What two locations are called in a message. -/
theorem message_returns (L : ProgramLoader) (before between : String) (l l' : ProgramLocation) :
    Returns (do return before ++ (← L.locationString l) ++ between ++ (← L.locationString l')) :=
  (L.locationString_returns l).bind fun _ => (L.locationString_returns l').bind fun _ =>
    returns_pure _

theorem questions_within (pair : RelocationPair) : ∀ c ∈ C.questions pair, C.Within c := by
  show C.ListWithin (C.relocationChecks pair)
  obtain ⟨reloc1, reloc2⟩ := pair
  refine C.listWithin_bind (assertSome_returns _ (message_returns _ _ _ _ _)) fun relocSym1 => ?_
  refine C.listWithin_bind (assertSome_returns _ (message_returns _ _ _ _ _)) fun relocSym2 => ?_
  split
  · exact C.symbolChecks_within relocSym1 relocSym2
  · exact C.listWithin_settled (returns_ok _)

theorem programChecks_within : ∀ c ∈ C.programChecks, C.Within c := by
  intro c hc
  obtain ⟨targetSym, _, hc⟩ := List.mem_flatMap.mp hc
  unfold targetChecks at hc
  split at hc
  · cases hc
  · split at hc
    · rw [List.mem_singleton.mp hc]
      exact returns_ok _
    · next sourceSym _ => exact C.symbolChecks_within sourceSym targetSym c hc

/-! ### The pairs a comparison gets to -/

/-- A pair of relocations leads to another: the relocations refer to symbols, one of them
local, with relocations at a word, and the words before it compare equal. -/
def Leads (pair pair' : RelocationPair) : Prop := Checklist.Reaches C.questions pair pair'

/-- A pair the comparison of the programs gets to. -/
def Compared (pair : RelocationPair) : Prop :=
  ∃ start, Checklist.ReachedIn C.questions C.programChecks start ∧
    Relation.ReflTransGen C.Leads start pair

theorem mem_of_reachedIn {cs : List ProgramCheck} (hcs : ∀ c ∈ cs, C.Within c)
    {pair : RelocationPair} (h : Checklist.ReachedIn C.questions cs pair) :
    pair.1 ∈ C.pLoader1.reloctab.relocs ∧ pair.2 ∈ C.pLoader2.reloctab.relocs := by
  obtain ⟨before, after, rest, rfl, _⟩ := h
  exact hcs (.ask pair after) (by simp)

/-- From a pair of relocations of the programs only such pairs are reached. -/
theorem finite_leads {start : RelocationPair} (hstart : start.1 ∈ C.pLoader1.reloctab.relocs ∧
      start.2 ∈ C.pLoader2.reloctab.relocs) :
    {pair | Relation.ReflTransGen C.Leads start pair}.Finite := by
  have hsub : {pair | Relation.ReflTransGen C.Leads start pair} ⊆
      {r | r ∈ C.pLoader1.reloctab.relocs} ×ˢ {r | r ∈ C.pLoader2.reloctab.relocs} := by
    intro pair hpair
    induction hpair with
    | refl => exact hstart
    | tail _ hstep _ => exact C.mem_of_reachedIn (C.questions_within _) hstep
  exact (Set.Finite.prod (List.finite_toSet _) (List.finite_toSet _)).subset hsub

theorem ne_stuck_of_within {c : ProgramCheck} (h : C.Within c) :
    c ≠ .settled (.error .outOfFuel) := by
  rintro rfl
  exact h rfl

/-- **The comparison of two programs returns exactly when no pair of relocations it gets
to leads back to itself.** -/
theorem comparePrograms_returns_iff :
    (∃ fuel, Returns (C.comparePrograms fuel)) ↔
      ∀ pair, C.Compared pair → ¬ Relation.TransGen C.Leads pair pair := by
  have hquestions : ∀ pair, ∀ c ∈ C.questions pair, c ≠ .settled (.error .outOfFuel) :=
    fun pair c hc => C.ne_stuck_of_within (C.questions_within pair c hc)
  have hprogram : ∀ c ∈ C.programChecks, c ≠ .settled (.error .outOfFuel) :=
    fun c hc => C.ne_stuck_of_within (C.programChecks_within c hc)
  have hacc := Checklist.exists_runAll_ne_iff_acc hquestions hprogram
  simp only [Returns, C.comparePrograms_eq]
  rw [hacc]
  constructor
  · rintro h pair ⟨start, hstart, hpair⟩
    have hfinite := C.finite_leads (C.mem_of_reachedIn C.programChecks_within hstart)
    exact (Checklist.acc_iff_forall_not_transGen hfinite).mp (h start hstart) pair hpair
  · intro h start hstart
    have hfinite := C.finite_leads (C.mem_of_reachedIn C.programChecks_within hstart)
    exact (Checklist.acc_iff_forall_not_transGen hfinite).mpr fun pair hpair =>
      h pair ⟨start, hstart, hpair⟩

end ProgramComparator

theorem ProgramLoader.sectionType_of_section? {L : ProgramLoader} {l : ProgramLocation}
    {s : BinarySection} (h : L.section? l = .ok s) :
    ProgramComparator.sectionType L l = .ok s.type := by
  obtain ⟨b, hb, hs⟩ := bind_eq_ok.mp h
  simp only [ProgramComparator.sectionType, bind_eq_ok]
  exact ⟨b, hb, s, hs, rfl⟩

/-! ### A static function that calls itself -/

/-- The symbol lies inside its section. -/
def ProgramLoader.Encloses (L : ProgramLoader) (sym : Symbol) : Prop :=
  ∃ s, L.section? sym.location = .ok s ∧
    sym.location.sectionOffset.toNat + sym.size.toNat ≤ s.length.toNat

instance (L : ProgramLoader) (sym : Symbol) : Decidable (L.Encloses sym) :=
  match h : L.section? sym.location with
  | .ok s => decidable_of_iff
      (sym.location.sectionOffset.toNat + sym.size.toNat ≤ s.length.toNat)
      ⟨fun hle => ⟨s, h, hle⟩, fun ⟨s', hs', hle⟩ => by
        rw [h] at hs'
        cases hs'
        exact hle⟩
  | .error e => .isFalse fun ⟨s, hs, _⟩ => by
      rw [h] at hs
      cases hs

/-- Every relocation refers to a symbol, and every symbol lies inside its section. -/
structure ProgramLoader.WellReferenced (L : ProgramLoader) : Prop where
  named : ∀ r ∈ L.reloctab.relocs, (L.symtab.lookupByLocation r.destination).isSome
  enclosed : ∀ s ∈ L.symtab.symbols, L.Encloses s

/-- `main: bl helper`, `helper: bl helper`, with `helper` static. -/
def staticRecursion : ProgramLoader :=
  assembled [0x48000005, 0x48000001]
    (SymbolTable.constructNameIndex (SymbolTable.constructLocationIndex
      { symbols := [⟨"main", ⟨⟨0, 0⟩, 0⟩, 4, .FUNCTION, .GLOBAL⟩,
          ⟨"helper", ⟨⟨0, 4⟩, 0⟩, 4, .FUNCTION, .LOCAL⟩] }))
    (RelocationTable.constructSourceIndex
      { relocs := [⟨⟨⟨0, 0⟩, 0⟩, ⟨⟨0, 4⟩, 0⟩, relocREL24, 0⟩,
          ⟨⟨⟨0, 4⟩, 0⟩, ⟨⟨0, 4⟩, 0⟩, relocREL24, 0⟩] })

theorem staticRecursion_wellReferenced : staticRecursion.WellReferenced where
  named := by decide
  enclosed := by decide

namespace ProgramComparator

/-- A pair of relocations that leads to itself and to nothing else. -/
theorem answer_stuck {C : ProgramComparator} {pair : RelocationPair} {yes : Bool}
    (hquestion : C.questions pair = [.ask pair yes]) (fuel : Nat) :
    Checklist.answer .outOfFuel C.questions fuel pair = .error .outOfFuel := by
  induction fuel with
  | zero => rfl
  | succ fuel ih => rw [Checklist.answer, hquestion, Checklist.runAll_ask_of_stuck yes [] ih]

theorem compareRelocations_stuck {C : ProgramComparator} {reloc1 reloc2 : Relocation} {yes : Bool}
    (hquestion : C.questions (reloc1, reloc2) = [.ask (reloc1, reloc2) yes]) (fuel : Nat) :
    C.compareRelocations fuel reloc1 reloc2 = .error .outOfFuel := by
  rw [compareRelocations_eq]
  exact answer_stuck hquestion fuel

/-- The call inside `helper`, compared with itself, is compared by comparing it with
itself: on no fuel does the comparison return. -/
theorem staticRecursion_diverges : ¬ ∀ C : ProgramComparator,
    C.pLoader1.WellReferenced → C.pLoader2.WellReferenced →
    ∃ fuel, Returns (C.comparePrograms fuel) := by
  intro hall
  let C : ProgramComparator := ⟨Excerpt.ppcdisasm, staticRecursion, staticRecursion⟩
  obtain ⟨fuel, hreturns⟩ :=
    hall C staticRecursion_wellReferenced staticRecursion_wellReferenced
  let call : Relocation := ⟨⟨⟨0, 4⟩, 0⟩, ⟨⟨0, 4⟩, 0⟩, relocREL24, 0⟩
  have hstuck : ∀ fuel, Checklist.answer .outOfFuel C.questions fuel (call, call) =
      .error .outOfFuel := answer_stuck rfl
  have hmain : Checklist.ReachedIn C.questions C.programChecks
      (⟨⟨⟨0, 0⟩, 0⟩, ⟨⟨0, 4⟩, 0⟩, relocREL24, 0⟩, ⟨⟨⟨0, 0⟩, 0⟩, ⟨⟨0, 4⟩, 0⟩, relocREL24, 0⟩) :=
    ⟨[], true, [], by rfl, by simp⟩
  rw [Returns, C.comparePrograms_eq] at hreturns
  have hfirst := Checklist.answer_ne_of_reachedIn hreturns hmain
  cases fuel with
  | zero => exact hfirst rfl
  | succ fuel => exact hfirst (Checklist.runAll_ask_of_stuck true [] (hstuck fuel))

end ProgramComparator

end Ppc2cpp
