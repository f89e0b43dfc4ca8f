import Ppc2cpp.Lib.AddressRange
import Ppc2cpp.ProgramLoader.Formats
import Ppc2cpp.ProgramLoader.ProgramLoader

/-! Addresses and the sections that claim them.

An address is looked up by searching the sections of all binaries in order.
`resolveVMA` and `containsAddress` compare with the end of a section, which wraps
around at the top of the address space; `getBufferAtAddress` compares the distance from
the address field, also where the field says that there is no address. -/
namespace Ppc2cpp

namespace BinarySection

/-- The addresses of a section whose address is known. -/
def range? (s : BinarySection) : Option (AddressRange 32) :=
  s.getAddress.map fun addr => ⟨addr, s.length⟩

/-- The section is the one an address search stops at. -/
def claims (s : BinarySection) (vma : BitVec 32) : Bool := s.range?.any (·.testEnd vma)

theorem claims_eq_true {s : BinarySection} {vma : BitVec 32} :
    s.claims vma = true ↔ ∃ r, s.range? = some r ∧ r.testEnd vma = true := by
  simp [claims, Option.any_eq_true]

theorem range?_eq_some {s : BinarySection} {r : AddressRange 32} :
    s.range? = some r ↔ s.getAddress = some r.start ∧ r.length = s.length := by
  unfold range?
  constructor
  · intro h
    obtain ⟨addr, haddr, hr⟩ := Option.map_eq_some_iff.mp h
    subst hr
    exact ⟨haddr, rfl⟩
  · intro h
    rw [h.1, ← h.2]
    rfl

end BinarySection

/-! ### The search through one binary -/

namespace Binary

/-- The search stops at the first section that claims the address. -/
theorem resolveVMAFrom_eq (vma : BitVec 32) (i : Nat) (sections : List BinarySection) :
    resolveVMAFrom vma i sections =
      (sections.findIdx? (·.claims vma)).bind fun k =>
        (sections[k]?.bind BinarySection.range?).map fun r =>
          (⟨(i + k : Nat), vma - r.start⟩ : BinaryLocation) := by
  induction sections generalizing i with
  | nil => rfl
  | cons s rest ih =>
    rw [resolveVMAFrom, List.findIdx?_cons]
    cases haddr : s.getAddress with
    | none =>
      have hclaims : s.claims vma = false := by simp [BinarySection.claims, BinarySection.range?, haddr]
      rw [hclaims, ih]
      simp [Option.bind_map, Nat.add_assoc, Nat.add_comm 1]
    | some addr =>
      have hclaims : s.claims vma = (addr.ule vma && vma.ult (addr + s.length)) := by
        simp [BinarySection.claims, BinarySection.range?, haddr, AddressRange.testEnd]
      rw [hclaims]
      dsimp only
      split
      · simp [BinarySection.range?, haddr]
      · rw [ih]
        simp [Option.bind_map, Nat.add_assoc, Nat.add_comm 1]

variable {b : Binary} {vma : BitVec 32}

theorem resolveVMA_eq_some {l : BinaryLocation} :
    b.resolveVMA vma = some l ↔ ∃ k s r, b.sections.findIdx? (·.claims vma) = some k ∧
      b.sections[k]? = some s ∧ s.range? = some r ∧ l = ⟨k, vma - r.start⟩ := by
  rw [resolveVMA, resolveVMAFrom_eq]
  simp only [Option.bind_eq_some_iff, Option.map_eq_some_iff, Nat.zero_add]
  constructor
  · rintro ⟨k, hk, r, ⟨s, hs, hr⟩, rfl⟩
    exact ⟨k, s, r, hk, hs, hr, rfl⟩
  · rintro ⟨k, s, r, hk, hs, hr, rfl⟩
    exact ⟨k, hk, r, ⟨s, hs, hr⟩, rfl⟩

theorem section?_eq_ok {idx : Int} {s : BinarySection} :
    b.section? idx = .ok s ↔ ∃ k : Nat, idx = k ∧ b.sections[k]? = some s :=
  at?_toNat_eq_ok

/-- A location that is found is in a section that claims the address. -/
theorem claims_of_resolveVMA {l : BinaryLocation} (h : b.resolveVMA vma = some l) :
    ∃ s r, b.section? l.sectionIdx = .ok s ∧ s.range? = some r ∧ r.testEnd vma = true ∧
      l.sectionOffset = vma - r.start := by
  obtain ⟨k, s, r, hk, hs, hr, rfl⟩ := resolveVMA_eq_some.mp h
  obtain ⟨hlt, hclaims, _⟩ := List.findIdx?_eq_some_iff_getElem.mp hk
  rw [List.getElem?_eq_getElem hlt, Option.some.injEq] at hs
  rw [hs] at hclaims
  obtain ⟨r', hr', htest⟩ := BinarySection.claims_eq_true.mp hclaims
  rw [hr] at hr'
  cases hr'
  exact ⟨s, r, section?_eq_ok.mpr ⟨k, rfl, by rw [List.getElem?_eq_getElem hlt, hs]⟩, hr, htest, rfl⟩

theorem resolveVMA_eq_none :
    b.resolveVMA vma = none ↔ ∀ s ∈ b.sections, s.claims vma = false := by
  rw [← List.findIdx?_eq_none_iff]
  constructor
  · intro h
    by_contra hne
    obtain ⟨k, hk⟩ := Option.ne_none_iff_exists'.mp hne
    obtain ⟨hlt, hclaims, _⟩ := List.findIdx?_eq_some_iff_getElem.mp hk
    obtain ⟨r, hr, _⟩ := BinarySection.claims_eq_true.mp hclaims
    have hfound := resolveVMA_eq_some.mpr
      ⟨k, b.sections[k], r, hk, List.getElem?_eq_getElem hlt, hr, rfl⟩
    rw [h] at hfound
    cases hfound
  · intro h
    rw [resolveVMA, resolveVMAFrom_eq, h]
    rfl

end Binary

/-! ### The search through a program -/

namespace ProgramLoader

/-- The addresses of the section of a location, if they are known. -/
def range? (L : ProgramLoader) (l : ProgramLocation) : Option (AddressRange 32) :=
  (L.section? l).toOption.bind BinarySection.range?

/-- No two sections with a known address share an address. -/
def SectionsApart (L : ProgramLoader) : Prop :=
  ∀ l l' r r', L.range? l = some r → L.range? l' = some r' →
    ¬ (l.binaryIdx = l'.binaryIdx ∧ l.sectionIdx = l'.sectionIdx) → r.Apart r'

/-- `ProgramLoader::getLocationVMA`. -/
def getLocationVMA (L : ProgramLoader) (location : ProgramLocation) :
    Except Error (Option (BitVec 32)) := do
  let s ← L.section? location
  return s.getAddress.map (· + location.sectionOffset)

variable {L : ProgramLoader} {l : ProgramLocation} {r : AddressRange 32} {vma : BitVec 32}

theorem binary?_eq_ok {idx : Int} {b : Binary} :
    L.binary? idx = .ok b ↔ ∃ i : Nat, idx = i ∧ L.binaries[i]? = some b :=
  at?_toNat_eq_ok

theorem section?_eq_ok {s : BinarySection} :
    L.section? l = .ok s ↔
      ∃ b, L.binary? l.binaryIdx = .ok b ∧ b.section? l.sectionIdx = .ok s :=
  bind_eq_ok

theorem range?_eq_some :
    L.range? l = some r ↔ ∃ s, L.section? l = .ok s ∧ s.range? = some r := by
  unfold range?
  cases L.section? l <;> simp [Except.toOption]

/-- The offset of a location plays no part. -/
theorem range?_congr {l' : ProgramLocation} (hb : l.binaryIdx = l'.binaryIdx)
    (hs : l.sectionIdx = l'.sectionIdx) : L.range? l = L.range? l' := by
  rw [range?, range?, section?, section?, hb, hs]

theorem getLocationVMA_eq_some :
    L.getLocationVMA l = .ok (some vma) ↔
      ∃ r, L.range? l = some r ∧ vma = r.start + l.sectionOffset := by
  simp only [getLocationVMA, bind_eq_ok, range?_eq_some]
  constructor
  · rintro ⟨s, hs, h⟩
    obtain ⟨addr, haddr, hvma⟩ := Option.map_eq_some_iff.mp (Except.ok.inj h)
    exact ⟨⟨addr, s.length⟩, ⟨s, hs, BinarySection.range?_eq_some.mpr ⟨haddr, rfl⟩⟩, hvma.symm⟩
  · rintro ⟨r, ⟨s, hs, hr⟩, hvma⟩
    refine ⟨s, hs, ?_⟩
    rw [(BinarySection.range?_eq_some.mp hr).1, hvma]
    rfl

theorem resolveVMAFrom_eq_some {i : Nat} {binaries : List Binary}
    (h : resolveVMAFrom vma i binaries = some l) :
    ∃ k b, binaries[k]? = some b ∧ l.binaryIdx = (i + k : Nat) ∧
      b.resolveVMA vma = some l.toBinaryLocation := by
  induction binaries generalizing i with
  | nil => cases h
  | cons b rest ih =>
    rw [resolveVMAFrom] at h
    split at h
    · next loc hloc =>
      cases h
      exact ⟨0, b, rfl, rfl, hloc⟩
    · obtain ⟨k, b', hk, hidx, hloc⟩ := ih h
      exact ⟨k + 1, b', hk, by rw [hidx]; omega, hloc⟩

theorem resolveVMAFrom_eq_none {i : Nat} {binaries : List Binary} :
    resolveVMAFrom vma i binaries = none ↔ ∀ b ∈ binaries, b.resolveVMA vma = none := by
  induction binaries generalizing i with
  | nil => simp [resolveVMAFrom]
  | cons b rest ih =>
    rw [resolveVMAFrom]
    cases hb : b.resolveVMA vma with
    | none => simpa [hb] using ih
    | some loc => simp [hb]

/-- A location that is found is in a section that claims the address. -/
theorem testEnd_of_resolveVMA (h : L.resolveVMA vma = some l) :
    ∃ r, L.range? l = some r ∧ r.testEnd vma = true ∧ l.sectionOffset = vma - r.start := by
  obtain ⟨k, b, hk, hidx, hloc⟩ := resolveVMAFrom_eq_some h
  obtain ⟨s, r, hs, hr, htest, hoff⟩ := Binary.claims_of_resolveVMA hloc
  have hb : L.binary? l.binaryIdx = .ok b := binary?_eq_ok.mpr ⟨k, by rw [hidx, Nat.zero_add], hk⟩
  exact ⟨r, range?_eq_some.mpr ⟨s, section?_eq_ok.mpr ⟨b, hb, hs⟩, hr⟩, htest, hoff⟩

theorem resolveVMA_eq_none :
    L.resolveVMA vma = none ↔ ∀ l r, L.range? l = some r → r.testEnd vma = false := by
  simp only [resolveVMA, resolveVMAFrom_eq_none, Binary.resolveVMA_eq_none]
  constructor
  · intro h l r hr
    obtain ⟨s, hs, hrange⟩ := range?_eq_some.mp hr
    obtain ⟨b, hb, hs⟩ := section?_eq_ok.mp hs
    obtain ⟨i, _, hb⟩ := binary?_eq_ok.mp hb
    obtain ⟨j, _, hs⟩ := Binary.section?_eq_ok.mp hs
    have hclaims := h b (List.mem_of_getElem? hb) s (List.mem_of_getElem? hs)
    simpa [BinarySection.claims, hrange] using hclaims
  · intro h b hb s hs
    obtain ⟨i, hi⟩ := List.mem_iff_getElem?.mp hb
    obtain ⟨j, hj⟩ := List.mem_iff_getElem?.mp hs
    apply Bool.eq_false_iff.mpr
    intro hclaims
    obtain ⟨r, hr, htest⟩ := BinarySection.claims_eq_true.mp hclaims
    have hsection : L.section? ⟨⟨j, 0⟩, i⟩ = .ok s := section?_eq_ok.mpr
      ⟨b, binary?_eq_ok.mpr ⟨i, rfl, hi⟩, Binary.section?_eq_ok.mpr ⟨j, rfl, hj⟩⟩
    have hfalse := h ⟨⟨j, 0⟩, i⟩ r (range?_eq_some.mpr ⟨s, hsection, hr⟩)
    rw [htest] at hfalse
    cases hfalse

/-- In disjoint sections at most one claims an address. -/
theorem SectionsApart.resolveVMA_eq_some (hdisjoint : L.SectionsApart) :
    L.resolveVMA vma = some l ↔
      ∃ r, L.range? l = some r ∧ r.testEnd vma = true ∧ l.sectionOffset = vma - r.start := by
  constructor
  · exact testEnd_of_resolveVMA
  · rintro ⟨r, hr, htest, hoff⟩
    cases hfound : L.resolveVMA vma with
    | none =>
      rw [resolveVMA_eq_none.mp hfound l r hr] at htest
      cases htest
    | some l' =>
      obtain ⟨r', hr', htest', hoff'⟩ := testEnd_of_resolveVMA hfound
      have hsame : l'.binaryIdx = l.binaryIdx ∧ l'.sectionIdx = l.sectionIdx := by
        by_contra hother
        exact hdisjoint l' l r' r hr' hr hother vma (AddressRange.testEnd_iff.mp htest').2
          (AddressRange.testEnd_iff.mp htest).2
      rw [range?_congr hsame.1 hsame.2, hr] at hr'
      cases hr'
      congr 1
      apply (ProgramLocation.eq_iff l' l).mpr
      refine ⟨(BinaryLocation.operatorEq_iff _ _).mpr ?_, hsame.1⟩
      rw [BinaryLocation.mk.injEq]
      exact ⟨hsame.2, by rw [hoff', hoff]⟩

/-- The sections with a known address: binary, section, addresses. -/
def placed (L : ProgramLoader) : List (Int × Int × AddressRange 32) :=
  L.binaries.zipIdx.flatMap fun p => p.1.sections.zipIdx.filterMap fun q =>
    q.1.range?.map fun r => (p.2, q.2, r)

theorem mem_placed {x : Int × Int × AddressRange 32} :
    x ∈ L.placed ↔ L.range? ⟨⟨x.2.1, 0⟩, x.1⟩ = some x.2.2 := by
  simp only [placed, List.mem_flatMap, List.mem_filterMap, Prod.exists, Option.map_eq_some_iff,
    List.mem_zipIdx_iff_getElem?, range?_eq_some, section?_eq_ok, binary?_eq_ok,
    Binary.section?_eq_ok]
  constructor
  · rintro ⟨b, i, hi, s, j, hj, r, hr, rfl⟩
    exact ⟨s, ⟨b, ⟨i, rfl, hi⟩, j, rfl, hj⟩, hr⟩
  · rintro ⟨s, ⟨b, ⟨i, hbi, hi⟩, j, hsj, hj⟩, hr⟩
    refine ⟨b, i, hi, s, j, hj, x.2.2, hr, ?_⟩
    rw [← hbi, ← hsj]

theorem mem_placed_of_range? (h : L.range? l = some r) :
    (l.binaryIdx, l.sectionIdx, r) ∈ L.placed :=
  mem_placed.mpr (by rw [← h]; exact range?_congr rfl rfl)

theorem forall_range?_iff {p : AddressRange 32 → Prop} :
    (∀ l r, L.range? l = some r → p r) ↔ ∀ x ∈ L.placed, p x.2.2 := by
  constructor
  · intro h x hx
    exact h _ _ (mem_placed.mp hx)
  · intro h l r hr
    exact h _ (mem_placed_of_range? hr)

instance (L : ProgramLoader) : Decidable L.SectionsApart :=
  decidable_of_iff (∀ x ∈ L.placed, ∀ y ∈ L.placed, ¬ (x.1 = y.1 ∧ x.2.1 = y.2.1) →
    x.2.2.Apart y.2.2) (by
      constructor
      · intro h l l' r r' hr hr' hother
        exact h _ (mem_placed_of_range? hr) _ (mem_placed_of_range? hr') hother
      · intro h x hx y hy hother
        exact h _ _ _ _ (mem_placed.mp hx) (mem_placed.mp hy) hother)

/-- Every section with a known address is inside the address space. -/
def InSpace (L : ProgramLoader) : Prop := ∀ l r, L.range? l = some r → r.Fits

instance (L : ProgramLoader) : Decidable L.InSpace :=
  decidable_of_iff' _ forall_range?_iff

/-! ### Address and location -/

/-- Addresses and the locations of sections with a known address are each other's inverse. -/
structure AddressesInvert (L : ProgramLoader) : Prop where
  resolveVMA_getLocationVMA : ∀ l r, L.range? l = some r →
    l.sectionOffset.toNat < r.length.toNat →
    ∃ vma, L.getLocationVMA l = .ok (some vma) ∧ L.resolveVMA vma = some l
  resolveVMA_isSome : ∀ vma, (L.resolveVMA vma).isSome = true ↔
    ∃ l r, L.range? l = some r ∧ r.Covers vma
  getLocationVMA_resolveVMA : ∀ vma l, L.resolveVMA vma = some l →
    L.getLocationVMA l = .ok (some vma)

/-- What is found has the address it was found by. -/
theorem getLocationVMA_of_resolveVMA (h : L.resolveVMA vma = some l) :
    L.getLocationVMA l = .ok (some vma) := by
  obtain ⟨r, hr, _, hoff⟩ := testEnd_of_resolveVMA h
  exact getLocationVMA_eq_some.mpr ⟨r, hr, by rw [hoff, BitVec.add_comm, BitVec.sub_add_cancel]⟩

/-- A place in a section whose end is an address is found again from its address. -/
theorem SectionsApart.resolveVMA_add (hdisjoint : L.SectionsApart) (hr : L.range? l = some r)
    (hend : r.EndFits) (hoff : l.sectionOffset.toNat < r.length.toNat) :
    L.resolveVMA (r.start + l.sectionOffset) = some l :=
  hdisjoint.resolveVMA_eq_some.mpr
    ⟨r, hr, AddressRange.testEnd_add hend hoff, by rw [BitVec.add_comm, BitVec.add_sub_cancel]⟩

/-- **Addresses and locations are each other's inverse iff no section ends at the very top
of the address space**, where the end of the section is no address and wraps to zero. -/
theorem addressesInvert_iff (hspace : L.InSpace) (hdisjoint : L.SectionsApart) :
    L.AddressesInvert ↔
      ∀ l r, L.range? l = some r → r.start.toNat + r.length.toNat ≠ 2 ^ 32 := by
  constructor
  · intro h l r hr htop
    have hlength := r.length.isLt
    have hstart := r.start.isLt
    let first : ProgramLocation := ⟨⟨l.sectionIdx, 0⟩, l.binaryIdx⟩
    have hfirst : L.range? first = some r := by
      rw [← hr]
      exact range?_congr rfl rfl
    obtain ⟨vma, _, hresolve⟩ := h.resolveVMA_getLocationVMA first r hfirst (by
      change (0 : Nat) < r.length.toNat
      omega)
    obtain ⟨r', hr', htest, _⟩ := testEnd_of_resolveVMA hresolve
    rw [hfirst] at hr'
    cases hr'
    have hend := (AddressRange.testEnd_iff.mp htest).1
    unfold AddressRange.EndFits at hend
    omega
  · intro h
    have hends : ∀ l r, L.range? l = some r → r.EndFits :=
      fun l r hr => (hspace l r hr).endFits (h l r hr)
    refine ⟨fun l r hr hoff => ?_, fun vma => ?_, fun vma l => getLocationVMA_of_resolveVMA⟩
    · exact ⟨_, getLocationVMA_eq_some.mpr ⟨r, hr, rfl⟩,
        hdisjoint.resolveVMA_add hr (hends l r hr) hoff⟩
    · rw [Option.isSome_iff_ne_none, ne_eq, resolveVMA_eq_none]
      push Not
      constructor
      · intro hfound
        obtain ⟨l, r, hr, htest⟩ := hfound
        exact ⟨l, r, hr, (AddressRange.testEnd_iff.mp (Bool.eq_true_of_not_eq_false htest)).2⟩
      · intro hcovers
        obtain ⟨l, r, hr, hcovers⟩ := hcovers
        refine ⟨l, r, hr, ?_⟩
        rw [AddressRange.testEnd_iff.mpr ⟨hends l r hr, hcovers⟩]
        exact Bool.noConfusion

end ProgramLoader

/-- A DOL with a section in the last page of the address space. -/
def lastPage : ProgramLoader where
  kind := .rvl
  binaries := [⟨"main.dol", .dol,
    [⟨".data", 0x100, 0x1000, .DATA, .dol 0xfffff000, []⟩]⟩]
  symtab := {}
  reloctab := {}

/-- Its first byte is at 0xfffff000, but nothing is found there. -/
theorem lastPage_not_addressesInvert :
    lastPage.InSpace ∧ lastPage.SectionsApart ∧ ¬ lastPage.AddressesInvert := by
  refine ⟨by decide, by decide, fun h => ?_⟩
  obtain ⟨vma, hvma, hresolve⟩ :=
    h.resolveVMA_getLocationVMA ⟨⟨0, 0⟩, 0⟩ ⟨0xfffff000, 0x1000⟩ (by rfl) (by decide)
  have haddr : vma = 0xfffff000 := by
    have hlocation : lastPage.getLocationVMA ⟨⟨0, 0⟩, 0⟩ = .ok (some 0xfffff000) := by rfl
    rw [hlocation] at hvma
    exact (Option.some.inj (Except.ok.inj hvma)).symm
  rw [haddr] at hresolve
  have hnone : lastPage.resolveVMA 0xfffff000 = none := by rfl
  rw [hnone] at hresolve
  cases hresolve

/-- A DOL of two sections, one behind the other: `.init` is `b .text`, `.text` is `blr`. -/
def twoSections : ProgramLoader where
  kind := .rvl
  binaries := [⟨"main.dol", .dol,
    [⟨".init", 0x100, 4, .TEXT, .dol 0x80003100, [0x48, 0x00, 0x00, 0x04]⟩,
      ⟨".text", 0x104, 4, .TEXT, .dol 0x80003104, [0x4e, 0x80, 0x00, 0x20]⟩]⟩]
  symtab := {}
  reloctab := {}

namespace ProgramLoader

theorem addressesInvert_iff_twoSections :
    twoSections.InSpace ∧ twoSections.SectionsApart ∧ (twoSections.AddressesInvert ↔
      ∀ l r, twoSections.range? l = some r → r.start.toNat + r.length.toNat ≠ 2 ^ 32) :=
  have hspace : twoSections.InSpace := by decide
  have hdisjoint : twoSections.SectionsApart := by decide
  ⟨hspace, hdisjoint, addressesInvert_iff hspace hdisjoint⟩

/-! ### Relative and absolute branches -/

variable {L : ProgramLoader} {pc : ProgramLocation} {r : AddressRange 32} {vma : BitVec 32}

/-- The place `targetOff` bytes from the start of `r`, which the section of a branch is at,
is one the section has and finds again from its address, or it is neither in the section
nor at an address that is found. -/
def ReachedAlike (L : ProgramLoader) (r : AddressRange 32) (targetOff : BitVec 32) : Prop :=
  if targetOff.toNat < r.length.toNat ∧ targetOff.toNat < 2 ^ 31 then r.EndFits
  else ∀ l r', L.range? l = some r' → r'.EndFits → ¬ r'.Covers (r.start + targetOff)

theorem resolveTarget_absolute (href : L.getReferenceAtLocation pc = .ok none) (val : Int) :
    L.resolveTarget pc val true = .ok (L.resolveVMA (BitVec.ofInt 32 val)) := by
  simp [resolveTarget, href, bind, Except.bind, pure, Except.pure]

theorem zero_le_toInt_iff (x : BitVec 32) : 0 ≤ x.toInt ↔ x.toNat < 2 ^ 31 := by
  rw [BitVec.toInt_eq_toNat_cond]
  split <;> omega

theorem resolveTarget_relative (href : L.getReferenceAtLocation pc = .ok none) (val : Int)
    {s : BinarySection} (hs : L.section? pc = .ok s) :
    L.resolveTarget pc val false = .ok
      (if (pc.sectionOffset + BitVec.ofInt 32 val).toNat < s.length.toNat ∧
          (pc.sectionOffset + BitVec.ofInt 32 val).toNat < 2 ^ 31
        then some (pc.add val) else none) := by
  obtain ⟨b, hb, hs⟩ := section?_eq_ok.mp hs
  have htest : (0 ≤ (pc.sectionOffset + BitVec.ofInt 32 val).toInt &&
      (pc.sectionOffset + BitVec.ofInt 32 val).ult s.length) = true ↔
      (pc.sectionOffset + BitVec.ofInt 32 val).toNat < s.length.toNat ∧
        (pc.sectionOffset + BitVec.ofInt 32 val).toNat < 2 ^ 31 := by
    rw [Bool.and_eq_true, decide_eq_true_eq, zero_le_toInt_iff, and_comm]
    simp only [BitVec.ult, decide_eq_true_eq]
  simp only [resolveTarget, href, hb, hs, bind, Except.bind, pure, Except.pure]
  by_cases hin : (pc.sectionOffset + BitVec.ofInt 32 val).toNat < s.length.toNat ∧
      (pc.sectionOffset + BitVec.ofInt 32 val).toNat < 2 ^ 31
  · rw [if_pos hin, if_pos (htest.mpr hin)]
    rfl
  · rw [if_neg hin, if_neg (fun h => hin (htest.mp h))]
    rfl

/-- **A relative branch goes where the absolute branch to the same address goes iff its
target is in its own section, or in no section at all.** The section must not end at the
top of the address space or beyond. -/
theorem resolveTarget_relative_iff (hdisjoint : L.SectionsApart)
    (hvma : L.getLocationVMA pc = .ok (some vma)) (hr : L.range? pc = some r)
    (href : L.getReferenceAtLocation pc = .ok none) (val : Int) :
    L.resolveTarget pc val false =
        L.resolveTarget pc (vma + BitVec.ofInt 32 val).toInt true ↔
      L.ReachedAlike r (pc.sectionOffset + BitVec.ofInt 32 val) := by
  obtain ⟨r', hr', hvma⟩ := getLocationVMA_eq_some.mp hvma
  rw [hr] at hr'
  cases hr'
  obtain ⟨s, hs, hrange⟩ := range?_eq_some.mp hr
  have hlength := (BinarySection.range?_eq_some.mp hrange).2
  rw [resolveTarget_absolute href, resolveTarget_relative href val hs, BitVec.ofInt_toInt, hvma,
    BitVec.add_assoc, ← hlength, ReachedAlike, Except.ok.injEq]
  by_cases hin : (pc.sectionOffset + BitVec.ofInt 32 val).toNat < r.length.toNat ∧
      (pc.sectionOffset + BitVec.ofInt 32 val).toNat < 2 ^ 31
  · rw [if_pos hin, if_pos hin]
    have hmoved : L.range? (pc.add val) = some r := hr
    constructor
    · intro hfound
      obtain ⟨r', hr', htest, _⟩ := testEnd_of_resolveVMA hfound.symm
      rw [hmoved] at hr'
      cases hr'
      exact (AddressRange.testEnd_iff.mp htest).1
    · intro hend
      exact (hdisjoint.resolveVMA_add hmoved hend hin.1).symm
  · rw [if_neg hin, if_neg hin, eq_comm, resolveVMA_eq_none]
    simp only [← Bool.not_eq_true, AddressRange.testEnd_iff, not_and]

/-- The branch of `.init` to `.text` is not resolved, although its target has an address
and the branch to that address is. -/
theorem twoSections_relative : ¬ ∀ (L : ProgramLoader) pc vma, L.SectionsApart →
    L.getLocationVMA pc = .ok (some vma) → L.getReferenceAtLocation pc = .ok none →
    ∀ val, L.resolveTarget pc val false =
      L.resolveTarget pc (vma + BitVec.ofInt 32 val).toInt true := by
  intro h
  have hsame := h twoSections ⟨⟨0, 0⟩, 0⟩ 0x80003100 (by decide) (by rfl) (by rfl) 4
  have hrelative : twoSections.resolveTarget ⟨⟨0, 0⟩, 0⟩ 4 false = .ok none := by rfl
  have habsolute : twoSections.resolveTarget ⟨⟨0, 0⟩, 0⟩
      ((0x80003100 : BitVec 32) + BitVec.ofInt 32 4).toInt true = .ok (some ⟨⟨1, 0⟩, 0⟩) := by rfl
  rw [hrelative, habsolute] at hsame
  cases hsame

theorem resolveTarget_relative_iff_twoSections :
    twoSections.resolveTarget ⟨⟨0, 0⟩, 0⟩ 4 false =
        twoSections.resolveTarget ⟨⟨0, 0⟩, 0⟩
          ((0x80003100 : BitVec 32) + BitVec.ofInt 32 4).toInt true ↔
      twoSections.ReachedAlike ⟨0x80003100, 4⟩ (0 + BitVec.ofInt 32 4) :=
  have hvma : twoSections.getLocationVMA ⟨⟨0, 0⟩, 0⟩ = .ok (some 0x80003100) := by rfl
  resolveTarget_relative_iff (by decide) hvma (by rfl) (by rfl) 4

end ProgramLoader

end Ppc2cpp
