import Ppc2cpp.ProgramLoader.Addresses

/-! The other address queries of a binary, next to `resolveVMA`.

`Binary::containsAddress` uses the answer of a section, true, false or none, as a
condition, so it asks whether there is an answer. `getSectionByAddress` and
`getBufferAtAddress` ask each section for its bytes, and an ELF section without an address
counts them from zero. `queriesAgree_iff` says at which addresses none of this is seen. -/
namespace Ppc2cpp

namespace BinarySection

/-- True if contains vma, false if not and none if section relocatable and no load
information. -/
def containsAddress (s : BinarySection) (vma : BitVec 32) : Option Bool :=
  s.getAddress.map fun secAddr => secAddr.ule vma && vma.ult (secAddr + s.length)

def getBufferAtAddress (s : BinarySection) (vma : BitVec 32) : Option Buffer :=
  match s.kind with
  | .elf address => s.getBufferAtOffset (vma - address)
  | .dol address => s.getBufferAtOffset (vma - address)
  | .rel loadAddress => if loadAddress ≠ 0 then s.getBufferAtOffset (vma - loadAddress) else none

end BinarySection

namespace Binary

/-- A section that answers false has an answer, too. -/
def containsAddress (b : Binary) (vma : BitVec 32) : Option Bool :=
  if b.sections.any fun sec => (sec.containsAddress vma).isSome then some true else some false

/-- The section found, by its index. -/
def getSectionByAddress (b : Binary) (vma : BitVec 32) : Option Nat :=
  b.sections.findIdx? fun sec => (sec.getBufferAtAddress vma).isSome

def getBufferAtAddress (b : Binary) (vma : BitVec 32) : Option Buffer :=
  b.sections.findSome? (·.getBufferAtAddress vma)

end Binary

/-! ### What a section answers for -/

namespace BinarySection

/-- The addresses counted from the address field of a section, whatever the field stands
for; a REL section that is not placed has none. -/
def nominalRange? (s : BinarySection) : Option (AddressRange 32) :=
  match s.kind with
  | .elf address => some ⟨address, s.length⟩
  | .dol address => some ⟨address, s.length⟩
  | .rel loadAddress => if loadAddress ≠ 0 then some ⟨loadAddress, s.length⟩ else none

/-- The address is less than the length of the section away from its address field. -/
def reaches (s : BinarySection) (vma : BitVec 32) : Bool :=
  s.nominalRange?.any (·.testDistance vma)

variable {s : BinarySection} {vma : BitVec 32} {r : AddressRange 32}

theorem length_of_nominalRange? (h : s.nominalRange? = some r) : r.length = s.length := by
  unfold nominalRange? at h
  split at h
  · cases h
    rfl
  · cases h
    rfl
  · split at h
    · cases h
      rfl
    · cases h

theorem getBufferAtAddress_eq :
    s.getBufferAtAddress vma =
      s.nominalRange?.bind fun r => s.getBufferAtOffset (vma - r.start) := by
  unfold getBufferAtAddress nominalRange?
  cases s.kind with
  | elf address => rfl
  | dol address => rfl
  | rel loadAddress =>
    dsimp only
    split <;> rfl

theorem getBufferAtOffset_isSome {off : BitVec 32} :
    (s.getBufferAtOffset off).isSome = off.ult s.length := by
  unfold getBufferAtOffset
  cases off.ult s.length <;> rfl

theorem getBufferAtAddress_isSome : (s.getBufferAtAddress vma).isSome = s.reaches vma := by
  rw [getBufferAtAddress_eq, reaches]
  cases hr : s.nominalRange? with
  | none => rfl
  | some r =>
    rw [Option.bind_some, getBufferAtOffset_isSome, ← length_of_nominalRange? hr]
    rfl

/-- A known address is the one in the address field. -/
theorem nominalRange?_of_range? (h : s.range? = some r) : s.nominalRange? = some r := by
  obtain ⟨haddr, hlength⟩ := range?_eq_some.mp h
  obtain ⟨start, length⟩ := r
  dsimp only at haddr hlength
  subst hlength
  unfold getAddress at haddr
  unfold nominalRange?
  cases hkind : s.kind with
  | elf address =>
    rw [hkind] at haddr
    dsimp only at haddr ⊢
    split at haddr
    · cases haddr
    · cases haddr
      rfl
  | dol address =>
    rw [hkind] at haddr
    cases haddr
    rfl
  | rel loadAddress =>
    rw [hkind] at haddr
    dsimp only at haddr ⊢
    split at haddr
    · next hne =>
      cases haddr
      rw [if_pos hne]
    · cases haddr

theorem reaches_of_claims (h : s.claims vma = true) : s.reaches vma = true := by
  obtain ⟨r, hr, htest⟩ := claims_eq_true.mp h
  rw [reaches, nominalRange?_of_range? hr]
  exact AddressRange.testDistance_of_testEnd htest

/-- A REL section without an address has no bytes under an address. -/
theorem reaches_of_rel {loadAddress : BitVec 32} (hkind : s.kind = .rel loadAddress)
    (haddr : s.getAddress = none) (vma : BitVec 32) : s.reaches vma = false := by
  rw [getAddress, hkind] at haddr
  have hzero : loadAddress = 0 := by simpa using haddr
  rw [reaches, nominalRange?, hkind, hzero]
  rfl

theorem containsAddress_isSome : (s.containsAddress vma).isSome = s.range?.isSome := by
  simp [containsAddress, range?]

end BinarySection

/-! ### When the queries agree -/

/-- The first element with an answer gives it. -/
theorem findSome?_of_findIdx? {α β : Type} {f : α → Option β} {xs : List α} {i : Nat} {x : α}
    (h : xs.findIdx? (fun x => (f x).isSome) = some i) (hx : xs[i]? = some x) :
    xs.findSome? f = f x := by
  induction xs generalizing i with
  | nil => cases h
  | cons y ys ih =>
    rw [List.findIdx?_cons] at h
    rw [List.findSome?_cons]
    cases hy : f y with
    | some b =>
      simp only [hy, Option.isSome_some, if_true, Option.some.injEq] at h
      subst h
      cases hx
      exact hy.symm
    | none =>
      simp only [hy, Option.isSome_none, Bool.false_eq_true, if_false,
        Option.map_eq_some_iff] at h
      obtain ⟨j, hj, rfl⟩ := h
      exact ih hj hx

namespace Binary

/-- The queries say the same about an address: whether it is in the binary, in which
section, and at which byte. -/
structure QueriesAgree (b : Binary) (vma : BitVec 32) : Prop where
  containsAddress : b.containsAddress vma = some true ↔ (b.resolveVMA vma).isSome = true
  getSectionByAddress :
    (b.resolveVMA vma).isSome = true ↔ (b.getSectionByAddress vma).isSome = true
  getBufferAtAddress :
    (b.resolveVMA vma).isSome = true ↔ (b.getBufferAtAddress vma).isSome = true
  same : ∀ l, b.resolveVMA vma = some l → ∃ i : Nat, l.sectionIdx = i ∧
    b.getSectionByAddress vma = some i ∧ b.getBufferAtLocation l = .ok (b.getBufferAtAddress vma)

/-- No section has an address and none counts up to `vma` from the field that stands for
none, or the first section that counts up to `vma` does so from an address, and its end is
an address, too. -/
def AnsweredAlike (b : Binary) (vma : BitVec 32) : Prop :=
  (∀ s ∈ b.sections, s.range? = none ∧ s.reaches vma = false) ∨
    ∃ s r, b.sections.find? (·.reaches vma) = some s ∧ s.range? = some r ∧ r.EndFits

variable {b : Binary} {vma : BitVec 32}

theorem getSectionByAddress_eq :
    b.getSectionByAddress vma = b.sections.findIdx? (·.reaches vma) := by
  unfold getSectionByAddress
  congr 1
  funext s
  exact BinarySection.getBufferAtAddress_isSome

theorem containsAddress_eq_true :
    b.containsAddress vma = some true ↔ ∃ s ∈ b.sections, s.range? ≠ none := by
  simp [containsAddress, BinarySection.containsAddress_isSome, Option.isSome_iff_ne_none]

theorem getBufferAtAddress_isSome :
    (b.getBufferAtAddress vma).isSome = true ↔ ∃ s ∈ b.sections, s.reaches vma = true := by
  simp [getBufferAtAddress, List.findSome?_isSome_iff, BinarySection.getBufferAtAddress_isSome]

theorem getSectionByAddress_isSome :
    (b.getSectionByAddress vma).isSome = true ↔ ∃ s ∈ b.sections, s.reaches vma = true := by
  simp [getSectionByAddress_eq, List.findIdx?_isSome]

/-- A binary none of whose sections has an address or counts up to `vma`. -/
theorem queriesAgree_of_silent (h : ∀ s ∈ b.sections, s.range? = none ∧ s.reaches vma = false) :
    b.QueriesAgree vma := by
  have hreaches : ¬ ∃ s ∈ b.sections, s.reaches vma = true := by
    rintro ⟨s, hs, htrue⟩
    rw [(h s hs).2] at htrue
    cases htrue
  have hnone : b.resolveVMA vma = none := resolveVMA_eq_none.mpr fun s hs => by
    rw [BinarySection.claims, (h s hs).1]
    rfl
  have hcontains : b.containsAddress vma ≠ some true := fun htrue => by
    obtain ⟨s, hs, hrange⟩ := containsAddress_eq_true.mp htrue
    exact hrange (h s hs).1
  refine ⟨?_, ?_, ?_, ?_⟩
  · simp [hnone, hcontains]
  · rw [getSectionByAddress_isSome]
    simp [hnone, hreaches]
  · rw [getBufferAtAddress_isSome]
    simp [hnone, hreaches]
  · intro l hl
    rw [hnone] at hl
    cases hl

/-- The first section that counts up to `vma` is the one `resolveVMA` stops at. -/
theorem resolveVMA_of_first {k : Nat} {s : BinarySection} {r : AddressRange 32}
    (hk : b.sections.findIdx? (·.reaches vma) = some k) (hs : b.sections[k]? = some s)
    (hr : s.range? = some r) (hend : r.EndFits) :
    b.resolveVMA vma = some ⟨k, vma - r.start⟩ := by
  obtain ⟨hlt, hreaches, hfirst⟩ := List.findIdx?_eq_some_iff_getElem.mp hk
  rw [List.getElem?_eq_getElem hlt, Option.some.injEq] at hs
  have hclaims : s.claims vma = true := by
    rw [hs, BinarySection.reaches, BinarySection.nominalRange?_of_range? hr] at hreaches
    exact BinarySection.claims_eq_true.mpr ⟨r, hr, hend.testDistance_iff_testEnd.mp hreaches⟩
  refine resolveVMA_eq_some.mpr ⟨k, s, r, ?_, by rw [List.getElem?_eq_getElem hlt, hs], hr, rfl⟩
  refine List.findIdx?_eq_some_iff_getElem.mpr ⟨hlt, by rw [hs]; exact hclaims, ?_⟩
  intro j hj hclaims
  exact hfirst j hj (BinarySection.reaches_of_claims hclaims)

/-- A binary whose first section that counts up to `vma` does so from an address. -/
theorem queriesAgree_of_first {s : BinarySection} {r : AddressRange 32}
    (hfind : b.sections.find? (·.reaches vma) = some s) (hr : s.range? = some r)
    (hend : r.EndFits) : b.QueriesAgree vma := by
  have hreaches := List.find?_some hfind
  rw [List.find?_eq_bind_findIdx?_getElem?] at hfind
  obtain ⟨k, hk, hs⟩ := Option.bind_eq_some_iff.mp hfind
  have hresolve := resolveVMA_of_first hk hs hr hend
  have hmem := List.mem_of_getElem? hs
  refine ⟨?_, ?_, ?_, ?_⟩
  · rw [containsAddress_eq_true, hresolve]
    simp only [Option.isSome_some, iff_true]
    exact ⟨s, hmem, by simp [hr]⟩
  · rw [getSectionByAddress_isSome, hresolve]
    simp only [Option.isSome_some, true_iff]
    exact ⟨s, hmem, hreaches⟩
  · rw [getBufferAtAddress_isSome, hresolve]
    simp only [Option.isSome_some, true_iff]
    exact ⟨s, hmem, hreaches⟩
  · intro l hl
    rw [hresolve] at hl
    cases hl
    rw [← getSectionByAddress_eq] at hk
    have hsection : b.section? k = .ok s := section?_eq_ok.mpr ⟨k, rfl, hs⟩
    have hbuffer : b.getBufferAtAddress vma = s.getBufferAtAddress vma :=
      findSome?_of_findIdx? hk hs
    refine ⟨k, rfl, hk, ?_⟩
    rw [hbuffer, BinarySection.getBufferAtAddress_eq, BinarySection.nominalRange?_of_range? hr]
    simp only [getBufferAtLocation, hsection, bind, Except.bind, pure, Except.pure,
      Option.bind_some]

/-- **The four address queries agree about an address iff the first section that counts up
to it has an address, and its end is one; or there is no such section and no address at
all.** -/
theorem queriesAgree_iff (b : Binary) (vma : BitVec 32) :
    b.QueriesAgree vma ↔ b.AnsweredAlike vma := by
  constructor
  · intro h
    cases hresolve : b.resolveVMA vma with
    | none =>
      -- nothing is found, so no section has an address at all
      refine .inl fun s hs => ⟨?_, ?_⟩
      · by_contra hrange
        have hcontains := h.containsAddress.mp (containsAddress_eq_true.mpr ⟨s, hs, hrange⟩)
        rw [hresolve] at hcontains
        cases hcontains
      · apply Bool.eq_false_iff.mpr
        intro hreaches
        have hsection := h.getSectionByAddress.mpr
          (getSectionByAddress_isSome.mpr ⟨s, hs, hreaches⟩)
        rw [hresolve] at hsection
        cases hsection
    | some l =>
      obtain ⟨i, hidx, hsection, _⟩ := h.same l hresolve
      obtain ⟨s, r, hs, hr, htest, _⟩ := claims_of_resolveVMA hresolve
      obtain ⟨k, hk, hs⟩ := section?_eq_ok.mp hs
      have hik : i = k := by omega
      subst hik
      rw [getSectionByAddress_eq] at hsection
      refine .inr ⟨s, r, ?_, hr, (AddressRange.testEnd_iff.mp htest).1⟩
      rw [List.find?_eq_bind_findIdx?_getElem?, hsection]
      exact hs
  · rintro (hsilent | ⟨s, r, hfind, hr, hend⟩)
    · exact queriesAgree_of_silent hsilent
    · exact queriesAgree_of_first hfind hr hend

/-- A relocatable file: the section has no address, and its bytes are found at small
numbers all the same. -/
theorem unaddressed_queries : ¬ ∀ (b : Binary) (vma : BitVec 32), b.QueriesAgree vma := by
  intro h
  have hagree := h ⟨"main.o", .elf,
    [⟨".text", 0x34, 4, .TEXT, .elf 0, [0x4e, 0x80, 0x00, 0x20]⟩]⟩ 0
  have hfound := hagree.getSectionByAddress.mpr (by decide)
  revert hfound
  decide

end Binary

end Ppc2cpp
