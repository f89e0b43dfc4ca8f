import Ppc2cpp.Analysis.RegisterAllocation

/-! Straight-line code that is scheduled differently.

A function is edited by swaps of adjacent instructions that are independent, and by
insertions and deletions of instructions whose results are not used (`Edit`). Whatever the
edits, what is observed of its run on terms stays the same, so the edited function compares
equal (`comparesEqual_edited`). A register is a storage element here: GQR0 and the special
purpose register 912 are one. -/
namespace Ppc2cpp
open StraightCode

/-- An instruction of an edited function. `origin` is the index of the instruction of the
function it comes from; an inserted instruction has none. -/
structure ListedInsn (D : Ppcdisasm) where
  origin : Option Nat
  word : Word
  reloc : Option Relocation
  opcode : Opcode
  insnUD : InstructionUD
  lookup : D.lookupPowerpc word .raw = some opcode
  decoded : instructionUD D word opcode .raw reloc = .ok insnUD
  named : ∀ loc ∈ insnUD.inputs ++ insnUD.outputs, loc.slot?.isSome = true

namespace ListedInsn
variable {D : Ppcdisasm}

/-- The registers it reads. -/
def inputs (i : ListedInsn D) : List Slot := slotsOf i.insnUD.inputs

/-- The registers it defines. -/
def outputs (i : ListedInsn D) : List Slot := slotsOf i.insnUD.outputs

def isStore (i : ListedInsn D) : Prop := i.opcode.opcode ∈ storeInsn

instance (i : ListedInsn D) : Decidable i.isStore :=
  inferInstanceAs (Decidable (i.opcode.opcode ∈ storeInsn))

/-- Neither instruction outputs a register that is an input or an output of the other. -/
structure Independent (i j : ListedInsn D) : Prop where
  outputs : ∀ s ∈ i.outputs, s ∉ j.outputs
  left : ∀ s ∈ i.outputs, s ∉ j.inputs
  right : ∀ s ∈ j.outputs, s ∉ i.inputs

/-- No instruction reads the register before one overwrites it. -/
def Unread (s : Slot) : List (ListedInsn D) → Prop
  | [] => True
  | i :: rest => s ∉ i.inputs ∧ (s ∈ i.outputs ∨ Unread s rest)

/-- Neither a store nor a branch, of no use to the instructions behind it, and not the last
definition of r3, r4 or f1. -/
structure Dead (i : ListedInsn D) (rest : List (ListedInsn D)) : Prop where
  unstored : ¬ i.isStore
  plain : isBranch i.word = false
  unread : ∀ s ∈ i.outputs, Unread s rest
  redefined : ∀ s ∈ i.outputs, s = .gpr 3 ∨ s = .gpr 4 ∨ s = .fpr 1 → ∃ j ∈ rest, s ∈ j.outputs

/-- The instruction, told by its origin. -/
def symbolic (i : ListedInsn D) : SymbolicInsn (Option Nat) :=
  i.insnUD.symbolic i.origin (decide (i.isStore ∨ isBranch i.word = true))

end ListedInsn

/-- One edit of a function. What is inserted or deleted is in front of the `blr`. -/
inductive Edit {D : Ppcdisasm} : List (ListedInsn D) → List (ListedInsn D) → Prop where
  | swap {i j : ListedInsn D} (before rest : List (ListedInsn D)) : isBranch i.word = false →
      isBranch j.word = false → ¬ (i.isStore ∧ j.isStore) → i.Independent j →
      Edit (before ++ i :: j :: rest) (before ++ j :: i :: rest)
  | insert {i : ListedInsn D} {rest : List (ListedInsn D)} (before : List (ListedInsn D)) :
      i.origin = none → rest ≠ [] → i.Dead rest → Edit (before ++ rest) (before ++ i :: rest)
  | delete {i : ListedInsn D} {rest : List (ListedInsn D)} (before : List (ListedInsn D)) :
      i.Dead rest → Edit (before ++ i :: rest) (before ++ rest)

/-- The instructions of the function. -/
structure Subject.Listing (S : Subject) (listing : List (ListedInsn S.disasm)) : Prop where
  length : listing.length = S.length
  insn : ∀ (pc : Nat) i, listing[pc]? = some i →
    i.origin = some pc ∧ i.word = S.insn pc ∧ i.reloc = S.relocAt pc

/-- The second function has the instructions listed. A relocation of the first that has moved
compares equal. -/
structure Realises (fuel : Nat) (S₁ S₂ : Subject) (listing : List (ListedInsn S₁.disasm)) : Prop where
  disasm : S₂.disasm = S₁.disasm
  length : S₂.length = listing.length
  word : ∀ (j : Nat) i, listing[j]? = some i → S₂.insn j = i.word
  moved : ∀ (j : Nat) i, listing[j]? = some i → i.origin ≠ none →
    Option.Rel (fun reloc₁ reloc₂ => (S₁.comparator S₂).compareRelocations fuel reloc₁ reloc₂ = .ok true)
      i.reloc (S₂.relocAt j)
  inserted : ∀ (j : Nat) i, listing[j]? = some i → i.origin = none → S₂.relocAt j = i.reloc

/-! ### Edits of the code on terms -/

namespace ListedInsn
variable {D : Ppcdisasm} {i j : ListedInsn D} {rest : List (ListedInsn D)}

theorem symbolic_regs (i : ListedInsn D) : i.symbolic.regs = i.inputs := by
  change (namedSlots i.insnUD.inputs).map Prod.snd = slotsOf i.insnUD.inputs
  rw [namedSlots, slotsOf, List.map_filterMap]
  refine List.filterMap_congr fun loc _ => ?_
  cases loc.slot? <;> rfl

theorem Independent.symbolic (h : i.Independent j) : i.symbolic.Independent j.symbolic where
  writes := h.outputs
  left := by
    rw [symbolic_regs]
    exact h.left
  right := by
    rw [symbolic_regs]
    exact h.right

theorem Unread.symbolic {s : Slot} (h : Unread s rest) : StraightCode.Unread s (rest.map symbolic) := by
  induction rest with
  | nil => trivial
  | cons i rest ih =>
    refine ⟨?_, h.2.imp_right ih⟩
    rw [symbolic_regs]
    exact h.1

theorem isReturned_iff {s : Slot} : isReturned s ↔ s = .gpr 3 ∨ s = .gpr 4 ∨ s = .fpr 1 := by
  have hslots : slotsOf definedByCall = [.fpr 1, .gpr 4, .gpr 3] := by decide
  rw [isReturned, hslots]
  simp only [List.mem_cons, List.not_mem_nil, or_false]
  tauto

theorem Dead.symbolic (h : i.Dead rest) : i.symbolic.Idle isReturned (rest.map symbolic) where
  unobserved := by
    refine decide_eq_false (not_or.mpr ⟨h.unstored, ?_⟩)
    rw [h.plain]
    exact Bool.false_ne_true
  unread s hs := (h.unread s hs).symbolic
  redefined s hs hret := by
    obtain ⟨j, hj, hout⟩ := h.redefined s hs (isReturned_iff.mp hret)
    exact ⟨j.symbolic, List.mem_map_of_mem hj, hout⟩

end ListedInsn

section
variable {D : Ppcdisasm} {listing listing' : List (ListedInsn D)}

/-- An edit of the function is one of its code on terms. -/
theorem Edit.symbolic (h : Edit listing listing') :
    StraightCode.Edit isReturned (listing.map ListedInsn.symbolic) (listing'.map ListedInsn.symbolic) := by
  cases h with
  | @swap i j before rest hi hj hstores hind =>
    rw [List.map_append, List.map_append]
    refine .swap _ _ hind.symbolic fun hobserved => hstores ?_
    have hstore : ∀ {k : ListedInsn D}, isBranch k.word = false → k.symbolic.observed = true →
        k.isStore := by
      intro k hk hobs
      refine (of_decide_eq_true hobs).resolve_right ?_
      rw [hk]
      exact Bool.false_ne_true
    exact ⟨hstore hi hobserved.1, hstore hj hobserved.2⟩
  | insert before _ _ hdead =>
    rw [List.map_append, List.map_append]
    exact .insert _ hdead.symbolic
  | delete before hdead =>
    rw [List.map_append, List.map_append]
    exact .delete _ hdead.symbolic

theorem alike_of_functionEdits (h : Relation.ReflTransGen Edit listing listing') :
    Alike isReturned (listing.map ListedInsn.symbolic) (listing'.map ListedInsn.symbolic) :=
  alike_of_edits (Relation.ReflTransGen.lift (List.map ListedInsn.symbolic)
    (fun _ _ => Edit.symbolic) listing listing' h)

end

/-! ### What edits keep -/

/-- A function some edits after it was listed: what is not inserted is an instruction of the
function, and behind instructions that are no branches comes its `blr`. -/
structure Subject.Edited (S : Subject) (listing : List (ListedInsn S.disasm)) : Prop where
  original : ∀ i ∈ listing, ∀ pc, i.origin = some pc →
    pc < S.length ∧ i.word = S.insn pc ∧ i.reloc = S.relocAt pc
  plain : ∀ i ∈ listing.dropLast, isBranch i.word = false
  last : ∃ i, listing.getLast? = some i ∧ i.origin = some (S.length - 1)

namespace Subject
variable {S : Subject} {listing listing' : List (ListedInsn S.disasm)}

/-- Every supported function has a listing. -/
theorem StraightLine.exists_listing (hs : S.StraightLine) (hdecoded : S.Decoded) :
    ∃ listing, S.Listing listing := by
  have hinsn : ∀ pc < S.length, ∃ i : ListedInsn S.disasm,
      i.origin = some pc ∧ i.word = S.insn pc ∧ i.reloc = S.relocAt pc := by
    intro pc hpc
    obtain ⟨opcode, ud, hdecode, hnamed⟩ := hdecoded pc hpc
    obtain ⟨hopcode, hud⟩ := (hs.decode_iff hpc).mp hdecode
    exact ⟨⟨some pc, S.insn pc, S.relocAt pc, opcode, ud, hopcode, hud, hnamed⟩, rfl, rfl, rfl⟩
  choose insn hspec using hinsn
  refine ⟨List.ofFn fun k : Fin S.length => insn k k.2, List.length_ofFn, fun pc i hi => ?_⟩
  rw [List.getElem?_ofFn] at hi
  split at hi
  · cases hi
    exact hspec pc _
  · cases hi

theorem Listing.edited (h : S.Listing listing) (hs : S.StraightLine) : S.Edited listing where
  original i hi pc horigin := by
    obtain ⟨k, hk⟩ := List.mem_iff_getElem?.mp hi
    obtain ⟨horigin', hword, hreloc⟩ := h.insn k i hk
    obtain rfl : k = pc := Option.some.inj (horigin'.symm.trans horigin)
    exact ⟨h.length ▸ (List.getElem?_eq_some_iff.mp hk).1, hword, hreloc⟩
  plain i hi := by
    obtain ⟨k, hk⟩ := List.mem_iff_getElem?.mp hi
    have hlt : k < listing.length - 1 := by
      rw [← List.length_dropLast]
      exact (List.getElem?_eq_some_iff.mp hk).1
    rw [List.getElem?_dropLast, if_pos hlt] at hk
    rw [(h.insn k i hk).2.1]
    have := h.length
    exact hs.plain k (by omega)
  last := by
    have hpos := hs.nonempty
    have hlt : S.length - 1 < listing.length := by
      rw [h.length]
      omega
    have hget := List.getElem?_eq_getElem hlt
    refine ⟨_, ?_, (h.insn _ _ hget).1⟩
    rw [List.getLast?_eq_getElem?, h.length]
    exact hget

/-- The last instruction is the `blr`. -/
theorem Edited.last_branch (h : S.Edited listing) (hs : S.StraightLine) {i : ListedInsn S.disasm}
    (hi : listing.getLast? = some i) : isBranch i.word = true := by
  obtain ⟨j, hj, horigin⟩ := h.last
  obtain rfl := Option.some.inj (hi.symm.trans hj)
  rw [(h.original i (List.mem_of_getLast? hi) _ horigin).2.1]
  exact (isBranch_iff _).mpr (.inr (.inr (.inl hs.blr)))

/-- Before the end of the function instructions may be replaced by some of them and by new
ones that are no branches. -/
theorem Edited.replace (before mid mid' rest : List (ListedInsn S.disasm))
    (h : S.Edited (before ++ (mid ++ rest))) (hrest : rest ≠ [])
    (hmid : ∀ k ∈ mid', k ∈ mid ∨ (k.origin = none ∧ isBranch k.word = false)) :
    S.Edited (before ++ (mid' ++ rest)) where
  original k hk pc horigin := by
    simp only [List.mem_append] at hk
    rcases hk with hk | hk | hk
    · exact h.original k (by simp [hk]) pc horigin
    · rcases hmid k hk with hk | ⟨hnone, _⟩
      · exact h.original k (by simp [hk]) pc horigin
      · rw [hnone] at horigin
        cases horigin
    · exact h.original k (by simp [hk]) pc horigin
  plain k hk := by
    have hplain := h.plain k
    rw [← List.append_assoc, List.dropLast_append_of_ne_nil hrest] at hplain hk
    simp only [List.mem_append] at hplain hk
    rcases hk with (hk | hk) | hk
    · exact hplain (.inl (.inl hk))
    · rcases hmid k hk with hk | ⟨_, hbranch⟩
      · exact hplain (.inl (.inr hk))
      · exact hbranch
    · exact hplain (.inr hk)
  last := by
    obtain ⟨k, hk, horigin⟩ := h.last
    refine ⟨k, ?_, horigin⟩
    rwa [← List.append_assoc, List.getLast?_append_of_ne_nil _ hrest] at hk ⊢

/-- Behind an instruction that is no branch there are others, the `blr` being the last. -/
theorem Edited.rest_ne_nil (hs : S.StraightLine) {i : ListedInsn S.disasm}
    {before rest : List (ListedInsn S.disasm)} (h : S.Edited (before ++ i :: rest))
    (hi : isBranch i.word = false) : rest ≠ [] := by
  rintro rfl
  have hbranch := h.last_branch hs (i := i) (by simp)
  rw [hi] at hbranch
  cases hbranch

/-- **An edit keeps what an edited function is.** -/
theorem Edited.edit (h : S.Edited listing) (hs : S.StraightLine) (hedit : Edit listing listing') :
    S.Edited listing' := by
  cases hedit with
  | @swap i j before rest hi hj _ _ =>
    have hrest : rest ≠ [] := by
      have hsplit := h
      rw [List.append_cons] at hsplit
      exact hsplit.rest_ne_nil hs hj
    exact Edited.replace before [i, j] [j, i] rest h hrest (by simp)
  | @insert i rest before hnone hrest hdead =>
    exact Edited.replace before [] [i] rest h hrest (by simp [hnone, hdead.plain])
  | @delete i rest before hdead =>
    exact Edited.replace before [i] [] rest h (h.rest_ne_nil hs hdead.plain) (by simp)

theorem Edited.edits (h : S.Edited listing) (hs : S.StraightLine)
    (hedits : Relation.ReflTransGen Edit listing listing') : S.Edited listing' := by
  induction hedits with
  | refl => exact h
  | tail _ hedit ih => exact ih.edit hs hedit

end Subject

/-! ### The function that is listed -/

/-- The key of an instruction of the edited function. -/
def originAt {D : Ppcdisasm} (listing : List (ListedInsn D)) (j : Nat) : Option Nat :=
  listing[j]?.bind ListedInsn.origin

namespace Subject.Listing
variable {S : Subject} {listing : List (ListedInsn S.disasm)}

theorem decode (h : S.Listing listing) (hs : S.StraightLine) {pc : Nat} {i : ListedInsn S.disasm}
    (hi : listing[pc]? = some i) : S.decode pc = .ok (i.opcode, i.insnUD) := by
  obtain ⟨_, hword, hreloc⟩ := h.insn pc i hi
  refine (hs.decode_iff (h.length ▸ (List.getElem?_eq_some_iff.mp hi).1)).mpr ?_
  rw [← hword, ← hreloc]
  exact ⟨i.lookup, i.decoded⟩

theorem decoded (h : S.Listing listing) (hs : S.StraightLine) : S.Decoded := by
  intro pc hpc
  have hlt : pc < listing.length := h.length.symm ▸ hpc
  have hi := List.getElem?_eq_getElem hlt
  exact ⟨_, _, h.decode hs hi, listing[pc].named⟩

theorem reads (h : S.Listing listing) (hs : S.StraightLine) :
    S.Reads some S.length (listing.map ListedInsn.symbolic) := by
  rw [Subject.Reads, List.forall₂_map_right_iff]
  refine List.forall₂_iff_get.mpr ⟨by rw [List.length_range, h.length], fun k hk hk' => ?_⟩
  have hi := List.getElem?_eq_getElem hk'
  obtain ⟨horigin, hword, _⟩ := h.insn k _ hi
  rw [List.get_eq_getElem, List.getElem_range, List.get_eq_getElem]
  refine Subject.symbolic_eq_ok.mpr ⟨_, _, h.decode hs hi, ?_⟩
  rw [ListedInsn.symbolic, horigin, hword]
  rfl

end Subject.Listing

namespace Realises
variable {fuel : Nat} {S₁ S₂ : Subject} {listing : List (ListedInsn S₁.disasm)}

/-- The relocation of an instruction is there again, or another one in its place. -/
theorem reloc_isSome (h : Realises fuel S₁ S₂ listing) {j : Nat} {i : ListedInsn S₁.disasm}
    (hi : listing[j]? = some i) : i.reloc.isSome = (S₂.relocAt j).isSome := by
  by_cases horigin : i.origin = none
  · rw [h.inserted j i hi horigin]
  · exact isSome_of_rel (h.moved j i hi horigin)

/-- The last instruction is the `blr` of the first function. -/
theorem insn_last (h : Realises fuel S₁ S₂ listing) (hedited : S₁.Edited listing) :
    0 < S₂.length ∧ S₂.insn (S₂.length - 1) = S₁.insn (S₁.length - 1) ∧
      originAt listing (S₂.length - 1) = some (S₁.length - 1) := by
  obtain ⟨i, hi, horigin⟩ := hedited.last
  have hmem := List.mem_of_getLast? hi
  rw [List.getLast?_eq_getElem?, ← h.length] at hi
  refine ⟨?_, ?_, ?_⟩
  · rw [h.length]
    exact List.length_pos_of_mem hmem
  · rw [h.word _ i hi, (hedited.original i hmem _ horigin).2.1]
  · rw [originAt, hi]
    exact horigin

theorem straightLine (h : Realises fuel S₁ S₂ listing) (hedited : S₁.Edited listing)
    (h₁ : S₁.StraightLine) : S₂.StraightLine := by
  obtain ⟨hpos, hlast, _⟩ := h.insn_last hedited
  refine ⟨hpos, fun pc hpc => ?_, ?_, ?_, ?_⟩
  · rw [h.length] at hpc
    have hlt : pc < listing.dropLast.length := by
      rw [List.length_dropLast]
      omega
    rw [h.word pc _ (List.getElem?_eq_getElem (Nat.lt_of_succ_lt hpc))]
    have hmem := List.getElem_mem hlt
    rw [List.getElem_dropLast] at hmem
    exact hedited.plain _ hmem
  · rw [hlast]
    exact h₁.blr
  · rw [hlast]
    exact h₁.unconditional
  · rw [hlast]
    exact h₁.unlinked

/-- **An instruction has the use-define information it is listed with**, but for the
relocation. -/
theorem decode (h : Realises fuel S₁ S₂ listing) (hedited : S₁.Edited listing)
    (h₁ : S₁.StraightLine) {j : Nat} {i : ListedInsn S₁.disasm} (hi : listing[j]? = some i) :
    ∃ ud, S₂.decode j = .ok (i.opcode, ud) ∧ i.insnUD.Relabelled id i.reloc (S₂.relocAt j) ud := by
  have hj : j < S₂.length := h.length ▸ (List.getElem?_eq_some_iff.mp hi).1
  have h₂ := h.straightLine hedited h₁
  obtain ⟨ud, hud, hrel⟩ : ∃ ud, instructionUD S₁.disasm i.word i.opcode .raw (S₂.relocAt j) =
      .ok ud ∧ i.insnUD.Relabelled id i.reloc (S₂.relocAt j) ud := by
    have hword := h.word j i hi
    by_cases hlast : j + 1 < S₂.length
    · have hplain : isBranch i.word = false := hword ▸ h₂.plain j hlast
      exact instructionUD_relabelled hplain hplain (fun idx _ => .refl S₁.disasm i.word .raw idx)
        (fun _ _ => rfl) (h.reloc_isSome hi) i.decoded
    · obtain rfl : j = S₂.length - 1 := by omega
      have hblr : isBranchToLR i.word = true := hword ▸ h₂.blr
      exact instructionUD_relabelled_toLR hblr hblr rfl rfl rfl rfl rfl i.decoded
  refine ⟨ud, (h₂.decode_iff hj).mpr ?_, hrel⟩
  rw [h.disasm, h.word j i hi]
  exact ⟨i.lookup, hud⟩

theorem decoded (h : Realises fuel S₁ S₂ listing) (hedited : S₁.Edited listing)
    (h₁ : S₁.StraightLine) : S₂.Decoded := by
  intro j hj
  have hlt : j < listing.length := h.length ▸ hj
  have hi := List.getElem?_eq_getElem hlt
  obtain ⟨ud, hdecode, hrel⟩ := h.decode hedited h₁ hi
  refine ⟨_, ud, hdecode, ?_⟩
  rw [hrel.inputs, hrel.outputs, List.map_id, List.map_id]
  exact listing[j].named

theorem reads (h : Realises fuel S₁ S₂ listing) (hedited : S₁.Edited listing)
    (h₁ : S₁.StraightLine) :
    S₂.Reads (originAt listing) S₂.length (listing.map ListedInsn.symbolic) := by
  rw [Subject.Reads, List.forall₂_map_right_iff]
  refine List.forall₂_iff_get.mpr ⟨by rw [List.length_range, h.length], fun k hk hk' => ?_⟩
  have hi := List.getElem?_eq_getElem hk'
  obtain ⟨ud, hdecode, hrel⟩ := h.decode hedited h₁ hi
  rw [List.get_eq_getElem, List.getElem_range, List.get_eq_getElem]
  refine Subject.symbolic_eq_ok.mpr ⟨_, ud, hdecode, ?_⟩
  have hkey : originAt listing k = listing[k].origin := by
    rw [originAt, hi]
    rfl
  have hid : ∀ loc : CpuMemoryLocation, (id loc).slot? = loc.slot?.map id :=
    fun loc => (Option.map_id_apply).symm
  rw [hkey, h.word k _ hi, hrel.symbolic hid, Insn.rename_id]
  rfl

/-- The instructions of the edited function stand for those they come from. -/
theorem counterparts (h : Realises fuel S₁ S₂ listing) (hedited : S₁.Edited listing)
    (h₁ : S₁.StraightLine) : Counterparts fuel S₁ S₂ some (originAt listing) := by
  have horiginal : ∀ pc j, j < S₂.length → some pc = originAt listing j →
      ∃ i, listing[j]? = some i ∧ i.origin = some pc ∧ i.word = S₁.insn pc ∧ i.reloc = S₁.relocAt pc := by
    intro pc j hj hkey
    have hlt : j < listing.length := h.length ▸ hj
    have hi := List.getElem?_eq_getElem hlt
    rw [originAt, hi] at hkey
    obtain ⟨_, hword, hreloc⟩ := hedited.original _ (List.getElem_mem hlt) pc hkey.symm
    exact ⟨_, hi, hkey.symm, hword, hreloc⟩
  refine ⟨?_, ?_, (h.insn_last hedited).2.2.symm⟩
  · intro pc _ j hj hkey
    obtain ⟨i, hi, _, hword, _⟩ := horiginal pc j hj hkey
    rw [h.word j i hi, hword]
  · intro pc hpc j hj hkey opcode₁ ud₁ opcode₂ ud₂ hdecode₁ hdecode₂ reloc₁ hreloc₁ reloc₂ hreloc₂
    obtain ⟨i, hi, horigin, hword, hreloc⟩ := horiginal pc j hj hkey
    obtain ⟨hopcode, hud⟩ := (h₁.decode_iff hpc).mp hdecode₁
    rw [← hword] at hopcode hud
    rw [← hreloc] at hud
    obtain rfl := Option.some.inj (i.lookup.symm.trans hopcode)
    obtain rfl := Except.ok.inj (i.decoded.symm.trans hud)
    obtain ⟨ud, hdecode, hrel⟩ := h.decode hedited h₁ hi
    obtain rfl : ud = ud₂ := congrArg Prod.snd (Except.ok.inj (hdecode.symm.trans hdecode₂))
    obtain ⟨hr₁, hr₂⟩ := hrel.reloc_eq hreloc₁ hreloc₂
    have hmoved := h.moved j i hi (by rw [horigin]; exact Option.some_ne_none pc)
    rw [hr₁, hr₂] at hmoved
    cases hmoved with
    | some h => exact h

end Realises

/-- **A straight-line function after any number of edits compares equal.** -/
theorem comparesEqual_edited (fuel : Nat) (S₁ S₂ : Subject) (listing listing' : List (ListedInsn S₁.disasm))
    (h₁ : S₁.StraightLine) (hlisting : S₁.Listing listing)
    (hedits : Relation.ReflTransGen Edit listing listing') (h : Realises fuel S₁ S₂ listing') :
    ComparesEqual fuel S₁ S₂ := by
  have hedited : S₁.Edited listing' := (hlisting.edited h₁).edits h₁ hedits
  obtain ⟨hevents, hfinal⟩ := alike_of_functionEdits hedits fun _ => none
  exact comparesEqual_of_alike h₁ (h.straightLine hedited h₁) (hlisting.decoded h₁)
    (h.decoded hedited h₁) (h.counterparts hedited h₁) (hlisting.reads h₁) (h.reads hedited h₁)
    hevents hfinal

/-! ### A load and an addition -/

/-- `lwz r6,0(r4)`, `addi r7,r4,8`, `stw r6,4(r5)`, `stw r7,0(r5)`, `blr`. -/
def storePair : Subject :=
  assembledSubject [0x80c40000, 0x38e40008, 0x90c50004, 0x90e50000, 0x4e800020] 5 (by decide)

/-- The first two the other way round, and `li r8,1` behind them. -/
def storePairScheduled : Subject :=
  assembledSubject [0x38e40008, 0x80c40000, 0x39000001, 0x90c50004, 0x90e50000, 0x4e800020] 6 (by decide)

namespace StorePair

def load : ListedInsn Excerpt.ppcdisasm :=
  ⟨some 0, 0x80c40000, none, Excerpt.lwz, ⟨[⟨.GPR, 4⟩], [⟨.GPR, 6⟩], [0], []⟩, by decide,
    by decide +kernel, by decide⟩

def addition : ListedInsn Excerpt.ppcdisasm :=
  ⟨some 1, 0x38e40008, none, Excerpt.addi, ⟨[⟨.GPR, 4⟩], [⟨.GPR, 7⟩], [8], []⟩, by decide,
    by decide +kernel, by decide⟩

/-- It is of no use. -/
def constant : ListedInsn Excerpt.ppcdisasm :=
  ⟨none, 0x39000001, none, Excerpt.addi, ⟨[], [⟨.GPR, 8⟩], [0, 1], []⟩, by decide,
    by decide +kernel, by decide⟩

def stores : List (ListedInsn Excerpt.ppcdisasm) :=
  [⟨some 2, 0x90c50004, none, Excerpt.stw, ⟨[⟨.GPR, 6⟩, ⟨.GPR, 5⟩], [], [4], []⟩, by decide,
    by decide +kernel, by decide⟩,
   ⟨some 3, 0x90e50000, none, Excerpt.stw, ⟨[⟨.GPR, 7⟩, ⟨.GPR, 5⟩], [], [0], []⟩, by decide,
    by decide +kernel, by decide⟩,
   ⟨some 4, 0x4e800020, none, Excerpt.bclr, ⟨[lrLocation], [], [20], []⟩, by decide,
    by decide +kernel, by decide⟩]

theorem edits : Relation.ReflTransGen Edit (load :: addition :: stores)
    (addition :: load :: constant :: stores) := by
  have hload : load.inputs = [.gpr 4] ∧ load.outputs = [.gpr 6] := by decide +kernel
  have haddition : addition.inputs = [.gpr 4] ∧ addition.outputs = [.gpr 7] := by decide +kernel
  have hind : load.Independent addition := by
    constructor
    · rw [hload.2, haddition.2]
      exact List.forall_mem_singleton.mpr (by decide)
    · rw [hload.2, haddition.1]
      exact List.forall_mem_singleton.mpr (by decide)
    · rw [haddition.2, hload.1]
      exact List.forall_mem_singleton.mpr (by decide)
  have hconstant : constant.outputs = [.gpr 8] := by decide +kernel
  have hdead : constant.Dead stores := by
    refine ⟨by decide, by decide, fun s hs => ?_, fun s hs hret => ?_⟩
    all_goals
      rw [hconstant] at hs
      obtain rfl := List.mem_singleton.mp hs
    · exact ⟨by decide, .inr ⟨by decide, .inr ⟨by decide, .inr trivial⟩⟩⟩
    · simp at hret
  refine .tail (.single (.swap [] stores (by decide) (by decide) (by decide) hind)) ?_
  exact .insert [addition, load] rfl (by decide) hdead

theorem listing : storePair.Listing (load :: addition :: stores) where
  length := rfl
  insn pc i hi := by
    match pc, hi with
    | 0, hi | 1, hi | 2, hi | 3, hi | 4, hi =>
      cases hi
      exact ⟨rfl, by decide +kernel, rfl⟩

theorem realises : Realises 1 storePair storePairScheduled
    (addition :: load :: constant :: stores) where
  disasm := rfl
  length := rfl
  word j i hi := by
    match j, hi with
    | 0, hi | 1, hi | 2, hi | 3, hi | 4, hi | 5, hi =>
      cases hi
      decide +kernel
  moved j i hi _ := by
    match j, hi with
    | 0, hi | 1, hi | 2, hi | 3, hi | 4, hi | 5, hi =>
      cases hi
      exact .none
  inserted j i hi _ := by
    match j, hi with
    | 0, hi | 1, hi | 2, hi | 3, hi | 4, hi | 5, hi =>
      cases hi
      rfl

end StorePair

theorem comparesEqual_edited_storePair : ComparesEqual 1 storePair storePairScheduled :=
  comparesEqual_edited 1 storePair storePairScheduled _ _
    (Analysed.straightLine_of_check (by decide +kernel)) StorePair.listing StorePair.edits
    StorePair.realises

end Ppc2cpp
