import Ppc2cpp.ControlFlow.Soundness

/-! Instructions inserted between the branches leave the graph as it is.

`Padded S T extra` says that the function of `T` is the function of `S` with `extra i`
instructions inserted after the instruction `i`, none of them a branch and none after a
branch, and with the branches retargeted. The two recursions then run in step: they
create the same blocks in the same order, and a scan that stops before an existing
block in one function stops before the same block in the other, after the instructions
inserted there. `Corresponds` is the relation between the two graphs that every
operation keeps. -/
namespace Ppc2cpp

/-! ### The place of an instruction -/

/-- Where the instruction `i` is when `extra k` instructions are inserted after each
instruction `k`. -/
def placed (extra : Nat → Nat) : Nat → Nat
  | 0 => 0
  | i + 1 => placed extra i + 1 + extra i

section
variable {extra : Nat → Nat}

theorem placed_strictMono : StrictMono (placed extra) := by
  apply strictMono_nat_of_lt_succ
  intro i
  rw [placed]
  omega

/-- An instruction of the new function is an old one or was inserted after one. -/
theorem exists_placed (extra : Nat → Nat) (k : Nat) :
    ∃ i, placed extra i ≤ k ∧ k < placed extra (i + 1) := by
  induction k with
  | zero => exact ⟨0, le_refl _, by rw [placed]; omega⟩
  | succ k ih =>
    obtain ⟨i, hle, hlt⟩ := ih
    by_cases hnext : k + 1 < placed extra (i + 1)
    · exact ⟨i, by omega, hnext⟩
    · refine ⟨i + 1, by omega, ?_⟩
      have hmono : StrictMono (placed extra) := placed_strictMono
      have := hmono (Nat.lt_add_one (i + 1))
      omega

/-- No old instruction lies strictly between two consecutive ones. -/
theorem ne_placed {i k : Nat} (hlt : placed extra i < k) (hnext : k < placed extra (i + 1))
    (j : Nat) : k ≠ placed extra j := by
  intro heq
  have hi := placed_strictMono.lt_iff_lt.mp (heq ▸ hlt)
  have hj := placed_strictMono.lt_iff_lt.mp (heq ▸ hnext)
  omega

end

/-- The offset of an instruction is a multiple of four, also where it wraps. -/
theorem Subject.dvd_pcLocation (S : Subject) (j : Nat) :
    4 ∣ ((S.pcLocation j).sectionOffset - S.func.location.sectionOffset).toNat := by
  have hint : BitVec.ofInt 32 (4 * (j : Int)) = BitVec.ofNat 32 (4 * j) := by
    rw [← BitVec.ofInt_natCast]
    norm_num
  have hsub : (S.pcLocation j).sectionOffset - S.func.location.sectionOffset =
      BitVec.ofNat 32 (4 * j) := by
    rw [pcLocation, ProgramLocation.add, hint]
    exact (congrArg (· - _) (BitVec.add_comm _ _)).trans (BitVec.add_sub_cancel _ _)
  rw [hsub, BitVec.toNat_ofNat]
  omega

/-! ### The edit -/

/-- The bits of a branch that say where it goes: the displacement and the absolute bit. -/
def targetMask (insn : Word) : Word :=
  if isBranchUncoditional insn then 0x03fffffe
  else if isBranchConditional insn then 0x0000fffe
  else 0

/-- The same instruction, with another target if it is a branch to an address. -/
def SameButTarget (insn insn' : Word) : Prop :=
  insn' &&& ~~~targetMask insn = insn &&& ~~~targetMask insn

instance (insn insn' : Word) : Decidable (SameButTarget insn insn') :=
  inferInstanceAs (Decidable (_ = _))

namespace SameButTarget
variable {insn insn' : Word}

theorem and_eq (h : SameButTarget insn insn') {mask : Word}
    (hmask : ~~~targetMask insn &&& mask = mask) : insn' &&& mask = insn &&& mask := by
  rw [← hmask, ← BitVec.and_assoc, ← BitVec.and_assoc]
  exact congrArg (· &&& mask) h

theorem targetMask_cases (insn : Word) :
    targetMask insn = 0x03fffffe ∨ targetMask insn = 0x0000fffe ∨ targetMask insn = 0 := by
  unfold targetMask
  split_ifs <;> simp

/-- The opcode and the link bit are not part of the target. -/
theorem op_eq (h : SameButTarget insn insn') : OP insn' = OP insn := by
  have hop : ∀ w : Word, OP w = (w &&& 0xfc000000) >>> 26 := by
    intro w
    rw [OP, BitVec.ushiftRight_and_distrib]
    rfl
  rw [hop, hop, h.and_eq]
  rcases targetMask_cases insn with hm | hm | hm <;> rw [hm] <;> decide

theorem isLink_eq (h : SameButTarget insn insn') : isLink insn' = isLink insn := by
  rw [isLink, isLink, h.and_eq]
  rcases targetMask_cases insn with hm | hm | hm <;> rw [hm] <;> decide

theorem isBranchUncoditional_eq (h : SameButTarget insn insn') :
    isBranchUncoditional insn' = isBranchUncoditional insn := by
  rw [isBranchUncoditional, isBranchUncoditional, h.op_eq]

theorem isBranchConditional_eq (h : SameButTarget insn insn') :
    isBranchConditional insn' = isBranchConditional insn := by
  rw [isBranchConditional, isBranchConditional, h.op_eq]

/-- Everything but a branch to an address is the same word. -/
theorem eq (h : SameButTarget insn insn') (hu : isBranchUncoditional insn = false)
    (hc : isBranchConditional insn = false) : insn' = insn := by
  have hall : ~~~targetMask insn = BitVec.allOnes 32 := by
    rw [targetMask, hu, hc]
    decide
  rw [SameButTarget, hall, BitVec.and_allOnes, BitVec.and_allOnes] at h
  exact h

theorem condition_eq (h : SameButTarget insn insn') (hu : isBranchUncoditional insn = false) :
    isBranchConditionUnconditional insn' = isBranchConditionUnconditional insn := by
  have hbo : ∀ w : Word, getBO w = (w &&& 0x03e00000) >>> 21 := by
    intro w
    rw [getBO, BitVec.ushiftRight_and_distrib]
    rfl
  rw [isBranchConditionUnconditional, isBranchConditionUnconditional, hbo, hbo, h.and_eq]
  rw [targetMask, hu]
  cases isBranchConditional insn <;> decide

theorem toRegister_eq (h : SameButTarget insn insn') :
    isBranchToLR insn' = isBranchToLR insn ∧ isBranchToCTR insn' = isBranchToCTR insn := by
  by_cases hu : isBranchUncoditional insn = true
  · obtain ⟨_, hlr, hctr⟩ := isBranchUncoditional_excludes hu
    obtain ⟨_, hlr', hctr'⟩ := isBranchUncoditional_excludes (h.isBranchUncoditional_eq.trans hu)
    exact ⟨hlr'.trans hlr.symm, hctr'.trans hctr.symm⟩
  · by_cases hc : isBranchConditional insn = true
    · obtain ⟨_, hlr, hctr⟩ := isBranchConditional_excludes hc
      obtain ⟨_, hlr', hctr'⟩ := isBranchConditional_excludes (h.isBranchConditional_eq.trans hc)
      exact ⟨hlr'.trans hlr.symm, hctr'.trans hctr.symm⟩
    · rw [h.eq (by simpa using hu) (by simpa using hc)]
      exact ⟨rfl, rfl⟩

theorem isBranch_eq (h : SameButTarget insn insn') : isBranch insn' = isBranch insn := by
  apply Bool.eq_iff_iff.mpr
  rw [isBranch_iff, isBranch_iff, h.isBranchUncoditional_eq, h.isBranchConditional_eq,
    h.toRegister_eq.1, h.toRegister_eq.2]

end SameButTarget

/-- The function of `T` is the function of `S` with instructions inserted: `extra i` of
them after the instruction `i`, if that is no branch. A branch inside the function goes
to the instruction it went to, and any other still leaves the function. -/
structure Padded (S T : Subject) (extra : Nat → Nat) : Prop where
  length : T.length = placed extra S.length
  kept : ∀ i < S.length, SameButTarget (S.insn i) (T.insn (placed extra i))
  afterBranch : ∀ i < S.length, isBranch (S.insn i) = true → extra i = 0
  inserted : ∀ i < S.length, ∀ k, placed extra i < k → k < placed extra (i + 1) →
    isBranch (T.insn k) = false
  targets : ∀ i < S.length, S.branchesToAddress i = true → ∀ t,
    S.branchTarget i = .ok (some t) → ∃ u, T.branchTarget (placed extra i) = .ok (some u) ∧
      if S.func.contains t then u = T.pcLocation (placed extra (S.position t))
      else T.func.contains u = false
  whole : T.func.size.toNat = 4 * T.length
  inside : ∃ b s, T.loader.binary? T.func.location.binaryIdx = .ok b ∧
    b.section? T.func.location.sectionIdx = .ok s ∧
    T.func.location.sectionOffset.toNat + T.func.size.toNat ≤ s.length.toNat

namespace Padded
variable {S T : Subject} {extra : Nat → Nat} {i : Nat}

theorem isBranch_eq (h : Padded S T extra) (hi : i < S.length) :
    isBranch (T.insn (placed extra i)) = isBranch (S.insn i) :=
  (h.kept i hi).isBranch_eq

theorem branchesToAddress_eq (h : Padded S T extra) (hi : i < S.length) :
    T.branchesToAddress (placed extra i) = S.branchesToAddress i := by
  rw [Subject.branchesToAddress, Subject.branchesToAddress, (h.kept i hi).isBranchUncoditional_eq,
    (h.kept i hi).isBranchConditional_eq]

theorem branchesToRegister_eq (h : Padded S T extra) (hi : i < S.length) :
    T.branchesToRegister (placed extra i) = S.branchesToRegister i := by
  rw [Subject.branchesToRegister, Subject.branchesToRegister, (h.kept i hi).toRegister_eq.1,
    (h.kept i hi).toRegister_eq.2]

theorem fallsThrough_eq (h : Padded S T extra) (hi : i < S.length) :
    T.fallsThrough (placed extra i) = S.fallsThrough i := by
  have hkept := h.kept i hi
  rw [Subject.fallsThrough, Subject.fallsThrough, hkept.isBranch_eq, hkept.isLink_eq,
    hkept.isBranchUncoditional_eq]
  cases hu : isBranchUncoditional (S.insn i)
  · rw [hkept.condition_eq hu]
  · rfl

/-- Nothing is inserted after a branch. -/
theorem placed_succ (h : Padded S T extra) (hi : i < S.length)
    (hbranch : isBranch (S.insn i) = true) : placed extra (i + 1) = placed extra i + 1 := by
  rw [placed, h.afterBranch i hi hbranch, add_zero]

theorem placed_lt (h : Padded S T extra) (hi : i < S.length) : placed extra i < T.length := by
  rw [h.length]
  exact placed_strictMono hi

/-- A branch of the new function is an old one. -/
theorem exists_of_isBranch (h : Padded S T extra) {k : Nat} (hk : k < T.length)
    (hbranch : isBranch (T.insn k) = true) :
    ∃ i < S.length, k = placed extra i ∧ isBranch (S.insn i) = true := by
  obtain ⟨i, hle, hlt⟩ := exists_placed extra k
  have hi : i < S.length := by
    rw [h.length] at hk
    exact placed_strictMono.lt_iff_lt.mp (lt_of_le_of_lt hle hk)
  rcases Nat.eq_or_lt_of_le hle with heq | hgt
  · subst heq
    exact ⟨i, hi, rfl, (h.isBranch_eq hi).symm.trans hbranch⟩
  · rw [h.inserted i hi k hgt hlt] at hbranch
    cases hbranch

theorem analysable (h : Padded S T extra) (hS : S.Analysable) : T.Analysable := by
  have hlast : S.length - 1 < S.length := Nat.sub_lt hS.nonempty Nat.one_pos
  obtain ⟨hbranch, hlink, hkind⟩ := hS.last
  have hkept := h.kept _ hlast
  have hend : T.length - 1 = placed extra (S.length - 1) := by
    have hsucc := h.placed_succ hlast hbranch
    rw [Nat.sub_add_cancel hS.nonempty] at hsucc
    rw [h.length, hsucc, Nat.add_sub_cancel]
  refine ⟨?_, h.whole, h.inside, ?_, ?_⟩
  · exact Nat.zero_lt_of_lt (h.placed_lt hlast)
  · rw [hend, hkept.isBranch_eq, hkept.isLink_eq, hkept.isBranchUncoditional_eq]
    refine ⟨hbranch, hlink, ?_⟩
    cases hu : isBranchUncoditional (S.insn (S.length - 1))
    · rw [hkept.condition_eq hu]
      exact .inr (hkind.resolve_left (by simp [hu]))
    · exact .inl rfl
  · intro k hk hto
    have hbr : isBranch (T.insn k) = true := by
      rw [isBranch_iff]
      rcases Bool.or_eq_true_iff.mp hto with hu | hc
      · exact .inl hu
      · exact .inr (.inl hc)
    obtain ⟨i, hi, rfl, _⟩ := h.exists_of_isBranch hk hbr
    rw [h.branchesToAddress_eq hi] at hto
    obtain ⟨t, ht, _⟩ := hS.resolves i hi hto
    obtain ⟨u, hu, htarget⟩ := h.targets i hi hto t ht
    refine ⟨u, hu, fun hin => ?_⟩
    split at htarget
    · rw [htarget]
      exact T.dvd_pcLocation _
    · rw [htarget] at hin
      cases hin

/-- The exits of a branch are those it had, moved. -/
theorem exits_eq (h : Padded S T extra) (hS : S.Analysable) (hi : i < S.length)
    (hbranch : isBranch (S.insn i) = true) :
    T.exits (placed extra i) = (S.exits i).map fun e => (placed extra e.1, e.2) := by
  have hT := h.analysable hS
  rw [Subject.exits, Subject.exits, h.branchesToAddress_eq hi, h.branchesToRegister_eq hi,
    h.fallsThrough_eq hi, List.map_append]
  congr 1
  · cases hto : S.branchesToAddress i with
    | false =>
      cases S.branchesToRegister i <;> rfl
    | true =>
      obtain ⟨t, ht, hword⟩ := hS.resolves i hi hto
      obtain ⟨u, hu, htarget⟩ := h.targets i hi hto t ht
      simp only [if_true, List.map_cons, List.map_nil, List.cons.injEq, and_true]
      rw [Subject.targetExit, Subject.targetExit, ht, hu]
      dsimp only
      cases hin : S.func.contains t with
      | false =>
        rw [hin, if_neg (by decide)] at htarget
        simp [htarget]
      | true =>
        obtain ⟨hlt, _⟩ := hS.eq_pcLocation hin (hword hin)
        rw [hin, if_pos rfl] at htarget
        obtain ⟨hin', hpos⟩ := hT.contains_pcLocation (h.placed_lt hlt)
        rw [htarget, hin', hpos]
        rfl
  · cases S.fallsThrough i
    · rfl
    · simp [h.placed_succ hi hbranch]

end Padded

/-! ### The two graphs -/

/-- A block of the new function is that of the old one, moved. It ends at the same
instruction, or before the instruction the other one ends before. -/
structure SameBlock (extra : Nat → Nat) (x y : BasicBlock) : Prop where
  start : y.start = placed extra x.start
  stop : y.stop = placed extra x.stop ∨ y.stop + 1 = placed extra (x.stop + 1)
  blockType : y.blockType = x.blockType
  isExit : y.isExit = x.isExit
  endsInCall : y.endsInCall = x.endsInCall
  endsInTailCall : y.endsInTailCall = x.endsInTailCall

/-- The same blocks in the same order, and the same edges. -/
structure Corresponds (extra : Nat → Nat) (g h : ControlFlowGraph) : Prop where
  psTable : h.psTable = g.psTable
  blocks : List.Forall₂ (SameBlock extra) g.blocks h.blocks

theorem forall₂_modify {α β : Type} {R : α → β → Prop} {f : α → α} {f' : β → β}
    {xs : List α} {ys : List β} (h : List.Forall₂ R xs ys) (i : Nat)
    (hf : ∀ x y, R x y → R (f x) (f' y)) : List.Forall₂ R (xs.modify i f) (ys.modify i f') := by
  induction h generalizing i with
  | nil => cases i <;> exact .nil
  | @cons x y xs ys hxy hrest ih =>
    cases i with
    | zero => exact .cons (hf x y hxy) hrest
    | succ i => exact .cons hxy (ih i)

theorem forall₂_findIdx? {α β : Type} {R : α → β → Prop} {p : α → Bool} {q : β → Bool}
    {xs : List α} {ys : List β} (h : List.Forall₂ R xs ys) (hpq : ∀ x y, R x y → q y = p x) :
    ys.findIdx? q = xs.findIdx? p := by
  induction h with
  | nil => rfl
  | @cons x y xs ys hxy _ ih => rw [List.findIdx?_cons, List.findIdx?_cons, hpq x y hxy, ih]

namespace Corresponds
open ControlFlowGraph
variable {extra : Nat → Nat} {g h : ControlFlowGraph} {b pc p : Nat}

theorem length_eq (hc : Corresponds extra g h) : h.blocks.length = g.blocks.length :=
  hc.blocks.length_eq.symm

theorem getElem? (hc : Corresponds extra g h) {i : Nat} {x : BasicBlock}
    (hx : g.blocks[i]? = some x) : ∃ y, h.blocks[i]? = some y ∧ SameBlock extra x y := by
  have hblocks := hc.blocks
  obtain ⟨hlt, rfl⟩ := List.getElem?_eq_some_iff.mp hx
  have hlt' : i < h.blocks.length := by rw [hc.length_eq]; exact hlt
  exact ⟨_, List.getElem?_eq_getElem hlt', hblocks.get hlt hlt'⟩

theorem succ_eq (hc : Corresponds extra g h) (i : Nat) : h.succ i = g.succ i := by
  rw [succ, succ, hc.psTable]

theorem isInternal_eq (hc : Corresponds extra g h) (i : Nat) : h.isInternal i = g.isInternal i := by
  unfold isInternal
  cases hx : g.blocks[i]? with
  | some x =>
    obtain ⟨y, hy, hxy⟩ := hc.getElem? hx
    rw [hy]
    dsimp only
    rw [hxy.blockType]
  | none =>
    rw [List.getElem?_eq_none]
    rw [hc.length_eq]
    exact List.getElem?_eq_none_iff.mp hx

/-- The block that starts at an old instruction. -/
theorem find_eq (hc : Corresponds extra g h) (p : Nat) :
    h.findInternalBlockByPosition (placed extra p) = g.findInternalBlockByPosition p := by
  apply forall₂_findIdx? hc.blocks
  intro x y hxy
  rw [hxy.start, hxy.blockType]
  congr 1
  apply Bool.eq_iff_iff.mpr
  rw [beq_iff_eq, beq_iff_eq]
  exact placed_strictMono.injective.eq_iff

/-- No block starts at an inserted instruction. -/
theorem find_inserted (hc : Corresponds extra g h) {k : Nat} (hk : ∀ j, k ≠ placed extra j) :
    h.findInternalBlockByPosition k = none := by
  cases hfind : h.findInternalBlockByPosition k with
  | none => rfl
  | some j =>
    obtain ⟨y, hy, hs, _⟩ := findInternal_some _ hfind
    have hlt : j < g.blocks.length := by
      rw [← hc.length_eq]
      exact (List.getElem?_eq_some_iff.mp hy).1
    obtain ⟨z, hz, hxy⟩ := hc.getElem? (List.getElem?_eq_getElem hlt)
    obtain rfl := Option.some.inj (hy.symm.trans hz)
    exact absurd (hs.symm.trans hxy.start) (hk _)

/-! ### The operations keep the relation -/

theorem setEnd (hc : Corresponds extra g h) {pc' : Nat}
    (hpc : pc' = placed extra pc ∨ pc' + 1 = placed extra (pc + 1)) :
    Corresponds extra (g.setEnd b pc) (h.setEnd b pc') where
  psTable := hc.psTable
  blocks := forall₂_modify hc.blocks b fun _ _ hxy =>
    ⟨hxy.start, hpc, hxy.blockType, hxy.isExit, hxy.endsInCall, hxy.endsInTailCall⟩

theorem pushBlock (hc : Corresponds extra g h) {x y : BasicBlock} (hxy : SameBlock extra x y) :
    Corresponds extra (g.pushBlock x) (h.pushBlock y) where
  psTable := hc.psTable
  blocks := List.rel_append hc.blocks (.cons hxy .nil)

theorem pushEntry (hc : Corresponds extra g h) : Corresponds extra g.pushEntry h.pushEntry where
  psTable := by rw [ControlFlowGraph.pushEntry, ControlFlowGraph.pushEntry, hc.psTable]
  blocks := hc.blocks

theorem addEdge (hc : Corresponds extra g h) (o t : Nat) :
    Corresponds extra (g.addEdge o t) (h.addEdge o t) where
  psTable := by rw [ControlFlowGraph.addEdge, ControlFlowGraph.addEdge, hc.psTable]
  blocks := hc.blocks

theorem setFlags (hc : Corresponds extra g h) {f : BasicBlock → BasicBlock}
    (hf : ∀ x y, SameBlock extra x y → SameBlock extra (f x) (f y)) :
    Corresponds extra (g.setFlags b f) (h.setFlags b f) where
  psTable := hc.psTable
  blocks := forall₂_modify hc.blocks b hf

/-- A new block is one instruction long. -/
theorem sameBlock_new (extra : Nat → Nat) (p : Nat) (ty : BlockType) :
    SameBlock extra ⟨p, p, ty, false, false, false⟩
      ⟨placed extra p, placed extra p, ty, false, false, false⟩ :=
  ⟨rfl, .inl rfl, rfl, rfl, rfl, rfl⟩

theorem tryCreateSuccessorInternal (hc : Corresponds extra g h) (b pc p : Nat) :
    Corresponds extra (g.tryCreateSuccessorInternal b pc p).1
        (h.tryCreateSuccessorInternal b (placed extra pc) (placed extra p)).1 ∧
      (h.tryCreateSuccessorInternal b (placed extra pc) (placed extra p)).2 =
        (g.tryCreateSuccessorInternal b pc p).2 := by
  have hend : Corresponds extra (g.setEnd b pc) (h.setEnd b (placed extra pc)) :=
    hc.setEnd (.inl rfl)
  simp only [ControlFlowGraph.tryCreateSuccessorInternal, hend.find_eq p]
  cases (g.setEnd b pc).findInternalBlockByPosition p with
  | some j => exact ⟨hend.pushEntry.addEdge b j, rfl⟩
  | none =>
    dsimp only
    rw [hend.length_eq]
    exact ⟨(hend.pushBlock (sameBlock_new extra p .INTERNAL)).pushEntry.addEdge b _, rfl⟩

theorem createSuccessorOutside (hc : Corresponds extra g h) (ty : BlockType) (b pc : Nat) :
    Corresponds extra (createSuccessorOutside ty g b pc)
      (ControlFlowGraph.createSuccessorOutside ty h b (placed extra pc)) := by
  have hend : Corresponds extra (g.setEnd b pc) (h.setEnd b (placed extra pc)) :=
    hc.setEnd (.inl rfl)
  simp only [ControlFlowGraph.createSuccessorOutside]
  rw [hend.length_eq]
  exact (hend.pushBlock (sameBlock_new extra pc ty)).pushEntry.addEdge b _

end Corresponds

/-! ### The two recursions -/

namespace ControlFlowAnalysis
open ControlFlowGraph
variable {S T : Subject} {extra : Nat → Nat} {g h g' : ControlFlowGraph} {b pc : Nat}
  {recurse recurse' : Nat → ControlFlowGraph → Except Error ControlFlowGraph}

/-- Whenever the first recursion returns, the second one returns a graph that
corresponds. -/
def InStep (extra : Nat → Nat)
    (recurse recurse' : Nat → ControlFlowGraph → Except Error ControlFlowGraph) : Prop :=
  ∀ b g h g', Corresponds extra g h → recurse b g = .ok g' →
    ∃ h', recurse' b h = .ok h' ∧ Corresponds extra g' h'

theorem linkExit_inStep (hrec : InStep extra recurse recurse') (hc : Corresponds extra g h)
    {e : Nat × BlockType} (hok : linkExit recurse b pc g e = .ok g') :
    ∃ h', linkExit recurse' b (placed extra pc) h (placed extra e.1, e.2) = .ok h' ∧
      Corresponds extra g' h' := by
  obtain ⟨t, ty⟩ := e
  cases ty with
  | EXTERNAL =>
    cases hok
    exact ⟨_, rfl, hc.createSuccessorOutside .EXTERNAL b pc⟩
  | RUNTIME =>
    cases hok
    exact ⟨_, rfl, hc.createSuccessorOutside .RUNTIME b pc⟩
  | INTERNAL =>
    obtain ⟨hgraph, hnew⟩ := hc.tryCreateSuccessorInternal b pc t
    simp only [linkExit, linkInternal] at hok ⊢
    cases hcreate : g.tryCreateSuccessorInternal b pc t with
    | mk g₁ new =>
      cases hcreate' : h.tryCreateSuccessorInternal b (placed extra pc) (placed extra t) with
      | mk h₁ new' =>
        rw [hcreate, hcreate'] at hgraph hnew
        rw [hcreate] at hok
        obtain rfl : new' = new := hnew
        cases new' with
        | none =>
          cases hok
          exact ⟨h₁, rfl, hgraph⟩
        | some j => exact hrec j g₁ h₁ g' hgraph hok

theorem linkExits_inStep (hrec : InStep extra recurse recurse') (hc : Corresponds extra g h)
    {es : List (Nat × BlockType)} (hok : linkExits recurse b pc g es = .ok g') :
    ∃ h', linkExits recurse' b (placed extra pc) h (es.map fun e => (placed extra e.1, e.2)) =
      .ok h' ∧ Corresponds extra g' h' := by
  induction es generalizing g h with
  | nil =>
    cases hok
    exact ⟨h, rfl, hc⟩
  | cons e es ih =>
    obtain ⟨g₁, hfirst, hok⟩ := bind_eq_ok.mp hok
    obtain ⟨h₁, hfirst', hc₁⟩ := linkExit_inStep hrec hc hfirst
    obtain ⟨h', hrest', hc'⟩ := ih hc₁ hok
    exact ⟨h', bind_eq_ok.mpr ⟨h₁, hfirst', hrest'⟩, hc'⟩

/-- The branch sets the same flags on its block. -/
theorem branchFlags_eq (hP : Padded S T extra) (hc : Corresponds extra g h) (hpc : pc < S.length)
    (hbranch : isBranch (S.insn pc) = true) :
    branchFlags T b (placed extra pc) h = branchFlags S b pc g := by
  have hkept := hP.kept pc hpc
  have hlast : placed extra pc + 1 = T.length ↔ pc + 1 = S.length := by
    rw [← hP.placed_succ hpc hbranch, hP.length]
    exact placed_strictMono.injective.eq_iff
  have hext : h.hasExternalSuccessor b = g.hasExternalSuccessor b := by
    rw [hasExternalSuccessor, hasExternalSuccessor, hc.succ_eq]
    congr 1
    funext j
    rw [hc.isInternal_eq]
  rw [branchFlags, branchFlags, hkept.isLink_eq, hP.fallsThrough_eq hpc, hkept.toRegister_eq.1,
    tailFlags, tailFlags, hext]
  simp only [hlast]

theorem sameBlock_branchFlags {x y : BasicBlock} (hxy : SameBlock extra x y) :
    SameBlock extra (branchFlags S b pc g x) (branchFlags S b pc g y) := by
  obtain ⟨hstart, hstop, hty, hexit, hcall, htail⟩ := hxy
  unfold branchFlags tailFlags
  split_ifs
  · exact ⟨hstart, hstop, hty, hexit, rfl, htail⟩
  · exact ⟨hstart, hstop, hty, hexit, hcall, htail⟩
  · exact ⟨hstart, hstop, hty, rfl, hcall, htail⟩
  · exact ⟨hstart, hstop, hty, rfl, rfl, rfl⟩
  · exact ⟨hstart, hstop, hty, hexit, hcall, htail⟩

/-- What the first scan passes over, with all that was inserted there, the second one
passes over. -/
theorem passed_placed (hP : Padded S T extra) (hc : Corresponds extra g h) {start last : Nat}
    (hlast : last ≤ S.length) (hpass : Passed S g start last) :
    Passed T h (placed extra start) (placed extra last) := by
  intro k hk hlt
  obtain ⟨i, hle, hnext⟩ := exists_placed extra k
  have hi : i < last := placed_strictMono.lt_iff_lt.mp (lt_of_le_of_lt hle hlt)
  have hs : start ≤ i := Nat.lt_succ_iff.mp (placed_strictMono.lt_iff_lt.mp (lt_of_le_of_lt hk hnext))
  obtain ⟨hbranch, hfind⟩ := hpass i hs hi
  constructor
  · rcases Nat.eq_or_lt_of_le hle with heq | hgt
    · rw [← heq, hP.isBranch_eq (by omega)]
      exact hbranch
    · exact hP.inserted i (by omega) k hgt hnext
  · by_cases hend : k + 1 = placed extra (i + 1)
    · rw [hend, hc.find_eq]
      exact hfind
    · exact hc.find_inserted (ne_placed (Nat.lt_succ_of_le hle) (by omega))

/-- A scan that has to stop at `last` ends there. -/
theorem scanEnd_unique {start last last' : Nat} {result : Except Error ControlFlowGraph}
    (hpass : Passed T h start last) (hpass' : Passed T h start last') (hle : start ≤ last)
    (hle' : start ≤ last') (hend : ScanEnd T recurse b h last' result)
    (hstop : isBranch (T.insn last) = true ∨ h.findInternalBlockByPosition (last + 1) ≠ none) :
    last' = last := by
  rcases Nat.lt_trichotomy last' last with hlt | heq | hgt
  · obtain ⟨hbranch, hfind⟩ := hpass last' hle' hlt
    cases hend with
    | branch hbranch' _ =>
      rw [hbranch] at hbranch'
      cases hbranch'
    | following _ hfind' _ =>
      rw [hfind] at hfind'
      cases hfind'
  · exact heq
  · obtain ⟨hbranch, hfind⟩ := hpass' last hle hgt
    rcases hstop with hstop | hstop
    · rw [hbranch] at hstop
      cases hstop
    · exact absurd hfind hstop

/-- **The two scans of a block stop at the same place and do the same there.** -/
theorem blockLoop_inStep (hS : S.Analysable) (hP : Padded S T extra)
    (hrec : InStep extra recurse recurse') (hc : Corresponds extra g h) {start : Nat}
    (hstart : start < S.length)
    (hok : blockLoop S recurse b (S.length - start) start g = .ok g') :
    ∃ h', blockLoop T recurse' b (T.length - placed extra start) (placed extra start) h = .ok h' ∧
      Corresponds extra g' h' := by
  have hT := hP.analysable hS
  have hstart' := hP.placed_lt hstart
  obtain ⟨last, hle, hlast, hpass, hend⟩ := blockLoop_end recurse b (S.length - start) hS g hstart
    (by omega)
  obtain ⟨last', hle', hlast', hpass', hend'⟩ := blockLoop_end recurse' b
    (T.length - placed extra start) hT h hstart' (by omega)
  have hplaced : placed extra start ≤ placed extra last := placed_strictMono.monotone hle
  cases hend with
  | branch hbranch hresult =>
    have hbranch' := (hP.isBranch_eq hlast).trans hbranch
    obtain rfl := scanEnd_unique (passed_placed hP hc hlast.le hpass) hpass' hplaced hle' hend'
      (.inl hbranch')
    rw [hresult] at hok
    obtain ⟨g₁, hlinks, rfl⟩ := map_eq_ok.mp hok
    obtain ⟨h₁, hlinks', hc₁⟩ := linkExits_inStep hrec hc hlinks
    rw [← hP.exits_eq hS hlast hbranch] at hlinks'
    cases hend' with
    | branch _ hresult' =>
      refine ⟨_, hresult'.trans (map_eq_ok.mpr ⟨h₁, hlinks', rfl⟩), ?_⟩
      rw [branchFlags_eq hP hc₁ hlast hbranch]
      exact hc₁.setFlags fun _ _ => sameBlock_branchFlags
    | following hno _ _ =>
      rw [hbranch'] at hno
      cases hno
  | @following j hbranch hfind hresult =>
    -- the second scan goes on through what is inserted after `last`
    have hnext : last + 1 < S.length := hS.next_lt hlast (by simp [Subject.fallsThrough, hbranch])
    have hpos : placed extra last < placed extra (last + 1) :=
      placed_strictMono (Nat.lt_add_one last)
    have hfind' : h.findInternalBlockByPosition (placed extra (last + 1) - 1 + 1) = some j := by
      rw [Nat.sub_add_cancel (by omega), hc.find_eq]
      exact hfind
    have hthrough : Passed T h (placed extra start) (placed extra (last + 1) - 1) := by
      intro k hk hlt
      by_cases hbefore : k < placed extra last
      · exact passed_placed hP hc hlast.le hpass k hk hbefore
      · refine ⟨?_, hc.find_inserted (ne_placed (i := last) (by omega) (by omega))⟩
        rcases Nat.eq_or_lt_of_le (Nat.le_of_not_lt hbefore) with heq | hgt
        · rw [← heq, hP.isBranch_eq hlast]
          exact hbranch
        · exact hP.inserted last hlast k hgt (by omega)
    obtain rfl := scanEnd_unique hthrough hpass' (by omega) hle' hend' (.inr (by simp [hfind']))
    rw [hresult] at hok
    cases hok
    cases hend' with
    | branch hbranch' _ =>
      exfalso
      obtain ⟨i, hi, heq, hbr⟩ := hP.exists_of_isBranch hlast' hbranch'
      rcases Nat.eq_or_lt_of_le (show placed extra last ≤ placed extra (last + 1) - 1 by omega) with
        h₁ | h₁
      · obtain rfl := placed_strictMono.injective (h₁.trans heq)
        rw [hbranch] at hbr
        cases hbr
      · exact ne_placed h₁ (by omega) i heq
    | @following j' _ hfind'' hresult' =>
      obtain rfl := Option.some.inj (hfind'.symm.trans hfind'')
      refine ⟨_, hresult', ?_⟩
      exact (hc.setEnd (.inr (Nat.sub_add_cancel (by omega)))).addEdge b j

theorem functionCFABlock_inStep (hS : S.Analysable) (hP : Padded S T extra) (fuel more : Nat) :
    InStep extra (functionCFABlock S fuel) (functionCFABlock T (fuel + more)) := by
  induction fuel with
  | zero =>
    intro b g h g' _ hok
    cases hok
  | succ fuel ih =>
    intro b g h g' hc hok
    obtain ⟨x, hx, hok⟩ := bind_eq_ok.mp hok
    dsimp only at hok
    obtain ⟨y, hy, hxy⟩ := hc.getElem? (at?_eq_ok.mp hx)
    rw [Nat.add_right_comm, functionCFABlock, at?_eq_ok.mpr hy]
    change ∃ h', blockLoop T (functionCFABlock T (fuel + more)) b (T.length - y.start) y.start h =
      .ok h' ∧ Corresponds extra g' h'
    rw [hxy.start]
    by_cases hstart : x.start < S.length
    · exact blockLoop_inStep hS hP ih hc hstart hok
    · -- a block behind the end of the function is not scanned
      have hpast : S.length - x.start = 0 := by omega
      have hpast' : T.length - placed extra x.start = 0 := by
        have hmono : StrictMono (placed extra) := placed_strictMono
        have := hmono.monotone (Nat.le_of_not_lt hstart)
        rw [hP.length]
        omega
      rw [hpast] at hok
      cases hok
      rw [hpast']
      exact ⟨h, rfl, hc⟩

end ControlFlowAnalysis

/-- The graph `h` has the blocks of `g` in the same order, with the same types, flags and
edges. A block starts at the same instruction, and ends at the same one if that is a
branch. -/
structure SameShape (S T : Subject) (extra : Nat → Nat) (g h : ControlFlowGraph) : Prop where
  count : h.blocks.length = g.blocks.length
  successors : ∀ i, h.succ i = g.succ i
  predecessors : ∀ i, h.pred i = g.pred i
  types : ∀ (i : Nat) (x y : BasicBlock), g.blocks[i]? = some x → h.blocks[i]? = some y →
    y.blockType = x.blockType
  flags : ∀ (i : Nat) (x y : BasicBlock), g.blocks[i]? = some x → h.blocks[i]? = some y →
    y.isExit = x.isExit ∧ y.endsInCall = x.endsInCall ∧ y.endsInTailCall = x.endsInTailCall
  starts : ∀ (i : Nat) (x y : BasicBlock), g.blocks[i]? = some x → h.blocks[i]? = some y →
    y.start = placed extra x.start
  ends : ∀ (i : Nat) (x y : BasicBlock), g.blocks[i]? = some x → h.blocks[i]? = some y →
    isBranch (S.insn x.stop) = true ∨ isBranch (T.insn y.stop) = true →
      y.stop = placed extra x.stop

/-- Of two corresponding blocks inside the function one ends in a branch only if the
other does, and then it is the same branch. -/
theorem SameBlock.stop_eq {S T : Subject} {extra : Nat → Nat} {x y : BasicBlock}
    (hP : Padded S T extra) (hxy : SameBlock extra x y) (hx : x.stop < S.length)
    (hy : y.stop < T.length)
    (hbranch : isBranch (S.insn x.stop) = true ∨ isBranch (T.insn y.stop) = true) :
    y.stop = placed extra x.stop := by
  rcases hxy.stop with hstop | hstop
  · exact hstop
  · rcases hbranch with hbranch | hbranch
    · have := hP.placed_succ hx hbranch
      omega
    · obtain ⟨i, hi, heq, hbr⟩ := hP.exists_of_isBranch hy hbranch
      have hpos : placed extra x.stop < placed extra (x.stop + 1) :=
        placed_strictMono (Nat.lt_add_one x.stop)
      by_contra hne
      exact ne_placed (i := x.stop) (by omega) (by omega) i heq

/-- **Instructions that are no branches do not change the shape of the graph.** -/
theorem functionCFA_padded (S T : Subject) (extra : Nat → Nat) (hS : S.Analysable)
    (hP : Padded S T extra) :
    ∃ g h, ControlFlowAnalysis.functionCFA S = .ok g ∧ ControlFlowAnalysis.functionCFA T = .ok h ∧
      SameShape S T extra g h := by
  obtain ⟨g, hok, hfin⟩ := ControlFlowAnalysis.functionCFA_finished hS
  have hlen : S.length ≤ T.length := by
    rw [hP.length]
    exact placed_strictMono.le_apply
  obtain ⟨h, hok', hc⟩ := ControlFlowAnalysis.functionCFABlock_inStep hS hP (S.length + 1)
    (T.length - S.length) 0 _ ControlFlowGraph.init _
    ⟨rfl, .cons (Corresponds.sameBlock_new extra 0 .INTERNAL) .nil⟩ hok
  rw [show S.length + 1 + (T.length - S.length) = T.length + 1 by omega] at hok'
  obtain ⟨h₁, hok₁, hfin'⟩ := ControlFlowAnalysis.functionCFA_finished (hP.analysable hS)
  obtain rfl : h₁ = h := Except.ok.inj (hok₁.symm.trans hok')
  have hw := ControlFlowAnalysis.functionCFA_wellFormed S hok
  have hw' := ControlFlowAnalysis.functionCFA_wellFormed T hok₁
  have hsame : ∀ (i : Nat) (x y : BasicBlock), g.blocks[i]? = some x → h₁.blocks[i]? = some y →
      SameBlock extra x y := by
    intro i x y hx hy
    obtain ⟨z, hz, hxz⟩ := hc.getElem? hx
    obtain rfl := Option.some.inj (hy.symm.trans hz)
    exact hxz
  refine ⟨g, h₁, hok, hok₁, hc.length_eq, hc.succ_eq, fun i => ?_, fun i x y hx hy => ?_,
    fun i x y hx hy => ?_, fun i x y hx hy => ?_, fun i x y hx hy hbranch => ?_⟩
  · rw [ControlFlowGraph.pred, ControlFlowGraph.pred, hc.psTable]
  · exact (hsame i x y hx hy).blockType
  · have hxy := hsame i x y hx hy
    exact ⟨hxy.isExit, hxy.endsInCall, hxy.endsInTailCall⟩
  · exact (hsame i x y hx hy).start
  · have hxy := hsame i x y hx hy
    by_cases hty : x.blockType = .INTERNAL
    · exact hxy.stop_eq hP (hfin i x ⟨hx, hty⟩).range.2
        (hfin' i y ⟨hy, hxy.blockType.trans hty⟩).range.2 hbranch
    · -- a block outside the function is one instruction long
      rw [← (hw.outside i x hx hty).1, ← hxy.start]
      exact (hw'.outside i y hy (hxy.blockType ▸ hty)).1.symm

/-- `li r3,1; beq` to the last instruction; `li r3,2; blr`. -/
def skipped : Subject :=
  assembledSubject [0x38600001, 0x41820008, 0x38600002, 0x4e800020] 4 (by decide)

/-- With `li r4,1` before the `beq` and `li r4,2` before the `blr`. -/
def skippedPadded : Subject :=
  assembledSubject [0x38600001, 0x38800001, 0x4182000c, 0x38600002, 0x38800002, 0x4e800020] 6
    (by decide)

theorem skipped_analysable : skipped.Analysable :=
  assembledSubject_analysable (by decide) (by decide) (by decide +kernel) (by decide +kernel)

theorem skipped_padded :
    Padded skipped skippedPadded fun i => if i = 0 ∨ i = 2 then 1 else 0 where
  length := by decide
  kept := by decide +kernel
  afterBranch := by decide +kernel
  inserted := by
    have hall : ∀ i < skipped.length, ∀ k < skippedPadded.length,
        placed (fun i => if i = 0 ∨ i = 2 then 1 else 0) i < k →
        k < placed (fun i => if i = 0 ∨ i = 2 then 1 else 0) (i + 1) →
        isBranch (skippedPadded.insn k) = false := by decide +kernel
    intro i hi k hlt hnext
    refine hall i hi k (lt_of_lt_of_le hnext ?_) hlt hnext
    exact placed_strictMono.monotone (Nat.succ_le_of_lt hi)
  targets := by
    have hall : ∀ i < skipped.length, skipped.branchesToAddress i = true →
        i = 1 ∧ skipped.branchTarget 1 = .ok (some ⟨⟨0, 12⟩, 0⟩) ∧
        skippedPadded.branchTarget 2 = .ok (some ⟨⟨0, 20⟩, 0⟩) := by decide +kernel
    intro i hi hto t ht
    obtain ⟨rfl, htarget, htarget'⟩ := hall i hi hto
    obtain rfl : (⟨⟨0, 12⟩, 0⟩ : ProgramLocation) = t := by
      rw [htarget] at ht
      simpa using ht
    exact ⟨_, htarget', by decide +kernel⟩
  whole := by decide
  inside := ⟨_, _, rfl, rfl, by decide⟩

theorem functionCFA_padded_skipped :
    ∃ g h, ControlFlowAnalysis.functionCFA skipped = .ok g ∧
      ControlFlowAnalysis.functionCFA skippedPadded = .ok h ∧
      SameShape skipped skippedPadded (fun i => if i = 0 ∨ i = 2 then 1 else 0) g h :=
  functionCFA_padded skipped skippedPadded _ skipped_analysable skipped_padded

end Ppc2cpp
