import Ppc2cpp.Analysis.Analysed
import Ppc2cpp.ControlFlow.Assembled
import Ppc2cpp.DataFlow.Sinks

/-! The return registers of two functions.

A return value is compared like any other sink: with the one at its place, by the
instruction and by what it depends on. The register it is in takes no part. Two
functions with the verdict `true` have as many return values in each block, and they are
in the same registers exactly where definitions of the same return registers reach. -/
namespace Ppc2cpp
open ControlFlowGraph Matching DataFlowAnalysis ProgramComparator

namespace Analysed

/-- The sink in place `i` of a block is the return value in a register. -/
def ReturnAt (A : Analysed) (b i : Nat) (loc : CpuMemoryLocation) : Prop :=
  ∃ x returnIdx, (A.dfg.blockSinks b)[i]? = some x ∧ A.dfg.heap.kind? x = some (.ret returnIdx loc)

/-- The return values of two functions are in the same registers, and each is in the place
of the one it belongs to. -/
def ReturnsAgree (A₁ A₂ : Analysed) : Prop :=
  ∀ b, ∀ loc ∈ definedByCall, ((∃ i, A₁.ReturnAt b i loc) ↔ ∃ i, A₂.ReturnAt b i loc) ∧
    ∀ i j, A₁.ReturnAt b i loc → A₂.ReturnAt b j loc → i = j

/-- The block is an exit, and a definition of the register reaches its end. -/
def Returns (A : Analysed) (b : Nat) (loc : CpuMemoryLocation) : Prop :=
  (∃ x, A.cfg.Internal b x ∧ x.isExit = true) ∧
    ∃ slot d, loc.slot? = some slot ∧ A.subject.ReachesEnd A.cfg slot d b

section
variable (A : Analysed) {b : Nat} {loc : CpuMemoryLocation}

/-- The sinks of a block: so many of instructions, and then the registers it returns. -/
theorem exists_returnAt (b : Nat) : ∃ p, (∀ i loc, A.ReturnAt b i loc ↔
      p ≤ i ∧ (returned A.cfg A.dfg b)[i - p]? = some loc) ∧
    (A.dfg.blockSinks b).length = p + (returned A.cfg A.dfg b).length ∧
    ∀ i < p, ∃ x pc, (A.dfg.blockSinks b)[i]? = some x ∧ A.dfg.heap.kind? x = some (.sink pc) := by
  have hreturning := A.isTrace.returning (le_refl A.steps) b
  rw [A.result] at hreturning
  obtain ⟨plain, rets, hsinks, hplain, hrets⟩ := hreturning
  obtain ⟨hlen, hget⟩ := List.forall₂_iff_get.mp hrets
  refine ⟨plain.length, fun i loc => ?_, by rw [hsinks, List.length_append, hlen], fun i hi => ?_⟩
  · constructor
    · rintro ⟨x, returnIdx, hx, hkind⟩
      rw [hsinks] at hx
      rcases Nat.lt_or_ge i plain.length with hi | hi
      · rw [List.getElem?_append_left hi] at hx
        obtain ⟨pc, hpc⟩ := hplain x (List.mem_of_getElem? hx)
        rw [hpc] at hkind
        cases hkind
      · rw [List.getElem?_append_right hi] at hx
        obtain ⟨hj, rfl⟩ := List.getElem?_eq_some_iff.mp hx
        have hret := hget _ hj (hlen ▸ hj)
        have hkind' := hret.kind
        rw [List.get_eq_getElem, hkind] at hkind'
        obtain ⟨_, hloc⟩ := NodeKind.ret.inj (Option.some.inj hkind')
        exact ⟨hi, List.getElem?_eq_some_iff.mpr ⟨hlen ▸ hj, hloc.symm⟩⟩
    · rintro ⟨hi, hloc⟩
      obtain ⟨hj, rfl⟩ := List.getElem?_eq_some_iff.mp hloc
      have hret := hget _ (hlen.symm ▸ hj) hj
      refine ⟨_, _, ?_, hret.kind⟩
      rw [hsinks, List.getElem?_append_right hi]
      exact List.getElem?_eq_getElem (hlen.symm ▸ hj)
  · obtain ⟨pc, hpc⟩ := hplain _ (List.getElem_mem hi)
    refine ⟨_, pc, ?_, hpc⟩
    rw [hsinks, List.getElem?_append_left hi]
    exact List.getElem?_eq_getElem hi

theorem mem_returned_iff : loc ∈ returned A.cfg A.dfg b ↔ loc ∈ definedByCall ∧ A.Returns b loc := by
  have h : loc ∈ returned A.cfg (A.trace A.steps) b ↔ _ :=
    A.isTrace.mem_returned_iff A.wellFormed (A.result ▸ worklist_of_ok A.dfa)
  rwa [A.result] at h

/-- **A block has a return value for each return register it returns.** -/
theorem returnAt_iff (hloc : loc ∈ definedByCall) : (∃ i, A.ReturnAt b i loc) ↔ A.Returns b loc := by
  obtain ⟨p, hat, _⟩ := A.exists_returnAt b
  rw [← and_iff_right (a := loc ∈ definedByCall) (b := A.Returns b loc) hloc, ← mem_returned_iff]
  constructor
  · rintro ⟨i, hi⟩
    exact List.mem_of_getElem? ((hat i loc).mp hi).2
  · intro hmem
    obtain ⟨j, hj⟩ := List.mem_iff_getElem?.mp hmem
    exact ⟨p + j, (hat _ loc).mpr ⟨Nat.le_add_right p j, by rwa [Nat.add_sub_cancel_left]⟩⟩

theorem returned_nodup : (returned A.cfg A.dfg b).Nodup := by
  unfold returned
  split
  · exact List.Nodup.filter _ (by decide)
  · exact List.nodup_nil

theorem blockSinks_eq_nil (hb : A.cfg.blocks.length ≤ b) : A.dfg.blockSinks b = [] := by
  refine List.eq_nil_iff_forall_not_mem.mpr fun x hx => ?_
  rw [← A.result] at hx
  exact absurd ((A.isTrace.fits (le_refl A.steps)).lt_of_mem_blockSinks hx) (Nat.not_lt.mpr hb)

end

section
variable {A₁ A₂ : Analysed} {fuel b : Nat}

/-- The sinks of each block match in order. -/
theorem sinks_match (h : (A₁.subject.comparator A₂.subject).FlowsMatch fuel A₁.side A₂.side)
    (b : Nat) : List.Forall₂ ((A₁.subject.comparator A₂.subject).NodesMatch fuel A₁.side A₂.side)
      (A₁.dfg.blockSinks b) (A₂.dfg.blockSinks b) := by
  rcases Nat.lt_or_ge b A₁.cfg.blocks.length with hb | hb
  · exact (h.2 b hb).1
  · have hb₂ : A₂.cfg.blocks.length ≤ b := h.1 ▸ hb
    rw [A₁.blockSinks_eq_nil hb, A₂.blockSinks_eq_nil hb₂]
    exact .nil

/-- A return value matches no other sink. -/
theorem not_ret_sink {x₁ x₂ : NodeId} {returnIdx pc : Nat} {loc : CpuMemoryLocation}
    (h : (A₁.subject.comparator A₂.subject).NodesMatch fuel A₁.side A₂.side x₁ x₂) :
    ¬ (A₁.dfg.heap.kind? x₁ = some (.ret returnIdx loc) ∧
        A₂.dfg.heap.kind? x₂ = some (.sink pc)) ∧
      ¬ (A₁.dfg.heap.kind? x₁ = some (.sink pc) ∧
        A₂.dfg.heap.kind? x₂ = some (.ret returnIdx loc)) := by
  obtain ⟨kind₁, kind₂, hkind₁, hkind₂, hkinds⟩ := (match_iff.mp h).1
  constructor
  · rintro ⟨h₁, h₂⟩
    obtain rfl := Option.some.inj (hkind₁.symm.trans h₁)
    obtain rfl := Option.some.inj (hkind₂.symm.trans h₂)
    cases hkinds
  · rintro ⟨h₁, h₂⟩
    obtain rfl := Option.some.inj (hkind₁.symm.trans h₁)
    obtain rfl := Option.some.inj (hkind₂.symm.trans h₂)
    cases hkinds

/-- In two functions that match, the return values of a block are in the same places. -/
theorem exists_returnAt_both
    (h : (A₁.subject.comparator A₂.subject).FlowsMatch fuel A₁.side A₂.side) (b : Nat) :
    ∃ p, (∀ i loc, A₁.ReturnAt b i loc ↔
        p ≤ i ∧ (returned A₁.cfg A₁.dfg b)[i - p]? = some loc) ∧
      ∀ i loc, A₂.ReturnAt b i loc ↔
        p ≤ i ∧ (returned A₂.cfg A₂.dfg b)[i - p]? = some loc := by
  obtain ⟨p₁, hat₁, hlen₁, hplain₁⟩ := A₁.exists_returnAt b
  obtain ⟨p₂, hat₂, hlen₂, hplain₂⟩ := A₂.exists_returnAt b
  obtain ⟨hlen, hget⟩ := List.forall₂_iff_get.mp (sinks_match h b)
  have hmatch : ∀ (i : Nat) x₁ x₂, (A₁.dfg.blockSinks b)[i]? = some x₁ → (A₂.dfg.blockSinks b)[i]? = some x₂ →
      (A₁.subject.comparator A₂.subject).NodesMatch fuel A₁.side A₂.side x₁ x₂ := by
    intro i x₁ x₂ h₁ h₂
    obtain ⟨hi₁, rfl⟩ := List.getElem?_eq_some_iff.mp h₁
    obtain ⟨hi₂, rfl⟩ := List.getElem?_eq_some_iff.mp h₂
    exact hget i hi₁ hi₂
  rcases Nat.lt_trichotomy p₁ p₂ with hlt | heq | hgt
  · -- the first return value of one function would match another sink of the other
    have hr : 0 < (returned A₁.cfg A₁.dfg b).length := by omega
    obtain ⟨x₁, returnIdx, hx₁, hkind₁⟩ := (hat₁ p₁ _).mpr ⟨le_refl p₁, by
      rw [Nat.sub_self]
      exact List.getElem?_eq_getElem hr⟩
    obtain ⟨x₂, pc, hx₂, hkind₂⟩ := hplain₂ p₁ hlt
    exact absurd ⟨hkind₁, hkind₂⟩ (not_ret_sink (hmatch p₁ x₁ x₂ hx₁ hx₂)).1
  · exact ⟨p₁, hat₁, heq ▸ hat₂⟩
  · have hr : 0 < (returned A₂.cfg A₂.dfg b).length := by omega
    obtain ⟨x₂, returnIdx, hx₂, hkind₂⟩ := (hat₂ p₂ _).mpr ⟨le_refl p₂, by
      rw [Nat.sub_self]
      exact List.getElem?_eq_getElem hr⟩
    obtain ⟨x₁, pc, hx₁, hkind₁⟩ := hplain₁ p₂ hgt
    exact absurd ⟨hkind₁, hkind₂⟩ (not_ret_sink (hmatch p₂ x₁ x₂ hx₁ hx₂)).2

/-- Blocks that return the same registers list them in the same order. -/
theorem returned_eq (h : ∀ loc ∈ definedByCall, A₁.Returns b loc ↔ A₂.Returns b loc) :
    returned A₁.cfg A₁.dfg b = returned A₂.cfg A₂.dfg b := by
  have hfilter : ∀ A : Analysed, returned A.cfg A.dfg b =
      definedByCall.filter (· ∈ returned A.cfg A.dfg b) := by
    intro A
    by_cases he : (A.cfg.block b).isExit = true
    · rw [returned, if_pos he]
      exact List.filter_congr fun loc hloc => by simp [hloc]
    · simp [returned, he]
  rw [hfilter A₁, hfilter A₂]
  refine List.filter_congr fun loc hloc => decide_eq_decide.mpr ?_
  rw [A₁.mem_returned_iff, A₂.mem_returned_iff, h loc hloc]

/-- **Two functions with the verdict `true` return in the same registers iff in each block
definitions of the same return registers reach.** -/
theorem returnsAgree_iff (A₁ A₂ : Analysed) (fuel : Nat)
    (hverdict : (A₁.subject.comparator A₂.subject).compareFunctionFlows fuel A₁.function
      A₂.function = .ok true) :
    ReturnsAgree A₁ A₂ ↔ ∀ b, ∀ loc ∈ definedByCall, A₁.Returns b loc ↔ A₂.Returns b loc := by
  have hflows := compareFunctionFlows_iff.mp hverdict
  constructor
  · intro h b loc hloc
    rw [← A₁.returnAt_iff hloc, ← A₂.returnAt_iff hloc]
    exact (h b loc hloc).1
  · intro h b loc hloc
    refine ⟨by rw [A₁.returnAt_iff hloc, A₂.returnAt_iff hloc]; exact h b loc hloc, ?_⟩
    intro i j hi hj
    obtain ⟨p, hat₁, hat₂⟩ := exists_returnAt_both hflows b
    obtain ⟨hpi, hi⟩ := (hat₁ i loc).mp hi
    obtain ⟨hpj, hj⟩ := (hat₂ j loc).mp hj
    rw [← returned_eq (h b)] at hj
    obtain ⟨hli, hi⟩ := List.getElem?_eq_some_iff.mp hi
    obtain ⟨hlj, hj⟩ := List.getElem?_eq_some_iff.mp hj
    have := (A₁.returned_nodup (b := b)).getElem_inj_iff.mp (hi.trans hj.symm)
    omega

end

end Analysed

/-! ### Values in different registers -/

/-- `li rD,1; blr`. -/
def loadOne (insn : Word) : Subject := assembledSubject [insn, 0x4e800020] 2 ⟨by simp, by simp⟩

/-- `li r3,1; blr`, compared with itself. -/
theorem returnsAgree_iff_same : ∃ A₁ A₂ : Analysed, A₁.subject = loadOne 0x38600001 ∧
    A₂.subject = loadOne 0x38600001 ∧
      (A₁.subject.comparator A₂.subject).compareFunctionFlows 1 A₁.function A₂.function =
        .ok true ∧ A₁.ReturnsAgree A₂ := by
  obtain ⟨A₁, A₂, hS₁, hS₂, _, hverdict⟩ := Analysed.exists_equivalent (loadOne 0x38600001)
    (loadOne 0x38600001) 8 8 1 (p := fun _ _ _ _ => true) (by decide +kernel)
  refine ⟨A₁, A₂, hS₁, hS₂, hverdict, (Analysed.returnsAgree_iff A₁ A₂ 1 hverdict).mpr ?_⟩
  have hcfg : A₁.cfg = A₂.cfg := by
    have hcfa := A₁.cfa
    rw [hS₁, ← hS₂, A₂.cfa] at hcfa
    exact (Except.ok.inj hcfa).symm
  intro b loc _
  rw [Analysed.Returns, Analysed.Returns, hS₁, hS₂, hcfg]

/-- `li r3,1; blr` and `li r4,1; blr` have the verdict `true`. -/
theorem returnRegister_ignored : ¬ ∀ (A₁ A₂ : Analysed) (fuel : Nat),
    A₁.subject.disasm = A₂.subject.disasm →
    (A₁.subject.comparator A₂.subject).compareFunctionFlows fuel A₁.function A₂.function =
      .ok true → A₁.ReturnsAgree A₂ := by
  intro hall
  obtain ⟨A₁, A₂, hS₁, hS₂, h, hverdict⟩ := Analysed.exists_equivalent (loadOne 0x38600001)
    (loadOne 0x38800001) 8 8 1 (p := fun _ st₁ _ st₂ =>
      decide (((st₁.blockSinks 0)[1]?.bind st₁.heap.kind?) = some (.ret 1 ⟨.GPR, 3⟩)) &&
      decide (∀ x ∈ st₂.blockSinks 0, st₂.heap.kind? x = some (.sink 1) ∨
        st₂.heap.kind? x = some (.ret 1 ⟨.GPR, 4⟩))) (by decide +kernel)
  simp only [Bool.and_eq_true, decide_eq_true_eq] at h
  obtain ⟨hret, hother⟩ := h
  obtain ⟨x, hx, hkind⟩ := Option.bind_eq_some_iff.mp hret
  have hagree := hall A₁ A₂ 1 (by rw [hS₁, hS₂]; rfl) hverdict 0 ⟨.GPR, 3⟩ (by decide)
  obtain ⟨i, y, returnIdx, hy, hykind⟩ := hagree.1.mp ⟨1, x, 1, hx, hkind⟩
  rcases hother y (List.mem_of_getElem? hy) with hsink | hret
  · rw [hykind] at hsink
    cases hsink
  · rw [hykind] at hret
    cases hret

end Ppc2cpp
