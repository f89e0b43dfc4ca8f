import Ppc2cpp.ControlFlow.Exits

/-! Where the blocks of a function lie.

A scan ends before the end of the function, so a block that starts inside the function
ends inside it. A branch can lead to the place behind the last instruction, if the size of
the function is no multiple of four; a block made there is never scanned, and stays a
single instruction without edges. -/
namespace Ppc2cpp
namespace ControlFlowAnalysis
open ControlFlowGraph

/-- The blocks that start inside the function end there, and those that start behind it
are as they were created. -/
structure Contained (S : Subject) (g : ControlFlowGraph) : Prop where
  inside : ∀ i x, g.Internal i x → x.start < S.length → x.stop < S.length
  behind : ∀ i x, g.Internal i x → S.length ≤ x.start →
    x.stop = x.start ∧ g.succ i = [] ∧ x.isExit = false

section
variable {S : Subject} {recurse : Nat → ControlFlowGraph → Except Error ControlFlowGraph}
  {b pc : Nat} {g g' g₁ : ControlFlowGraph} {x : BasicBlock}

/-- One edge from a block inside the function, and perhaps a block that is as created. -/
theorem Contained.linked {j : Nat} {k : Nat × BlockType} (hg : Contained S g)
    (h : Linked b pc j k g g₁) (hx : g.Internal b x) (hpc : x.start ≤ pc) (hlt : pc < S.length)
    (hnew : ∀ i z, g.blocks.length ≤ i → g₁.Internal i z →
      z.stop = z.start ∧ g₁.succ i = [] ∧ z.isExit = false) : Contained S g₁ := by
  have hblock : g₁.Internal b {x with stop := pc} := h.origin hx
  refine ⟨fun i z hz hstart => ?_, fun i z hz hstart => ?_⟩
  · rcases Nat.lt_or_ge i g.blocks.length with hold | hge
    · by_cases hi : i = b
      · subst hi
        obtain rfl := Option.some.inj (hblock.1.symm.trans hz.1)
        exact hlt
      · exact hg.inside i z ⟨(h.frozen hold hi).1 ▸ hz.1, hz.2⟩ hstart
    · rw [(hnew i z hge hz).1]
      exact hstart
  · rcases Nat.lt_or_ge i g.blocks.length with hold | hge
    · by_cases hi : i = b
      · subst hi
        obtain rfl := Option.some.inj (hblock.1.symm.trans hz.1)
        exact absurd hstart (by simp; omega)
      · obtain ⟨hsame, hsucc⟩ := h.frozen hold hi
        rw [hsucc]
        exact hg.behind i z ⟨hsame ▸ hz.1, hz.2⟩ hstart
    · exact hnew i z hge hz

/-- A recursive call keeps it. -/
def KeepsContained (S : Subject)
    (recurse : Nat → ControlFlowGraph → Except Error ControlFlowGraph) : Prop :=
  ∀ (b : Nat) (x : BasicBlock) (g g' : ControlFlowGraph), g.WellFormed → g.Internal b x →
    Contained S g → recurse b g = .ok g' → Steps g g' ∧ Contained S g'

theorem linkExit_contained (hrec : KeepsContained S recurse) (hw : g.WellFormed)
    (hx : g.Internal b x) (hpc : x.start ≤ pc) (hlt : pc < S.length) (hg : Contained S g)
    {e : Nat × BlockType} (hout : e.2 ≠ .INTERNAL → e.1 = pc)
    (h : linkExit recurse b pc g e = .ok g') : Steps g g' ∧ Contained S g' := by
  rcases linkExit_cases recurse hw hx hpc hout with
    ⟨g₁, j, hok, hlinked, hnew⟩ | ⟨g₁, heq, hlinked, _, _, hy, hnew⟩
  · obtain rfl : g₁ = g' := Except.ok.inj (hok.symm.trans h)
    exact ⟨.single hlinked.step, hg.linked hlinked hx hpc hlt fun i z hi hz => absurd hz (hnew i z hi)⟩
  · have hempty : g₁.succ g.blocks.length = [] := by
      have := hx.lt
      rw [hlinked.succ, if_neg (by omega), (hw.surplus _ (le_refl _)).1]
    have hg₁ : Contained S g₁ := by
      refine hg.linked hlinked hx hpc hlt fun i z hi hz => ?_
      obtain rfl := hnew i z hi hz
      obtain rfl := Option.some.inj (hy.1.symm.trans hz.1)
      exact ⟨rfl, hempty, rfl⟩
    obtain ⟨hsteps, hg'⟩ := hrec _ _ _ _ (hlinked.step.wellFormed hw) hy hg₁ (heq ▸ h)
    exact ⟨.head hlinked.step hsteps, hg'⟩

theorem linkExits_contained (hrec : KeepsContained S recurse) {es : List (Nat × BlockType)}
    (hw : g.WellFormed) (hx : g.Internal b x) (hpc : x.start ≤ pc) (hlt : pc < S.length)
    (hg : Contained S g) (hout : ∀ e ∈ es, e.2 ≠ .INTERNAL → e.1 = pc)
    (h : linkExits recurse b pc g es = .ok g') : Steps g g' ∧ Contained S g' := by
  induction es generalizing g x with
  | nil =>
    cases h
    exact ⟨.refl, hg⟩
  | cons e es ih =>
    obtain ⟨g₁, hok, h⟩ := bind_eq_ok.mp h
    obtain ⟨hfirst, hg₁⟩ := linkExit_contained hrec hw hx hpc hlt hg (hout e List.mem_cons_self) hok
    obtain ⟨y, hy, hs⟩ := hfirst.keeps.internal hx
    obtain ⟨hrest, hg'⟩ := ih (hfirst.wellFormed hw) hy (by omega) hg₁
      (fun e he => hout e (List.mem_cons_of_mem _ he)) h
    exact ⟨hfirst.trans hrest, hg'⟩

/-- Flags of a block inside the function. -/
theorem Contained.setFlags (hg : Contained S g) (hx : g.Internal b x) (hlt : x.start < S.length)
    {f : BasicBlock → BasicBlock} (hf : KeepsRange f) : Contained S (g.setFlags b f) := by
  have hget : ∀ i z, (g.setFlags b f).Internal i z →
      ∃ y, g.Internal i y ∧ y.start = z.start ∧ y.stop = z.stop ∧ (i ≠ b → y = z) := by
    intro i z hz
    obtain ⟨hz, hty⟩ := hz
    rw [getElem?_setFlags] at hz
    obtain ⟨y, hy, rfl⟩ := Option.map_eq_some_iff.mp hz
    by_cases hi : b = i
    · rw [if_pos hi] at hty ⊢
      exact ⟨y, ⟨hy, (hf y).2.2 ▸ hty⟩, (hf y).1.symm, (hf y).2.1.symm,
        fun hne => absurd hi.symm hne⟩
    · rw [if_neg hi] at hty ⊢
      exact ⟨y, ⟨hy, hty⟩, rfl, rfl, fun _ => rfl⟩
  refine ⟨fun i z hz hstart => ?_, fun i z hz hstart => ?_⟩
  · obtain ⟨y, hy, hs, he, _⟩ := hget i z hz
    exact he ▸ hg.inside i y hy (hs ▸ hstart)
  · obtain ⟨y, hy, hs, _, hsame⟩ := hget i z hz
    by_cases hi : i = b
    · subst hi
      obtain rfl := Option.some.inj (hx.1.symm.trans hy.1)
      omega
    · obtain rfl := hsame hi
      rw [succ_setFlags]
      exact hg.behind i y hy hstart

/-- **The scan of a block** creates no block that reaches over the end. -/
theorem blockLoop_contained (hrec : KeepsContained S recurse) {remaining : Nat} (hw : g.WellFormed)
    (hx : g.Internal b x) (hpc : x.start ≤ pc) (hrem : pc + remaining ≤ max pc S.length)
    (hg : Contained S g) (h : blockLoop S recurse b remaining pc g = .ok g') :
    Steps g g' ∧ Contained S g' := by
  induction remaining generalizing pc with
  | zero =>
    cases h
    exact ⟨.refl, hg⟩
  | succ remaining ih =>
    have hlt : pc < S.length := by omega
    cases hbranch : isBranch (S.insn pc) with
    | true =>
      rw [blockLoop_branch (Linkable.of_ok hbranch h) hbranch] at h
      obtain ⟨g₁, hlinks, rfl⟩ := map_eq_ok.mp h
      obtain ⟨hsteps, hg₁⟩ := linkExits_contained hrec hw hx hpc hlt hg (S.exits_outside_eq pc) hlinks
      obtain ⟨y, hy, hs⟩ := hsteps.keeps.internal hx
      have hf : KeepsRange (branchFlags S b pc g₁) := keepsRange_branchFlags g₁
      exact ⟨hsteps.tail (.flags hf), hg₁.setFlags hy (by omega) hf⟩
    | false =>
      rcases blockLoop_passes hbranch h with ⟨following, hfollow, rfl⟩ | h
      · obtain ⟨hlinked, hnew⟩ := linked_fallthrough hw hx hpc hfollow
        exact ⟨.single hlinked.step,
          hg.linked hlinked hx hpc hlt fun i z hi hz => absurd hz (hnew i z hi)⟩
      · exact ih (by omega) (by omega) h

theorem functionCFABlock_contained (fuel : Nat) : KeepsContained S (functionCFABlock S fuel) := by
  induction fuel with
  | zero =>
    intro b x g g' _ _ _ h
    cases h
  | succ fuel ih =>
    intro b x g g' hw hx hg h
    rw [functionCFABlock_succ S hx] at h
    exact blockLoop_contained ih hw hx (le_refl _) (by omega) hg h

end

/-- **The blocks of a function lie inside it**, but for single instructions behind it. -/
theorem functionCFA_contained {S : Subject} {g : ControlFlowGraph} (h : functionCFA S = .ok g) :
    Contained S g := by
  have hentry : ∀ i x, ControlFlowGraph.init.Internal i x →
      x = ⟨0, 0, .INTERNAL, false, false, false⟩ ∧ ControlFlowGraph.init.succ i = [] := by
    intro i x hx
    obtain ⟨hx, _⟩ := hx
    cases i with
    | zero => exact ⟨(Option.some.inj hx).symm, rfl⟩
    | succ i => cases hx
  have hinit : Contained S ControlFlowGraph.init := by
    refine ⟨fun i x hx hstart => ?_, fun i x hx _ => ?_⟩
    · obtain ⟨rfl, _⟩ := hentry i x hx
      exact hstart
    · obtain ⟨rfl, hempty⟩ := hentry i x hx
      exact ⟨rfl, hempty, rfl⟩
  exact (functionCFABlock_contained _ 0 ⟨0, 0, .INTERNAL, false, false, false⟩ _ _ WellFormed.init
    ⟨rfl, rfl⟩ hinit h).2

end ControlFlowAnalysis
end Ppc2cpp
