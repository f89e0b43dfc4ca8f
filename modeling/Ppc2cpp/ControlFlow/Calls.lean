import Ppc2cpp.ControlFlow.Exits

/-! Where control goes after a call.

A branch with link gets an edge to the instruction after it. The code that creates its
other edge is shared with the jumps and asks only whether the target lies in the
function: the call of another function leads to an external block, but the call of an
address of the function itself becomes an edge inside it. So the call site of a
recursive function is a predecessor of the entry block.

`functionCFA_wired` reads the successors of a block off its last instruction in every
run that returns, whatever function was analysed. -/
namespace Ppc2cpp
namespace Subject
variable (S : Subject)

/-- The instruction at `pc` is a branch with link, and not the last of the function. -/
def Calls (pc : Nat) : Prop := isBranchWithLink (S.insn pc) = true ∧ pc + 1 < S.length

/-- The branch at `pc` goes to an instruction of the function other than the next one. -/
def TargetsInside (pc : Nat) : Prop :=
  S.branchesToAddress pc = true ∧
    ∃ t, S.branchTarget pc = .ok (some t) ∧ S.func.contains t = true ∧ S.position t ≠ pc + 1

variable {S}

theorem Calls.isBranch {pc : Nat} (h : S.Calls pc) : isBranch (S.insn pc) = true :=
  (Bool.and_eq_true_iff.mp h.1).2

theorem Calls.fallsThrough {pc : Nat} (h : S.Calls pc) : S.fallsThrough pc = true := by
  simp [Subject.fallsThrough, (Bool.and_eq_true_iff.mp h.1).1]

/-- The exits of a call inside the function: the next instruction, and the target if it
is there. -/
theorem Calls.mem_exits {pc t : Nat} (h : S.Calls pc) :
    (t, BlockType.INTERNAL) ∈ S.exits pc ↔ t = pc + 1 ∨
      (S.branchesToAddress pc = true ∧ S.targetExit pc = (t, .INTERNAL)) := by
  rw [exits, h.fallsThrough, if_pos rfl, List.mem_append, List.mem_singleton, or_comm]
  apply or_congr
  · simp
  · split
    · rename_i hto
      rw [List.mem_singleton, eq_comm]
      simp [hto]
    · rename_i hto
      split <;> simp [hto]

theorem targetExit_eq_internal {pc t : Nat} : S.targetExit pc = (t, .INTERNAL) ↔
    ∃ l, S.branchTarget pc = .ok (some l) ∧ S.func.contains l = true ∧ S.position l = t := by
  unfold targetExit
  split
  · rename_i l hl
    cases hin : S.func.contains l <;> simp [hl, hin]
  · rename_i hnone
    apply iff_of_false
    · simp
    · intro h
      obtain ⟨l, hl, _⟩ := h
      exact hnone l hl

theorem Calls.targetsInside_iff {pc : Nat} (h : S.Calls pc) :
    S.TargetsInside pc ↔ ∃ t, (t, BlockType.INTERNAL) ∈ S.exits pc ∧ t ≠ pc + 1 := by
  unfold TargetsInside
  constructor
  · intro hin
    obtain ⟨hto, l, hl, hin, hne⟩ := hin
    exact ⟨S.position l, h.mem_exits.mpr (.inr ⟨hto, targetExit_eq_internal.mpr ⟨l, hl, hin, rfl⟩⟩),
      hne⟩
  · intro hexit
    obtain ⟨t, ht, hne⟩ := hexit
    obtain ⟨hto, htarget⟩ := (h.mem_exits.mp ht).resolve_left hne
    obtain ⟨l, hl, hin, rfl⟩ := targetExit_eq_internal.mp htarget
    exact ⟨hto, l, hl, hin, hne⟩

end Subject

namespace ControlFlowAnalysis
open ControlFlowGraph
variable {S : Subject} {recurse : Nat → ControlFlowGraph → Except Error ControlFlowGraph}
  {b pc : Nat} {es es' : List (Nat × BlockType)} {g g' g'' : ControlFlowGraph} {x : BasicBlock}

/-! ### The edges of the blocks -/

/-- If the block ends in a branch, its edges are the exits of the branch. -/
def Wired (S : Subject) (g : ControlFlowGraph) (i : Nat) (x : BasicBlock) : Prop :=
  x.stop < S.length → isBranch (S.insn x.stop) = true →
    (g.succ i).map g.key = (S.exits x.stop).map some

theorem Wired.mono {i : Nat} (h : Wired S g i x) (hw : g.WellFormed) (hk : Keeps g g')
    (hs : g'.succ i = g.succ i) : Wired S g' i x := by
  intro hlt hbranch
  rw [hs, hk.map_key_eq hw, h hlt hbranch]

/-- The graph after the edges `es` were created from the block `b`, which now ends at
`pc`: the other blocks of `g` are as they were, the new ones are wired. -/
structure WiresNew (S : Subject) (b pc : Nat) (es : List (Nat × BlockType))
    (g g' : ControlFlowGraph) : Prop where
  steps : Steps g g'
  frozen : ∀ i, i < g.blocks.length → i ≠ b →
    g'.blocks[i]? = g.blocks[i]? ∧ g'.succ i = g.succ i
  origin : ∀ x, g.Internal b x →
    ∃ y, g'.Internal b y ∧ y.start = x.start ∧ y.stop = if es = [] then x.stop else pc
  linked : (g'.succ b).map g'.key = (g.succ b).map g.key ++ es.map some
  wired : ∀ i x, g.blocks.length ≤ i → g'.Internal i x → Wired S g' i x

theorem WiresNew.refl (S : Subject) (b pc : Nat) (g : ControlFlowGraph) :
    WiresNew S b pc [] g g where
  steps := .refl
  frozen _ _ _ := ⟨rfl, rfl⟩
  origin x hx := ⟨x, hx, rfl, rfl⟩
  linked := by simp
  wired i x hi hx := absurd hx.lt (by omega)

theorem WiresNew.trans (h : WiresNew S b pc es g g') (h' : WiresNew S b pc es' g' g'')
    (hw : g.WellFormed) (hb : b < g.blocks.length) : WiresNew S b pc (es ++ es') g g'' := by
  have hlen := h.steps.keeps.length_le
  refine ⟨h.steps.trans h'.steps, fun i hi hne => ?_, fun x hx => ?_, ?_, fun i x hi hx => ?_⟩
  · obtain ⟨hblock, hsucc⟩ := h.frozen i hi hne
    obtain ⟨hblock', hsucc'⟩ := h'.frozen i (by omega) hne
    exact ⟨hblock'.trans hblock, hsucc'.trans hsucc⟩
  · obtain ⟨y, hy, hs, he⟩ := h.origin x hx
    obtain ⟨z, hz, hs', he'⟩ := h'.origin y hy
    refine ⟨z, hz, hs'.trans hs, ?_⟩
    rw [he', he]
    cases es <;> cases es' <;> simp
  · rw [h'.linked, h.linked, List.map_append, List.append_assoc]
  · by_cases hnew : g'.blocks.length ≤ i
    · exact h'.wired i x hnew hx
    · obtain ⟨hblock, hsucc⟩ := h'.frozen i (by omega) (by omega)
      exact (h.wired i x hi ⟨hblock ▸ hx.1, hx.2⟩).mono (h.steps.wellFormed hw) h'.steps.keeps hsucc

/-- A recursive call on a new block wires it, and every block it creates. -/
def WiresBlocks (S : Subject)
    (recurse : Nat → ControlFlowGraph → Except Error ControlFlowGraph) : Prop :=
  ∀ (b : Nat) (x : BasicBlock) (g g' : ControlFlowGraph), g.WellFormed → g.Internal b x →
    x.stop = x.start → g.succ b = [] → recurse b g = .ok g' →
    ∃ pc es, WiresNew S b pc es g g' ∧ ∀ y, g'.Internal b y → Wired S g' b y

theorem linkExit_wires (hrec : WiresBlocks S recurse) (hw : g.WellFormed) (hx : g.Internal b x)
    (hpc : x.start ≤ pc) {e : Nat × BlockType} (hout : e.2 ≠ .INTERNAL → e.1 = pc)
    (h : linkExit recurse b pc g e = .ok g') : WiresNew S b pc [e] g g' := by
  rcases linkExit_cases recurse hw hx hpc hout with
    ⟨g₁, j, hok, hlinked, hnew⟩ | ⟨g₁, heq, hlinked, _, _, hy, hnew⟩
  · obtain rfl : g₁ = g' := Except.ok.inj (hok.symm.trans h)
    exact ⟨.single hlinked.step, fun i hi hne => hlinked.frozen hi hne,
      fun z hz => ⟨_, hlinked.origin hz, rfl, by simp⟩, hlinked.map_key hw,
      fun i z hi hz => absurd hz (hnew i z hi)⟩
  · have hw₁ := hlinked.step.wellFormed hw
    have hlt := hx.lt
    have hlen := hlinked.step.keeps.length_le
    have hempty : g₁.succ g.blocks.length = [] := by
      rw [hlinked.succ, if_neg (by omega), (hw.surplus _ (le_refl _)).1]
    obtain ⟨last, es, hrest, hself⟩ := hrec _ _ _ _ hw₁ hy rfl hempty (heq ▸ h)
    have hb := hrest.frozen b (by omega) (by omega)
    refine ⟨.head hlinked.step hrest.steps, fun i hi hne => ?_, fun z hz => ?_, ?_,
      fun i z hi hz => ?_⟩
    · obtain ⟨hblock, hsucc⟩ := hlinked.frozen hi hne
      obtain ⟨hblock', hsucc'⟩ := hrest.frozen i (by omega) (by omega)
      exact ⟨hblock'.trans hblock, hsucc'.trans hsucc⟩
    · have hz₁ := hlinked.origin hz
      exact ⟨_, ⟨hb.1.trans hz₁.1, hz₁.2⟩, rfl, by simp⟩
    · rw [hb.2, hrest.steps.keeps.map_key_eq hw₁, hlinked.map_key hw]
      rfl
    · by_cases hlast : g₁.blocks.length ≤ i
      · exact hrest.wired i z hlast hz
      · by_cases hi' : i = g.blocks.length
        · subst hi'
          exact hself z hz
        · obtain ⟨hblock, _⟩ := hrest.frozen i (by omega) hi'
          exact absurd (hnew i z hi ⟨hblock ▸ hz.1, hz.2⟩) hi'

theorem linkExits_wires (hrec : WiresBlocks S recurse) (hw : g.WellFormed) (hx : g.Internal b x)
    (hpc : x.start ≤ pc) (hout : ∀ e ∈ es, e.2 ≠ .INTERNAL → e.1 = pc)
    (h : linkExits recurse b pc g es = .ok g') : WiresNew S b pc es g g' := by
  induction es generalizing g x with
  | nil =>
    cases h
    exact .refl S b pc _
  | cons e es ih =>
    obtain ⟨g₁, hok, h⟩ := bind_eq_ok.mp h
    have hfirst := linkExit_wires hrec hw hx hpc (hout e List.mem_cons_self) hok
    obtain ⟨y, hy, hs, _⟩ := hfirst.origin x hx
    have hrest := ih (hfirst.steps.wellFormed hw) hy (by omega)
      (fun e he => hout e (List.mem_cons_of_mem _ he)) h
    exact hfirst.trans hrest hw hx.lt

/-- Flags change no edge. -/
theorem WiresNew.setFlags (h : WiresNew S b pc es g g') (hb : b < g.blocks.length)
    {f : BasicBlock → BasicBlock} (hf : KeepsRange f) :
    WiresNew S b pc es g (g'.setFlags b f) := by
  refine ⟨h.steps.tail (.flags hf), fun i hi hne => ?_, fun x hx => ?_, ?_, fun i x hi hx => ?_⟩
  · rw [getElem?_setFlags_of_ne g' hne]
    exact h.frozen i hi hne
  · obtain ⟨y, hy, hs, he⟩ := h.origin x hx
    exact ⟨f y, hy.setFlags hf, (hf y).1.trans hs, (hf y).2.1.trans he⟩
  · rw [succ_setFlags, key_setFlags g' b hf, h.linked]
  · intro hlt hbranch
    rw [succ_setFlags, key_setFlags g' b hf]
    exact h.wired i x hi (hx.of_setFlags (by omega)) hlt hbranch

/-- **The scan of a block wires it.** -/
theorem blockLoop_wires (hrec : WiresBlocks S recurse) {remaining : Nat} (hw : g.WellFormed)
    (hx : g.Internal b x) (hstop : x.stop = x.start) (hempty : g.succ b = [])
    (hpc : x.start ≤ pc) (hplain : ∀ k, x.start ≤ k → k < pc → isBranch (S.insn k) = false)
    (hrem : S.length ≤ pc + remaining) (h : blockLoop S recurse b remaining pc g = .ok g') :
    ∃ last es, WiresNew S b last es g g' ∧ ∀ y, g'.Internal b y → Wired S g' b y := by
  induction remaining generalizing pc with
  | zero =>
    -- the function ran out, the block still ends where it starts
    cases h
    refine ⟨pc, [], .refl S b pc g, fun y hy hlt hbranch => ?_⟩
    obtain rfl : x = y := Option.some.inj (hx.1.symm.trans hy.1)
    rw [hplain x.stop (by omega) (by omega)] at hbranch
    cases hbranch
  | succ remaining ih =>
    cases hbranch : isBranch (S.insn pc) with
    | true =>
      rw [blockLoop_branch (Linkable.of_ok hbranch h) hbranch] at h
      obtain ⟨g₁, hlinks, rfl⟩ := map_eq_ok.mp h
      have hrange : KeepsRange (branchFlags S b pc g₁) := keepsRange_branchFlags g₁
      have hnew := (linkExits_wires hrec hw hx hpc (S.exits_outside_eq pc) hlinks).setFlags hx.lt
        hrange
      refine ⟨pc, S.exits pc, hnew, fun y hy _ _ => ?_⟩
      obtain ⟨z, hz, _, hend⟩ := hnew.origin x hx
      obtain rfl : z = y := Option.some.inj (hz.1.symm.trans hy.1)
      rw [hnew.linked, hempty, hend, if_neg (S.exits_ne_nil pc)]
      rfl
    | false =>
      rcases blockLoop_passes hbranch h with ⟨following, hfollow, rfl⟩ | h
      · have hgrown := grown_fallthrough (S := S) hw hx hpc hfollow
        refine ⟨pc, _, ⟨hgrown.steps, hgrown.frozen, hgrown.origin, hgrown.linked,
          fun i z hi hz => ?_⟩, fun y hy _ hbranch' => ?_⟩
        · intro hlt _
          exact (hgrown.finished i z hi hz).linked
        · obtain ⟨z, hz, _, hend⟩ := hgrown.origin x hx
          obtain rfl : z = y := Option.some.inj (hz.1.symm.trans hy.1)
          rw [hend, if_neg (by simp), hbranch] at hbranch'
          cases hbranch'
      · exact ih (by omega) (plain_next hplain hbranch) (by omega) h

theorem functionCFABlock_wires (fuel : Nat) : WiresBlocks S (functionCFABlock S fuel) := by
  induction fuel with
  | zero =>
    intro b x g g' _ _ _ _ h
    cases h
  | succ fuel ih =>
    intro b x g g' hw hx hstop hempty h
    rw [functionCFABlock_succ S hx] at h
    exact blockLoop_wires ih hw hx hstop hempty (le_refl _) (fun k hk hlt => by omega) (by omega) h

/-- **The successors of a block that ends in a branch are the exits of the branch**, in
every run that returns. -/
theorem functionCFA_wired (h : functionCFA S = .ok g) {i : Nat} (hx : g.Internal i x)
    (hlt : x.stop < S.length) (hbranch : isBranch (S.insn x.stop) = true) :
    (g.succ i).map g.key = (S.exits x.stop).map some := by
  obtain ⟨pc, es, hnew, hentry⟩ := functionCFABlock_wires _ 0 ⟨0, 0, .INTERNAL, false, false, false⟩
    _ _ WellFormed.init ⟨rfl, rfl⟩ rfl rfl h
  cases i with
  | zero => exact hentry x hx hlt hbranch
  | succ i => exact hnew.wired _ x (Nat.succ_le_succ (Nat.zero_le i)) hx hlt hbranch

/-! ### Calls -/

/-- After a call at the end of the block `i` control goes on inside the function at the
next instruction only, and not to the entry. -/
structure OnlyReturns (g : ControlFlowGraph) (i pc : Nat) : Prop where
  next : ∃ j ∈ g.succ i, ∃ y, g.Internal j y ∧ y.start = pc + 1
  only : ∀ j ∈ g.succ i, ∀ y, g.Internal j y → y.start = pc + 1
  entry : i ∉ g.pred 0

/-- **Which calls are not jumps**: the next instruction is the only one inside the
function after a call if and only if the call does not go to another one. -/
theorem onlyReturns_iff {S : Subject} {g : ControlFlowGraph} (h : functionCFA S = .ok g) {i : Nat}
    {x : BasicBlock} (hx : g.Internal i x) (hcall : S.Calls x.stop) :
    OnlyReturns g i x.stop ↔ ¬ S.TargetsInside x.stop := by
  have hw := functionCFA_wellFormed S h
  have hlt : x.stop < S.length := Nat.lt_of_succ_lt hcall.2
  have hwired := functionCFA_wired h hx hlt hcall.isBranch
  have hmem : ∀ t, (t, BlockType.INTERNAL) ∈ S.exits x.stop ↔
      ∃ j ∈ g.succ i, ∃ y, g.Internal j y ∧ y.start = t := by
    intro t
    have hmap : some (t, BlockType.INTERNAL) ∈ (g.succ i).map g.key ↔
        (t, BlockType.INTERNAL) ∈ S.exits x.stop := by
      rw [hwired, List.mem_map]
      simp
    rw [← hmap, List.mem_map]
    simp only [key_internal]
  rw [hcall.targetsInside_iff]
  constructor
  · intro honly hinside
    obtain ⟨t, ht, hne⟩ := hinside
    obtain ⟨j, hj, y, hy, rfl⟩ := (hmem t).mp ht
    exact hne (honly.only j hj y hy)
  · intro hinside
    have honly : ∀ j ∈ g.succ i, ∀ y, g.Internal j y → y.start = x.stop + 1 := by
      intro j hj y hy
      by_contra hne
      exact hinside ⟨y.start, (hmem _).mpr ⟨j, hj, y, hy, rfl⟩, hne⟩
    refine ⟨(hmem _).mp (hcall.mem_exits.mpr (.inl rfl)), honly, fun hpred => ?_⟩
    -- the entry block starts at the first instruction, which is after no other
    obtain ⟨y, hy, hs⟩ := hw.entry
    have hcount := hw.transpose i 0
    have hpos := List.count_pos_iff.mpr hpred
    have := honly 0 (List.count_pos_iff.mp (by omega)) y hy
    omega

end ControlFlowAnalysis

/-! ### A recursive function -/

/-- `bl` to the function itself; `blr`. -/
def recursiveCall : Subject := assembledSubject [0x48000001, 0x4e800020] 2 (by decide)

theorem functionCFA_recursiveCall :
    ControlFlowAnalysis.functionCFA recursiveCall = .ok
      ⟨[⟨0, 0, .INTERNAL, false, true, false⟩, ⟨1, 1, .INTERNAL, true, false, false⟩,
        ⟨1, 1, .RUNTIME, false, false, false⟩],
       [⟨[0], [0, 1]⟩, ⟨[0], [2]⟩, ⟨[1], []⟩, ⟨[], []⟩]⟩ := by
  decide +kernel

theorem recursiveCall_calls : recursiveCall.Calls 0 := ⟨by decide +kernel, by decide⟩

theorem onlyReturns_iff_recursiveCall :
    ControlFlowAnalysis.OnlyReturns
      ⟨[⟨0, 0, .INTERNAL, false, true, false⟩, ⟨1, 1, .INTERNAL, true, false, false⟩,
        ⟨1, 1, .RUNTIME, false, false, false⟩],
       [⟨[0], [0, 1]⟩, ⟨[0], [2]⟩, ⟨[1], []⟩, ⟨[], []⟩]⟩ 0 0 ↔ ¬ recursiveCall.TargetsInside 0 :=
  ControlFlowAnalysis.onlyReturns_iff functionCFA_recursiveCall (i := 0)
    (x := ⟨0, 0, .INTERNAL, false, true, false⟩) ⟨rfl, rfl⟩ recursiveCall_calls

/-- The block of the call is a predecessor of the entry. -/
theorem recursiveCall_not_onlyReturns : ¬ ∀ (S : Subject) (g : ControlFlowGraph),
    ControlFlowAnalysis.functionCFA S = .ok g → ∀ i x, g.Internal i x → S.Calls x.stop →
    ControlFlowAnalysis.OnlyReturns g i x.stop := by
  intro hall
  have honly := hall _ _ functionCFA_recursiveCall 0 _ ⟨rfl, rfl⟩ recursiveCall_calls
  exact honly.entry (by decide)

end Ppc2cpp
