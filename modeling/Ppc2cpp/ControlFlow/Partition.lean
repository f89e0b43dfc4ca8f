import Ppc2cpp.ControlFlow.Soundness
import Ppc2cpp.Lib.DepthFirst

/-! When the blocks partition the code.

A branch target is never cut out of a block: `tryCreateSuccessorInternal` starts a new
block there, and if an older block runs across the target the two overlap for good.
So the order in which targets are discovered matters. As long as nothing overlaps,
the recursion visits the instructions in depth-first preorder of the next-instruction
graph (`Clean`), and the first overlap is a target found after the instruction in
front of it (`Late`). `partition_iff` is the resulting exact condition. -/
namespace Ppc2cpp
namespace Partition

/-- The instructions of a block from `s` to `e`, by block index. -/
abbrev Ranges := Nat → Option (Nat × Nat)

/-- Two blocks share an instruction. -/
def Overlap (r : Ranges) : Prop :=
  ∃ i j s e s' e' k, i ≠ j ∧ r i = some (s, e) ∧ r j = some (s', e') ∧
    s ≤ k ∧ k ≤ e ∧ s' ≤ k ∧ k ≤ e'

/-- The instruction `a` comes before `b` in the order of visits. -/
def Before (order : List Nat) (a b : Nat) : Prop := order.idxOf a < order.idxOf b

theorem Before.of_isPrefix {l l' : List Nat} {a b : Nat} (h : Before l a b) (hb : b ∈ l)
    (hl : l <+: l') : Before l' a b := by
  obtain ⟨m, rfl⟩ := hl
  have ha : a ∈ l := List.idxOf_lt_length_iff.mp (h.trans (List.idxOf_lt_length_iff.mpr hb))
  rw [Before, List.idxOf_append_of_mem ha, List.idxOf_append_of_mem hb]
  exact h

/-- An element of the first part comes before one that is only in the second. -/
theorem before_append {l m : List Nat} {a b : Nat} (ha : a ∈ l) (hb : b ∉ l) :
    Before (l ++ m) a b := by
  have := List.idxOf_lt_length_iff.mpr ha
  rw [Before, List.idxOf_append_of_mem ha, List.idxOf_append, if_neg hb]
  omega

theorem idxOf_range' (s n k : Nat) (hk : k < n) : (List.range' s n).idxOf (s + k) = k := by
  induction n generalizing s k with
  | zero => omega
  | succ n ih =>
    rw [List.range'_succ, List.idxOf_cons]
    cases k with
    | zero => simp
    | succ k =>
      have hne : (s == s + (k + 1)) = false := by simp
      rw [hne, show s + (k + 1) = s + 1 + k by omega, ih (s + 1) k (by omega)]
      rfl

theorem before_append_range' {l : List Nat} {s n k : Nat} (hk : k + 1 < n)
    (hnew : s + k ∉ l) (hnew' : s + k + 1 ∉ l) :
    Before (l ++ List.range' s n) (s + k) (s + k + 1) := by
  rw [Before, List.idxOf_append, if_neg hnew, List.idxOf_append, if_neg hnew',
    idxOf_range' s n k (by omega), show s + k + 1 = s + (k + 1) by omega,
    idxOf_range' s n (k + 1) hk]
  omega

/-- Some blocks are scanned, without overlap, and `seen` lists their instructions in
the order of the visits. -/
structure Clean (S : Subject) (r : Ranges) (seen : List Nat) : Prop where
  ordered : ∀ i s e, r i = some (s, e) → s ≤ e
  cover : ∀ k, k ∈ seen ↔ ∃ i s e, r i = some (s, e) ∧ s ≤ k ∧ k ≤ e
  apart : ∀ i j s e s' e' k, r i = some (s, e) → r j = some (s', e') → s ≤ k → k ≤ e →
    s' ≤ k → k ≤ e' → i = j
  plain : ∀ i s e k, r i = some (s, e) → s ≤ k → k < e →
    isBranch (S.insn k) = false ∧ Before seen k (k + 1)
  /-- A block that ends without a branch was ended by a block visited before. -/
  ended : ∀ i s e, r i = some (s, e) → isBranch (S.insn e) = false → Before seen (e + 1) e

/-- One more block is scanned. -/
theorem Clean.scan {S : Subject} {r : Ranges} {seen : List Nat} (h : Clean S r seen)
    {b s e : Nat} (hb : r b = none) (hse : s ≤ e) (hnew : ∀ k, s ≤ k → k ≤ e → k ∉ seen)
    (hplain : ∀ k, s ≤ k → k < e → isBranch (S.insn k) = false)
    (hend : isBranch (S.insn e) = false → e + 1 ∈ seen) :
    Clean S (Function.update r b (some (s, e))) (seen ++ List.range' s (e + 1 - s)) := by
  have hget : ∀ i p, Function.update r b (some (s, e)) i = some p →
      (i = b ∧ p = (s, e)) ∨ (i ≠ b ∧ r i = some p) := by
    intro i p hp
    by_cases hi : i = b
    · subst hi
      rw [Function.update_self] at hp
      exact .inl ⟨rfl, (Option.some.inj hp).symm⟩
    · rw [Function.update_of_ne hi] at hp
      exact .inr ⟨hi, hp⟩
  have hmem : ∀ k, k ∈ List.range' s (e + 1 - s) ↔ s ≤ k ∧ k ≤ e := by
    intro k
    rw [List.mem_range'_1]
    omega
  -- an old block lies in what was seen before
  have hold : ∀ i s' e' k, r i = some (s', e') → s' ≤ k → k ≤ e' → k ∈ seen :=
    fun i s' e' k hi hs he => (h.cover k).mpr ⟨i, s', e', hi, hs, he⟩
  refine ⟨?_, ?_, ?_, ?_, ?_⟩
  · intro i s₁ e₁ hi
    rcases hget i _ hi with ⟨_, heq⟩ | ⟨_, hi⟩
    · cases heq
      exact hse
    · exact h.ordered i s₁ e₁ hi
  · intro k
    rw [List.mem_append, hmem, h.cover]
    constructor
    · rintro (⟨i, s', e', hi, hk⟩ | hk)
      · have hib : i ≠ b := by
          rintro rfl
          rw [hb] at hi
          cases hi
        exact ⟨i, s', e', by rw [Function.update_of_ne hib, hi], hk⟩
      · exact ⟨b, s, e, Function.update_self _ _ _, hk⟩
    · rintro ⟨i, s', e', hi, hk⟩
      rcases hget i _ hi with ⟨_, heq⟩ | ⟨_, hi⟩
      · cases heq
        exact .inr hk
      · exact .inl ⟨i, s', e', hi, hk⟩
  · intro i j s₁ e₁ s₂ e₂ k hi hj h₁ h₂ h₃ h₄
    rcases hget i _ hi with ⟨hib, heq⟩ | ⟨_, hi⟩ <;> rcases hget j _ hj with ⟨hjb, heq'⟩ | ⟨_, hj⟩
    · rw [hib, hjb]
    · cases heq
      exact absurd (hold j s₂ e₂ k hj h₃ h₄) (hnew k h₁ h₂)
    · cases heq'
      exact absurd (hold i s₁ e₁ k hi h₁ h₂) (hnew k h₃ h₄)
    · exact h.apart i j s₁ e₁ s₂ e₂ k hi hj h₁ h₂ h₃ h₄
  · intro i s₁ e₁ k hi h₁ h₂
    rcases hget i _ hi with ⟨_, heq⟩ | ⟨_, hi⟩
    · cases heq
      obtain ⟨m, rfl⟩ := Nat.exists_eq_add_of_le h₁
      exact ⟨hplain _ h₁ h₂, before_append_range' (by omega) (hnew _ h₁ (by omega))
        (hnew _ (by omega) (by omega))⟩
    · obtain ⟨hbranch, hbefore⟩ := h.plain i s₁ e₁ k hi h₁ h₂
      exact ⟨hbranch, hbefore.of_isPrefix (hold i s₁ e₁ _ hi (by omega) h₂)
        (List.prefix_append _ _)⟩
  · intro i s₁ e₁ hi hbranch
    rcases hget i _ hi with ⟨_, heq⟩ | ⟨_, hi⟩
    · cases heq
      exact before_append (hend hbranch) (hnew e hse (le_refl e))
    · exact (h.ended i s₁ e₁ hi hbranch).of_isPrefix
        (hold i s₁ e₁ _ hi (h.ordered i s₁ e₁ hi) (le_refl _)) (List.prefix_append _ _)

/-- A branch targets the instruction after one that is not a branch and was visited
before the target. -/
def Late (S : Subject) (order : List Nat) : Prop :=
  ∃ u t, u ∈ order ∧ t ∈ order ∧ t + 1 ∈ order ∧ S.JumpsTo u (t + 1) ∧
    isBranch (S.insn t) = false ∧ Before order t (t + 1)

theorem Late.of_isPrefix {S : Subject} {l l' : List Nat} (h : Late S l) (hl : l <+: l') :
    Late S l' := by
  obtain ⟨u, t, hu, ht, ht', hjump, hbranch, hbefore⟩ := h
  exact ⟨u, t, hl.subset hu, hl.subset ht, hl.subset ht', hjump, hbranch, hbefore.of_isPrefix ht' hl⟩

/-- What the recursion can come to after the visits `out`. -/
def Outcome (S : Subject) (r : Ranges) (out : List Nat) : Prop :=
  Clean S r out ∨ (Overlap r ∧ Late S out)

end Partition

/-! ### The ranges of a graph -/

namespace ControlFlowGraph
open Ppc2cpp.Partition

/-- The range of an internal block. -/
def range? (g : ControlFlowGraph) : Ranges := fun i =>
  g.blocks[i]?.bind fun x => if x.blockType = .INTERNAL then some (x.start, x.stop) else none

theorem range?_eq_some {g : ControlFlowGraph} {i s e : Nat} :
    g.range? i = some (s, e) ↔ ∃ x, g.Internal i x ∧ x.start = s ∧ x.stop = e := by
  unfold range? Internal
  cases g.blocks[i]? with
  | none => simp
  | some x =>
    by_cases ht : x.blockType = .INTERNAL
    · simp [ht]
    · simp [ht]

theorem Internal.range? {g : ControlFlowGraph} {i : Nat} {x : BasicBlock} (h : g.Internal i x) :
    g.range? i = some (x.start, x.stop) := range?_eq_some.mpr ⟨x, h, rfl, rfl⟩

section
variable {g g₁ : ControlFlowGraph} {b pc t : Nat} {x : BasicBlock}

theorem range?_setEnd (hx : g.Internal b x) :
    (g.setEnd b pc).range? = Function.update g.range? b (some (x.start, pc)) := by
  funext i
  by_cases hi : i = b
  · subst hi
    rw [Function.update_self, range?, getElem?_setEnd, hx.1]
    simp [hx.2]
  · rw [Function.update_of_ne hi, range?, range?, getElem?_setEnd]
    simp [Ne.symm hi]

theorem range?_setFlags {f : BasicBlock → BasicBlock} (hf : KeepsRange f) :
    (g.setFlags b f).range? = g.range? := by
  funext i
  rw [range?, range?, getElem?_setFlags]
  cases g.blocks[i]? with
  | none => rfl
  | some y => by_cases hi : b = i <;> simp [hi, (hf y).1, (hf y).2.1, (hf y).2.2]

theorem range?_addEdge (o j : Nat) : (g.addEdge o j).range? = g.range? := rfl

theorem range?_pushEntry : g.pushEntry.range? = g.range? := rfl

theorem range?_pushBlock (y : BasicBlock) : (g.pushBlock y).range? =
    Function.update g.range? g.blocks.length
      (if y.blockType = .INTERNAL then some (y.start, y.stop) else none) := by
  funext i
  by_cases hi : i = g.blocks.length
  · subst hi
    rw [Function.update_self, range?, getElem?_pushBlock, if_pos rfl]
    rfl
  · rw [Function.update_of_ne hi, range?, range?, getElem?_pushBlock, if_neg hi]

theorem range?_length : g.range? g.blocks.length = none := by
  simp [range?]

/-- Ending a block where it ends already changes nothing. -/
theorem setEnd_setEnd : (g.setEnd b pc).setEnd b pc = g.setEnd b pc := by
  have hblocks : ((g.setEnd b pc).setEnd b pc).blocks = (g.setEnd b pc).blocks := by
    apply List.ext_getElem?
    intro i
    rw [getElem?_setEnd, getElem?_setEnd]
    cases g.blocks[i]? with
    | none => rfl
    | some y => by_cases hi : b = i <;> simp [hi]
  calc (g.setEnd b pc).setEnd b pc
      = ⟨((g.setEnd b pc).setEnd b pc).blocks, g.psTable⟩ := rfl
    _ = g.setEnd b pc := by rw [hblocks]; rfl

/-- Every edge from `b` starts by ending `b`. -/
theorem linkExit_setEnd (recurse : Nat → ControlFlowGraph → Except Error ControlFlowGraph)
    (e : Nat × BlockType) :
    ControlFlowAnalysis.linkExit recurse b pc (g.setEnd b pc) e =
      ControlFlowAnalysis.linkExit recurse b pc g e := by
  obtain ⟨t, ty⟩ := e
  cases ty <;>
    simp [ControlFlowAnalysis.linkExit, ControlFlowAnalysis.linkInternal,
      tryCreateSuccessorInternal, createSuccessorExternal, createSuccessorRuntime,
      createSuccessorOutside, setEnd_setEnd]

theorem linkExits_setEnd (recurse : Nat → ControlFlowGraph → Except Error ControlFlowGraph)
    {es : List (Nat × BlockType)} (hne : es ≠ []) :
    ControlFlowAnalysis.linkExits recurse b pc (g.setEnd b pc) es =
      ControlFlowAnalysis.linkExits recurse b pc g es := by
  cases es with
  | nil => exact absurd rfl hne
  | cons e es =>
    simp only [ControlFlowAnalysis.linkExits, List.foldlM_cons, linkExit_setEnd]

/-- The ranges of old blocks stay. -/
theorem Grown.range?_eq {S : Subject} {es : List (Nat × BlockType)} {g' : ControlFlowGraph}
    (h : Grown S b pc es g g') (hx : g.Internal b x) (hstop : x.stop = pc) {i s e : Nat}
    (hi : g.range? i = some (s, e)) : g'.range? i = some (s, e) := by
  obtain ⟨y, hy, hs, he⟩ := range?_eq_some.mp hi
  by_cases hib : i = b
  · subst hib
    obtain rfl := Option.some.inj (hy.1.symm.trans hx.1)
    obtain ⟨z, hz, hs', he'⟩ := h.origin y hy
    refine range?_eq_some.mpr ⟨z, hz, hs'.trans hs, ?_⟩
    split at he' <;> omega
  · obtain ⟨hblock, _⟩ := h.frozen i hy.lt hib
    exact range?_eq_some.mpr ⟨y, ⟨hblock.trans hy.1, hy.2⟩, hs, he⟩

theorem Grown.overlap {S : Subject} {es : List (Nat × BlockType)} {g' : ControlFlowGraph}
    (h : Grown S b pc es g g') (hx : g.Internal b x) (hstop : x.stop = pc)
    (ho : Overlap g.range?) : Overlap g'.range? := by
  obtain ⟨i, j, s, e, s', e', k, hne, hi, hj, hk⟩ := ho
  exact ⟨i, j, s, e, s', e', k, hne, h.range?_eq hx hstop hi, h.range?_eq hx hstop hj, hk⟩

/-- A new block that starts inside an old one overlaps it. -/
theorem Grown.overlap_new {S : Subject} {es : List (Nat × BlockType)} {g' : ControlFlowGraph}
    (h : Grown S b pc es g g') (hw : g.WellFormed) (hx : g.Internal b x) (hstop : x.stop = pc)
    (ht : (t, BlockType.INTERNAL) ∈ es) (hnew : g.findInternalBlockByPosition t = none)
    {i s e : Nat} (hi : g.range? i = some (s, e)) (hs : s ≤ t) (he : t ≤ e) :
    Overlap g'.range? := by
  have hmem : some (t, BlockType.INTERNAL) ∈ (g'.succ b).map g'.key := by
    rw [h.linked]
    exact List.mem_append_right _ (List.mem_map_of_mem ht)
  obtain ⟨j, _, hj⟩ := List.mem_map.mp hmem
  obtain ⟨y, hy, hys⟩ := key_internal.mp hj
  obtain ⟨z, hz, hzs, _⟩ := range?_eq_some.mp hi
  have hzt : z.start ≠ t := findInternal_none _ hnew hz.1 hz.2
  have hi' := h.range?_eq hx hstop hi
  have hord := (h.wellFormed hw).ordered j y hy
  refine ⟨i, j, s, e, y.start, y.stop, t, ?_, hi', hy.range?, hs, he, by omega, by omega⟩
  rintro rfl
  have := hi'.symm.trans hy.range?
  simp only [Option.some.injEq, Prod.mk.injEq] at this
  omega

end

/-! ### The recursion follows the preorder -/

open DepthFirst (Visits)

/-- The positions of the exits inside the function. -/
def inside (es : List (Nat × BlockType)) : List Nat :=
  (es.filter (fun e => e.2 == .INTERNAL)).map Prod.fst

theorem inside_cons (e : Nat × BlockType) (es : List (Nat × BlockType)) :
    inside (e :: es) = inside [e] ++ inside es := by
  rw [inside, inside, inside, ← List.map_append, ← List.filter_append]
  rfl

/-- A recursive call on a new block, while nothing overlaps. -/
def Traces (S : Subject) (fuel : Nat)
    (recurse : Nat → ControlFlowGraph → Except Error ControlFlowGraph) : Prop :=
  ∀ (b : Nat) (x : BasicBlock) (g g' : ControlFlowGraph) (seen out : List Nat),
    g.WellFormed → g.Internal b x → x.start < S.length → g.succ b = [] →
    (unused S g).card < fuel → Clean S (Function.update g.range? b none) seen →
    x.start ∉ seen → recurse b g = .ok g' → Visits S.nextInsns seen [x.start] out →
    Outcome S g'.range? out

section
variable {S : Subject} {b pc : Nat} {g g' : ControlFlowGraph} {x : BasicBlock} {fuel : Nat}
  {seen out : List Nat}
  {recurse : Nat → ControlFlowGraph → Except Error ControlFlowGraph}

/-- A block that ends at `pc` is ended there again. -/
theorem range?_setEnd_self (hx : g.Internal b x) (hstop : x.stop = pc) :
    (g.setEnd b pc).range? = g.range? := by
  rw [range?_setEnd hx, ← hstop, ← hx.range?, Function.update_eq_self]

theorem range?_new (hx : g.Internal b x) (hstop : x.stop = pc) (y : BasicBlock) :
    (((g.setEnd b pc).pushBlock y).pushEntry.addEdge b g.blocks.length).range? =
      Function.update g.range? g.blocks.length
        (if y.blockType = .INTERNAL then some (y.start, y.stop) else none) := by
  rw [range?_addEdge, range?_pushEntry, range?_pushBlock, blocks_length_setEnd,
    range?_setEnd_self hx hstop]

theorem range?_outside {ty : BlockType} (hty : ty ≠ .INTERNAL) (hx : g.Internal b x)
    (hstop : x.stop = pc) : (createSuccessorOutside ty g b pc).range? = g.range? := by
  simp only [createSuccessorOutside, blocks_length_setEnd]
  rw [range?_new hx hstop, if_neg hty, ← range?_length, Function.update_eq_self]

/-- A target that was visited but starts no block lies inside a block, behind an
instruction that is no branch. -/
theorem late_of_target (hclean : Clean S g.range? seen) (hbranch : isBranch (S.insn pc) = true)
    (hpc : pc ∈ seen) {t : Nat} (hnext : S.Next pc t) (ht : t ∈ seen)
    (hnew : g.findInternalBlockByPosition t = none) :
    Late S seen ∧ ∃ i s e, g.range? i = some (s, e) ∧ s ≤ t ∧ t ≤ e := by
  obtain ⟨i, s, e, hi, hs, he⟩ := (hclean.cover t).mp ht
  obtain ⟨y, hy, hys, hye⟩ := range?_eq_some.mp hi
  have hne : y.start ≠ t := findInternal_none _ hnew hy.1 hy.2
  obtain ⟨t', rfl⟩ : ∃ t', t = t' + 1 := ⟨t - 1, by omega⟩
  obtain ⟨hplain, hbefore⟩ := hclean.plain i s e t' hi (by omega) (by omega)
  have ht' : t' ∈ seen := (hclean.cover t').mpr ⟨i, s, e, hi, by omega, by omega⟩
  refine ⟨?_, i, s, e, hi, hs, he⟩
  rcases hnext with hjump | ⟨_, heq, _⟩
  · exact ⟨pc, t', hpc, ht', ht, hjump, hplain, hbefore⟩
  · obtain rfl : t' = pc := by omega
    rw [hbranch] at hplain
    cases hplain

/-- One exit. -/
theorem linkExit_outcome (hscan : Scans S fuel recurse) (htrace : Traces S fuel recurse)
    (hw : g.WellFormed) (hx : g.Internal b x) (hstop : x.stop = pc)
    (hfuel : (unused S g).card ≤ fuel) (hbranch : isBranch (S.insn pc) = true)
    (hpc : pc ∈ seen) (hclean : Clean S g.range? seen) {e : Nat × BlockType}
    (hin : e.2 = .INTERNAL → S.Next pc e.1 ∧ e.1 < S.length)
    (hout : e.2 ≠ .INTERNAL → e.1 = pc)
    (hok : ControlFlowAnalysis.linkExit recurse b pc g e = .ok g')
    (hvisit : Visits S.nextInsns seen (inside [e]) out) : Outcome S g'.range? out := by
  have hle : x.start ≤ pc := hstop ▸ hw.ordered b x hx
  obtain ⟨t, ty⟩ := e
  -- an exit that leaves the function changes no range and visits nothing
  have houtside : ∀ ty', ty' ≠ BlockType.INTERNAL →
      Visits S.nextInsns seen (inside [(t, ty')]) out →
      Outcome S (createSuccessorOutside ty' g b pc).range? out := by
    intro ty' hty hv
    have hnil : inside [(t, ty')] = [] := by simp [inside, hty]
    rw [hnil] at hv
    cases hv
    rw [range?_outside hty hx hstop]
    exact .inl hclean
  cases ty with
  | EXTERNAL =>
    cases hok
    exact houtside _ (by simp) hvisit
  | RUNTIME =>
    cases hok
    exact houtside _ (by simp) hvisit
  | INTERNAL =>
    obtain ⟨hnext, hlt⟩ := hin rfl
    have hvisit' : Visits S.nextInsns seen [t] out := hvisit
    cases hfind : g.findInternalBlockByPosition t with
    | some j =>
      obtain ⟨y, hy, hys, hty⟩ := findInternal_some _ hfind
      have ht : t ∈ seen := (hclean.cover t).mpr ⟨j, y.start, y.stop,
        Internal.range? ⟨hy, hty⟩, by omega, hys ▸ hw.ordered j y ⟨hy, hty⟩⟩
      have hsame := hvisit'.of_mem ht
      cases hsame
      simp only [ControlFlowAnalysis.linkExit, ControlFlowAnalysis.linkInternal,
        tryCreateSuccessorInternal, findInternal_setEnd, hfind] at hok
      cases hok
      rw [range?_addEdge, range?_pushEntry, range?_setEnd_self hx hstop]
      exact .inl hclean
    | none =>
      by_cases ht : t ∈ seen
      · obtain ⟨hlate, i, s, e, hi, hs, he⟩ :=
          late_of_target hclean hbranch hpc hnext ht hfind
        obtain ⟨g'', hok', hgrown⟩ := linkExit_grown hscan hw hx hle hfuel
          (e := (t, .INTERNAL)) (fun _ => hlt) (fun h => absurd rfl h)
        obtain rfl : g'' = g' := Except.ok.inj (hok'.symm.trans hok)
        exact .inr ⟨hgrown.overlap_new hw hx hstop (List.mem_singleton.mpr rfl) hfind hi hs he,
          hlate.of_isPrefix hvisit.isPrefix⟩
      · have hstep := Step.link (t := t) hx hle
        simp only [ControlFlowAnalysis.linkExit, ControlFlowAnalysis.linkInternal,
          tryCreateSuccessorInternal, findInternal_setEnd, hfind, blocks_length_setEnd]
          at hok hstep
        have hlinked := linked_new hw hx ⟨t, t, .INTERNAL, false, false, false⟩ hstep
        have hy : (((g.setEnd b pc).pushBlock
            ⟨t, t, .INTERNAL, false, false, false⟩).pushEntry.addEdge b g.blocks.length).Internal
            g.blocks.length ⟨t, t, .INTERNAL, false, false, false⟩ :=
          ⟨by rw [getElem?_new _ _ _ (le_refl _), if_pos rfl], rfl⟩
        have hcard := unused_card_lt hstep.keeps hfind hlt hy rfl
        have hempty := hlinked.succ g.blocks.length
        rw [if_neg (by have := hx.lt; omega), (hw.surplus _ (le_refl _)).1] at hempty
        refine htrace _ _ _ _ _ _ (hstep.wellFormed hw) hy hlt hempty (by omega) ?_ ht hok hvisit'
        rw [range?_new hx hstop, Function.update_idem, ← range?_length, Function.update_eq_self]
        exact hclean

/-- The exits in order: until an overlap the graph stays clean, after one it stays
overlapped. -/
theorem linkExits_outcome (hscan : Scans S fuel recurse) (htrace : Traces S fuel recurse)
    (es : List (Nat × BlockType)) (hw : g.WellFormed) (hx : g.Internal b x) (hstop : x.stop = pc)
    (hfuel : (unused S g).card ≤ fuel) (hbranch : isBranch (S.insn pc) = true)
    (hpc : pc ∈ seen) (hclean : Clean S g.range? seen)
    (hin : ∀ e ∈ es, e.2 = .INTERNAL → S.Next pc e.1 ∧ e.1 < S.length)
    (hout : ∀ e ∈ es, e.2 ≠ .INTERNAL → e.1 = pc)
    (hok : ControlFlowAnalysis.linkExits recurse b pc g es = .ok g')
    (hvisit : Visits S.nextInsns seen (inside es) out) : Outcome S g'.range? out := by
  induction es generalizing g x seen with
  | nil =>
    cases hvisit
    cases hok
    exact .inl hclean
  | cons e es ih =>
    have hle : x.start ≤ pc := hstop ▸ hw.ordered b x hx
    rw [inside_cons] at hvisit
    obtain ⟨mid, hfirst, hrest⟩ := hvisit.split
    obtain ⟨g₁, hok₁, hgrown⟩ := linkExit_grown hscan hw hx hle hfuel
      (fun hty => (hin e List.mem_cons_self hty).2) (hout e List.mem_cons_self)
    rw [ControlFlowAnalysis.linkExits, List.foldlM_cons, hok₁] at hok
    have hok' : ControlFlowAnalysis.linkExits recurse b pc g₁ es = .ok g' := hok
    have hin' := fun e he => hin e (List.mem_cons_of_mem _ he)
    have hout' := fun e he => hout e (List.mem_cons_of_mem _ he)
    have hfuel₁ : (unused S g₁).card ≤ fuel :=
      (Finset.card_le_card (unused_subset S hgrown.steps.keeps)).trans hfuel
    obtain ⟨y, hy, hys, hye⟩ := hgrown.origin x hx
    have hstop₁ : y.stop = pc := by simpa using hye
    rcases linkExit_outcome hscan htrace hw hx hstop hfuel hbranch hpc hclean
      (hin e List.mem_cons_self) (hout e List.mem_cons_self) hok₁ hfirst with hclean₁ | ⟨ho, hlate⟩
    · exact ih (hgrown.wellFormed hw) hy hstop₁ hfuel₁ (hfirst.isPrefix.subset hpc) hclean₁ hin'
        hout' hok' hrest
    · obtain ⟨g'', hok'', hgrown'⟩ := linkExits_grown hscan es (hgrown.wellFormed hw) hy
        (by omega) hfuel₁ (fun e he hty => (hin' e he hty).2) hout'
      obtain rfl : g'' = g' := Except.ok.inj (hok''.symm.trans hok')
      exact .inr ⟨hgrown'.overlap hy hstop₁ ho, hlate.of_isPrefix hrest.isPrefix⟩

/-- The visits along a stretch without branches. -/
theorem visits_run {s m : Nat} (hvisit : Visits S.nextInsns seen [s] out)
    (hnew : ∀ k, s ≤ k → k ≤ s + m → k ∉ seen)
    (hnext : ∀ k, s ≤ k → k < s + m → S.nextInsns k = [k + 1]) :
    Visits S.nextInsns (seen ++ List.range' s (m + 1)) (S.nextInsns (s + m)) out := by
  induction m with
  | zero =>
    have h := hvisit.of_not_mem (hnew s (le_refl s) (by omega))
    rw [List.append_nil] at h
    exact h
  | succ m ih =>
    have h := ih (fun k hs he => hnew k hs (by omega)) fun k hs he => hnext k hs (by omega)
    rw [hnext (s + m) (by omega) (by omega)] at h
    have hfresh : s + m + 1 ∉ seen ++ List.range' s (m + 1) := by
      rw [List.mem_append, List.mem_range'_1]
      rintro (hmem | hmem)
      · exact hnew (s + m + 1) (by omega) (by omega) hmem
      · omega
    have h' := h.of_not_mem hfresh
    rw [List.append_nil, List.append_assoc] at h'
    rw [List.range'_concat, Nat.one_mul]
    exact h'

end

theorem nextInsns_plain {S : Subject} {k : Nat} (hplain : isBranch (S.insn k) = false) :
    S.nextInsns k = [k + 1] := by
  obtain ⟨hu, hc, hlr, hctr⟩ := not_isBranch hplain
  simp [Subject.nextInsns, Subject.exits, Subject.branchesToAddress, Subject.branchesToRegister,
    Subject.fallsThrough, hplain, hu, hc, hlr, hctr]

/-- From a new instruction on, the instructions up to the next block are new: the first
is, and none of the others starts a block. -/
theorem not_mem_of_clean {S : Subject} {g : ControlFlowGraph} {b s last : Nat} {seen : List Nat}
    (h : Clean S (Function.update g.range? b none) seen) (hnew : s ∉ seen)
    (hpass : ∀ k, s ≤ k → k < last → g.findInternalBlockByPosition (k + 1) = none) (k : Nat)
    (hs : s ≤ k) (hle : k ≤ last) : k ∉ seen := by
  induction k, hs using Nat.le_induction with
  | base => exact hnew
  | succ k hs ih =>
    intro hmem
    obtain ⟨i, s', e, hi, hs', he⟩ := (h.cover _).mp hmem
    have hib : i ≠ b := by
      rintro rfl
      rw [Function.update_self] at hi
      cases hi
    rw [Function.update_of_ne hib] at hi
    obtain ⟨y, hy, hys, _⟩ := range?_eq_some.mp hi
    have hstart := findInternal_none _ (hpass k hs (by omega)) hy.1 hy.2
    have hprev : k ∈ seen := (h.cover _).mpr
      ⟨i, s', e, by rw [Function.update_of_ne hib, hi], by omega, by omega⟩
    exact ih (by omega) hprev

/-- **The scan of a new block follows the preorder until blocks overlap**, which they do
only if a target comes late. -/
theorem functionCFABlock_traces {S : Subject} (h : S.Analysable) (fuel : Nat) :
    Traces S fuel (ControlFlowAnalysis.functionCFABlock S fuel) := by
  induction fuel with
  | zero => exact fun b x g g' seen out _ _ _ _ hfuel => absurd hfuel (Nat.not_lt_zero _)
  | succ fuel ih =>
    intro b x g g' seen out hw hx hstart _ hfuel hclean hnew hok hvisit
    obtain ⟨last, hle, hlast, hpass, hend⟩ := ControlFlowAnalysis.blockLoop_end
      (ControlFlowAnalysis.functionCFABlock S fuel) b (S.length - x.start) h g hstart (by omega)
    rw [ControlFlowAnalysis.functionCFABlock_succ S hx] at hok
    have hnew' := not_mem_of_clean hclean hnew fun k hk hlt => (hpass k hk hlt).2
    have hplain : ∀ k, x.start ≤ k → k < last → isBranch (S.insn k) = false :=
      fun k hk hlt => (hpass k hk hlt).1
    obtain ⟨m, hm⟩ := Nat.exists_eq_add_of_le hle
    have hvisit' := visits_run (m := m) hvisit (fun k hs he => hnew' k hs (by omega))
      fun k hs he => nextInsns_plain (hplain k hs (by omega))
    rw [← hm, show m + 1 = last + 1 - x.start by omega] at hvisit'
    -- the ranges once the block ends at `last`
    have hscanned : (isBranch (S.insn last) = false → last + 1 ∈ seen) →
        Clean S (g.setEnd b last).range? (seen ++ List.range' x.start (last + 1 - x.start)) := by
      intro hend
      have := hclean.scan (b := b) (Function.update_self _ _ _) hle hnew' hplain hend
      rwa [Function.update_idem, ← range?_setEnd hx] at this
    obtain ⟨y, hy, hys⟩ := hx.setEnd b last
    cases hend with
    | branch hbranch hresult =>
      have hclean' := hscanned fun hplain' => by simp [hbranch] at hplain'
      rw [hok] at hresult
      obtain ⟨g₁, hg₁, rfl⟩ := map_eq_ok.mp hresult.symm
      rw [range?_setFlags (ControlFlowAnalysis.keepsRange_branchFlags g₁)]
      rw [← linkExits_setEnd _ (S.exits_ne_nil last)] at hg₁
      have hystop : y.stop = last := by
        have hget := getElem?_setEnd g b last b
        rw [hx.1, hy.1] at hget
        simp only [if_true, Option.map_some, Option.some.injEq] at hget
        rw [hget]
      refine linkExits_outcome (functionCFABlock_scans h fuel) ih (S.exits last)
        (hw.setEnd hx hle) hy hystop ?_ hbranch ?_ hclean' ?_ (S.exits_outside_eq last) hg₁ hvisit'
      · have := Finset.card_le_card (unused_subset S (keeps_setEnd g b last))
        omega
      · rw [List.mem_append, List.mem_range'_1]
        omega
      · rintro ⟨t, ty⟩ he hty
        obtain rfl : ty = .INTERNAL := hty
        have hnext := (h.mem_exits_internal hlast).mp he
        exact ⟨hnext, hnext.elim (fun hjump => hjump.2.1) fun hfall => hfall.2.2⟩
    | @following j hbranch hfind hresult =>
      obtain ⟨z, hz, hzs, hzt⟩ := findInternal_some _ hfind
      have hzi : g.Internal j z := ⟨hz, hzt⟩
      have hjb : j ≠ b := by
        rintro rfl
        obtain rfl := Option.some.inj (hz.symm.trans hx.1)
        omega
      have hmem : last + 1 ∈ seen := (hclean.cover _).mpr ⟨j, z.start, z.stop,
        by rw [Function.update_of_ne hjb, hzi.range?], by omega, hzs ▸ hw.ordered j z hzi⟩
      rw [nextInsns_plain hbranch] at hvisit'
      have hdone := hvisit'.of_mem (List.mem_append_left _ hmem)
      cases hdone
      rw [hok] at hresult
      cases hresult
      rw [createSuccessorFallthrough, range?_addEdge]
      exact .inl (hscanned fun _ => hmem)

/-! ### The result -/

/-- No instruction lies in two internal blocks, and the block an instruction lies in is
the one that is found. -/
def Partitioned (g : ControlFlowGraph) : Prop :=
  (∀ i j x y k, g.Internal i x → g.Internal j y → x.start ≤ k → k ≤ x.stop → y.start ≤ k →
    k ≤ y.stop → i = j) ∧
  ∀ i x k, g.Internal i x → x.start ≤ k → k ≤ x.stop → g.findBlockByInsnIdx k = some i

end ControlFlowGraph

/-- In the order of visits every branch target comes before the instruction in front of
it, unless that is a branch. -/
def Subject.TargetsFirst (S : Subject) (order : List Nat) : Prop :=
  ∀ u t, u ∈ order → t ∈ order → S.JumpsTo u (t + 1) → isBranch (S.insn t) = false →
    Partition.Before order (t + 1) t

namespace ControlFlowGraph
open Ppc2cpp.Partition

section
variable {S : Subject} {g : ControlFlowGraph} {order : List Nat}

/-- A block outside the function comes after the block it was created from. -/
theorem WellFormed.outside_origin (hw : g.WellFormed) {j : Nat} {y : BasicBlock}
    (hy : g.blocks[j]? = some y) (hty : y.blockType ≠ .INTERNAL) :
    ∃ o x, o < j ∧ g.Internal o x ∧ j ∈ g.succ o := by
  obtain ⟨_, _, o, hoj, hpred⟩ := hw.outside j y hy hty
  have hcount := hw.transpose o j
  rw [hpred, List.count_singleton_self] at hcount
  have hmem : j ∈ g.succ o := List.count_pos_iff.mp (by omega)
  have hlt : o < g.blocks.length := by
    have := (List.getElem?_eq_some_iff.mp hy).1
    omega
  refine ⟨o, _, hoj, ⟨List.getElem?_eq_getElem hlt, ?_⟩, hmem⟩
  by_contra hout
  rw [(hw.outside o _ (List.getElem?_eq_getElem hlt) hout).2.1] at hmem
  cases hmem

theorem partitioned_of_clean (hw : g.WellFormed)
    (hfin : ∀ i x, g.Internal i x → Finished S g i x) (hclean : Clean S g.range? order) :
    Partitioned g := by
  have hapart : ∀ i j x y k, g.Internal i x → g.Internal j y → x.start ≤ k → k ≤ x.stop →
      y.start ≤ k → k ≤ y.stop → i = j :=
    fun i j x y k hx hy => hclean.apart i j _ _ _ _ k hx.range? hy.range?
  refine ⟨hapart, fun i x k hx hs he => ?_⟩
  have hget := hx.1
  obtain ⟨hlt, hgetElem⟩ := List.getElem?_eq_some_iff.mp hget
  refine List.findIdx?_eq_some_iff_getElem.mpr ⟨hlt, by simp [hgetElem, hs, he], ?_⟩
  intro j hj
  have hjlt : j < g.blocks.length := by omega
  have hy := List.getElem?_eq_getElem hjlt
  simp only [Bool.and_eq_true, decide_eq_true_eq, not_and]
  intro hjs hje
  by_cases hty : (g.blocks[j]).blockType = .INTERNAL
  · have := hapart i j x _ k hx ⟨hy, hty⟩ hs he hjs hje
    omega
  · -- a block outside stands at the end of an earlier block
    obtain ⟨o, z, hoj, hz, hmem⟩ := hw.outside_origin hy hty
    obtain ⟨hrange, _, _⟩ := hw.outside j _ hy hty
    have hkey : some ((g.blocks[j]).start, (g.blocks[j]).blockType) ∈
        (S.exits z.stop).map some := by
      rw [← (hfin o z hz).linked]
      exact List.mem_map.mpr ⟨j, hmem, by rw [key, hy]; rfl⟩
    have hstop := S.exits_outside_eq z.stop _
      (by simpa using hkey) hty
    have hord := hw.ordered o z hz
    simp only at hstop
    have := hapart i o x z k hx hz hs he (by omega) (by omega)
    omega

theorem targetsFirst_of_clean (h : S.Analysable) (hfin : ∀ i x, g.Internal i x → Finished S g i x)
    (hclean : Clean S g.range? order) : S.TargetsFirst order := by
  intro u t hu ht hjump hplain
  obtain ⟨i, s, e, hi, his, hie⟩ := (hclean.cover u).mp hu
  obtain ⟨x, hx, rfl, rfl⟩ := range?_eq_some.mp hi
  have hue : u = x.stop := by
    by_contra hne
    have hb := (hclean.plain i _ _ u hi his (by omega)).1
    obtain ⟨hnu, hnc, _⟩ := not_isBranch hb
    simp [Subject.JumpsTo, Subject.branchesToAddress, hnu, hnc] at hjump
  obtain ⟨j, y, _, hy, hys⟩ := ((hfin i x hx).successors h (t + 1)).mpr (.inl (hue ▸ hjump))
  obtain ⟨k, s', e', hk, hks, hke⟩ := (hclean.cover t).mp ht
  have hord := hclean.ordered j _ _ hy.range?
  have hte : t = e' := by
    by_contra hne
    have hjk := hclean.apart j k _ _ _ _ (t + 1) hy.range? hk (by omega) (by omega) (by omega)
      (by omega)
    subst hjk
    have := hy.range?.symm.trans hk
    simp only [Option.some.injEq, Prod.mk.injEq] at this
    omega
  subst hte
  exact hclean.ended k s' t hk hplain

end
end ControlFlowGraph

open ControlFlowGraph Ppc2cpp.Partition in
/-- **The blocks partition the code iff no target comes late**: the ranges of the
internal blocks are disjoint, and an instruction finds its block, exactly when in the
depth-first preorder of the possible next instructions from the first, branch target
before fall-through, every branch target comes before the instruction in front of it
unless that is a branch. -/
theorem partition_iff (S : Subject) (h : S.Analysable) :
    ∃ g order, ControlFlowAnalysis.functionCFA S = .ok g ∧
      DepthFirst.Visits S.nextInsns [] [0] order ∧
      (g.Partitioned ↔ S.TargetsFirst order) := by
  obtain ⟨g, hok, hfin⟩ := ControlFlowAnalysis.functionCFA_finished h
  have hw := ControlFlowAnalysis.functionCFA_wellFormed S hok
  obtain ⟨order, horder⟩ := DepthFirst.exists_visits S.nextInsns
    (Finset.range S.length) (fun k hk t ht => by
      have hnext := (h.mem_exits_internal (Finset.mem_range.mp hk)).mp (Subject.mem_nextInsns.mp ht)
      exact Finset.mem_range.mpr (hnext.elim (fun hj => hj.2.1) fun hf => hf.2.2))
    [] [0] (by simpa using h.nonempty)
  refine ⟨g, order, hok, horder, ?_⟩
  have hfuel : (unused S ControlFlowGraph.init).card < S.length + 1 :=
    Nat.lt_succ_of_le ((Finset.card_filter_le _ _).trans (by simp))
  have hempty : Clean S (Function.update ControlFlowGraph.init.range? 0 none) [] := by
    have hnone : Function.update ControlFlowGraph.init.range? 0 none = fun _ => none := by
      funext i
      cases i with
      | zero => rfl
      | succ i => rfl
    rw [hnone]
    exact ⟨by simp, by simp, by simp, by simp, by simp⟩
  rcases functionCFABlock_traces h (S.length + 1) 0 ⟨0, 0, .INTERNAL, false, false, false⟩ _ g []
    order WellFormed.init ⟨rfl, rfl⟩ h.nonempty rfl hfuel hempty (List.not_mem_nil) hok horder
    with hclean | ⟨ho, hlate⟩
  · exact iff_of_true (partitioned_of_clean hw hfin hclean) (targetsFirst_of_clean h hfin hclean)
  · refine iff_of_false ?_ ?_
    · intro hpart
      obtain ⟨i, j, s, e, s', e', k, hne, hi, hj, h₁, h₂, h₃, h₄⟩ := ho
      obtain ⟨x, hx, rfl, rfl⟩ := range?_eq_some.mp hi
      obtain ⟨y, hy, rfl, rfl⟩ := range?_eq_some.mp hj
      exact hne (hpart.1 i j x y k hx hy h₁ h₂ h₃ h₄)
    · intro hfirst
      obtain ⟨u, t, hu, ht, _, hjump, hplain, hbefore⟩ := hlate
      exact absurd (hfirst u t hu ht hjump hplain) (Nat.lt_asymm hbefore)

theorem partition_iff_backEdge :
    ∃ g order, ControlFlowAnalysis.functionCFA backEdge = .ok g ∧
      DepthFirst.Visits backEdge.nextInsns [] [0] order ∧
      (g.Partitioned ↔ backEdge.TargetsFirst order) :=
  partition_iff backEdge backEdge_analysable

/-- The graph of `backEdge`: the block of the whole loop is not cut at its target. -/
theorem functionCFA_backEdge : ControlFlowAnalysis.functionCFA backEdge = .ok
    { blocks := [⟨0, 2, .INTERNAL, false, false, false⟩, ⟨1, 2, .INTERNAL, false, false, false⟩,
        ⟨3, 3, .INTERNAL, true, false, false⟩, ⟨3, 3, .RUNTIME, false, false, false⟩]
      psTable := [⟨[], [1, 2]⟩, ⟨[0, 1], [1, 2]⟩, ⟨[1, 0], [3]⟩, ⟨[2], []⟩, ⟨[], []⟩, ⟨[], []⟩] } := by
  decide +kernel

/-- A back edge into the middle of the block being scanned: instruction 1 lies in two
blocks. -/
theorem backEdge_overlap : ¬ ∀ (S : Subject) (g : ControlFlowGraph), S.Analysable →
    ControlFlowAnalysis.functionCFA S = .ok g → g.Partitioned := by
  intro h
  have hpart := h backEdge _ backEdge_analysable functionCFA_backEdge
  have := hpart.1 0 1 ⟨0, 2, .INTERNAL, false, false, false⟩ ⟨1, 2, .INTERNAL, false, false, false⟩ 1
    ⟨rfl, rfl⟩ ⟨rfl, rfl⟩ (by decide) (by decide) (by decide) (by decide)
  cases this

end Ppc2cpp
