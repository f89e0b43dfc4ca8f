import Ppc2cpp.ControlFlow.Assembled
import Ppc2cpp.ControlFlow.BlockScan

/-! The control-flow graph is sound and covers the function.

The recursion works on a graph in which one block is being scanned, its callers'
blocks have their end but not all their edges, and the rest are finished. `Grown`
says what a piece of the recursion leaves behind: the edges it was asked to create,
and finished blocks; everything else is frozen. `functionCFABlock_grown` is the
induction, on fuel, with the start positions not used yet as the measure. -/
namespace Ppc2cpp
namespace ControlFlowGraph

/-- What a successor is looked up by. -/
def key (g : ControlFlowGraph) (j : Nat) : Option (Nat × BlockType) :=
  g.blocks[j]?.map fun y => (y.start, y.blockType)

theorem key_setFlags (g : ControlFlowGraph) (b : Nat) {f : BasicBlock → BasicBlock}
    (hf : KeepsRange f) : (g.setFlags b f).key = g.key := by
  funext j
  rw [key, key, getElem?_setFlags]
  cases g.blocks[j]? with
  | none => rfl
  | some y => by_cases hj : b = j <;> simp [hj, (hf y).1, (hf y).2.2]

/-- A block whose flags are set is as much inside the function as before. -/
theorem Internal.setFlags {g : ControlFlowGraph} {b : Nat} {y : BasicBlock} (hy : g.Internal b y)
    {f : BasicBlock → BasicBlock} (hf : KeepsRange f) : (g.setFlags b f).Internal b (f y) := by
  refine ⟨?_, (hf y).2.2.trans hy.2⟩
  rw [getElem?_setFlags, hy.1]
  simp

theorem Internal.of_setFlags {g : ControlFlowGraph} {b i : Nat} {x : BasicBlock}
    {f : BasicBlock → BasicBlock} (hx : (g.setFlags b f).Internal i x) (hne : i ≠ b) :
    g.Internal i x := by
  refine ⟨?_, hx.2⟩
  rw [← getElem?_setFlags_of_ne g hne f]
  exact hx.1

theorem Keeps.length_le {g g' : ControlFlowGraph} (h : Keeps g g') :
    g.blocks.length ≤ g'.blocks.length := by
  by_contra hlt
  have hi : g'.blocks.length < g.blocks.length := by omega
  obtain ⟨y, hy, _⟩ := h _ _ (List.getElem?_eq_getElem hi)
  simp at hy

theorem Keeps.key_eq {g g' : ControlFlowGraph} (h : Keeps g g') {j : Nat}
    (hj : j < g.blocks.length) : g'.key j = g.key j := by
  obtain ⟨y, hy, hs, ht⟩ := h j _ (List.getElem?_eq_getElem hj)
  simp [key, hy, List.getElem?_eq_getElem hj, hs, ht]

/-- The successors of a block in the graph are looked up by the same keys later. -/
theorem Keeps.map_key_eq {g g' : ControlFlowGraph} (h : Keeps g g') (hw : g.WellFormed) (i : Nat) :
    (g.succ i).map g'.key = (g.succ i).map g.key :=
  List.map_congr_left fun j hj => h.key_eq (hw.valid i j hj)

/-- A block with all its edges. -/
structure Finished (S : Subject) (g : ControlFlowGraph) (i : Nat) (x : BasicBlock) : Prop where
  range : x.start ≤ x.stop ∧ x.stop < S.length
  plain : ∀ k, x.start ≤ k → k < x.stop → isBranch (S.insn k) = false
  linked : (g.succ i).map g.key = (S.exits x.stop).map some

theorem Finished.mono {S : Subject} {g g' : ControlFlowGraph} {i : Nat} {x : BasicBlock}
    (h : Finished S g i x) (hw : g.WellFormed) (hk : Keeps g g') (hs : g'.succ i = g.succ i) :
    Finished S g' i x where
  range := h.range
  plain := h.plain
  linked := by rw [hs, hk.map_key_eq hw, h.linked]

/-- The graph `g` after the edges `es` were created from the block `b`, which ends at
`pc`, with the blocks reached by them scanned. -/
structure Grown (S : Subject) (b pc : Nat) (es : List (Nat × BlockType))
    (g g' : ControlFlowGraph) : Prop where
  steps : Steps g g'
  frozen : ∀ i, i < g.blocks.length → i ≠ b →
    g'.blocks[i]? = g.blocks[i]? ∧ g'.succ i = g.succ i
  origin : ∀ x, g.Internal b x → ∃ x', g'.Internal b x' ∧ x'.start = x.start ∧
    x'.stop = if es = [] then x.stop else pc
  linked : (g'.succ b).map g'.key = (g.succ b).map g.key ++ es.map some
  finished : ∀ i x, g.blocks.length ≤ i → g'.Internal i x → Finished S g' i x

section
variable {S : Subject} {b pc : Nat} {es es' : List (Nat × BlockType)} {g g' g'' : ControlFlowGraph}

theorem Grown.refl (S : Subject) (b pc : Nat) (g : ControlFlowGraph) : Grown S b pc [] g g where
  steps := .refl
  frozen _ _ _ := ⟨rfl, rfl⟩
  origin x hx := ⟨x, hx, rfl, rfl⟩
  linked := by simp
  finished i x hi hx := absurd hx.lt (by omega)

theorem Grown.wellFormed (h : Grown S b pc es g g') (hw : g.WellFormed) : g'.WellFormed :=
  h.steps.wellFormed hw

theorem Grown.trans (h : Grown S b pc es g g') (h' : Grown S b pc es' g' g'') (hw : g.WellFormed)
    (hb : b < g.blocks.length) : Grown S b pc (es ++ es') g g'' := by
  have hlen := h.steps.keeps.length_le
  refine ⟨h.steps.trans h'.steps, ?_, ?_, ?_, ?_⟩
  · intro i hi hne
    obtain ⟨hb₁, hs₁⟩ := h.frozen i hi hne
    obtain ⟨hb₂, hs₂⟩ := h'.frozen i (by omega) hne
    exact ⟨hb₂.trans hb₁, hs₂.trans hs₁⟩
  · intro x hx
    obtain ⟨y, hy, hs, he⟩ := h.origin x hx
    obtain ⟨z, hz, hs', he'⟩ := h'.origin y hy
    refine ⟨z, hz, hs'.trans hs, ?_⟩
    rw [he', he]
    by_cases h₁ : es = [] <;> by_cases h₂ : es' = [] <;> simp [h₁, h₂]
  · rw [h'.linked, h.linked, List.map_append, List.append_assoc]
  · intro i x hi hx
    by_cases hnew : g'.blocks.length ≤ i
    · exact h'.finished i x hnew hx
    · obtain ⟨hblock, hsucc⟩ := h'.frozen i (by omega) (by omega)
      have hx' : g'.Internal i x := ⟨hblock ▸ hx.1, hx.2⟩
      exact (h.finished i x hi hx').mono (h.wellFormed hw) h'.steps.keeps hsucc

/-- Flags change nothing of this. -/
theorem Grown.setFlags (h : Grown S b pc es g g') (hb : b < g.blocks.length)
    {f : BasicBlock → BasicBlock} (hf : KeepsRange f) :
    Grown S b pc es g (g'.setFlags b f) := by
  refine ⟨h.steps.tail (.flags hf), ?_, ?_, ?_, ?_⟩
  · intro i hi hne
    rw [getElem?_setFlags_of_ne g' hne]
    exact h.frozen i hi hne
  · intro x hx
    obtain ⟨y, hy, hs, he⟩ := h.origin x hx
    exact ⟨f y, hy.setFlags hf, (hf y).1.trans hs, (hf y).2.1.trans he⟩
  · rw [succ_setFlags, key_setFlags g' b hf, h.linked]
  · intro i x hi hx
    obtain ⟨hrange, hplain, hlinked⟩ := h.finished i x hi (hx.of_setFlags (by omega))
    exact ⟨hrange, hplain, by rw [succ_setFlags, key_setFlags g' b hf, hlinked]⟩

end

/-! ### One edge -/

/-- `g₁` is `g` with an edge from the block `b`, which now ends at `pc`, to the block
`j` of key `k`. -/
structure Linked (b pc j : Nat) (k : Nat × BlockType) (g g₁ : ControlFlowGraph) : Prop where
  step : Step g g₁
  blocks : ∀ i, i < g.blocks.length →
    g₁.blocks[i]? = g.blocks[i]?.map (fun x => if b = i then {x with stop := pc} else x)
  succ : ∀ i, g₁.succ i = if b = i then g.succ i ++ [j] else g.succ i
  key : g₁.key j = some k

section
variable {S : Subject} {b pc j t : Nat} {k : Nat × BlockType} {g g₁ : ControlFlowGraph}
  {x : BasicBlock}

theorem Linked.frozen (h : Linked b pc j k g g₁) {i : Nat} (hi : i < g.blocks.length)
    (hne : i ≠ b) : g₁.blocks[i]? = g.blocks[i]? ∧ g₁.succ i = g.succ i := by
  refine ⟨?_, by rw [h.succ, if_neg (Ne.symm hne)]⟩
  rw [h.blocks i hi]
  simp [Ne.symm hne]

theorem Linked.origin (h : Linked b pc j k g g₁) (hx : g.Internal b x) :
    g₁.Internal b {x with stop := pc} := by
  refine ⟨?_, hx.2⟩
  rw [h.blocks b hx.lt, hx.1]
  simp

theorem Linked.map_key (h : Linked b pc j k g g₁) (hw : g.WellFormed) :
    (g₁.succ b).map g₁.key = (g.succ b).map g.key ++ [some k] := by
  rw [h.succ, if_pos rfl, List.map_append, h.step.keeps.map_key_eq hw, List.map_singleton, h.key]

/-- An edge to a block that is there already, or to a new one outside the function. -/
theorem Linked.grown (h : Linked b pc j k g g₁) (hw : g.WellFormed)
    (hnew : ∀ i x, g.blocks.length ≤ i → ¬ g₁.Internal i x) : Grown S b pc [k] g g₁ where
  steps := .single h.step
  frozen i hi hne := h.frozen hi hne
  origin x hx := ⟨_, h.origin hx, rfl, by simp⟩
  linked := h.map_key hw
  finished i x hi hx := absurd hx (hnew i x hi)

theorem linked_existing (hw : g.WellFormed) (hx : g.Internal b x) (hpc : x.start ≤ pc)
    (hfind : g.findInternalBlockByPosition t = some j) :
    ∃ g₁, g.tryCreateSuccessorInternal b pc t = (g₁, none) ∧
      Linked b pc j (t, .INTERNAL) g g₁ ∧ g₁.blocks.length = g.blocks.length := by
  have hstep := Step.link (t := t) hx hpc
  obtain ⟨y, hy, hs, ht⟩ := findInternal_some _ hfind
  have hroom : b < (g.setEnd b pc).pushEntry.psTable.length := by
    have := hw.room
    have := hx.lt
    simp only [psTable_length_pushEntry, psTable_setEnd]
    omega
  simp only [tryCreateSuccessorInternal, findInternal_setEnd, hfind] at hstep ⊢
  refine ⟨_, rfl, ⟨hstep, ?_, ?_, ?_⟩, by simp⟩
  · intro i _
    rw [blocks_addEdge, blocks_pushEntry, getElem?_setEnd]
  · intro i
    rw [succ_addEdge _ _ _ _ hroom]
    simp
  · rw [key, blocks_addEdge, blocks_pushEntry, getElem?_setEnd, hy]
    by_cases hj : b = j <;> simp [hj, hs, ht]

/-- The edge to a new block, of any type. -/
theorem linked_new (hw : g.WellFormed) (hx : g.Internal b x) (y : BasicBlock)
    (hstep : Step g (((g.setEnd b pc).pushBlock y).pushEntry.addEdge b g.blocks.length)) :
    Linked b pc g.blocks.length (y.start, y.blockType) g
      (((g.setEnd b pc).pushBlock y).pushEntry.addEdge b g.blocks.length) := by
  have hroom : b < ((g.setEnd b pc).pushBlock y).pushEntry.psTable.length := by
    have := hw.room
    have := hx.lt
    simp only [psTable_length_pushEntry, psTable_pushBlock, psTable_setEnd]
    omega
  refine ⟨hstep, ?_, ?_, ?_⟩
  · intro i hi
    rw [blocks_addEdge, blocks_pushEntry, getElem?_pushBlock, blocks_length_setEnd,
      if_neg (by omega), getElem?_setEnd]
  · intro i
    rw [succ_addEdge _ _ _ _ hroom]
    simp
  · rw [key, blocks_addEdge, blocks_pushEntry, getElem?_pushBlock, blocks_length_setEnd, if_pos rfl]
    rfl

/-- The only new block is the one the edge goes to. -/
theorem getElem?_new (b pc : Nat) (y : BasicBlock) {i : Nat} (hi : g.blocks.length ≤ i) :
    (((g.setEnd b pc).pushBlock y).pushEntry.addEdge b g.blocks.length).blocks[i]? =
      if i = g.blocks.length then some y else none := by
  rw [blocks_addEdge, blocks_pushEntry, getElem?_pushBlock, blocks_length_setEnd]
  split
  · rfl
  · exact List.getElem?_eq_none (by simpa using hi)

theorem linked_outside {ty : BlockType} (hty : ty ≠ .INTERNAL) (hw : g.WellFormed)
    (hx : g.Internal b x) (hpc : x.start ≤ pc) :
    Linked b pc g.blocks.length (pc, ty) g (createSuccessorOutside ty g b pc) ∧
      ∀ i z, g.blocks.length ≤ i → ¬ (createSuccessorOutside ty g b pc).Internal i z := by
  have hstep := Step.outside hty hx hpc
  simp only [createSuccessorOutside, blocks_length_setEnd] at hstep ⊢
  refine ⟨linked_new hw hx _ hstep, ?_⟩
  rintro i y hi ⟨hy, ht⟩
  rw [getElem?_new _ _ _ hi] at hy
  split at hy
  · obtain rfl := Option.some.inj hy
    exact hty ht
  · cases hy

theorem linked_fallthrough (hw : g.WellFormed) (hx : g.Internal b x) (hpc : x.start ≤ pc)
    (hfind : g.findInternalBlockByPosition t = some j) :
    Linked b pc j (t, .INTERNAL) g (g.createSuccessorFallthrough b pc j) ∧
      ∀ i z, g.blocks.length ≤ i → ¬ (g.createSuccessorFallthrough b pc j).Internal i z := by
  obtain ⟨y, hy, hs, ht⟩ := findInternal_some _ hfind
  have hstep := Step.fallthrough hx hpc ⟨hy, ht⟩
  have hroom : b < (g.setEnd b pc).psTable.length := lt_of_lt_of_le hx.lt hw.room
  simp only [createSuccessorFallthrough] at hstep ⊢
  refine ⟨⟨hstep, ?_, ?_, ?_⟩, fun i z hi hz => ?_⟩
  · intro i _
    rw [blocks_addEdge, getElem?_setEnd]
  · intro i
    rw [succ_addEdge _ _ _ _ hroom]
    simp
  · rw [key, blocks_addEdge, getElem?_setEnd, hy]
    by_cases hj : b = j <;> simp [hj, hs, ht]
  · have := hz.lt
    simp only [blocks_addEdge, blocks_length_setEnd] at this
    omega

theorem grown_fallthrough (hw : g.WellFormed) (hx : g.Internal b x) (hpc : x.start ≤ pc)
    (hfind : g.findInternalBlockByPosition t = some j) :
    Grown S b pc [(t, .INTERNAL)] g (g.createSuccessorFallthrough b pc j) := by
  obtain ⟨hlinked, hnew⟩ := linked_fallthrough hw hx hpc hfind
  exact hlinked.grown hw hnew

end

/-! ### The recursion -/

/-- The instructions of the function at which no block starts yet. -/
def unused (S : Subject) (g : ControlFlowGraph) : Finset Nat :=
  (Finset.range S.length).filter fun t => g.findInternalBlockByPosition t = none

theorem findInternal_isSome {g : ControlFlowGraph} {i : Nat} {x : BasicBlock}
    (hx : g.Internal i x) : g.findInternalBlockByPosition x.start ≠ none :=
  fun h => findInternal_none _ h hx.1 hx.2 rfl

theorem unused_subset (S : Subject) {g g' : ControlFlowGraph} (h : Keeps g g') :
    unused S g' ⊆ unused S g := by
  intro t ht
  simp only [unused, Finset.mem_filter] at ht ⊢
  refine ⟨ht.1, ?_⟩
  cases hfind : g.findInternalBlockByPosition t with
  | none => rfl
  | some j =>
    obtain ⟨y, hy, rfl, hty⟩ := findInternal_some _ hfind
    obtain ⟨z, hz, hs⟩ := h.internal ⟨hy, hty⟩
    rw [← hs] at ht
    exact absurd ht.2 (findInternal_isSome hz)

theorem unused_card_lt {S : Subject} {g g' : ControlFlowGraph} (h : Keeps g g') {t i : Nat}
    {x : BasicBlock} (hfree : g.findInternalBlockByPosition t = none) (ht : t < S.length)
    (hx : g'.Internal i x) (hs : x.start = t) : (unused S g').card < (unused S g).card := by
  refine Finset.card_lt_card ⟨unused_subset S h, fun hsub => ?_⟩
  have hmem : t ∈ unused S g := by simp [unused, hfree, ht]
  have := hsub hmem
  simp only [unused, Finset.mem_filter] at this
  exact findInternal_isSome hx (hs ▸ this.2)

/-- What a recursive call does on a new block, if there is fuel for the start
positions left. -/
def Scans (S : Subject) (fuel : Nat)
    (recurse : Nat → ControlFlowGraph → Except Error ControlFlowGraph) : Prop :=
  ∀ (b : Nat) (x : BasicBlock) (g : ControlFlowGraph), g.WellFormed → g.Internal b x →
    x.start < S.length → g.succ b = [] → (unused S g).card < fuel →
    ∃ g' pc, recurse b g = .ok g' ∧ x.start ≤ pc ∧ pc < S.length ∧
      (∀ k, x.start ≤ k → k < pc → isBranch (S.insn k) = false) ∧
      Grown S b pc (S.exits pc) g g'

section
variable {S : Subject} {b pc : Nat} {g : ControlFlowGraph} {x : BasicBlock} {fuel : Nat}
  {recurse : Nat → ControlFlowGraph → Except Error ControlFlowGraph}

/-- The scan of the block an edge was just created to. -/
theorem Linked.grown_scan {k : Nat × BlockType} {g₁ g' : ControlFlowGraph} {y : BasicBlock}
    {last : Nat} (h : Linked b pc g.blocks.length k g g₁) (hw : g.WellFormed)
    (hx : g.Internal b x) (hy : g₁.Internal g.blocks.length y)
    (hnew : ∀ i z, g.blocks.length ≤ i → g₁.Internal i z → i = g.blocks.length)
    (hgrown : Grown S g.blocks.length last (S.exits last) g₁ g') (hle : y.start ≤ last)
    (hlast : last < S.length)
    (hplain : ∀ k, y.start ≤ k → k < last → isBranch (S.insn k) = false) :
    Grown S b pc [k] g g' := by
  have hlen := h.step.keeps.length_le
  have hbnew : b ≠ g.blocks.length := by have := hx.lt; omega
  have hw₁ : g₁.WellFormed := h.step.wellFormed hw
  have hempty : g₁.succ g.blocks.length = [] := by
    rw [h.succ, if_neg hbnew, (hw.surplus _ (le_refl _)).1]
  refine ⟨.head h.step hgrown.steps, ?_, ?_, ?_, ?_⟩
  · intro i hi hne
    obtain ⟨hb₁, hs₁⟩ := h.frozen hi hne
    obtain ⟨hb₂, hs₂⟩ := hgrown.frozen i (by omega) (by omega)
    exact ⟨hb₂.trans hb₁, hs₂.trans hs₁⟩
  · intro z hz
    have hz₁ := h.origin hz
    obtain ⟨hb₂, _⟩ := hgrown.frozen b hz₁.lt hbnew
    exact ⟨_, ⟨hb₂.trans hz₁.1, hz₁.2⟩, rfl, by simp⟩
  · obtain ⟨_, hs₂⟩ := hgrown.frozen b (by have := hx.lt; omega) hbnew
    rw [hs₂, hgrown.steps.keeps.map_key_eq hw₁, h.map_key hw]
    rfl
  · intro i z hi hz
    by_cases hlt : g₁.blocks.length ≤ i
    · exact hgrown.finished i z hlt hz
    · by_cases hij : i = g.blocks.length
      · subst hij
        obtain ⟨y', hy', hs, he⟩ := hgrown.origin y hy
        obtain rfl := Option.some.inj (hy'.1.symm.trans hz.1)
        rw [if_neg (S.exits_ne_nil last)] at he
        refine ⟨by omega, fun k hk hlt => hplain k (by omega) (by omega), ?_⟩
        rw [hgrown.linked, hempty, he]
        rfl
      · obtain ⟨hb₂, _⟩ := hgrown.frozen i (by omega) hij
        exact absurd (hnew i z hi ⟨hb₂ ▸ hz.1, hz.2⟩) hij

/-- The edge for one exit goes to a block that is there or outside the function, or to a
new block, which is scanned. -/
theorem linkExit_cases (recurse : Nat → ControlFlowGraph → Except Error ControlFlowGraph)
    (hw : g.WellFormed) (hx : g.Internal b x) (hpc : x.start ≤ pc) {e : Nat × BlockType}
    (hout : e.2 ≠ .INTERNAL → e.1 = pc) :
    (∃ g₁ j, ControlFlowAnalysis.linkExit recurse b pc g e = .ok g₁ ∧ Linked b pc j e g g₁ ∧
      ∀ i z, g.blocks.length ≤ i → ¬ g₁.Internal i z) ∨
    (∃ g₁, ControlFlowAnalysis.linkExit recurse b pc g e = recurse g.blocks.length g₁ ∧
      Linked b pc g.blocks.length e g g₁ ∧ e.2 = .INTERNAL ∧
      g.findInternalBlockByPosition e.1 = none ∧
      g₁.Internal g.blocks.length ⟨e.1, e.1, .INTERNAL, false, false, false⟩ ∧
      ∀ i z, g.blocks.length ≤ i → g₁.Internal i z → i = g.blocks.length) := by
  obtain ⟨t, ty⟩ := e
  cases ty with
  | EXTERNAL =>
    obtain rfl : t = pc := hout (by simp)
    exact .inl ⟨_, _, rfl, linked_outside (by simp) hw hx hpc⟩
  | RUNTIME =>
    obtain rfl : t = pc := hout (by simp)
    exact .inl ⟨_, _, rfl, linked_outside (by simp) hw hx hpc⟩
  | INTERNAL =>
    simp only [ControlFlowAnalysis.linkExit, ControlFlowAnalysis.linkInternal]
    cases hfind : g.findInternalBlockByPosition t with
    | some j =>
      obtain ⟨g₁, heq, hlinked, hlen⟩ := linked_existing hw hx hpc hfind
      rw [heq]
      refine .inl ⟨g₁, j, rfl, hlinked, fun i z hi hz => ?_⟩
      have := hz.lt
      omega
    | none =>
      have hstep := Step.link (t := t) hx hpc
      simp only [tryCreateSuccessorInternal, findInternal_setEnd, hfind, blocks_length_setEnd]
        at hstep ⊢
      have hget := fun i => getElem?_new (g := g) b pc ⟨t, t, .INTERNAL, false, false, false⟩ (i := i)
      refine .inr ⟨_, rfl, linked_new hw hx ⟨t, t, .INTERNAL, false, false, false⟩ hstep, trivial,
        trivial, ⟨by rw [hget _ (le_refl _), if_pos rfl], rfl⟩, ?_⟩
      rintro i z hi ⟨hz, _⟩
      rw [hget i hi] at hz
      by_contra hne
      rw [if_neg hne] at hz
      cases hz

/-- The edge for one exit, and the scan of the block it leads to if that is new. -/
theorem linkExit_grown (hrec : Scans S fuel recurse) (hw : g.WellFormed) (hx : g.Internal b x)
    (hpc : x.start ≤ pc) (hfuel : (unused S g).card ≤ fuel) {e : Nat × BlockType}
    (hin : e.2 = .INTERNAL → e.1 < S.length) (hout : e.2 ≠ .INTERNAL → e.1 = pc) :
    ∃ g', ControlFlowAnalysis.linkExit recurse b pc g e = .ok g' ∧ Grown S b pc [e] g g' := by
  rcases linkExit_cases recurse hw hx hpc hout with
    ⟨g₁, j, hok, hlinked, hnew⟩ | ⟨g₁, heq, hlinked, hty, hfind, hy, hnew⟩
  · exact ⟨g₁, hok, hlinked.grown hw hnew⟩
  · have hcard := unused_card_lt hlinked.step.keeps hfind (hin hty) hy rfl
    have hempty := hlinked.succ g.blocks.length
    rw [if_neg (by have := hx.lt; omega), (hw.surplus _ (le_refl _)).1] at hempty
    obtain ⟨g', last, hok, hle, hlast, hplain, hgrown⟩ :=
      hrec _ _ _ (hlinked.step.wellFormed hw) hy (hin hty) hempty (by omega)
    exact ⟨g', heq.trans hok, hlinked.grown_scan hw hx hy hnew hgrown hle hlast hplain⟩

theorem linkExits_grown (hrec : Scans S fuel recurse) (es : List (Nat × BlockType))
    (hw : g.WellFormed) (hx : g.Internal b x)
    (hpc : x.start ≤ pc) (hfuel : (unused S g).card ≤ fuel)
    (hin : ∀ e ∈ es, e.2 = .INTERNAL → e.1 < S.length)
    (hout : ∀ e ∈ es, e.2 ≠ .INTERNAL → e.1 = pc) :
    ∃ g', ControlFlowAnalysis.linkExits recurse b pc g es = .ok g' ∧ Grown S b pc es g g' := by
  induction es generalizing g x with
  | nil => exact ⟨g, rfl, Grown.refl S b pc g⟩
  | cons e es ih =>
    obtain ⟨g₁, hok, hgrown⟩ := linkExit_grown hrec hw hx hpc hfuel
      (hin e List.mem_cons_self) (hout e List.mem_cons_self)
    obtain ⟨y, hy, hs, _⟩ := hgrown.origin x hx
    have hfuel₁ : (unused S g₁).card ≤ fuel :=
      (Finset.card_le_card (unused_subset S hgrown.steps.keeps)).trans hfuel
    obtain ⟨g', hok', hgrown'⟩ := ih (hgrown.wellFormed hw) hy (by omega) hfuel₁
      (fun e he => hin e (List.mem_cons_of_mem _ he))
      (fun e he => hout e (List.mem_cons_of_mem _ he))
    refine ⟨g', ?_, hgrown.trans hgrown' hw hx.lt⟩
    rw [ControlFlowAnalysis.linkExits, List.foldlM_cons, hok]
    exact hok'

end

/-- **With fuel for the start positions left, the scan of a new block returns, and
leaves the block and all blocks it discovers finished.** -/
theorem functionCFABlock_scans {S : Subject} (h : S.Analysable) (fuel : Nat) :
    Scans S fuel (ControlFlowAnalysis.functionCFABlock S fuel) := by
  induction fuel with
  | zero => exact fun b x g _ _ _ _ hfuel => absurd hfuel (Nat.not_lt_zero _)
  | succ fuel ih =>
    intro b x g hw hx hstart _ hfuel
    obtain ⟨last, hle, hlast, hpass, hend⟩ := ControlFlowAnalysis.blockLoop_end
      (ControlFlowAnalysis.functionCFABlock S fuel) b (S.length - x.start) h g hstart (by omega)
    have hcall := ControlFlowAnalysis.functionCFABlock_succ S hx fuel
    have hplain : ∀ k, x.start ≤ k → k < last → isBranch (S.insn k) = false :=
      fun k hk hlt => (hpass k hk hlt).1
    cases hend with
    | branch hbranch hresult =>
      obtain ⟨g', hok, hgrown⟩ := linkExits_grown ih (S.exits last) hw hx hle (by omega)
        (fun e he hty => by
          obtain ⟨t, ty⟩ := e
          obtain rfl : ty = .INTERNAL := hty
          rcases (h.mem_exits_internal hlast).mp he with hjump | hfall
          · exact hjump.2.1
          · exact hfall.2.2)
        (S.exits_outside_eq last)
      rw [hok] at hresult
      exact ⟨_, last, hcall.trans hresult, hle, hlast, hplain,
        hgrown.setFlags hx.lt (ControlFlowAnalysis.keepsRange_branchFlags g')⟩
    | following hbranch hfind hresult =>
      have hexits : S.exits last = [(last + 1, .INTERNAL)] := by
        obtain ⟨hu, hc, hlr, hctr⟩ := not_isBranch hbranch
        simp [Subject.exits, Subject.branchesToAddress, Subject.branchesToRegister,
          Subject.fallsThrough, hbranch, hu, hc, hlr, hctr]
      refine ⟨_, last, hcall.trans hresult, hle, hlast, hplain, ?_⟩
      rw [hexits]
      exact grown_fallthrough hw hx hle hfind

end ControlFlowGraph

/-! ### The result -/

namespace ControlFlowAnalysis
open ControlFlowGraph

/-- The analysis returns, and every block inside the function is finished. -/
theorem functionCFA_finished {S : Subject} (h : S.Analysable) :
    ∃ g, functionCFA S = .ok g ∧ ∀ i x, g.Internal i x → Finished S g i x := by
  have hfuel : (unused S ControlFlowGraph.init).card < S.length + 1 :=
    Nat.lt_succ_of_le ((Finset.card_filter_le _ _).trans (by simp))
  obtain ⟨g, last, hok, hle, hlast, hplain, hgrown⟩ := functionCFABlock_scans h (S.length + 1) 0
    ⟨0, 0, .INTERNAL, false, false, false⟩ _ WellFormed.init ⟨rfl, rfl⟩ h.nonempty rfl hfuel
  refine ⟨g, hok, fun i x hx => ?_⟩
  cases i with
  | succ i => exact hgrown.finished _ x (Nat.succ_le_succ (Nat.zero_le i)) hx
  | zero =>
    obtain ⟨y, hy, hs, he⟩ := hgrown.origin _ ⟨rfl, rfl⟩
    obtain rfl := Option.some.inj (hy.1.symm.trans hx.1)
    rw [if_neg (S.exits_ne_nil last)] at he
    refine ⟨by omega, fun k _ hlt => hplain k (Nat.zero_le k) (by omega), ?_⟩
    rw [hgrown.linked, he]
    rfl

end ControlFlowAnalysis

/-- What the graph of a function should be. -/
structure SoundGraph (S : Subject) (g : ControlFlowGraph) : Prop where
  distinct : ∀ i j x y, g.Internal i x → g.Internal j y → x.start = y.start → i = j
  range : ∀ i x, g.Internal i x → x.start ≤ x.stop ∧ x.stop < S.length ∧
    ∀ k, x.start ≤ k → k < x.stop → isBranch (S.insn k) = false
  edges : ∀ i j, j ∈ g.succ i → ∃ y, g.blocks[j]? = some y
  /-- The internal successors are the blocks at the possible next instructions. -/
  successors : ∀ i x, g.Internal i x → ∀ t,
    (∃ j y, j ∈ g.succ i ∧ g.Internal j y ∧ y.start = t) ↔ S.Next x.stop t
  /-- The external and runtime successors: at most one, and one iff control can leave. -/
  outside : ∀ i x, g.Internal i x →
    (g.succ i).countP (fun j => !g.isInternal j) ≤ 1 ∧
      ((g.succ i).countP (fun j => !g.isInternal j) = 1 ↔ S.Leaves x.stop)
  covers : ∀ k, Relation.ReflTransGen S.Next 0 k → ∃ i x, g.Internal i x ∧ x.start ≤ k ∧ k ≤ x.stop

namespace ControlFlowGraph
variable {S : Subject} {g : ControlFlowGraph} {i : Nat} {x : BasicBlock}

theorem key_internal {j t : Nat} : g.key j = some (t, BlockType.INTERNAL) ↔
    ∃ y, g.Internal j y ∧ y.start = t := by
  unfold key Internal
  cases g.blocks[j]? with
  | none => simp
  | some y =>
    simp only [Option.map_some, Option.some.injEq, Prod.mk.injEq]
    constructor
    · rintro ⟨hs, ht⟩
      exact ⟨y, ⟨rfl, ht⟩, hs⟩
    · rintro ⟨z, ⟨rfl, ht⟩, hs⟩
      exact ⟨hs, ht⟩

theorem Finished.successors (h : Finished S g i x) (hA : S.Analysable) (t : Nat) :
    (∃ j y, j ∈ g.succ i ∧ g.Internal j y ∧ y.start = t) ↔ S.Next x.stop t := by
  rw [← hA.mem_exits_internal h.range.2]
  have hmem : some (t, BlockType.INTERNAL) ∈ (g.succ i).map g.key ↔
      (t, BlockType.INTERNAL) ∈ S.exits x.stop := by
    rw [h.linked, List.mem_map]
    simp
  rw [← hmem, List.mem_map]
  simp only [key_internal]
  constructor
  · rintro ⟨j, y, hj, hy, hs⟩
    exact ⟨j, hj, y, hy, hs⟩
  · rintro ⟨j, hj, y, hy, hs⟩
    exact ⟨j, y, hj, hy, hs⟩

theorem Finished.countP_outside (h : Finished S g i x) :
    (g.succ i).countP (fun j => !g.isInternal j) =
      ((S.exits x.stop).filter (fun e => e.2 != .INTERNAL)).length := by
  have hkey : (fun j => !g.isInternal j) =
      (fun k => (k.map fun e : Nat × BlockType => e.2 != .INTERNAL).getD true) ∘ g.key := by
    funext j
    simp only [isInternal, Function.comp, key]
    cases g.blocks[j]? <;> rfl
  rw [hkey, ← List.countP_map, h.linked, List.countP_map, ← List.countP_eq_length_filter]
  rfl

end ControlFlowGraph

/-- **The graph is sound and covers the function**: on a function that can be
analysed `functionCFA` returns, the internal blocks have distinct starts, ranges
without a branch before the end, and as successors exactly where control can go, and
every instruction control can come to lies in one of them. -/
theorem functionCFA_sound (S : Subject) (h : S.Analysable) :
    ∃ g, ControlFlowAnalysis.functionCFA S = .ok g ∧ SoundGraph S g := by
  obtain ⟨g, hok, hfin⟩ := ControlFlowAnalysis.functionCFA_finished h
  have hw := ControlFlowAnalysis.functionCFA_wellFormed S hok
  refine ⟨g, hok, hw.unique, ?_, ?_, ?_, ?_, ?_⟩
  · intro i x hx
    have hx' := hfin i x hx
    exact ⟨hx'.range.1, hx'.range.2, hx'.plain⟩
  · intro i j hj
    exact ⟨_, List.getElem?_eq_getElem (hw.valid i j hj)⟩
  · intro i x hx
    exact (hfin i x hx).successors h
  · intro i x hx
    have hx' := hfin i x hx
    rw [hx'.countP_outside]
    exact h.exits_outside hx'.range.2
  · intro k hk
    induction hk with
    | refl =>
      obtain ⟨x, hx, hs⟩ := hw.entry
      exact ⟨0, x, hx, by omega, by omega⟩
    | @tail k t _ hnext ih =>
      obtain ⟨i, x, hx, hle, hge⟩ := ih
      have hx' := hfin i x hx
      by_cases hk : k = x.stop
      · obtain ⟨j, y, _, hy, hs⟩ := (hx'.successors h t).mpr (hk ▸ hnext)
        exact ⟨j, y, hy, by omega, by have := hw.ordered j y hy; omega⟩
      · -- inside the block only the instruction after comes next
        have hplain := hx'.plain k hle (by omega)
        rcases hnext with hjump | ⟨_, rfl, _⟩
        · obtain ⟨hu, hc, _⟩ := not_isBranch hplain
          simp [Subject.JumpsTo, Subject.branchesToAddress, hu, hc] at hjump
        · exact ⟨i, x, hx, by omega, by omega⟩

/-- `li r3,1; li r4,1; beq` to the second instruction; `blr`. -/
def backEdge : Subject :=
  assembledSubject [0x38600001, 0x38800001, 0x4182fffc, 0x4e800020] 4 (by decide)

theorem backEdge_analysable : backEdge.Analysable :=
  assembledSubject_analysable (by decide) (by decide) (by decide +kernel) (by decide +kernel)

theorem functionCFA_sound_backEdge :
    ∃ g, ControlFlowAnalysis.functionCFA backEdge = .ok g ∧ SoundGraph backEdge g :=
  functionCFA_sound backEdge backEdge_analysable

end Ppc2cpp
