import Ppc2cpp.ControlFlow.Analysis

/-! What holds of the graph at every point of `functionCFA`.

Whatever the code under analysis is, the recursion only ever applies four
operations to the graph and sets flags (`Step`), always with an internal block as
the origin. `functionCFA_steps` says so once; an invariant is then a property of the
initial graph that each operation preserves. `WellFormed` is the one the data-flow
analysis relies on: the predecessor and successor tables are transposes, every edge
ends in a block, blocks outside the function have no successor, and every internal
block but the entry has an earlier internal predecessor. -/
namespace Ppc2cpp
namespace ControlFlowGraph

/-- The block `i` lies inside the function. -/
def Internal (g : ControlFlowGraph) (i : Nat) (x : BasicBlock) : Prop :=
  g.blocks[i]? = some x ∧ x.blockType = .INTERNAL

/-- Flags are set, the range and the type of the block stay. -/
def KeepsRange (f : BasicBlock → BasicBlock) : Prop :=
  ∀ b, (f b).start = b.start ∧ (f b).stop = b.stop ∧ (f b).blockType = b.blockType

structure WellFormed (g : ControlFlowGraph) : Prop where
  entry : ∃ x, g.Internal 0 x ∧ x.start = 0
  room : g.blocks.length ≤ g.psTable.length
  surplus : ∀ i, g.blocks.length ≤ i → g.succ i = [] ∧ g.pred i = []
  valid : ∀ i j, j ∈ g.succ i → j < g.blocks.length
  transpose : ∀ i j, (g.succ i).count j = (g.pred j).count i
  outside : ∀ i x, g.blocks[i]? = some x → x.blockType ≠ .INTERNAL →
    x.start = x.stop ∧ g.succ i = [] ∧ ∃ o, o < i ∧ g.pred i = [o]
  ordered : ∀ i x, g.Internal i x → x.start ≤ x.stop
  unique : ∀ i j x y, g.Internal i x → g.Internal j y → x.start = y.start → i = j
  rooted : ∀ i x, g.Internal i x → i ≠ 0 → ∃ j, j < i ∧ g.isInternal j = true ∧ i ∈ g.succ j

/-- One operation on the graph. -/
inductive Step (g : ControlFlowGraph) : ControlFlowGraph → Prop where
  | link {o pc t : Nat} {x : BasicBlock} : g.Internal o x → x.start ≤ pc →
      Step g (g.tryCreateSuccessorInternal o pc t).1
  | outside {ty : BlockType} {o pc : Nat} {x : BasicBlock} : ty ≠ .INTERNAL → g.Internal o x →
      x.start ≤ pc → Step g (createSuccessorOutside ty g o pc)
  | fallthrough {o pc j : Nat} {x y : BasicBlock} : g.Internal o x → x.start ≤ pc →
      g.Internal j y → Step g (g.createSuccessorFallthrough o pc j)
  | flags {o : Nat} {f : BasicBlock → BasicBlock} : KeepsRange f → Step g (g.setFlags o f)

abbrev Steps : ControlFlowGraph → ControlFlowGraph → Prop := Relation.ReflTransGen Step

/-! ### Blocks keep their start and their type -/

/-- Every block of `g` is a block of `g'` with the same start and the same type. -/
def Keeps (g g' : ControlFlowGraph) : Prop :=
  ∀ (i : Nat) (x : BasicBlock), g.blocks[i]? = some x →
    ∃ y : BasicBlock, g'.blocks[i]? = some y ∧ y.start = x.start ∧ y.blockType = x.blockType

theorem Keeps.refl (g : ControlFlowGraph) : Keeps g g := fun _ x h => ⟨x, h, rfl, rfl⟩

theorem Keeps.trans {g g' g'' : ControlFlowGraph} (h : Keeps g g') (h' : Keeps g' g'') :
    Keeps g g'' := by
  intro i x hx
  obtain ⟨y, hy, hs, ht⟩ := h i x hx
  obtain ⟨z, hz, hs', ht'⟩ := h' i y hy
  exact ⟨z, hz, hs'.trans hs, ht'.trans ht⟩

theorem Keeps.internal {g g' : ControlFlowGraph} (h : Keeps g g') {i : Nat} {x : BasicBlock}
    (hx : g.Internal i x) : ∃ y, g'.Internal i y ∧ y.start = x.start := by
  obtain ⟨y, hy, hs, ht⟩ := h i x hx.1
  exact ⟨y, ⟨hy, ht.trans hx.2⟩, hs⟩

theorem keeps_setEnd (g : ControlFlowGraph) (b pos : Nat) : Keeps g (g.setEnd b pos) := by
  intro i x hx
  rw [getElem?_setEnd, hx]
  by_cases hb : b = i <;> simp [hb]

theorem keeps_pushBlock (g : ControlFlowGraph) (b : BasicBlock) : Keeps g (g.pushBlock b) := by
  intro i x hx
  have hlt : i < g.blocks.length := (List.getElem?_eq_some_iff.mp hx).1
  rw [getElem?_pushBlock, if_neg (by omega)]
  exact ⟨x, hx, rfl, rfl⟩

theorem keeps_setFlags (g : ControlFlowGraph) (b : Nat) {f : BasicBlock → BasicBlock}
    (hf : KeepsRange f) : Keeps g (g.setFlags b f) := by
  intro i x hx
  rw [getElem?_setFlags, hx]
  by_cases hb : b = i
  · exact ⟨f x, by simp [hb], (hf x).1, (hf x).2.2⟩
  · exact ⟨x, by simp [hb], rfl, rfl⟩

theorem Step.keeps {g g' : ControlFlowGraph} (h : Step g g') : Keeps g g' := by
  cases h with
  | @link o pc t x _ _ =>
    simp only [tryCreateSuccessorInternal]
    split
    · exact keeps_setEnd g o pc
    · exact (keeps_setEnd g o pc).trans (keeps_pushBlock _ _)
  | @outside ty o pc x _ _ _ => exact (keeps_setEnd g o pc).trans (keeps_pushBlock _ _)
  | @fallthrough o pc j x y _ _ _ => exact keeps_setEnd g o pc
  | flags hf => exact keeps_setFlags g _ hf

theorem Steps.keeps {g g' : ControlFlowGraph} (h : Steps g g') : Keeps g g' := by
  induction h with
  | refl => exact Keeps.refl g
  | tail _ hs ih => exact ih.trans hs.keeps

/-! ### Each update preserves well-formedness -/

theorem Internal.lt {g : ControlFlowGraph} {i : Nat} {x : BasicBlock} (h : g.Internal i x) :
    i < g.blocks.length := (List.getElem?_eq_some_iff.mp h.1).1

theorem Internal.isInternal {g : ControlFlowGraph} {i : Nat} {x : BasicBlock}
    (h : g.Internal i x) : g.isInternal i = true := (g.isInternal_iff i).mpr ⟨x, h⟩

theorem internal_setEnd {g : ControlFlowGraph} {b pos i : Nat} {x : BasicBlock} :
    (g.setEnd b pos).Internal i x ↔
      ∃ y, g.Internal i y ∧ x = if b = i then {y with stop := pos} else y := by
  unfold Internal
  rw [getElem?_setEnd]
  cases h : g.blocks[i]? with
  | none => simp
  | some y =>
    by_cases hb : b = i
    · simp only [hb, if_true, Option.map_some, Option.some.injEq]
      constructor
      · rintro ⟨rfl, ht⟩
        exact ⟨y, ⟨rfl, ht⟩, rfl⟩
      · rintro ⟨z, ⟨rfl, ht⟩, rfl⟩
        exact ⟨rfl, ht⟩
    · simp only [hb, if_false, Option.map_some, Option.some.injEq]
      constructor
      · rintro ⟨rfl, ht⟩
        exact ⟨y, ⟨rfl, ht⟩, rfl⟩
      · rintro ⟨z, ⟨rfl, ht⟩, rfl⟩
        exact ⟨rfl, ht⟩

theorem isInternal_setEnd (g : ControlFlowGraph) (b pos i : Nat) :
    (g.setEnd b pos).isInternal i = g.isInternal i := by
  unfold isInternal
  rw [getElem?_setEnd]
  cases h : g.blocks[i]? with
  | none => rfl
  | some y => by_cases hb : b = i <;> simp [hb]

theorem WellFormed.setEnd {g : ControlFlowGraph} (h : g.WellFormed) {b pos : Nat}
    {x : BasicBlock} (hb : g.Internal b x) (hpos : x.start ≤ pos) :
    (g.setEnd b pos).WellFormed where
  entry := by
    obtain ⟨x, hx, hs⟩ := h.entry
    refine ⟨_, internal_setEnd.mpr ⟨x, hx, rfl⟩, ?_⟩
    split <;> exact hs
  room := by simpa using h.room
  surplus := by simpa using h.surplus
  valid := by simpa using h.valid
  transpose := h.transpose
  outside := by
    intro i z hz ht
    rw [getElem?_setEnd] at hz
    obtain ⟨y, hy, rfl⟩ := Option.map_eq_some_iff.mp hz
    by_cases hi : b = i
    · subst hi
      obtain rfl := Option.some.inj (hb.1.symm.trans hy)
      simp [hb.2] at ht
    · simp only [hi, if_false] at ht ⊢
      exact h.outside i y hy ht
  ordered := by
    intro i z hz
    obtain ⟨y, hy, rfl⟩ := internal_setEnd.mp hz
    by_cases hi : b = i
    · subst hi
      obtain rfl := Option.some.inj (hb.1.symm.trans hy.1)
      simpa using hpos
    · simpa [hi] using h.ordered i y hy
  unique := by
    intro i j x y hx hy he
    obtain ⟨x', hx', rfl⟩ := internal_setEnd.mp hx
    obtain ⟨y', hy', rfl⟩ := internal_setEnd.mp hy
    refine h.unique i j x' y' hx' hy' ?_
    have hstart : ∀ (k : Nat) (z : BasicBlock),
        (if b = k then {z with stop := pos} else z).start = z.start := by
      intro k z
      split <;> rfl
    rwa [hstart, hstart] at he
  rooted := by
    intro i x hx hne
    obtain ⟨y, hy, rfl⟩ := internal_setEnd.mp hx
    obtain ⟨j, hj, hint, hs⟩ := h.rooted i y hy hne
    exact ⟨j, hj, by rwa [isInternal_setEnd], hs⟩

theorem WellFormed.pushEntry {g : ControlFlowGraph} (h : g.WellFormed) : g.pushEntry.WellFormed where
  entry := h.entry
  room := by
    have := h.room
    simp only [blocks_pushEntry, psTable_length_pushEntry]
    omega
  surplus := by simpa using h.surplus
  valid := by simpa using h.valid
  transpose := by simpa using h.transpose
  outside := by simpa using h.outside
  ordered := h.ordered
  unique := h.unique
  rooted := by
    intro i x hx hne
    obtain ⟨j, hj, hint, hs⟩ := h.rooted i x hx hne
    exact ⟨j, hj, hint, by simpa using hs⟩

theorem count_append_singleton (xs : List Nat) (a b : Nat) :
    (xs ++ [a]).count b = xs.count b + if a = b then 1 else 0 := by
  rw [List.count_append, List.count_singleton]
  simp only [beq_iff_eq]

/-- An edge between two internal blocks. -/
theorem WellFormed.addEdge {g : ControlFlowGraph} (h : g.WellFormed) {o t : Nat}
    {x y : BasicBlock} (ho : g.Internal o x) (ht : g.Internal t y) : (g.addEdge o t).WellFormed := by
  have holt : o < g.psTable.length := lt_of_lt_of_le ho.lt h.room
  have htlt : t < g.psTable.length := lt_of_lt_of_le ht.lt h.room
  refine ⟨h.entry, by simpa using h.room, ?_, ?_, ?_, ?_, h.ordered, h.unique, ?_⟩
  · intro i hi
    have hoi : o ≠ i := by have := ho.lt; simp only [blocks_addEdge] at hi; omega
    have hti : t ≠ i := by have := ht.lt; simp only [blocks_addEdge] at hi; omega
    rw [succ_addEdge _ _ _ _ holt, pred_addEdge _ _ _ _ htlt, if_neg hoi, if_neg hti]
    exact h.surplus i hi
  · intro i j hj
    rw [succ_addEdge _ _ _ _ holt] at hj
    split at hj
    · rcases List.mem_append.mp hj with hj | hj
      · exact h.valid i j hj
      · rw [List.mem_singleton.mp hj]
        exact ht.lt
    · exact h.valid i j hj
  · intro i j
    rw [succ_addEdge _ _ _ _ holt, pred_addEdge _ _ _ _ htlt]
    have := h.transpose i j
    by_cases hi : o = i <;> by_cases hj : t = j <;>
      simp only [hi, hj, if_true, if_false, count_append_singleton, this, add_zero]
  · intro i z hz hout
    have hoi : o ≠ i := by
      rintro rfl
      rw [blocks_addEdge, ho.1] at hz
      obtain rfl := Option.some.inj hz
      exact hout ho.2
    have hti : t ≠ i := by
      rintro rfl
      rw [blocks_addEdge, ht.1] at hz
      obtain rfl := Option.some.inj hz
      exact hout ht.2
    rw [succ_addEdge _ _ _ _ holt, pred_addEdge _ _ _ _ htlt, if_neg hoi, if_neg hti]
    exact h.outside i z hz hout
  · intro i z hz hne
    obtain ⟨j, hj, hint, hs⟩ := h.rooted i z hz hne
    refine ⟨j, hj, hint, ?_⟩
    rw [succ_addEdge _ _ _ _ holt]
    split
    · exact List.mem_append_left _ hs
    · exact hs

/-- A new block with the edge that leads to it. -/
abbrev withBlock (g : ControlFlowGraph) (o : Nat) (b : BasicBlock) : ControlFlowGraph :=
  (g.pushBlock b).pushEntry.addEdge o g.blocks.length

section
variable {g : ControlFlowGraph} {o : Nat} {x b : BasicBlock}

theorem getElem?_withBlock (i : Nat) : (g.withBlock o b).blocks[i]? =
    if i = g.blocks.length then some b else g.blocks[i]? := getElem?_pushBlock g b i

theorem length_withBlock : (g.withBlock o b).blocks.length = g.blocks.length + 1 := by
  simp only [blocks_addEdge, blocks_pushEntry, blocks_length_pushBlock]

theorem WellFormed.succ_withBlock (h : g.WellFormed) (ho : o < g.blocks.length) (i : Nat) :
    (g.withBlock o b).succ i = if o = i then g.succ i ++ [g.blocks.length] else g.succ i := by
  have hroom := h.room
  rw [succ_addEdge]
  · simp only [succ_pushEntry, succ_pushBlock]
  · simp only [psTable_length_pushEntry, psTable_pushBlock]
    omega

theorem WellFormed.pred_withBlock (h : g.WellFormed) (i : Nat) :
    (g.withBlock o b).pred i = if g.blocks.length = i then g.pred i ++ [o] else g.pred i := by
  have hroom := h.room
  rw [pred_addEdge]
  · simp only [pred_pushEntry, pred_pushBlock]
  · simp only [psTable_length_pushEntry, psTable_pushBlock]
    omega

theorem internal_withBlock {i : Nat} {y : BasicBlock} : (g.withBlock o b).Internal i y ↔
    (i = g.blocks.length ∧ y = b ∧ b.blockType = .INTERNAL) ∨ g.Internal i y := by
  rw [Internal, getElem?_withBlock]
  constructor
  · rintro ⟨hy, ht⟩
    split at hy
    · obtain rfl := Option.some.inj hy
      exact .inl ⟨‹_›, rfl, ht⟩
    · exact .inr ⟨hy, ht⟩
  · rintro (⟨rfl, rfl, ht⟩ | hy)
    · exact ⟨if_pos rfl, ht⟩
    · rw [if_neg (Nat.ne_of_lt hy.lt)]
      exact hy

theorem Internal.withBlock {i : Nat} {y : BasicBlock} (hy : g.Internal i y) :
    (g.withBlock o b).Internal i y := internal_withBlock.mpr (.inr hy)

/-- A new block at a position where none starts, or outside the function. -/
theorem WellFormed.newBlock (h : g.WellFormed) (ho : g.Internal o x) (hord : b.start ≤ b.stop)
    (hnew : b.blockType = .INTERNAL → ∀ i y, g.Internal i y → y.start ≠ b.start)
    (hout : b.blockType ≠ .INTERNAL → b.start = b.stop) : (g.withBlock o b).WellFormed where
  entry := by
    obtain ⟨y, hy, hs⟩ := h.entry
    exact ⟨y, hy.withBlock, hs⟩
  room := by
    have hroom := h.room
    rw [length_withBlock, psTable_length_addEdge, psTable_length_pushEntry, psTable_pushBlock]
    omega
  surplus := by
    intro i hi
    rw [length_withBlock] at hi
    have := ho.lt
    rw [h.succ_withBlock ho.lt, h.pred_withBlock, if_neg (by omega), if_neg (by omega)]
    exact h.surplus i (by omega)
  valid := by
    intro i j hj
    rw [h.succ_withBlock ho.lt] at hj
    rw [length_withBlock]
    have hvalid := h.valid i j
    split at hj
    · rcases List.mem_append.mp hj with hj | hj
      · exact Nat.lt_succ_of_lt (hvalid hj)
      · rw [List.mem_singleton.mp hj]
        exact Nat.lt_succ_self _
    · exact Nat.lt_succ_of_lt (hvalid hj)
  transpose := by
    intro i j
    rw [h.succ_withBlock ho.lt, h.pred_withBlock]
    have := h.transpose i j
    by_cases hi : o = i <;> by_cases hj : g.blocks.length = j <;>
      simp only [hi, hj, if_true, if_false, count_append_singleton, this, add_zero]
  outside := by
    intro i y hy hty
    rw [getElem?_withBlock] at hy
    rw [h.succ_withBlock ho.lt, h.pred_withBlock]
    have hlt := ho.lt
    split at hy
    · rename_i hi
      subst hi
      obtain rfl := Option.some.inj hy
      obtain ⟨hs, hp⟩ := h.surplus g.blocks.length (le_refl _)
      rw [if_neg (by omega), if_pos rfl, hs, hp]
      exact ⟨hout hty, rfl, o, hlt, rfl⟩
    · rename_i hi
      have hoi : o ≠ i := by
        rintro rfl
        rw [ho.1] at hy
        obtain rfl := Option.some.inj hy
        exact hty ho.2
      rw [if_neg hoi, if_neg (by omega)]
      exact h.outside i y hy hty
  ordered := by
    intro i y hy
    rcases internal_withBlock.mp hy with ⟨_, rfl, _⟩ | hy
    · exact hord
    · exact h.ordered i y hy
  unique := by
    intro i j y z hy hz he
    rcases internal_withBlock.mp hy with ⟨hi, hyb, ht⟩ | hy'
    · rcases internal_withBlock.mp hz with ⟨hj, _, _⟩ | hz'
      · exact hi.trans hj.symm
      · exact absurd (he.symm.trans (by rw [hyb])) (hnew ht j z hz')
    · rcases internal_withBlock.mp hz with ⟨_, hzb, ht⟩ | hz'
      · exact absurd (he.trans (by rw [hzb])) (hnew ht i y hy')
      · exact h.unique i j y z hy' hz' he
  rooted := by
    intro i y hy hne
    rcases internal_withBlock.mp hy with ⟨hi, _, _⟩ | hy
    · subst hi
      refine ⟨o, ho.lt, ho.withBlock.isInternal, ?_⟩
      rw [h.succ_withBlock ho.lt, if_pos rfl]
      exact List.mem_append_right _ (List.mem_singleton.mpr rfl)
    · obtain ⟨j, hj, hint, hs⟩ := h.rooted i y hy hne
      obtain ⟨z, hz⟩ := (g.isInternal_iff j).mp hint
      refine ⟨j, hj, (Internal.withBlock hz).isInternal, ?_⟩
      rw [h.succ_withBlock ho.lt]
      split
      · exact List.mem_append_left _ hs
      · exact hs

end

theorem WellFormed.setFlags {g : ControlFlowGraph} (h : g.WellFormed) (b : Nat)
    {f : BasicBlock → BasicBlock} (hf : KeepsRange f) : (g.setFlags b f).WellFormed := by
  have hback : ∀ (i : Nat) (x : BasicBlock), (g.setFlags b f).blocks[i]? = some x →
      ∃ y : BasicBlock, g.blocks[i]? = some y ∧ x.start = y.start ∧ x.stop = y.stop ∧
        x.blockType = y.blockType := by
    intro i x hx
    rw [getElem?_setFlags] at hx
    obtain ⟨y, hy, rfl⟩ := Option.map_eq_some_iff.mp hx
    refine ⟨y, hy, ?_⟩
    by_cases hb : b = i
    · simpa [hb] using hf y
    · simp [hb]
  have hinternal : ∀ i x, (g.setFlags b f).Internal i x →
      ∃ y, g.Internal i y ∧ x.start = y.start ∧ x.stop = y.stop := by
    rintro i x ⟨hx, ht⟩
    obtain ⟨y, hy, hs, he, hty⟩ := hback i x hx
    exact ⟨y, ⟨hy, hty ▸ ht⟩, hs, he⟩
  have hkeeps := keeps_setFlags g b hf
  refine ⟨?_, by simpa using h.room, by simpa using h.surplus, by simpa using h.valid, h.transpose,
    ?_, ?_, ?_, ?_⟩
  · obtain ⟨x, hx, hs⟩ := h.entry
    obtain ⟨y, hy, hsy⟩ := hkeeps.internal hx
    exact ⟨y, hy, hsy.trans hs⟩
  · intro i x hx hout
    obtain ⟨y, hy, hs, he, ht⟩ := hback i x hx
    obtain ⟨hrange, hedges⟩ := h.outside i y hy (ht ▸ hout)
    exact ⟨hs.trans (hrange.trans he.symm), hedges⟩
  · intro i x hx
    obtain ⟨y, hy, hs, he⟩ := hinternal i x hx
    rw [hs, he]
    exact h.ordered i y hy
  · intro i j x y hx hy he
    obtain ⟨x', hx', hs, _⟩ := hinternal i x hx
    obtain ⟨y', hy', hs', _⟩ := hinternal j y hy
    exact h.unique i j x' y' hx' hy' (by rw [← hs, ← hs', he])
  · intro i x hx hne
    obtain ⟨y, hy, _, _⟩ := hinternal i x hx
    obtain ⟨j, hj, hint, hs⟩ := h.rooted i y hy hne
    obtain ⟨z, hz⟩ := (g.isInternal_iff j).mp hint
    obtain ⟨w, hw, _⟩ := hkeeps.internal hz
    exact ⟨j, hj, hw.isInternal, hs⟩

/-! ### Every operation preserves well-formedness -/

theorem WellFormed.init : ControlFlowGraph.init.WellFormed := by
  have hget : ∀ (i : Nat) (x : BasicBlock), ControlFlowGraph.init.blocks[i]? = some x →
      i = 0 ∧ x = ⟨0, 0, .INTERNAL, false, false, false⟩ := by
    intro i x hx
    cases i with
    | zero => exact ⟨rfl, (Option.some.inj hx).symm⟩
    | succ i => simp [ControlFlowGraph.init] at hx
  have hsucc : ∀ i, ControlFlowGraph.init.succ i = [] := by
    rintro (_ | i) <;> rfl
  have hpred : ∀ i, ControlFlowGraph.init.pred i = [] := by
    rintro (_ | i) <;> rfl
  refine ⟨⟨_, ⟨rfl, rfl⟩, rfl⟩, le_refl _, fun i _ => ⟨hsucc i, hpred i⟩, ?_, ?_, ?_, ?_, ?_, ?_⟩
  · intro i j hj
    simp [hsucc] at hj
  · intro i j
    simp [hsucc, hpred]
  · intro i x hx hout
    exact absurd (by rw [(hget i x hx).2]) hout
  · intro i x hx
    rw [(hget i x hx.1).2]
  · intro i j x y hx hy _
    rw [(hget i x hx.1).1, (hget j y hy.1).1]
  · intro i x hx hne
    exact absurd (hget i x hx.1).1 hne

theorem Internal.setEnd {g : ControlFlowGraph} {i : Nat} {x : BasicBlock} (h : g.Internal i x)
    (b pos : Nat) : ∃ y, (g.setEnd b pos).Internal i y ∧ y.start = x.start :=
  (keeps_setEnd g b pos).internal h

theorem Step.wellFormed {g g' : ControlFlowGraph} (hstep : Step g g') (h : g.WellFormed) :
    g'.WellFormed := by
  cases hstep with
  | @link o pc t x hx hpc =>
    obtain ⟨x', hx', _⟩ := hx.setEnd o pc
    simp only [tryCreateSuccessorInternal]
    split
    · rename_i j hj
      obtain ⟨y, hy, _, ht⟩ := findInternal_some _ hj
      exact (h.setEnd hx hpc).pushEntry.addEdge hx' ⟨hy, ht⟩
    · rename_i hnone
      exact (h.setEnd hx hpc).newBlock hx' (le_refl _)
        (fun _ i y hy => findInternal_none _ hnone hy.1 hy.2) fun ht => absurd rfl ht
  | @outside ty o pc x hty hx hpc =>
    obtain ⟨x', hx', _⟩ := hx.setEnd o pc
    exact (h.setEnd hx hpc).newBlock hx' (le_refl _) (fun ht => absurd ht hty) fun _ => rfl
  | @fallthrough o pc j x y hx hpc hy =>
    obtain ⟨x', hx', _⟩ := hx.setEnd o pc
    obtain ⟨y', hy', _⟩ := hy.setEnd o pc
    exact (h.setEnd hx hpc).addEdge hx' hy'
  | flags hf => exact h.setFlags _ hf

theorem Steps.wellFormed {g g' : ControlFlowGraph} (h : Steps g g') (hw : g.WellFormed) :
    g'.WellFormed := by
  induction h with
  | refl => exact hw
  | tail _ hs ih => exact hs.wellFormed ih

end ControlFlowGraph

/-! ### The recursion only takes these steps -/

namespace ControlFlowAnalysis
open ControlFlowGraph
variable (S : Subject)

/-- A recursive call only takes steps, if the block it is given is internal. -/
def TakesSteps (recurse : Nat → ControlFlowGraph → Except Error ControlFlowGraph) : Prop :=
  ∀ (b : Nat) (g g' : ControlFlowGraph), recurse b g = .ok g' → g.isInternal b = true → Steps g g'

section
variable {S} {recurse : Nat → ControlFlowGraph → Except Error ControlFlowGraph}
  {b pc : Nat} {g g' : ControlFlowGraph} {x : BasicBlock}

/-- The block that is created is internal. -/
theorem isInternal_of_tryCreate {t newBlock : Nat}
    (h : g.tryCreateSuccessorInternal b pc t = (g', some newBlock)) :
    g'.isInternal newBlock = true := by
  simp only [tryCreateSuccessorInternal] at h
  split at h
  · cases h
  · cases h
    rw [isInternal_iff]
    exact ⟨_, by rw [blocks_addEdge, blocks_pushEntry, getElem?_pushBlock, if_pos rfl], rfl⟩

theorem linkInternal_steps (hrec : TakesSteps recurse) {t : Nat}
    (h : linkInternal recurse b pc t g = .ok g') (hx : g.Internal b x) (hpc : x.start ≤ pc) :
    Steps g g' := by
  have hlink := Step.link (t := t) hx hpc
  unfold linkInternal at h
  split at h
  · rename_i g₁ newBlock heq
    have hg₁ : g₁ = (g.tryCreateSuccessorInternal b pc t).1 := by rw [heq]
    exact .head (hg₁ ▸ hlink) (hrec _ _ _ h (isInternal_of_tryCreate heq))
  · rename_i g₁ heq
    have hg₁ : g₁ = (g.tryCreateSuccessorInternal b pc t).1 := by rw [heq]
    cases h
    exact .single (hg₁ ▸ hlink)

theorem handleBranch_steps (hrec : TakesSteps recurse)
    (h : handleBranch S recurse b pc g = .ok g') (hx : g.Internal b x) (hpc : x.start ≤ pc) :
    Steps g g' := by
  obtain ⟨target?, _, h⟩ := bind_eq_ok.mp h
  obtain ⟨target, _, h⟩ := bind_eq_ok.mp h
  split at h
  · exact linkInternal_steps hrec h hx hpc
  · cases h
    exact .single (.outside (by decide) hx hpc)

theorem linkNext_steps (hrec : TakesSteps recurse) (h : linkNext S recurse b pc g = .ok g')
    (hx : g.Internal b x) (hpc : x.start ≤ pc) : Steps g g' := by
  unfold linkNext at h
  split at h
  · cases h
  · exact linkInternal_steps hrec h hx hpc

/-- The origin block is still there, with its start, after some steps. -/
theorem linkNext_steps_of_steps (hrec : TakesSteps recurse) {g₀ : ControlFlowGraph}
    (hsteps : Steps g₀ g) (h : linkNext S recurse b pc g = .ok g') (hx : g₀.Internal b x)
    (hpc : x.start ≤ pc) : Steps g₀ g' := by
  obtain ⟨y, hy, hs⟩ := hsteps.keeps.internal hx
  exact hsteps.trans (linkNext_steps hrec h hy (by omega))

theorem setFlags_steps (b : Nat) {f : BasicBlock → BasicBlock} (hf : KeepsRange f)
    (h : Steps g g') : Steps g (g'.setFlags b f) := h.tail (.flags hf)

/-- A flag set on a block at the end, or nothing. -/
theorem flagIf_steps {c : Prop} [Decidable c] {f : BasicBlock → BasicBlock} {g₀ : ControlFlowGraph}
    (hsteps : Steps g₀ g)
    (h : (if c then pure (g.setFlags b f) else pure g : Except Error ControlFlowGraph) = .ok g')
    (hf : KeepsRange f) : Steps g₀ g' := by
  split at h
  · cases h
    exact setFlags_steps b hf hsteps
  · cases h
    exact hsteps

/-- The edge to the instruction that follows, and a flag set if the branch links. -/
theorem linkNext_flagIf_steps (hrec : TakesSteps recurse) {g₀ : ControlFlowGraph}
    (hsteps : Steps g₀ g) {c : Prop} [Decidable c] {f : BasicBlock → BasicBlock}
    (h : (linkNext S recurse b pc g >>= fun g₁ => pure (if c then g₁.setFlags b f else g₁)) =
      .ok g') (hx : g₀.Internal b x) (hpc : x.start ≤ pc) (hf : KeepsRange f) :
    Steps g₀ g' := by
  obtain ⟨g₁, hnext, h⟩ := bind_eq_ok.mp h
  have hsteps' := linkNext_steps_of_steps hrec hsteps hnext hx hpc
  cases h
  split
  · exact setFlags_steps b hf hsteps'
  · exact hsteps'

theorem endUnconditional_steps (hrec : TakesSteps recurse)
    (h : endUnconditional S recurse b pc g = .ok g') (hx : g.Internal b x) (hpc : x.start ≤ pc) :
    Steps g g' := by
  obtain ⟨g₁, hbranch, h⟩ := bind_eq_ok.mp h
  have hsteps := handleBranch_steps hrec hbranch hx hpc
  split at h
  · obtain ⟨g₂, hnext, h⟩ := bind_eq_ok.mp h
    cases h
    exact setFlags_steps b (fun _ => ⟨rfl, rfl, rfl⟩)
      (linkNext_steps_of_steps hrec hsteps hnext hx hpc)
  · exact flagIf_steps hsteps h fun _ => ⟨rfl, rfl, rfl⟩

theorem endConditional_steps (hrec : TakesSteps recurse)
    (h : endConditional S recurse b pc g = .ok g') (hx : g.Internal b x) (hpc : x.start ≤ pc) :
    Steps g g' := by
  obtain ⟨g₁, hbranch, h⟩ := bind_eq_ok.mp h
  have hsteps := handleBranch_steps hrec hbranch hx hpc
  split at h
  · exact linkNext_flagIf_steps hrec hsteps h hx hpc fun _ => ⟨rfl, rfl, rfl⟩
  · exact flagIf_steps hsteps h fun _ => ⟨rfl, rfl, rfl⟩

theorem endRegister_steps (hrec : TakesSteps recurse)
    (h : endRegister S recurse b pc g = .ok g') (hx : g.Internal b x) (hpc : x.start ≤ pc) :
    Steps g g' := by
  have hsteps : Steps g (g.createSuccessorRuntime b pc) := .single (.outside (by decide) hx hpc)
  unfold endRegister at h
  dsimp only at h
  split at h
  · exact linkNext_flagIf_steps hrec hsteps h hx hpc fun _ => ⟨rfl, rfl, rfl⟩
  · split at h
    · cases h
      exact setFlags_steps b (fun _ => ⟨rfl, rfl, rfl⟩) hsteps
    · exact flagIf_steps hsteps h fun _ => ⟨rfl, rfl, rfl⟩

theorem blockLoop_steps (hrec : TakesSteps recurse) {remaining : Nat}
    (h : blockLoop S recurse b remaining pc g = .ok g') (hx : g.Internal b x)
    (hpc : x.start ≤ pc) : Steps g g' := by
  induction remaining generalizing pc with
  | zero =>
    cases h
    exact .refl
  | succ remaining ih =>
    rw [blockLoop] at h
    split at h
    · exact endUnconditional_steps hrec h hx hpc
    · split at h
      · exact endConditional_steps hrec h hx hpc
      · split at h
        · exact endRegister_steps hrec h hx hpc
        · split at h
          · rename_i following hfollow
            obtain ⟨y, hy, _, ht⟩ := findInternal_some _ hfollow
            split at h
            · cases h
              exact .single (.fallthrough hx hpc ⟨hy, ht⟩)
            · exact ih h (by omega)
          · exact ih h (by omega)

end

/-- The analysis of a block that is there. -/
theorem functionCFABlock_succ {g : ControlFlowGraph} {b : Nat} {x : BasicBlock}
    (hx : g.Internal b x) (fuel : Nat) : functionCFABlock S (fuel + 1) b g =
      blockLoop S (functionCFABlock S fuel) b (S.length - x.start) x.start g := by
  rw [functionCFABlock, at?_eq_ok.mpr hx.1]
  rfl

theorem functionCFABlock_steps (fuel : Nat) : TakesSteps (functionCFABlock S fuel) := by
  induction fuel with
  | zero =>
    intro b g g' h _
    cases h
  | succ fuel ih =>
    intro b g g' h hb
    obtain ⟨x, hx⟩ := (isInternal_iff g b).mp hb
    rw [functionCFABlock_succ S hx] at h
    exact blockLoop_steps ih h hx (le_refl _)

theorem functionCFA_steps {g : ControlFlowGraph} (h : functionCFA S = .ok g) :
    Steps ControlFlowGraph.init g :=
  functionCFABlock_steps S _ 0 _ _ h rfl

/-- **The graph of a function is well formed**, whatever the function is. -/
theorem functionCFA_wellFormed {g : ControlFlowGraph} (h : functionCFA S = .ok g) :
    g.WellFormed := (functionCFA_steps S h).wellFormed WellFormed.init

end ControlFlowAnalysis
end Ppc2cpp
