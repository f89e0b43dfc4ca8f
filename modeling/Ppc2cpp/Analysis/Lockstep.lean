import Ppc2cpp.Analysis.OperandValues

/-! Functions with the verdict `true` run in lockstep.

The values that two functions compute are compared step by step along a walk. Matched
nodes belong to blocks of the same index, and the phi nodes of matched operands have
definitions in the same blocks; so in both functions the operand was written in the same
step of the walk, by instructions whose nodes match (`held_agree`). -/
namespace Ppc2cpp
open GenKill Matching ControlFlowGraph DataFlowAnalysis ProgramComparator Processor

namespace Analysed
variable {A A₁ A₂ : Analysed} {fuel : Nat}

/-! ### Matched nodes -/

theorem dependedOn_of_descends {x y : NodeId} (hx : DependedOn A.dfg x)
    (h : Relation.ReflTransGen (fun x a => a ∈ A.dfg.heap.inputs x) x y) : DependedOn A.dfg y := by
  induction h with
  | refl => exact hx
  | tail _ hmem ih => exact .input ih hmem

/-- Observed nodes are nodes that sinks depend on. -/
theorem Observed.dependedOn {x₁ x₂ : NodeId} (h : Observed A₁ A₂ x₁ x₂) :
    DependedOn A₁.dfg x₁ ∧ DependedOn A₂.dfg x₂ := by
  obtain ⟨b, i, sink₁, sink₂, _, h₁, h₂, htogether⟩ := h
  refine ⟨dependedOn_of_descends (.sink (List.mem_of_getElem? h₁)) htogether.descends, ?_⟩
  have hright : Relation.ReflTransGen (fun x a => a ∈ A₂.dfg.heap.inputs x) sink₂ x₂ := by
    induction htogether with
    | refl => exact .refl
    | child _ _ hb ih => exact ih.tail (List.mem_of_getElem? hb)
  exact dependedOn_of_descends (.sink (List.mem_of_getElem? h₂)) hright

theorem Observed.child {x₁ x₂ y₁ y₂ : NodeId} (h : Observed A₁ A₂ x₁ x₂) {i : Nat}
    (h₁ : (A₁.dfg.heap.inputs x₁)[i]? = some y₁) (h₂ : (A₂.dfg.heap.inputs x₂)[i]? = some y₂) :
    Observed A₁ A₂ y₁ y₂ := by
  obtain ⟨b, j, sink₁, sink₂, hb, hs₁, hs₂, htogether⟩ := h
  exact ⟨b, j, sink₁, sink₂, hb, hs₁, hs₂, htogether.child h₁ h₂⟩

theorem Observed.inputs {x₁ x₂ : NodeId} (h : Observed A₁ A₂ x₁ x₂)
    (hflows : (A₁.subject.comparator A₂.subject).FlowsMatch fuel A₁.side A₂.side) :
    List.Forall₂ (Observed A₁ A₂) (A₁.dfg.heap.inputs x₁) (A₂.dfg.heap.inputs x₂) := by
  obtain ⟨_, hinputs⟩ := match_iff.mp (h.nodesMatch hflows)
  obtain ⟨hlen, _⟩ := List.forall₂_iff_get.mp hinputs
  refine List.forall₂_iff_get.mpr ⟨hlen, fun i hi hi' => ?_⟩
  exact h.child (List.getElem?_eq_getElem hi) (List.getElem?_eq_getElem hi')

/-- A node built for an instruction of the block `b`. -/
structure BuiltIn (A : Analysed) (b pc : Nat) (x : NodeId) : Prop where
  internal : A.cfg.isInternal b = true
  within : A.cfg.startOf b ≤ pc ∧ pc ≤ A.cfg.stopOf b
  made : ∃ n k, n < A.steps ∧ pc = A.cfg.startOf b + k ∧ MadeFor A.cfg A.trace n b k x

theorem Trusted.findBlock (h : A.Trusted) {b pc : Nat} (hb : A.cfg.isInternal b = true)
    (hlo : A.cfg.startOf b ≤ pc) (hhi : pc ≤ A.cfg.stopOf b) :
    A.cfg.findBlockByInsnIdx pc = some b := by
  obtain ⟨x, hx⟩ : ∃ x, A.cfg.Internal b x := (A.cfg.isInternal_iff b).mp hb
  rw [startOf, hx.block_eq] at hlo
  rw [stopOf, hx.block_eq] at hhi
  exact h.partitioned.2 b x pc hx hlo hhi

theorem Trusted.block_unique (h : A.Trusted) {b c pc : Nat} (hb : A.cfg.isInternal b = true)
    (hc : A.cfg.isInternal c = true) (hlo : A.cfg.startOf b ≤ pc) (hhi : pc ≤ A.cfg.stopOf b)
    (hlo' : A.cfg.startOf c ≤ pc) (hhi' : pc ≤ A.cfg.stopOf c) : b = c :=
  Option.some.inj ((h.findBlock hb hlo hhi).symm.trans (h.findBlock hc hlo' hhi'))

theorem exists_builtIn {x : NodeId} {pc : Nat}
    (hx : (A.dfg.heap.kind? x).bind NodeKind.builtFor = some pc) : ∃ b, A.BuiltIn b pc x := by
  have hresult := A.result
  obtain ⟨n, b, k, hn, hmade, rfl⟩ := A.isTrace.exists_madeFor (hresult.symm ▸ hx)
  exact ⟨b, A.isTrace.internal_of_visits A.wellFormed hn hmade.visits,
    ⟨Nat.le_add_right _ _, hmade.within⟩, n, k, hn, rfl, hmade⟩

/-- **Nodes that are compared by their instructions were built in blocks of the same
index.** -/
theorem exists_builtIn_both (h₁ : A₁.Trusted) (h₂ : A₂.Trusted) {x₁ x₂ : NodeId} {pc₁ pc₂ : Nat}
    (hx₁ : (A₁.dfg.heap.kind? x₁).bind NodeKind.builtFor = some pc₁)
    (hx₂ : (A₂.dfg.heap.kind? x₂).bind NodeKind.builtFor = some pc₂)
    (hinsns : (A₁.subject.comparator A₂.subject).compareInsns A₁.side A₂.side pc₁ pc₂ = .ok true) :
    ∃ b, A₁.BuiltIn b pc₁ x₁ ∧ A₂.BuiltIn b pc₂ x₂ := by
  obtain ⟨_, c, hc₁, hc₂⟩ := compareInsns_iff.mp hinsns
  obtain ⟨b₁, hb₁⟩ := exists_builtIn hx₁
  obtain ⟨b₂, hb₂⟩ := exists_builtIn hx₂
  have heq₁ := (h₁.findBlock hb₁.internal hb₁.within.1 hb₁.within.2).symm.trans hc₁
  have heq₂ := (h₂.findBlock hb₂.internal hb₂.within.1 hb₂.within.2).symm.trans hc₂
  obtain rfl := Option.some.inj heq₁
  obtain rfl := Option.some.inj heq₂
  exact ⟨_, hb₁, hb₂⟩

/-- Each definition of either set is observed with one of the other. -/
structure DefinitionsMatch (A₁ A₂ : Analysed) (d₁ d₂ : Definition) : Prop where
  left : ∀ z₁ ∈ d₁, ∃ z₂ ∈ d₂, Observed A₁ A₂ z₁ z₂
  right : ∀ z₂ ∈ d₂, ∃ z₁ ∈ d₁, Observed A₁ A₂ z₁ z₂

/-- The node of a register is of one of three classes. -/
theorem stands_cases {d : Definition} {pc : Nat} {loc : CpuMemoryLocation} {slot : Slot} {x : NodeId}
    (h : Stands A.dfg.heap d pc loc x) (hdef : ∀ z ∈ d, Defines A.subject A.dfg.heap slot z) :
    (A.dfg.heap.kind? x = some (.functionInput pc loc) ∧ d = ∅) ∨
      (∃ i j l, A.dfg.heap.kind? x = some (.result i j l) ∧ d = {x}) ∨
      A.dfg.heap.kind? x = some (.phi pc loc) ∧ d ≠ ∅ ∧ ∀ y, y ∈ A.dfg.heap.inputs x ↔ y ∈ d := by
  cases h with
  | functionInput hempty hx => exact .inl ⟨by rw [Heap.kind?, hx]; rfl, hempty⟩
  | definition hd =>
    obtain ⟨i, j, l, _, _, hkind, _⟩ := hdef x (by rw [hd]; exact Finset.mem_singleton_self x)
    exact .inr (.inl ⟨i, j, l, hkind, hd⟩)
  | phi opVars hcard hx hmem =>
    refine .inr (.inr ⟨by rw [Heap.kind?, hx]; rfl, ?_, fun y => ?_⟩)
    · rintro rfl
      simp at hcard
    · rw [Heap.inputs, hx]
      exact hmem y

/-- **The nodes of two registers that match stand for definitions that match**, or for the
same register at the entry. -/
theorem stands_match {d₁ d₂ : Definition} {p₁ p₂ : Nat} {loc₁ loc₂ : CpuMemoryLocation}
    {slot₁ slot₂ : Slot} {x₁ x₂ : NodeId} (hobserved : Observed A₁ A₂ x₁ x₂)
    (hflows : (A₁.subject.comparator A₂.subject).FlowsMatch fuel A₁.side A₂.side)
    (hs₁ : Stands A₁.dfg.heap d₁ p₁ loc₁ x₁) (hs₂ : Stands A₂.dfg.heap d₂ p₂ loc₂ x₂)
    (hdef₁ : ∀ z ∈ d₁, Defines A₁.subject A₁.dfg.heap slot₁ z)
    (hdef₂ : ∀ z ∈ d₂, Defines A₂.subject A₂.dfg.heap slot₂ z) :
    DefinitionsMatch A₁ A₂ d₁ d₂ ∧ (d₁ = ∅ → loc₁ = loc₂) := by
  obtain ⟨⟨kind₁, kind₂, hkind₁, hkind₂, hkinds⟩, _⟩ := match_iff.mp (hobserved.nodesMatch hflows)
  change A₁.dfg.heap.kind? x₁ = _ at hkind₁
  change A₂.dfg.heap.kind? x₂ = _ at hkind₂
  rcases stands_cases hs₁ hdef₁ with ⟨hx₁, rfl⟩ | ⟨i₁, j₁, l₁, hx₁, rfl⟩ | ⟨hx₁, hne₁, hmem₁⟩
  · obtain rfl := Option.some.inj (hx₁.symm.trans hkind₁)
    rcases stands_cases hs₂ hdef₂ with ⟨hx₂, rfl⟩ | ⟨i₂, j₂, l₂, hx₂, rfl⟩ | ⟨hx₂, _, _⟩
    · obtain rfl := Option.some.inj (hx₂.symm.trans hkind₂)
      exact ⟨⟨by simp, by simp⟩, fun _ => eq_of_beq (Except.ok.inj hkinds)⟩
    · obtain rfl := Option.some.inj (hx₂.symm.trans hkind₂)
      cases hkinds
    · obtain rfl := Option.some.inj (hx₂.symm.trans hkind₂)
      cases hkinds
  · obtain rfl := Option.some.inj (hx₁.symm.trans hkind₁)
    rcases stands_cases hs₂ hdef₂ with ⟨hx₂, rfl⟩ | ⟨i₂, j₂, l₂, hx₂, rfl⟩ | ⟨hx₂, _, _⟩
    · obtain rfl := Option.some.inj (hx₂.symm.trans hkind₂)
      cases hkinds
    · refine ⟨⟨fun z₁ hz₁ => ?_, fun z₂ hz₂ => ?_⟩, fun hempty => ?_⟩
      · exact ⟨x₂, Finset.mem_singleton_self x₂, Finset.mem_singleton.mp hz₁ ▸ hobserved⟩
      · exact ⟨x₁, Finset.mem_singleton_self x₁, Finset.mem_singleton.mp hz₂ ▸ hobserved⟩
      · exact absurd hempty (Finset.singleton_ne_empty x₁)
    · obtain rfl := Option.some.inj (hx₂.symm.trans hkind₂)
      cases hkinds
  · obtain rfl := Option.some.inj (hx₁.symm.trans hkind₁)
    rcases stands_cases hs₂ hdef₂ with ⟨hx₂, rfl⟩ | ⟨i₂, j₂, l₂, hx₂, rfl⟩ | ⟨hx₂, _, hmem₂⟩
    · obtain rfl := Option.some.inj (hx₂.symm.trans hkind₂)
      cases hkinds
    · obtain rfl := Option.some.inj (hx₂.symm.trans hkind₂)
      cases hkinds
    · obtain ⟨hlen, hget⟩ := List.forall₂_iff_get.mp (hobserved.inputs hflows)
      refine ⟨⟨fun z₁ hz₁ => ?_, fun z₂ hz₂ => ?_⟩, fun hempty => absurd hempty hne₁⟩
      · obtain ⟨i, hi, rfl⟩ := List.mem_iff_getElem.mp ((hmem₁ z₁).mpr hz₁)
        exact ⟨_, (hmem₂ _).mp (List.getElem_mem _), hget i hi (by omega)⟩
      · obtain ⟨i, hi, rfl⟩ := List.mem_iff_getElem.mp ((hmem₂ z₂).mpr hz₂)
        exact ⟨_, (hmem₁ _).mp (List.getElem_mem _), hget i (by omega) hi⟩

/-! ### One register in both functions -/

section
variable {b k : Nat} {slot : Slot} {d : Definition} {z : NodeId} {i : Nat}

theorem Defines.kind {heap : Heap} (h : Defines A.subject heap slot z) :
    ∃ j loc opcode insnUD, heap.kind? z = some (.result (heap.index z) j loc) ∧
      A.subject.decode (heap.index z) = .ok (opcode, insnUD) ∧ LastOutput insnUD.outputs slot j := by
  obtain ⟨pc, j, loc, opcode, insnUD, hkind, hdecode, hlast⟩ := h
  have hindex : heap.index z = pc := by
    obtain ⟨node, hnode, hkind⟩ := Option.map_eq_some_iff.mp hkind
    rw [Heap.index, hnode, Option.map_some, Option.getD_some, hkind]
    rfl
  rw [hindex]
  exact ⟨j, loc, opcode, insnUD, hkind, hdecode, hlast⟩

/-- A block defines an element inside itself. -/
theorem Trusted.blockEffect_within (h : A.Trusted) {c : Nat}
    (hgen : A.subject.blockEffectAt A.cfg slot c = .gen i) :
    A.cfg.startOf c ≤ i ∧ i ≤ A.cfg.stopOf c := by
  rcases A.subject.blockEffectAt_cases h.callFree A.wellFormed.startOf_le slot c with
    hpass | ⟨j, hj, hgen'⟩
  · rw [hpass] at hgen
    cases hgen
  · rw [hgen'] at hgen
    have hindex : A.cfg.startOf c + j = i := by simpa using hgen
    exact ⟨hindex ▸ Nat.le_add_right _ _, hindex ▸ hj⟩

theorem Trusted.blockEffect_ne_kill (h : A.Trusted) (slot : Slot) (c : Nat) :
    A.subject.blockEffectAt A.cfg slot c ≠ .kill := by
  rcases A.subject.blockEffectAt_cases h.callFree A.wellFormed.startOf_le slot c with
    hpass | ⟨j, _, hgen⟩
  · rw [hpass]
    exact fun hkill => by cases hkill
  · rw [hgen]
    exact fun hkill => by cases hkill

/-- A definition that comes into the block is the one of its own block. -/
theorem Trusted.blockEffect_eq (h : A.Trusted) {c : Nat} (hc : A.cfg.isInternal c = true)
    (hlo : A.cfg.startOf c ≤ i) (hhi : i ≤ A.cfg.stopOf c)
    (hreach : ReachesBefore A.cfg.Edge (A.subject.blockEffectAt A.cfg slot) i b) :
    A.subject.blockEffectAt A.cfg slot c = .gen i := by
  obtain ⟨c', r, hgen, hedge⟩ := hreach.exists_source
  have hwithin := h.blockEffect_within hgen
  rw [h.block_unique hc (A.wellFormed.internal_of_pred hedge) hlo hhi hwithin.1 hwithin.2]
  exact hgen

/-- Definitions of one register of each function that match are built in the same block. -/
theorem exists_block (h₁ : A₁.Trusted) (h₂ : A₂.Trusted)
    (hflows : (A₁.subject.comparator A₂.subject).FlowsMatch fuel A₁.side A₂.side)
    {slot₁ slot₂ : Slot} {z₁ z₂ : NodeId} (hobserved : Observed A₁ A₂ z₁ z₂)
    (hz₁ : Defines A₁.subject A₁.dfg.heap slot₁ z₁) (hz₂ : Defines A₂.subject A₂.dfg.heap slot₂ z₂) :
    ∃ c, A₁.BuiltIn c (A₁.dfg.heap.index z₁) z₁ ∧ A₂.BuiltIn c (A₂.dfg.heap.index z₂) z₂ := by
  obtain ⟨i₁, loc₁, _, _, hkind₁, _⟩ := Defines.kind hz₁
  obtain ⟨i₂, loc₂, _, _, hkind₂, _⟩ := Defines.kind hz₂
  obtain ⟨⟨kind₁, kind₂, hk₁, hk₂, hkinds⟩, _⟩ := match_iff.mp (hobserved.nodesMatch hflows)
  obtain rfl := Option.some.inj (hkind₁.symm.trans hk₁)
  obtain rfl := Option.some.inj (hkind₂.symm.trans hk₂)
  exact exists_builtIn_both h₁ h₂ (by rw [hkind₁]; rfl) (by rw [hkind₂]; rfl) hkinds

end

section
variable {Value Memory : Type} {P₁ P₂ : Processor Value Memory} {m₀ : Machine Value Memory}
  {t k : Nat}

section
variable (A : Analysed) (P : Processor Value Memory) (m₀ : Machine Value Memory)

/-- The first instructions of the block walked to in step `t`. -/
def executed (t k : Nat) : Except Error (Machine Value Memory × List (Event Value)) :=
  P.interpretation.execFrom A.subject (A.cfg.startOf (P.blockAt A.subject A.cfg m₀ t)) k
    (P.position A.subject A.cfg m₀ t).machine

end

section
variable (A₁ A₂ : Analysed) (P₁ P₂ : Processor Value Memory) (m₀ : Machine Value Memory)

/-- Two walks lead through the same blocks. -/
structure SameBlocks (n : Nat) : Prop where
  walks₁ : P₁.Walks A₁.subject A₁.cfg m₀ n
  walks₂ : P₂.Walks A₂.subject A₂.cfg m₀ n
  block : ∀ t ≤ n, P₁.blockAt A₁.subject A₁.cfg m₀ t = P₂.blockAt A₂.subject A₂.cfg m₀ t
  memory : ∀ t ≤ n, (P₁.position A₁.subject A₁.cfg m₀ t).machine.memory =
    (P₂.position A₂.subject A₂.cfg m₀ t).machine.memory

/-- Results that are observed with each other have the same value when they are computed in
step `t` of the walks, the first of them by one of the first `k` instructions of its
block. -/
def ResultsAgree (t k : Nat) : Prop :=
  ∀ z₁ z₂ pc₁ i₁ loc₁ pc₂ i₂ loc₂, Observed A₁ A₂ z₁ z₂ →
    A₁.dfg.heap.kind? z₁ = some (.result pc₁ i₁ loc₁) →
    A₂.dfg.heap.kind? z₂ = some (.result pc₂ i₂ loc₂) →
    pc₁ ≤ A₁.cfg.stopOf (P₁.blockAt A₁.subject A₁.cfg m₀ t) →
    ∀ j₁ j₂, j₁ < k → pc₁ = A₁.cfg.startOf (P₁.blockAt A₁.subject A₁.cfg m₀ t) + j₁ →
      pc₂ = A₂.cfg.startOf (P₂.blockAt A₂.subject A₂.cfg m₀ t) + j₂ →
      ∀ m₁ es₁ m₂ es₂, A₁.executed P₁ m₀ t j₁ = .ok (m₁, es₁) →
        A₂.executed P₂ m₀ t j₂ = .ok (m₂, es₂) →
        ∀ v₁ v₂, P₁.interpretation.Computes A₁.subject m₁ pc₁ i₁ v₁ →
          P₂.interpretation.Computes A₂.subject m₂ pc₂ i₂ v₂ → v₁ = v₂

end

/-- The values two definitions that match were given in one step of the walks. -/
theorem written_agree (hagree : ResultsAgree A₁ A₂ P₁ P₂ m₀ t k) {slot₁ slot₂ : Slot}
    {z₁ z₂ : NodeId} (hobserved : Observed A₁ A₂ z₁ z₂)
    (hz₁ : Defines A₁.subject A₁.dfg.heap slot₁ z₁) (hz₂ : Defines A₂.subject A₂.dfg.heap slot₂ z₂)
    (hstop : A₁.dfg.heap.index z₁ ≤ A₁.cfg.stopOf (P₁.blockAt A₁.subject A₁.cfg m₀ t))
    {j₁ j₂ : Nat} (hj : j₁ < k)
    (hpc₁ : A₁.dfg.heap.index z₁ = A₁.cfg.startOf (P₁.blockAt A₁.subject A₁.cfg m₀ t) + j₁)
    (hpc₂ : A₂.dfg.heap.index z₂ = A₂.cfg.startOf (P₂.blockAt A₂.subject A₂.cfg m₀ t) + j₂)
    {m₁ m₂ : Machine Value Memory} {es₁ es₂ : List (Event Value)}
    (hexec₁ : A₁.executed P₁ m₀ t j₁ = .ok (m₁, es₁))
    (hexec₂ : A₂.executed P₂ m₀ t j₂ = .ok (m₂, es₂)) {v₁ v₂ : Value}
    (hv₁ : P₁.interpretation.Writes A₁.subject m₁ (A₁.dfg.heap.index z₁) slot₁ v₁)
    (hv₂ : P₂.interpretation.Writes A₂.subject m₂ (A₂.dfg.heap.index z₂) slot₂ v₂) : v₁ = v₂ := by
  obtain ⟨i₁, loc₁, _, _, hkind₁, hdecode₁, hlast₁⟩ := Defines.kind hz₁
  obtain ⟨i₂, loc₂, _, _, hkind₂, hdecode₂, hlast₂⟩ := Defines.kind hz₂
  obtain ⟨_, _, i₁', hdecode₁', hlast₁', hcomputes₁⟩ := hv₁
  obtain ⟨_, _, i₂', hdecode₂', hlast₂', hcomputes₂⟩ := hv₂
  obtain ⟨_, rfl⟩ := Prod.mk.inj (Except.ok.inj (hdecode₁.symm.trans hdecode₁'))
  obtain ⟨_, rfl⟩ := Prod.mk.inj (Except.ok.inj (hdecode₂.symm.trans hdecode₂'))
  obtain rfl := hlast₁.unique hlast₁'
  obtain rfl := hlast₂.unique hlast₂'
  exact hagree z₁ z₂ _ _ _ _ _ _ hobserved hkind₁ hkind₂ hstop j₁ j₂ hj hpc₁ hpc₂ m₁ es₁ m₂ es₂ hexec₁
    hexec₂ v₁ v₂ hcomputes₁ hcomputes₂

/-! ### Where the value of a register comes from -/

section
variable {b : Nat} {slot : Slot} {d : Definition} {P : Processor Value Memory}

/-- Where every definition that is there is one of the block itself, the block has set the
register. -/
def SetsOwn (A : Analysed) (b k : Nat) (slot : Slot) (d : Definition) : Prop :=
  d.Nonempty → (∀ z ∈ d, A.BuiltIn b (A.dfg.heap.index z) z) →
    prefixEffect A.cfg.startOf (A.subject.effectAt A.cfg slot) b k ≠ .pass

/-- Where no value of the entry is masked: on the first visit nothing would have come in. -/
theorem Reaching.setsOwn (h : A.Trusted) (hwalks : P.Walks A.subject A.cfg m₀ t)
    (hb : P.blockAt A.subject A.cfg m₀ t = b) (hinternal : A.cfg.isInternal b = true)
    (hr : A.Reaching b k slot d) (hun : ¬ A.Masked b k slot) : A.SetsOwn b k slot d := by
  intro hne hown hpass
  have hw := A.wellFormed
  have hclear : Clear A.cfg.Edge (A.subject.blockEffectAt A.cfg slot) 0
      (P.blockAt A.subject A.cfg m₀ t) := by
    refine (hwalks.walk hw).clear_of_own (fun u _ => h.blockEffect_ne_kill slot _)
      fun u hu hdefined => ?_
    obtain ⟨i, hgen, hreach⟩ := hdefined
    rw [hb] at hreach ⊢
    obtain ⟨z, hz, rfl⟩ := (hr.sites i).mpr ((Subject.reachesPoint_of_pass hpass).mpr hreach)
    have hbuilt := (hown z hz).within
    have hwithin := h.blockEffect_within hgen
    exact h.block_unique (hwalks u hu).1 hinternal hwithin.1 hwithin.2 hbuilt.1 hbuilt.2
  rw [hb] at hclear
  obtain ⟨z, hz⟩ := hne
  exact hun ⟨⟨hclear, hpass⟩, A.dfg.heap.index z, (hr.sites _).mp ⟨z, hz, rfl⟩⟩

/-- A value held from the entry has no definition that reaches, if it is not masked. -/
theorem Reaching.eq_empty (hwalks : P.Walks A.subject A.cfg m₀ t)
    (hb : P.blockAt A.subject A.cfg m₀ t = b) (hr : A.Reaching b k slot d)
    (hun : ¬ A.Masked b k slot)
    (hpass : prefixEffect A.cfg.startOf (A.subject.effectAt A.cfg slot) b k = .pass)
    (hall : ∀ u < t, A.subject.blockEffectAt A.cfg slot (P.blockAt A.subject A.cfg m₀ u) = .pass) :
    d = ∅ := by
  have hclear := (hwalks.walk A.wellFormed).clear hall
  rw [hb] at hclear
  by_contra hne
  obtain ⟨z, hz⟩ := Finset.nonempty_iff_ne_empty.mpr hne
  exact hun ⟨⟨hclear, hpass⟩, A.dfg.heap.index z, (hr.sites _).mp ⟨z, hz, rfl⟩⟩

/-- What the last block that touched the register defined reaches. -/
theorem Reaching.exists_earlier (hwalks : P.Walks A.subject A.cfg m₀ t)
    (hb : P.blockAt A.subject A.cfg m₀ t = b) (hr : A.Reaching b k slot d)
    (hpass : prefixEffect A.cfg.startOf (A.subject.effectAt A.cfg slot) b k = .pass) {u e : Nat}
    (hlast : LastTouch (A.subject.blockEffectAt A.cfg slot) (P.blockAt A.subject A.cfg m₀) t u)
    (hgen : A.subject.blockEffectAt A.cfg slot (P.blockAt A.subject A.cfg m₀ u) = .gen e) :
    ∃ z ∈ d, A.dfg.heap.index z = e := by
  have hreach := hlast.reaches (hwalks.walk A.wellFormed) hgen
  rw [hb] at hreach
  exact (hr.sites e).mpr ((Subject.reachesPoint_of_pass hpass).mpr hreach)

/-- The definitions of an element that the block itself set. -/
theorem Reaching.of_gen (hr : A.Reaching b k slot d) {e : Nat}
    (hgen : prefixEffect A.cfg.startOf (A.subject.effectAt A.cfg slot) b k = .gen e) :
    d.Nonempty ∧ ∀ z ∈ d, A.dfg.heap.index z = e := by
  obtain ⟨z, hz, _⟩ := (hr.sites e).mpr ((Subject.reachesPoint_of_gen hgen).mpr rfl)
  exact ⟨⟨z, hz⟩, fun y hy =>
    (Subject.reachesPoint_of_gen hgen).mp ((hr.sites _).mp ⟨y, hy, rfl⟩)⟩

/-- Where the definitions of two registers are built in the same blocks, pair by pair, and
the one block has set its register, so has the other. -/
theorem SetsOwn.of_paired {A' : Analysed} {k' e : Nat} {slot' : Slot} {d' : Definition}
    (hown : A'.SetsOwn b k' slot' d') (h : A.Trusted) (hinternal : A.cfg.isInternal b = true)
    (hr : A.Reaching b k slot d)
    (hforth : ∀ z ∈ d, ∃ z' ∈ d', ∃ c,
      A.BuiltIn c (A.dfg.heap.index z) z ∧ A'.BuiltIn c (A'.dfg.heap.index z') z')
    (hback : ∀ z' ∈ d', ∃ z ∈ d, ∃ c,
      A.BuiltIn c (A.dfg.heap.index z) z ∧ A'.BuiltIn c (A'.dfg.heap.index z') z')
    (hgen : prefixEffect A.cfg.startOf (A.subject.effectAt A.cfg slot) b k = .gen e)
    (hlo : A.cfg.startOf b ≤ e) (hhi : e ≤ A.cfg.stopOf b) :
    prefixEffect A'.cfg.startOf (A'.subject.effectAt A'.cfg slot') b k' ≠ .pass := by
  obtain ⟨⟨z, hz⟩, hsites⟩ := hr.of_gen hgen
  obtain ⟨z', hz', _⟩ := hforth z hz
  refine hown ⟨z', hz'⟩ fun y' hy' => ?_
  obtain ⟨y, hy, c, hc, hc'⟩ := hback y' hy'
  have hindex := hsites y hy
  obtain rfl := h.block_unique hc.internal hinternal hc.within.1 hc.within.2
    (by omega) (by omega)
  exact hc'

/-- The definitions of one register that come into a block come out of the blocks they are
built in. -/
theorem Reaching.definedFrom_iff (h : A.Trusted) {c : Nat} (hc : A.cfg.isInternal c = true)
    (hr : A.Reaching b k slot d)
    (hpass : prefixEffect A.cfg.startOf (A.subject.effectAt A.cfg slot) b k = .pass) :
    DefinedFrom A.cfg.Edge (A.subject.blockEffectAt A.cfg slot) b c ↔
      ∃ z ∈ d, A.cfg.startOf c ≤ A.dfg.heap.index z ∧ A.dfg.heap.index z ≤ A.cfg.stopOf c := by
  constructor
  · intro hdefined
    obtain ⟨i, hgen, hreach⟩ := hdefined
    obtain ⟨z, hz, rfl⟩ := (hr.sites i).mpr ((Subject.reachesPoint_of_pass hpass).mpr hreach)
    exact ⟨z, hz, h.blockEffect_within hgen⟩
  · intro hex
    obtain ⟨z, hz, hlo, hhi⟩ := hex
    have hreach := (Subject.reachesPoint_of_pass hpass).mp ((hr.sites _).mp ⟨z, hz, rfl⟩)
    exact ⟨_, h.blockEffect_eq hc hlo hhi hreach, hreach⟩

end

section
variable {b k₁ k₂ : Nat} {slot₁ slot₂ : Slot} {d₁ d₂ : Definition} {v₁ v₂ : Value}

/-- Definitions that match are in blocks of the same index. -/
theorem DefinitionsMatch.within_iff (h₁ : A₁.Trusted) (h₂ : A₂.Trusted)
    (hflows : (A₁.subject.comparator A₂.subject).FlowsMatch fuel A₁.side A₂.side)
    (hmatch : DefinitionsMatch A₁ A₂ d₁ d₂)
    (hd₁ : ∀ z ∈ d₁, Defines A₁.subject A₁.dfg.heap slot₁ z)
    (hd₂ : ∀ z ∈ d₂, Defines A₂.subject A₂.dfg.heap slot₂ z) {c : Nat}
    (hc₁ : A₁.cfg.isInternal c = true) (hc₂ : A₂.cfg.isInternal c = true) :
    (∃ z ∈ d₁, A₁.cfg.startOf c ≤ A₁.dfg.heap.index z ∧ A₁.dfg.heap.index z ≤ A₁.cfg.stopOf c) ↔
      ∃ z ∈ d₂, A₂.cfg.startOf c ≤ A₂.dfg.heap.index z ∧
        A₂.dfg.heap.index z ≤ A₂.cfg.stopOf c := by
  constructor
  · intro hex
    obtain ⟨z₁, hz₁, hlo, hhi⟩ := hex
    obtain ⟨z₂, hz₂, hobserved⟩ := hmatch.left z₁ hz₁
    obtain ⟨c', hb₁, hb₂⟩ := exists_block h₁ h₂ hflows hobserved (hd₁ z₁ hz₁) (hd₂ z₂ hz₂)
    obtain rfl := h₁.block_unique hb₁.internal hc₁ hb₁.within.1 hb₁.within.2 hlo hhi
    exact ⟨z₂, hz₂, hb₂.within⟩
  · intro hex
    obtain ⟨z₂, hz₂, hlo, hhi⟩ := hex
    obtain ⟨z₁, hz₁, hobserved⟩ := hmatch.right z₂ hz₂
    obtain ⟨c', hb₁, hb₂⟩ := exists_block h₁ h₂ hflows hobserved (hd₁ z₁ hz₁) (hd₂ z₂ hz₂)
    obtain rfl := h₂.block_unique hb₂.internal hc₂ hb₂.within.1 hb₂.within.2 hlo hhi
    exact ⟨z₁, hz₁, hb₁.within⟩

/-- The registers were touched last in the same step of the walks. -/
theorem lastTouch_iff (h₁ : A₁.Trusted) (h₂ : A₂.Trusted)
    (hflows : (A₁.subject.comparator A₂.subject).FlowsMatch fuel A₁.side A₂.side)
    (hsame : SameBlocks A₁ A₂ P₁ P₂ m₀ t) (hb₁ : P₁.blockAt A₁.subject A₁.cfg m₀ t = b)
    (hr₁ : A₁.Reaching b k₁ slot₁ d₁) (hr₂ : A₂.Reaching b k₂ slot₂ d₂)
    (hmatch : DefinitionsMatch A₁ A₂ d₁ d₂)
    (hpass₁ : prefixEffect A₁.cfg.startOf (A₁.subject.effectAt A₁.cfg slot₁) b k₁ = .pass)
    (hpass₂ : prefixEffect A₂.cfg.startOf (A₂.subject.effectAt A₂.cfg slot₂) b k₂ = .pass) {u : Nat} :
    LastTouch (A₁.subject.blockEffectAt A₁.cfg slot₁) (P₁.blockAt A₁.subject A₁.cfg m₀) t u ↔
      LastTouch (A₂.subject.blockEffectAt A₂.cfg slot₂) (P₂.blockAt A₂.subject A₂.cfg m₀) t u := by
  have hblock : ∀ v < t, P₁.blockAt A₁.subject A₁.cfg m₀ v = P₂.blockAt A₂.subject A₂.cfg m₀ v :=
    fun v hv => hsame.block v (le_of_lt hv)
  have hwalk₁ := hsame.walks₁.walk A₁.wellFormed
  have hwalk₂ : Walk A₂.cfg.Edge 0 (P₁.blockAt A₁.subject A₁.cfg m₀) t := by
    refine ⟨rfl, fun v hv => ?_⟩
    rw [hblock v hv, hsame.block (v + 1) hv]
    exact (hsame.walks₂.walk A₂.wellFormed).edge v hv
  have hkill₁ := fun v (_ : v < t) => h₁.blockEffect_ne_kill slot₁ (P₁.blockAt A₁.subject A₁.cfg m₀ v)
  have hkill₂ := fun v (_ : v < t) => h₂.blockEffect_ne_kill slot₂ (P₁.blockAt A₁.subject A₁.cfg m₀ v)
  have hdefined : ∀ v < t,
      DefinedFrom A₁.cfg.Edge (A₁.subject.blockEffectAt A₁.cfg slot₁)
          (P₁.blockAt A₁.subject A₁.cfg m₀ t) (P₁.blockAt A₁.subject A₁.cfg m₀ v) ↔
        DefinedFrom A₂.cfg.Edge (A₂.subject.blockEffectAt A₂.cfg slot₂)
          (P₁.blockAt A₁.subject A₁.cfg m₀ t) (P₁.blockAt A₁.subject A₁.cfg m₀ v) := by
    intro v hv
    have hc₁ : A₁.cfg.isInternal (P₁.blockAt A₁.subject A₁.cfg m₀ v) = true := (hsame.walks₁ v hv).1
    have hc₂ : A₂.cfg.isInternal (P₁.blockAt A₁.subject A₁.cfg m₀ v) = true := by
      rw [hblock v hv]
      exact (hsame.walks₂ v hv).1
    rw [hb₁, hr₁.definedFrom_iff h₁ hc₁ hpass₁, hr₂.definedFrom_iff h₂ hc₂ hpass₂]
    exact hmatch.within_iff h₁ h₂ hflows hr₁.defines hr₂.defines hc₁ hc₂
  constructor
  · intro hlast
    exact (hlast.transfer hwalk₁ hwalk₂ hkill₁ hkill₂ hdefined).congr hblock
  · intro hlast
    exact (hlast.congr fun v hv => (hblock v hv).symm).transfer hwalk₂ hwalk₁ hkill₂ hkill₁
      fun v hv => (hdefined v hv).symm

/-- **Registers whose definitions match hold the same value**, in front of instructions
and at the ends of blocks. -/
theorem held_agree (h₁ : A₁.Trusted) (h₂ : A₂.Trusted)
    (hflows : (A₁.subject.comparator A₂.subject).FlowsMatch fuel A₁.side A₂.side)
    (hsame : SameBlocks A₁ A₂ P₁ P₂ m₀ t) (hb₁ : P₁.blockAt A₁.subject A₁.cfg m₀ t = b)
    (hinternal₁ : A₁.cfg.isInternal b = true) (hinternal₂ : A₂.cfg.isInternal b = true)
    (hk₁ : A₁.cfg.startOf b + k₁ ≤ A₁.cfg.stopOf b + 1)
    (hk₂ : A₂.cfg.startOf b + k₂ ≤ A₂.cfg.stopOf b + 1)
    (hearlier : ∀ u < t, ∀ k, ResultsAgree A₁ A₂ P₁ P₂ m₀ u k)
    (hwithin : ResultsAgree A₁ A₂ P₁ P₂ m₀ t k₁) (hr₁ : A₁.Reaching b k₁ slot₁ d₁)
    (hr₂ : A₂.Reaching b k₂ slot₂ d₂) (hmatch : DefinitionsMatch A₁ A₂ d₁ d₂)
    (hown₁ : A₁.SetsOwn b k₁ slot₁ d₁) (hown₂ : A₂.SetsOwn b k₂ slot₂ d₂)
    (hentry : prefixEffect A₁.cfg.startOf (A₁.subject.effectAt A₁.cfg slot₁) b k₁ = .pass →
      (∀ u < t, A₁.subject.blockEffectAt A₁.cfg slot₁ (P₁.blockAt A₁.subject A₁.cfg m₀ u) = .pass) →
      slot₁ = slot₂)
    (hv₁ : Held P₁ A₁.subject A₁.cfg m₀ t k₁ slot₁ v₁)
    (hv₂ : Held P₂ A₂.subject A₂.cfg m₀ t k₂ slot₂ v₂) : v₁ = v₂ := by
  have hb₂ : P₂.blockAt A₂.subject A₂.cfg m₀ t = b := (hsame.block t (le_refl t)).symm.trans hb₁
  have hblock : ∀ z₁ ∈ d₁, ∀ z₂ ∈ d₂, Observed A₁ A₂ z₁ z₂ → ∃ c,
      A₁.BuiltIn c (A₁.dfg.heap.index z₁) z₁ ∧ A₂.BuiltIn c (A₂.dfg.heap.index z₂) z₂ :=
    fun z₁ hz₁ z₂ hz₂ hobserved =>
      exists_block h₁ h₂ hflows hobserved (hr₁.defines z₁ hz₁) (hr₂.defines z₂ hz₂)
  -- where one block has set its register, so has the other
  have hset₁ : ∀ {e₁ j₁}, prefixEffect A₁.cfg.startOf (A₁.subject.effectAt A₁.cfg slot₁) b k₁ = .gen e₁ →
      j₁ < k₁ → e₁ = A₁.cfg.startOf b + j₁ →
      prefixEffect A₂.cfg.startOf (A₂.subject.effectAt A₂.cfg slot₂) b k₂ ≠ .pass :=
    fun hgen₁ hj₁ he₁ => hown₂.of_paired h₁ hinternal₁ hr₁
      (fun z₁ hz₁ => (hmatch.left z₁ hz₁).imp fun z₂ hz => ⟨hz.1, hblock z₁ hz₁ z₂ hz.1 hz.2⟩)
      (fun z₂ hz₂ => (hmatch.right z₂ hz₂).imp fun z₁ hz => ⟨hz.1, hblock z₁ hz.1 z₂ hz₂ hz.2⟩)
      hgen₁ (by omega) (by omega)
  have hset₂ : ∀ {e₂ j₂}, prefixEffect A₂.cfg.startOf (A₂.subject.effectAt A₂.cfg slot₂) b k₂ = .gen e₂ →
      j₂ < k₂ → e₂ = A₂.cfg.startOf b + j₂ →
      prefixEffect A₁.cfg.startOf (A₁.subject.effectAt A₁.cfg slot₁) b k₁ ≠ .pass :=
    fun hgen₂ hj₂ he₂ => hown₁.of_paired h₂ hinternal₂ hr₂
      (fun z₂ hz₂ => (hmatch.right z₂ hz₂).imp fun z₁ hz =>
        ⟨hz.1, (hblock z₁ hz.1 z₂ hz₂ hz.2).imp fun _ h => h.symm⟩)
      (fun z₁ hz₁ => (hmatch.left z₁ hz₁).imp fun z₂ hz =>
        ⟨hz.1, (hblock z₁ hz₁ z₂ hz.1 hz.2).imp fun _ h => h.symm⟩)
      hgen₂ (by omega) (by omega)
  cases hv₁ with
  | own e₁ j₁ m₁ es₁ hgen₁ hj₁ he₁ hexec₁ hwrites₁ =>
    rw [hb₁] at hgen₁ he₁
    cases hv₂ with
    | own e₂ j₂ m₂ es₂ hgen₂ hj₂ he₂ hexec₂ hwrites₂ =>
      rw [hb₂] at hgen₂
      obtain ⟨⟨z₁, hz₁⟩, hsites₁⟩ := hr₁.of_gen hgen₁
      obtain ⟨z₂, hz₂, hobserved⟩ := hmatch.left z₁ hz₁
      have hindex₁ := hsites₁ z₁ hz₁
      have hindex₂ := (hr₂.of_gen hgen₂).2 z₂ hz₂
      exact written_agree hwithin hobserved (hr₁.defines z₁ hz₁) (hr₂.defines z₂ hz₂)
        (by rw [hindex₁, he₁, hb₁]; omega) hj₁
        (by rw [hindex₁, he₁, hb₁]) (hindex₂.trans he₂) hexec₁ hexec₂ (hindex₁ ▸ hwrites₁)
        (hindex₂ ▸ hwrites₂)
    | earlier u e₂ j₂ m₂ es₂ hpass₂ => exact absurd (hb₂ ▸ hpass₂) (hset₁ hgen₁ hj₁ he₁)
    | entry hpass₂ => exact absurd (hb₂ ▸ hpass₂) (hset₁ hgen₁ hj₁ he₁)
  | earlier u e₁ j₁ m₁ es₁ hpass₁ hlast₁ hgen₁ he₁ hexec₁ hwrites₁ =>
    rw [hb₁] at hpass₁
    cases hv₂ with
    | own e₂ j₂ m₂ es₂ hgen₂ hj₂ he₂ =>
      rw [hb₂] at hgen₂ he₂
      exact absurd hpass₁ (hset₂ hgen₂ hj₂ he₂)
    | earlier u' e₂ j₂ m₂ es₂ hpass₂ hlast₂ hgen₂ he₂ hexec₂ hwrites₂ =>
      rw [hb₂] at hpass₂
      -- both were touched last in the same step, and there by the matching definition
      obtain rfl := ((lastTouch_iff h₁ h₂ hflows hsame hb₁ hr₁ hr₂ hmatch hpass₁ hpass₂).mp
        hlast₁).unique hlast₂
      have hu := hlast₁.lt
      obtain ⟨y₁, hy₁, hindex₁⟩ := hr₁.exists_earlier hsame.walks₁ hb₁ hpass₁ hlast₁ hgen₁
      obtain ⟨z₂, hz₂, hobserved⟩ := hmatch.left y₁ hy₁
      obtain ⟨c, hc₁, hc₂⟩ := hblock y₁ hy₁ z₂ hz₂ hobserved
      have hwithin₁ := h₁.blockEffect_within hgen₁
      rw [← hindex₁] at hwithin₁
      obtain rfl : c = P₁.blockAt A₁.subject A₁.cfg m₀ u := h₁.block_unique hc₁.internal
        (hsame.walks₁ u hu).1 hc₁.within.1 hc₁.within.2 hwithin₁.1 hwithin₁.2
      have hreach₂ := (Subject.reachesPoint_of_pass hpass₂).mp ((hr₂.sites _).mp ⟨z₂, hz₂, rfl⟩)
      have hgen₂' := h₂.blockEffect_eq hc₂.internal hc₂.within.1 hc₂.within.2 hreach₂
      rw [hsame.block u (le_of_lt hu), hgen₂] at hgen₂'
      have hindex₂ : e₂ = A₂.dfg.heap.index z₂ := by simpa using hgen₂'
      exact written_agree (hearlier u hu (j₁ + 1)) hobserved (hr₁.defines y₁ hy₁)
        (hr₂.defines z₂ hz₂) hwithin₁.2 (Nat.lt_succ_self j₁) (hindex₁.trans he₁) (hindex₂ ▸ he₂)
        hexec₁ hexec₂ (hindex₁ ▸ hwrites₁) (hindex₂ ▸ hwrites₂)
    | entry hpass₂ hall₂ _ =>
      have hlast₂ := (lastTouch_iff h₁ h₂ hflows hsame hb₁ hr₁ hr₂ hmatch hpass₁
        (hb₂ ▸ hpass₂)).mp hlast₁
      exact absurd (hall₂ u hlast₂.lt) hlast₂.touches
  | entry hpass₁ hall₁ hvalue₁ =>
    rw [hb₁] at hpass₁
    cases hv₂ with
    | own e₂ j₂ m₂ es₂ hgen₂ hj₂ he₂ =>
      rw [hb₂] at hgen₂ he₂
      exact absurd hpass₁ (hset₂ hgen₂ hj₂ he₂)
    | earlier u e₂ j₂ m₂ es₂ hpass₂ hlast₂ =>
      have hlast₁ := (lastTouch_iff h₁ h₂ hflows hsame hb₁ hr₁ hr₂ hmatch hpass₁
        (hb₂ ▸ hpass₂)).mpr hlast₂
      exact absurd (hall₁ u hlast₁.lt) hlast₁.touches
    | entry _ _ hvalue₂ => rw [hvalue₁, hvalue₂, hentry hpass₁ hall₁]

end

end

end Analysed
end Ppc2cpp
