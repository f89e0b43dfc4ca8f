import Ppc2cpp.DataFlow.DfgVisualizer
import Ppc2cpp.DataFlow.OperandNodes
import Ppc2cpp.Lib.Spans

/-! The vertices of the drawn graph.

`getNodeId` names the class of a node, and its instruction or its register or both, but it
writes the number of the instruction where the number of the operand belongs, and leaves
out the register of a phi node and the block of a return value (`NodeKind.told`). The
labels of storage elements differ, so two nodes have the same string iff these parts are
the same (`getNodeId_eq_iff`). -/
namespace Ppc2cpp

/-! ### Labels of registers -/

namespace Slot
open Spans

/-- The label is a word and a number. -/
def word : Slot → String
  | .gpr _ => "r"
  | .fpr _ => "f"
  | .cr _ => "cr"
  | .gqr _ => "gqr"
  | .ps1 _ => "ps"
  | .lr => "lr"
  | .ctr => "ctr"
  | .xer => "xer"
  | .fpscr => "fpscr"

def number : Slot → String
  | .gpr i => toString i.val
  | .fpr i => toString i.val
  | .cr i => toString i.val
  | .gqr i => toString i.val
  | .ps1 i => "1" ++ toString i.val
  | _ => ""

def label (s : Slot) : String := s.word ++ s.number

theorem word_noDigits (s : Slot) : Only (fun c => !c.isDigit) s.word := by
  have hall : ∀ w ∈ ["r", "f", "cr", "gqr", "ps", "lr", "ctr", "xer", "fpscr"],
      Only (fun c => !c.isDigit) w := by decide
  cases s <;> exact hall _ (by simp [word])

theorem word_ne_empty (s : Slot) : s.word ≠ "" := by
  cases s <;> simp [word]

theorem number_digits (s : Slot) : Only Char.isDigit s.number := by
  cases s with
  | ps1 i =>
    intro c hc
    rw [number, String.toList_append, List.mem_append] at hc
    rcases hc with hc | hc
    · rw [List.mem_singleton.mp hc]
      decide
    · exact digits_toString _ c hc
  | gpr i => exact digits_toString _
  | fpr i => exact digits_toString _
  | cr i => exact digits_toString _
  | gqr i => exact digits_toString _
  | _ => simp [number, Only]

/-- **Different storage elements have different labels.** -/
theorem label_injective : Function.Injective label := by
  intro s t h
  have hstops : ∀ s : Slot, Stops (fun c => !c.isDigit) s.number.toList :=
    fun s => (number_digits s).stops (by simp)
  obtain ⟨hword, hnumber⟩ := word_append_inj (word_noDigits s) (word_noDigits t) (hstops s) (hstops t) h
  have hval : ∀ {n : Nat} {i j : Fin n}, toString i.val = toString j.val → i = j := by
    intro n i j hij
    have hnil : Stops Char.isDigit ("" : String).toList := stops_nil
    exact Fin.ext (number_append_inj hnil hnil (congrArg (· ++ "") hij)).1
  -- the words tell the register files apart
  cases s <;> cases t <;> first
    | (simp [word] at hword; done)
    | rfl
    | exact congrArg _ (hval hnumber)
    | exact congrArg _ (hval ((String.append_right_inj _).mp hnumber))

theorem stops_label (s : Slot) : Stops Char.isDigit s.label.toList :=
  stops_append ((word_noDigits s).stops (by simp)) s.word_ne_empty _

end Slot

theorem Slot.ofIndex_eq_some {n : Nat} {mk : Fin n → Slot} {v : Int} {slot : Slot}
    (h : ofIndex mk v = some slot) : ∃ i : Fin n, slot = mk i ∧ v = (i.val : Int) := by
  unfold ofIndex at h
  split at h
  · rename_i hv
    cases h
    exact ⟨_, rfl, (Int.toNat_of_nonneg hv.1).symm⟩
  · cases h

/-- **The label the code makes is that of the storage element.** -/
theorem cpuMemorySpace2label_eq {loc : CpuMemoryLocation} {slot : Slot}
    (h : loc.slot? = some slot) : cpuMemorySpace2label loc = .ok slot.label := by
  obtain ⟨space, v⟩ := loc
  unfold CpuMemoryLocation.slot? at h
  unfold cpuMemorySpace2label
  cases space with
  | SPR =>
    simp only [sprAlias] at h ⊢
    split at h
    · rename_i hv
      cases h
      rw [if_pos hv]
      rfl
    · rename_i hxer
      rw [if_neg hxer]
      split at h
      · rename_i hv
        cases h
        rw [if_pos hv]
        rfl
      · rename_i hlr
        rw [if_neg hlr]
        split at h
        · rename_i hv
          cases h
          rw [if_pos hv]
          rfl
        · rename_i hctr
          rw [if_neg hctr]
          split at h
          · rename_i hv
            obtain ⟨i, rfl, hi⟩ := Slot.ofIndex_eq_some h
            rw [if_pos hv, hi]
            rfl
          · cases h
  | PS1 =>
    obtain ⟨i, rfl, rfl⟩ := Slot.ofIndex_eq_some h
    rw [Slot.label, Slot.word, Slot.number, ← String.append_assoc]
    rfl
  | _ =>
    obtain ⟨i, rfl, rfl⟩ := Slot.ofIndex_eq_some h
    rfl

/-! ### Node ids -/

inductive NodeClass where
  | functionInput | immediate | reference | callReturn | result | sink | ret | phi
deriving DecidableEq, Repr

namespace NodeClass

/-- What a node id begins with. -/
def word : NodeClass → String
  | .functionInput => "funcinput"
  | .immediate => "imm"
  | .reference => "ref"
  | .callReturn => "callret"
  | .result => "res"
  | .sink => "sink"
  | .ret => "return"
  | .phi => "phi"

theorem word_injective : Function.Injective word := by
  intro c d h
  cases c <;> cases d <;> first
    | (simp [word] at h; done)
    | rfl

theorem word_plain (c : NodeClass) : Spans.Only (· != '_') c.word := by
  cases c <;> decide

end NodeClass

namespace NodeKind

def nodeClass : NodeKind → NodeClass
  | .functionInput _ _ => .functionInput
  | .immediate _ _ _ => .immediate
  | .reference _ _ _ => .reference
  | .callReturn _ _ => .callReturn
  | .result _ _ _ => .result
  | .sink _ => .sink
  | .ret _ _ => .ret
  | .phi _ _ => .phi

def opindex? : NodeKind → Option Nat
  | .immediate _ opindex _ => some opindex
  | .reference _ opindex _ => some opindex
  | .result _ opindex _ => some opindex
  | _ => none

/-- The storage element the node's register is. -/
def register? (kind : NodeKind) : Option Slot :=
  kind.cpuMemoryLocation?.bind CpuMemoryLocation.slot?

/-- Nodes that differ neither in class, nor in instruction, operand or register. -/
structure SamePlace (kind kind' : NodeKind) : Prop where
  nodeClass : kind.nodeClass = kind'.nodeClass
  index : kind.index = kind'.index
  opindex : kind.opindex? = kind'.opindex?
  register : kind.register? = kind'.register?

/-- What `getNodeId` tells of a node: its class, and its instruction or its register or
both. -/
def told (kind : NodeKind) : NodeClass × Option Nat × Option Slot :=
  match kind with
  | .functionInput index _ => (.functionInput, some index, kind.register?)
  | .callReturn index _ => (.callReturn, some index, kind.register?)
  | .ret _ _ => (.ret, none, kind.register?)
  | _ => (kind.nodeClass, some kind.index, none)

/-- What follows the word of the class in a node id. -/
def tail (kind : NodeKind) : String :=
  let label := (kind.register?.map Slot.label).getD ""
  match kind with
  | .functionInput index _ => "_insn" ++ (toString index ++ label)
  | .callReturn index _ => "_insn" ++ (toString index ++ ("op" ++ label))
  | .ret _ _ => "_" ++ label
  | .sink index => "_insn" ++ toString index
  | _ => "_insn" ++ (toString kind.index ++ ("op" ++ toString kind.index))

theorem Located.label_eq {kind : NodeKind} {loc : CpuMemoryLocation} (h : kind.Located)
    (hloc : kind.cpuMemoryLocation? = some loc) : ∃ slot, kind.register? = some slot ∧
      cpuMemorySpace2label loc = .ok slot.label := by
  obtain ⟨slot, hslot⟩ := h loc hloc
  exact ⟨slot, by rw [register?, hloc, Option.bind_some, hslot], cpuMemorySpace2label_eq hslot⟩

open DfgVisualizer in
theorem getNodeId_eq {kind : NodeKind} (h : kind.Located) :
    getNodeId kind = .ok (kind.nodeClass.word ++ kind.tail) := by
  cases kind with
  | functionInput i loc =>
    obtain ⟨slot, hslot, hlabel⟩ := h.label_eq rfl
    simp only [getNodeId, hlabel, tail, hslot, Option.map_some, Option.getD_some,
      ← String.append_assoc]
    rfl
  | callReturn i loc =>
    obtain ⟨slot, hslot, hlabel⟩ := h.label_eq rfl
    simp only [getNodeId, hlabel, tail, hslot, Option.map_some, Option.getD_some,
      ← String.append_assoc]
    rfl
  | ret i loc =>
    obtain ⟨slot, hslot, hlabel⟩ := h.label_eq rfl
    simp only [getNodeId, hlabel, tail, hslot, Option.map_some, Option.getD_some,
      ← String.append_assoc]
    rfl
  | _ =>
    simp only [getNodeId, tail, ← String.append_assoc]
    rfl

theorem stops_tail (kind : NodeKind) : Spans.Stops (· != '_') kind.tail.toList := by
  cases kind <;> exact Spans.stops_append (by decide) (by decide) _

/-- A number with its copy behind it. -/
theorem doubled_inj {i j : Nat}
    (h : toString i ++ ("op" ++ toString i) = toString j ++ ("op" ++ toString j)) : i = j :=
  (Spans.number_append_inj (Spans.stops_append (by decide) (by decide) _)
    (Spans.stops_append (by decide) (by decide) _) h).1

/-- The labels of two nodes with registers. -/
theorem Located.register_eq {kind kind' : NodeKind} {loc loc' : CpuMemoryLocation}
    (h : kind.Located) (h' : kind'.Located) (hloc : kind.cpuMemoryLocation? = some loc)
    (hloc' : kind'.cpuMemoryLocation? = some loc')
    (hlabels : (kind.register?.map Slot.label).getD "" =
      (kind'.register?.map Slot.label).getD "") : kind.register? = kind'.register? := by
  obtain ⟨slot, hslot, _⟩ := h.label_eq hloc
  obtain ⟨slot', hslot', _⟩ := h'.label_eq hloc'
  rw [hslot, hslot'] at hlabels ⊢
  exact congrArg some (Slot.label_injective hlabels)

/-- The label of a node with a register starts with a letter. -/
theorem Located.stops_label {kind : NodeKind} {loc : CpuMemoryLocation} (h : kind.Located)
    (hloc : kind.cpuMemoryLocation? = some loc) :
    Spans.Stops Char.isDigit ((kind.register?.map Slot.label).getD "").toList := by
  obtain ⟨slot, hslot, _⟩ := h.label_eq hloc
  rw [hslot]
  exact slot.stops_label

theorem told_of_tail {kind kind' : NodeKind} (h : kind.Located) (h' : kind'.Located)
    (hclass : kind.nodeClass = kind'.nodeClass) (htail : kind.tail = kind'.tail) :
    kind.told = kind'.told := by
  have hcancel : ∀ {w s t : String}, w ++ s = w ++ t → s = t :=
    fun hst => (String.append_right_inj _).mp hst
  cases kind with
  | functionInput i loc =>
    cases kind' <;> first | (cases hclass; done) | skip
    obtain ⟨rfl, hlabel⟩ := Spans.number_append_inj (h.stops_label rfl) (h'.stops_label rfl)
      (hcancel htail)
    simp only [told, h.register_eq h' rfl rfl hlabel]
  | callReturn i loc =>
    cases kind' <;> first | (cases hclass; done) | skip
    obtain ⟨rfl, hlabel⟩ := Spans.number_append_inj (Spans.stops_append (by decide) (by decide) _)
      (Spans.stops_append (by decide) (by decide) _) (hcancel htail)
    simp only [told, h.register_eq h' rfl rfl (hcancel hlabel)]
  | ret i loc =>
    cases kind' <;> first | (cases hclass; done) | skip
    simp only [told, h.register_eq h' rfl rfl (hcancel htail)]
  | sink i =>
    cases kind' <;> first | (cases hclass; done) | skip
    have hnil : Spans.Stops Char.isDigit ("" : String).toList := Spans.stops_nil
    obtain ⟨rfl, _⟩ := Spans.number_append_inj hnil hnil (congrArg (· ++ "") (hcancel htail))
    rfl
  | _ =>
    cases kind' <;> first | (cases hclass; done) | skip
    obtain rfl := doubled_inj (hcancel htail)
    rfl

theorem tail_of_told {kind kind' : NodeKind} (h : kind.told = kind'.told) :
    kind.nodeClass = kind'.nodeClass ∧ kind.tail = kind'.tail := by
  have hfst : ∀ kind : NodeKind, kind.told.1 = kind.nodeClass := fun kind => by cases kind <;> rfl
  have hclass : kind.nodeClass = kind'.nodeClass := by rw [← hfst, h, hfst]
  refine ⟨hclass, ?_⟩
  cases kind <;> cases kind' <;> first
    | (cases hclass; done)
    | (simp only [told, index, register?, cpuMemoryLocation?, Prod.mk.injEq, Option.some.injEq] at h
       simp only [tail, index, register?, cpuMemoryLocation?, h])

/-- **Two nodes have the same id iff it tells the same of them.** -/
theorem getNodeId_eq_iff {kind kind' : NodeKind} (h : kind.Located) (h' : kind'.Located) :
    ∃ id id', DfgVisualizer.getNodeId kind = .ok id ∧ DfgVisualizer.getNodeId kind' = .ok id' ∧
      (id = id' ↔ kind.told = kind'.told) := by
  refine ⟨_, _, getNodeId_eq h, getNodeId_eq h', fun heq => ?_, fun heq => ?_⟩
  · obtain ⟨hword, htail⟩ := Spans.word_append_inj kind.nodeClass.word_plain
      kind'.nodeClass.word_plain kind.stops_tail kind'.stops_tail heq
    exact told_of_tail h h' (NodeClass.word_injective hword) htail
  · obtain ⟨hclass, htail⟩ := tail_of_told heq
    rw [hclass, htail]

end NodeKind

namespace DataFlowAnalysis
open ControlFlowGraph DfgVisualizer

/-- Nodes a sink depends on that differ in class, instruction, operand or register have
different node ids. -/
def IdsUnique (st : State) : Prop :=
  ∀ x y kind kind', DependedOn st x → DependedOn st y → st.heap.kind? x = some kind →
    st.heap.kind? y = some kind' → ¬ kind.SamePlace kind' →
    ∃ id id', getNodeId kind = .ok id ∧ getNodeId kind' = .ok id' ∧ id ≠ id'

/-- Nothing happens that node ids do not tell. -/
structure ToldApart (S : Subject) (g : ControlFlowGraph) (st : State) : Prop where
  /-- No sink depends on an instruction with two immediate operands or two references. -/
  operands : ∀ x pc opcode insnUD, DependedOn st x →
    (st.heap.kind? x).bind NodeKind.builtFor = some pc → S.decode pc = .ok (opcode, insnUD) →
    insnUD.imms.length ≤ 1 ∧ insnUD.refs.length ≤ 1
  /-- No sinks depend on two outputs of one instruction. -/
  results : ∀ x y pc i j loc loc', DependedOn st x → DependedOn st y →
    st.heap.kind? x = some (.result pc i loc) → st.heap.kind? y = some (.result pc j loc') → i = j
  /-- No sinks depend on phi nodes of two registers at one instruction. -/
  phis : ∀ x y pc loc loc', DependedOn st x → DependedOn st y →
    st.heap.kind? x = some (.phi pc loc) → st.heap.kind? y = some (.phi pc loc') →
    loc.slot? = loc'.slot?
  /-- No return register has definitions that reach the ends of two exit blocks. -/
  returns : ∀ b c x y, g.Internal b x → g.Internal c y → x.isExit = true → y.isExit = true →
    x.stop ≠ y.stop → ∀ loc ∈ definedByCall, ∀ slot, loc.slot? = some slot →
    ¬ ((∃ d, S.ReachesEnd g slot d b) ∧ ∃ d, S.ReachesEnd g slot d c)

section
variable {S : Subject} {H : HashOrder} {g : ControlFlowGraph} {σ : Nat → State} {N : Nat}
  {fuel : Nat} {st : State}

theorem Trace.named (h : Trace S H g σ N) {x : NodeId} {kind : NodeKind}
    (hx : (σ N).heap.kind? x = some kind) : kind.Located ∧ kind.Listed S := by
  obtain ⟨node, hnode, rfl⟩ := Option.map_eq_some_iff.mp hx
  exact h.located_listed (le_refl N) node (List.mem_of_getElem? hnode)

/-- Node ids are unique iff they tell enough. -/
theorem Trace.idsUnique_iff (h : Trace S H g σ N) : IdsUnique (σ N) ↔
    ∀ x y kind kind', DependedOn (σ N) x → DependedOn (σ N) y →
      (σ N).heap.kind? x = some kind → (σ N).heap.kind? y = some kind' → kind.told = kind'.told →
      kind.SamePlace kind' := by
  refine forall_congr' fun x => forall_congr' fun y => forall_congr' fun kind =>
    forall_congr' fun kind' => imp_congr_right fun _ => imp_congr_right fun _ =>
    forall_congr' fun hkind => forall_congr' fun hkind' => ?_
  obtain ⟨id, id', hid, hid', hiff⟩ :=
    NodeKind.getNodeId_eq_iff (h.named hkind).1 (h.named hkind').1
  constructor
  · intro hunique htold
    by_contra hnot
    obtain ⟨_, _, hok, hok', hne⟩ := hunique hnot
    rw [hid, Except.ok.injEq] at hok
    rw [hid', Except.ok.injEq] at hok'
    exact hne (hok ▸ hok' ▸ hiff.mpr htold)
  · intro hsame hnot
    exact ⟨id, id', hid, hid', fun heq => hnot (hsame (hiff.mp heq))⟩

/-- A return value a sink depends on is that of an exit block. -/
theorem Trace.returned_of_kind (h : Trace S H g σ N)
    (hcfa : ControlFlowAnalysis.functionCFA S = .ok g) (hend : (σ N).worklist = []) {x : NodeId}
    {i : Nat} {loc : CpuMemoryLocation} (hx : DependedOn (σ N) x)
    (hkind : (σ N).heap.kind? x = some (.ret i loc)) : ∃ b block, g.Internal b block ∧
      block.isExit = true ∧ i = block.stop ∧ loc ∈ definedByCall ∧
      ∃ slot d, loc.slot? = some slot ∧ S.ReachesEnd g slot d b := by
  obtain ⟨b, hmem⟩ := h.sink_of_return hx hkind
  obtain ⟨hreturned, hret⟩ := (h.returning (le_refl N) b).returnOf hmem hkind
  obtain ⟨hcall, ⟨block, hblock, hexit⟩, hreach⟩ :=
    (h.mem_returned_iff (ControlFlowAnalysis.functionCFA_wellFormed S hcfa) hend).mp hreturned
  obtain ⟨hstop, _⟩ := NodeKind.ret.inj (Option.some.inj (hkind.symm.trans hret.kind))
  exact ⟨b, block, hblock, hexit, by rw [hstop, stopOf, Internal.block_eq hblock], hcall, hreach⟩

/-- An instruction that lists one operand of a class has one index for it. -/
theorem index_eq_of_decode {α : Type} (operands : InstructionUD → List α) {pc i j : Nat} {a b : α}
    (hone : ∀ opcode insnUD, S.decode pc = .ok (opcode, insnUD) → (operands insnUD).length ≤ 1)
    (hi : ∃ opcode insnUD, S.decode pc = .ok (opcode, insnUD) ∧ (operands insnUD)[i]? = some a)
    (hj : ∃ opcode insnUD, S.decode pc = .ok (opcode, insnUD) ∧ (operands insnUD)[j]? = some b) :
    i = j := by
  obtain ⟨opcode, insnUD, hdecode, hi⟩ := hi
  obtain ⟨opcode', insnUD', hdecode', hj⟩ := hj
  obtain ⟨rfl, rfl⟩ := Prod.mk.inj (Except.ok.inj (hdecode.symm.trans hdecode'))
  have hlength := hone opcode insnUD hdecode
  have hlt := (List.getElem?_eq_some_iff.mp hi).1
  have hlt' := (List.getElem?_eq_some_iff.mp hj).1
  omega

/-- Two operands of one instruction are the same one, if it has no two. -/
theorem Trace.operand_eq (h : Trace S H g σ N) (hcfa : ControlFlowAnalysis.functionCFA S = .ok g)
    (hok : functionDFA S H g fuel = .ok (σ N)) (hapart : ToldApart S g (σ N)) {x y : NodeId}
    {kind kind' : NodeKind} (hx : DependedOn (σ N) x) (hkind : (σ N).heap.kind? x = some kind)
    (hkind' : (σ N).heap.kind? y = some kind') (hop : kind.isOperand = true)
    (hclass : kind.nodeClass = kind'.nodeClass) (hindex : kind.index = kind'.index) :
    kind.opindex? = kind'.opindex? := by
  obtain ⟨z, hz, hbuilt⟩ := h.exists_owner hcfa hok hx hkind hop
  have hone := fun opcode insnUD => hapart.operands z _ opcode insnUD hz hbuilt
  have hlisted := (h.named hkind).2
  have hlisted' := (h.named hkind').2
  cases kind with
  | immediate pc i value =>
    cases kind' <;> first | (cases hclass; done) | skip
    obtain rfl : pc = _ := hindex
    exact congrArg some (index_eq_of_decode InstructionUD.imms
      (fun opcode insnUD hdecode => (hone opcode insnUD hdecode).1) hlisted hlisted')
  | reference pc i reloc =>
    cases kind' <;> first | (cases hclass; done) | skip
    obtain rfl : pc = _ := hindex
    exact congrArg some (index_eq_of_decode InstructionUD.refs
      (fun opcode insnUD hdecode => (hone opcode insnUD hdecode).2) hlisted hlisted')
  | _ => cases hop

/-- Where nothing happens that node ids do not tell, they tell nodes apart. -/
theorem Trace.samePlace_of_told (h : Trace S H g σ N)
    (hcfa : ControlFlowAnalysis.functionCFA S = .ok g) (hok : functionDFA S H g fuel = .ok (σ N))
    (hapart : ToldApart S g (σ N)) {x y : NodeId} {kind kind' : NodeKind}
    (hx : DependedOn (σ N) x) (hy : DependedOn (σ N) y) (hkind : (σ N).heap.kind? x = some kind)
    (hkind' : (σ N).heap.kind? y = some kind') (htold : kind.told = kind'.told) :
    kind.SamePlace kind' := by
  have hclass := (NodeKind.tail_of_told htold).1
  cases kind with
  | functionInput i loc =>
    cases kind' <;> first | (cases hclass; done) | skip
    simp only [NodeKind.told, Prod.mk.injEq, Option.some.injEq] at htold
    exact ⟨hclass, htold.2.1, rfl, htold.2.2⟩
  | callReturn i loc =>
    cases kind' <;> first | (cases hclass; done) | skip
    simp only [NodeKind.told, Prod.mk.injEq, Option.some.injEq] at htold
    exact ⟨hclass, htold.2.1, rfl, htold.2.2⟩
  | sink i =>
    cases kind' <;> first | (cases hclass; done) | skip
    simp only [NodeKind.told, Prod.mk.injEq, Option.some.injEq] at htold
    exact ⟨hclass, htold.2.1, rfl, rfl⟩
  | phi i loc =>
    cases kind' <;> first | (cases hclass; done) | skip
    simp only [NodeKind.told, Prod.mk.injEq, Option.some.injEq] at htold
    obtain rfl : i = _ := htold.2.1
    exact ⟨hclass, rfl, rfl, hapart.phis x y i loc _ hx hy hkind hkind'⟩
  | immediate i k value =>
    cases kind' <;> first | (cases hclass; done) | skip
    simp only [NodeKind.told, Prod.mk.injEq, Option.some.injEq] at htold
    exact ⟨hclass, htold.2.1,
      h.operand_eq hcfa hok hapart hx hkind hkind' rfl hclass htold.2.1, rfl⟩
  | reference i k reloc =>
    cases kind' <;> first | (cases hclass; done) | skip
    simp only [NodeKind.told, Prod.mk.injEq, Option.some.injEq] at htold
    exact ⟨hclass, htold.2.1,
      h.operand_eq hcfa hok hapart hx hkind hkind' rfl hclass htold.2.1, rfl⟩
  | result i k loc =>
    cases kind' <;> first | (cases hclass; done) | skip
    simp only [NodeKind.told, Prod.mk.injEq, Option.some.injEq] at htold
    obtain rfl : i = _ := htold.2.1
    obtain rfl := hapart.results x y i k _ loc _ hx hy hkind hkind'
    -- an output of an instruction is one register
    obtain ⟨opcode, insnUD, hdecode, hk⟩ := (h.named hkind).2
    obtain ⟨opcode', insnUD', hdecode', hk'⟩ := (h.named hkind').2
    obtain ⟨rfl, rfl⟩ := Prod.mk.inj (Except.ok.inj (hdecode.symm.trans hdecode'))
    obtain rfl := Option.some.inj (hk.symm.trans hk')
    exact ⟨rfl, rfl, rfl, rfl⟩
  | ret i loc =>
    cases kind' <;> first | (cases hclass; done) | skip
    simp only [NodeKind.told, Prod.mk.injEq] at htold
    have hend := worklist_of_ok hok
    obtain ⟨b, block, hblock, hexit, rfl, hcall, slot, d, hslot, hd⟩ :=
      h.returned_of_kind hcfa hend hx hkind
    obtain ⟨c, block', hblock', hexit', rfl, _, slot', d', hslot', hd'⟩ :=
      h.returned_of_kind hcfa hend hy hkind'
    refine ⟨hclass, ?_, rfl, htold.2.2⟩
    have hregister := htold.2.2
    simp only [NodeKind.register?, NodeKind.cpuMemoryLocation?, Option.bind_some, hslot, hslot',
      Option.some.injEq] at hregister
    subst hregister
    by_contra hne
    exact hapart.returns b c block block' hblock hblock' hexit hexit' hne loc hcall slot hslot
      ⟨⟨d, hd⟩, d', hd'⟩

/-- Where node ids tell nodes apart, nothing happens that they do not tell. -/
theorem Trace.toldApart (h : Trace S H g σ N) (hcfa : ControlFlowAnalysis.functionCFA S = .ok g)
    (hend : (σ N).worklist = [])
    (hsame : ∀ x y kind kind', DependedOn (σ N) x → DependedOn (σ N) y →
      (σ N).heap.kind? x = some kind → (σ N).heap.kind? y = some kind' → kind.told = kind'.told →
      kind.SamePlace kind') : ToldApart S g (σ N) where
  operands x pc opcode insnUD hx hbuilt hdecode := by
    have hoperands := h.haveOperands hbuilt hdecode
    constructor
    · by_contra htwo
      obtain ⟨y, hy, hkind⟩ := hoperands.immediates 0 _ (List.getElem?_eq_getElem (by omega))
      obtain ⟨z, hz, hkind'⟩ := hoperands.immediates 1 _ (List.getElem?_eq_getElem (by omega))
      exact absurd (hsame y z _ _ (.input hx hy) (.input hx hz) hkind hkind' rfl).opindex (by
        simp [NodeKind.opindex?])
    · by_contra htwo
      obtain ⟨y, hy, hkind⟩ := hoperands.references 0 _ (List.getElem?_eq_getElem (by omega))
      obtain ⟨z, hz, hkind'⟩ := hoperands.references 1 _ (List.getElem?_eq_getElem (by omega))
      exact absurd (hsame y z _ _ (.input hx hy) (.input hx hz) hkind hkind' rfl).opindex (by
        simp [NodeKind.opindex?])
  results x y pc i j loc loc' hx hy hkind hkind' :=
    Option.some.inj (hsame x y _ _ hx hy hkind hkind' rfl).opindex
  phis x y pc loc loc' hx hy hkind hkind' := (hsame x y _ _ hx hy hkind hkind' rfl).register
  returns b c block block' hblock hblock' hexit hexit' hne loc hcall slot hslot hboth := by
    obtain ⟨⟨d, hd⟩, d', hd'⟩ := hboth
    have hw := ControlFlowAnalysis.functionCFA_wellFormed S hcfa
    have hret : ∀ {b block d}, g.Internal b block → block.isExit = true →
        S.ReachesEnd g slot d b → ∃ x, DependedOn (σ N) x ∧
          (σ N).heap.kind? x = some (.ret block.stop loc) := by
      intro b block d hblock hexit hd
      have hreturned := (h.mem_returned_iff hw hend).mpr
        ⟨hcall, ⟨block, hblock, hexit⟩, slot, d, hslot, hd⟩
      obtain ⟨x, hx, hof⟩ := (h.returning (le_refl N) b).exists_returnOf hreturned
      refine ⟨x, .sink hx, ?_⟩
      rw [hof.kind, stopOf, Internal.block_eq hblock]
    obtain ⟨x, hx, hkind⟩ := hret hblock hexit hd
    obtain ⟨y, hy, hkind'⟩ := hret hblock' hexit' hd'
    exact hne (hsame x y _ _ hx hy hkind hkind' rfl).index

/-- **Different nodes have different node ids iff nothing happens that node ids do not
tell**: no two immediate operands or two references of one instruction, no two outputs of
one instruction, no phi nodes of two registers at one instruction, and no register that
is returned by two exit blocks. -/
theorem functionDFA_idsUnique_iff (hcfa : ControlFlowAnalysis.functionCFA S = .ok g)
    (hok : functionDFA S H g fuel = .ok st) : IdsUnique st ↔ ToldApart S g st := by
  obtain ⟨σ, N, h, _, rfl, hend⟩ := functionDFA_ok_iff.mp hok
  rw [h.idsUnique_iff]
  constructor
  · intro hsame
    exact h.toldApart hcfa hend hsame
  · intro hapart x y kind kind' hx hy hkind hkind' htold
    exact h.samePlace_of_told hcfa hok hapart hx hy hkind hkind' htold

end

end DataFlowAnalysis

open DataFlowAnalysis

/-- `li r3,1; blr`. -/
def returnsOne : Subject := assembledSubject [0x38600001, 0x4e800020] 2 (by decide)

theorem functionDFA_idsUnique_iff_returnsOne : ∃ g st,
    ControlFlowAnalysis.functionCFA returnsOne = .ok g ∧
      functionDFA returnsOne .ascending g 8 = .ok st ∧
      (IdsUnique st ↔ ToldApart returnsOne g st) := by
  obtain ⟨g, st, _, _, hcfa, hok, _⟩ := exists_run returnsOne .ascending 8 (by decide +kernel)
  exact ⟨g, st, hcfa, hok, functionDFA_idsUnique_iff hcfa hok⟩

theorem returnsOne_analysable : returnsOne.Analysable :=
  assembledSubject_analysable (by decide) (by decide) (by decide +kernel) (by decide +kernel)

/-- The `li` is `addi r3,0,1` and has the immediate operands 0 and 1. Both are the vertex
`imm_insn0op0`. -/
theorem returnsOne_merged : ¬ ∀ (S : Subject) (H : HashOrder) (g : ControlFlowGraph) (fuel : Nat)
    (st : State), S.Analysable → ControlFlowAnalysis.functionCFA S = .ok g →
      functionDFA S H g fuel = .ok st → IdsUnique st := by
  intro hall
  obtain ⟨g, hcfa, hrun⟩ := exists_ok (p := fun g =>
    returns (functionDFA returnsOne .ascending g 8) fun st => decide (
      ∃ x ∈ st.blockSinks 0, ∃ y ∈ st.heap.inputs x, ∃ z ∈ st.heap.inputs y,
        ∃ w ∈ st.heap.inputs y, st.heap.kind? z = some (.immediate 0 0 0) ∧
          st.heap.kind? w = some (.immediate 0 1 1)))
    (x := ControlFlowAnalysis.functionCFA returnsOne) (by decide +kernel)
  obtain ⟨st, hok, hcheck⟩ := exists_ok hrun
  obtain ⟨x, hx, y, hy, z, hz, w, hw, hkind, hkind'⟩ := of_decide_eq_true hcheck
  have hdep : DependedOn st y := .input (.sink hx) hy
  obtain ⟨id, id', hid, hid', hne⟩ := hall returnsOne .ascending g 8 st returnsOne_analysable hcfa
    hok z w _ _ (.input hdep hz) (.input hdep hw) hkind hkind' (fun hsame => by
      have hopindex := hsame.opindex
      simp [NodeKind.opindex?] at hopindex)
  exact hne (Except.ok.inj (hid.symm.trans hid'))

end Ppc2cpp
