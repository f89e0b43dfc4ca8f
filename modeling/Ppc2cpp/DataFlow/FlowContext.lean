import Ppc2cpp.DataFlow.Node
import Ppc2cpp.ProgramLoader.Binary

/-! The definitions each storage element can hold at a point of the program.

A `FlowContext` has one set of nodes for each slot. The table lists the slots whose set
was touched; a slot that is not listed has the empty set. -/
namespace Ppc2cpp

/-- The storage element of a location, or the error the code raises. -/
def slotOf (loc : CpuMemoryLocation) : Except Error Slot :=
  match loc.slot? with
  | some slot => .ok slot
  | none =>
    if loc.memspace = .SPR then .error (.runtimeError ("Unknown SPR " ++ toString loc.value))
    else .error .outOfRange

structure FlowContext where
  entries : List (Slot × Definition) := []
deriving DecidableEq

namespace FlowContext
variable (c other : FlowContext)

def definition (s : Slot) : Definition := ((c.entries.find? fun e => e.1 == s).map Prod.snd).getD ∅

def setDefinition (s : Slot) (var : NodeId) : FlowContext :=
  ⟨(s, {var}) :: c.entries.filter fun e => e.1 != s⟩

def killDefinition (s : Slot) : FlowContext := ⟨c.entries.filter fun e => e.1 != s⟩

def contextUnion : FlowContext :=
  ⟨((c.entries.map Prod.fst ++ other.entries.map Prod.fst).dedup).map fun s =>
    (s, c.definition s ∪ other.definition s)⟩

/-- `FlowContextSizes`, in the order of `Slot.all`. -/
def getSizes : List Nat := Slot.all.map fun s => (c.definition s).card

@[simp] theorem definition_empty (s : Slot) : (⟨[]⟩ : FlowContext).definition s = ∅ := rfl

theorem definition_filter (s s' : Slot) :
    (⟨c.entries.filter fun e => e.1 != s⟩ : FlowContext).definition s' =
      if s = s' then ∅ else c.definition s' := by
  have hfind : (c.entries.filter fun e => e.1 != s).find? (fun e => e.1 == s') =
      c.entries.find? fun e => e.1 != s && e.1 == s' := by
    rw [List.find?_filter]
    simp only [Bool.decide_and, Bool.decide_eq_true]
  rw [definition, hfind]
  by_cases h : s = s'
  · subst h
    have hnone : c.entries.find? (fun e => e.1 != s && e.1 == s) = none := by
      rw [List.find?_eq_none]
      intro e _
      simp
    rw [hnone, if_pos rfl]
    rfl
  · have hsame : (fun e : Slot × Definition => e.1 != s && e.1 == s') = fun e => e.1 == s' := by
      funext e
      by_cases he : e.1 = s'
      · simp [he, Ne.symm h]
      · simp [he]
    rw [hsame, if_neg h]
    rfl

@[simp] theorem definition_killDefinition (s s' : Slot) :
    (c.killDefinition s).definition s' = if s = s' then ∅ else c.definition s' :=
  c.definition_filter s s'

@[simp] theorem definition_setDefinition (s s' : Slot) (var : NodeId) :
    (c.setDefinition s var).definition s' = if s = s' then {var} else c.definition s' := by
  by_cases h : s = s'
  · subst h
    simp [definition, setDefinition]
  · rw [if_neg h, ← if_neg (c := s = s') (t := (∅ : Definition)) (e := c.definition s') h,
      ← c.definition_filter s s']
    simp [definition, setDefinition, h]

/-- A slot that is not listed has the empty set. -/
theorem definition_of_not_mem {s : Slot} (h : s ∉ c.entries.map Prod.fst) :
    c.definition s = ∅ := by
  have hnone : c.entries.find? (fun e => e.1 == s) = none := by
    rw [List.find?_eq_none]
    intro e he heq
    exact h (List.mem_map.mpr ⟨e, he, by simpa using heq⟩)
  rw [definition, hnone]
  rfl

@[simp] theorem definition_contextUnion (s : Slot) :
    (c.contextUnion other).definition s = c.definition s ∪ other.definition s := by
  rw [definition, contextUnion, List.find?_map]
  by_cases h : s ∈ (c.entries.map Prod.fst ++ other.entries.map Prod.fst).dedup
  · have hfind : (c.entries.map Prod.fst ++ other.entries.map Prod.fst).dedup.find?
        ((fun e : Slot × Definition => e.1 == s) ∘ fun s =>
          (s, c.definition s ∪ other.definition s)) = some s := by
      obtain ⟨x, hx⟩ := Option.isSome_iff_exists.mp (List.find?_isSome.mpr ⟨s, h,
        show ((fun e : Slot × Definition => e.1 == s) ∘ fun s =>
          (s, c.definition s ∪ other.definition s)) s = true by simp⟩)
      have hxs := List.find?_some hx
      simp only [Function.comp, beq_iff_eq] at hxs
      rw [hx, hxs]
    rw [hfind]
    rfl
  · have hnone : (c.entries.map Prod.fst ++ other.entries.map Prod.fst).dedup.find?
        ((fun e : Slot × Definition => e.1 == s) ∘ fun s =>
          (s, c.definition s ∪ other.definition s)) = none := by
      rw [List.find?_eq_none]
      intro x hx heq
      simp only [Function.comp, beq_iff_eq] at heq
      exact h (heq ▸ hx)
    rw [List.mem_dedup, List.mem_append, not_or] at h
    rw [hnone, c.definition_of_not_mem h.1, other.definition_of_not_mem h.2]
    rfl

theorem getSizes_eq_iff : c.getSizes = other.getSizes ↔
    ∀ s, (c.definition s).card = (other.definition s).card := by
  rw [getSizes, getSizes, List.map_inj_left]
  exact ⟨fun h s => h s (Slot.mem_all s), fun h s _ => h s⟩

end FlowContext

end Ppc2cpp
