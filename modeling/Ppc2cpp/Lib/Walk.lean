import Mathlib.Logic.Relation

/-! Recursions over a graph that do not look where they have been.

From a node such a recursion goes to each child, and from there again to the children, and
meets a node once for every path to it. Where ranks go down from a node to its children it
ends, and it lists something iff a node that is reached has it (`mem_listing_iff`). -/
namespace Walk

variable {α β : Type}

/-- There is a path from a node to another. -/
def Reaches (kids : α → List α) : α → α → Prop := Relation.ReflTransGen fun x y => y ∈ kids x

/-- What a node has, and then what there is from each of its children on. -/
def listing (own : α → List β) (kids : α → List α) : (depth : Nat) → α → List β
  | 0, _ => []
  | depth + 1, x => own x ++ (kids x).flatMap (listing own kids depth)

section
variable {own : α → List β} {kids : α → List α} {depth : Nat} {x y : α}

theorem Reaches.of_kid {z : α} (hz : z ∈ kids x) (h : Reaches kids z y) : Reaches kids x y :=
  Relation.ReflTransGen.head hz h

/-- Everything reached is the node itself or reached from a child. -/
theorem reaches_iff : Reaches kids x y ↔ y = x ∨ ∃ z ∈ kids x, Reaches kids z y := by
  constructor
  · intro h
    rcases Relation.ReflTransGen.cases_head h with heq | ⟨z, hz, hrest⟩
    · exact .inl heq.symm
    · exact .inr ⟨z, hz, hrest⟩
  · intro h
    rcases h with rfl | ⟨z, hz, hrest⟩
    · exact .refl
    · exact .of_kid hz hrest

/-- **A recursion that is deep enough lists what the nodes have that are reached.** -/
theorem mem_listing_iff (rank : α → Nat) (hrank : ∀ x, ∀ y ∈ kids x, rank y < rank x)
    (hx : rank x < depth) {b : β} :
    b ∈ listing own kids depth x ↔ ∃ y, Reaches kids x y ∧ b ∈ own y := by
  induction depth generalizing x with
  | zero => exact absurd hx (Nat.not_lt_zero _)
  | succ depth ih =>
    have hkid : ∀ z ∈ kids x, (b ∈ listing own kids depth z ↔ ∃ y, Reaches kids z y ∧ b ∈ own y) :=
      fun z hz => ih (Nat.lt_of_lt_of_le (hrank x z hz) (Nat.le_of_lt_succ hx))
    rw [listing, List.mem_append, List.mem_flatMap]
    constructor
    · intro h
      rcases h with hown | ⟨z, hz, hmem⟩
      · exact ⟨x, .refl, hown⟩
      · obtain ⟨y, hy, hown⟩ := (hkid z hz).mp hmem
        exact ⟨y, .of_kid hz hy, hown⟩
    · intro h
      obtain ⟨y, hy, hown⟩ := h
      rcases reaches_iff.mp hy with rfl | ⟨z, hz, hrest⟩
      · exact .inl hown
      · exact .inr ⟨z, hz, (hkid z hz).mpr ⟨y, hrest, hown⟩⟩

end

end Walk
