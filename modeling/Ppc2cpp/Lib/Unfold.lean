import Ppc2cpp.Lib.Matching

/-! Graphs unfolded.

Where every node has a rank above those of its children, a node unfolds to a finite tree
of labels, the same at every depth from its rank on. If nodes are compared by labels that
each has by itself, two nodes match iff their trees are equal (`unfold_eq_iff`). -/
namespace Matching

/-- A label with the trees below it. -/
inductive LabelTree (L : Type) where
  | node (label : L) (kids : List (LabelTree L))

variable {α β L : Type}

/-- The tree below a node, down to a depth. -/
def unfold (label : α → L) (kids : α → List α) : (depth : Nat) → α → LabelTree L
  | 0, x => .node (label x) []
  | depth + 1, x => .node (label x) ((kids x).map (unfold label kids depth))

/-- On the nodes with a property, which their children have, ranks go down. -/
structure Ranked (kids : α → List α) (P : α → Prop) (rank : α → Nat) : Prop where
  closed : ∀ x, P x → ∀ a ∈ kids x, P a
  below : ∀ x, P x → ∀ a ∈ kids x, rank a < rank x

section
variable {kids : α → List α} {P : α → Prop} {rank : α → Nat} {x : α}

theorem Ranked.kids_eq_nil (h : Ranked kids P rank) (hx : P x) (hrank : rank x = 0) :
    kids x = [] := by
  refine List.eq_nil_iff_forall_not_mem.mpr fun a ha => ?_
  have hlt := h.below x hx a ha
  omega

theorem Ranked.kid (h : Ranked kids P rank) (hx : P x) {depth : Nat} (hrank : rank x ≤ depth + 1)
    {a : α} (ha : a ∈ kids x) : P a ∧ rank a ≤ depth :=
  ⟨h.closed x hx a ha, Nat.le_of_lt_succ (lt_of_lt_of_le (h.below x hx a ha) hrank)⟩

end

section
variable {label : α → β → Prop} {label₁ : α → L} {label₂ : β → L} {kids₁ : α → List α}
  {kids₂ : β → List β} {P : α → Prop} {Q : β → Prop} {rank₁ : α → Nat} {rank₂ : β → Nat}

theorem map_eq_map_iff {f : α → LabelTree L} {g : β → LabelTree L} {xs : List α} {ys : List β} :
    xs.map f = ys.map g ↔ List.Forall₂ (fun x y => f x = g y) xs ys := by
  rw [← List.forall₂_eq_eq_eq, List.forall₂_map_left_iff, List.forall₂_map_right_iff]

theorem forall₂_congr {R T : α → β → Prop} {xs : List α} {ys : List β}
    (h : ∀ x ∈ xs, ∀ y ∈ ys, R x y ↔ T x y) : List.Forall₂ R xs ys ↔ List.Forall₂ T xs ys := by
  simp only [List.forall₂_iff_get]
  refine and_congr_right fun hlen => forall_congr' fun i => forall_congr' fun hx =>
    forall_congr' fun hy => h _ (List.get_mem xs ⟨i, hx⟩) _ (List.get_mem ys ⟨i, hy⟩)

/-- **Two nodes match iff they unfold to the same tree.** -/
theorem unfold_eq_iff (h₁ : Ranked kids₁ P rank₁) (h₂ : Ranked kids₂ Q rank₂)
    (hlabel : ∀ x, P x → ∀ y, Q y → (label x y ↔ label₁ x = label₂ y)) {depth₁ depth₂ : Nat} {x : α}
    {y : β} (hx : P x) (hy : Q y) (hrank₁ : rank₁ x ≤ depth₁) (hrank₂ : rank₂ y ≤ depth₂) :
    Match label kids₁ kids₂ x y ↔ unfold label₁ kids₁ depth₁ x = unfold label₂ kids₂ depth₂ y := by
  induction depth₁ generalizing depth₂ x y with
  | zero =>
    have hnil := h₁.kids_eq_nil hx (Nat.le_zero.mp hrank₁)
    rw [match_iff, hlabel x hx y hy, hnil, List.forall₂_nil_left_iff]
    cases depth₂ with
    | zero => simp [unfold, h₂.kids_eq_nil hy (Nat.le_zero.mp hrank₂)]
    | succ depth₂ =>
      rw [unfold, unfold, LabelTree.node.injEq, eq_comm (a := ([] : List (LabelTree L))), List.map_eq_nil_iff]
  | succ depth₁ ih =>
    rw [match_iff, hlabel x hx y hy]
    cases depth₂ with
    | zero =>
      rw [h₂.kids_eq_nil hy (Nat.le_zero.mp hrank₂), List.forall₂_nil_right_iff]
      simp [unfold]
    | succ depth₂ =>
      rw [unfold, unfold, LabelTree.node.injEq, map_eq_map_iff]
      refine and_congr_right fun _ => forall₂_congr fun a ha b hb => ?_
      obtain ⟨hPa, ha⟩ := h₁.kid hx hrank₁ ha
      obtain ⟨hQb, hb⟩ := h₂.kid hy hrank₂ hb
      exact ih hPa hQb ha hb

end

end Matching
