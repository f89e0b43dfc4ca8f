import Mathlib.Data.Finset.Card
import Mathlib.Logic.Relation

/-! Relations without cycles.

A relation that goes up along some rank has no cycle (`acyclic_of_rank`), and one without
a cycle that relates only finitely many elements has such a rank, below the number of
these elements (`Acyclic.exists_rank`). A recursion down an acyclic relation therefore is
no deeper than there are elements. -/
namespace Ranking

variable {α : Type} {r : α → α → Prop}

/-- Nothing is reached from itself. -/
def Acyclic (r : α → α → Prop) : Prop := ∀ x, ¬ Relation.TransGen r x x

theorem rank_lt_of_transGen {rank : α → Nat} (h : ∀ x y, r x y → rank x < rank y) {x y : α}
    (hxy : Relation.TransGen r x y) : rank x < rank y := by
  induction hxy with
  | single hr => exact h _ _ hr
  | tail _ hr ih => exact ih.trans (h _ _ hr)

theorem acyclic_of_rank {rank : α → Nat} (h : ∀ x y, r x y → rank x < rank y) : Acyclic r :=
  fun x hx => lt_irrefl (rank x) (rank_lt_of_transGen h hx)

/-- The rank of an element is how many there are below it. -/
theorem Acyclic.exists_rank (h : Acyclic r) (nodes : Finset α) (hnodes : ∀ x y, r x y → x ∈ nodes) :
    ∃ rank : α → Nat, (∀ x y, r x y → rank x < rank y) ∧ ∀ x ∈ nodes, rank x < nodes.card := by
  classical
  refine ⟨fun y => (nodes.filter fun x => Relation.TransGen r x y).card, ?_, ?_⟩
  · intro x y hr
    apply Finset.card_lt_card
    rw [Finset.ssubset_iff_of_subset]
    · -- `x` itself is below `y`
      refine ⟨x, ?_, ?_⟩
      · exact Finset.mem_filter.mpr ⟨hnodes x y hr, .single hr⟩
      · exact fun hx => h x (Finset.mem_filter.mp hx).2
    · intro z hz
      obtain ⟨hmem, hzx⟩ := Finset.mem_filter.mp hz
      exact Finset.mem_filter.mpr ⟨hmem, hzx.tail hr⟩
  · intro x hx
    apply Finset.card_lt_card
    rw [Finset.ssubset_iff_of_subset (Finset.filter_subset _ _)]
    exact ⟨x, hx, fun hmem => h x (Finset.mem_filter.mp hmem).2⟩

end Ranking
