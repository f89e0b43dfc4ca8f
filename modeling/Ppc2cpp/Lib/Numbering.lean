import Mathlib.Tactic

/-! Elements of a list numbered by how many equal ones stand before.

The number of the element at `i` is `(xs.take i).count a`. An element and its number
determine its place (`place_unique`), and every number below the number of occurrences is
that of some place (`exists_place`). -/
namespace Numbering

variable {α : Type} [DecidableEq α] {xs : List α} {a : α} {i j c : Nat}

theorem count_take_lt (hi : xs[i]? = some a) (hij : i < j) :
    (xs.take i).count a < (xs.take j).count a := by
  have hprefix : xs.take (i + 1) <+: xs.take j := List.take_prefix_take_left hij
  have hnext : (xs.take (i + 1)).count a = (xs.take i).count a + 1 := by
    rw [List.take_add_one, hi, Option.toList, List.count_append, List.count_singleton_self]
  have hle := hprefix.sublist.count_le a
  omega

theorem place_unique (hi : xs[i]? = some a) (hj : xs[j]? = some a)
    (h : (xs.take i).count a = (xs.take j).count a) : i = j := by
  rcases Nat.lt_trichotomy i j with hlt | heq | hlt
  · have := count_take_lt hi hlt
    omega
  · exact heq
  · have := count_take_lt hj hlt
    omega

theorem exists_place (h : c < xs.count a) : ∃ i, xs[i]? = some a ∧ (xs.take i).count a = c := by
  induction xs using List.reverseRecOn with
  | nil => simp at h
  | append_singleton xs b ih =>
    rw [List.count_append] at h
    by_cases hc : c < xs.count a
    · obtain ⟨i, hi, hcount⟩ := ih hc
      have hlt : i < xs.length := (List.getElem?_eq_some_iff.mp hi).1
      refine ⟨i, ?_, ?_⟩
      · rw [List.getElem?_append_left hlt, hi]
      · rw [List.take_append_of_le_length (Nat.le_of_lt hlt), hcount]
    · -- only the last element is left for the number
      have hlast : b = a := by
        by_contra hne
        rw [List.count_singleton, beq_eq_false_iff_ne.mpr hne] at h
        simp at h
        omega
      subst hlast
      rw [List.count_singleton_self] at h
      have hcount : xs.count b = c := by omega
      refine ⟨xs.length, by simp, ?_⟩
      rw [List.take_left, hcount]

end Numbering
