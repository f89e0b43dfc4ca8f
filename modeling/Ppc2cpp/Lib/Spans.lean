import Mathlib.Tactic

/-! Text that is read back span by span.

A list that begins with elements of one sort and goes on with one of another sort says
where the first part ends (`append_inj`). Names that are put together from words and
decimal numbers are told apart that way: a number ends where a character that is no digit
follows (`number_append_inj`), and a word where a given character or a digit follows
(`word_append_inj`). -/
namespace Spans

section
variable {α : Type} {p : α → Bool} {xs ys r s : List α}

/-- The list does not go on with an element of the sort. -/
def Stops (p : α → Bool) (xs : List α) : Prop := ∀ x ∈ xs.head?, p x = false

instance (p : α → Bool) (xs : List α) : Decidable (Stops p xs) := by
  unfold Stops
  infer_instance

theorem stops_nil : Stops p [] := by simp [Stops]

theorem takeWhile_eq_nil (h : Stops p r) : r.takeWhile p = [] := by
  cases r with
  | nil => rfl
  | cons x r => rw [List.takeWhile_cons, h x (by simp), if_neg Bool.false_ne_true]

theorem append_inj (hx : ∀ x ∈ xs, p x = true) (hy : ∀ y ∈ ys, p y = true) (hr : Stops p r)
    (hs : Stops p s) (h : xs ++ r = ys ++ s) : xs = ys ∧ r = s := by
  have hspan := congrArg (List.takeWhile p) h
  rw [List.takeWhile_append_of_pos hx, List.takeWhile_append_of_pos hy, takeWhile_eq_nil hr,
    takeWhile_eq_nil hs, List.append_nil, List.append_nil] at hspan
  subst hspan
  exact ⟨rfl, List.append_cancel_left h⟩

end

/-- The text has only characters of the sort. -/
def Only (p : Char → Bool) (w : String) : Prop := ∀ c ∈ w.toList, p c = true

instance (p : Char → Bool) (w : String) : Decidable (Only p w) :=
  List.decidableBAll (fun c => p c = true) w.toList

theorem stops_append {p : Char → Bool} {w : String} (hw : Stops p w.toList) (hne : w ≠ "")
    (s : String) : Stops p (w ++ s).toList := by
  intro c hc
  rw [String.toList_append] at hc
  cases hlist : w.toList with
  | nil => exact absurd (String.toList_injective hlist) hne
  | cons d ds =>
    rw [hlist, List.cons_append, List.head?_cons] at hc
    rw [hlist] at hw
    exact hw c hc

/-- Characters of another sort. -/
theorem Only.stops {p q : Char → Bool} {w : String} (h : Only q w)
    (hpq : ∀ c, q c = true → p c = false) : Stops p w.toList :=
  fun c hc => hpq c (h c (List.mem_of_mem_head? hc))

theorem word_append_inj {p : Char → Bool} {v w r s : String} (hv : Only p v) (hw : Only p w)
    (hr : Stops p r.toList) (hs : Stops p s.toList) (h : v ++ r = w ++ s) : v = w ∧ r = s := by
  have hlist := congrArg String.toList h
  rw [String.toList_append, String.toList_append] at hlist
  obtain ⟨hwords, hrests⟩ := append_inj hv hw hr hs hlist
  exact ⟨String.toList_injective hwords, String.toList_injective hrests⟩

theorem only_append {p : Char → Bool} {v w : String} (hv : Only p v) (hw : Only p w) :
    Only p (v ++ w) := by
  intro c hc
  rw [String.toList_append, List.mem_append] at hc
  rcases hc with hc | hc
  · exact hv c hc
  · exact hw c hc

/-- A word and what follows is not what follows alone. -/
theorem word_append_ne {p : Char → Bool} {w r s : String} (hw : Only p w) (hne : w ≠ "")
    (hr : Stops p r.toList) (hs : Stops p s.toList) : w ++ r ≠ s := by
  intro h
  have hempty : Only p "" := fun c hc => absurd hc (List.not_mem_nil)
  exact hne (word_append_inj hw hempty hr hs (h.trans (String.empty_append).symm)).1

theorem intercalate_cons_append (sep w : String) (ws : List String) (r : String) :
    sep.intercalate (w :: ws) ++ r =
      w ++ if ws = [] then r else sep ++ (sep.intercalate ws ++ r) := by
  cases ws with
  | nil => rw [String.intercalate_singleton, if_pos rfl]
  | cons v ws =>
    rw [String.intercalate_cons_cons, if_neg (List.cons_ne_nil v ws), String.append_assoc,
      String.append_assoc]

/-- **Words with a separator between them** are read back as far as a mark that is no
separator. -/
theorem intercalate_append_inj {p : Char → Bool} {sep close : String}
    (hsep : ∀ r : String, Stops p (sep ++ r).toList)
    (hclose : ∀ r : String, Stops p (close ++ r).toList)
    (hdiffer : ∀ r s : String, sep ++ r ≠ close ++ s) {xs ys : List String} {r s : String}
    (hxs : ∀ x ∈ xs, Only p x ∧ x ≠ "") (hys : ∀ y ∈ ys, Only p y ∧ y ≠ "")
    (h : sep.intercalate xs ++ (close ++ r) = sep.intercalate ys ++ (close ++ s)) :
    xs = ys ∧ r = s := by
  have hstops : ∀ (ws : List String) (r : String), Stops p
      (if ws = [] then close ++ r else sep ++ (sep.intercalate ws ++ (close ++ r))).toList := by
    intro ws r
    split
    · exact hclose r
    · exact hsep _
  induction xs generalizing ys with
  | nil =>
    cases ys with
    | nil => exact ⟨rfl, (String.append_right_inj _).mp ((String.append_right_inj _).mp h)⟩
    | cons y ys =>
      obtain ⟨⟨hy, hne⟩, _⟩ := List.forall_mem_cons.mp hys
      rw [intercalate_cons_append, String.intercalate_nil, String.empty_append] at h
      exact absurd h.symm (word_append_ne hy hne (hstops ys s) (hclose r))
  | cons x xs ih =>
    obtain ⟨⟨hx, hne⟩, hxs⟩ := List.forall_mem_cons.mp hxs
    rw [intercalate_cons_append] at h
    cases ys with
    | nil =>
      rw [String.intercalate_nil, String.empty_append] at h
      exact absurd h (word_append_ne hx hne (hstops xs r) (hclose s))
    | cons y ys =>
      obtain ⟨⟨hy, _⟩, htail⟩ := List.forall_mem_cons.mp hys
      rw [intercalate_cons_append] at h
      obtain ⟨rfl, hrest⟩ := word_append_inj hx hy (hstops xs r) (hstops ys s) h
      split at hrest
      · rename_i hnil
        split at hrest
        · rename_i hnil'
          exact ⟨by rw [hnil, hnil'], (String.append_right_inj _).mp hrest⟩
        · exact absurd hrest.symm (hdiffer _ _)
      · split at hrest
        · exact absurd hrest (hdiffer _ _)
        · obtain ⟨rfl, hr⟩ := ih hxs htail ((String.append_right_inj _).mp hrest)
          exact ⟨rfl, hr⟩

theorem digits_toString (n : Nat) : Only Char.isDigit (toString n) := by
  intro c hc
  change c ∈ n.repr.toList at hc
  rw [Nat.toList_repr] at hc
  exact Nat.isDigit_of_mem_toDigits (by decide) (by decide) hc

theorem number_append_inj {n m : Nat} {r s : String} (hr : Stops Char.isDigit r.toList)
    (hs : Stops Char.isDigit s.toList) (h : toString n ++ r = toString m ++ s) : n = m ∧ r = s := by
  obtain ⟨hnumbers, hrests⟩ := word_append_inj (digits_toString n) (digits_toString m) hr hs h
  have hdigits := congrArg (fun w => Nat.ofDigitChars 10 w.toList 0) hnumbers
  exact ⟨by simpa [Nat.toString_eq_repr, Nat.toList_repr] using hdigits, hrests⟩

end Spans
