import Mathlib.Tactic

/-! Loops that add to the end of a list they keep in their state.

If each round adds what is made of its element, the loop adds what is made of the elements,
in order. `view` is where in the state the list is, so the round may change the rest of the
state at will. -/
namespace Appending

variable {σ α β γ ε : Type} (view : σ → List β)

theorem view_foldl {f : σ → α → σ} {g : α → List β} (hf : ∀ s a, view (f s a) = view s ++ g a)
    (xs : List α) (s : σ) : view (xs.foldl f s) = view s ++ xs.flatMap g := by
  induction xs generalizing s with
  | nil => simp
  | cons x xs ih => rw [List.foldl_cons, ih, hf, List.flatMap_cons, List.append_assoc]

/-- Rounds that add nothing. -/
theorem view_foldl_of_kept {f : σ → α → σ} (hf : ∀ s a, view (f s a) = view s) (xs : List α)
    (s : σ) : view (xs.foldl f s) = view s := by
  induction xs generalizing s with
  | nil => rfl
  | cons x xs ih => rw [List.foldl_cons, ih, hf]

/-- A loop that may fail, whose state keeps to an invariant `I`, and what it adds stands in a
relation `Q` to what is expected of the elements. -/
theorem view_foldlM_of {f : σ → α → Except ε σ} {I : σ → Prop} {Q : List γ → List β → Prop}
    {g : α → List γ} (hnil : Q [] [])
    (happend : ∀ cs cs' bs bs', Q cs bs → Q cs' bs' → Q (cs ++ cs') (bs ++ bs'))
    (hf : ∀ s a s', I s → f s a = .ok s' →
      I s' ∧ ∃ added, Q (g a) added ∧ view s' = view s ++ added)
    {xs : List α} {s s' : σ} (hs : I s) (h : xs.foldlM f s = .ok s') :
    I s' ∧ ∃ added, Q (xs.flatMap g) added ∧ view s' = view s ++ added := by
  induction xs generalizing s with
  | nil =>
    cases h
    exact ⟨hs, [], hnil, (List.append_nil _).symm⟩
  | cons x xs ih =>
    rw [List.foldlM_cons] at h
    cases hx : f s x with
    | error e =>
      rw [hx] at h
      cases h
    | ok mid =>
      rw [hx] at h
      obtain ⟨hkept, first, hfirst, hmid⟩ := hf s x mid hs hx
      obtain ⟨hend, rest, hrest, hs'⟩ := ih hkept h
      refine ⟨hend, first ++ rest, happend _ _ _ _ hfirst hrest, ?_⟩
      rw [hs', hmid, List.append_assoc]

/-- The keys of what is added are those expected. -/
theorem keys_foldlM {f : σ → α → Except ε σ} {I : σ → Prop} {key : β → γ} {g : α → List γ}
    (hf : ∀ s a s', I s → f s a = .ok s' →
      I s' ∧ ∃ added, added.map key = g a ∧ view s' = view s ++ added)
    {xs : List α} {s s' : σ} (hs : I s) (h : xs.foldlM f s = .ok s') :
    I s' ∧ ∃ added, added.map key = xs.flatMap g ∧ view s' = view s ++ added :=
  view_foldlM_of view (Q := fun ks bs => bs.map key = ks) rfl
    (fun _ _ _ _ hfirst hrest => by rw [List.map_append, hfirst, hrest]) hf hs h

theorem view_foldlM {f : σ → α → Except ε σ} {R : γ → β → Prop} {g : α → List γ}
    (hf : ∀ s a s', f s a = .ok s' →
      ∃ added, List.Forall₂ R (g a) added ∧ view s' = view s ++ added)
    {xs : List α} {s s' : σ} (h : xs.foldlM f s = .ok s') :
    ∃ added, List.Forall₂ R (xs.flatMap g) added ∧ view s' = view s ++ added :=
  (view_foldlM_of view (I := fun _ => True) (Q := List.Forall₂ R) .nil
    (fun _ _ _ _ hfirst hrest => List.rel_append hfirst hrest)
    (fun s a s' _ ha => ⟨trivial, hf s a s' ha⟩) trivial h).2

/-- One element a round. -/
theorem view_foldlM_map {f : σ → α → Except ε σ} {R : α → β → Prop}
    (hf : ∀ s a s', f s a = .ok s' → ∃ b, R a b ∧ view s' = view s ++ [b])
    {xs : List α} {s s' : σ} (h : xs.foldlM f s = .ok s') :
    ∃ added, List.Forall₂ R xs added ∧ view s' = view s ++ added := by
  have hadded := view_foldlM view (g := fun a => [a]) (R := R) (fun s a s' ha => by
    obtain ⟨b, hb, hs'⟩ := hf s a s' ha
    exact ⟨[b], .cons hb .nil, hs'⟩) h
  rwa [List.flatMap_singleton'] at hadded

/-- Every round of a loop that succeeds has succeeded. -/
theorem round_of_foldlM {f : σ → α → Except ε σ} {xs : List α} {s s' : σ}
    (h : xs.foldlM f s = .ok s') : ∀ a ∈ xs, ∃ t t', f t a = .ok t' := by
  induction xs generalizing s with
  | nil =>
    intro a ha
    cases ha
  | cons x xs ih =>
    rw [List.foldlM_cons] at h
    cases hx : f s x with
    | error e =>
      rw [hx] at h
      cases h
    | ok mid =>
      rw [hx] at h
      intro a ha
      rcases List.mem_cons.mp ha with rfl | ha
      · exact ⟨s, mid, hx⟩
      · exact ih h a ha

/-- What each round does to the state the loop does, if doing nothing and then doing it again
are cases of it. -/
theorem rel_of_foldlM {f : σ → α → Except ε σ} {R : σ → σ → Prop} (hrefl : ∀ s, R s s)
    (htrans : ∀ s t u, R s t → R t u → R s u) (hf : ∀ s a s', f s a = .ok s' → R s s')
    {xs : List α} {s s' : σ} (h : xs.foldlM f s = .ok s') : R s s' := by
  induction xs generalizing s with
  | nil =>
    cases h
    exact hrefl _
  | cons x xs ih =>
    rw [List.foldlM_cons] at h
    cases hx : f s x with
    | error e =>
      rw [hx] at h
      cases h
    | ok mid =>
      rw [hx] at h
      exact htrans s mid s' (hf s x mid hx) (ih h)

/-- What a round achieves for its element, and no round undoes, is so for every element in
the end. -/
theorem forall_of_foldlM {f : σ → α → Except ε σ} {I : σ → Prop} {Q : α → σ → Prop}
    (hround : ∀ s a s', I s → f s a = .ok s' → I s' ∧ Q a s')
    (hkept : ∀ s a s' b, f s a = .ok s' → Q b s → Q b s')
    {xs : List α} {s s' : σ} (hs : I s) (h : xs.foldlM f s = .ok s') :
    I s' ∧ ∀ a ∈ xs, Q a s' := by
  induction xs generalizing s with
  | nil =>
    cases h
    exact ⟨hs, fun a ha => absurd ha List.not_mem_nil⟩
  | cons x xs ih =>
    rw [List.foldlM_cons] at h
    cases hx : f s x with
    | error e =>
      rw [hx] at h
      cases h
    | ok mid =>
      rw [hx] at h
      obtain ⟨hmid, hQ⟩ := hround s x mid hs hx
      obtain ⟨hend, hrest⟩ := ih hmid h
      refine ⟨hend, List.forall_mem_cons.mpr ⟨?_, hrest⟩⟩
      exact rel_of_foldlM (R := fun s s' => Q x s → Q x s') (fun _ h => h)
        (fun _ _ _ h h' hs => h' (h hs)) (fun s a s' ha => hkept s a s' x ha) h hQ

/-- A loop that leaves the state alone. -/
theorem foldlM_eq_self {f : σ → α → Except ε σ} {xs : List α} {s : σ}
    (h : ∀ a ∈ xs, f s a = .ok s) : xs.foldlM f s = .ok s := by
  induction xs with
  | nil => rfl
  | cons x xs ih =>
    rw [List.foldlM_cons, h x (List.mem_cons_self ..)]
    exact ih fun a ha => h a (List.mem_cons_of_mem _ ha)

end Appending
