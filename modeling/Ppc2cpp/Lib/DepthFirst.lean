import Mathlib.Tactic

/-! Depth-first traversal along an arbitrary successor function.

`Visits next seen todo out` says that a traversal which has visited `seen`, in that
order, and has `todo` waiting ends having visited `out`. A vertex is entered when it
is taken from `todo` unless it was visited before, and its successors are put in
front of what is waiting: `out` lists the vertices in preorder. The relation is total on
finite graphs and splits along `todo`, which is what a recursive program needs to follow
it. -/
namespace DepthFirst

variable {α : Type}

inductive Visits (next : α → List α) : List α → List α → List α → Prop where
  | done (seen : List α) : Visits next seen [] seen
  | skip {x : α} {seen todo out : List α} : x ∈ seen → Visits next seen todo out →
      Visits next seen (x :: todo) out
  | enter {x : α} {seen todo out : List α} : x ∉ seen →
      Visits next (seen ++ [x]) (next x ++ todo) out → Visits next seen (x :: todo) out

variable {next : α → List α} {seen todo out : List α}

namespace Visits

/-- Vertices are visited after those visited before. -/
theorem isPrefix (h : Visits next seen todo out) : seen <+: out := by
  induction h with
  | done seen => exact List.prefix_refl seen
  | skip _ _ ih => exact ih
  | enter _ _ ih => exact (List.prefix_append _ _).trans ih

/-- No vertex is visited twice. -/
theorem nodup (h : Visits next seen todo out) (hseen : seen.Nodup) : out.Nodup := by
  induction h with
  | done seen => exact hseen
  | skip _ _ ih => exact ih hseen
  | enter hnew _ ih =>
    apply ih
    rw [← List.concat_eq_append]
    exact hseen.concat hnew

theorem of_mem {x : α} (h : Visits next seen (x :: todo) out) (hx : x ∈ seen) :
    Visits next seen todo out := by
  cases h with
  | skip _ h => exact h
  | enter hnew _ => exact absurd hx hnew

theorem of_not_mem {x : α} (h : Visits next seen (x :: todo) out) (hx : x ∉ seen) :
    Visits next (seen ++ [x]) (next x ++ todo) out := by
  cases h with
  | skip hseen _ => exact absurd hseen hx
  | enter _ h => exact h

/-- What waits first is visited first. -/
theorem append {a b mid : List α} (ha : Visits next seen a mid) (hb : Visits next mid b out) :
    Visits next seen (a ++ b) out := by
  induction ha with
  | done seen => exact hb
  | skip hx _ ih => exact .skip hx (ih hb)
  | @enter x seen todo mid hx _ ih =>
    have hrest := ih hb
    rw [List.append_assoc] at hrest
    exact .enter hx hrest

theorem split {a b : List α} (h : Visits next seen (a ++ b) out) :
    ∃ mid, Visits next seen a mid ∧ Visits next mid b out := by
  generalize hab : a ++ b = todo at h
  induction h generalizing a with
  | done seen =>
    obtain ⟨rfl, rfl⟩ := List.append_eq_nil_iff.mp hab
    exact ⟨seen, .done seen, .done seen⟩
  | @skip x seen todo out hx h ih =>
    cases a with
    | nil =>
      obtain rfl : b = x :: todo := hab
      exact ⟨seen, .done seen, .skip hx h⟩
    | cons y a =>
      obtain ⟨rfl, htail⟩ := List.cons.inj hab
      obtain ⟨mid, ha, hb⟩ := ih htail
      exact ⟨mid, .skip hx ha, hb⟩
  | @enter x seen todo out hx h ih =>
    cases a with
    | nil =>
      obtain rfl : b = x :: todo := hab
      exact ⟨seen, .done seen, .enter hx h⟩
    | cons y a =>
      obtain ⟨rfl, htail⟩ := List.cons.inj hab
      obtain ⟨mid, ha, hb⟩ := @ih (next y ++ a) (by rw [List.append_assoc]; exact congrArg _ htail)
      exact ⟨mid, .enter hx ha, hb⟩

theorem mem_of_todo (h : Visits next seen todo out) {x : α} (hx : x ∈ todo) : x ∈ out := by
  induction h with
  | done seen => cases hx
  | skip hy h ih =>
    rcases List.mem_cons.mp hx with rfl | hx
    · exact h.isPrefix.subset hy
    · exact ih hx
  | @enter y seen todo out _ h ih =>
    rcases List.mem_cons.mp hx with rfl | hx
    · exact h.isPrefix.subset (List.mem_append_right _ (List.mem_singleton.mpr rfl))
    · exact ih (List.mem_append_right _ hx)

/-- The successors of what the traversal visits are visited. -/
theorem closed (h : Visits next seen todo out) {x y : α} (hx : x ∈ out) (hnew : x ∉ seen)
    (hy : y ∈ next x) : y ∈ out := by
  induction h with
  | done seen => exact absurd hx hnew
  | skip _ _ ih => exact ih hx hnew
  | @enter z seen todo out _ h ih =>
    by_cases hz : x = z
    · subst hz
      exact h.mem_of_todo (List.mem_append_left _ hy)
    · exact ih hx (by simp [hnew, hz])

theorem reachable (h : Visits next seen todo out) {x : α} (hx : x ∈ out) :
    x ∈ seen ∨ ∃ r ∈ todo, Relation.ReflTransGen (fun a b => b ∈ next a) r x := by
  induction h with
  | done seen => exact .inl hx
  | skip _ _ ih =>
    rcases ih hx with hs | ⟨r, hr, hpath⟩
    · exact .inl hs
    · exact .inr ⟨r, List.mem_cons_of_mem _ hr, hpath⟩
  | @enter y seen todo out _ _ ih =>
    rcases ih hx with hs | ⟨r, hr, hpath⟩
    · rcases List.mem_append.mp hs with hs | hs
      · exact .inl hs
      · rw [List.mem_singleton.mp hs]
        exact .inr ⟨y, List.mem_cons_self, .refl⟩
    · rcases List.mem_append.mp hr with hr | hr
      · exact .inr ⟨y, List.mem_cons_self, .head hr hpath⟩
      · exact .inr ⟨r, List.mem_cons_of_mem _ hr, hpath⟩

/-- From an empty start, exactly the reachable vertices are visited. -/
theorem mem_iff {r : α} (h : Visits next [] [r] out) (x : α) :
    x ∈ out ↔ Relation.ReflTransGen (fun a b => b ∈ next a) r x := by
  constructor
  · intro hx
    rcases h.reachable hx with hs | ⟨r', hr, hpath⟩
    · cases hs
    · rwa [List.mem_singleton.mp hr] at hpath
  · intro hpath
    induction hpath with
    | refl => exact h.mem_of_todo (List.mem_singleton.mpr rfl)
    | tail _ hy ih => exact h.closed ih (List.not_mem_nil) hy

end Visits

/-- A traversal of a finite graph ends: what bounds it is the number of vertices
not visited yet, and then the number waiting. -/
theorem exists_visits [DecidableEq α] (next : α → List α) (bound : Finset α)
    (hbound : ∀ x ∈ bound, ∀ y ∈ next x, y ∈ bound) (seen todo : List α)
    (htodo : ∀ x ∈ todo, x ∈ bound) : ∃ out, Visits next seen todo out := by
  induction hm : (bound \ seen.toFinset).card using Nat.strong_induction_on
    generalizing seen todo with
  | _ m ihm =>
    induction todo with
    | nil => exact ⟨seen, .done seen⟩
    | cons x todo ih =>
      by_cases hx : x ∈ seen
      · obtain ⟨out, hout⟩ := ih fun y hy => htodo y (List.mem_cons_of_mem _ hy)
        exact ⟨out, .skip hx hout⟩
      · have hxb : x ∈ bound := htodo x List.mem_cons_self
        have hlt : (bound \ (seen ++ [x]).toFinset).card < m := by
          rw [← hm]
          refine Finset.card_lt_card ⟨?_, fun hsub => ?_⟩
          · intro y hy
            simp only [Finset.mem_sdiff, List.mem_toFinset, List.mem_append] at hy ⊢
            exact ⟨hy.1, fun h => hy.2 (.inl h)⟩
          · have hmem := hsub (Finset.mem_sdiff.mpr ⟨hxb, by simpa using hx⟩)
            simp at hmem
        obtain ⟨out, hout⟩ := ihm _ hlt (seen ++ [x]) (next x ++ todo) (fun y hy => by
          rcases List.mem_append.mp hy with hy | hy
          · exact hbound x hxb y hy
          · exact htodo y (List.mem_cons_of_mem _ hy)) rfl
        exact ⟨out, .enter hx hout⟩

end DepthFirst
