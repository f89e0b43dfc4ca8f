import Mathlib.Tactic

/-! Graphs compared node by node.

Each node of a graph has an ordered list of children. Two nodes match if their labels
agree and their children match in order (`Match`); two nodes that stand at the same
place below two matching nodes match (`Match.together`), and if the graphs say what
values their nodes have, matching nodes have the same value (`Match.value_eq`). The last
part is about graphs in which the children of some nodes come in no particular order.
Whichever order they are put in, two nodes match iff they are alike (`alike_iff`): below
a node without order each child has to be like each other child. -/
namespace Matching

variable {α β : Type}

section
variable (label : α → β → Prop) (kids₁ : α → List α) (kids₂ : β → List β)

inductive Match : α → β → Prop where
  | intro {x : α} {y : β} : label x y → (kids₁ x).length = (kids₂ y).length →
      (∀ (i : Nat) a b, (kids₁ x)[i]? = some a → (kids₂ y)[i]? = some b → Match a b) → Match x y

/-- Two nodes at the same place below two others. -/
inductive Together (x : α) (y : β) : α → β → Prop where
  | refl : Together x y x y
  | child {x' : α} {y' : β} {i : Nat} {a : α} {b : β} : Together x y x' y' →
      (kids₁ x')[i]? = some a → (kids₂ y')[i]? = some b → Together x y a b

variable {label kids₁ kids₂}

theorem match_iff {x : α} {y : β} : Match label kids₁ kids₂ x y ↔
    label x y ∧ List.Forall₂ (Match label kids₁ kids₂) (kids₁ x) (kids₂ y) := by
  constructor
  · intro h
    cases h with
    | intro hlabel hlen hkids =>
      refine ⟨hlabel, List.forall₂_iff_get.mpr ⟨hlen, fun i hx hy => ?_⟩⟩
      exact hkids i _ _ (List.getElem?_eq_getElem hx) (List.getElem?_eq_getElem hy)
  · intro h
    obtain ⟨hlen, hkids⟩ := List.forall₂_iff_get.mp h.2
    refine .intro h.1 hlen fun i a b ha hb => ?_
    obtain ⟨hx, rfl⟩ := List.getElem?_eq_some_iff.mp ha
    obtain ⟨hy, rfl⟩ := List.getElem?_eq_some_iff.mp hb
    exact hkids i hx hy

/-- **What stands at the same place below two matching nodes matches.** -/
theorem Match.together {x a : α} {y b : β} (h : Match label kids₁ kids₂ x y)
    (hab : Together kids₁ kids₂ x y a b) : Match label kids₁ kids₂ a b := by
  induction hab with
  | refl => exact h
  | child _ ha hb ih =>
    cases ih with
    | intro _ _ hkids => exact hkids _ _ _ ha hb

end

/-- Two lists that go with a third go with each other. -/
theorem forall₂_join {γ : Type} {R : α → γ → Prop} {S : β → γ → Prop} {T : α → β → Prop}
    {xs : List α} {ys : List β} {zs : List γ} (h : List.Forall₂ R xs zs) (h' : List.Forall₂ S ys zs)
    (hjoin : ∀ x y, ∀ z ∈ zs, R x z → S y z → T x y) : List.Forall₂ T xs ys := by
  obtain ⟨hlen, hget⟩ := List.forall₂_iff_get.mp h
  obtain ⟨hlen', hget'⟩ := List.forall₂_iff_get.mp h'
  refine List.forall₂_iff_get.mpr ⟨hlen.trans hlen'.symm, fun i hx hy => ?_⟩
  have hz : i < zs.length := lt_of_lt_of_eq hx hlen
  exact hjoin _ _ _ (List.get_mem zs ⟨i, hz⟩) (hget i hx hz) (hget' i hy hz)

/-! ### Values of nodes -/

section
variable {ν : Type}

/-- The value of a node, where an interpretation says what a node makes of the values of
its children. -/
inductive Value (interp : α → List ν → ν → Prop) (kids : α → List α) : α → ν → Prop where
  | intro {x : α} {vs : List ν} {v : ν} : vs.length = (kids x).length →
      (∀ (i : Nat) a w, (kids x)[i]? = some a → vs[i]? = some w → Value interp kids a w) →
      interp x vs v → Value interp kids x v

variable {interp : α → List ν → ν → Prop} {kids : α → List α}

theorem value_of_forall₂ {x : α} {vs : List ν} {v : ν}
    (hvs : List.Forall₂ (Value interp kids) (kids x) vs) (hv : interp x vs v) :
    Value interp kids x v := by
  obtain ⟨hlen, hkids⟩ := List.forall₂_iff_get.mp hvs
  refine .intro hlen.symm (fun i a w ha hw => ?_) hv
  obtain ⟨hi, rfl⟩ := List.getElem?_eq_some_iff.mp ha
  obtain ⟨hi', rfl⟩ := List.getElem?_eq_some_iff.mp hw
  exact hkids i hi hi'

theorem value_of_leaf {x : α} {v : ν} (hkids : kids x = []) (hv : interp x [] v) :
    Value interp kids x v :=
  value_of_forall₂ (by rw [hkids]; exact .nil) hv

/-- A larger graph gives the old nodes the same values. -/
theorem Value.mono {interp' : α → List ν → ν → Prop} {kids' : α → List α} {x : α} {v : ν}
    (h : Value interp kids x v)
    (hmono : ∀ x vs v, interp x vs v → interp' x vs v ∧ kids' x = kids x) :
    Value interp' kids' x v := by
  induction h with
  | @intro x vs v hlen _ hv ih =>
    obtain ⟨hv', hkids⟩ := hmono x vs v hv
    refine .intro (by rw [hkids, hlen]) (fun i a w ha hw => ?_) hv'
    exact ih i a w (hkids ▸ ha) hw

/-- **Matching nodes have the same value**, if the interpretations agree at every two
places that are compared. -/
theorem Match.value_eq {label : α → β → Prop} {kids₁ : α → List α} {kids₂ : β → List β}
    {interp₁ : α → List ν → ν → Prop} {interp₂ : β → List ν → ν → Prop} {x : α} {y : β}
    (h : Match label kids₁ kids₂ x y)
    (hagree : ∀ a b, Together kids₁ kids₂ x y a b → label a b → ∀ vs v w, interp₁ a vs v →
      interp₂ b vs w → v = w) {a : α} {b : β} (hab : Together kids₁ kids₂ x y a b) {v w : ν}
    (hv : Value interp₁ kids₁ a v) (hw : Value interp₂ kids₂ b w) : v = w := by
  induction hv generalizing b w with
  | @intro a vs v hlen _ hinterp ih =>
    cases hw with
    | @intro _ ws _ hlen' hkids' hinterp' =>
      obtain ⟨hlabel, hlengths, _⟩ := h.together hab
      have hvs : vs = ws := by
        refine List.ext_getElem (by omega) fun i hi hi' => ?_
        have ha := List.getElem?_eq_getElem (show i < (kids₁ a).length by omega)
        have hb := List.getElem?_eq_getElem (show i < (kids₂ b).length by omega)
        have hvi := List.getElem?_eq_getElem hi
        have hwi := List.getElem?_eq_getElem hi'
        exact ih i _ _ ha hvi (hab.child ha hb) (hkids' i _ _ hb hwi)
      exact hagree a b hab hlabel vs v w hinterp (hvs ▸ hinterp')

/-- **Matching nodes have a value in common**, if at every two places that are compared the
interpretations make the same of the same values. -/
theorem Match.exists_value {label : α → β → Prop} {kids₁ : α → List α} {kids₂ : β → List β}
    {interp₁ : α → List ν → ν → Prop} {interp₂ : β → List ν → ν → Prop} {x : α} {y : β}
    (h : Match label kids₁ kids₂ x y)
    (hinterp : ∀ a b, Together kids₁ kids₂ x y a b → label a b → ∀ vs,
      ∃ v, interp₁ a vs v ∧ interp₂ b vs v) :
    ∃ v, Value interp₁ kids₁ x v ∧ Value interp₂ kids₂ y v := by
  have hall : ∀ a b, Match label kids₁ kids₂ a b → Together kids₁ kids₂ x y a b →
      ∃ v, Value interp₁ kids₁ a v ∧ Value interp₂ kids₂ b v := by
    intro a b hab
    induction hab with
    | @intro a b hlabel hlen _ ih =>
      intro htogether
      have hkids : ∀ i < (kids₁ a).length, ∃ v, ∀ a' b', (kids₁ a)[i]? = some a' →
          (kids₂ b)[i]? = some b' → Value interp₁ kids₁ a' v ∧ Value interp₂ kids₂ b' v := by
        intro i hi
        have ha := List.getElem?_eq_getElem hi
        have hb := List.getElem?_eq_getElem (show i < (kids₂ b).length by omega)
        obtain ⟨v, hv⟩ := ih i _ _ ha hb (htogether.child ha hb)
        refine ⟨v, fun a' b' ha' hb' => ?_⟩
        obtain rfl := Option.some.inj (ha.symm.trans ha')
        obtain rfl := Option.some.inj (hb.symm.trans hb')
        exact hv
      choose f hf using hkids
      set vs := (List.finRange (kids₁ a).length).map fun i => f i.1 i.2 with hvs
      have hvsi : ∀ (i : Nat) w, vs[i]? = some w → ∃ hi : i < (kids₁ a).length, w = f i hi := by
        intro i w hw
        obtain ⟨hi, rfl⟩ := List.getElem?_eq_some_iff.mp hw
        exact ⟨by simpa [hvs] using hi, by simp [hvs]⟩
      obtain ⟨v, hv₁, hv₂⟩ := hinterp a b htogether hlabel vs
      refine ⟨v, .intro (by simp [hvs]) (fun i a' w ha hw => ?_) hv₁,
        .intro (by simp [hvs, hlen]) (fun i b' w hb hw => ?_) hv₂⟩
      · obtain ⟨hi, rfl⟩ := hvsi i w hw
        exact (hf i hi _ _ ha (List.getElem?_eq_getElem (by omega))).1
      · obtain ⟨hi, rfl⟩ := hvsi i w hw
        exact (hf i hi _ _ (List.getElem?_eq_getElem hi) hb).2
  exact hall x y h .refl

/-- **Nodes with the same value match**, if only nodes that agree make the same value, and
only of the same values. -/
theorem match_of_value_eq {label : α → β → Prop} {kids₁ : α → List α} {kids₂ : β → List β}
    {interp₁ : α → List ν → ν → Prop} {interp₂ : β → List ν → ν → Prop}
    (hinterp : ∀ a b vs ws v, interp₁ a vs v → interp₂ b ws v → label a b ∧ vs = ws)
    {a : α} {b : β} {v : ν} (ha : Value interp₁ kids₁ a v) (hb : Value interp₂ kids₂ b v) :
    Match label kids₁ kids₂ a b := by
  induction ha generalizing b with
  | @intro a vs v hlen _ hv ih =>
    cases hb with
    | @intro _ ws _ hlen' hkids' hv' =>
      obtain ⟨hlabel, rfl⟩ := hinterp a b vs ws v hv hv'
      refine .intro hlabel (hlen.symm.trans hlen') fun i a' b' ha' hb' => ?_
      have hi : i < vs.length := hlen ▸ (List.getElem?_eq_some_iff.mp ha').1
      have hw := List.getElem?_eq_getElem hi
      exact ih i a' _ ha' hw (hkids' i b' _ hb' hw)

/-- What is compared below two nodes is below the first. -/
theorem Together.descends {kids₁ : α → List α} {kids₂ : β → List β} {x a : α} {y b : β}
    (h : Together kids₁ kids₂ x y a b) : Relation.ReflTransGen (fun x a => a ∈ kids₁ x) x a := by
  induction h with
  | refl => exact .refl
  | child _ ha _ ih => exact ih.tail (List.mem_of_getElem? ha)

end

/-! ### Children without order -/

section
variable (label : α → α → Prop) (kids : α → List α) (unordered : α → Prop)

/-- The children in some order, where they have none. -/
structure Arrangement (o : α → List α) : Prop where
  perm : ∀ x, (o x).Perm (kids x)
  ordered : ∀ x, ¬ unordered x → o x = kids x

/-- Two nodes are alike if their labels agree and their children are alike: in order, or
each with each. -/
inductive Alike : α → α → Prop where
  | inOrder {x y : α} : ¬ unordered x → label x y → (kids x).length = (kids y).length →
      (∀ (i : Nat) a b, (kids x)[i]? = some a → (kids y)[i]? = some b → Alike a b) → Alike x y
  | anyOrder {x y : α} : unordered x → label x y → (kids x).length = (kids y).length →
      (∀ a ∈ kids x, ∀ b ∈ kids y, Alike a b) → Alike x y

variable {label kids unordered}

/-- Only the children below a node bear on what it matches. -/
theorem match_congr (rank : α → Nat) (o₁' o₂' : α → List α) {o₁ o₂ : α → List α}
    (hrank₁ : ∀ x, ∀ a ∈ o₁ x, rank a < rank x) (hrank₂ : ∀ x, ∀ a ∈ o₂ x, rank a < rank x)
    {m n : Nat} (h₁ : ∀ x, rank x < m → o₁' x = o₁ x) (h₂ : ∀ x, rank x < n → o₂' x = o₂ x)
    {x y : α} (h : Match label o₁' o₂' x y) (hx : rank x < m) (hy : rank y < n) :
    Match label o₁ o₂ x y := by
  induction h with
  | @intro x y hlabel hlen hkids ih =>
    rw [h₁ x hx, h₂ y hy] at hlen
    refine .intro hlabel hlen fun i a b ha hb => ?_
    refine ih i a b ?_ ?_ ((hrank₁ x a (List.mem_of_getElem? ha)).trans hx)
      ((hrank₂ y b (List.mem_of_getElem? hb)).trans hy)
    · rw [h₁ x hx, ha]
    · rw [h₂ y hy, hb]

theorem Alike.toMatch {o₁ o₂ : α → List α} (h₁ : Arrangement kids unordered o₁)
    (h₂ : Arrangement kids unordered o₂) (hkind : ∀ x y, label x y → (unordered x ↔ unordered y))
    {x y : α} (h : Alike label kids unordered x y) : Match label o₁ o₂ x y := by
  induction h with
  | @inOrder x y hord hlabel hlen _ ih =>
    rw [← h₁.ordered x hord, ← h₂.ordered y (mt (hkind x y hlabel).mpr hord)] at hlen ih
    exact .intro hlabel hlen ih
  | @anyOrder x y _ hlabel hlen _ ih =>
    rw [← (h₁.perm x).length_eq, ← (h₂.perm y).length_eq] at hlen
    refine .intro hlabel hlen fun i a b ha hb => ?_
    exact ih a ((h₁.perm x).mem_iff.mp (List.mem_of_getElem? ha)) b
      ((h₂.perm y).mem_iff.mp (List.mem_of_getElem? hb))

section
variable [DecidableEq α]

/-- Another order with a given child in front. -/
theorem Arrangement.toFront {o : α → List α} (h : Arrangement kids unordered o) {x a : α}
    (hx : unordered x) (ha : a ∈ kids x) :
    Arrangement kids unordered (Function.update o x (a :: (o x).erase a)) where
  perm z := by
    by_cases hz : z = x
    · subst hz
      rw [Function.update_self]
      exact (List.perm_cons_erase ((h.perm z).mem_iff.mpr ha)).symm.trans (h.perm z)
    · rw [Function.update_of_ne hz]
      exact h.perm z
  ordered z hz := by
    have hne : z ≠ x := fun he => hz (by rw [he]; exact hx)
    rw [Function.update_of_ne hne]
    exact h.ordered z hz

/-- **Two nodes match in every order iff they are alike.** -/
theorem alike_iff (rank : α → Nat) (hrank : ∀ x, ∀ a ∈ kids x, rank a < rank x)
    (hkind : ∀ x y, label x y → (unordered x ↔ unordered y)) {x y : α} :
    Alike label kids unordered x y ↔ ∀ o₁ o₂, Arrangement kids unordered o₁ →
      Arrangement kids unordered o₂ → Match label o₁ o₂ x y := by
  refine ⟨fun h o₁ o₂ h₁ h₂ => h.toMatch h₁ h₂ hkind, ?_⟩
  have hself : Arrangement kids unordered kids := ⟨fun _ => .refl _, fun _ _ => rfl⟩
  have hbelow : ∀ {o}, Arrangement kids unordered o → ∀ z, ∀ a ∈ o z, rank a < rank z :=
    fun ho z a ha => hrank z a ((ho.perm z).mem_iff.mp ha)
  -- by induction on the rank; below a node without order the two children are put in front
  induction hn : rank x using Nat.strong_induction_on generalizing x y with
  | _ n ih =>
    subst hn
    intro h
    cases h kids kids hself hself with
    | intro hlabel hlen _ =>
      by_cases hx : unordered x
      · refine .anyOrder hx hlabel hlen fun a ha b hb => ?_
        refine ih _ (hrank x a ha) rfl fun o₁ o₂ h₁ h₂ => ?_
        have hfront := h _ _ (h₁.toFront hx ha) (h₂.toFront ((hkind x y hlabel).mp hx) hb)
        refine match_congr rank (Function.update o₁ x (a :: (o₁ x).erase a))
          (Function.update o₂ y (b :: (o₂ y).erase b)) (hbelow h₁) (hbelow h₂) ?_ ?_ ?_
          (hrank x a ha) (hrank y b hb)
        · exact fun z hz => Function.update_of_ne (fun he => by simp [he] at hz) _ _
        · exact fun z hz => Function.update_of_ne (fun he => by simp [he] at hz) _ _
        · cases hfront with
          | intro _ _ hkids => exact hkids 0 a b (by simp) (by simp)
      · have hy := mt (hkind x y hlabel).mpr hx
        refine .inOrder hx hlabel hlen fun i a b ha hb => ?_
        refine ih _ (hrank x a (List.mem_of_getElem? ha)) rfl fun o₁ o₂ h₁ h₂ => ?_
        cases h o₁ o₂ h₁ h₂ with
        | intro _ _ hkids =>
          exact hkids i a b (by rw [h₁.ordered x hx, ha]) (by rw [h₂.ordered y hy, hb])

end

/-- **A node is like itself iff, below it, all children of a node without order are alike.** -/
theorem alike_self_iff (rank : α → Nat) (hrank : ∀ x, ∀ a ∈ kids x, rank a < rank x) {x : α}
    (hlabel : ∀ a, Relation.ReflTransGen (fun x a => a ∈ kids x) x a → label a a) :
    Alike label kids unordered x x ↔
      ∀ p, Relation.ReflTransGen (fun x a => a ∈ kids x) x p → unordered p →
        ∀ a ∈ kids p, ∀ b ∈ kids p, Alike label kids unordered a b := by
  constructor
  · intro h p hp
    have hself : Alike label kids unordered p p := by
      induction hp with
      | refl => exact h
      | @tail z a _ ha ih =>
        cases ih with
        | inOrder _ _ _ hkids =>
          obtain ⟨i, hi⟩ := List.mem_iff_getElem?.mp ha
          exact hkids i a a hi hi
        | anyOrder _ _ _ hkids => exact hkids a ha a ha
    intro hun a ha b hb
    cases hself with
    | inOrder hord => exact absurd hun hord
    | anyOrder _ _ _ hkids => exact hkids a ha b hb
  · induction hn : rank x using Nat.strong_induction_on generalizing x with
    | _ n ih =>
      subst hn
      intro h
      have hkid : ∀ a ∈ kids x, Alike label kids unordered a a := fun a ha =>
        ih _ (hrank x a ha) (fun b hb => hlabel b (.head ha hb)) rfl
          fun p hp => h p (.head ha hp)
      by_cases hx : unordered x
      · exact .anyOrder hx (hlabel x .refl) rfl (h x .refl hx)
      · refine .inOrder hx (hlabel x .refl) rfl fun i a b ha hb => ?_
        obtain rfl := Option.some.inj (ha.symm.trans hb)
        exact hkid a (List.mem_of_getElem? ha)

end

end Matching
