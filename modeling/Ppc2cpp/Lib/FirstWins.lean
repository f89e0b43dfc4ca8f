import Mathlib.Tactic

/-! Maps that keep the first value inserted under a key.

A hash map with a user-supplied key equality answers `find k` with the value of
the first insertion whose key is equal to `k`, because `insert` leaves an existing
key alone. `find_index` says what that means for an index of a list by a key: the
entry found is the first element of the list whose key is equal to the one asked
for, whatever else the equality identifies. -/
namespace FirstWins

variable {κ ν α : Type}

/-- Entries in insertion order. -/
abbrev Map (κ ν : Type) := List (κ × ν)

/-- `insert` does nothing when an equal key is there already. -/
def insert (eq : κ → κ → Bool) (m : Map κ ν) (k : κ) (v : ν) : Map κ ν :=
  if m.any (fun e => eq e.1 k) then m else m ++ [(k, v)]

def find (eq : κ → κ → Bool) (m : Map κ ν) (k : κ) : Option ν :=
  (m.find? (fun e => eq e.1 k)).map Prod.snd

/-- What the lookups need of a key equality. -/
structure KeyEq (eq : κ → κ → Bool) : Prop where
  refl : ∀ k, eq k k = true
  trans : ∀ k k' k'', eq k k' = true → eq k' k'' = true → eq k k'' = true

/-- A type's own equality. -/
theorem keyEq_beq [BEq κ] [LawfulBEq κ] : KeyEq (fun a b : κ => a == b) where
  refl _ := beq_self_eq_true _
  trans a b c hab hbc := by
    rw [eq_of_beq hab]
    exact hbc

theorem find_nil (eq : κ → κ → Bool) (k : κ) : find eq ([] : Map κ ν) k = none := rfl

theorem find_insert {eq : κ → κ → Bool} (h : KeyEq eq) (m : Map κ ν) (k k' : κ) (v : ν) :
    find eq (insert eq m k v) k' = (find eq m k').or (if eq k k' then some v else none) := by
  unfold insert find
  by_cases hany : m.any (fun e => eq e.1 k) = true
  · rw [if_pos hany]
    by_cases hk : eq k k' = true
    · obtain ⟨e, he, hek⟩ := List.any_eq_true.mp hany
      have hek' : eq e.1 k' = true := h.trans e.1 k k' hek hk
      have hsome : (m.find? (fun e => eq e.1 k')).isSome := by
        rw [List.find?_isSome]
        exact ⟨e, he, hek'⟩
      obtain ⟨x, hx⟩ := Option.isSome_iff_exists.mp hsome
      simp [hx]
    · simp [hk]
  · rw [if_neg hany, List.find?_append]
    cases m.find? (fun e => eq e.1 k') with
    | none => by_cases hk : eq k k' = true <;> simp [hk]
    | some e => simp

/-- The index a loop `for i: insert(key xs[i], i)` builds, from position `i` on. -/
def indexFrom (eq : κ → κ → Bool) (key : α → κ) (m : Map κ Nat) : Nat → List α → Map κ Nat
  | _, [] => m
  | i, x :: xs => indexFrom eq key (insert eq m (key x) i) (i + 1) xs

/-- The loop from the first element on, over an empty map. -/
def index (eq : κ → κ → Bool) (key : α → κ) (xs : List α) : Map κ Nat :=
  indexFrom eq key [] 0 xs

theorem find_indexFrom {eq : κ → κ → Bool} (h : KeyEq eq) (key : α → κ) (xs : List α)
    (m : Map κ Nat) (i : Nat) (k : κ) :
    find eq (indexFrom eq key m i xs) k =
      (find eq m k).or ((xs.findIdx? (fun x => eq (key x) k)).map (i + ·)) := by
  induction xs generalizing m i with
  | nil => simp [indexFrom]
  | cons x xs ih =>
    rw [indexFrom, ih, find_insert h, List.findIdx?_cons, Option.or_assoc]
    by_cases hk : eq (key x) k = true
    · simp [hk]
    · simp only [hk, Bool.false_eq_true, if_false, Option.none_or, Option.map_map]
      congr 2
      funext j
      simp only [Function.comp]
      omega

/-- The element an index finds is the first one with an equal key. -/
theorem find_index {eq : κ → κ → Bool} (h : KeyEq eq) (key : α → κ) (xs : List α) (k : κ) :
    (find eq (index eq key xs) k).bind (fun i => xs[i]?) = xs.find? (fun x => eq (key x) k) := by
  rw [index, find_indexFrom h, find_nil, Option.none_or]
  induction xs with
  | nil => rfl
  | cons x xs ih =>
    rw [List.findIdx?_cons, List.find?_cons]
    cases hk : eq (key x) k
    · simpa [Function.comp_def, Option.bind_map] using ih
    · simp

/-- An index points at elements that are there. -/
theorem lt_of_find_index {eq : κ → κ → Bool} (h : KeyEq eq) {key : α → κ} {xs : List α} {k : κ}
    {i : Nat} (hi : find eq (index eq key xs) k = some i) : i < xs.length := by
  rw [index, find_indexFrom h, find_nil, Option.none_or] at hi
  obtain ⟨j, hj, rfl⟩ := Option.map_eq_some_iff.mp hi
  obtain ⟨hlt, _⟩ := List.findIdx?_eq_some_iff_getElem.mp hj
  omega

/-- An index that is not brought up to date does not find the elements added since. -/
theorem find_index_append {eq : κ → κ → Bool} (h : KeyEq eq) {key : α → κ} {m : Map κ Nat}
    {xs : List α} (hm : index eq key xs = m) (added : List α) (k : κ) :
    (find eq m k).bind (fun i => (xs ++ added)[i]?) = (find eq m k).bind (fun i => xs[i]?) := by
  cases hi : find eq m k with
  | none => rfl
  | some i =>
    rw [← hm] at hi
    exact List.getElem?_append_left (lt_of_find_index h hi)

/-- The index points at elements that have the key. Elements may be missing from it. -/
def PointsAt (eq : κ → κ → Bool) (key : α → κ) (m : Map κ Nat) (xs : List α) : Prop :=
  ∀ k i, find eq m k = some i → ∃ x, xs[i]? = some x ∧ eq (key x) k = true

theorem pointsAt_nil (eq : κ → κ → Bool) (key : α → κ) (xs : List α) : PointsAt eq key [] xs := by
  intro k i hi
  cases hi

theorem pointsAt_index {eq : κ → κ → Bool} (h : KeyEq eq) (key : α → κ) (xs : List α) :
    PointsAt eq key (index eq key xs) xs := by
  intro k i hi
  have hfound := find_index h key xs k
  rw [hi, Option.bind_some, List.getElem?_eq_getElem (lt_of_find_index h hi)] at hfound
  exact ⟨_, List.getElem?_eq_getElem _, List.find?_some (p := fun x => eq (key x) k) hfound.symm⟩

theorem PointsAt.append {eq : κ → κ → Bool} {key : α → κ} {m : Map κ Nat} {xs : List α}
    (h : PointsAt eq key m xs) (added : List α) : PointsAt eq key m (xs ++ added) := by
  intro k i hi
  obtain ⟨x, hx, heq⟩ := h k i hi
  obtain ⟨hlt, _⟩ := List.getElem?_eq_some_iff.mp hx
  exact ⟨x, by rw [List.getElem?_append_left hlt, hx], heq⟩

theorem PointsAt.exists_of_isSome {eq : κ → κ → Bool} {key : α → κ} {m : Map κ Nat} {xs : List α}
    {k : κ} (h : PointsAt eq key m xs)
    (hfound : ((find eq m k).bind (fun i => xs[i]?)).isSome = true) :
    ∃ x ∈ xs, eq (key x) k = true := by
  obtain ⟨x, hx⟩ := Option.isSome_iff_exists.mp hfound
  obtain ⟨i, hi, _⟩ := Option.bind_eq_some_iff.mp hx
  obtain ⟨x, hx, heq⟩ := h k i hi
  exact ⟨x, List.mem_of_getElem? hx, heq⟩

theorem isSome_find_index {eq : κ → κ → Bool} (h : KeyEq eq) {key : α → κ} {xs : List α} {x : α}
    {k : κ} (hx : x ∈ xs) (heq : eq (key x) k = true) :
    ((find eq (index eq key xs) k).bind (fun i => xs[i]?)).isSome = true := by
  rw [find_index h, List.find?_isSome]
  exact ⟨x, hx, heq⟩

/-- A coarser test finds what the finer one finds exactly when the first hit of the
coarser one passes the finer one too. -/
theorem find?_coarse_iff (p q : α → Bool) (xs : List α) :
    xs.find? p = xs.find? (fun x => p x && q x) ↔ ∀ x, xs.find? p = some x → q x = true := by
  constructor
  · intro h x hx
    rw [h] at hx
    have hpq := List.find?_some hx
    simp only [Bool.and_eq_true] at hpq
    exact hpq.2
  · intro h
    induction xs with
    | nil => rfl
    | cons y ys ih =>
      cases hp : p y with
      | true =>
        have hq : q y = true := h y (by simp [hp])
        simp [hp, hq]
      | false =>
        simp only [List.find?_cons, hp, Bool.false_and]
        exact ih (fun x hx => h x (by simpa [hp] using hx))

end FirstWins
