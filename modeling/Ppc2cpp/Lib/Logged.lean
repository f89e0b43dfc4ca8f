import Mathlib.Tactic

/-! Computations that leave a record of the states they pass through.

The record outlives an error: it holds what was passed before. Without the record a
sequence of computations is the sequence of their results (`result_bind`), and it passes
through what its parts pass through (`mem_points_bind`). -/

structure Logged (σ ε α : Type) where
  points : List σ
  result : Except ε α

namespace Logged

variable {σ ε α β : Type}

/-- The computation is at this state. -/
def visit (s : σ) : Logged σ ε σ := ⟨[s], .ok s⟩

/-- A computation that changes no state. -/
def lift (x : Except ε α) : Logged σ ε α := ⟨[], x⟩

def andThen (x : Logged σ ε α) (f : α → Logged σ ε β) : Logged σ ε β :=
  match x.result with
  | .ok a => ⟨x.points ++ (f a).points, (f a).result⟩
  | .error e => ⟨x.points, .error e⟩

instance : Monad (Logged σ ε) where
  pure a := ⟨[], .ok a⟩
  bind := andThen

@[simp] theorem result_lift (x : Except ε α) : (lift x : Logged σ ε α).result = x := rfl

@[simp] theorem result_bind (x : Logged σ ε α) (f : α → Logged σ ε β) :
    (x >>= f).result = x.result >>= fun a => (f a).result := by
  show (andThen x f).result = _
  unfold andThen
  cases x.result with
  | ok a => rfl
  | error e => rfl

theorem result_visit_bind (s : σ) (f : σ → Logged σ ε α) :
    (visit s >>= f).result = (f s).result := rfl

@[simp] theorem mem_points_visit {s t : σ} : t ∈ (visit s : Logged σ ε σ).points ↔ t = s :=
  List.mem_singleton

@[simp] theorem not_mem_points_lift (x : Except ε α) (t : σ) :
    t ∉ (lift x : Logged σ ε α).points := List.not_mem_nil

@[simp] theorem not_mem_points_pure (a : α) (t : σ) :
    t ∉ (pure a : Logged σ ε α).points := List.not_mem_nil

theorem mem_points_bind {x : Logged σ ε α} {f : α → Logged σ ε β} {t : σ} :
    t ∈ (x >>= f).points ↔ t ∈ x.points ∨ ∃ a, x.result = .ok a ∧ t ∈ (f a).points := by
  show t ∈ (andThen x f).points ↔ _
  unfold andThen
  cases x.result with
  | ok a => simp
  | error e => simp

theorem mem_points_visit_bind {s t : σ} {f : σ → Logged σ ε α} :
    t ∈ (visit s >>= f).points ↔ t = s ∨ t ∈ (f s).points := by
  rw [mem_points_bind, mem_points_visit]
  exact or_congr_right (by simp [visit])

theorem mem_points_lift_bind {x : Except ε α} {f : α → Logged σ ε β} {t : σ} :
    t ∈ (lift x >>= f).points ↔ ∃ a, x = .ok a ∧ t ∈ (f a).points := by
  rw [mem_points_bind]
  exact or_iff_right (not_mem_points_lift x t)

end Logged
