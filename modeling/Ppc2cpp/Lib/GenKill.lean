import Mathlib.Tactic

/-! Definitions that reach a point of a flow graph.

At each point a storage element is left alone, killed, or given a new definition
(`Effect`). A definition reaches what lies behind it along paths on which the element
is left alone; the value the element had at the entry is clear up to there. The second
half is about graphs whose vertices are straight-line blocks: paths through single
points and paths through whole blocks say the same, with the effects of a block's
points composed. -/
namespace GenKill

/-- What a piece of code does to one storage element. -/
inductive Effect (D : Type) where
  | pass
  | kill
  | gen (d : D)
deriving DecidableEq, Repr

variable {P B D : Type}

namespace Effect

/-- One piece of code after another: the later counts, unless it leaves the element
alone. -/
def andThen : Effect D → Effect D → Effect D
  | e, .pass => e
  | _, e => e

@[simp] theorem andThen_pass (e : Effect D) : e.andThen .pass = e := rfl

@[simp] theorem andThen_kill (e : Effect D) : e.andThen .kill = .kill := rfl

@[simp] theorem andThen_gen (e : Effect D) (d : D) : e.andThen (.gen d) = .gen d := rfl

@[simp] theorem pass_andThen (e : Effect D) : Effect.pass.andThen e = e := by
  cases e <;> rfl

end Effect

section
variable (edge : P → P → Prop) (effect : P → Effect D)

/-- The definition `d` is visible behind a point. -/
inductive Reaches (d : D) : P → Prop where
  | gen {p : P} : effect p = .gen d → Reaches d p
  | pass {p q : P} : edge p q → effect q = .pass → Reaches d p → Reaches d q

/-- The definition `d` is visible in front of a point. -/
def ReachesBefore (d : D) (q : P) : Prop := ∃ p, edge p q ∧ Reaches edge effect d p

/-- What the element holds at the entry is still there in front of a point. -/
inductive Clear (entry : P) : P → Prop where
  | entry : Clear entry entry
  | pass {p q : P} : Clear entry p → effect p = .pass → edge p q → Clear entry q

variable {edge effect}

theorem reaches_iff {d : D} {q : P} : Reaches edge effect d q ↔
    effect q = .gen d ∨ (effect q = .pass ∧ ReachesBefore edge effect d q) := by
  constructor
  · intro h
    cases h with
    | gen h => exact .inl h
    | pass he hp h => exact .inr ⟨hp, _, he, h⟩
  · rintro (h | ⟨hp, p, he, h⟩)
    · exact .gen h
    · exact .pass he hp h

end

/-! ### Straight-line blocks -/

section
variable (edge : B → B → Prop) (start stop : B → Nat) (effect : B → Nat → Effect D)

/-- From one point of a block to the next, and from the last to the first of another. -/
inductive PointEdge : B × Nat → B × Nat → Prop where
  | next {b : B} {k : Nat} : start b ≤ k → k < stop b → PointEdge (b, k) (b, k + 1)
  | jump {b c : B} : edge b c → PointEdge (b, stop b) (c, start c)

def pointEffect (p : B × Nat) : Effect D := effect p.1 p.2

/-- The effect of the first `n` points of a block. -/
def prefixEffect (b : B) : Nat → Effect D
  | 0 => .pass
  | n + 1 => (prefixEffect b n).andThen (effect b (start b + n))

def blockEffect (b : B) : Effect D := prefixEffect start effect b (stop b + 1 - start b)

variable {edge start stop effect}

/-- What is visible in front of a point, from what is visible at the ends of blocks. -/
def BeforeFrom (X : B → Prop) (edge : B → B → Prop) (start : B → Nat)
    (effect : B → Nat → Effect D) (d : D) (b : B) (n : Nat) : Prop :=
  prefixEffect start effect b n = .gen d ∨
    (prefixEffect start effect b n = .pass ∧ ∃ c, edge c b ∧ X c)

theorem beforeFrom_succ {X : B → Prop} {d : D} {b : B} {n : Nat} :
    BeforeFrom X edge start effect d b (n + 1) ↔ effect b (start b + n) = .gen d ∨
      (effect b (start b + n) = .pass ∧ BeforeFrom X edge start effect d b n) := by
  unfold BeforeFrom
  rw [prefixEffect]
  cases effect b (start b + n) <;> simp

theorem pointEdge_first {p : B × Nat} {b : B} :
    PointEdge edge start stop p (b, start b) ↔ ∃ c, edge c b ∧ p = (c, stop c) := by
  constructor
  · intro h
    generalize hq : (b, start b) = q at h
    cases h with
    | @next b' k hk _ =>
      obtain ⟨rfl, hs⟩ := Prod.mk.inj hq
      omega
    | @jump c b' he =>
      obtain ⟨rfl, _⟩ := Prod.mk.inj hq
      exact ⟨c, he, rfl⟩
  · rintro ⟨c, he, rfl⟩
    exact .jump he

theorem pointEdge_succ {p : B × Nat} {b : B} {n : Nat} (hn : start b + n < stop b) :
    PointEdge edge start stop p (b, start b + n + 1) ↔ p = (b, start b + n) := by
  constructor
  · intro h
    generalize hq : (b, start b + n + 1) = q at h
    cases h with
    | @next b' k hk _ =>
      obtain ⟨rfl, hs⟩ := Prod.mk.inj hq
      obtain rfl : start b + n = k := by omega
      rfl
    | @jump c b' he =>
      obtain ⟨rfl, hs⟩ := Prod.mk.inj hq
      omega
  · rintro rfl
    exact .next (Nat.le_add_right _ _) hn

/-- In front of the point `n` places into a block. -/
theorem reachesBefore_point {d : D} {b : B} {n : Nat} (hn : start b + n ≤ stop b) :
    ReachesBefore (PointEdge edge start stop) (pointEffect effect) d (b, start b + n) ↔
      BeforeFrom (fun c => Reaches (PointEdge edge start stop) (pointEffect effect) d (c, stop c))
        edge start effect d b n := by
  induction n with
  | zero =>
    unfold ReachesBefore
    rw [Nat.add_zero]
    simp only [pointEdge_first, BeforeFrom, prefixEffect, reduceCtorEq, false_or, true_and]
    constructor
    · rintro ⟨p, ⟨c, he, rfl⟩, h⟩
      exact ⟨c, he, h⟩
    · rintro ⟨c, he, h⟩
      exact ⟨_, ⟨c, he, rfl⟩, h⟩
  | succ n ih =>
    rw [beforeFrom_succ, ← ih (by omega)]
    unfold ReachesBefore
    rw [← Nat.add_assoc]
    simp only [pointEdge_succ (show start b + n < stop b by omega), exists_eq_left]
    rw [reaches_iff]
    rfl

/-- Behind the last point of a block. -/
theorem reaches_stop {d : D} {b : B} (hb : start b ≤ stop b) :
    Reaches (PointEdge edge start stop) (pointEffect effect) d (b, stop b) ↔
      BeforeFrom (fun c => Reaches (PointEdge edge start stop) (pointEffect effect) d (c, stop c))
        edge start effect d b (stop b + 1 - start b) := by
  obtain ⟨n, hn⟩ := Nat.exists_eq_add_of_le hb
  rw [show stop b + 1 - start b = n + 1 by omega, beforeFrom_succ, ← hn,
    ← reachesBefore_point (by omega), ← hn]
  exact reaches_iff

/-- **Paths through points and paths through blocks say the same.** -/
theorem reaches_block_iff (hle : ∀ b, start b ≤ stop b) {d : D} {b : B} :
    Reaches (PointEdge edge start stop) (pointEffect effect) d (b, stop b) ↔
      Reaches edge (blockEffect start stop effect) d b := by
  constructor
  · -- along a path of points, what was visible at the end of the last block
    have hpoint : ∀ p, Reaches (PointEdge edge start stop) (pointEffect effect) d p →
        ∀ n, start p.1 + n = p.2 → p.2 ≤ stop p.1 →
          BeforeFrom (fun c => Reaches edge (blockEffect start stop effect) d c) edge start effect
            d p.1 (n + 1) := by
      intro p h
      induction h with
      | gen h =>
        intro n hn _
        exact beforeFrom_succ.mpr (.inl (by rw [hn]; exact h))
      | @pass p q he hp _ ih =>
        intro n hn hq
        refine beforeFrom_succ.mpr (.inr ⟨by rw [hn]; exact hp, ?_⟩)
        cases he with
        | @next b' k hk hlt =>
          obtain ⟨m, hm⟩ := Nat.exists_eq_add_of_le hk
          obtain rfl : n = m + 1 := by
            simp only at hn
            omega
          exact ih m hm.symm (by simp only; omega)
        | @jump c b' he =>
          obtain rfl : n = 0 := by
            simp only at hn
            omega
          obtain ⟨m, hm⟩ := Nat.exists_eq_add_of_le (hle c)
          have hend := ih m hm.symm (le_refl _)
          refine .inr ⟨rfl, c, he, reaches_iff.mpr ?_⟩
          rw [blockEffect, show stop c + 1 - start c = m + 1 by omega]
          exact hend
    intro h
    obtain ⟨n, hn⟩ := Nat.exists_eq_add_of_le (hle b)
    refine reaches_iff.mpr ?_
    rw [blockEffect, show stop b + 1 - start b = n + 1 by omega]
    exact hpoint _ h n hn.symm (le_refl _)
  · intro h
    induction h with
    | gen h => exact (reaches_stop (hle _)).mpr (.inl h)
    | pass he hp _ ih => exact (reaches_stop (hle _)).mpr (.inr ⟨hp, _, he, ih⟩)

theorem prefixEffect_succ_eq_pass {b : B} {n : Nat} :
    prefixEffect start effect b (n + 1) = .pass ↔
      prefixEffect start effect b n = .pass ∧ effect b (start b + n) = .pass := by
  rw [prefixEffect]
  cases effect b (start b + n) <;> simp

/-- Clear through the points of one block. -/
theorem Clear.along_block {entry : B × Nat} {b : B} {n : Nat} (hn : start b + n ≤ stop b)
    (hpre : prefixEffect start effect b n = .pass)
    (h : Clear (PointEdge edge start stop) (pointEffect effect) entry (b, start b)) :
    Clear (PointEdge edge start stop) (pointEffect effect) entry (b, start b + n) := by
  induction n with
  | zero => exact h
  | succ n ih =>
    obtain ⟨hpre', he⟩ := prefixEffect_succ_eq_pass.mp hpre
    exact .pass (ih (by omega) hpre') he (.next (Nat.le_add_right _ _) (by omega))

/-- The entry value is clear in front of a point iff it is clear in front of the block
and the block leaves the element alone up to there. -/
theorem clear_point_iff (hle : ∀ b, start b ≤ stop b) {entry b : B} {n : Nat}
    (hn : start b + n ≤ stop b) :
    Clear (PointEdge edge start stop) (pointEffect effect) (entry, start entry) (b, start b + n) ↔
      Clear edge (blockEffect start stop effect) entry b ∧
        prefixEffect start effect b n = .pass := by
  constructor
  · intro h
    have hpoint : ∀ p, Clear (PointEdge edge start stop) (pointEffect effect)
        (entry, start entry) p → ∀ n, start p.1 + n = p.2 → p.2 ≤ stop p.1 →
          Clear edge (blockEffect start stop effect) entry p.1 ∧
            prefixEffect start effect p.1 n = .pass := by
      intro p h
      induction h with
      | entry =>
        intro n hn _
        obtain rfl : n = 0 := by
          simp only at hn
          omega
        exact ⟨.entry, rfl⟩
      | @pass p q _ hp he ih =>
        intro n hn hq
        cases he with
        | @next b' k hk hlt =>
          obtain ⟨m, hm⟩ := Nat.exists_eq_add_of_le hk
          obtain rfl : n = m + 1 := by
            simp only at hn
            omega
          obtain ⟨hclear, hpre⟩ := ih m hm.symm (by simp only; omega)
          exact ⟨hclear, prefixEffect_succ_eq_pass.mpr ⟨hpre, by rw [← hm]; exact hp⟩⟩
        | @jump c b' he =>
          obtain rfl : n = 0 := by
            simp only at hn
            omega
          obtain ⟨m, hm⟩ := Nat.exists_eq_add_of_le (hle c)
          obtain ⟨hclear, hpre⟩ := ih m hm.symm (le_refl _)
          refine ⟨.pass hclear ?_ he, rfl⟩
          rw [blockEffect, show stop c + 1 - start c = m + 1 by omega]
          exact prefixEffect_succ_eq_pass.mpr ⟨hpre, by rw [← hm]; exact hp⟩
    exact hpoint _ h n rfl hn
  · rintro ⟨hclear, hpre⟩
    have hstart : Clear (PointEdge edge start stop) (pointEffect effect) (entry, start entry)
        (b, start b) := by
      clear hpre hn
      induction hclear with
      | entry => exact .entry
      | @pass p q _ hp he ih =>
        obtain ⟨m, hm⟩ := Nat.exists_eq_add_of_le (hle p)
        rw [blockEffect, show stop p + 1 - start p = m + 1 by omega, prefixEffect_succ_eq_pass] at hp
        have hlast := ih.along_block (n := m) (by omega) hp.1
        rw [← hm] at hlast
        exact .pass hlast (by rw [pointEffect, hm]; exact hp.2) (.jump he)
    exact hstart.along_block hn hpre

end

end GenKill
