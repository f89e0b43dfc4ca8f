import Mathlib.Tactic

/-! Questions answered by going down a list of checks.

A question is answered by its checks, made in order until one fails: a check is settled
on the spot, or it asks another question. Nothing keeps a question from leading back to
itself, so `answer` is on fuel and is `stuck` when the fuel is used up.

`Holds` is the answer yes without fuel, and `Reaches` says which questions a question
gets to ask: those whose checks are preceded by checks that hold. An answer is found
with enough fuel exactly when asking descends (`answer_iff_acc`), which on finitely many
questions means that none leads back to itself (`acc_iff_forall_not_transGen`). -/
namespace Checklist

variable {Q ε : Type}

inductive Check (Q ε : Type) where
  | settled (x : Except ε Bool)
  /-- Asks `q`; on yes the outcome is `after`. -/
  | ask (q : Q) (after : Bool)

namespace Check

def run (f : Q → Except ε Bool) : Check Q ε → Except ε Bool
  | settled x => x
  | ask q after => do if ← f q then return after else return false

end Check

/-- The checks in order, up to the first that fails. -/
def runAll (f : Q → Except ε Bool) (cs : List (Check Q ε)) : Except ε Bool :=
  cs.allM (Check.run f)

def answer (stuck : ε) (checks : Q → List (Check Q ε)) : (fuel : Nat) → Q → Except ε Bool
  | 0, _ => .error stuck
  | fuel + 1, q => runAll (answer stuck checks fuel) (checks q)

/-! ### One check, one list -/

section Run
variable {f g : Q → Except ε Bool}

theorem run_ask_yes {q : Q} (after : Bool) (h : f q = .ok true) :
    (Check.ask q after).run f = .ok after := by
  simp only [Check.run, h]
  rfl

theorem run_ask_of_ne {q : Q} (after : Bool) (h : f q ≠ .ok true) :
    (Check.ask q after).run f = f q := by
  cases hq : f q with
  | error e => simp only [Check.run, hq, bind, Except.bind]
  | ok b =>
    cases b with
    | true => exact absurd hq h
    | false => simp only [Check.run, hq]; rfl

@[simp] theorem runAll_nil : runAll f [] = .ok true := rfl

theorem runAll_cons_yes {c : Check Q ε} (cs : List (Check Q ε)) (h : c.run f = .ok true) :
    runAll f (c :: cs) = runAll f cs := by
  simp only [runAll, List.allM, h]
  rfl

theorem runAll_cons_of_ne {c : Check Q ε} (cs : List (Check Q ε)) (h : c.run f ≠ .ok true) :
    runAll f (c :: cs) = c.run f := by
  cases hc : c.run f with
  | error e => simp only [runAll, List.allM, hc, bind, Except.bind]
  | ok b =>
    cases b with
    | true => exact absurd hc h
    | false => simp only [runAll, List.allM, hc]; rfl

/-- A question left open leaves the list open. -/
theorem runAll_ask_of_stuck {stuck : ε} {q : Q} (after : Bool) (cs : List (Check Q ε))
    (h : f q = .error stuck) : runAll f (.ask q after :: cs) = .error stuck := by
  have hne : f q ≠ .ok true := by simp [h]
  have hrun := run_ask_of_ne after hne
  rw [runAll_cons_of_ne cs (by rwa [hrun]), hrun, h]

theorem runAll_append (before cs : List (Check Q ε)) (h : ∀ c ∈ before, c.run f = .ok true) :
    runAll f (before ++ cs) = runAll f cs := by
  induction before with
  | nil => rfl
  | cons c before ih =>
    rw [List.cons_append, runAll_cons_yes _ (h c (List.mem_cons_self ..))]
    exact ih fun c' hc' => h c' (List.mem_cons_of_mem c hc')

theorem runAll_append_of_ne (before cs : List (Check Q ε)) (h : runAll f before ≠ .ok true) :
    runAll f (before ++ cs) = runAll f before := by
  induction before with
  | nil => exact absurd rfl h
  | cons c before ih =>
    by_cases hc : c.run f = .ok true
    · rw [runAll_cons_yes before hc] at h
      rw [List.cons_append, runAll_cons_yes _ hc, runAll_cons_yes _ hc, ih h]
    · rw [List.cons_append, runAll_cons_of_ne _ hc, runAll_cons_of_ne _ hc]

theorem runAll_eq_yes {cs : List (Check Q ε)} :
    runAll f cs = .ok true ↔ ∀ c ∈ cs, c.run f = .ok true := by
  induction cs with
  | nil => simp
  | cons c cs ih =>
    by_cases hc : c.run f = .ok true
    · rw [runAll_cons_yes cs hc, ih]
      simp [hc]
    · rw [runAll_cons_of_ne cs hc]
      simp [hc]

section Loops
variable {α : Type} (c : α → Check Q ε) (cs : α → List (Check Q ε)) (xs : List α)

/-- A loop with one check a round. -/
theorem runAll_map : runAll f (xs.map c) = xs.allM fun x => (c x).run f := by
  induction xs with
  | nil => rfl
  | cons x xs ih =>
    rw [List.map_cons, List.allM, ← ih]
    rfl

/-- A loop with a list of checks a round. -/
theorem runAll_flatMap : runAll f (xs.flatMap cs) = xs.allM fun x => runAll f (cs x) := by
  induction xs with
  | nil => rfl
  | cons x xs ih =>
    rw [List.flatMap_cons, List.allM]
    by_cases hx : runAll f (cs x) = .ok true
    · rw [runAll_append _ _ (runAll_eq_yes.mp hx), ih, hx]
      rfl
    · rw [runAll_append_of_ne _ _ hx]
      cases hcs : runAll f (cs x) with
      | error e => rfl
      | ok b =>
        cases b with
        | true => exact absurd hcs hx
        | false => rfl

end Loops

end Run

/-! ### More fuel -/

/-- `g` answers what `f` answers. -/
def Extends (stuck : ε) (f g : Q → Except ε Bool) : Prop := ∀ q, f q ≠ .error stuck → g q = f q

section Fuel
variable {stuck : ε} {f g : Q → Except ε Bool}

theorem Extends.run (h : Extends stuck f g) {c : Check Q ε} (hc : c.run f ≠ .error stuck) :
    c.run g = c.run f := by
  cases c with
  | settled x => rfl
  | ask q after =>
    have hq : f q ≠ .error stuck := by
      intro hstuck
      rw [run_ask_of_ne after (by simp [hstuck])] at hc
      exact hc hstuck
    simp only [Check.run, h q hq]

theorem Extends.runAll (h : Extends stuck f g) {cs : List (Check Q ε)}
    (hcs : Checklist.runAll f cs ≠ .error stuck) :
    Checklist.runAll g cs = Checklist.runAll f cs := by
  induction cs with
  | nil => rfl
  | cons c cs ih =>
    by_cases hc : c.run f = .ok true
    · have hcg : c.run g = .ok true := by rw [h.run (by simp [hc]), hc]
      rw [runAll_cons_yes cs hc] at hcs ⊢
      rw [runAll_cons_yes cs hcg]
      exact ih hcs
    · rw [runAll_cons_of_ne cs hc] at hcs ⊢
      have hcg : c.run g ≠ .ok true := by rwa [h.run hcs]
      rw [runAll_cons_of_ne cs hcg]
      exact h.run hcs

variable {checks : Q → List (Check Q ε)}

theorem answer_extends_succ (fuel : Nat) :
    Extends stuck (answer stuck checks fuel) (answer stuck checks (fuel + 1)) := by
  induction fuel with
  | zero => exact fun q h => absurd rfl h
  | succ fuel ih => exact fun q h => ih.runAll h

/-- More fuel does not change an answer. -/
theorem answer_extends {fuel fuel' : Nat} (hle : fuel ≤ fuel') :
    Extends stuck (answer stuck checks fuel) (answer stuck checks fuel') := by
  induction hle with
  | refl => exact fun _ _ => rfl
  | @step fuel' _ ih =>
    intro q h
    have hq := ih q h
    rw [answer_extends_succ fuel' q (by rwa [hq]), hq]

theorem Check.run_yes_of_le {fuel fuel' : Nat} {c : Check Q ε} (hle : fuel ≤ fuel')
    (h : c.run (answer stuck checks fuel) = .ok true) :
    c.run (answer stuck checks fuel') = .ok true := by
  have hne : c.run (answer stuck checks fuel) ≠ .error stuck := by simp [h]
  rw [(answer_extends hle).run hne, h]

end Fuel

/-! ### The answer yes -/

/-- Every check of the question holds. -/
inductive Holds (checks : Q → List (Check Q ε)) : Q → Prop where
  | intro {q : Q} (settled : ∀ x, .settled x ∈ checks q → x = .ok true)
      (after : ∀ q' after, .ask q' after ∈ checks q → after = true)
      (ask : ∀ q' after, .ask q' after ∈ checks q → Holds checks q') : Holds checks q

/-- A check comes out as yes. -/
def Check.Holds (checks : Q → List (Check Q ε)) : Check Q ε → Prop
  | settled x => x = .ok true
  | ask q after => after = true ∧ Checklist.Holds checks q

theorem holds_iff {checks : Q → List (Check Q ε)} {q : Q} :
    Holds checks q ↔ ∀ c ∈ checks q, c.Holds checks := by
  constructor
  · rintro ⟨settled, after, ask⟩ c hc
    cases c with
    | settled x => exact settled x hc
    | ask q' b => exact ⟨after q' b hc, ask q' b hc⟩
  · intro h
    exact ⟨fun x hx => h _ hx, fun q' b hq' => (h _ hq').1, fun q' b hq' => (h _ hq').2⟩

/-- A check comes out as yes where yes is the answer to the questions with `P`. -/
def Check.Passes (P : Q → Prop) : Check Q ε → Prop
  | settled x => x = .ok true
  | ask q after => after = true ∧ P q

theorem Check.holds_iff_passes {checks : Q → List (Check Q ε)} {c : Check Q ε} :
    c.Holds checks ↔ c.Passes (Checklist.Holds checks) := by
  cases c with
  | settled x => exact Iff.rfl
  | ask q after => exact Iff.rfl

/-- What passes on from the questions of a question to it belongs to every question all
of whose checks hold. -/
theorem Holds.of_passes {checks : Q → List (Check Q ε)} {P : Q → Prop}
    (hP : ∀ q, (∀ c ∈ checks q, c.Passes P) → P q) {q : Q} (h : Holds checks q) : P q := by
  induction h with
  | @intro q settled after ask ih =>
    apply hP
    intro c hc
    cases c with
    | settled x => exact settled x hc
    | ask q' b => exact ⟨after q' b hc, ih q' b hc⟩

section Yes
variable {stuck : ε} {checks : Q → List (Check Q ε)}

theorem Check.holds_of_run {f : Q → Except ε Bool} (hf : ∀ q, f q = .ok true → Checklist.Holds checks q)
    {c : Check Q ε} (h : c.run f = .ok true) : c.Holds checks := by
  cases c with
  | settled x => exact h
  | ask q after =>
    by_cases hq : f q = .ok true
    · rw [run_ask_yes after hq] at h
      exact ⟨Except.ok.inj h, hf q hq⟩
    · rw [run_ask_of_ne after hq] at h
      exact absurd h hq

theorem holds_of_answer {fuel : Nat} {q : Q} (h : answer stuck checks fuel q = .ok true) :
    Holds checks q := by
  induction fuel generalizing q with
  | zero => cases h
  | succ fuel ih =>
    rw [holds_iff]
    intro c hc
    exact Check.holds_of_run (fun q hq => ih hq) (runAll_eq_yes.mp h c hc)

/-- Finitely many checks that each come out as yes with some fuel do so with one. -/
theorem exists_runAll_yes {cs : List (Check Q ε)}
    (h : ∀ c ∈ cs, ∃ fuel, c.run (answer stuck checks fuel) = .ok true) :
    ∃ fuel, ∀ c ∈ cs, c.run (answer stuck checks fuel) = .ok true := by
  induction cs with
  | nil => exact ⟨0, by simp⟩
  | cons c cs ih =>
    obtain ⟨fuel₁, h₁⟩ := h c (List.mem_cons_self ..)
    obtain ⟨fuel₂, h₂⟩ := ih fun c' hc' => h c' (List.mem_cons_of_mem c hc')
    refine ⟨max fuel₁ fuel₂, ?_⟩
    intro c' hc'
    rcases List.mem_cons.mp hc' with rfl | hc'
    · exact Check.run_yes_of_le (Nat.le_max_left ..) h₁
    · exact Check.run_yes_of_le (Nat.le_max_right ..) (h₂ c' hc')

theorem exists_answer_of_holds (stuck : ε) {q : Q} (h : Holds checks q) :
    ∃ fuel, answer stuck checks fuel q = .ok true := by
  induction h with
  | @intro q settled after ask ih =>
    have hall : ∃ fuel, ∀ c ∈ checks q, c.run (answer stuck checks fuel) = .ok true := by
      apply exists_runAll_yes
      intro c hc
      cases c with
      | settled x => exact ⟨0, settled x hc⟩
      | ask q' b =>
        obtain ⟨fuel, hfuel⟩ := ih q' b hc
        refine ⟨fuel, ?_⟩
        rw [run_ask_yes b hfuel, after q' b hc]
    obtain ⟨fuel, hfuel⟩ := hall
    exact ⟨fuel + 1, runAll_eq_yes.mpr hfuel⟩

theorem Check.exists_run_of_holds (stuck : ε) {c : Check Q ε} (h : c.Holds checks) :
    ∃ fuel, c.run (answer stuck checks fuel) = .ok true := by
  cases c with
  | settled x => exact ⟨0, h⟩
  | ask q after =>
    obtain ⟨fuel, hfuel⟩ := exists_answer_of_holds stuck h.2
    refine ⟨fuel, ?_⟩
    rw [run_ask_yes after hfuel, h.1]

/-- **A list of checks passes, with enough fuel, exactly when each of them holds.** -/
theorem exists_runAll_yes_iff (cs : List (Check Q ε)) :
    (∃ fuel, runAll (answer stuck checks fuel) cs = .ok true) ↔ ∀ c ∈ cs, c.Holds checks := by
  constructor
  · rintro ⟨fuel, h⟩ c hc
    exact Check.holds_of_run (fun _ => holds_of_answer) (runAll_eq_yes.mp h c hc)
  · intro h
    obtain ⟨fuel, hfuel⟩ := exists_runAll_yes fun c hc => Check.exists_run_of_holds stuck (h c hc)
    exact ⟨fuel, runAll_eq_yes.mpr hfuel⟩

end Yes

/-! ### Some answer -/

/-- A list gets to ask `q`: the checks before it hold. -/
def ReachedIn (checks : Q → List (Check Q ε)) (cs : List (Check Q ε)) (q : Q) : Prop :=
  ∃ before after rest, cs = before ++ .ask q after :: rest ∧ ∀ c ∈ before, c.Holds checks

/-- A question gets to ask another. -/
def Reaches (checks : Q → List (Check Q ε)) (q q' : Q) : Prop := ReachedIn checks (checks q) q'

section Stops
variable {stuck : ε} {checks : Q → List (Check Q ε)} {cs : List (Check Q ε)}

/-- A check that holds is not answered otherwise. -/
theorem Check.run_of_holds {fuel : Nat} {c : Check Q ε} (h : c.Holds checks)
    (hc : c.run (answer stuck checks fuel) ≠ .error stuck) :
    c.run (answer stuck checks fuel) = .ok true := by
  obtain ⟨fuel', hfuel'⟩ := Check.exists_run_of_holds stuck h
  rw [← (answer_extends (Nat.le_max_left fuel fuel')).run hc]
  exact Check.run_yes_of_le (Nat.le_max_right ..) hfuel'

/-- Nothing a list gets to ask is left open when the list is not. -/
theorem answer_ne_of_reachedIn {fuel : Nat} {q : Q}
    (h : runAll (answer stuck checks fuel) cs ≠ .error stuck) (hq : ReachedIn checks cs q) :
    answer stuck checks fuel q ≠ .error stuck := by
  obtain ⟨before, after, rest, rfl, hbefore⟩ := hq
  induction before with
  | nil => exact fun hstuck => h (runAll_ask_of_stuck after rest hstuck)
  | cons c before ih =>
    by_cases hc : c.run (answer stuck checks fuel) = .ok true
    · rw [List.cons_append, runAll_cons_yes _ hc] at h
      exact ih (fun c' hc' => hbefore c' (List.mem_cons_of_mem c hc')) h
    · rw [List.cons_append, runAll_cons_of_ne _ hc] at h
      exact absurd (Check.run_of_holds (hbefore c (List.mem_cons_self ..)) h) hc

/-- A list none of whose questions is left open is not left open. -/
theorem exists_runAll_ne (hsettled : ∀ c ∈ cs, c ≠ .settled (.error stuck))
    (h : ∀ q, ReachedIn checks cs q → ∃ fuel, answer stuck checks fuel q ≠ .error stuck) :
    ∃ fuel, runAll (answer stuck checks fuel) cs ≠ .error stuck := by
  induction cs with
  | nil => exact ⟨0, by simp⟩
  | cons c cs ih =>
    by_cases hc : c.Holds checks
    · have hrest : ∃ fuel, runAll (answer stuck checks fuel) cs ≠ .error stuck := by
        apply ih fun c' hc' => hsettled c' (List.mem_cons_of_mem c hc')
        rintro q ⟨before, after, rest, rfl, hbefore⟩
        refine h q ⟨c :: before, after, rest, rfl, ?_⟩
        intro c' hc'
        rcases List.mem_cons.mp hc' with rfl | hc'
        · exact hc
        · exact hbefore c' hc'
      obtain ⟨fuel₁, h₁⟩ := Check.exists_run_of_holds stuck hc
      obtain ⟨fuel₂, h₂⟩ := hrest
      refine ⟨max fuel₁ fuel₂, ?_⟩
      rw [runAll_cons_yes cs (Check.run_yes_of_le (Nat.le_max_left ..) h₁),
        (answer_extends (Nat.le_max_right ..)).runAll h₂]
      exact h₂
    · -- the run ends here, so what is left is that this check is not open
      have hopen : ∃ fuel, c.run (answer stuck checks fuel) ≠ .ok true ∧
          c.run (answer stuck checks fuel) ≠ .error stuck := by
        cases c with
        | settled x =>
          refine ⟨0, hc, fun hx => ?_⟩
          exact hsettled (.settled x) (List.mem_cons_self ..) (congrArg Check.settled hx)
        | ask q after =>
          obtain ⟨fuel, hfuel⟩ := h q ⟨[], after, cs, rfl, by simp⟩
          refine ⟨fuel, ?_⟩
          by_cases hq : answer stuck checks fuel q = .ok true
          · have hafter : after ≠ true := fun hafter => hc ⟨hafter, holds_of_answer hq⟩
            rw [run_ask_yes after hq]
            exact ⟨by simp [hafter], by simp⟩
          · rw [run_ask_of_ne after hq]
            exact ⟨hq, hfuel⟩
      obtain ⟨fuel, hno, hne⟩ := hopen
      exact ⟨fuel, by rwa [runAll_cons_of_ne cs hno]⟩

/-- **A question is answered with enough fuel exactly when asking descends from it.** -/
theorem exists_answer_ne_iff_acc (hsettled : ∀ q, ∀ c ∈ checks q, c ≠ .settled (.error stuck))
    (q : Q) :
    (∃ fuel, answer stuck checks fuel q ≠ .error stuck) ↔
      Acc (fun q' q => Reaches checks q q') q := by
  constructor
  · rintro ⟨fuel, h⟩
    induction fuel generalizing q with
    | zero => exact absurd rfl h
    | succ fuel ih => exact ⟨q, fun q' hq' => ih q' (answer_ne_of_reachedIn h hq')⟩
  · intro h
    induction h with
    | intro q _ ih =>
      obtain ⟨fuel, hfuel⟩ := exists_runAll_ne (hsettled q) ih
      exact ⟨fuel + 1, hfuel⟩

/-- A list is gone through with enough fuel exactly when asking descends from every
question it gets to ask. -/
theorem exists_runAll_ne_iff_acc (hsettled : ∀ q, ∀ c ∈ checks q, c ≠ .settled (.error stuck))
    (hcs : ∀ c ∈ cs, c ≠ .settled (.error stuck)) :
    (∃ fuel, runAll (answer stuck checks fuel) cs ≠ .error stuck) ↔
      ∀ q, ReachedIn checks cs q → Acc (fun q' q => Reaches checks q q') q := by
  constructor
  · rintro ⟨fuel, h⟩ q hq
    exact (exists_answer_ne_iff_acc hsettled q).mp ⟨fuel, answer_ne_of_reachedIn h hq⟩
  · intro h
    exact exists_runAll_ne hcs fun q hq => (exists_answer_ne_iff_acc hsettled q).mpr (h q hq)

end Stops

/-- On finitely many elements a relation descends from one exactly when none that it
leads to leads back to itself. -/
theorem acc_iff_forall_not_transGen {α : Type} {r : α → α → Prop} {a : α}
    (hfinite : {b | Relation.ReflTransGen r a b}.Finite) :
    Acc (fun x y => r y x) a ↔ ∀ b, Relation.ReflTransGen r a b → ¬ Relation.TransGen r b b := by
  constructor
  · intro h b hab hbb
    have hb : Acc (fun x y => r y x) b := by
      clear hbb
      induction hab with
      | refl => exact h
      | tail _ hstep ih => exact ih.inv hstep
    have hirrefl : ∀ x, Acc (Relation.TransGen fun x y => r y x) x →
        ¬ Relation.TransGen (fun x y => r y x) x x := by
      intro x hx
      induction hx with
      | intro x _ ih => exact fun hxx => ih x hxx hxx
    exact hirrefl b hb.transGen (Relation.transGen_swap.mpr hbb)
  · intro h
    have hfin : Finite {b // Relation.ReflTransGen r a b} := hfinite
    let R (x y : {b // Relation.ReflTransGen r a b}) : Prop := Relation.TransGen r y.1 x.1
    have htrans : IsTrans _ R := ⟨fun _ _ _ hxy hyz => hyz.trans hxy⟩
    have hirrefl : Std.Irrefl R := ⟨fun x => h x.1 x.2⟩
    have hacc : ∀ x, Acc R x → Acc (fun x y => r y x) x.1 := by
      intro x hx
      induction hx with
      | intro x _ ih =>
        exact ⟨x.1, fun y hy => ih ⟨y, x.2.tail hy⟩ (.single hy)⟩
    exact hacc ⟨a, .refl⟩ ((Finite.wellFounded_of_trans_of_irrefl R).apply _)

end Checklist
