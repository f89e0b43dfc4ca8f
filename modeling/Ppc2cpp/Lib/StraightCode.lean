import Mathlib.Tactic

/-! Straight-line code run on terms.

An instruction reads constants and registers, and what it makes of them is one term, which
it writes to its output registers. A register that is read before anything is written to it
gives the name it is read by. Some instructions are observed: they leave an event.

What is observed does not change if two independent instructions change places, if an
instruction whose outputs nothing reads comes or goes (`Edit.alike`), or if the registers
are renamed (`run_rename`). -/
namespace StraightCode

/-- What a register holds. -/
inductive Term (L C K : Type) where
  | input (name : L)
  | const (c : C)
  | node (key : K) (args : List (Term L C K))

structure Insn (L C K R : Type) where
  key : K
  consts : List C
  /-- The registers it reads, each with the name it is read by. -/
  reads : List (L × R)
  writes : List R
  observed : Bool

abbrev Env (L C K R : Type) := R → Option (Term L C K)

section
variable {L C K R : Type}

def Env.read (env : Env L C K R) (p : L × R) : Term L C K := (env p.2).getD (.input p.1)

namespace Insn
variable (i : Insn L C K R) (env : Env L C K R)

def regs : List R := i.reads.map Prod.snd

def args : List (Term L C K) := i.consts.map .const ++ i.reads.map env.read

def step [DecidableEq R] : Env L C K R :=
  fun r => if r ∈ i.writes then some (.node i.key (i.args env)) else env r

def events : List (K × List (Term L C K)) := if i.observed then [(i.key, i.args env)] else []

end Insn

/-- What the arguments depend on. -/
theorem Insn.args_congr {i : Insn L C K R} {env env' : Env L C K R}
    (h : ∀ r ∈ i.regs, env r = env' r) : i.args env = i.args env' := by
  have hreads : i.reads.map env.read = i.reads.map env'.read := by
    refine List.map_congr_left fun p hp => ?_
    rw [Env.read, Env.read, h p.2 (List.mem_map_of_mem hp)]
  rw [args, args, hreads]

variable [DecidableEq R]

/-- The registers behind some instructions. -/
def final (code : List (Insn L C K R)) (env : Env L C K R) : Env L C K R :=
  code.foldl (fun env i => i.step env) env

/-- What is observed of some instructions. -/
def events : List (Insn L C K R) → Env L C K R → List (K × List (Term L C K))
  | [], _ => []
  | i :: rest, env => i.events env ++ events rest (i.step env)

variable {code code' code'' rest : List (Insn L C K R)} {i j : Insn L C K R} {env env' : Env L C K R}

@[simp] theorem final_nil : final [] env = env := rfl

@[simp] theorem final_cons : final (i :: rest) env = final rest (i.step env) := rfl

theorem final_append : final (code ++ code') env = final code' (final code env) :=
  List.foldl_append

theorem events_append :
    events (code ++ code') env = events code env ++ events code' (final code env) := by
  induction code generalizing env with
  | nil => rfl
  | cons i rest ih => rw [List.cons_append, events, events, ih, final_cons, List.append_assoc]

theorem Insn.step_of_mem {r : R} (h : r ∈ i.writes) :
    i.step env r = some (.node i.key (i.args env)) := if_pos h

theorem Insn.step_of_not_mem {r : R} (h : r ∉ i.writes) : i.step env r = env r := if_neg h

/-! ### What is observed of a code -/

/-- Two codes are observed alike, and leave the registers that are kept alike. -/
def Alike (kept : R → Prop) (code code' : List (Insn L C K R)) : Prop :=
  ∀ env, events code env = events code' env ∧ ∀ r, kept r → final code env r = final code' env r

variable {kept : R → Prop}

theorem Alike.refl (kept : R → Prop) (code : List (Insn L C K R)) : Alike kept code code :=
  fun _ => ⟨rfl, fun _ _ => rfl⟩

theorem Alike.symm (h : Alike kept code code') : Alike kept code' code :=
  fun env => ⟨(h env).1.symm, fun r hr => ((h env).2 r hr).symm⟩

theorem Alike.trans (h : Alike kept code code') (h' : Alike kept code' code'') :
    Alike kept code code'' :=
  fun env => ⟨(h env).1.trans (h' env).1, fun r hr => ((h env).2 r hr).trans ((h' env).2 r hr)⟩

theorem Alike.append_left (before : List (Insn L C K R)) (h : Alike kept code code') :
    Alike kept (before ++ code) (before ++ code') := by
  intro env
  obtain ⟨hevents, hfinal⟩ := h (final before env)
  constructor
  · rw [events_append, events_append, hevents]
  · intro r hr
    rw [final_append, final_append, hfinal r hr]

/-! ### Independent instructions -/

/-- Neither instruction writes a register that the other reads or writes. -/
structure Insn.Independent (i j : Insn L C K R) : Prop where
  writes : ∀ r ∈ i.writes, r ∉ j.writes
  left : ∀ r ∈ i.writes, r ∉ j.regs
  right : ∀ r ∈ j.writes, r ∉ i.regs

namespace Insn.Independent

theorem args_right (h : i.Independent j) : j.args (i.step env) = j.args env :=
  args_congr fun _ hr => step_of_not_mem fun hw => h.left _ hw hr

theorem args_left (h : i.Independent j) : i.args (j.step env) = i.args env :=
  args_congr fun _ hr => step_of_not_mem fun hw => h.right _ hw hr

/-- **Independent instructions commute.** -/
theorem step_comm (h : i.Independent j) : j.step (i.step env) = i.step (j.step env) := by
  funext r
  by_cases hi : r ∈ i.writes
  · rw [step_of_not_mem (h.writes r hi), step_of_mem hi, step_of_mem hi, h.args_left]
  · by_cases hj : r ∈ j.writes
    · rw [step_of_mem hj, step_of_not_mem hi, step_of_mem hj, h.args_right]
    · rw [step_of_not_mem hj, step_of_not_mem hi, step_of_not_mem hi, step_of_not_mem hj]

end Insn.Independent

theorem Alike.swap (h : i.Independent j) (hobserved : ¬ (i.observed = true ∧ j.observed = true))
    (rest : List (Insn L C K R)) : Alike kept (i :: j :: rest) (j :: i :: rest) := by
  intro env
  constructor
  · rw [events, events, events, events, h.step_comm, ← List.append_assoc, ← List.append_assoc]
    congr 1
    rw [Insn.events, Insn.events, Insn.events, Insn.events, h.args_left, h.args_right]
    -- one of the two leaves no event
    by_cases hi : i.observed = true
    · rw [if_neg fun hj => hobserved ⟨hi, hj⟩, List.append_nil, List.nil_append]
    · rw [if_neg hi, List.append_nil, List.nil_append]
  · intro r _
    rw [final_cons, final_cons, final_cons, final_cons, h.step_comm]

/-! ### Instructions nothing reads -/

/-- Nothing reads the register before something is written to it. -/
def Unread (r : R) : List (Insn L C K R) → Prop
  | [] => True
  | i :: rest => r ∉ i.regs ∧ (r ∈ i.writes ∨ Unread r rest)

/-- Registers that nothing reads do not matter, and what is written to is the same again. -/
theorem run_congr (h : ∀ r, env r = env' r ∨ Unread r code) :
    events code env = events code env' ∧ ∀ r, (env r = env' r ∨ ∃ i ∈ code, r ∈ i.writes) →
      final code env r = final code env' r := by
  induction code generalizing env env' with
  | nil =>
    refine ⟨rfl, fun r hr => ?_⟩
    rcases hr with hr | ⟨i, hi, _⟩
    · exact hr
    · cases hi
  | cons i rest ih =>
    have hargs : i.args env = i.args env' :=
      Insn.args_congr fun r hr => (h r).resolve_right fun hun => hun.1 hr
    have hwritten : ∀ r ∈ i.writes, i.step env r = i.step env' r := by
      intro r hr
      rw [Insn.step_of_mem hr, Insn.step_of_mem hr, hargs]
    have hother : ∀ r, r ∉ i.writes → env r = env' r → i.step env r = i.step env' r := by
      intro r hr heq
      rw [Insn.step_of_not_mem hr, Insn.step_of_not_mem hr, heq]
    have hstep : ∀ r, i.step env r = i.step env' r ∨ Unread r rest := by
      intro r
      by_cases hr : r ∈ i.writes
      · exact .inl (hwritten r hr)
      · exact (h r).imp (hother r hr) fun hun => hun.2.resolve_left hr
    obtain ⟨hevents, hfinal⟩ := ih hstep
    constructor
    · rw [events, events, hevents, Insn.events, Insn.events, hargs]
    · intro r hr
      rw [final_cons, final_cons]
      refine hfinal r ?_
      by_cases hi : r ∈ i.writes
      · exact .inl (hwritten r hi)
      · refine hr.imp (hother r hi) ?_
        rintro ⟨j, hj, hw⟩
        rcases List.mem_cons.mp hj with rfl | hj
        · exact absurd hw hi
        · exact ⟨j, hj, hw⟩

/-- An instruction that is not observed, whose outputs nothing reads, and which is not the
last to define a register that is kept. -/
structure Insn.Idle (kept : R → Prop) (i : Insn L C K R) (rest : List (Insn L C K R)) : Prop where
  unobserved : i.observed = false
  unread : ∀ r ∈ i.writes, Unread r rest
  redefined : ∀ r ∈ i.writes, kept r → ∃ j ∈ rest, r ∈ j.writes

theorem Insn.Idle.alike (h : i.Idle kept rest) : Alike kept (i :: rest) rest := by
  intro env
  have hsame : ∀ r, r ∉ i.writes → i.step env r = env r := fun r => step_of_not_mem
  have hdiffer : ∀ r, i.step env r = env r ∨ Unread r rest := by
    intro r
    by_cases hr : r ∈ i.writes
    · exact .inr (h.unread r hr)
    · exact .inl (hsame r hr)
  obtain ⟨hevents, hfinal⟩ := run_congr hdiffer
  constructor
  · rw [StraightCode.events, Insn.events, h.unobserved, hevents]
    rfl
  · intro r hkept
    refine hfinal r ?_
    by_cases hr : r ∈ i.writes
    · exact .inr (h.redefined r hr hkept)
    · exact .inl (hsame r hr)

/-! ### Edits -/

/-- Two independent instructions change places, or an idle one comes or goes. -/
inductive Edit (kept : R → Prop) : List (Insn L C K R) → List (Insn L C K R) → Prop where
  | swap {i j : Insn L C K R} (before rest : List (Insn L C K R)) : i.Independent j →
      ¬ (i.observed = true ∧ j.observed = true) →
      Edit kept (before ++ i :: j :: rest) (before ++ j :: i :: rest)
  | insert {i : Insn L C K R} {rest : List (Insn L C K R)} (before : List (Insn L C K R)) :
      i.Idle kept rest → Edit kept (before ++ rest) (before ++ i :: rest)
  | delete {i : Insn L C K R} {rest : List (Insn L C K R)} (before : List (Insn L C K R)) :
      i.Idle kept rest → Edit kept (before ++ i :: rest) (before ++ rest)

theorem Edit.alike (h : Edit kept code code') : Alike kept code code' := by
  cases h with
  | swap before rest hind hobserved => exact (Alike.swap hind hobserved rest).append_left before
  | insert before hidle => exact hidle.alike.symm.append_left before
  | delete before hidle => exact hidle.alike.append_left before

/-- **Any number of edits leaves what is observed as it is.** -/
theorem alike_of_edits (h : Relation.ReflTransGen (Edit kept) code code') :
    Alike kept code code' := by
  induction h with
  | refl => exact .refl kept code
  | tail _ hedit ih => exact ih.trans hedit.alike

end

/-! ### Renaming -/

section
variable {L C K R R' : Type} {f : R → R'} {g : L → L}

def Insn.rename (f : R → R') (g : L → L) (i : Insn L C K R) : Insn L C K R' where
  key := i.key
  consts := i.consts
  reads := i.reads.map (Prod.map g f)
  writes := i.writes.map f
  observed := i.observed

theorem Insn.rename_id (i : Insn L C K R) : i.rename id id = i := by
  rw [rename, Prod.map_id, List.map_id, List.map_id]

/-- A register is read, by a name, before anything is written to it. -/
def Enters (p : L × R) : List (Insn L C K R) → Prop
  | [] => False
  | i :: rest => p ∈ i.reads ∨ p.2 ∉ i.writes ∧ Enters p rest

theorem enters_iff {p : L × R} {code : List (Insn L C K R)} : Enters p code ↔
    ∃ (k : Nat) (i : Insn L C K R), code[k]? = some i ∧ p ∈ i.reads ∧
      ∀ k' < k, ∀ j, code[k']? = some j → p.2 ∉ j.writes := by
  induction code with
  | nil => simp [Enters]
  | cons i rest ih =>
    rw [Enters, ih]
    constructor
    · rintro (hp | ⟨hi, k, j, hj, hp, hearlier⟩)
      · exact ⟨0, i, rfl, hp, fun k' hk' => absurd hk' (Nat.not_lt_zero k')⟩
      · refine ⟨k + 1, j, hj, hp, fun k' hk' j' hj' => ?_⟩
        cases k' with
        | zero => exact (Option.some.inj hj') ▸ hi
        | succ k' => exact hearlier k' (Nat.lt_of_succ_lt_succ hk') j' hj'
    · rintro ⟨k, j, hj, hp, hearlier⟩
      cases k with
      | zero => exact .inl ((Option.some.inj hj) ▸ hp)
      | succ k =>
        refine .inr ⟨hearlier 0 (Nat.succ_pos k) i rfl, k, j, hj, hp, fun k' hk' => ?_⟩
        exact hearlier (k' + 1) (Nat.succ_lt_succ hk')

variable [DecidableEq R] [DecidableEq R'] {code : List (Insn L C K R)} {env : Env L C K R}
  {env' : Env L C K R'}

/-- **A code with its registers renamed is observed alike**, if the renaming keeps registers
apart, and the names by which the code reads what it was given. -/
theorem run_rename (hf : Function.Injective f) (henv : ∀ r, env' (f r) = env r)
    (hnames : ∀ p, Enters p code → env p.2 = none → g p.1 = p.1) :
    events (code.map (Insn.rename f g)) env' = events code env ∧
      ∀ r, final (code.map (Insn.rename f g)) env' (f r) = final code env r := by
  induction code generalizing env env' with
  | nil => exact ⟨rfl, henv⟩
  | cons i rest ih =>
    have hread : ∀ p ∈ i.reads, env'.read (Prod.map g f p) = env.read p := by
      intro p hp
      have hname := hnames p (.inl hp)
      unfold Env.read
      rw [Prod.map_snd, Prod.map_fst, henv]
      cases henv' : env p.2 with
      | none => rw [Option.getD_none, Option.getD_none, hname henv']
      | some t => rfl
    have hargs : (i.rename f g).args env' = i.args env := by
      rw [Insn.args, Insn.args, Insn.rename, List.map_map]
      exact congrArg _ (List.map_congr_left hread)
    have hstep : ∀ r, (i.rename f g).step env' (f r) = i.step env r := by
      intro r
      have hmem : f r ∈ (i.rename f g).writes ↔ r ∈ i.writes := List.mem_map_of_injective hf
      by_cases hr : r ∈ i.writes
      · rw [Insn.step_of_mem (hmem.mpr hr), Insn.step_of_mem hr, hargs]
        rfl
      · rw [Insn.step_of_not_mem (mt hmem.mp hr), Insn.step_of_not_mem hr, henv]
    obtain ⟨hevents, hfinal⟩ := ih hstep fun p hp hnone => by
      have hr : p.2 ∉ i.writes := by
        intro hw
        rw [Insn.step_of_mem hw] at hnone
        cases hnone
      rw [Insn.step_of_not_mem hr] at hnone
      exact hnames p (.inr ⟨hr, hp⟩) hnone
    refine ⟨?_, hfinal⟩
    rw [List.map_cons, events, events, hevents, Insn.events, Insn.events, hargs]
    rfl

end

end StraightCode
