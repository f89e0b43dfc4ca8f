import Mathlib.Tactic

/-! Lists of command line arguments.

A word is an option with one value or with three behind it, an option that ends it all, or
an argument by itself. `parse` goes through the words from the left. What it accepts are the
lists that fall apart into groups, a word with its values each, and the groups take effect
in order (`parse_eq_ok_iff`). -/
namespace ArgumentList

/-- What a word is, and what it does to the result when its values are there. -/
inductive Kind (σ ε : Type) where
  | one (missing : ε) (set : String → σ → Except ε σ)
  | three (missing : ε) (set : String → String → String → σ → Except ε σ)
  | stop (reason : ε)
  | plain (set : σ → Except ε σ)

variable {σ ε : Type}

def parse (kind : String → Kind σ ε) : List String → σ → Except ε σ
  | [], st => .ok st
  | word :: rest, st =>
    match kind word with
    | .one missing set =>
      match rest with
      | value :: rest => (set value st).bind (parse kind rest)
      | [] => .error missing
    | .three missing set =>
      match rest with
      | value₁ :: value₂ :: value₃ :: rest =>
        (set value₁ value₂ value₃ st).bind (parse kind rest)
      | _ => .error missing
    | .stop reason => .error reason
    | .plain set => (set st).bind (parse kind rest)

/-- A word and the values behind it. -/
structure Group where
  word : String
  values : List String
deriving DecidableEq, Repr

def Group.words (g : Group) : List String := g.word :: g.values

/-- What a group does, if it has as many values as its word takes. -/
def effect (kind : String → Kind σ ε) (g : Group) : Option (σ → Except ε σ) :=
  match kind g.word, g.values with
  | .one _ set, [value] => some (set value)
  | .three _ set, [value₁, value₂, value₃] => some (set value₁ value₂ value₃)
  | .plain set, [] => some set
  | _, _ => none

/-- The groups have their values, and take effect one after another. -/
inductive Reads (kind : String → Kind σ ε) : List Group → σ → σ → Prop where
  | nil (st : σ) : Reads kind [] st st
  | cons {g : Group} {groups : List Group} {set : σ → Except ε σ} {st mid st' : σ} :
      effect kind g = some set → set st = .ok mid → Reads kind groups mid st' →
      Reads kind (g :: groups) st st'

section
variable {kind : String → Kind σ ε} {st st' : σ} {g : Group} {groups : List Group}

theorem bind_ok_iff {α β : Type} {x : Except ε α} {f : α → Except ε β} {b : β} :
    x.bind f = .ok b ↔ ∃ a, x = .ok a ∧ f a = .ok b := by
  cases x <;> simp [Except.bind]

theorem effect_eq_of_one {missing : ε} {set : String → σ → Except ε σ} {set' : σ → Except ε σ}
    (h : kind g.word = .one missing set) :
    effect kind g = some set' ↔ ∃ value, g.values = [value] ∧ set value = set' := by
  unfold effect
  rw [h]
  cases hvalues : g.values with
  | nil => simp
  | cons value rest => cases rest <;> simp

theorem effect_eq_of_three {missing : ε} {set : String → String → String → σ → Except ε σ}
    {set' : σ → Except ε σ} (h : kind g.word = .three missing set) :
    effect kind g = some set' ↔ ∃ value₁ value₂ value₃, g.values = [value₁, value₂, value₃] ∧
      set value₁ value₂ value₃ = set' := by
  unfold effect
  rw [h]
  rcases hvalues : g.values with _ | ⟨value₁, _ | ⟨value₂, _ | ⟨value₃, _ | ⟨value₄, rest⟩⟩⟩⟩ <;>
    simp

theorem effect_eq_of_plain {set set' : σ → Except ε σ} (h : kind g.word = .plain set) :
    effect kind g = some set' ↔ g.values = [] ∧ set = set' := by
  unfold effect
  rw [h]
  cases hvalues : g.values <;> simp

theorem effect_eq_of_stop {reason : ε} (h : kind g.word = .stop reason) : effect kind g = none := by
  unfold effect
  rw [h]

/-- One group. -/
theorem parse_group {set : σ → Except ε σ} (h : effect kind g = some set) (rest : List String)
    (st : σ) : parse kind (g.words ++ rest) st = (set st).bind (parse kind rest) := by
  obtain ⟨word, values⟩ := g
  rw [Group.words, List.cons_append, parse]
  unfold effect at h
  dsimp only at h ⊢
  split at h
  · rename_i hkind
    cases h
    rw [hkind]
    rfl
  · rename_i hkind
    cases h
    rw [hkind]
    rfl
  · rename_i hkind
    cases h
    rw [hkind]
    rfl
  · cases h

/-- A word that is accepted begins a group. -/
theorem exists_group {word : String} {rest : List String}
    (h : parse kind (word :: rest) st = .ok st') : ∃ g set rest' mid, effect kind g = some set ∧
      g.words ++ rest' = word :: rest ∧ set st = .ok mid ∧ parse kind rest' mid = .ok st' := by
  rw [parse] at h
  split at h
  · rename_i missing set hkind
    split at h
    · rename_i value rest
      obtain ⟨mid, hset, hrest⟩ := bind_ok_iff.mp h
      refine ⟨⟨word, [value]⟩, set value, rest, mid, ?_, rfl, hset, hrest⟩
      rw [effect, hkind]
    · cases h
  · rename_i missing set hkind
    split at h
    · rename_i value₁ value₂ value₃ rest
      obtain ⟨mid, hset, hrest⟩ := bind_ok_iff.mp h
      refine ⟨⟨word, [value₁, value₂, value₃]⟩, set value₁ value₂ value₃, rest, mid, ?_, rfl, hset,
        hrest⟩
      rw [effect, hkind]
    · cases h
  · cases h
  · rename_i set hkind
    obtain ⟨mid, hset, hrest⟩ := bind_ok_iff.mp h
    refine ⟨⟨word, []⟩, set, rest, mid, ?_, rfl, hset, hrest⟩
    rw [effect, hkind]

/-- **The lists that are accepted are sequences of groups.** -/
theorem parse_eq_ok_iff {words : List String} :
    parse kind words st = .ok st' ↔ ∃ groups, groups.flatMap Group.words = words ∧
      Reads kind groups st st' := by
  constructor
  · intro h
    induction hn : words.length using Nat.strong_induction_on generalizing words st with
    | _ n ih =>
      cases words with
      | nil =>
        cases h
        exact ⟨[], rfl, .nil st'⟩
      | cons word rest =>
        obtain ⟨g, set, rest', mid, heffect, hwords, hset, hrest⟩ := exists_group h
        have hlt : rest'.length < n := by
          have hlength := congrArg List.length hwords
          simp only [Group.words, List.length_append, List.length_cons] at hlength hn
          omega
        obtain ⟨groups, hgroups, hreads⟩ := ih rest'.length hlt hrest rfl
        refine ⟨g :: groups, ?_, .cons heffect hset hreads⟩
        rw [List.flatMap_cons, hgroups, hwords]
  · rintro ⟨groups, rfl, hreads⟩
    induction hreads with
    | nil st => rfl
    | cons heffect hset _ ih =>
      rw [List.flatMap_cons, parse_group heffect, hset]
      exact ih

/-- Words that may do more than they did still do that. -/
theorem Reads.mono {kind' : String → Kind σ ε} (h : Reads kind groups st st')
    (hmono : ∀ g ∈ groups, ∀ set st mid, effect kind g = some set → set st = .ok mid →
      ∃ set', effect kind' g = some set' ∧ set' st = .ok mid) : Reads kind' groups st st' := by
  induction h with
  | nil st => exact .nil st
  | cons heffect hset _ ih =>
    obtain ⟨hg, hgroups⟩ := List.forall_mem_cons.mp hmono
    obtain ⟨set', heffect', hset'⟩ := hg _ _ _ heffect hset
    exact .cons heffect' hset' (ih hgroups)

/-- What every group keeps. -/
theorem Reads.keeps {I : σ → Prop} (h : Reads kind groups st st')
    (hkeeps : ∀ g ∈ groups, ∀ set st mid, effect kind g = some set → set st = .ok mid → I st → I mid)
    (hst : I st) : I st' := by
  induction h with
  | nil st => exact hst
  | cons heffect hset _ ih =>
    obtain ⟨hg, hgroups⟩ := List.forall_mem_cons.mp hkeeps
    exact ih hgroups (hg _ _ _ heffect hset hst)

end

end ArgumentList
