import Ppc2cpp.Lib.GenKill

/-! Definitions along one walk through a flow graph.

A walk starts at the entry and follows the edges. The step that touched an element last
decides what the element holds now (`LastTouch`), and what it defined there is one of the
definitions that reach. So two graphs on the same blocks, in which the same blocks have
definitions that reach, agree on the step along every walk (`LastTouch.transfer`). -/
namespace GenKill

variable {B D D' V : Type}

/-- Blocks one after another, the first of them the entry. -/
structure Walk (edge : B → B → Prop) (entry : B) (block : Nat → B) (n : Nat) : Prop where
  entry : block 0 = entry
  edge : ∀ t < n, edge (block t) (block (t + 1))

/-- Step `t` is the last of the first `n` that did not leave the element alone. -/
structure LastTouch (effect : B → Effect D) (block : Nat → B) (n t : Nat) : Prop where
  lt : t < n
  touches : effect (block t) ≠ .pass
  after : ∀ u, t < u → u < n → effect (block u) = .pass

/-- A definition of the block `c` is visible in front of `q`. -/
def DefinedFrom (edge : B → B → Prop) (effect : B → Effect D) (q c : B) : Prop :=
  ∃ d, effect c = .gen d ∧ ReachesBefore edge effect d q

section
variable {edge : B → B → Prop} {effect : B → Effect D} {entry : B} {block : Nat → B} {n t : Nat}

theorem Walk.mono (h : Walk edge entry block n) {m : Nat} (hm : m ≤ n) :
    Walk edge entry block m where
  entry := h.entry
  edge t ht := h.edge t (lt_of_lt_of_le ht hm)

/-- Some step was the last, or none touched the element. -/
theorem exists_lastTouch_or (effect : B → Effect D) (block : Nat → B) (n : Nat) :
    (∃ t, LastTouch effect block n t) ∨ ∀ u < n, effect (block u) = .pass := by
  induction n with
  | zero => exact .inr fun u hu => absurd hu (Nat.not_lt_zero u)
  | succ n ih =>
    by_cases hlast : effect (block n) = .pass
    · rcases ih with ⟨t, ht⟩ | hall
      · refine .inl ⟨t, Nat.lt_succ_of_lt ht.lt, ht.touches, fun u hu hun => ?_⟩
        rcases Nat.lt_succ_iff_lt_or_eq.mp hun with hlt | rfl
        · exact ht.after u hu hlt
        · exact hlast
      · refine .inr fun u hu => ?_
        rcases Nat.lt_succ_iff_lt_or_eq.mp hu with hlt | rfl
        · exact hall u hlt
        · exact hlast
    · exact .inl ⟨n, Nat.lt_succ_self n, hlast, fun u hu hun => absurd hun (by omega)⟩

theorem LastTouch.unique {u : Nat} (ht : LastTouch effect block n t)
    (hu : LastTouch effect block n u) : t = u := by
  rcases Nat.lt_trichotomy t u with hlt | heq | hgt
  · exact absurd (ht.after u hlt hu.lt) hu.touches
  · exact heq
  · exact absurd (hu.after t hgt ht.lt) ht.touches

theorem LastTouch.congr {block' : Nat → B} (ht : LastTouch effect block n t)
    (hsame : ∀ u < n, block u = block' u) : LastTouch effect block' n t where
  lt := ht.lt
  touches := hsame t ht.lt ▸ ht.touches
  after u hu hun := hsame u hun ▸ ht.after u hu hun

/-- What changes only where the element is touched is as the last touch left it. -/
theorem LastTouch.kept (ht : LastTouch effect block n t) (content : Nat → V)
    (hpass : ∀ u < n, effect (block u) = .pass → content (u + 1) = content u) :
    content n = content (t + 1) := by
  have hkept : ∀ m, t + 1 ≤ m → m ≤ n → content m = content (t + 1) := by
    intro m hm
    induction m, hm using Nat.le_induction with
    | base => exact fun _ => rfl
    | succ m hm ih =>
      intro hmn
      rw [hpass m hmn (ht.after m hm hmn)]
      exact ih (by omega)
  exact hkept n ht.lt (le_refl n)

theorem untouched_kept (content : Nat → V) (hall : ∀ u < n, effect (block u) = .pass)
    (hpass : ∀ u < n, effect (block u) = .pass → content (u + 1) = content u) :
    content n = content 0 := by
  induction n with
  | zero => rfl
  | succ n ih =>
    rw [hpass n (Nat.lt_succ_self n) (hall n (Nat.lt_succ_self n))]
    exact ih (fun u hu => hall u (by omega)) fun u hu => hpass u (by omega)

/-- Where no step touched the element the entry is clear. -/
theorem Walk.clear (h : Walk edge entry block n) (hall : ∀ u < n, effect (block u) = .pass) :
    Clear edge effect entry (block n) := by
  induction n with
  | zero => exact h.entry ▸ .entry
  | succ n ih =>
    have hclear := ih (h.mono (Nat.le_succ n)) fun u hu => hall u (Nat.lt_succ_of_lt hu)
    exact .pass hclear (hall n (Nat.lt_succ_self n)) (h.edge n (Nat.lt_succ_self n))

/-- **What the last touch defined reaches.** -/
theorem LastTouch.reaches (ht : LastTouch effect block n t) (h : Walk edge entry block n) {d : D}
    (hgen : effect (block t) = .gen d) : ReachesBefore edge effect d (block n) := by
  have hends : ∀ m, t ≤ m → m < n → Reaches edge effect d (block m) := by
    intro m hm
    induction m, hm using Nat.le_induction with
    | base => exact fun _ => .gen hgen
    | succ m hm ih =>
      intro hmn
      exact .pass (h.edge m (by omega)) (ht.after (m + 1) (by omega) hmn) (ih (by omega))
  obtain ⟨m, rfl⟩ : ∃ m, n = m + 1 := ⟨n - 1, by have := ht.lt; omega⟩
  exact ⟨block m, h.edge m (Nat.lt_succ_self m), hends m (by have := ht.lt; omega) (Nat.lt_succ_self m)⟩

/-- Where nothing is killed, a touch is a definition. -/
theorem LastTouch.exists_gen (ht : LastTouch effect block n t)
    (hkill : ∀ u < n, effect (block u) ≠ .kill) : ∃ d, effect (block t) = .gen d := by
  have htouches := ht.touches
  have hkept := hkill t ht.lt
  cases he : effect (block t) with
  | pass => exact absurd he htouches
  | kill => exact absurd he hkept
  | gen d => exact ⟨d, rfl⟩

theorem LastTouch.definedFrom (ht : LastTouch effect block n t) (h : Walk edge entry block n)
    (hkill : ∀ u < n, effect (block u) ≠ .kill) : DefinedFrom edge effect (block n) (block t) := by
  obtain ⟨d, hd⟩ := ht.exists_gen hkill
  exact ⟨d, hd, ht.reaches h hd⟩

/-- A definition that reaches comes from a block with a way out. -/
theorem ReachesBefore.exists_source {d : D} {q : B} (h : ReachesBefore edge effect d q) :
    ∃ c r, effect c = .gen d ∧ edge c r := by
  obtain ⟨p, hedge, hp⟩ := h
  induction hp generalizing q with
  | gen hgen => exact ⟨_, q, hgen, hedge⟩
  | pass hedge' _ _ ih => exact ih hedge'

/-- **If on the way only the block's own definitions reach it, the entry is clear**: before
its first visit nothing was defined. -/
theorem Walk.clear_of_own (h : Walk edge entry block n)
    (hkill : ∀ u < n, effect (block u) ≠ .kill)
    (hown : ∀ u < n, DefinedFrom edge effect (block n) (block u) → block u = block n) :
    Clear edge effect entry (block n) := by
  classical
  have hvisited : ∃ m, block m = block n := ⟨n, rfl⟩
  set m := Nat.find hvisited with hm
  have hmn : m ≤ n := Nat.find_min' hvisited rfl
  have hblock : block m = block n := Nat.find_spec hvisited
  have hwalk := h.mono hmn
  rcases exists_lastTouch_or effect block m with ⟨t, ht⟩ | hall
  · have hdefined := ht.definedFrom hwalk fun u hu => hkill u (lt_of_lt_of_le hu hmn)
    rw [hblock] at hdefined
    exact absurd (hown t (lt_of_lt_of_le ht.lt hmn) hdefined) (Nat.find_min hvisited ht.lt)
  · exact hblock ▸ hwalk.clear hall

end

/-- **Two graphs in which the same blocks of a walk have definitions that reach agree on
the last touch.** -/
theorem LastTouch.transfer {edge edge' : B → B → Prop} {effect : B → Effect D}
    {effect' : B → Effect D'} {entry : B} {block : Nat → B} {n t : Nat}
    (ht : LastTouch effect block n t) (h : Walk edge entry block n)
    (h' : Walk edge' entry block n) (hkill : ∀ u < n, effect (block u) ≠ .kill)
    (hkill' : ∀ u < n, effect' (block u) ≠ .kill)
    (hsame : ∀ u < n, DefinedFrom edge effect (block n) (block u) ↔
      DefinedFrom edge' effect' (block n) (block u)) :
    LastTouch effect' block n t := by
  have htouches : ∀ c, DefinedFrom edge' effect' (block n) c → effect' c ≠ .pass := by
    intro c hc hpass
    obtain ⟨d, hd, _⟩ := hc
    rw [hpass] at hd
    cases hd
  have hdefined := (hsame t ht.lt).mp (ht.definedFrom h hkill)
  rcases exists_lastTouch_or effect' block n with ⟨u, hu⟩ | hall
  · obtain ⟨d, hd, _⟩ := (hsame u hu.lt).mpr (hu.definedFrom h' hkill')
    rcases Nat.lt_trichotomy t u with hlt | rfl | hgt
    · rw [ht.after u hlt hu.lt] at hd
      cases hd
    · exact hu
    · exact absurd (hu.after t hgt ht.lt) (htouches _ hdefined)
  · exact absurd (hall t ht.lt) (htouches _ hdefined)

end GenKill
