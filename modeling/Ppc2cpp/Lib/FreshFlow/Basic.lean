import Ppc2cpp.Lib.GenKill

/-! Worklist iteration over sets of freshly allocated definitions.

Each block of a flow graph has a context: for every storage element the set of
definitions visible at the end of the block. A step takes a block from the worklist
and computes its context anew from those of its predecessors, and a block that defines
an element allocates a new definition each time. The successors are queued if the
size of some set changed, whatever its elements are. Definitions are told apart by
identity; the site of a definition is the place in the code it stands for.

This file has the step, runs of steps, and what holds of any run: the sites in the
contexts only grow, and every one of them reaches. -/
namespace FreshFlow
open GenKill

variable {B R D : Type}

/-- A flow graph. The predecessors are the blocks whose contexts are joined, the
successors those that are queued. -/
structure Graph (B R D : Type) where
  blocks : Finset B
  preds : B → List B
  succs : B → List B
  effect : B → R → Effect D
  pred_mem : ∀ b ∈ blocks, ∀ p ∈ preds b, p ∈ blocks
  succ_mem : ∀ b ∈ blocks, ∀ c ∈ succs b, c ∈ blocks
  transpose : ∀ p ∈ blocks, ∀ b ∈ blocks, (p ∈ preds b ↔ b ∈ succs p)

structure State (B R D : Type) where
  /-- Identities below this one are handed out. -/
  next : Nat
  site : Nat → D
  ctx : B → R → Finset Nat
  worklist : List B

namespace Graph
variable (G : Graph B R D)

def Edge (p b : B) : Prop := p ∈ G.preds b

/-- What the contexts of the predecessors hold. -/
def InCtx (st : State B R D) (b : B) (r : R) : Set Nat := {n | ∃ p ∈ G.preds b, n ∈ st.ctx p r}

/-- What an effect makes of the definitions that come in. -/
def Out (st st' : State B R D) (b : B) (r : R) : Effect D → Prop
  | .pass => ∀ n, n ∈ st'.ctx b r ↔ n ∈ G.InCtx st b r
  | .kill => st'.ctx b r = ∅
  | .gen d => ∃ n, st'.ctx b r = {n} ∧ st.next ≤ n ∧ n < st'.next ∧ st'.site n = d

/-- Some set of the block has another size than before. -/
def Changed (st st' : State B R D) (b : B) : Prop := ∃ r, (st'.ctx b r).card ≠ (st.ctx b r).card

/-- The block `b` is taken from the worklist and processed. -/
structure Step (st st' : State B R D) (b : B) : Prop where
  next_le : st.next ≤ st'.next
  site_old : ∀ n, n < st.next → st'.site n = st.site n
  frame : ∀ c, c ≠ b → st'.ctx c = st.ctx c
  out : ∀ r, G.Out st st' b r (G.effect b r)
  queue : ∃ rest, st.worklist = b :: rest ∧ (¬ Changed st st' b → st'.worklist = rest) ∧
    (Changed st st' b → ∀ c, c ∈ st'.worklist ↔ c ∈ rest ∨ c ∈ G.succs b)

/-- Nothing is known, and every block is queued. -/
structure Initial (st : State B R D) : Prop where
  empty : ∀ b r, st.ctx b r = ∅
  queued : ∀ b, b ∈ st.worklist ↔ b ∈ G.blocks

/-- The first `N` steps of a run. -/
structure Run (σ : Nat → State B R D) (N : Nat) : Prop where
  initial : G.Initial (σ 0)
  step : ∀ n < N, ∃ b, G.Step (σ n) (σ (n + 1)) b

end Graph

/-- The sites of the definitions in a set. -/
def State.sites (st : State B R D) (b : B) (r : R) : Set D := {d | ∃ n ∈ st.ctx b r, st.site n = d}

theorem State.sites_nonempty {st : State B R D} {b : B} {r : R} :
    (st.sites b r).Nonempty ↔ (st.ctx b r).Nonempty := by
  constructor
  · rintro ⟨d, n, hn, _⟩
    exact ⟨n, hn⟩
  · rintro ⟨n, hn⟩
    exact ⟨st.site n, n, hn, rfl⟩

namespace Graph
variable {G : Graph B R D} {st st' : State B R D} {b : B} {r : R}

theorem Step.mem_blocks (h : G.Step st st' b) (hw : ∀ c ∈ st.worklist, c ∈ G.blocks) :
    b ∈ G.blocks := by
  obtain ⟨rest, hrest, _⟩ := h.queue
  exact hw b (by rw [hrest]; exact List.mem_cons_self)

/-- A step determines its block. -/
theorem Step.block_unique {c : B} {st'' : State B R D} (h : G.Step st st' b)
    (h' : G.Step st st'' c) : b = c := by
  obtain ⟨_, hb, _⟩ := h.queue
  obtain ⟨_, hc, _⟩ := h'.queue
  exact (List.cons.inj (hb.symm.trans hc)).1

/-- What a step does to the worklist: the block leaves it, unless it is queued again. -/
theorem Step.mem_worklist (h : G.Step st st' b) {c : B} (hc : c ∈ st.worklist) (hne : c ≠ b) :
    c ∈ st'.worklist := by
  obtain ⟨rest, hrest, hsame, hchanged⟩ := h.queue
  rw [hrest] at hc
  have hmem : c ∈ rest := (List.mem_cons.mp hc).resolve_left hne
  by_cases hch : Changed st st' b
  · exact (hchanged hch c).mpr (.inl hmem)
  · rw [hsame hch]
    exact hmem

theorem Step.queues (h : G.Step st st' b) (hch : Changed st st' b) {c : B} (hc : c ∈ G.succs b) :
    c ∈ st'.worklist := by
  obtain ⟨rest, _, _, hchanged⟩ := h.queue
  exact (hchanged hch c).mpr (.inr hc)

/-! ### What every state of a run satisfies -/

/-- One round of the data-flow equations. -/
def transfer (G : Graph B R D) (X : B → R → Set D) (b : B) (r : R) : Set D :=
  match G.effect b r with
  | .pass => {d | ∃ p ∈ G.preds b, d ∈ X p r}
  | .kill => ∅
  | .gen d => {d}

theorem transfer_mono (G : Graph B R D) {X Y : B → R → Set D} (h : ∀ b r, X b r ⊆ Y b r) (b : B)
    (r : R) : G.transfer X b r ⊆ G.transfer Y b r := by
  unfold transfer
  split
  · rintro d ⟨p, hp, hd⟩
    exact ⟨p, hp, h p r hd⟩
  · exact subset_refl _
  · exact subset_refl _

theorem transfer_pass {X : B → R → Set D} (he : G.effect b r = .pass) :
    G.transfer X b r = {d | ∃ p ∈ G.preds b, d ∈ X p r} := by
  rw [transfer, he]

theorem transfer_kill {X : B → R → Set D} (he : G.effect b r = .kill) :
    G.transfer X b r = ∅ := by
  rw [transfer, he]

theorem transfer_gen {X : B → R → Set D} {d : D} (he : G.effect b r = .gen d) :
    G.transfer X b r = {d} := by
  rw [transfer, he]

structure Inv (G : Graph B R D) (st : State B R D) : Prop where
  worklist : ∀ b ∈ st.worklist, b ∈ G.blocks
  handed : ∀ b r, ∀ n ∈ st.ctx b r, n < st.next
  /-- A context holds no site that the equations do not give it. -/
  bounded : ∀ b r, st.sites b r ⊆ G.transfer st.sites b r
  sound : ∀ b r, ∀ d ∈ st.sites b r, Reaches G.Edge (fun b => G.effect b r) d b

theorem Initial.inv (h : G.Initial st) : Inv G st where
  worklist b hb := (h.queued b).mp hb
  handed b r n hn := by simp [h.empty] at hn
  bounded b r := by
    rintro d ⟨n, hn, _⟩
    simp [h.empty] at hn
  sound b r := by
    rintro d ⟨n, hn, _⟩
    simp [h.empty] at hn

theorem Step.sites_frame (h : G.Step st st' b) (hi : Inv G st) {c : B} (hc : c ≠ b) (r : R) :
    st'.sites c r = st.sites c r := by
  ext d
  simp only [State.sites, h.frame c hc, Set.mem_ofPred_eq]
  constructor
  · rintro ⟨n, hn, rfl⟩
    exact ⟨n, hn, (h.site_old n (hi.handed c r n hn)).symm⟩
  · rintro ⟨n, hn, rfl⟩
    exact ⟨n, hn, h.site_old n (hi.handed c r n hn)⟩

/-- **The sites at the block processed are what the equations give.** -/
theorem Step.sites_block (h : G.Step st st' b) (hi : Inv G st) (r : R) :
    st'.sites b r = G.transfer st.sites b r := by
  have hout := h.out r
  unfold transfer
  cases he : G.effect b r with
  | pass =>
    rw [he] at hout
    ext d
    simp only [State.sites, Set.mem_ofPred_eq]
    constructor
    · rintro ⟨n, hn, rfl⟩
      obtain ⟨p, hp, hmem⟩ := (hout n).mp hn
      exact ⟨p, hp, n, hmem, (h.site_old n (hi.handed p r n hmem)).symm⟩
    · rintro ⟨p, hp, n, hmem, rfl⟩
      exact ⟨n, (hout n).mpr ⟨p, hp, hmem⟩, h.site_old n (hi.handed p r n hmem)⟩
  | kill =>
    rw [he] at hout
    ext d
    have hempty : st'.ctx b r = ∅ := hout
    simp [State.sites, hempty]
  | gen e =>
    rw [he] at hout
    obtain ⟨n, hn, _, _, hsite⟩ := hout
    ext d
    simp only [State.sites, hn, Set.mem_ofPred_eq, Finset.mem_singleton, exists_eq_left, hsite,
      Set.mem_singleton_iff]
    exact eq_comm

/-- **The sites only grow.** -/
theorem Step.sites_mono (h : G.Step st st' b) (hi : Inv G st) (c : B) (r : R) :
    st.sites c r ⊆ st'.sites c r := by
  by_cases hc : c = b
  · subst hc
    rw [h.sites_block hi]
    exact hi.bounded c r
  · rw [h.sites_frame hi hc]

/-- Only a block that leaves an element alone gets a new site for it unnoticed: its own
definition replaces one of the same site, and the first one changes the size. -/
theorem Step.pass_of_new (h : G.Step st st' b) (hi : Inv G st) (hsilent : ¬ Changed st st' b) {d : D}
    (hnew : d ∉ st.sites b r) (hadded : d ∈ st'.sites b r) : G.effect b r = .pass := by
  rw [h.sites_block hi] at hadded
  have hout := h.out r
  cases he : G.effect b r with
  | pass => rfl
  | kill =>
    rw [transfer_kill he] at hadded
    cases hadded
  | gen e =>
    rw [transfer_gen he, Set.mem_singleton_iff] at hadded
    rw [he] at hout
    obtain ⟨n, hn, _⟩ := hout
    have hcard : (st.ctx b r).card = 1 := by
      by_contra hne
      exact hsilent ⟨r, by rw [hn, Finset.card_singleton]; exact Ne.symm hne⟩
    obtain ⟨m, hm⟩ := Finset.card_pos.mp (by rw [hcard]; exact Nat.one_pos)
    have hsite : st.site m ∈ st.sites b r := ⟨m, hm, rfl⟩
    have hown := hi.bounded b r hsite
    rw [transfer_gen he, Set.mem_singleton_iff] at hown
    rw [hown, ← hadded] at hsite
    exact absurd hsite hnew

theorem Step.inv (h : G.Step st st' b) (hi : Inv G st) : Inv G st' where
  worklist c hc := by
    have hb := h.mem_blocks hi.worklist
    obtain ⟨rest, hrest, hsame, hchanged⟩ := h.queue
    have hold : c ∈ rest → c ∈ G.blocks := fun hmem =>
      hi.worklist c (by rw [hrest]; exact List.mem_cons_of_mem _ hmem)
    by_cases hch : Changed st st' b
    · rcases (hchanged hch c).mp hc with hmem | hmem
      · exact hold hmem
      · exact G.succ_mem b hb c hmem
    · rw [hsame hch] at hc
      exact hold hc
  handed c r n hn := by
    by_cases hc : c = b
    · subst hc
      have hout := h.out r
      cases he : G.effect c r with
      | pass =>
        rw [he] at hout
        obtain ⟨p, _, hmem⟩ := (hout n).mp hn
        exact lt_of_lt_of_le (hi.handed p r n hmem) h.next_le
      | kill =>
        rw [he] at hout
        rw [show st'.ctx c r = ∅ from hout] at hn
        simp at hn
      | gen d =>
        rw [he] at hout
        obtain ⟨m, hm, _, hlt, _⟩ := hout
        rw [hm, Finset.mem_singleton] at hn
        exact hn ▸ hlt
    · rw [h.frame c hc] at hn
      exact lt_of_lt_of_le (hi.handed c r n hn) h.next_le
  bounded c r := by
    have hmono := G.transfer_mono (fun c r => h.sites_mono hi c r) c r
    by_cases hc : c = b
    · subst hc
      rw [h.sites_block hi]
      exact hmono
    · rw [h.sites_frame hi hc]
      exact (hi.bounded c r).trans hmono
  sound c r d hd := by
    by_cases hc : c = b
    · subst hc
      rw [h.sites_block hi, transfer] at hd
      split at hd
      · obtain ⟨p, hp, hmem⟩ := hd
        exact .pass hp ‹_› (hi.sound p r d hmem)
      · cases hd
      · rename_i he
        rw [Set.mem_singleton_iff.mp hd]
        exact .gen he
    · rw [h.sites_frame hi hc] at hd
      exact hi.sound c r d hd

/-! ### Runs -/

variable {σ : Nat → State B R D} {N : Nat}

theorem Run.inv (h : G.Run σ N) {n : Nat} (hn : n ≤ N) : Inv G (σ n) := by
  induction n with
  | zero => exact h.initial.inv
  | succ n ih =>
    obtain ⟨b, hstep⟩ := h.step n hn
    exact hstep.inv (ih (by omega))

theorem Run.sites_mono (h : G.Run σ N) {m n : Nat} (hmn : m ≤ n) (hn : n ≤ N) (b : B) (r : R) :
    (σ m).sites b r ⊆ (σ n).sites b r := by
  induction n, hmn using Nat.le_induction with
  | base => exact subset_refl _
  | succ n _ ih =>
    obtain ⟨c, hstep⟩ := h.step n hn
    exact (ih (by omega)).trans (hstep.sites_mono (h.inv (by omega)) b r)

/-- The block `b` is processed in step `n`. -/
def Pops (G : Graph B R D) (σ : Nat → State B R D) (n : Nat) (b : B) : Prop :=
  G.Step (σ n) (σ (n + 1)) b

/-- A block that is queued is processed before the worklist is empty. -/
theorem Run.pops_of_queued (h : G.Run σ N) (hend : (σ N).worklist = []) {i : Nat} {b : B}
    (hi : i ≤ N) (hb : b ∈ (σ i).worklist) : ∃ m, i ≤ m ∧ m < N ∧ G.Pops σ m b := by
  by_contra hnone
  push Not at hnone
  have hstay : ∀ n, i ≤ n → n ≤ N → b ∈ (σ n).worklist := by
    intro n hin
    induction n, hin using Nat.le_induction with
    | base => exact fun _ => hb
    | succ n hin ih =>
      intro hn
      obtain ⟨c, hstep⟩ := h.step n hn
      refine hstep.mem_worklist (ih (by omega)) ?_
      rintro rfl
      exact hnone n hin hn hstep
  have := hstay N hi (le_refl _)
  rw [hend] at this
  cases this

/-- A block that is not processed keeps its context. -/
theorem Run.ctx_eq (h : G.Run σ N) {i j : Nat} {b : B} (hij : i ≤ j) (hj : j ≤ N)
    (hnone : ∀ m, i ≤ m → m < j → ¬ G.Pops σ m b) : (σ j).ctx b = (σ i).ctx b := by
  induction j, hij using Nat.le_induction with
  | base => rfl
  | succ j hij ih =>
    obtain ⟨c, hstep⟩ := h.step j hj
    have hne : b ≠ c := by
      rintro rfl
      exact hnone j hij (by omega) hstep
    rw [hstep.frame b hne]
    exact ih (by omega) fun m hm hlt => hnone m hm (by omega)

/-- The site of a definition is its site for good. -/
theorem Run.site_eq (h : G.Run σ N) {i j n : Nat} (hij : i ≤ j) (hj : j ≤ N)
    (hn : n < (σ i).next) : (σ j).site n = (σ i).site n ∧ n < (σ j).next := by
  induction j, hij using Nat.le_induction with
  | base => exact ⟨rfl, hn⟩
  | succ j hij ih =>
    obtain ⟨c, hstep⟩ := h.step j hj
    obtain ⟨hsite, hlt⟩ := ih (by omega)
    exact ⟨(hstep.site_old n hlt).trans hsite, lt_of_lt_of_le hlt hstep.next_le⟩

/-- Every block is processed. -/
theorem Run.exists_pops (h : G.Run σ N) (hend : (σ N).worklist = []) {b : B}
    (hb : b ∈ G.blocks) : ∃ m, m < N ∧ G.Pops σ m b := by
  obtain ⟨m, _, hlt, hpop⟩ :=
    h.pops_of_queued hend (Nat.zero_le N) ((h.initial.queued b).mpr hb)
  exact ⟨m, hlt, hpop⟩

/-- What a predecessor holds is held by a block that passes it on, once that is
processed. -/
theorem Run.sites_of_pops (h : G.Run σ N) {m : Nat} {p c : B} {d : D} (hm : m < N)
    (hpop : G.Pops σ m c) (hedge : p ∈ G.preds c) (he : G.effect c r = .pass)
    (hd : d ∈ (σ m).sites p r) : d ∈ (σ N).sites c r := by
  refine h.sites_mono hm (le_refl N) c r ?_
  rw [Step.sites_block hpop (h.inv (by omega)), transfer_pass he]
  exact ⟨p, hedge, hd⟩

/-- A block that defines an element holds its own definition in the end. -/
theorem Run.sites_gen (h : G.Run σ N) (hend : (σ N).worklist = []) (hb : b ∈ G.blocks) {d : D}
    (he : G.effect b r = .gen d) : d ∈ (σ N).sites b r := by
  obtain ⟨m, hm, hpop⟩ := h.exists_pops hend hb
  refine h.sites_mono hm (le_refl N) b r ?_
  rw [Step.sites_block hpop (h.inv (by omega)), transfer_gen he]
  rfl

end Graph
end FreshFlow
