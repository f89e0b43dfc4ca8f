import Ppc2cpp.Lib.FreshFlow.Basic

/-! What a finished iteration has computed.

A change is noticed only through the size of a set. `exact_iff` says when the sites in
the contexts are nevertheless the definitions that reach; `nonempty_iff` that the
iteration is always right about whether any definition reaches, since a set that
becomes non-empty changes its size. -/
namespace FreshFlow
open GenKill

variable {B R D : Type}

namespace Graph
variable {G : Graph B R D} {σ : Nat → State B R D} {N : Nat}

/-- The definitions that reach the end of a block, as sets of sites. -/
def Exact (G : Graph B R D) (st : State B R D) : Prop :=
  ∀ b ∈ G.blocks, ∀ r, ∀ d, d ∈ st.sites b r ↔ Reaches G.Edge (fun b => G.effect b r) d b

/-- Step `n` brings a new site to a block without any set of the block changing size, and
a successor that passes the element on has not got the site and is not queued. -/
structure Strands (G : Graph B R D) (σ : Nat → State B R D) (n : Nat) (b c : B) (r : R)
    (d : D) : Prop where
  pops : G.Pops σ n b
  silent : ¬ Changed (σ n) (σ (n + 1)) b
  passes : G.effect b r = .pass
  incoming : ∃ p ∈ G.preds b, d ∈ (σ n).sites p r
  new : d ∉ (σ n).sites b r
  succ : c ∈ G.succs b
  other : c ≠ b
  passesOn : G.effect c r = .pass
  lacks : d ∉ (σ n).sites c r
  waiting : c ∉ (σ (n + 1)).worklist

theorem Strands.added {n : Nat} {b c : B} {r : R} {d : D} (h : G.Strands σ n b c r d)
    (hi : Inv G (σ n)) : d ∈ (σ (n + 1)).sites b r := by
  rw [Step.sites_block h.pops hi, transfer_pass h.passes]
  exact h.incoming

/-- The first step with a property that holds in the end but not in the beginning. -/
theorem exists_first {P : Nat → Prop} (h₀ : ¬ P 0) (hN : P N) : ∃ n < N, ¬ P n ∧ P (n + 1) := by
  by_contra hnone
  push Not at hnone
  have hall : ∀ n ≤ N, ¬ P n := by
    intro n
    induction n with
    | zero => exact fun _ => h₀
    | succ n ih => exact fun hn => hnone n hn (ih (by omega))
  exact hall N (le_refl N) hN

/-- The sites at a block can only have changed in a step that processed it. -/
theorem Run.pops_of_added (h : G.Run σ N) {n : Nat} (hn : n < N) {b : B} {r : R} {d : D}
    (hbefore : d ∉ (σ n).sites b r) (hadded : d ∈ (σ (n + 1)).sites b r) : G.Pops σ n b := by
  obtain ⟨c, hstep⟩ := h.step n hn
  by_cases hbc : b = c
  · exact hbc ▸ hstep
  · rw [hstep.sites_frame (h.inv (by omega)) hbc] at hadded
    exact absurd hadded hbefore

theorem Run.not_mem_zero (h : G.Run σ N) (b : B) (r : R) (d : D) : d ∉ (σ 0).sites b r := by
  rintro ⟨n, hn, _⟩
  simp [h.initial.empty] at hn

/-- Where no block is stranded for good, the sites flow along every edge. -/
theorem Run.sites_flow (h : G.Run σ N) (hend : (σ N).worklist = [])
    (hrepaired : ∀ n b c r d, n < N → G.Strands σ n b c r d → ∃ m, n < m ∧ m < N ∧ G.Pops σ m c)
    {p c : B} (hp : p ∈ G.blocks) (hc : c ∈ G.blocks) (hedge : p ∈ G.preds c) {r : R}
    (he : G.effect c r = .pass) : (σ N).sites p r ⊆ (σ N).sites c r := by
  intro d hd
  obtain ⟨n, hn, hbefore, hadded⟩ :=
    exists_first (P := fun n => d ∈ (σ n).sites p r) (h.not_mem_zero p r d) hd
  have hpop := h.pops_of_added hn hbefore hadded
  have hsucc : c ∈ G.succs p := (G.transpose p hp c hc).mp hedge
  -- once the successor is processed it has the site
  have hdone : ∀ m, n < m → m < N → G.Pops σ m c → d ∈ (σ N).sites c r := by
    intro m hnm hm hpopc
    exact h.sites_of_pops hm hpopc hedge he (h.sites_mono hnm (by omega) p r hadded)
  by_cases hhas : d ∈ (σ (n + 1)).sites c r
  · exact h.sites_mono hn (le_refl N) c r hhas
  · have hqueued : c ∈ (σ (n + 1)).worklist → d ∈ (σ N).sites c r := by
      intro hq
      obtain ⟨m, hnm, hm, hpopc⟩ := h.pops_of_queued hend (show n + 1 ≤ N by omega) hq
      exact hdone m hnm hm hpopc
    by_cases hq : c ∈ (σ (n + 1)).worklist
    · exact hqueued hq
    · by_cases hch : Changed (σ n) (σ (n + 1)) p
      · exact hqueued (Step.queues hpop hch hsucc)
      · have hi := h.inv (show n ≤ N by omega)
        have hpass := Step.pass_of_new hpop hi hch hbefore hadded
        have hne : c ≠ p := by
          rintro rfl
          exact hhas hadded
        have hin : d ∈ {d | ∃ q ∈ G.preds p, d ∈ (σ n).sites q r} := by
          rw [← transfer_pass hpass, ← Step.sites_block hpop hi]
          exact hadded
        rw [Step.sites_frame hpop hi hne] at hhas
        obtain ⟨m, hnm, hm, hpopc⟩ := hrepaired n p c r d hn
          ⟨hpop, hch, hpass, hin, hbefore, hsucc, hne, he, hhas, hq⟩
        exact hdone m hnm hm hpopc

/-- **The contexts are exact iff no block is stranded for good.** -/
theorem Run.exact_iff (h : G.Run σ N) (hend : (σ N).worklist = []) :
    G.Exact (σ N) ↔ ∀ n b c r d, n < N → G.Strands σ n b c r d →
      ∃ m, n < m ∧ m < N ∧ G.Pops σ m c := by
  constructor
  · intro hexact n b c r d hn hstr
    have hb : b ∈ G.blocks := hstr.pops.mem_blocks (h.inv (by omega)).worklist
    have hc : c ∈ G.blocks := G.succ_mem b hb c hstr.succ
    have hi := h.inv (show n ≤ N by omega)
    have hreach := (hexact b hb r d).mp (h.sites_mono hn (le_refl N) b r (hstr.added hi))
    have hfinal : d ∈ (σ N).sites c r := (hexact c hc r d).mpr
      (.pass ((G.transpose b hb c hc).mpr hstr.succ) hstr.passesOn hreach)
    by_contra hnone
    push Not at hnone
    have hctx := h.ctx_eq (b := c) (show n + 1 ≤ N by omega) (le_refl N)
      fun m hm hlt => hnone m (by omega) hlt
    obtain ⟨k, hk, hsite⟩ := hfinal
    rw [hctx, Step.frame hstr.pops c hstr.other] at hk
    refine hstr.lacks ⟨k, hk, ?_⟩
    rw [← hsite]
    exact (h.site_eq (show n ≤ N by omega) (le_refl N) (hi.handed c r k hk)).1.symm
  · intro hrepaired b hb r d
    constructor
    · exact (h.inv (le_refl N)).sound b r d
    · intro hreach
      -- the blocks along a path that reaches a block of the graph are blocks of the graph
      induction hreach with
      | gen he => exact h.sites_gen hend hb he
      | @pass p c hedge he _ ih =>
        have hp := G.pred_mem c hb p hedge
        exact h.sites_flow hend hrepaired hp hb hedge he (ih hp)

/-- **A context is non-empty iff some definition reaches.** -/
theorem Run.nonempty_iff (h : G.Run σ N) (hend : (σ N).worklist = []) {b : B}
    (hb : b ∈ G.blocks) (r : R) :
    ((σ N).ctx b r).Nonempty ↔ ∃ d, Reaches G.Edge (fun b => G.effect b r) d b := by
  rw [← State.sites_nonempty]
  constructor
  · rintro ⟨d, hd⟩
    exact ⟨d, (h.inv (le_refl N)).sound b r d hd⟩
  · rintro ⟨d, hreach⟩
    induction hreach with
    | gen he => exact ⟨d, h.sites_gen hend hb he⟩
    | @pass p c hedge he _ ih =>
      have hp := G.pred_mem c hb p hedge
      obtain ⟨n, hn, hbefore, hadded⟩ := exists_first
        (P := fun n => ((σ n).sites p r).Nonempty)
        (by rintro ⟨e, hmem⟩; exact h.not_mem_zero p r e hmem) (ih hp)
      have hpop : G.Pops σ n p := by
        obtain ⟨e, hmem⟩ := hadded
        exact h.pops_of_added hn (fun hmem' => hbefore ⟨e, hmem'⟩) hmem
      -- the size went from zero to a positive number
      have hch : Changed (σ n) (σ (n + 1)) p := by
        refine ⟨r, ?_⟩
        rw [State.sites_nonempty] at hadded hbefore
        rw [Finset.not_nonempty_iff_eq_empty.mp hbefore, Finset.card_empty]
        exact Finset.card_ne_zero.mpr hadded
      have hq := Step.queues hpop hch ((G.transpose p hp c hb).mp hedge)
      obtain ⟨m, hnm, hm, hpopc⟩ := h.pops_of_queued hend (show n + 1 ≤ N by omega) hq
      obtain ⟨e, hmem⟩ := hadded
      exact ⟨e, h.sites_of_pops hm hpopc hedge he (h.sites_mono hnm (by omega) p r hmem)⟩

/-! ### The last step of a block -/

/-- Step `n` processes the block `b` for the last time. -/
structure Last (G : Graph B R D) (σ : Nat → State B R D) (N n : Nat) (b : B) : Prop where
  lt : n < N
  pops : G.Pops σ n b
  last : ∀ m, n < m → m < N → ¬ G.Pops σ m b

theorem Run.exists_last (h : G.Run σ N) (hend : (σ N).worklist = []) {b : B}
    (hb : b ∈ G.blocks) : ∃ n, G.Last σ N n b := by
  classical
  obtain ⟨m, hm, hpop⟩ := h.exists_pops hend hb
  have hmem : ∀ k, k ∈ (Finset.range N).filter (fun n => G.Pops σ n b) ↔ k < N ∧ G.Pops σ k b := by
    intro k
    rw [Finset.mem_filter, Finset.mem_range]
  have hne : ((Finset.range N).filter fun n => G.Pops σ n b).Nonempty := ⟨m, (hmem m).mpr ⟨hm, hpop⟩⟩
  obtain ⟨hlt, hpopmax⟩ := (hmem _).mp (Finset.max'_mem _ hne)
  refine ⟨_, hlt, hpopmax, fun k hk hkN hpopk => ?_⟩
  have := Finset.le_max' _ k ((hmem k).mpr ⟨hkN, hpopk⟩)
  omega

/-- After the last step of a block no set of a predecessor becomes non-empty. -/
theorem Run.nonempty_last (h : G.Run σ N) (hend : (σ N).worklist = []) {n : Nat} {p c : B}
    (hlast : G.Last σ N n c) (hc : c ∈ G.blocks) (hedge : p ∈ G.preds c) (r : R) :
    ((σ N).ctx p r).Nonempty ↔ ((σ n).ctx p r).Nonempty := by
  have hn : n ≤ N := by have := hlast.lt; omega
  have hp := G.pred_mem c hc p hedge
  constructor
  · intro hfinal
    by_contra hempty
    obtain ⟨k, hk⟩ := Nat.exists_eq_add_of_le hn
    obtain ⟨m, hm, hbefore, hafter⟩ := exists_first (P := fun m => ((σ (n + m)).ctx p r).Nonempty)
      hempty (N := k) (by rw [← hk]; exact hfinal)
    obtain ⟨b, hstep⟩ := h.step (n + m) (by omega)
    have hbp : p = b := by
      by_contra hne
      rw [← Nat.add_assoc, hstep.frame p hne] at hafter
      exact hbefore hafter
    subst hbp
    have hch : Changed (σ (n + m)) (σ (n + m + 1)) p := by
      refine ⟨r, ?_⟩
      rw [Finset.not_nonempty_iff_eq_empty.mp hbefore, Finset.card_empty]
      exact Finset.card_ne_zero.mpr hafter
    have hq := hstep.queues hch ((G.transpose p hp c hc).mp hedge)
    obtain ⟨j, hj, hjN, hpop⟩ := h.pops_of_queued hend (by omega) hq
    exact hlast.last j (by omega) hjN hpop
  · intro hbefore
    rw [← State.sites_nonempty] at hbefore ⊢
    exact hbefore.mono (h.sites_mono hn (le_refl N) p r)

end Graph
end FreshFlow
