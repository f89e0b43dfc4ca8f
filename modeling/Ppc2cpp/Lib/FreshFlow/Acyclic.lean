import Ppc2cpp.Lib.FreshFlow.Basic
import Mathlib.Data.Fintype.Card

/-! The iteration on a graph without cycles.

A block is queued again only when one of its predecessors is processed. So a block above
which there is no cycle is processed finitely often (`settles`), whatever the sets do, and
on a graph without cycles the iteration does not go on forever. -/
namespace FreshFlow
open GenKill
namespace Graph

variable {B R D : Type} {G : Graph B R D} {σ : Nat → State B R D} {n : Nat} {b c : B}

/-- From some step on the block is not processed. -/
def Settles (G : Graph B R D) (σ : Nat → State B R D) (b : B) : Prop := ∃ m, ∀ n ≥ m, ¬ G.Pops σ n b

theorem exists_bound {s : Set B} (hfinite : s.Finite) (hs : ∀ b ∈ s, Settles G σ b) :
    ∃ m, ∀ b ∈ s, ∀ n ≥ m, ¬ G.Pops σ n b := by
  choose! bound hbound using hs
  obtain ⟨m, hm⟩ := (hfinite.image bound).bddAbove
  exact ⟨m, fun b hb n hn => hbound b hb n (le_trans (hm (Set.mem_image_of_mem bound hb)) hn)⟩

/-- Only a processed predecessor queues a block. -/
theorem Pops.mem_worklist (h : G.Pops σ n c) (hc : c ∈ G.blocks) (hb : b ∈ G.blocks)
    (hedge : c ∉ G.preds b) (hmem : b ∈ (σ (n + 1)).worklist) : b ∈ (σ n).worklist := by
  obtain ⟨rest, hlist, hsame, hchanged⟩ := Step.queue h
  by_cases hch : Changed (σ n) (σ (n + 1)) c
  · rcases (hchanged hch b).mp hmem with hrest | hsucc
    · rw [hlist]
      exact List.mem_cons_of_mem c hrest
    · exact absurd ((G.transpose c hc b hb).mpr hsucc) hedge
  · rw [hsame hch] at hmem
    rw [hlist]
    exact List.mem_cons_of_mem c hmem

/-- A processed block that is not its own predecessor is off the list. -/
theorem Pops.not_mem_worklist (h : G.Pops σ n b) (hb : b ∈ G.blocks)
    (hnodup : (σ n).worklist.Nodup) (hedge : b ∉ G.preds b) : b ∉ (σ (n + 1)).worklist := by
  intro hmem
  obtain ⟨rest, hlist, hsame, hchanged⟩ := Step.queue h
  rw [hlist] at hnodup
  have hrest : b ∉ rest := (List.nodup_cons.mp hnodup).1
  by_cases hch : Changed (σ n) (σ (n + 1)) b
  · rcases (hchanged hch b).mp hmem with hmem | hsucc
    · exact hrest hmem
    · exact hedge ((G.transpose b hb b hb).mpr hsucc)
  · rw [hsame hch] at hmem
    exact hrest hmem

theorem Pops.mem (h : G.Pops σ n b) : b ∈ (σ n).worklist := by
  obtain ⟨rest, hlist, _⟩ := Step.queue h
  rw [hlist]
  exact List.mem_cons_self

section
variable (h : ∀ N, G.Run σ N) (hnodup : ∀ n, (σ n).worklist.Nodup)
include h

theorem mem_blocks_of_pops (hpop : G.Pops σ n b) : b ∈ G.blocks :=
  ((h n).inv (le_refl n)).worklist b hpop.mem

include hnodup

/-- A block whose predecessors settle, itself not among them, settles: it is processed at
most once more. -/
theorem settles_of_preds (hb : b ∈ G.blocks) (hself : b ∉ G.preds b)
    (hpreds : ∀ p ∈ G.preds b, Settles G σ p) : Settles G σ b := by
  obtain ⟨m, hm⟩ := exists_bound (G.preds b).finite_toSet hpreds
  by_cases hlast : ∃ n ≥ m, G.Pops σ n b
  · obtain ⟨n, hn, hpop⟩ := hlast
    -- once off the list the block stays off it
    have hoff : ∀ k ≥ n + 1, b ∉ (σ k).worklist := by
      intro k hk
      induction k, hk using Nat.le_induction with
      | base => exact hpop.not_mem_worklist hb (hnodup n) hself
      | succ k hk ih =>
        intro hmem
        obtain ⟨c, hstep⟩ := (h (k + 1)).step k (Nat.lt_succ_self k)
        have hc : c ∉ G.preds b := fun hc => hm c hc k (by omega) hstep
        exact ih (Pops.mem_worklist hstep (mem_blocks_of_pops h hstep) hb hc hmem)
    exact ⟨n + 1, fun k hk hagain => hoff k hk hagain.mem⟩
  · push Not at hlast
    exact ⟨m, hlast⟩

/-- **A block above which there is no cycle settles.** -/
theorem settles (hb : b ∈ G.blocks)
    (hacyclic : ∀ a, Relation.ReflTransGen G.Edge a b → ¬ Relation.TransGen G.Edge a a) :
    Settles G σ b := by
  -- induction along the edges between the blocks of the graph
  let before : G.blocks → G.blocks → Prop := fun x y => Relation.TransGen G.Edge x.1 y.1 ∧
    Relation.ReflTransGen G.Edge y.1 b
  have hwf : WellFounded before := by
    have htrans : IsTrans G.blocks before := ⟨fun x y z hxy hyz => ⟨hxy.1.trans hyz.1, hyz.2⟩⟩
    have hirrefl : Std.Irrefl before := ⟨fun x hx => hacyclic x.1 hx.2 hx.1⟩
    exact Finite.wellFounded_of_trans_of_irrefl before
  have hall : ∀ x : G.blocks, Relation.ReflTransGen G.Edge x.1 b → Settles G σ x.1 := by
    intro x
    induction x using hwf.induction with
    | _ x ih =>
      intro hx
      refine settles_of_preds h hnodup x.2 (fun hself => ?_) fun p hp => ?_
      · exact hacyclic x.1 hx (.single hself)
      · have hedge : G.Edge p x.1 := hp
        exact ih ⟨p, G.pred_mem x.1 x.2 p hp⟩ ⟨.single hedge, hx⟩ (.head hedge hx)
  exact hall ⟨b, hb⟩ .refl

/-- **On a graph without cycles the iteration ends.** -/
theorem not_forever_of_acyclic (hacyclic : ∀ a, ¬ Relation.TransGen G.Edge a a) : False := by
  obtain ⟨m, hm⟩ := exists_bound G.blocks.finite_toSet fun b hb =>
    settles h hnodup hb fun a _ => hacyclic a
  obtain ⟨b, hstep⟩ := (h (m + 1)).step m (Nat.lt_succ_self m)
  exact hm b (mem_blocks_of_pops h hstep) m (le_refl m) hstep

end

end Graph
end FreshFlow
