import Ppc2cpp.Lib.FreshFlow.Exactness

/-! When the iteration ends.

Sites are finitely many and only grow. A step whose incoming sets have no two
definitions of one site leaves each set of its block as large as its set of sites, so a
size that changes then means a new site, unless the block held two definitions of one
site before. `rank` counts the sites still missing and the blocks of that kind: it
drops when a size changes, and when none does the worklist gets shorter. -/
namespace FreshFlow
open GenKill
open scoped Classical

variable {B R D : Type}

namespace Graph

variable {G : Graph B R D} {st st' : State B R D} {b : B}

/-- What comes in has no two definitions of one site. -/
def Unmixed (G : Graph B R D) (st : State B R D) (b : B) : Prop :=
  ∀ r, Set.InjOn st.site (G.InCtx st b r)

/-- A step on unmixed sets leaves its block unmixed. -/
theorem Step.injOn_block (h : G.Step st st' b) (hi : Inv G st) (hu : G.Unmixed st b) (r : R) :
    Set.InjOn st'.site (st'.ctx b r) := by
  have hout := h.out r
  cases he : G.effect b r with
  | pass =>
    rw [he] at hout
    intro i hin j hjn heq
    have hi' := (hout i).mp hin
    have hj' := (hout j).mp hjn
    have hold : ∀ k ∈ G.InCtx st b r, st'.site k = st.site k := by
      rintro k ⟨p, _, hk⟩
      exact h.site_old k (hi.handed p r k hk)
    rw [hold i hi', hold j hj'] at heq
    exact hu r hi' hj' heq
  | kill =>
    rw [he] at hout
    rw [show st'.ctx b r = ∅ from hout]
    simp
  | gen d =>
    rw [he] at hout
    obtain ⟨n, hn, _⟩ := hout
    rw [hn]
    simp

/-- On an unmixed set the number of definitions is the number of sites. -/
theorem card_eq_of_sites {r : R} (hinj : Set.InjOn st.site (st.ctx b r))
    (hinj' : Set.InjOn st'.site (st'.ctx b r)) (hsites : st'.sites b r = st.sites b r) :
    (st'.ctx b r).card = (st.ctx b r).card := by
  have himage : (st'.ctx b r).image st'.site = (st.ctx b r).image st.site := by
    ext d
    have := Set.ext_iff.mp hsites d
    simpa [State.sites] using this
  rw [← Finset.card_image_of_injOn hinj', himage, Finset.card_image_of_injOn hinj]

section
variable [Fintype R]

/-- The sites the blocks define. -/
noncomputable def allSites (G : Graph B R D) : Finset D :=
  (G.blocks ×ˢ (Finset.univ : Finset R)).biUnion fun p =>
    match G.effect p.1 p.2 with
    | .gen d => {d}
    | _ => ∅

/-- Which site is where. -/
noncomputable def facts (G : Graph B R D) (st : State B R D) : Finset (B × R × D) :=
  (G.blocks ×ˢ (Finset.univ : Finset R) ×ˢ G.allSites).filter fun x => x.2.2 ∈ st.sites x.1 x.2.1

/-- The blocks that hold two definitions of one site. -/
noncomputable def mixed (G : Graph B R D) (st : State B R D) : Finset B :=
  G.blocks.filter fun b => ∃ r, ¬ Set.InjOn st.site (st.ctx b r)

noncomputable def rank (G : Graph B R D) (st : State B R D) : Nat :=
  ((G.blocks ×ˢ (Finset.univ : Finset R) ×ˢ G.allSites).card - (G.facts st).card) +
    (G.mixed st).card

theorem mem_allSites {r : R} {d : D} (hb : b ∈ G.blocks)
    (h : Reaches G.Edge (fun b => G.effect b r) d b) : d ∈ G.allSites := by
  induction h with
  | @gen b he =>
    rw [allSites, Finset.mem_biUnion]
    refine ⟨(b, r), by simp [hb], ?_⟩
    have he' : G.effect b r = .gen d := he
    simp [he']
  | @pass p c hedge _ _ ih => exact ih (G.pred_mem c hb p hedge)

theorem Step.facts_subset (h : G.Step st st' b) (hi : Inv G st) : G.facts st ⊆ G.facts st' := by
  intro x hx
  rw [facts, Finset.mem_filter] at hx ⊢
  exact ⟨hx.1, h.sites_mono hi x.1 x.2.1 hx.2⟩

theorem card_facts_le (st : State B R D) :
    (G.facts st).card ≤ (G.blocks ×ˢ (Finset.univ : Finset R) ×ˢ G.allSites).card :=
  Finset.card_filter_le _ _

theorem Step.mixed_subset (h : G.Step st st' b) (hi : Inv G st) (hu : G.Unmixed st b) :
    G.mixed st' ⊆ (G.mixed st).erase b := by
  intro c hc
  rw [mixed, Finset.mem_filter] at hc
  obtain ⟨hc, r, hr⟩ := hc
  have hcb : c ≠ b := by
    rintro rfl
    exact hr (h.injOn_block hi hu r)
  rw [Finset.mem_erase, mixed, Finset.mem_filter]
  refine ⟨hcb, hc, r, fun hinj => hr ?_⟩
  rw [h.frame c hcb]
  intro i hin j hjn heq
  rw [h.site_old i (hi.handed c r i hin), h.site_old j (hi.handed c r j hjn)] at heq
  exact hinj hin hjn heq

/-- **A size that changes lowers the rank.** -/
theorem Step.rank_lt (h : G.Step st st' b) (hi : Inv G st) (hu : G.Unmixed st b)
    (hch : Changed st st' b) : G.rank st' < G.rank st := by
  have hb := h.mem_blocks hi.worklist
  have hmixed := h.mixed_subset hi hu
  have hfacts := Finset.card_le_card (h.facts_subset hi)
  have htotal := G.card_facts_le st'
  by_cases hbm : b ∈ G.mixed st
  · have hlt := Finset.card_le_card hmixed
    have hpos := Finset.card_pos.mpr ⟨b, hbm⟩
    rw [Finset.card_erase_of_mem hbm] at hlt
    unfold rank
    omega
  · -- the block was unmixed, so the change is a new site
    obtain ⟨r, hr⟩ := hch
    have hinj : Set.InjOn st.site (st.ctx b r) := by
      by_contra hn
      exact hbm (by rw [mixed, Finset.mem_filter]; exact ⟨hb, r, hn⟩)
    obtain ⟨d, hd', hd⟩ : ∃ d, d ∈ st'.sites b r ∧ d ∉ st.sites b r := by
      by_contra hnone
      push Not at hnone
      exact hr (card_eq_of_sites hinj (h.injOn_block hi hu r)
        (Set.Subset.antisymm hnone (h.sites_mono hi b r)))
    have hall := mem_allSites hb ((h.inv hi).sound b r d hd')
    have hlt : (G.facts st).card < (G.facts st').card := by
      refine Finset.card_lt_card ⟨h.facts_subset hi, fun hsub => hd ?_⟩
      have hmem : (b, r, d) ∈ G.facts st' := by
        rw [facts, Finset.mem_filter]
        exact ⟨by simp [hb, hall], hd'⟩
      have := hsub hmem
      rw [facts, Finset.mem_filter] at this
      exact this.2
    have hle := (Finset.card_le_card hmixed).trans (Finset.card_le_card (Finset.erase_subset _ _))
    unfold rank
    omega

theorem Step.rank_le (h : G.Step st st' b) (hi : Inv G st) (hu : G.Unmixed st b) :
    G.rank st' ≤ G.rank st := by
  have hfacts := Finset.card_le_card (h.facts_subset hi)
  have hle := (Finset.card_le_card (h.mixed_subset hi hu)).trans
    (Finset.card_le_card (Finset.erase_subset _ _))
  unfold rank
  omega

/-- **The iteration does not go on forever if from some step on no step joins two
definitions of one site.** -/
theorem not_forever {σ : Nat → State B R D} (h : ∀ N, G.Run σ N) (n₀ : Nat)
    (hu : ∀ n, n₀ ≤ n → ∀ b, G.Pops σ n b → G.Unmixed (σ n) b) : False := by
  have hstop : ∀ a l n, n₀ ≤ n → G.rank (σ n) = a → (σ n).worklist.length = l → False := by
    intro a
    induction a using Nat.strong_induction_on with
    | _ a iha =>
      intro l
      induction l using Nat.strong_induction_on with
      | _ l ihl =>
        intro n hn ha hl
        obtain ⟨b, hstep⟩ := (h (n + 1)).step n (Nat.lt_succ_self n)
        have hi := (h n).inv (le_refl n)
        have hun := hu n hn b hstep
        by_cases hch : Changed (σ n) (σ (n + 1)) b
        · exact iha _ (ha ▸ hstep.rank_lt hi hun hch) _ (n + 1) (by omega) rfl rfl
        · obtain ⟨rest, hrest, hsame, _⟩ := hstep.queue
          have hlen : (σ (n + 1)).worklist.length < l := by
            rw [hsame hch, ← hl, hrest]
            simp
          rcases Nat.lt_or_eq_of_le (hstep.rank_le hi hun) with hlt | heq
          · exact iha _ (ha ▸ hlt) _ (n + 1) (by omega) rfl rfl
          · exact ihl _ hlen (n + 1) (by omega) (heq.trans ha) rfl
  exact hstop _ _ n₀ (le_refl n₀) rfl rfl

end

end Graph
end FreshFlow
