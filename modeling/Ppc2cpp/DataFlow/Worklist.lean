import Ppc2cpp.ControlFlow.Exits
import Ppc2cpp.DataFlow.LastVisit

/-! The worklist of the data-flow analysis.

The worklist holds no block twice and only blocks inside the function, and a block inside
the function stays on it until it is processed (`Disciplined`). That is so of the initial
worklist (`initWorklist_disciplined`), and a call takes the first block, processes it and
puts in front what is not there yet (`Disciplined.step`). What the analysis has found so far
plays no part, so the runs here start from any data-flow graph. -/
namespace Ppc2cpp
namespace DataFlowAnalysis

/-- The worklist when the blocks in `processed` were processed. -/
structure Disciplined (g : ControlFlowGraph) (processed : Set Nat) (worklist : List Nat) :
    Prop where
  nodup : worklist.Nodup
  internal : ∀ b ∈ worklist, g.isInternal b = true
  pending : ∀ b, g.isInternal b = true → b ∉ processed → b ∈ worklist

section
variable {S : Subject} {H : HashOrder} {g : ControlFlowGraph} {st st' : State}

/-! ### The initial worklist -/

theorem initWorklist_disciplined (hw : g.WellFormed) :
    ∃ worklist, initWorklist g = .ok worklist ∧ worklist.Nodup ∧
      ∀ b, b ∈ worklist ↔ g.isInternal b = true := by
  obtain ⟨worklist, hok, hvisits⟩ := initWorklist_visits hw
  obtain ⟨worklist', hok', hmem⟩ := initWorklist_spec hw
  obtain rfl := Except.ok.inj (hok.symm.trans hok')
  exact ⟨worklist, hok, hvisits.nodup List.nodup_nil, hmem⟩

/-! ### One call -/

theorem queueSuccessors_nodup {successors worklist : List Nat} (h : worklist.Nodup) :
    (queueSuccessors g successors worklist).Nodup := by
  unfold queueSuccessors
  refine List.foldlRecOn _ _ h fun queued hqueued successor _ => ?_
  split
  · next hnew =>
    simp only [Bool.and_eq_true, decide_eq_true_eq] at hnew
    exact hqueued.cons hnew.2
  · exact hqueued

/-- A call takes the first block from the worklist, and perhaps queues its successors. -/
theorem step_worklist {b : Nat} {rest : List Nat} (h : step S H g st = .ok st')
    (hlist : st.worklist = b :: rest) :
    st'.worklist = rest ∨ st'.worklist = queueSuccessors g (g.succ b) rest := by
  simp only [step, hlist, bind_eq_ok] at h
  obtain ⟨block, _, result, _, h⟩ := h
  cases h
  dsimp only
  split
  · exact .inr rfl
  · exact .inl rfl

variable {processed : Set Nat} {b : Nat} {rest : List Nat}

theorem Disciplined.pop (h : Disciplined g processed (b :: rest)) :
    Disciplined g (insert b processed) rest where
  nodup := (List.nodup_cons.mp h.nodup).2
  internal c hc := h.internal c (List.mem_cons_of_mem _ hc)
  pending c hc hnew := by
    rw [Set.mem_insert_iff, not_or] at hnew
    exact (List.mem_cons.mp (h.pending c hc hnew.2)).resolve_left hnew.1

theorem Disciplined.queue {worklist : List Nat} (h : Disciplined g processed worklist)
    (successors : List Nat) : Disciplined g processed (queueSuccessors g successors worklist) where
  nodup := queueSuccessors_nodup h.nodup
  internal c hc := by
    rcases mem_queueSuccessors.mp hc with hold | ⟨_, hinternal⟩
    · exact h.internal c hold
    · exact hinternal
  pending c hc hnew := mem_queueSuccessors.mpr (.inl (h.pending c hc hnew))

/-- **A call processes the first block and keeps the discipline.** -/
theorem Disciplined.step (h : Disciplined g processed st.worklist)
    (hstep : DataFlowAnalysis.step S H g st = .ok st') (hlist : st.worklist = b :: rest) :
    Disciplined g (insert b processed) st'.worklist := by
  rw [hlist] at h
  rcases step_worklist hstep hlist with hnext | hnext
  · rw [hnext]
    exact h.pop
  · rw [hnext]
    exact h.pop.queue (g.succ b)

end

/-! ### Runs -/

/-- The first `N` calls of `functionDFAImpl` after `initWorklist`, from any data-flow graph. -/
structure WorklistRun (S : Subject) (H : HashOrder) (g : ControlFlowGraph) (σ : Nat → State)
    (N : Nat) : Prop where
  initial : initWorklist g = .ok (σ 0).worklist
  step : ∀ n < N, (σ n).worklist ≠ [] ∧ step S H g (σ n) = .ok (σ (n + 1))

section
variable {S : Subject} {H : HashOrder} {g : ControlFlowGraph} {σ : Nat → State} {N : Nat}

theorem Trace.worklistRun (h : Trace S H g σ N) : WorklistRun S H g σ N where
  initial := by
    obtain ⟨worklist, hok, hinit⟩ := h.initial
    rw [hok, hinit]
    rfl
  step := h.step

/-- The blocks processed in the first `n` calls. -/
def processedBefore (σ : Nat → State) (n : Nat) : Set Nat := {b | ∃ m < n, (σ m).Visits b}

theorem processedBefore_succ {n b : Nat} (hb : (σ n).Visits b) :
    processedBefore σ (n + 1) = insert b (processedBefore σ n) := by
  ext c
  simp only [processedBefore, Set.mem_ofPred_eq, Set.mem_insert_iff, Nat.lt_succ_iff_lt_or_eq]
  constructor
  · rintro ⟨m, hlt | rfl, hc⟩
    · exact .inr ⟨m, hlt, hc⟩
    · exact .inl (Option.some.inj (hc.symm.trans hb))
  · rintro (rfl | ⟨m, hlt, hc⟩)
    · exact ⟨n, .inr rfl, hb⟩
    · exact ⟨m, .inl hlt, hc⟩

theorem WorklistRun.disciplined (h : WorklistRun S H g σ N) (hw : g.WellFormed) {n : Nat}
    (hn : n ≤ N) : Disciplined g (processedBefore σ n) (σ n).worklist := by
  induction n with
  | zero =>
    obtain ⟨worklist, hok, hnodup, hmem⟩ := initWorklist_disciplined hw
    obtain rfl := Except.ok.inj (hok.symm.trans h.initial)
    exact ⟨hnodup, fun b => (hmem b).mp, fun b hb _ => (hmem b).mpr hb⟩
  | succ n ih =>
    obtain ⟨hne, hstep⟩ := h.step n hn
    obtain ⟨b, rest, hlist⟩ := List.exists_cons_of_ne_nil hne
    have hvisits : (σ n).Visits b := by
      rw [State.Visits, hlist]
      rfl
    rw [processedBefore_succ hvisits]
    exact (ih (by omega)).step hstep hlist

/-- **The initial worklist holds every block inside the function once and no other, and after
every call of the analysis the worklist holds no block twice, only blocks inside the
function, and all of these that were not processed yet.** -/
theorem worklist_disciplined (hcfa : ControlFlowAnalysis.functionCFA S = .ok g) :
    (∃ worklist, initWorklist g = .ok worklist ∧ worklist.Nodup ∧
      ∀ b, b ∈ worklist ↔ g.isInternal b = true) ∧
    ∀ H σ N, WorklistRun S H g σ N → ∀ n ≤ N,
      Disciplined g (processedBefore σ n) (σ n).worklist := by
  have hw := ControlFlowAnalysis.functionCFA_wellFormed S hcfa
  exact ⟨initWorklist_disciplined hw, fun H σ N h n hn => h.disciplined hw hn⟩

end

/-- A whole run on `beqlr; blr`. -/
theorem worklist_disciplined_conditionalReturn : ∃ g σ N,
    ControlFlowAnalysis.functionCFA conditionalReturn = .ok g ∧ initWorklist g = .ok [0, 2] ∧
      Trace conditionalReturn .ascending g σ N ∧ (σ N).worklist = [] ∧
      ∀ n ≤ N, Disciplined g (processedBefore σ n) (σ n).worklist := by
  obtain ⟨g, hcfa, hcheck⟩ := exists_ok (x := ControlFlowAnalysis.functionCFA conditionalReturn)
    (p := fun g => decide (initWorklist g = .ok [0, 2]) &&
      returns (functionDFA conditionalReturn .ascending g 8) fun _ => true) (by decide +kernel)
  rw [Bool.and_eq_true, decide_eq_true_eq] at hcheck
  obtain ⟨st, hst, _⟩ := exists_ok hcheck.2
  obtain ⟨σ, N, htrace, _, rfl, hend⟩ := functionDFA_ok_iff.mp hst
  exact ⟨g, σ, N, hcfa, hcheck.1, htrace, hend,
    (worklist_disciplined hcfa).2 .ascending σ N htrace.worklistRun⟩

end DataFlowAnalysis
end Ppc2cpp
