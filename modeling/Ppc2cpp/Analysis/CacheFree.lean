import Ppc2cpp.Analysis.ProgramComparator
import Ppc2cpp.ControlFlow.Assembled
import Ppc2cpp.DataFlow.NodeOrder
import Ppc2cpp.Lib.EarlyCache
import Ppc2cpp.Lib.Ranking

/-! The comparison of two functions, with its cache and without.

`CacheFree verdict` is the definition of the comparison of two nodes that uses no cache:
they agree without their inputs, have as many inputs, and these compare equal pair by
pair. On graphs without cycles, however their nodes are shared, it determines a verdict
on every two nodes, and `compareFunctionFlows` is the loop over blocks and sinks with this
verdict (`compareFunctionFlows_cacheFree`), errors included. -/
namespace Ppc2cpp
open EarlyCache Ranking

/-- A graph as pointers make it: no input or sink is dangling, and no node is reached from
itself through inputs. -/
structure DataFlowAnalysis.State.Acyclic (dfg : DataFlowAnalysis.State) : Prop where
  inputs : ∀ x y, x ∈ dfg.heap.inputs y → x < dfg.heap.length
  sinks : ∀ b, ∀ x ∈ dfg.blockSinks b, x < dfg.heap.length
  acyclic : Ranking.Acyclic fun x y => x ∈ dfg.heap.inputs y

/-- A graph whose nodes come after their inputs. -/
theorem DataFlowAnalysis.State.Ordered.acyclic {P : NodeKind → Prop}
    {dfg : DataFlowAnalysis.State} (h : dfg.Ordered P) : dfg.Acyclic where
  inputs x y hx := by
    refine (h.heap.lt_of_mem_inputs hx).trans ?_
    by_contra hge
    rw [Heap.inputs, List.getElem?_eq_none (Nat.le_of_not_lt hge)] at hx
    cases hx
  sinks := h.sinks
  acyclic := acyclic_of_rank fun _ _ hx => h.heap.lt_of_mem_inputs hx

namespace ProgramComparator

/-! ### Without a cache -/

/-- Two lists of nodes: as many, and pairwise equal. -/
def allEqual (verdict : NodeId → NodeId → Except Error Bool) :
    List NodeId → List NodeId → Except Error Bool
  | [], [] => .ok true
  | [], _ :: _ => .ok false
  | _ :: _, [] => .ok false
  | x :: xs, y :: ys => do
    if ← verdict x y then allEqual verdict xs ys else return false

section
variable (C : ProgramComparator) (fuel : Nat) (side1 side2 : Side)

/-- Two nodes are equal if they agree without their inputs and their inputs are equal. -/
def CacheFree (verdict : NodeId → NodeId → Except Error Bool) : Prop :=
  ∀ var1 var2, verdict var1 var2 = do
    let node1 ← at? side1.heap var1
    let node2 ← at? side2.heap var2
    if ← C.compareKinds fuel side1 side2 node1.kind node2.kind then
      allEqual verdict node1.inputs node2.inputs
    else return false

end

/-- The loop over the basic blocks, by the verdict on two nodes. -/
def compareBlocksBy (verdict : NodeId → NodeId → Except Error Bool) (func1 func2 : Function) :
    (remaining bblockIdx : Nat) → Except Error Bool
  | 0, _ => .ok (decide (func2.cfg.blocks.length ≤ func1.cfg.blocks.length))
  | remaining + 1, bblockIdx => do
    if func2.cfg.blocks.length ≤ bblockIdx then return false
    let sinks1 ← at? func1.dfg.sinks bblockIdx
    let sinks2 ← at? func2.dfg.sinks bblockIdx
    if !(← allEqual verdict sinks1 sinks2) then return false
    let entry1 ← at? func1.cfg.psTable bblockIdx
    let entry2 ← at? func2.cfg.psTable bblockIdx
    if entry1.succ ≠ entry2.succ then return false
    compareBlocksBy verdict func1 func2 remaining (bblockIdx + 1)

/-! ### The comparison as a search -/

namespace VarNodeComparisonCache

theorem check_set (cache : VarNodeComparisonCache) (pair : NodePair) (equal : Bool) (p : NodePair) :
    (cache.set pair equal).check p = if pair = p then some equal else cache.check p := by
  unfold set check
  by_cases h : pair = p
  · simp [h]
  · simp [h]

/-- The cache of the comparison. -/
def asCache : Cache NodePair VarNodeComparisonCache where
  empty := []
  check := check
  set := set
  check_empty _ := rfl
  check_set := check_set

end VarNodeComparisonCache

open VarNodeComparisonCache (asCache)

section
variable (C : ProgramComparator) (fuel : Nat) (side1 side2 : Side)

/-- Two nodes come down to their inputs, if they agree without them. -/
def expand (pair : NodePair) : Except Error (Expansion NodePair) := do
  let node1 ← at? side1.heap pair.1
  let node2 ← at? side2.heap pair.2
  if ← C.compareKinds fuel side1 side2 node1.kind node2.kind then
    return .reduced (node1.inputs.zip node2.inputs)
      (decide (node1.inputs.length = node2.inputs.length))
  else return .refuted

variable {C fuel side1 side2}

theorem compareInputs_eq (compare : NodeId → NodeId → VarNodeComparisonCache →
    Except Error (Bool × VarNodeComparisonCache)) (pair : NodePair) (inputs1 inputs2 : List NodeId)
    (cache : VarNodeComparisonCache) :
    compareInputs compare pair inputs1 inputs2 cache =
      askAll asCache (fun p => compare p.1 p.2) pair
        (decide (inputs1.length = inputs2.length)) (inputs1.zip inputs2) cache := by
  induction inputs1 generalizing inputs2 cache with
  | nil => cases inputs2 <;> rfl
  | cons input1 inputs1 ih =>
    cases inputs2 with
    | nil => rfl
    | cons input2 inputs2 =>
      simp only [compareInputs, List.zip_cons_cons, askAll, List.length_cons, Nat.add_right_cancel_iff,
        ih]
      rfl

/-- The comparison of two nodes is a search. -/
theorem compareVarNodes_eq_ask (depth : Nat) (var1 var2 : NodeId) (cache : VarNodeComparisonCache) :
    C.compareVarNodes fuel side1 side2 depth var1 var2 cache =
      ask asCache (C.expand fuel side1 side2) .outOfFuel depth (var1, var2) cache := by
  induction depth generalizing var1 var2 cache with
  | zero => rfl
  | succ depth ih =>
    rw [compareVarNodes, ask]
    have hcheck : asCache.check cache (var1, var2) = cache.check (var1, var2) := rfl
    rw [hcheck]
    cases cache.check (var1, var2) with
    | some equal => rfl
    | none =>
      unfold expand
      simp only []
      cases at? side1.heap var1 with
      | error e => rfl
      | ok node1 =>
        cases at? side2.heap var2 with
        | error e => rfl
        | ok node2 =>
          simp only [bind, Except.bind]
          cases C.compareKinds fuel side1 side2 node1.kind node2.kind with
          | error e => rfl
          | ok agree =>
            cases agree with
            | false => rfl
            | true =>
              have hsearch : C.compareVarNodes fuel side1 side2 depth = fun a b cache =>
                  ask asCache (C.expand fuel side1 side2) .outOfFuel depth (a, b) cache := by
                funext a b cache
                exact ih a b cache
              simp only [if_true, compareInputs_eq, hsearch]
              rfl

theorem allEqual_eq (verdict : NodeId → NodeId → Except Error Bool) (xs ys : List NodeId) :
    allEqual verdict xs ys = (xs.zip ys).allM (fun p => verdict p.1 p.2) >>= fun all =>
      .ok (all && decide (xs.length = ys.length)) := by
  induction xs generalizing ys with
  | nil => cases ys <;> rfl
  | cons x xs ih =>
    cases ys with
    | nil => rfl
    | cons y ys =>
      rw [allEqual, List.zip_cons_cons, List.allM, ih]
      cases verdict x y with
      | error e => rfl
      | ok equal =>
        cases equal with
        | false => rfl
        | true =>
          simp only [List.length_cons, Nat.add_right_cancel_iff]
          rfl

theorem cacheFree_iff {verdict : NodeId → NodeId → Except Error Bool} :
    C.CacheFree fuel side1 side2 verdict ↔
      Answers (C.expand fuel side1 side2) fun p => verdict p.1 p.2 := by
  have hstep : ∀ var1 var2, step (C.expand fuel side1 side2) (fun p => verdict p.1 p.2) (var1, var2) =
      (do
        let node1 ← at? side1.heap var1
        let node2 ← at? side2.heap var2
        if ← C.compareKinds fuel side1 side2 node1.kind node2.kind then
          allEqual verdict node1.inputs node2.inputs
        else return false) := by
    intro var1 var2
    unfold step expand
    simp only [allEqual_eq]
    cases at? side1.heap var1 with
    | error e => rfl
    | ok node1 =>
      cases at? side2.heap var2 with
      | error e => rfl
      | ok node2 =>
        simp only [bind, Except.bind]
        cases C.compareKinds fuel side1 side2 node1.kind node2.kind with
        | error e => rfl
        | ok agree => cases agree <;> rfl
  constructor
  · intro h p
    rw [hstep]
    exact h p.1 p.2
  · intro h var1 var2
    rw [← hstep]
    exact h (var1, var2)

/-! ### Transparency -/

section
variable {rank : NodePair → Nat} {verdict : NodeId → NodeId → Except Error Bool}

/-- The comparison of two nodes answers as the one without a cache, if the inputs of nodes
have a lower rank than the nodes. -/
theorem compareVarNodes_answersAs (hdec : Decreases (C.expand fuel side1 side2) rank)
    (hverdict : C.CacheFree fuel side1 side2 verdict) {depth : Nat} {var1 var2 : NodeId}
    (hdepth : rank (var1, var2) < depth) {cache : VarNodeComparisonCache}
    (hcache : Sound asCache (fun p => verdict p.1 p.2) (fun _ => False) cache) :
    AnswersAs (Sound asCache (fun p => verdict p.1 p.2) fun _ => False) (verdict var1 var2)
      (C.compareVarNodes fuel side1 side2 depth var1 var2 cache) := by
  rw [compareVarNodes_eq_ask]
  exact ask_answersAs asCache hdec (cacheFree_iff.mp hverdict) hdepth
    (fun _ hpending => hpending.elim) hcache

/-- The loop over the sinks of a block. -/
theorem compareSinks_answersAs (hdec : Decreases (C.expand fuel side1 side2) rank)
    (hverdict : C.CacheFree fuel side1 side2 verdict) {sinks1 : List NodeId}
    (hsinks : ∀ x ∈ sinks1, ∀ y, rank (x, y) < side1.heap.length) (sinks2 : List NodeId)
    {cache : VarNodeComparisonCache}
    (hcache : Sound asCache (fun p => verdict p.1 p.2) (fun _ => False) cache) :
    AnswersAs (Sound asCache (fun p => verdict p.1 p.2) fun _ => False)
      (allEqual verdict sinks1 sinks2) (C.compareSinks fuel side1 side2 sinks1 sinks2 cache) := by
  induction sinks1 generalizing sinks2 cache with
  | nil =>
    cases sinks2 with
    | nil =>
      refine ⟨rfl, fun cache' hok => ?_⟩
      cases hok
      exact hcache
    | cons y sinks2 => exact ⟨rfl, (fun _ hok => nomatch hok)⟩
  | cons x sinks1 ih =>
    cases sinks2 with
    | nil => exact ⟨rfl, (fun _ hok => nomatch hok)⟩
    | cons y sinks2 =>
      have hfirst := compareVarNodes_answersAs hdec hverdict (hsinks x List.mem_cons_self y) hcache
      exact hfirst.andThen (fun cache => cache.set (x, y) true) fun cache' _ hcache' =>
        ih (fun x' hx' => hsinks x' (List.mem_cons_of_mem _ hx')) sinks2 hcache'

/-- The loop over the blocks. -/
theorem compareBlocks_eq (hdec : Decreases (C.expand fuel side1 side2) rank)
    (hverdict : C.CacheFree fuel side1 side2 verdict)
    (hsinks : ∀ b, ∀ x ∈ side1.func.dfg.blockSinks b, ∀ y, rank (x, y) < side1.heap.length)
    (remaining bblockIdx : Nat) {cache : VarNodeComparisonCache}
    (hcache : Sound asCache (fun p => verdict p.1 p.2) (fun _ => False) cache) :
    C.compareBlocks fuel side1 side2 remaining bblockIdx cache =
      compareBlocksBy verdict side1.func side2.func remaining bblockIdx := by
  induction remaining generalizing bblockIdx cache with
  | zero => rfl
  | succ remaining ih =>
    rw [compareBlocks, compareBlocksBy]
    by_cases hblocks : side2.func.cfg.blocks.length ≤ bblockIdx
    · rw [if_pos hblocks, if_pos hblocks]
    · rw [if_neg hblocks, if_neg hblocks]
      cases hsinks1 : at? side1.func.dfg.sinks bblockIdx with
      | error e => rfl
      | ok sinks1 =>
        cases at? side2.func.dfg.sinks bblockIdx with
        | error e => rfl
        | ok sinks2 =>
          have hblock : side1.func.dfg.blockSinks bblockIdx = sinks1 := by
            rw [at?_eq_ok] at hsinks1
            rw [DataFlowAnalysis.State.blockSinks, List.getD_eq_getElem?_getD, hsinks1,
              Option.getD_some]
          obtain ⟨hanswer, hsound⟩ := compareSinks_answersAs hdec hverdict
            (hblock ▸ hsinks bblockIdx) sinks2 hcache
          simp only [bind, Except.bind]
          rw [← hanswer]
          cases hok : C.compareSinks fuel side1 side2 sinks1 sinks2 cache with
          | error e => rfl
          | ok result =>
            obtain ⟨equal, cache'⟩ := result
            cases equal with
            | false => rfl
            | true =>
              have hrest := ih (bblockIdx + 1) (hsound cache' hok)
              simp only [Except.map, Bool.not_true, Bool.false_eq_true, if_false, hrest]

/-- One verdict satisfies the definition without a cache, and no other. -/
theorem exists_cacheFree (hdec : Decreases (C.expand fuel side1 side2) rank) :
    ∃ verdict, C.CacheFree fuel side1 side2 verdict ∧
      ∀ verdict', C.CacheFree fuel side1 side2 verdict' → verdict' = verdict := by
  obtain ⟨answer, hanswer⟩ := exists_answers .outOfFuel hdec
  refine ⟨fun var1 var2 => answer (var1, var2), cacheFree_iff.mpr hanswer, fun verdict' h' => ?_⟩
  have heq := Answers.unique hdec (cacheFree_iff.mp h') hanswer
  funext var1 var2
  exact congrFun heq (var1, var2)

end

/-- Two nodes come down to their inputs, pair by pair. -/
theorem expand_reduced {p : NodePair} {questions : List NodePair} {last : Bool}
    (h : C.expand fuel side1 side2 p = .ok (.reduced questions last)) :
    questions = (side1.heap.inputs p.1).zip (side2.heap.inputs p.2) := by
  simp only [expand, bind_eq_ok, at?_eq_ok] at h
  obtain ⟨node1, hnode1, node2, hnode2, agree, _, h⟩ := h
  cases agree with
  | false => cases h
  | true =>
    cases h
    rw [Heap.inputs, Heap.inputs, hnode1, hnode2]
    rfl

/-- A rank of the nodes of the first graph is one of pairs of nodes. -/
theorem decreases_of_rank {rank : NodeId → Nat}
    (h : ∀ x y, x ∈ side1.heap.inputs y → rank x < rank y) :
    Decreases (C.expand fuel side1 side2) fun p => rank p.1 := by
  intro p questions last hexpand q hq
  rw [expand_reduced hexpand] at hq
  exact h q.1 p.1 (List.of_mem_zip hq).1

end

/-- **The cache is transparent**: on graphs without cycles exactly one verdict on two
nodes satisfies the definition without a cache, and the comparison of the functions is
the loop over blocks and sinks with it. -/
theorem compareFunctionFlows_cacheFree (C : ProgramComparator) (fuel : Nat) {func1 func2 : Function}
    (h1 : func1.dfg.Acyclic) :
    ∃ verdict : Buffer → Buffer → NodeId → NodeId → Except Error Bool,
      (∀ func1ptr func2ptr,
        C.CacheFree fuel ⟨func1, func1ptr⟩ ⟨func2, func2ptr⟩ (verdict func1ptr func2ptr) ∧
        ∀ verdict', C.CacheFree fuel ⟨func1, func1ptr⟩ ⟨func2, func2ptr⟩ verdict' →
          verdict' = verdict func1ptr func2ptr) ∧
      C.compareFunctionFlows fuel func1 func2 = (do
        let func1ptr ← value (← C.pLoader1.getBufferAtLocation func1.location)
        let func2ptr ← value (← C.pLoader2.getBufferAtLocation func2.location)
        compareBlocksBy (verdict func1ptr func2ptr) func1 func2 func1.cfg.blocks.length 0) := by
  obtain ⟨rank, hlt, hbound⟩ := h1.acyclic.exists_rank (Finset.range func1.dfg.heap.length)
    fun x y hxy => Finset.mem_range.mpr (h1.inputs x y hxy)
  rw [Finset.card_range] at hbound
  have hdec : ∀ func1ptr func2ptr : Buffer, Decreases
      (C.expand fuel ⟨func1, func1ptr⟩ ⟨func2, func2ptr⟩) fun p => rank p.1 :=
    fun _ _ => decreases_of_rank hlt
  choose verdict hverdict using fun func1ptr func2ptr => exists_cacheFree (hdec func1ptr func2ptr)
  refine ⟨verdict, hverdict, ?_⟩
  have hblocks : ∀ func1ptr func2ptr : Buffer,
      C.compareBlocks fuel ⟨func1, func1ptr⟩ ⟨func2, func2ptr⟩ func1.cfg.blocks.length 0 [] =
        compareBlocksBy (verdict func1ptr func2ptr) func1 func2 func1.cfg.blocks.length 0 :=
    fun func1ptr func2ptr => compareBlocks_eq (hdec func1ptr func2ptr)
      (hverdict func1ptr func2ptr).1
      (fun b x hx _ => hbound x (Finset.mem_range.mpr (h1.sinks b x hx))) _ _
      (sound_empty asCache _)
  simp only [compareFunctionFlows, hblocks]

/-- `stwx r3, r3, r3`, as a graph: an immediate for r3 that is an input three times. -/
def sharedInput : Function where
  toSymbol := assembledSymbol 1
  cfg := .init
  dfg := ⟨[⟨.immediate 0 0 3, []⟩, ⟨.sink 0, [0, 0, 0]⟩], [{}], [[1]], []⟩

theorem sharedInput_ordered : sharedInput.dfg.Ordered fun _ => True where
  heap := by
    have h : Heap.Ordered (fun _ => True) ([⟨.immediate 0 0 3, []⟩] ++ [⟨.sink 0, [0, 0, 0]⟩]) :=
      have hfirst : Heap.Ordered (fun _ => True) ([] ++ [⟨.immediate 0 0 3, []⟩]) :=
        Heap.Ordered.nil.push (by decide) trivial
      hfirst.push (by decide) trivial
    exact h
  context b s x hx := by
    cases b with
    | zero => cases hx
    | succ b => cases hx
  sinks b x hx := by
    cases b with
    | zero =>
      cases hx with
      | head => decide
      | tail _ h => cases h
    | succ b => cases hx

theorem compareFunctionFlows_cacheFree_sharedInput :
    let C : ProgramComparator :=
      ⟨Excerpt.ppcdisasm, assembled [0x7c63192e] {} {}, assembled [0x7c63192e] {} {}⟩
    ∃ verdict : Buffer → Buffer → NodeId → NodeId → Except Error Bool,
      (∀ func1ptr func2ptr, C.CacheFree 0 ⟨sharedInput, func1ptr⟩ ⟨sharedInput, func2ptr⟩
        (verdict func1ptr func2ptr)) ∧
      C.compareFunctionFlows 0 sharedInput sharedInput = (do
        let func1ptr ← value (← C.pLoader1.getBufferAtLocation sharedInput.location)
        let func2ptr ← value (← C.pLoader2.getBufferAtLocation sharedInput.location)
        compareBlocksBy (verdict func1ptr func2ptr) sharedInput sharedInput 1 0) := by
  intro C
  have hacyclic : sharedInput.dfg.Acyclic := sharedInput_ordered.acyclic
  obtain ⟨verdict, hverdict, hflows⟩ := compareFunctionFlows_cacheFree C 0 hacyclic
  exact ⟨verdict, fun func1ptr func2ptr => (hverdict func1ptr func2ptr).1, hflows⟩

end ProgramComparator

end Ppc2cpp
