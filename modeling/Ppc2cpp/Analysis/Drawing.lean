import Ppc2cpp.Analysis.Acyclicity
import Ppc2cpp.DataFlow.NodeIds
import Ppc2cpp.Lib.Walk
import Ppc2cpp.ProgramLoader.Loading

/-! What is drawn of a data-flow graph.

The text is a list of statements: vertices with their labels, and edges from the inputs of
a node to the node. The recursion comes to a node once for every path to it and writes the
same statements again, which a strict graph merges. It writes the nodes the sinks depend
on and their inputs and nothing else (`outputDfgDot_draws`). A label is missing where a
reference goes to no symbol or the drawing does not know the opcode of an instruction, and
these are the only failures. -/
namespace Ppc2cpp
open DataFlowAnalysis

/-! ### Lists computed element by element -/

theorem mapM_eq_ok_map {α β : Type} {f : α → Except Error β} {g : α → β} {xs : List α}
    (h : ∀ x ∈ xs, f x = .ok (g x)) : xs.mapM f = .ok (xs.map g) := by
  induction xs with
  | nil => rfl
  | cons x xs ih =>
    obtain ⟨hx, hxs⟩ := List.forall_mem_cons.mp h
    rw [List.mapM_cons, hx, ih hxs]
    rfl

theorem exists_of_mapM {α β : Type} {f : α → Except Error β} {xs : List α} {ys : List β}
    (h : xs.mapM f = .ok ys) {x : α} (hx : x ∈ xs) : ∃ y ∈ ys, f x = .ok y := by
  obtain ⟨i, hi⟩ := List.mem_iff_getElem?.mp hx
  obtain ⟨y, hmem, hy⟩ := forall₂_getElem? (forall₂_of_mapM (fun _ _ hab => hab) h) hi
  exact ⟨y, List.mem_of_getElem? hmem, hy⟩

namespace DfgVisualizer

/-- How a node is drawn. -/
structure Vertex where
  id : String
  label : String
deriving DecidableEq, Repr

inductive Statement where
  | vertex (vertex : Vertex)
  | edges (sources : List String) (target : String)
deriving DecidableEq, Repr

/-- Several sources stand in braces. -/
def sourcesText : List String → String
  | [source] => source
  | sources => "\x7b" ++ ", ".intercalate sources ++ "\x7d"

/-- Nothing ends the edges. -/
def Statement.text : Statement → String
  | .vertex v => "  " ++ v.id ++ "[label=\"" ++ v.label ++ "\"]" ++ ";\n"
  | .edges sources target => "  " ++ sourcesText sources ++ " -> " ++ target

/-- The statements that are written at a node: its inputs, and the edges from them. -/
def ownStatements (heap : Heap) (caption : NodeId → Vertex) (var : NodeId) : List Statement :=
  if heap.inputs var = [] then []
  else (heap.inputs var).map (fun input => .vertex (caption input)) ++
    [.edges ((heap.inputs var).map fun input => (caption input).id) (caption var).id]

def statementsFrom (heap : Heap) (caption : NodeId → Vertex) :
    (depth : Nat) → NodeId → List Statement :=
  Walk.listing (ownStatements heap caption) heap.inputs

/-- The statements of a graph. -/
def statements (dfg : State) (caption : NodeId → Vertex) : List Statement :=
  dfg.sinks.flatten.flatMap fun sink =>
    .vertex (caption sink) :: statementsFrom dfg.heap caption dfg.heap.length sink

def textOf (drawing : List Statement) : String := String.join (drawing.map Statement.text)

@[simp] theorem textOf_nil : textOf [] = "" := String.join_nil

@[simp] theorem textOf_cons (s : Statement) (rest : List Statement) :
    textOf (s :: rest) = s.text ++ textOf rest := by
  rw [textOf, List.map_cons, String.join_cons, textOf]

@[simp] theorem textOf_append (xs ys : List Statement) :
    textOf (xs ++ ys) = textOf xs ++ textOf ys := by
  rw [textOf, List.map_append, String.join_append, textOf, textOf]

theorem textOf_flatMap {α : Type} (f : α → List Statement) (xs : List α) :
    textOf (xs.flatMap f) = String.join (xs.map fun x => textOf (f x)) := by
  induction xs with
  | nil => simp
  | cons x xs ih => rw [List.flatMap_cons, textOf_append, List.map_cons, String.join_cons, ih]

section
variable {D : Ppcdisasm} {programLoader : ProgramLoader} {func : Function}
  {caption : NodeId → Vertex} {depth : Nat} {var : NodeId}

/-- The node is drawn like this. -/
def Captioned (D : Ppcdisasm) (programLoader : ProgramLoader) (func : Function) (x : NodeId)
    (v : Vertex) : Prop :=
  ∃ kind, func.dfg.heap.kind? x = some kind ∧ getNodeId kind = .ok v.id ∧
    getDotLabel D programLoader func kind = .ok v.label

/-- What is written for a node is its vertex. -/
theorem outputNode_eq_ok_iff {kind : NodeKind} {text : String} :
    outputNode D programLoader func kind = .ok text ↔ ∃ v : Vertex,
      getNodeId kind = .ok v.id ∧ getDotLabel D programLoader func kind = .ok v.label ∧
      text = (Statement.vertex v).text := by
  unfold outputNode
  simp only [bind_eq_ok, pure, Except.pure, Except.ok.injEq]
  constructor
  · intro h
    obtain ⟨id, hid, label, hlabel, rfl⟩ := h
    exact ⟨⟨id, label⟩, hid, hlabel, rfl⟩
  · intro h
    obtain ⟨v, hid, hlabel, rfl⟩ := h
    exact ⟨v.id, hid, v.label, hlabel, rfl⟩

/-- The node at an address that has one. -/
def nodeAt (heap : Heap) (x : NodeId) : Node := (heap[x]?).getD ⟨.sink 0, []⟩

theorem Captioned.node {x : NodeId} {v : Vertex} (h : Captioned D programLoader func x v) :
    at? func.dfg.heap x = .ok (nodeAt func.dfg.heap x) ∧
      (nodeAt func.dfg.heap x).inputs = func.dfg.heap.inputs x ∧
      getNodeId (nodeAt func.dfg.heap x).kind = .ok v.id ∧
      outputNode D programLoader func (nodeAt func.dfg.heap x).kind =
        .ok (Statement.vertex v).text := by
  obtain ⟨kind, hkind, hid, hlabel⟩ := h
  obtain ⟨node, hnode, rfl⟩ := Option.map_eq_some_iff.mp hkind
  have hat : nodeAt func.dfg.heap x = node := by rw [nodeAt, hnode, Option.getD_some]
  rw [hat, Heap.inputs, hnode]
  exact ⟨at?_eq_ok.mpr hnode, rfl, hid, outputNode_eq_ok_iff.mpr ⟨v, hid, hlabel, rfl⟩⟩

/-- **From a node below which everything has a caption the statements are written.** -/
theorem outputDfgDotRecurse_of_captioned (rank : NodeId → Nat)
    (hrank : ∀ x, ∀ y ∈ func.dfg.heap.inputs x, rank y < rank x)
    (hcaption : ∀ y, Walk.Reaches func.dfg.heap.inputs var y →
      Captioned D programLoader func y (caption y)) (hvar : rank var < depth) :
    outputDfgDotRecurse D programLoader func depth var =
      .ok (textOf (statementsFrom func.dfg.heap caption depth var)) := by
  induction depth generalizing var with
  | zero => exact absurd hvar (Nat.not_lt_zero _)
  | succ depth ih =>
    obtain ⟨hat, hinputs, hid, _⟩ := (hcaption var .refl).node
    have hkid : ∀ z ∈ func.dfg.heap.inputs var, Captioned D programLoader func z (caption z) :=
      fun z hz => hcaption z (.of_kid hz .refl)
    have hrest : ∀ z ∈ func.dfg.heap.inputs var, outputDfgDotRecurse D programLoader func depth z =
        .ok (textOf (statementsFrom func.dfg.heap caption depth z)) := fun z hz =>
      ih (fun y hy => hcaption y (.of_kid hz hy))
        (lt_of_lt_of_le (hrank var z hz) (Nat.le_of_lt_succ hvar))
    have hnodes : (func.dfg.heap.inputs var).mapM (at? func.dfg.heap) =
        .ok ((func.dfg.heap.inputs var).map (nodeAt func.dfg.heap)) :=
      mapM_eq_ok_map fun z hz => (hkid z hz).node.1
    have hvertices : ((func.dfg.heap.inputs var).map (nodeAt func.dfg.heap)).mapM
        (fun input => outputNode D programLoader func input.kind) =
        .ok ((func.dfg.heap.inputs var).map fun z => (Statement.vertex (caption z)).text) := by
      rw [List.mapM_map]
      exact mapM_eq_ok_map fun z hz => (hkid z hz).node.2.2.2
    have hids : ((func.dfg.heap.inputs var).map (nodeAt func.dfg.heap)).mapM
        (fun input => getNodeId input.kind) =
        .ok ((func.dfg.heap.inputs var).map fun z => (caption z).id) := by
      rw [List.mapM_map]
      exact mapM_eq_ok_map fun z hz => (hkid z hz).node.2.2.1
    rw [outputDfgDotRecurse, hat]
    show (if (nodeAt func.dfg.heap var).inputs = [] then _ else _) = _
    rw [hinputs, statementsFrom, Walk.listing, ownStatements]
    split
    · rename_i hnil
      rw [hnil]
      rfl
    · refine bind_eq_ok.mpr ⟨_, hnodes, bind_eq_ok.mpr ⟨_, hvertices, bind_eq_ok.mpr ⟨_, hids,
        bind_eq_ok.mpr ⟨_, hid, bind_eq_ok.mpr ⟨_, mapM_eq_ok_map hrest, ?_⟩⟩⟩⟩⟩
      have hown : textOf ((func.dfg.heap.inputs var).map fun z => .vertex (caption z)) =
          String.join ((func.dfg.heap.inputs var).map fun z =>
            (Statement.vertex (caption z)).text) := by
        rw [textOf, List.map_map]
        rfl
      rw [textOf_append, textOf_append, hown, textOf_flatMap, textOf_cons, textOf_nil,
        String.append_empty, Statement.text]
      simp only [← String.append_assoc]
      rfl

/-- **Whatever is written was asked for its caption**: the inputs of the nodes the
recursion comes to. -/
theorem captioned_of_outputDfgDotRecurse {text : String}
    (h : outputDfgDotRecurse D programLoader func depth var = .ok text) {x y : NodeId}
    (hx : Walk.Reaches func.dfg.heap.inputs var x) (hy : y ∈ func.dfg.heap.inputs x) :
    ∃ v, Captioned D programLoader func y v := by
  induction depth generalizing var text with
  | zero => cases h
  | succ depth ih =>
    obtain ⟨node, hnode, h⟩ := bind_eq_ok.mp h
    have hinputs : func.dfg.heap.inputs var = node.inputs := by
      rw [Heap.inputs, at?_eq_ok.mp hnode]
      rfl
    split at h
    · rename_i hnil
      rcases Walk.reaches_iff.mp hx with rfl | ⟨z, hz, _⟩
      · rw [hinputs, hnil] at hy
        cases hy
      · rw [hinputs, hnil] at hz
        cases hz
    · obtain ⟨nodes, hnodes, h⟩ := bind_eq_ok.mp h
      obtain ⟨texts, htexts, h⟩ := bind_eq_ok.mp h
      obtain ⟨_, _, h⟩ := bind_eq_ok.mp h
      obtain ⟨_, _, h⟩ := bind_eq_ok.mp h
      obtain ⟨rest, hrest, _⟩ := bind_eq_ok.mp h
      rcases Walk.reaches_iff.mp hx with rfl | ⟨z, hz, hzx⟩
      · obtain ⟨input, hmem, hinput⟩ := exists_of_mapM hnodes (hinputs ▸ hy)
        obtain ⟨_, _, htext⟩ := exists_of_mapM htexts hmem
        obtain ⟨v, hid, hlabel, _⟩ := outputNode_eq_ok_iff.mp htext
        exact ⟨v, input.kind, congrArg _ (at?_eq_ok.mp hinput), hid, hlabel⟩
      · obtain ⟨_, _, hkid⟩ := exists_of_mapM hrest (hinputs ▸ hz)
        exact ih hkid hzx

end

/-! ### All sinks -/

section
variable {D : Ppcdisasm} {programLoader : ProgramLoader} {func : Function}

theorem mem_flatten_iff {st : State} {x : NodeId} :
    x ∈ st.sinks.flatten ↔ ∃ b, x ∈ st.blockSinks b := by
  rw [List.mem_flatten]
  constructor
  · intro h
    obtain ⟨sinks, hsinks, hx⟩ := h
    obtain ⟨b, hb⟩ := List.mem_iff_getElem?.mp hsinks
    exact ⟨b, by rwa [State.blockSinks, List.getD_eq_getElem?_getD, hb, Option.getD_some]⟩
  · intro h
    obtain ⟨b, hx⟩ := h
    rw [State.blockSinks, List.getD_eq_getElem?_getD] at hx
    cases hb : st.sinks[b]? with
    | none =>
      rw [hb] at hx
      cases hx
    | some sinks =>
      rw [hb] at hx
      exact ⟨sinks, List.mem_of_getElem? hb, hx⟩

/-- What the sinks depend on. -/
theorem dependedOn_iff {st : State} {x : NodeId} :
    DependedOn st x ↔ ∃ sink ∈ st.sinks.flatten, Walk.Reaches st.heap.inputs sink x := by
  constructor
  · intro h
    induction h with
    | sink hx => exact ⟨_, mem_flatten_iff.mpr ⟨_, hx⟩, .refl⟩
    | input _ hy ih =>
      obtain ⟨sink, hsink, hx⟩ := ih
      exact ⟨sink, hsink, .tail hx hy⟩
  · intro h
    obtain ⟨sink, hsink, hx⟩ := h
    induction hx with
    | refl =>
      obtain ⟨b, hb⟩ := mem_flatten_iff.mp hsink
      exact .sink hb
    | tail _ hy ih => exact .input ih hy

theorem outputDfgDot_of_captioned (hordered : ∀ x, ∀ y ∈ func.dfg.heap.inputs x, y < x)
    (hsinks : ∀ x ∈ func.dfg.sinks.flatten, x < func.dfg.heap.length)
    {caption : NodeId → Vertex}
    (hcaption : ∀ x, DependedOn func.dfg x → Captioned D programLoader func x (caption x)) :
    outputDfgDot D programLoader func =
      .ok ("strict digraph \x7b\n" ++ textOf (statements func.dfg caption) ++ "\n\x7d\n") := by
  have hsink : ∀ sink ∈ func.dfg.sinks.flatten, (do
      let node ← at? func.dfg.heap sink
      return (← outputNode D programLoader func node.kind) ++
        (← outputDfgDotRecurse D programLoader func func.dfg.heap.length sink)) =
      Except.ok (textOf (.vertex (caption sink) ::
        statementsFrom func.dfg.heap caption func.dfg.heap.length sink)) := by
    intro sink hmem
    have hbelow := fun x hx => hcaption x (dependedOn_iff.mpr ⟨sink, hmem, hx⟩)
    obtain ⟨hat, _, _, hout⟩ := (hbelow sink .refl).node
    have hrest := outputDfgDotRecurse_of_captioned id hordered hbelow (hsinks sink hmem)
    rw [textOf_cons]
    exact bind_eq_ok.mpr ⟨_, hat, bind_eq_ok.mpr ⟨_, hout, bind_eq_ok.mpr ⟨_, hrest, rfl⟩⟩⟩
  rw [statements, textOf_flatMap]
  exact bind_eq_ok.mpr ⟨_, mapM_eq_ok_map hsink, rfl⟩

theorem captioned_of_outputDfgDot {text : String} (h : outputDfgDot D programLoader func = .ok text)
    {x : NodeId} (hx : DependedOn func.dfg x) : ∃ v, Captioned D programLoader func x v := by
  obtain ⟨sinks, hsinks, _⟩ := bind_eq_ok.mp h
  cases hx with
  | sink hmem =>
    obtain ⟨_, _, hsink⟩ := exists_of_mapM hsinks (mem_flatten_iff.mpr ⟨_, hmem⟩)
    obtain ⟨node, hnode, hsink⟩ := bind_eq_ok.mp hsink
    obtain ⟨_, hout, _⟩ := bind_eq_ok.mp hsink
    obtain ⟨v, hid, hlabel, _⟩ := outputNode_eq_ok_iff.mp hout
    exact ⟨v, node.kind, congrArg _ (at?_eq_ok.mp hnode), hid, hlabel⟩
  | input hdep hy =>
    obtain ⟨sink, hmem, hreach⟩ := dependedOn_iff.mp hdep
    obtain ⟨_, _, hsink⟩ := exists_of_mapM hsinks hmem
    obtain ⟨_, _, hsink⟩ := bind_eq_ok.mp hsink
    obtain ⟨_, _, hsink⟩ := bind_eq_ok.mp hsink
    obtain ⟨_, hrest, _⟩ := bind_eq_ok.mp hsink
    exact captioned_of_outputDfgDotRecurse hrest hreach hy

/-- **The text is that of the statements**, if every node a sink depends on has a caption,
and there is none otherwise. -/
theorem outputDfgDot_eq_ok_iff (hordered : ∀ x, ∀ y ∈ func.dfg.heap.inputs x, y < x)
    (hsinks : ∀ x ∈ func.dfg.sinks.flatten, x < func.dfg.heap.length) {text : String} :
    outputDfgDot D programLoader func = .ok text ↔ ∃ caption : NodeId → Vertex,
      (∀ x, DependedOn func.dfg x → Captioned D programLoader func x (caption x)) ∧
      text = "strict digraph \x7b\n" ++ textOf (statements func.dfg caption) ++ "\n\x7d\n" := by
  constructor
  · intro h
    have hsome : ∀ x, ∃ v, DependedOn func.dfg x → Captioned D programLoader func x v := by
      intro x
      by_cases hx : DependedOn func.dfg x
      · obtain ⟨v, hv⟩ := captioned_of_outputDfgDot h hx
        exact ⟨v, fun _ => hv⟩
      · exact ⟨⟨"", ""⟩, fun hdep => absurd hdep hx⟩
    obtain ⟨caption, hcaption⟩ := Classical.axiomOfChoice hsome
    have hok := outputDfgDot_of_captioned hordered hsinks hcaption
    exact ⟨caption, hcaption, Except.ok.inj (h.symm.trans hok)⟩
  · intro h
    obtain ⟨caption, hcaption, rfl⟩ := h
    exact outputDfgDot_of_captioned hordered hsinks hcaption

theorem mem_ownStatements_iff {heap : Heap} {caption : NodeId → Vertex} {x : NodeId}
    {s : Statement} :
    s ∈ ownStatements heap caption x ↔ (∃ y ∈ heap.inputs x, s = .vertex (caption y)) ∨
      heap.inputs x ≠ [] ∧
        s = .edges ((heap.inputs x).map fun y => (caption y).id) (caption x).id := by
  unfold ownStatements
  split
  · rename_i hnil
    simp [hnil]
  · rename_i hne
    simp [hne, eq_comm]

/-- A statement is that of a sink, or is written at a node that the sinks depend on. -/
theorem mem_statements {st : State} (hordered : ∀ x, ∀ y ∈ st.heap.inputs x, y < x)
    (hsinks : ∀ x ∈ st.sinks.flatten, x < st.heap.length) {caption : NodeId → Vertex}
    {s : Statement} : s ∈ statements st caption ↔
      (∃ x ∈ st.sinks.flatten, s = .vertex (caption x)) ∨
        ∃ x, DependedOn st x ∧ s ∈ ownStatements st.heap caption x := by
  have hbelow : ∀ sink ∈ st.sinks.flatten,
      (s ∈ statementsFrom st.heap caption st.heap.length sink ↔
        ∃ x, Walk.Reaches st.heap.inputs sink x ∧ s ∈ ownStatements st.heap caption x) :=
    fun sink hsink => Walk.mem_listing_iff id hordered (hsinks sink hsink)
  rw [statements, List.mem_flatMap]
  simp only [List.mem_cons]
  constructor
  · intro h
    obtain ⟨sink, hsink, rfl | hs⟩ := h
    · exact .inl ⟨sink, hsink, rfl⟩
    · obtain ⟨x, hx, hown⟩ := (hbelow sink hsink).mp hs
      exact .inr ⟨x, dependedOn_iff.mpr ⟨sink, hsink, hx⟩, hown⟩
  · intro h
    rcases h with ⟨sink, hsink, rfl⟩ | ⟨x, hx, hown⟩
    · exact ⟨sink, hsink, .inl rfl⟩
    · obtain ⟨sink, hsink, hreach⟩ := dependedOn_iff.mp hx
      exact ⟨sink, hsink, .inr ((hbelow sink hsink).mpr ⟨x, hreach, hown⟩)⟩

/-- **The statements draw what the sinks depend on**: each such node, and for each with
inputs the edges from them. -/
theorem mem_statements_iff {st : State} (hordered : ∀ x, ∀ y ∈ st.heap.inputs x, y < x)
    (hsinks : ∀ x ∈ st.sinks.flatten, x < st.heap.length) (caption : NodeId → Vertex) :
    (∀ v, .vertex v ∈ statements st caption ↔ ∃ x, DependedOn st x ∧ v = caption x) ∧
      ∀ sources target, .edges sources target ∈ statements st caption ↔
        ∃ x, DependedOn st x ∧ st.heap.inputs x ≠ [] ∧
          sources = (st.heap.inputs x).map (fun y => (caption y).id) ∧ target = (caption x).id := by
  constructor
  · intro v
    simp only [mem_statements hordered hsinks, mem_ownStatements_iff, Statement.vertex.injEq,
      reduceCtorEq, and_false, or_false]
    constructor
    · intro h
      rcases h with ⟨x, hx, rfl⟩ | ⟨x, hx, y, hy, rfl⟩
      · exact ⟨x, dependedOn_iff.mpr ⟨x, hx, .refl⟩, rfl⟩
      · exact ⟨y, .input hx hy, rfl⟩
    · intro h
      obtain ⟨x, hx, rfl⟩ := h
      cases hx with
      | sink hmem => exact .inl ⟨x, mem_flatten_iff.mpr ⟨_, hmem⟩, rfl⟩
      | input hx hy => exact .inr ⟨_, hx, x, hy, rfl⟩
  · intro sources target
    simp only [mem_statements hordered hsinks, mem_ownStatements_iff, Statement.edges.injEq,
      reduceCtorEq, and_false, exists_false, false_or]

end

end DfgVisualizer

/-! ### Analysed functions -/

/-- What the label of a node is looked up by is there. -/
def NodeKind.Legible (S : Subject) : NodeKind → Prop
  | .result pc _ _ => (S.disasm.lookupPowerpc (S.insn pc) .ppc750cl).isSome
  | .sink pc => (S.disasm.lookupPowerpc (S.insn pc) .ppc750cl).isSome
  | .reference _ _ reloc => (S.loader.symtab.lookupByLocation reloc.destination).isSome
  | _ => True

namespace Analysed
open DfgVisualizer
variable (A : Analysed)

/-- Every node a sink depends on is legible. -/
def Legible : Prop :=
  ∀ x kind, DependedOn A.dfg x → A.dfg.heap.kind? x = some kind → kind.Legible A.subject

def Captioned (x : NodeId) (v : Vertex) : Prop :=
  DfgVisualizer.Captioned A.subject.disasm A.subject.loader A.function x v

/-- A statement that belongs to the drawing: the vertex of a node that a sink depends on, or
the edges from its inputs, in their order. -/
inductive Shows : Statement → Prop where
  | vertex {x : NodeId} {v : Vertex} : DependedOn A.dfg x → A.Captioned x v → Shows (.vertex v)
  | edges {x : NodeId} {v : Vertex} {sources : List Vertex} : DependedOn A.dfg x →
      A.dfg.heap.inputs x ≠ [] → List.Forall₂ A.Captioned (A.dfg.heap.inputs x) sources →
      A.Captioned x v → Shows (.edges (sources.map Vertex.id) v.id)

variable {A}

theorem exists_opcodeLabel_iff {opcode : Option Opcode} :
    (∃ label, (do return (← value opcode).name) = Except.ok label) ↔ opcode.isSome := by
  cases opcode <;> simp [value]

/-- A node has a label iff what it is looked up by is there. -/
theorem exists_label_iff {kind : NodeKind} (hlocated : kind.Located) :
    (∃ label, getDotLabel A.subject.disasm A.subject.loader A.function kind = .ok label) ↔
      kind.Legible A.subject := by
  have hbuffer : A.subject.loader.getBufferAtLocation A.function.location =
      .ok (some A.subject.buffer) := A.subject.located
  unfold getDotLabel
  rw [hbuffer]
  cases kind with
  | result pc i loc => exact exists_opcodeLabel_iff
  | sink pc => exact exists_opcodeLabel_iff
  | reference pc i reloc =>
    constructor
    · intro h
      obtain ⟨label, h⟩ := h
      obtain ⟨_, _, h⟩ := bind_eq_ok.mp h
      obtain ⟨_, _, h⟩ := bind_eq_ok.mp h
      dsimp only at h
      split at h
      · rename_i hsymbol
        exact Option.isSome_iff_exists.mpr ⟨_, hsymbol⟩
      · obtain ⟨_, _, h⟩ := bind_eq_ok.mp h
        obtain ⟨_, _, h⟩ := bind_eq_ok.mp h
        cases h
    · intro h
      obtain ⟨relocSym, hsymbol⟩ := Option.isSome_iff_exists.mp h
      refine ⟨relocSym.name, bind_eq_ok.mpr ⟨_, rfl, bind_eq_ok.mpr ⟨_, rfl, ?_⟩⟩⟩
      dsimp only
      rw [hsymbol]
      rfl
  | callReturn i loc =>
    obtain ⟨slot, _, hlabel⟩ := hlocated.label_eq rfl
    refine iff_of_true ⟨"ret" ++ toString i ++ slot.label, ?_⟩ trivial
    show (do return "ret" ++ toString i ++ (← cpuMemorySpace2label loc)) = _
    rw [hlabel]
    rfl
  | ret i loc =>
    obtain ⟨slot, _, hlabel⟩ := hlocated.label_eq rfl
    refine iff_of_true ⟨"return " ++ slot.label, ?_⟩ trivial
    show (do return "return " ++ (← cpuMemorySpace2label loc)) = _
    rw [hlabel]
    rfl
  | functionInput i loc =>
    obtain ⟨slot, _, hlabel⟩ := hlocated.label_eq rfl
    exact iff_of_true ⟨_, hlabel⟩ trivial
  | immediate i j value => exact iff_of_true ⟨_, rfl⟩ trivial
  | phi i loc => exact iff_of_true ⟨_, rfl⟩ trivial

theorem lt_of_mem_inputs (A : Analysed) : ∀ x, ∀ y ∈ A.dfg.heap.inputs x, y < x :=
  fun _ _ hy => A.ordered.lt_of_mem_inputs hy

theorem lt_of_mem_sinks {x : NodeId} (hx : x ∈ A.dfg.sinks.flatten) : x < A.dfg.heap.length := by
  obtain ⟨b, hb⟩ := mem_flatten_iff.mp hx
  exact (functionDFA_ordered A.wellFormed (madeKinds_true A.subject A.cfg) A.dfa).sinks b x hb

theorem lt_of_dependedOn {x : NodeId} (hx : DependedOn A.dfg x) : x < A.dfg.heap.length := by
  induction hx with
  | sink hmem => exact lt_of_mem_sinks (mem_flatten_iff.mpr ⟨_, hmem⟩)
  | input _ hy ih => exact (lt_of_mem_inputs A _ _ hy).trans ih

theorem exists_kind_of_dependedOn {x : NodeId} (hx : DependedOn A.dfg x) :
    ∃ kind, A.dfg.heap.kind? x = some kind := by
  rw [Heap.kind?, List.getElem?_eq_getElem (lt_of_dependedOn hx)]
  exact ⟨_, rfl⟩

/-- A node that a sink depends on has a caption iff it is legible. -/
theorem exists_captioned_iff {x : NodeId} {kind : NodeKind}
    (hkind : A.dfg.heap.kind? x = some kind) :
    (∃ v, A.Captioned x v) ↔ kind.Legible A.subject := by
  have hlocated : kind.Located := by
    rw [← A.result] at hkind
    exact (A.isTrace.named hkind).1
  rw [← exists_label_iff hlocated]
  constructor
  · intro h
    obtain ⟨v, kind', hkind', _, hlabel⟩ := h
    obtain rfl := Option.some.inj (hkind.symm.trans hkind')
    exact ⟨v.label, hlabel⟩
  · intro h
    obtain ⟨label, hlabel⟩ := h
    exact ⟨⟨_, label⟩, kind, hkind, NodeKind.getNodeId_eq hlocated, hlabel⟩

theorem Captioned.unique {x : NodeId} {v w : Vertex} (hv : A.Captioned x v)
    (hw : A.Captioned x w) : v = w := by
  obtain ⟨kind, hkind, hid, hlabel⟩ := hv
  obtain ⟨kind', hkind', hid', hlabel'⟩ := hw
  obtain rfl := Option.some.inj (hkind.symm.trans hkind')
  rw [hid, Except.ok.injEq] at hid'
  rw [hlabel, Except.ok.injEq] at hlabel'
  cases v
  cases w
  rw [Vertex.mk.injEq]
  exact ⟨hid', hlabel'⟩

theorem forall₂_captioned {caption : NodeId → Vertex} {xs : List NodeId} {vs : List Vertex}
    (hcaption : ∀ x ∈ xs, A.Captioned x (caption x)) :
    List.Forall₂ A.Captioned xs vs ↔ vs = xs.map caption := by
  constructor
  · intro h
    induction h with
    | nil => rfl
    | cons hv _ ih =>
      obtain ⟨hx, hxs⟩ := List.forall_mem_cons.mp hcaption
      rw [List.map_cons, hv.unique hx, ih hxs]
  · intro h
    rw [h, List.forall₂_map_right_iff, List.forall₂_same]
    exact hcaption

/-- The statements are those that belong to the drawing. -/
theorem mem_statements_iff_shows {caption : NodeId → Vertex}
    (hcaption : ∀ x, DependedOn A.dfg x → A.Captioned x (caption x)) {s : Statement} :
    s ∈ statements A.dfg caption ↔ A.Shows s := by
  obtain ⟨hvertex, hedges⟩ := mem_statements_iff (lt_of_mem_inputs A)
    (fun x hx => lt_of_mem_sinks hx) caption
  cases s with
  | vertex v =>
    rw [hvertex v]
    constructor
    · intro h
      obtain ⟨x, hx, rfl⟩ := h
      exact .vertex hx (hcaption x hx)
    · intro h
      cases h with
      | vertex hx hv => exact ⟨_, hx, hv.unique (hcaption _ hx)⟩
  | edges sources target =>
    rw [hedges sources target]
    constructor
    · intro h
      obtain ⟨x, hx, hne, rfl, rfl⟩ := h
      have hinputs := (forall₂_captioned fun y hy => hcaption y (.input hx hy)).mpr rfl
      have hshows := Shows.edges hx hne hinputs (hcaption x hx)
      rwa [List.map_map] at hshows
    · intro h
      cases h with
      | @edges x v sources hx hne hinputs hv =>
        refine ⟨x, hx, hne, ?_, congrArg _ (hv.unique (hcaption x hx))⟩
        rw [(forall₂_captioned fun y hy => hcaption y (.input hx hy)).mp hinputs, List.map_map]
        rfl

/-- There is a drawing iff all nodes that the sinks depend on are legible. -/
theorem exists_text_iff (A : Analysed) :
    (∃ text, outputDfgDot A.subject.disasm A.subject.loader A.function = .ok text) ↔ A.Legible := by
  constructor
  · intro h
    obtain ⟨text, htext⟩ := h
    intro x kind hx hkind
    exact (exists_captioned_iff hkind).mp (captioned_of_outputDfgDot htext hx)
  · intro h
    have hsome : ∀ x, ∃ v, DependedOn A.dfg x → A.Captioned x v := by
      intro x
      by_cases hx : DependedOn A.dfg x
      · obtain ⟨kind, hkind⟩ := exists_kind_of_dependedOn hx
        obtain ⟨v, hv⟩ := (exists_captioned_iff hkind).mpr (h x kind hx hkind)
        exact ⟨v, fun _ => hv⟩
      · exact ⟨⟨"", ""⟩, fun hdep => absurd hdep hx⟩
    obtain ⟨caption, hcaption⟩ := Classical.axiomOfChoice hsome
    exact ⟨_, outputDfgDot_of_captioned (lt_of_mem_inputs A) (fun x hx => lt_of_mem_sinks hx)
      hcaption⟩

/-- The text of a drawing is that of the statements that belong to it. -/
theorem shows_of_outputDfgDot {text : String}
    (h : outputDfgDot A.subject.disasm A.subject.loader A.function = .ok text) :
    ∃ drawing, text = "strict digraph \x7b\n" ++ textOf drawing ++ "\n\x7d\n" ∧
      ∀ s, s ∈ drawing ↔ A.Shows s := by
  obtain ⟨caption, hcaption, rfl⟩ := (outputDfgDot_eq_ok_iff (lt_of_mem_inputs A)
    fun x hx => lt_of_mem_sinks hx).mp h
  exact ⟨_, rfl, fun s => mem_statements_iff_shows hcaption⟩

/-- **The drawing of an analysed function**: there is one iff all nodes that the sinks
depend on are legible, and it has a vertex for each of them and for each with inputs the
edges from its inputs, in their order, and nothing else. -/
theorem outputDfgDot_draws (A : Analysed) :
    ((∃ text, outputDfgDot A.subject.disasm A.subject.loader A.function = .ok text) ↔ A.Legible) ∧
    ∀ text, outputDfgDot A.subject.disasm A.subject.loader A.function = .ok text →
      ∃ drawing : List Statement,
        text = "strict digraph \x7b\n" ++ textOf drawing ++ "\n\x7d\n" ∧
        (∀ s, s ∈ drawing ↔ A.Shows s) ∧
        ∀ x, DependedOn A.dfg x → ∃ v, A.Captioned x v ∧ .vertex v ∈ drawing := by
  refine ⟨exists_text_iff A, fun text h => ?_⟩
  obtain ⟨drawing, htext, hdrawing⟩ := shows_of_outputDfgDot h
  refine ⟨drawing, htext, hdrawing, fun x hx => ?_⟩
  obtain ⟨v, hv⟩ := captioned_of_outputDfgDot h hx
  exact ⟨v, hv, (hdrawing _).mpr (.vertex hx hv)⟩

/-- The `li` and the return value are drawn. -/
theorem outputDfgDot_draws_returnsOne : ∃ A : Analysed, A.subject = returnsOne ∧ A.Legible ∧
    ∃ (text : String) (drawing : List Statement),
      outputDfgDot A.subject.disasm A.subject.loader A.function = .ok text ∧
      text = "strict digraph \x7b\n" ++ textOf drawing ++ "\n\x7d\n" ∧
      ∀ s, s ∈ drawing ↔ A.Shows s := by
  obtain ⟨A, hS, _, hdraws⟩ := exists_of_check returnsOne .ascending 8
    (p := fun g st => returns (outputDfgDot returnsOne.disasm returnsOne.loader
      (returnsOne.function g st)) fun _ => true) (by decide +kernel)
  obtain ⟨text, htext, _⟩ := exists_ok hdraws
  rw [← hS] at htext
  obtain ⟨hlegible, hall⟩ := outputDfgDot_draws A
  obtain ⟨drawing, hdrawing, hshows, _⟩ := hall text htext
  exact ⟨A, hS, hlegible.mp ⟨text, htext⟩, text, drawing, htext, hdrawing, hshows⟩

end Analysed

end Ppc2cpp
