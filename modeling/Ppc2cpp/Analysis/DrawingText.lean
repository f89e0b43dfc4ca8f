import Ppc2cpp.Analysis.Drawing

/-! The text of a drawing read back.

The ids of nodes are words, a label ends with its quotation mark, and behind the edges
there is a blank or the end of the text. So a statement is read off the front of the text
(`text_append_inj`), and two functions with the same text show the same statements, if no
label has a quotation mark in it (`shows_iff_of_text_eq`): the names of symbols are written
as they are. -/
namespace Ppc2cpp
open DataFlowAnalysis Spans

namespace DfgVisualizer

/-- What ids are made of. -/
def idChar (c : Char) : Bool := c.isAlphanum || c == '_'

def IsWord (id : String) : Prop := Only idChar id ∧ id ≠ ""

/-- The statement can be read back. -/
def Statement.Plain : Statement → Prop
  | .vertex v => IsWord v.id ∧ Only (· != '\x22') v.label
  | .edges sources target => sources ≠ [] ∧ (∀ id ∈ sources, IsWord id) ∧ IsWord target

/-- A text that no id goes on with. -/
def Stopped (r : String) : Prop := Stops idChar r.toList

theorem stopped_append {w : String} (h : ∃ c, w.toList.head? = some c ∧ idChar c = false)
    (r : String) :
    Stopped (w ++ r) := by
  obtain ⟨c, hc, hid⟩ := h
  refine stops_append ?_ ?_ r
  · intro d hd
    rw [hc, Option.mem_some_iff] at hd
    rwa [← hd]
  · intro hw
    rw [hw] at hc
    cases hc

theorem text_vertex (v : Vertex) (r : String) : (Statement.vertex v).text ++ r =
    "  " ++ (v.id ++ ("[label=\"" ++ (v.label ++ ("\"]" ++ (";\n" ++ r))))) := by
  simp only [Statement.text, String.append_assoc]

theorem text_edges (sources : List String) (target r : String) :
    (Statement.edges sources target).text ++ r =
      "  " ++ (sourcesText sources ++ (" -> " ++ (target ++ r))) := by
  simp only [Statement.text, String.append_assoc]

theorem text_stopped (s : Statement) (r : String) : Stopped (s.text ++ r) := by
  cases s with
  | vertex v =>
    rw [text_vertex]
    exact stopped_append ⟨' ', rfl, rfl⟩ _
  | edges sources target =>
    rw [text_edges]
    exact stopped_append ⟨' ', rfl, rfl⟩ _

theorem sourcesText_cons_cons (x y : String) (rest : List String) (r : String) :
    sourcesText (x :: y :: rest) ++ r =
      "\x7b" ++ (", ".intercalate (x :: y :: rest) ++ ("\x7d" ++ r)) := by
  rw [sourcesText]
  · simp only [String.append_assoc]
  · intro source h
    cases h

/-- The list of sources and what follows. -/
theorem sourcesText_append_inj {xs ys : List String} (hx : xs ≠ []) (hxs : ∀ x ∈ xs, IsWord x)
    (hy : ys ≠ []) (hys : ∀ y ∈ ys, IsWord y) {r s : String} (hr : Stopped r) (hs : Stopped s)
    (h : sourcesText xs ++ r = sourcesText ys ++ s) : xs = ys ∧ r = s := by
  have hbrace : ∀ r, Stopped ("\x7b" ++ r) := stopped_append ⟨'\x7b', rfl, rfl⟩
  cases xs with
  | nil => exact absurd rfl hx
  | cons x xs =>
    cases ys with
    | nil => exact absurd rfl hy
    | cons y ys =>
      have hwx := hxs x List.mem_cons_self
      have hwy := hys y List.mem_cons_self
      -- a single source stands without braces
      cases xs with
      | nil =>
        cases ys with
        | nil =>
          obtain ⟨rfl, hrest⟩ := word_append_inj hwx.1 hwy.1 hr hs h
          exact ⟨rfl, hrest⟩
        | cons y' ys =>
          rw [sourcesText_cons_cons] at h
          exact absurd h (word_append_ne hwx.1 hwx.2 hr (hbrace _))
      | cons x' xs =>
        rw [sourcesText_cons_cons] at h
        cases ys with
        | nil => exact absurd h.symm (word_append_ne hwy.1 hwy.2 hs (hbrace _))
        | cons y' ys =>
          rw [sourcesText_cons_cons] at h
          refine intercalate_append_inj (stopped_append ⟨',', rfl, rfl⟩)
            (stopped_append ⟨'\x7d', rfl, rfl⟩) (fun r s heq => ?_) hxs hys
            ((String.append_right_inj _).mp h)
          have hhead := congrArg (fun w => w.toList.head?) heq
          simp at hhead

/-- Behind the id of a vertex there is a bracket, and behind sources an arrow. -/
theorem text_vertex_ne_edges {v : Vertex} {sources : List String} {target : String}
    (hv : (Statement.vertex v).Plain) (he : (Statement.edges sources target).Plain)
    (r r' : String) :
    (Statement.vertex v).text ++ r ≠ (Statement.edges sources target).text ++ r' := by
  have hbracket : ∀ r, Stopped ("[label=\"" ++ r) := stopped_append ⟨'[', rfl, rfl⟩
  have harrow : ∀ r, Stopped (" -> " ++ r) := stopped_append ⟨' ', rfl, rfl⟩
  intro h
  rw [text_vertex, text_edges] at h
  have hrest := (String.append_right_inj _).mp h
  have hid : sourcesText [v.id] = v.id := rfl
  rw [← hid] at hrest
  have hsingle : ∀ x ∈ [v.id], IsWord x := List.forall_mem_singleton.mpr hv.1
  obtain ⟨_, hdiffer⟩ := sourcesText_append_inj (List.cons_ne_nil _ _) hsingle he.1 he.2.1
    (hbracket _) (harrow _) hrest
  have hhead := congrArg (fun w => w.toList.head?) hdiffer
  simp at hhead

/-- **A statement is read off the front of the text.** -/
theorem text_append_inj {s t : Statement} (hs : s.Plain) (ht : t.Plain) {r r' : String}
    (hr : Stopped r) (hr' : Stopped r') (h : s.text ++ r = t.text ++ r') : s = t ∧ r = r' := by
  have hbracket : ∀ r, Stopped ("[label=\"" ++ r) := stopped_append ⟨'[', rfl, rfl⟩
  have harrow : ∀ r, Stopped (" -> " ++ r) := stopped_append ⟨' ', rfl, rfl⟩
  have hquote : ∀ r : String, Stops (· != '\x22') ("\"]" ++ r).toList := fun r =>
    stops_append (by decide) (by decide) r
  cases s with
  | vertex v =>
    cases t with
    | edges sources target => exact absurd h (text_vertex_ne_edges hs ht r r')
    | vertex w =>
      rw [text_vertex, text_vertex, String.append_right_inj] at h
      obtain ⟨hid, hlabelled⟩ := word_append_inj hs.1.1 ht.1.1 (hbracket _) (hbracket _) h
      rw [String.append_right_inj] at hlabelled
      obtain ⟨hlabel, hrest⟩ := word_append_inj hs.2 ht.2 (hquote _) (hquote _) hlabelled
      rw [String.append_right_inj, String.append_right_inj] at hrest
      cases v
      cases w
      rw [Statement.vertex.injEq, Vertex.mk.injEq]
      exact ⟨⟨hid, hlabel⟩, hrest⟩
  | edges sources target =>
    cases t with
    | vertex v => exact absurd h.symm (text_vertex_ne_edges ht hs r' r)
    | edges sources' target' =>
      rw [text_edges, text_edges, String.append_right_inj] at h
      obtain ⟨hsources, harrows⟩ := sourcesText_append_inj hs.1 hs.2.1 ht.1 ht.2.1 (harrow _)
        (harrow _) h
      rw [String.append_right_inj] at harrows
      obtain ⟨htarget, hrest⟩ := word_append_inj hs.2.2.1 ht.2.2.1 hr hr' harrows
      rw [hsources, htarget]
      exact ⟨rfl, hrest⟩

/-- **A list of statements is read back from its text.** -/
theorem textOf_inj {xs ys : List Statement} (hxs : ∀ s ∈ xs, s.Plain) (hys : ∀ s ∈ ys, s.Plain)
    (h : textOf xs ++ "\n\x7d\n" = textOf ys ++ "\n\x7d\n") : xs = ys := by
  have hend : Stops idChar ("\n\x7d\n" : String).toList := by decide
  have hstopped : ∀ zs : List Statement, Stopped (textOf zs ++ "\n\x7d\n") := by
    intro zs
    cases zs with
    | nil =>
      rw [textOf_nil, String.empty_append]
      exact hend
    | cons s zs =>
      rw [textOf_cons, String.append_assoc]
      exact text_stopped s _
  -- a statement begins with a blank, and the end with a new line
  have hblank : ∀ (s : Statement) (r : String), (s.text ++ r) ≠ "\n\x7d\n" := by
    intro s r heq
    have hhead := congrArg (fun w => w.toList.head?) heq
    cases s with
    | vertex v =>
      rw [text_vertex] at hhead
      simp at hhead
    | edges sources target =>
      rw [text_edges] at hhead
      simp at hhead
  induction xs generalizing ys with
  | nil =>
    cases ys with
    | nil => rfl
    | cons t ys =>
      rw [textOf_nil, String.empty_append, textOf_cons, String.append_assoc] at h
      exact absurd h.symm (hblank t _)
  | cons s xs ih =>
    cases ys with
    | nil =>
      rw [textOf_nil, String.empty_append, textOf_cons, String.append_assoc] at h
      exact absurd h (hblank s _)
    | cons t ys =>
      obtain ⟨hs, hxs⟩ := List.forall_mem_cons.mp hxs
      obtain ⟨ht, htail⟩ := List.forall_mem_cons.mp hys
      rw [textOf_cons, textOf_cons, String.append_assoc, String.append_assoc] at h
      obtain ⟨hst, hrest⟩ := text_append_inj hs ht (hstopped xs) (hstopped ys) h
      rw [hst, ih hxs htail hrest]

end DfgVisualizer

/-! ### Ids are words -/

open DfgVisualizer

theorem idChar_of_isDigit {c : Char} (h : c.isDigit = true) : idChar c = true := by
  simp [idChar, Char.isAlphanum, h]

theorem Slot.label_word (s : Slot) : Only idChar s.label := by
  have hall : ∀ w ∈ ["r", "f", "cr", "gqr", "ps", "lr", "ctr", "xer", "fpscr"], Only idChar w := by
    decide
  refine only_append (by cases s <;> exact hall _ (by simp [word])) fun c hc => ?_
  exact idChar_of_isDigit (s.number_digits c hc)

theorem NodeClass.word_isWord (c : NodeClass) : IsWord c.word := by
  cases c <;> exact ⟨by decide, by decide⟩

/-- **Ids are words**, whatever the node. -/
theorem NodeKind.id_word (kind : NodeKind) : IsWord (kind.nodeClass.word ++ kind.tail) := by
  have hnumber : ∀ n : Nat, Only idChar (toString n) := fun n c hc =>
    idChar_of_isDigit (digits_toString n c hc)
  have hlabel : Only idChar ((kind.register?.map Slot.label).getD "") := by
    cases kind.register? with
    | none => exact fun c hc => absurd hc (List.not_mem_nil)
    | some slot => exact slot.label_word
  have hinsn : Only idChar "_insn" := by decide
  have hop : Only idChar "op" := by decide
  have hbar : Only idChar "_" := by decide
  have htail : Only idChar kind.tail := by
    cases kind with
    | functionInput i loc => exact only_append hinsn (only_append (hnumber i) hlabel)
    | callReturn i loc => exact only_append hinsn (only_append (hnumber i) (only_append hop hlabel))
    | ret i loc => exact only_append hbar hlabel
    | sink i => exact only_append hinsn (hnumber i)
    | _ => exact only_append hinsn (only_append (hnumber _) (only_append hop (hnumber _)))
  obtain ⟨hword, hne⟩ := kind.nodeClass.word_isWord
  exact ⟨only_append hword htail, fun h => hne (String.append_eq_empty_iff.mp h).1⟩

namespace Analysed
variable {A A₁ A₂ : Analysed}

/-- No label has a quotation mark in it. -/
def Unquoted (A : Analysed) : Prop :=
  ∀ x v, DependedOn A.dfg x → A.Captioned x v → '\x22' ∉ v.label.toList

theorem Captioned.isWord {x : NodeId} {v : Vertex} (h : A.Captioned x v) : IsWord v.id := by
  obtain ⟨kind, hkind, hid, _⟩ := h
  have hlocated : kind.Located := (A.isTrace.named (by rwa [A.result])).1
  rw [NodeKind.getNodeId_eq hlocated, Except.ok.injEq] at hid
  rw [← hid]
  exact kind.id_word

/-- What is shown can be read back. -/
theorem Shows.plain (hA : A.Unquoted) {s : Statement} (h : A.Shows s) : s.Plain := by
  cases h with
  | @vertex x v hx hv =>
    refine ⟨hv.isWord, fun c hc => bne_iff_ne.mpr fun heq => ?_⟩
    exact hA x v hx hv (heq ▸ hc)
  | @edges x v sources hx hne hinputs hv =>
    refine ⟨fun hnil => hne ?_, fun id hid => ?_, hv.isWord⟩
    · rw [List.map_eq_nil_iff] at hnil
      rw [hnil] at hinputs
      exact List.forall₂_nil_right_iff.mp hinputs
    · obtain ⟨w, hw, rfl⟩ := List.mem_map.mp hid
      obtain ⟨y, _, hy⟩ := forall₂_exists_left hinputs hw
      exact hy.isWord

def unquotedCheck (S : Subject) (g : ControlFlowGraph) (st : State) : Bool :=
  st.heap.all fun node =>
    (getDotLabel S.disasm S.loader (S.function g st) node.kind).toOption.all fun label =>
      !label.toList.contains '\x22'

theorem unquoted_of_check (h : unquotedCheck A.subject A.cfg A.dfg = true) : A.Unquoted := by
  intro x v _ hv hmem
  obtain ⟨kind, hkind, _, hlabel⟩ := hv
  obtain ⟨node, hnode, rfl⟩ := Option.map_eq_some_iff.mp hkind
  have hcheck := List.all_eq_true.mp h node (List.mem_of_getElem? hnode)
  rw [show getDotLabel A.subject.disasm A.subject.loader (A.subject.function A.cfg A.dfg)
    node.kind = .ok v.label from hlabel] at hcheck
  simp only [Except.toOption, Option.all_some, Bool.not_eq_true'] at hcheck
  rw [List.contains_iff_mem.mpr hmem] at hcheck
  cases hcheck

/-- `li r3,1; li r5,0; blr`. -/
def setsScratch : Subject :=
  assembledSubject [0x38600001, 0x38a00000, 0x4e800020] 3 (by decide)

/-- `li r3,1; li r6,7; blr`. -/
def setsOtherScratch : Subject :=
  assembledSubject [0x38600001, 0x38c00007, 0x4e800020] 3 (by decide)

/-- No sink depends on the second `li`, and so it is not drawn. -/
def scratchText : String :=
  "strict digraph \x7b\n  sink_insn2[label=\"bclr\"];\n  imm_insn2op2[label=\"20\"];\n" ++
  "  funcinput_insn2lr[label=\"lr\"];\n  \x7bimm_insn2op2, funcinput_insn2lr\x7d -> sink_insn2" ++
  "  return_r3[label=\"return r3\"];\n  res_insn0op0[label=\"addi\"];\n" ++
  "  res_insn0op0 -> return_r3  imm_insn0op0[label=\"0\"];\n  imm_insn0op0[label=\"1\"];\n" ++
  "  \x7bimm_insn0op0, imm_insn0op0\x7d -> res_insn0op0\n\x7d\n"

def drawsScratchText (S : Subject) (g : ControlFlowGraph) (st : State) : Bool :=
  returns (outputDfgDot S.disasm S.loader (S.function g st)) (· == scratchText)

/-- **The text tells what is drawn**: two functions, of any programs, with the same text show
the same vertices with the same labels, and the same edges, if no label has a quotation mark
in it. -/
theorem shows_iff_of_text_eq (hA₁ : A₁.Unquoted) (hA₂ : A₂.Unquoted) {text : String}
    (h₁ : outputDfgDot A₁.subject.disasm A₁.subject.loader A₁.function = .ok text)
    (h₂ : outputDfgDot A₂.subject.disasm A₂.subject.loader A₂.function = .ok text)
    (s : Statement) : A₁.Shows s ↔ A₂.Shows s := by
  obtain ⟨xs, rfl, hxs⟩ := shows_of_outputDfgDot h₁
  obtain ⟨ys, htext, hys⟩ := shows_of_outputDfgDot h₂
  rw [String.append_assoc, String.append_assoc, String.append_right_inj] at htext
  have heq := textOf_inj (fun t ht => ((hxs t).mp ht).plain hA₁)
    (fun t ht => ((hys t).mp ht).plain hA₂) htext
  rw [← hxs, ← hys, heq]

theorem shows_iff_of_text_eq_setsScratch : ∃ A₁ A₂ : Analysed, A₁.subject = setsScratch ∧
    A₂.subject = setsOtherScratch ∧ ∀ s, A₁.Shows s ↔ A₂.Shows s := by
  obtain ⟨A₁, hS₁, _, hcheck₁⟩ := exists_of_check setsScratch .ascending 8
    (p := fun g st => drawsScratchText setsScratch g st && unquotedCheck setsScratch g st)
    (by decide +kernel)
  obtain ⟨A₂, hS₂, _, hcheck₂⟩ := exists_of_check setsOtherScratch .ascending 8
    (p := fun g st => drawsScratchText setsOtherScratch g st && unquotedCheck setsOtherScratch g st)
    (by decide +kernel)
  rw [← hS₁] at hcheck₁
  rw [← hS₂] at hcheck₂
  obtain ⟨hdraws₁, hunquoted₁⟩ := Bool.and_eq_true_iff.mp hcheck₁
  obtain ⟨hdraws₂, hunquoted₂⟩ := Bool.and_eq_true_iff.mp hcheck₂
  obtain ⟨text₁, htext₁, heq₁⟩ := exists_ok hdraws₁
  obtain ⟨text₂, htext₂, heq₂⟩ := exists_ok hdraws₂
  obtain rfl := eq_of_beq heq₁
  obtain rfl := eq_of_beq heq₂
  exact ⟨A₁, A₂, hS₁, hS₂, shows_iff_of_text_eq (unquoted_of_check hunquoted₁)
    (unquoted_of_check hunquoted₂) htext₁ htext₂⟩

end Analysed

end Ppc2cpp
