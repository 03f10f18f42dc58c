import EvaluatorGen.Header.Basic
import EvaluatorGen.Proofs.Identifiers
import EvaluatorGen.Proofs.Text.Line

/-!
The lines of a header.

1. `lines_render`: the header is a list of lines, whatever the class and its namespace are named.
   The class is one block, so it stands in its namespace as it is.
2. `Plan.Worded`: the names in a plan are words, as lowering makes them. For such a plan each
   statement is one line, and the routines `init` and `Evaluate` are a head and a body between
   braces: `loader_eq_block` and `evaluate_eq_block`.
-/
namespace EvaluatorGen

open Text

namespace Header

/-! ### Parts of a line -/

theorem lacks_of_wordChars {c : Char} {s : String} (hc : Identifier.isWordChar c = false)
    (h : ∀ d ∈ s.toList, Identifier.isWordChar d) : Lacks c s := by
  intro hmem
  rw [h c hmem] at hc
  cases hc

theorem wordChar_repr (n : Nat) : ∀ d ∈ n.repr.toList, Identifier.isWordChar d := by
  intro d hd
  rw [Nat.repr_eq_ofList_toDigits, String.toList_ofList] at hd
  have hdigit : d.isDigit := Nat.isDigit_of_mem_toDigits (by decide) (by decide) hd
  exact Identifier.isWordChar_iff.mpr (.inr hdigit)

/-- A word is one line. -/
theorem lacks_newline_of_isWord {s : String} (h : Identifier.isWord s) : Lacks '\n' s :=
  lacks_of_wordChars (by decide) (Identifier.wordChar_of_isWord h)

theorem lacks_newline_repr (n : Nat) : Lacks '\n' n.repr :=
  lacks_of_wordChars (by decide) (wordChar_repr n)

theorem closes_call : Closes ");" := closes_literal (by decide)

theorem lacks_commaList {c : Char} (hc : Lacks c ", ") {items : List String}
    (h : ∀ x ∈ items, Lacks c x) : Lacks c (commaList items) := by
  unfold commaList
  induction items with
  | nil => exact List.not_mem_nil
  | cons x items ih =>
    rw [List.forall_mem_cons] at h
    cases items with
    | nil =>
      rw [String.intercalate_singleton]
      exact h.1
    | cons y ys =>
      rw [String.intercalate_cons_cons, lacks_append, lacks_append]
      exact ⟨⟨h.1, hc⟩, ih h.2⟩

theorem isWord_typeName (t : ScalarType) : Identifier.isWord (typeName t) := by
  cases t <;> rfl

theorem lacks_newline_typeName (t : ScalarType) : Lacks '\n' (typeName t) :=
  lacks_newline_of_isWord (isWord_typeName t)

theorem lacks_dimsText {c : Char} (hc : Identifier.isWordChar c = false) (hc' : Lacks c ", ")
    (dims : List UInt64) : Lacks c (dimsText dims) := by
  apply lacks_commaList hc'
  intro x hx
  obtain ⟨n, -, rfl⟩ := List.mem_map.mp hx
  exact lacks_of_wordChars hc (wordChar_repr n.toNat)

/-- Code set off in a template keeps its lines. -/
theorem layout_setOff {code : List String} (h : IsBlock (code.map String.toList))
    (hne : ∀ line ∈ code, line.toList ≠ []) (levels level : Nat) :
    layout level (setOff levels code) = (code.map String.toList).map (indent (4 * level)) := by
  apply layout_of_indented h (m := 4 * levels)
  have hcode : (code.map String.toList).map (indent (4 * levels)) =
      code.map fun line => List.replicate (4 * levels) ' ' ++ line.toList := by
    rw [List.map_map]
    exact List.map_congr_left fun line hl => indent_of_ne_nil (hne line hl) _
  have htext : (setOff levels code).toList =
      '\n' :: (unlines ((code.map String.toList).map (indent (4 * levels))) ++
        List.replicate (4 * levels) ' ') := by
    rw [hcode]
    simp [setOff, unlines, String.toList_join, List.flatMap_map]
  have hpad : isBlankLine (List.replicate (4 * levels) ' ') := by
    rw [isBlankLine_iff]
    intro c hc
    rw [List.eq_of_mem_replicate hc]
    exact isBlank_space
  have hnewline : ∀ l ∈ (code.map String.toList).map (indent (4 * levels)), '\n' ∉ l := by
    intro l hl
    obtain ⟨line, hline, rfl⟩ := List.mem_map.mp hl
    exact ((h.tidy line hline).indent _).newline
  have hlines : lines (setOff levels code).toList =
      [] :: ((code.map String.toList).map (indent (4 * levels)) ++
        [List.replicate (4 * levels) ' ']) := by
    have hfirst := lines_append_newline []
      (unlines ((code.map String.toList).map (indent (4 * levels))) ++
        List.replicate (4 * levels) ' ')
    rw [htext]
    rw [lines_unlines_append hnewline, lines_of_not_mem (not_mem_replicate_space _)] at hfirst
    exact hfirst
  rw [core, hlines]
  exact dropBlankLast_append hpad _

end Header

/-! ### Plans whose names are words -/

/-- The names of leaves, inputs and outputs are words. -/
structure Plan.Worded (p : Plan) : Prop where
  values : ∀ v ∈ p.values, Identifier.isWord v.symbol
  inputs : ∀ i ∈ p.inputs, Identifier.isWord i.name
  outputs : ∀ o ∈ p.outputs, Identifier.isWord o.name
  feeds : ∀ o ∈ p.outputs, ∀ target, o.feeds = some target → Identifier.isWord target

theorem Graph.worded_planOf (g : Graph) (naming : Naming) : (g.planOf naming).Worded where
  values := by
    intro v hv
    obtain ⟨n, -, rfl⟩ := List.mem_map.mp hv
    exact n.isWord_symbol
  inputs := by
    intro i hi
    obtain ⟨n, -, -, rfl⟩ := Graph.mem_planOf_inputs.mp hi
    exact n.isWord_symbol
  outputs := by
    intro o ho
    obtain ⟨n, -, -, rfl⟩ := Graph.mem_planOf_outputs.mp ho
    exact n.isWord_signatureName
  feeds := by
    intro o ho target ht
    obtain ⟨n, -, -, rfl⟩ := Graph.mem_planOf_outputs.mp ho
    rw [Graph.outputBinding] at ht
    split at ht
    · obtain ⟨m, -, rfl⟩ := Option.map_eq_some_iff.mp ht
      exact m.isWord_symbol
    · cases ht

namespace Plan.Worded

variable {p : Plan}

theorem recurrent (h : p.Worded) {r : InputBinding × RecurrentSlot} (hr : r ∈ p.recurrentInputs) :
    Identifier.isWord r.1.name := by
  obtain ⟨i, hi, hslot⟩ := List.mem_filterMap.mp hr
  obtain ⟨slot, -, rfl⟩ := Option.map_eq_some_iff.mp hslot
  exact h.inputs i hi

end Plan.Worded

namespace Header

/-! ### Routines -/

/-- The lines of a routine: its head, and its body between braces. -/
def routine (head : List Char) (body : List (List Char)) : List (List Char) :=
  head :: ['\x7b'] :: body.map (indent 4) ++ [['\x7d']]

theorem tidy_brace : Tidy ['\x7b'] ∧ Tidy ['\x7d'] :=
  ⟨⟨by decide, by decide⟩, ⟨by decide, by decide⟩⟩

theorem isBlock_opening {head : String} (hhead : IsLine head) {body : List (List Char)}
    (hbody : ∀ l ∈ body, Tidy l) :
    IsBlock (head.toList :: ['\x7b'] :: body.map (indent 4)) := by
  apply hhead.isBlock
  rw [List.forall_mem_cons, List.forall_mem_map]
  exact ⟨tidy_brace.1, fun l hl => (hbody l hl).indent 4⟩

theorem isBlock_routine {head : String} (hhead : IsLine head) {body : List (List Char)}
    (hbody : ∀ l ∈ body, Tidy l) : IsBlock (routine head.toList body) := by
  apply (isBlock_opening hhead hbody).append
  rw [List.forall_mem_singleton]
  exact tidy_brace.2

/-- A routine keeps its lines when it becomes a member of the class. -/
theorem layout_routine {head : String} (hhead : IsLine head) {body : List (List Char)}
    (hbody : ∀ l ∈ body, Tidy l) (level : Nat) :
    layout level (block (routine head.toList body)) =
      (routine head.toList body).map (indent (4 * level)) :=
  layout_block (isBlock_routine hhead hbody) level

theorem layout_open : layout 0 "\x7b" = [['\x7b']] := by
  rw [layout_line (isLine_literal (by decide)), indent_zero, String.toList_ofList]

theorem layout_close : layout 0 "\x7d" = [['\x7d']] := by
  rw [layout_line (isLine_literal (by decide)), indent_zero, String.toList_ofList]

/-- Lines that are laid out one by one. -/
theorem layout_map {α : Type} (f : α → String) {xs : List α} (h : ∀ x ∈ xs, IsLine (f x))
    (level : Nat) :
    (xs.flatMap fun x => layout level (f x)) =
      (xs.map fun x => (f x).toList).map (indent (4 * level)) := by
  rw [List.map_map, List.map_eq_flatMap]
  apply List.flatMap_congr
  intro x hx
  exact layout_line (h x hx) level

/-! ### Loading the weights -/

def initBody (p : Plan) : List (List Char) :=
  openCode.map String.toList ++ (p.values.map fun v => (loadText v).toList) ++
  p.recurrentInputs.flatMap fun r => (allocateCode r.1 r.2).map String.toList

variable {p : Plan}

theorem isLine_loadText {v : LeafValue} (h : Identifier.isWord v.symbol) : IsLine (loadText v) := by
  have hsetter : Opens (Identifier.setter v.symbol) :=
    (opens_literal (by decide)).append
      (lacks_of_wordChars (by decide) (Identifier.wordChar_lowercase h))
  exact hsetter.append (lacks_literal (by decide)) |>.append (lacks_newline_typeName _)
    |>.append (lacks_literal (by decide)) |>.append (lacks_escapeLiteral _)
    |>.close (closes_literal (by decide))

theorem opens_history {name : String} (h : Identifier.isWord name) :
    Opens (Identifier.history name) :=
  (opens_literal (by decide)).append (lacks_newline_of_isWord h)

theorem isBlock_allocateCode {i : InputBinding} (h : Identifier.isWord i.name)
    (slot : RecurrentSlot) : IsBlock ((allocateCode i slot).map String.toList) := by
  have hdims : Lacks '\n' (dimsText slot.dims) :=
    lacks_dimsText (by decide) (lacks_literal (by decide)) _
  have hresize : IsLine (Identifier.history i.name ++ ".resize(" ++ slot.length.repr ++ ");") :=
    (opens_history h).append (lacks_literal (by decide)) |>.append (lacks_newline_repr _)
      |>.close closes_call
  have hloop : IsLine ("for (auto& slot : " ++ Identifier.history i.name ++ ")") :=
    (opens_literal (by decide)).append (opens_history h).newline
      |>.close (closes_literal (by decide))
  have hslot : Tidy ("    slot = Halide::Buffer<" ++ typeName i.element ++ ">(" ++
      dimsText slot.dims ++ ");").toList := by
    refine (Closes.append ?_ closes_call).tidy
    simp only [lacks_append, and_assoc]
    exact ⟨lacks_literal (by decide), lacks_newline_typeName _, lacks_literal (by decide), hdims⟩
  apply hresize.isBlock
  simp only [List.map_cons, List.map_nil, List.forall_mem_cons]
  exact ⟨hloop.tidy, hslot, List.forall_mem_nil _⟩

theorem isLine_initHead : IsLine initHead := isLine_literal (by decide)

theorem isLine_openCode : ∀ s ∈ openCode, IsLine s := by
  simp only [openCode, List.forall_mem_cons]
  exact ⟨isLine_literal (by decide), isLine_literal (by decide), List.forall_mem_nil _⟩

theorem layout_openText :
    layout 0 openText =
      initHead.toList :: ['\x7b'] :: (openCode.map String.toList).map (indent 4) := by
  have hbrace : "\x7b".toList = ['\x7b'] := String.toList_ofList
  have hmargin : (openCode.map fun line => "    " ++ line).map String.toList =
      (openCode.map String.toList).map (indent 4) := by
    rw [List.map_map, List.map_map]
    apply List.map_congr_left
    intro line hline
    rw [Function.comp_apply, Function.comp_apply, String.toList_append, String.toList_ofList,
      indent_of_ne_nil (isLine_openCode line hline).starts.ne_nil]
    rfl
  have htidy : ∀ l ∈ openCode.map String.toList, Tidy l :=
    List.forall_mem_map.mpr fun s hs => (isLine_openCode s hs).tidy
  have hblock := isBlock_opening isLine_initHead htidy
  rw [← hmargin, ← hbrace, ← List.map_cons, ← List.map_cons] at hblock ⊢
  rw [openText, layout_setOff hblock (by simp [initHead]) 2 0, Nat.mul_zero]
  exact List.map_id'' indent_zero _

theorem loader_eq_block (h : p.Worded) :
    loader p = block (routine initHead.toList (initBody p)) := by
  have hloads := layout_map loadText (fun v hv => isLine_loadText (h.values v hv)) 1
  have hallocate : (p.recurrentInputs.flatMap fun r => layout 1 (allocateText r.1 r.2)) =
      (p.recurrentInputs.flatMap fun r =>
        (allocateCode r.1 r.2).map String.toList).map (indent 4) := by
    rw [List.map_flatMap]
    apply List.flatMap_congr
    intro r hr
    exact layout_setOff (isBlock_allocateCode (h.recurrent hr) r.2)
      (by simp [allocateCode, bufferCode]) 4 1
  rw [loader, join_map_reindent, join_map_reindent, reindent_eq_block, reindent_eq_block,
    layout_openText, hloads, hallocate, layout_close, ← block_append, ← block_append,
    ← block_append]
  simp only [routine, initBody, List.map_append, List.cons_append, List.append_assoc]

theorem tidy_initBody (h : p.Worded) : ∀ l ∈ initBody p, Tidy l := by
  simp only [initBody, List.forall_mem_append, List.forall_mem_map]
  refine ⟨⟨fun s hs => (isLine_openCode s hs).tidy, ?_⟩, ?_⟩
  · exact fun v hv => (isLine_loadText (h.values v hv)).tidy
  · intro l hl
    obtain ⟨r, hr, hl⟩ := List.mem_flatMap.mp hl
    exact (isBlock_allocateCode (h.recurrent hr) r.2).tidy l hl

/-! ### Evaluating one step -/

def evaluateHead (p : Plan) : String := evaluateSignature (evaluateParams p)

def evaluateBody (p : Plan) : List (List Char) :=
  (buildCode (p.inputs.map buildArg)).map String.toList ++
  (p.recurrentInputs.map fun r => (bindText r.1 r.2).toList) ++ [(realizeText p).toList]

theorem isLine_evaluateHead (h : p.Worded) : IsLine (evaluateHead p) := by
  have hparams : Lacks '\n' (commaList (evaluateParams p)) := by
    apply lacks_commaList (lacks_literal (by decide))
    simp only [evaluateParams, stepParams, List.forall_mem_append, List.forall_mem_map]
    refine ⟨⟨?_, ?_⟩, ?_⟩
    · intro x hx
      split at hx
      · rw [List.mem_singleton.mp hx]
        exact lacks_literal (by decide)
      · cases hx
    · intro i hi
      have hname := lacks_newline_of_isWord (h.inputs i (List.mem_of_mem_filter hi))
      exact lacks_append.mpr ⟨lacks_literal (by decide), hname⟩
    · intro o ho
      have hname := lacks_newline_of_isWord (h.outputs o (List.mem_of_mem_filter ho))
      simp only [lacks_append, and_assoc]
      exact ⟨lacks_literal (by decide), lacks_newline_typeName _, lacks_literal (by decide), hname⟩
  exact (opens_literal (by decide)).append hparams |>.close (closes_literal (by decide))

theorem isWord_buildArg {i : InputBinding} (h : Identifier.isWord i.name) :
    Identifier.isWord (buildArg i) := by
  unfold buildArg
  split
  · exact Identifier.isWord_append rfl (Identifier.wordChar_of_isWord h)
  · exact h

theorem lacks_buildArgs {c : Char} (hc : Identifier.isWordChar c = false) (hc' : Lacks c ", ")
    (h : p.Worded) : Lacks c (commaList (p.inputs.map buildArg)) := by
  apply lacks_commaList hc'
  rw [List.forall_mem_map]
  intro i hi
  exact lacks_of_wordChars hc (Identifier.wordChar_of_isWord (isWord_buildArg (h.inputs i hi)))

theorem isBlock_buildCode (h : p.Worded) :
    IsBlock ((buildCode (p.inputs.map buildArg)).map String.toList) := by
  have hargs : Lacks '\n' (commaList (p.inputs.map buildArg)) :=
    lacks_buildArgs (by decide) (lacks_literal (by decide)) h
  have hif : IsLine "if (!m_graphInitialized)" := isLine_literal (by decide)
  have hbuild : Tidy ("    m_graph = create_eval_graph(" ++ commaList (p.inputs.map buildArg) ++
      ");").toList :=
    (Closes.append (lacks_append.mpr ⟨lacks_literal (by decide), hargs⟩) closes_call).tidy
  apply hif.isBlock
  simp only [List.map_cons, List.map_nil, List.forall_mem_cons]
  exact ⟨(closes_literal (by decide)).tidy, hbuild, (closes_literal (by decide)).tidy,
    (closes_literal (by decide)).tidy, List.forall_mem_nil _⟩

theorem isLine_bindText {i : InputBinding} (h : Identifier.isWord i.name) (slot : RecurrentSlot) :
    IsLine (bindText i slot) := by
  have hparam : Opens (Identifier.historyParam i.name) :=
    (opens_literal (by decide)).append (lacks_newline_of_isWord h)
  have hbuffer : Lacks '\n' (readBuffer i slot) := by
    simp only [readBuffer, lacks_append, and_assoc]
    exact ⟨(opens_history h).newline, lacks_literal (by decide), lacks_newline_repr _,
      lacks_literal (by decide), lacks_newline_repr _, lacks_literal (by decide),
      lacks_newline_repr _, lacks_literal (by decide), lacks_newline_repr _,
      lacks_literal (by decide)⟩
  exact hparam.append (lacks_literal (by decide)) |>.append hbuffer |>.close closes_call

theorem isLine_realizeText (h : p.Worded) : IsLine (realizeText p) := by
  have htargets : Lacks '\n' (commaList (p.outputs.map (realizeTarget p))) := by
    apply lacks_commaList (lacks_literal (by decide))
    rw [List.forall_mem_map]
    intro o ho
    unfold realizeTarget
    split
    · exact lacks_newline_of_isWord (h.outputs o ho)
    · rename_i target ht
      simp only [lacks_append, and_assoc]
      exact ⟨(opens_history (h.feeds o ho target ht)).newline, lacks_literal (by decide),
        lacks_newline_repr _, lacks_literal (by decide)⟩
  exact (opens_literal (by decide)).append htargets |>.close (closes_literal (by decide))

theorem evaluate_eq_block (h : p.Worded) :
    evaluate p = block (routine (evaluateHead p).toList (evaluateBody p)) := by
  have hhead : layout 0 (evaluateSignature (evaluateParams p)) = [(evaluateHead p).toList] := by
    rw [← indent_zero (evaluateHead p).toList]
    exact layout_line (isLine_evaluateHead h) 0
  have hbuild : layout 1 (buildOnce (p.inputs.map buildArg)) =
      ((buildCode (p.inputs.map buildArg)).map String.toList).map (indent 4) :=
    layout_setOff (isBlock_buildCode h) (by simp [buildCode]) 3 1
  have hbind := layout_map (fun r : InputBinding × RecurrentSlot => bindText r.1 r.2)
    (fun r hr => isLine_bindText (h.recurrent hr) r.2) 1
  have hrealize := layout_line (isLine_realizeText h) 1
  rw [evaluate, join_map_reindent, reindent_eq_block, reindent_eq_block, reindent_eq_block,
    reindent_eq_block, reindent_eq_block, hhead, layout_open, hbuild, hbind, hrealize, layout_close,
    ← block_append, ← block_append, ← block_append, ← block_append, ← block_append]
  simp only [routine, evaluateBody, List.map_append, List.map_cons, List.map_nil, List.cons_append,
    List.nil_append, List.append_assoc]

theorem tidy_evaluateBody (h : p.Worded) : ∀ l ∈ evaluateBody p, Tidy l := by
  simp only [evaluateBody, List.forall_mem_append, List.forall_mem_map, List.forall_mem_cons]
  refine ⟨⟨List.forall_mem_map.mp (isBlock_buildCode h).tidy, ?_⟩, (isLine_realizeText h).tidy,
    List.forall_mem_nil _⟩
  exact fun r hr => (isLine_bindText (h.recurrent hr) r.2).tidy

/-! ### The class and its namespace -/

def sectionLines (label : String) (members : List String) : List (List Char) :=
  layout 0 label ++ members.flatMap (layout 1)

def classLines (p : Plan) : List (List Char) :=
  layout 0 ("class " ++ p.className ++ " final") ++ layout 0 "\x7b" ++
  sectionLines "public:" (publicMembers p) ++ sectionLines "private:" (privateMembers p) ++
  layout 0 "\x7d;"

def namespaceLines (p : Plan) : List (List Char) :=
  layout 0 ("namespace " ++ p.enclosing) ++ layout 0 "\x7b" ++ classLines p ++ layout 0 "\x7d"

theorem sectionText_eq_block (label : String) (members : List String) :
    sectionText label members = block (sectionLines label members) := by
  have hmembers := join_map_reindent 1 id members
  rw [sectionText, sectionLines, reindent_eq_block, block_append]
  exact congrArg _ hmembers

theorem classText_eq_block : classText p = block (classLines p) := by
  simp only [classText, classLines, sectionText_eq_block, reindent_eq_block, block_append]

theorem tidy_classLines : ∀ l ∈ classLines p, Tidy l := by
  have hmembers : ∀ members : List String, ∀ l ∈ members.flatMap (layout 1), Tidy l := by
    intro members l hl
    obtain ⟨m, -, hl⟩ := List.mem_flatMap.mp hl
    exact layout_tidy l hl
  simp only [classLines, sectionLines, List.forall_mem_append]
  exact ⟨⟨⟨⟨layout_tidy, layout_tidy⟩, layout_tidy, hmembers _⟩, layout_tidy, hmembers _⟩,
    layout_tidy⟩

/-- The class starts with the word `class`, whatever its name. -/
theorem isBlock_classLines : IsBlock (classLines p) where
  tidy := tidy_classLines
  head := by
    have hstarts : Starts ("class " ++ p.className ++ " final") :=
      ((opens_literal (by decide)).starts.append _).append _
    obtain ⟨l, ls, heq, hne⟩ := hstarts.layout 0
    intro l' hl'
    simp only [classLines, heq, List.cons_append, List.head?_cons, Option.some.injEq] at hl'
    rw [← hl']
    exact hne
  flush := by
    refine ⟨['\x7b'], ?_, by decide, by decide⟩
    simp [classLines, layout_open]

theorem reindent_classText : reindent 0 (classText p) = block (classLines p) := by
  have hindent : (classLines p).map (indent (4 * 0)) = classLines p :=
    List.map_id'' indent_zero _
  rw [reindent_eq_block, classText_eq_block, layout_block isBlock_classLines, hindent]

theorem namespaceText_eq_block : namespaceText p = block (namespaceLines p) := by
  rw [namespaceText, reindent_classText]
  simp only [namespaceLines, reindent_eq_block, block_append]

theorem lines_namespaceText : lines (namespaceText p).toList = namespaceLines p ++ [[]] := by
  rw [namespaceText_eq_block]
  apply lines_block
  simp only [namespaceLines, List.forall_mem_append]
  refine ⟨⟨⟨?_, ?_⟩, ?_⟩, ?_⟩
  · exact fun l hl => (layout_tidy l hl).newline
  · exact fun l hl => (layout_tidy l hl).newline
  · exact fun l hl => (tidy_classLines l hl).newline
  · exact fun l hl => (layout_tidy l hl).newline

end Header

theorem Plan.lines_render {p : Plan} {source : String} (h : p.render = .ok source) :
    lines source.toList =
      lines Header.includes.toList ++ Header.namespaceLines p ++ [[]] := by
  have hnewline : "\n".toList = ['\n'] := String.toList_ofList
  obtain ⟨⟨⟩, -, hsource⟩ := bind_eq_ok_iff.mp h
  rw [← pure_eq_ok_iff.mp hsource, String.toList_append, String.toList_append, hnewline,
    List.append_assoc, List.singleton_append, lines_append_newline, Header.lines_namespaceText,
    List.append_assoc]

end EvaluatorGen
