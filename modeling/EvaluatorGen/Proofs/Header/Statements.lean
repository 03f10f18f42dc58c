import EvaluatorGen.Proofs.Evaluator.Recurrence
import EvaluatorGen.Proofs.Header.Loader

/-!
The statements of a plan in its header.

`create_eval_graph` is laid out three times before it stands in a header: as a routine, as a
member of the class and with the class. Each time blank ends are dropped and the margin that the
lines share is cut, so one blank statement, or one of two lines, would shift all others.

1. `isLine_statements`: every statement that a graph contributes is one line, whatever its uids
   and names are. So the routine is a head and a body between braces: `builder_eq_block`.
2. `statements_in_header`: the header has the lines of that body in one piece, one line for each
   statement in order, and so it has the loads and the allocations of `init`.
-/
namespace EvaluatorGen

open Text

namespace Header

/-! ### Expressions -/

theorem lacks_newline_int (n : Int) : Lacks '\n' n.repr := by
  cases n with
  | ofNat m => exact lacks_newline_repr m
  | negSucc m => exact lacks_append.mpr ⟨lacks_literal (by decide), lacks_newline_repr (m + 1)⟩

theorem lacks_newline_calleeName (c : Callee) : Lacks '\n' (calleeName c) := by
  cases c with
  | sigmoid type =>
    simp only [calleeName, lacks_append, and_assoc]
    exact ⟨lacks_literal (by decide), lacks_newline_typeName type, lacks_literal (by decide)⟩
  | quantize source target =>
    simp only [calleeName, lacks_append, and_assoc]
    exact ⟨lacks_literal (by decide), lacks_newline_typeName source, lacks_literal (by decide),
      lacks_newline_typeName target, lacks_literal (by decide)⟩
  | _ => exact lacks_literal (by decide)

theorem argTexts_eq_map (es : List Expr) : argTexts es = es.map exprText := by
  induction es with
  | nil => rw [argTexts, List.map_nil]
  | cons e es ih => rw [argTexts, ih, List.map_cons]

theorem lacks_newline_call (c : Callee) {args : List Expr}
    (h : ∀ e ∈ args, Lacks '\n' (exprText e)) : Lacks '\n' (exprText (.call c args)) := by
  have hargs : Lacks '\n' (commaList (argTexts args)) := by
    apply lacks_commaList (lacks_literal (by decide))
    rwa [argTexts_eq_map, List.forall_mem_map]
  rw [exprText]
  simp only [lacks_append, and_assoc]
  exact ⟨lacks_newline_calleeName c, lacks_literal (by decide), hargs, lacks_literal (by decide)⟩

/-! ### Statements -/

/-- A word has no blanks. -/
theorem not_blank_of_wordChar {c : Char} (h : Identifier.isWordChar c) : ¬ isBlank c := by
  have hrange : 48 ≤ c.toNat ∧ c.toNat ≤ 122 := by
    rcases Identifier.isWordChar_iff.mp h with h | h
    · rcases Bool.or_eq_true_iff.mp h with h | h
      · rcases Bool.or_eq_true_iff.mp h with h | h
        · have := Identifier.isUpper_iff.mp h
          omega
        · have := Identifier.isLower_iff.mp h
          omega
      · rw [eq_of_beq h]
        decide
    · have hdigit : 48 ≤ c.toNat ∧ c.toNat ≤ 57 := Char.isDigit_iff_toNat.mp h
      omega
  simp only [isBlank, blankRanges, List.any_cons, List.any_nil, Bool.or_eq_true,
    Bool.and_eq_true, decide_eq_true_eq, Bool.false_eq_true, or_false]
  omega

theorem starts_of_isWord {s : String} (h : Identifier.isWord s) : Starts s := by
  obtain ⟨c, cs, hs, hc, -⟩ := Identifier.isWord_iff.mp h
  exact ⟨c, cs, hs, not_blank_of_wordChar (Identifier.isWordChar_iff.mpr (.inl hc))⟩

theorem lacks_newline_varsText (vars : IndexVars) : Lacks '\n' (varsText vars) := by
  cases vars <;> exact lacks_literal (by decide)

theorem isLine_bufferView {name storage : String} (element : ScalarType) (dims : List UInt64)
    (label : String) (hname : Lacks '\n' name) (hstorage : Lacks '\n' storage) :
    IsLine (stmtText (.bufferView name element storage dims label)) :=
  (opens_literal (by decide)).append hname |>.append (lacks_literal (by decide))
    |>.append (lacks_newline_typeName element) |>.append (lacks_literal (by decide))
    |>.append hstorage |>.append (lacks_literal (by decide))
    |>.append (lacks_dimsText (by decide) (lacks_literal (by decide)) dims)
    |>.append (lacks_literal (by decide)) |>.append (lacks_escapeLiteral label)
    |>.close (closes_literal (by decide))

/-- What defines a stage stands behind its declaration on the same line. -/
theorem isLine_func {name : String} {definition : FuncDef} (hname : Lacks '\n' name)
    (hdef : Closes (definitionText name definition)) :
    IsLine (stmtText (.func name definition)) :=
  (opens_literal (by decide)).append hname |>.append (lacks_literal (by decide))
    |>.append hname |>.append (lacks_literal (by decide)) |>.close hdef

theorem isLine_indexed {name buffer : String} (vars : IndexVars) (hname : Lacks '\n' name)
    (hbuffer : Lacks '\n' buffer) : IsLine (stmtText (.func name (.indexed vars buffer))) := by
  apply isLine_func hname
  have hvars := lacks_newline_varsText vars
  refine Closes.append ?_ closes_call
  simp only [lacks_append, and_assoc]
  exact ⟨hname, lacks_literal (by decide), hvars, lacks_literal (by decide), hbuffer,
    lacks_literal (by decide), hvars⟩

theorem closes_semicolon : Closes ";" := closes_literal (by decide)

theorem isLine_scalar {name memberName : String} (hname : Lacks '\n' name)
    (hmember : Lacks '\n' memberName) :
    IsLine (stmtText (.func name (.scalar memberName))) := by
  apply isLine_func hname
  refine Closes.append ?_ closes_semicolon
  simp only [lacks_append, and_assoc]
  exact ⟨hname, lacks_literal (by decide), hmember⟩

theorem isLine_expr {name : String} {value : Expr} (hname : Lacks '\n' name)
    (hvalue : Lacks '\n' (exprText value)) : IsLine (stmtText (.func name (.expr value))) := by
  apply isLine_func hname
  refine Closes.append ?_ closes_semicolon
  simp only [lacks_append, and_assoc]
  exact ⟨hname, lacks_literal (by decide), hvalue⟩

theorem isLine_funcPair {name view step : String} (hname : Lacks '\n' name)
    (hview : Lacks '\n' view) (hstep : Lacks '\n' step) :
    IsLine (stmtText (.funcPair name view step)) := by
  have hpair : Lacks '\n' (commaList [view, step]) := by
    apply lacks_commaList (lacks_literal (by decide))
    simp only [List.forall_mem_cons]
    exact ⟨hview, hstep, List.forall_mem_nil _⟩
  exact (opens_literal (by decide)).append hname |>.append (lacks_literal (by decide))
    |>.append hpair |>.close (closes_literal (by decide))

theorem isLine_funcGroup {name : String} {value : Expr} (hname : Lacks '\n' name)
    (hvalue : Lacks '\n' (exprText value)) : IsLine (stmtText (.funcGroup name value)) :=
  (opens_literal (by decide)).append hname |>.append (lacks_literal (by decide))
    |>.append hname |>.append (lacks_literal (by decide)) |>.append hvalue
    |>.close closes_semicolon

/-- The directive starts with the name itself, which is a word and so not blank. -/
theorem isLine_computeRoot {func : String} (h : Identifier.isWord func) :
    IsLine (stmtText (.computeRoot func)) := by
  have hopens : Opens func := ⟨lacks_newline_of_isWord h, starts_of_isWord h⟩
  exact hopens.close (closes_literal (by decide))

end Header

/-! ### The statements of a graph -/

namespace Graph

variable {g : Graph} {naming : Naming} {n : Node}

theorem lacks_newline_symbolAt (o : UInt64) : Lacks '\n' (g.symbolAt o) := by
  unfold symbolAt
  cases g.get? o with
  | none => exact lacks_literal (by decide)
  | some m => exact Header.lacks_newline_of_isWord m.isWord_symbol

theorem lacks_newline_callExpr (c : Callee) : Lacks '\n' (Header.exprText (g.callExpr n c)) := by
  apply Header.lacks_newline_call
  rw [List.forall_mem_append, List.forall_mem_map, List.forall_mem_map]
  refine ⟨?_, ?_⟩
  · intro o _
    rw [Header.exprText]
    exact lacks_newline_symbolAt o
  · intro i _
    rw [Header.exprText]
    exact Header.lacks_newline_int i.toInt

theorem isLine_leafStatements : ∀ s ∈ n.leafStatements, IsLine (Header.stmtText s) := by
  have hword := n.isWord_symbol
  have hname := Header.lacks_newline_of_isWord hword
  have hnamed : ∀ p : String, Identifier.isWord p → Lacks '\n' (p ++ n.symbol) := fun p hp =>
    lacks_append.mpr ⟨Header.lacks_newline_of_isWord hp, hname⟩
  have hbuffer : Lacks '\n' (Identifier.buffer n.symbol) := hnamed "b_" rfl
  have hview : Lacks '\n' (Identifier.viewStage n.symbol) := hnamed "f_" rfl
  have hstage : Lacks '\n' (Identifier.stepStage n.symbol) := hnamed "f_step_" rfl
  rw [Node.leafStatements, List.forall_mem_cons]
  refine ⟨Header.isLine_bufferView _ _ _ hbuffer (hnamed "m_" rfl), ?_⟩
  split
  · simp only [List.forall_mem_cons]
    exact ⟨Header.isLine_indexed _ hview hbuffer, Header.isLine_scalar hstage
      (hnamed "m_step_" rfl), Header.isLine_funcPair hname hview hstage, List.forall_mem_nil _⟩
  · rw [List.forall_mem_singleton]
    exact Header.isLine_indexed _ hname hbuffer

/-- What a node contributes is one line a statement. -/
theorem isLine_statements (id : Nat) : ∀ s ∈ g.statements id n, IsLine (Header.stmtText s) := by
  have hword := n.isWord_symbol
  have hname := Header.lacks_newline_of_isWord hword
  unfold statements
  split
  · exact isLine_leafStatements
  · exact isLine_leafStatements
  · rw [List.forall_mem_cons]
    refine ⟨Header.isLine_expr hname (lacks_newline_callExpr _), ?_⟩
    split
    · rw [List.forall_mem_singleton]
      exact Header.isLine_computeRoot hword
    · exact List.forall_mem_nil _
  · rw [List.forall_mem_singleton]
    exact Header.isLine_funcGroup hname (lacks_newline_callExpr _)
  · exact List.forall_mem_nil _

theorem isLine_body : ∀ s ∈ (g.planOf naming).body, IsLine (Header.stmtText s) := by
  intro s hs
  obtain ⟨⟨n, id⟩, -, hs⟩ := List.mem_flatMap.mp hs
  exact isLine_statements id s hs

theorem lacks_newline_value : ∀ o ∈ (g.planOf naming).outputs, Lacks '\n' o.value := by
  intro o ho
  obtain ⟨n, -, -, rfl⟩ := mem_planOf_outputs.mp ho
  rw [outputBinding]
  cases g.operand? n 0 with
  | none => exact lacks_literal (by decide)
  | some m => exact Header.lacks_newline_of_isWord m.isWord_symbol

end Graph

/-- A plan of words whose statements and outputs are texts of one line. -/
structure Plan.Lined (p : Plan) : Prop where
  worded : p.Worded
  body : ∀ s ∈ p.body, IsLine (Header.stmtText s)
  values : ∀ o ∈ p.outputs, Lacks '\n' o.value

theorem Graph.lined_planOf (g : Graph) (naming : Naming) : (g.planOf naming).Lined where
  worded := g.worded_planOf naming
  body := isLine_body
  values := lacks_newline_value

namespace Header

/-! ### Building the pipeline -/

variable {p : Plan}

/-- The code of `create_eval_graph`: the index variables, every statement, and the outputs. -/
def builderCode (p : Plan) : List String :=
  indexVariables :: p.body.map stmtText ++ [returnText (results p)]

theorem isLine_builderSignature (h : p.Lined) :
    IsLine (builderSignature (p.inputs.map InputBinding.name)) := by
  have hparams : Lacks '\n' (commaList ((p.inputs.map InputBinding.name).map imageParam)) := by
    apply lacks_commaList (lacks_literal (by decide))
    rw [List.forall_mem_map, List.forall_mem_map]
    intro i hi
    exact lacks_append.mpr
      ⟨lacks_literal (by decide), lacks_newline_of_isWord (h.worded.inputs i hi)⟩
  exact (opens_literal (by decide)).append hparams |>.close (closes_literal (by decide))

theorem isLine_returnText (h : p.Lined) : IsLine (returnText (results p)) := by
  have houtputs : Lacks '\n'
      (commaList ((results p).map fun r => r.1 ++ " /*" ++ r.2 ++ "*/")) := by
    apply lacks_commaList (lacks_literal (by decide))
    rw [results, List.forall_mem_map, List.forall_mem_map]
    intro o ho
    simp only [lacks_append, and_assoc]
    exact ⟨h.values o ho, lacks_literal (by decide),
      lacks_newline_of_isWord (h.worded.outputs o ho), lacks_literal (by decide)⟩
  exact (opens_literal (by decide)).append houtputs |>.close (closes_literal (by decide))

theorem isLine_indexVariables : IsLine indexVariables := isLine_literal (by decide)

theorem isLine_builderCode (h : p.Lined) : ∀ s ∈ builderCode p, IsLine s := by
  simp only [builderCode, List.forall_mem_append, List.forall_mem_cons, List.forall_mem_map]
  exact ⟨⟨isLine_indexVariables, h.body⟩, isLine_returnText h, List.forall_mem_nil _⟩

theorem builder_eq_block (h : p.Lined) :
    builder p = block (routine (builderSignature (p.inputs.map InputBinding.name)).toList
      ((builderCode p).map String.toList)) := by
  have hhead := layout_line (isLine_builderSignature h) 0
  have hvars := layout_line isLine_indexVariables 1
  have hstatements := layout_map stmtText h.body 1
  have hreturn := layout_line (isLine_returnText h) 1
  rw [indent_zero] at hhead
  rw [builder, join_map_reindent, reindent_eq_block, reindent_eq_block, reindent_eq_block,
    reindent_eq_block, reindent_eq_block, hhead, layout_open, hvars, hstatements, hreturn,
    layout_close, ← block_append, ← block_append, ← block_append, ← block_append, ← block_append]
  simp only [routine, builderCode, List.map_append, List.map_cons, List.map_nil, List.map_map,
    List.cons_append, List.nil_append, Function.comp_def]

theorem layout_builder (h : p.Lined) :
    layout 1 (builder p) = (routine (builderSignature (p.inputs.map InputBinding.name)).toList
      ((builderCode p).map String.toList)).map (indent 4) := by
  rw [builder_eq_block h]
  apply layout_routine (isLine_builderSignature h)
  rw [List.forall_mem_map]
  exact fun s hs => (isLine_builderCode h s hs).tidy

/-! ### Runs of lines -/

/-- A line in the body of a routine, as it stands in the header. -/
def inRoutine (s : String) : List Char := List.replicate 8 ' ' ++ s.toList

theorem map_inRoutine {code : List String} (h : ∀ s ∈ code, s.toList ≠ []) :
    code.map inRoutine = (code.map String.toList).map (indent 8) := by
  rw [List.map_map]
  apply List.map_congr_left
  intro s hs
  rw [Function.comp_apply, indent_of_ne_nil (h s hs), inRoutine]

/-- The code of `init` that reads the leaves and allocates the histories. -/
def loaderCode (p : Plan) : List String :=
  p.values.map loadText ++ p.recurrentInputs.flatMap fun r => allocateCode r.1 r.2

theorem loaderCode_ne_nil (h : p.Worded) : ∀ s ∈ loaderCode p, s.toList ≠ [] := by
  simp only [loaderCode, List.forall_mem_append, List.forall_mem_map]
  refine ⟨fun v hv => (isLine_loadText (h.values v hv)).starts.ne_nil, ?_⟩
  have hallocate : ∀ r : InputBinding × RecurrentSlot, ∀ s ∈ allocateCode r.1 r.2,
      s.toList ≠ [] := by
    simp [allocateCode, bufferCode]
  intro s hs
  obtain ⟨r, -, hs⟩ := List.mem_flatMap.mp hs
  exact hallocate r s hs

theorem initBody_eq : initBody p = (openCode ++ loaderCode p).map String.toList := by
  simp only [initBody, loaderCode, List.map_append, List.map_map, List.map_flatMap,
    List.append_assoc, Function.comp_def]

/-- The body of a routine stands in the class in one piece. -/
theorem body_infix_routine (head : List Char) (body : List (List Char)) :
    body.map (indent 8) <:+: (routine head body).map (indent 4) := by
  have htwice : body.map (indent 8) = (body.map (indent 4)).map (indent 4) := by
    rw [List.map_map]
    apply List.map_congr_left
    intro l _
    exact (indent_indent 4 4 l).symm
  refine ⟨[indent 4 head, indent 4 ['\x7b']], [indent 4 ['\x7d']], ?_⟩
  rw [htwice, routine, List.map_append, List.map_cons, List.map_cons]
  rfl

theorem code_infix_render (h : p.Lined) {source : String}
    (hr : p.render = .ok source) :
    (builderCode p).map inRoutine <:+: lines source.toList ∧
      (loaderCode p).map inRoutine <:+: lines source.toList := by
  have hbuilder := map_inRoutine fun s hs =>
    (isLine_builderCode h s hs).starts.ne_nil
  have hloader : (loaderCode p).map inRoutine <:+: (initBody p).map (indent 8) := by
    rw [map_inRoutine (loaderCode_ne_nil h.worded), initBody_eq, List.map_append, List.map_append]
    exact (List.suffix_append _ _).isInfix
  obtain ⟨before, hlines⟩ := lines_render_routines hr
  rw [hlines, layout_builder h, layout_loader h.worded, hbuilder]
  refine ⟨?_, ?_⟩
  · exact (body_infix_routine _ _).trans ((List.prefix_append _ _).isInfix.trans
      (List.suffix_append _ _).isInfix)
  · exact hloader.trans ((body_infix_routine _ _).trans ((List.prefix_append _ _).isInfix.trans
      ((List.suffix_append _ _).isInfix.trans (List.suffix_append _ _).isInfix)))

end Header

namespace Graph

variable {g : Graph} {naming : Naming}

/-- The header of a graph has one line for each statement of its plan, in the order of the plan
    and in one piece, and so it has the lines that `init` reads and allocates by. No uid, no name
    of a node and no name of the class or its namespace changes that. -/
theorem statements_in_header {plan : Plan} (h : g.lower naming = .ok plan)
    (hoffset : ∀ n ∈ g.nodes, n.kind = .input → ∀ k, n.recurrenceOffset = some k →
      k.toNat < UInt64.size - 1) :
    ∃ source, g.generate naming = .ok ⟨plan, source⟩ ∧
      (Header.builderCode plan).map Header.inRoutine <:+: lines source.toList ∧
      (Header.loaderCode plan).map Header.inRoutine <:+: lines source.toList := by
  obtain ⟨hacc, rfl⟩ := lower_eq_ok_iff.mp h
  have hrender := Plan.render_ok (p := g.planOf naming) (by
    intro r hr
    obtain ⟨n, hn, hi, hk⟩ := offset_of_recurrentInput hr
    exact hoffset n hn hi r.2.offset hk)
  exact ⟨_, generate_ok h hrender, Header.code_infix_render (g.lined_planOf naming) hrender⟩

/-- A class whose name has blank lines in it leaves every line of the two routines in place. -/
theorem runningSum_statements_in_header :
    runningSum.lower ⟨"Sum\n\n\tOf", ""⟩ = .ok (runningSum.planOf ⟨"Sum\n\n\tOf", ""⟩) ∧
    (∀ n ∈ runningSum.nodes, n.kind = .input → ∀ k, n.recurrenceOffset = some k →
      k.toNat < UInt64.size - 1) ∧
    ∃ source,
      runningSum.generate ⟨"Sum\n\n\tOf", ""⟩ =
        .ok ⟨runningSum.planOf ⟨"Sum\n\n\tOf", ""⟩, source⟩ ∧
      (["Halide::Var var1, var2;",
        "auto b_W = Halide::Buffer<char>(m_W.data(), 2, 2, \"W\");",
        "Halide::Func f_W(\"f_W\"); f_W(var1, var2) = b_W(var1, var2);",
        "Halide::Func f_step_W(\"f_step_W\"); f_step_W() = m_step_W;",
        "std::vector<Halide::Func> W \x7b f_W, f_step_W \x7d;",
        "Halide::Func p(\"p\"); p = VectorByMatrixTimes(x, W, 2, 2);",
        "Halide::Func s(\"s\"); s = Plus(p, h);",
        "s.compute_root();",
        "return Halide::Pipeline(\x7b s /*y*/, s /*z*/ \x7d);"].map Header.inRoutine) <:+:
        lines source.toList ∧
      (["set_w(ReadValues<float>(root, \"W\"));",
        "m_bufferh.resize(3);",
        "for (auto& slot : m_bufferh)",
        "    slot = Halide::Buffer<float>(2);"].map Header.inRoutine) <:+:
        lines source.toList := by
  have hlower : runningSum.lower ⟨"Sum\n\n\tOf", ""⟩ =
      .ok (runningSum.planOf ⟨"Sum\n\n\tOf", ""⟩) :=
    lower_eq_ok_iff.mpr ⟨(lower_eq_ok_iff.mp runningSum_lower).1, rfl⟩
  have hoffset : ∀ n ∈ runningSum.nodes, n.kind = .input → ∀ k, n.recurrenceOffset = some k →
      k.toNat < UInt64.size - 1 := by
    simp [runningSum]
  obtain ⟨source, hgenerate, hbuilder, hloader⟩ := statements_in_header hlower hoffset
  refine ⟨hlower, hoffset, source, hgenerate, ?_, ?_⟩
  · convert hbuilder using 2
    decide +kernel
  · convert hloader using 2
    decide +kernel

end Graph

end EvaluatorGen
