import EvaluatorGen.Proofs.Header.Reading
import EvaluatorGen.Proofs.Weights.Store

/-!
The loader and the weight store.

The header and the weight file are made apart from each other: `init` reads under keys that are
escaped and laid out in the header, and the store is filled from the graph. They are tied only
by the uids of the leaves.

1. `initBody?_render` and `evaluateBody?_render`: the bodies of `init` and of `Evaluate`, read from
   the lines of a header, are those of the plan, whatever text the class and its namespace are
   named by.
2. `filterMap_loadCall?` and `callees_initBody`: it has one load call for each leaf, in order,
   and no other line of it calls a setter.
3. `loader_reads_store`: so the keys that `init` reads are the uids of the leaves, each once; a
   store that is made from the graph holds under each of them the values of that leaf; and if
   every leaf carries values, `init` reads just the keys of the store.
-/
namespace EvaluatorGen

open Text

namespace Header

/-! ### Lines that do not start `init` -/

/-- A line that does not start with the letter that the head of `init` starts with. -/
def Other (l : List Char) : Prop := (bare l).head? ≠ some 'v'

instance (l : List Char) : Decidable (Other l) :=
  inferInstanceAs (Decidable ((bare l).head? ≠ some 'v'))

theorem Other.ne_head {l : List Char} (h : Other l) {s : String} (hs : s.toList.head? = some 'v') :
    bare l ≠ s.toList := by
  intro heq
  apply h
  rw [heq, hs]

theorem head?_initHead : initHead.toList.head? = some 'v' := by
  rw [initHead, String.toList_ofList]
  rfl

theorem head?_evaluateHead (p : Plan) : (evaluateHead p).toList.head? = some 'v' := by
  rw [evaluateHead, evaluateSignature, String.append_assoc, toList_literal_append]
  rfl

theorem Other.ne_initHead {l : List Char} (h : Other l) : bare l ≠ initHead.toList :=
  h.ne_head head?_initHead

/-- A text whose first line starts with another letter. -/
def Leads (s : String) : Prop := (bare s.toList).head?.any (· != 'v')

theorem leads_literal {cs : List Char} (h : (bare cs).head?.any (· != 'v')) :
    Leads (String.ofList cs) := by
  rwa [Leads, String.toList_ofList]

theorem Leads.append {s t : String} (h : Leads s) : Leads (s ++ t) := by
  unfold Leads bare at h ⊢
  rw [String.toList_append, List.dropWhile_append]
  cases hs : s.toList.dropWhile (· == ' ') with
  | nil =>
    rw [hs] at h
    cases h
  | cons a as =>
    rw [hs] at h
    exact h

theorem Leads.other {s : String} (h : Leads s) : Other s.toList := by
  intro hv
  rw [Leads, hv] at h
  cases h

/-- Laying a text out moves its lines and cuts blanks at their ends. -/
theorem other_layout {s : String} (h : ∀ l ∈ lines s.toList, Other l) (level : Nat) :
    ∀ l ∈ layout level s, Other l := by
  intro l hl
  obtain ⟨line, hline, rfl⟩ := List.mem_map.mp hl
  have hother : (bare line).head? ≠ some 'v' := h line (mem_lines_of_mem_core hline)
  unfold laid
  split
  · exact (Option.some_ne_none _).symm
  · rename_i hb
    have hpad : bare (List.replicate (4 * level) ' ' ++ trimEnd (line.drop (margin (core s)))) =
        bare (trimEnd (line.drop (margin (core s)))) := by
      apply List.dropWhile_append_of_pos
      intro c hc
      rw [List.eq_of_mem_replicate hc]
      rfl
    rw [Other, hpad]
    rcases head?_bare_trimEnd (line.drop (margin (core s))) with hnone | hsome
    · rw [hnone]
      exact (Option.some_ne_none _).symm
    · rw [hsome, bare_drop (margin_le hline hb)]
      exact hother

theorem other_layout_line {s : String} (h : Lacks '\n' s) (hs : Other s.toList) (level : Nat) :
    ∀ l ∈ layout level s, Other l := by
  apply other_layout
  rw [lines_of_not_mem h, List.forall_mem_singleton]
  exact hs

variable {p : Plan}

theorem other_initBody : ∀ l ∈ initBody p, Other l := by
  simp only [initBody, openCode, allocateCode, bufferCode, List.forall_mem_append,
    List.forall_mem_map, List.forall_mem_cons, List.mem_flatMap]
  refine ⟨⟨⟨?_, ?_, List.forall_mem_nil _⟩, ?_⟩, ?_⟩
  · exact (leads_literal (by decide)).other
  · exact (leads_literal (by decide)).other
  · intro v _
    simp only [loadText, Identifier.setter, String.append_assoc]
    exact (leads_literal (by decide)).append.other
  · rintro l ⟨r, -, hl⟩
    revert l
    simp only [List.forall_mem_map, List.forall_mem_cons]
    refine ⟨?_, ?_, ?_, List.forall_mem_nil _⟩
    · simp only [Identifier.history, String.append_assoc]
      exact (leads_literal (by decide)).append.other
    · exact (leads_literal (by decide)).append.append.other
    · exact (leads_literal (by decide)).append.append.append.append.other

theorem other_evaluateBody : ∀ l ∈ evaluateBody p, Other l := by
  simp only [evaluateBody, buildCode, List.forall_mem_append, List.forall_mem_map,
    List.forall_mem_cons]
  refine ⟨⟨⟨?_, ?_, ?_, ?_, ?_, List.forall_mem_nil _⟩, ?_⟩, ?_, List.forall_mem_nil _⟩
  · exact (leads_literal (by decide)).other
  · exact (leads_literal (by decide)).other
  · exact (leads_literal (by decide)).append.append.other
  · exact (leads_literal (by decide)).other
  · exact (leads_literal (by decide)).other
  · intro r _
    simp only [bindText, setText, Identifier.historyParam, String.append_assoc]
    exact (leads_literal (by decide)).append.other
  · exact (leads_literal (by decide)).append.append.other

theorem other_storageMembers {v : LeafValue} (h : Identifier.isWord v.symbol) :
    ∀ m ∈ storageMembers v, Lacks '\n' m ∧ Other m.toList := by
  have hname := lacks_newline_of_isWord h
  rw [storageMembers, List.forall_mem_cons]
  refine ⟨⟨?_, ?_⟩, ?_⟩
  · simp only [Identifier.storage, lacks_append, and_assoc]
    exact ⟨lacks_literal (by decide), lacks_newline_typeName _, lacks_literal (by decide),
      lacks_literal (by decide), hname, lacks_literal (by decide)⟩
  · exact (leads_literal (by decide)).append.append.append.append.other
  · split
    · exact List.forall_mem_nil _
    · rw [List.forall_mem_singleton]
      refine ⟨?_, ?_⟩
      · simp only [Identifier.step, lacks_append, and_assoc]
        exact ⟨lacks_newline_typeName _, lacks_literal (by decide), lacks_literal (by decide),
          hname, lacks_literal (by decide)⟩
      · cases v.source <;> exact (leads_literal (by decide)).append.append.append.other

theorem other_historyMembers {i : InputBinding} (h : Identifier.isWord i.name)
    (slot : RecurrentSlot) : ∀ m ∈ historyMembers i slot, Lacks '\n' m ∧ Other m.toList := by
  have hname := lacks_newline_of_isWord h
  simp only [historyMembers, Identifier.history, Identifier.historyParam, List.forall_mem_cons,
    lacks_append, and_assoc]
  refine ⟨lacks_literal (by decide), lacks_newline_typeName _, lacks_literal (by decide),
    lacks_literal (by decide), hname, lacks_literal (by decide), ?_, lacks_literal (by decide),
    lacks_literal (by decide), hname, lacks_literal (by decide), lacks_newline_typeName _,
    lacks_literal (by decide), lacks_newline_repr _, lacks_literal (by decide), ?_,
    List.forall_mem_nil _⟩
  · exact (leads_literal (by decide)).append.append.append.append.other
  · exact (leads_literal (by decide)).append.append.append.append.append.append.other

theorem other_readValues : ∀ l ∈ layout 1 readValues, Other l := by
  apply other_layout
  rw [readValues, lines_intercalate]
  · simp only [List.map_cons, List.map_nil, List.forall_mem_cons]
    exact ⟨(leads_literal (by decide)).other, (leads_literal (by decide)).append.other,
      (leads_literal (by decide)).other, (leads_literal (by decide)).other,
      (leads_literal (by decide)).other, (leads_literal (by decide)).other,
      (leads_literal (by decide)).other, (leads_literal (by decide)).other, List.forall_mem_nil _⟩
  · simp only [List.forall_mem_cons]
    exact ⟨lacks_literal (by decide), lacks_append.mpr ⟨lacks_literal (by decide),
      lacks_literal (by decide)⟩, lacks_literal (by decide), lacks_literal (by decide),
      lacks_literal (by decide), lacks_literal (by decide), lacks_literal (by decide),
      lacks_literal (by decide), List.forall_mem_nil _⟩
  · exact List.cons_ne_nil _ _

theorem other_fixedMembers : ∀ m ∈ fixedMembers, ∀ l ∈ layout 1 m, Other l := by
  simp only [fixedMembers, List.forall_mem_cons]
  refine ⟨?_, ?_, other_readValues, List.forall_mem_nil _⟩
  · exact other_layout_line (lacks_literal (by decide)) (leads_literal (by decide)).other 1
  · exact other_layout_line (lacks_literal (by decide)) (leads_literal (by decide)).other 1

theorem other_privateMembers (h : p.Worded) :
    ∀ l ∈ (privateMembers p).flatMap (layout 1), Other l := by
  intro l hl
  obtain ⟨m, hm, hl⟩ := List.mem_flatMap.mp hl
  simp only [privateMembers, List.mem_append, List.mem_flatMap] at hm
  rcases hm with (⟨v, hv, hm⟩ | ⟨r, hr, hm⟩) | hm
  · obtain ⟨hline, hother⟩ := other_storageMembers (h.values v hv) m hm
    exact other_layout_line hline hother 1 l hl
  · obtain ⟨hline, hother⟩ := other_historyMembers (h.recurrent hr) r.2 m hm
    exact other_layout_line hline hother 1 l hl
  · exact other_fixedMembers m hm l hl

/-! ### The body of `init` in the header -/

theorem evaluateHead_ne_initHead : (evaluateHead p).toList ≠ initHead.toList := by
  have hhead : (evaluateHead p).toList =
      "void Evaluate(".toList ++ (commaList (evaluateParams p) ++ ")").toList := by
    show ("void Evaluate(" ++ commaList (evaluateParams p) ++ ")").toList = _
    rw [String.append_assoc, String.toList_append]
  rw [hhead, initHead]
  generalize (commaList (evaluateParams p) ++ ")").toList = rest
  rw [String.toList_ofList, String.toList_ofList]
  simp

/-- The lines of the header behind `init`. -/
def afterLoader (p : Plan) : List (List Char) :=
  (routine (evaluateHead p).toList (evaluateBody p)).map (indent 4) ++
  sectionLines "private:" (privateMembers p) ++ layout 0 "\x7d;" ++ layout 0 "\x7d" ++ [[]]

/-- The lines of the header behind `Evaluate`. -/
def afterEvaluate (p : Plan) : List (List Char) :=
  sectionLines "private:" (privateMembers p) ++ layout 0 "\x7d;" ++ layout 0 "\x7d" ++ [[]]

theorem afterLoader_eq : afterLoader p =
    (routine (evaluateHead p).toList (evaluateBody p)).map (indent 4) ++ afterEvaluate p := by
  simp only [afterLoader, afterEvaluate, List.append_assoc]

theorem other_afterEvaluate (h : p.Worded) : ∀ l ∈ afterEvaluate p, Other l := by
  have hlayout : ∀ {s : String}, Lacks '\n' s → Leads s → ∀ l ∈ layout 0 s, Other l :=
    fun hs hlead => other_layout_line hs hlead.other 0
  simp only [afterEvaluate, sectionLines, List.forall_mem_append]
  refine ⟨⟨⟨⟨?_, ?_⟩, ?_⟩, ?_⟩, ?_⟩
  · exact hlayout (lacks_literal (by decide)) (leads_literal (by decide))
  · exact other_privateMembers h
  · exact hlayout (lacks_literal (by decide)) (leads_literal (by decide))
  · exact hlayout (lacks_literal (by decide)) (leads_literal (by decide))
  · rw [List.forall_mem_singleton]
    decide

theorem ne_initHead_of_mem_afterLoader (h : p.Worded) :
    ∀ l ∈ afterLoader p, bare l ≠ initHead.toList := by
  simp only [afterLoader_eq, routine, List.forall_mem_map, List.forall_mem_append,
    List.forall_mem_cons, bare_indent]
  refine ⟨⟨⟨?_, ?_, fun l hl => (other_evaluateBody l hl).ne_initHead⟩, ?_,
    List.forall_mem_nil _⟩, fun l hl => (other_afterEvaluate h l hl).ne_initHead⟩
  · rw [(isLine_evaluateHead h).starts.bare]
    exact evaluateHead_ne_initHead
  · exact Other.ne_initHead (by decide)
  · exact Other.ne_initHead (by decide)

/-- The three routines follow each other in a header, each laid out as a member of the class. -/
theorem lines_render_routines {source : String} (hr : p.render = .ok source) :
    ∃ before, lines source.toList = before ++ (layout 1 (builder p) ++ (layout 1 (loader p) ++
      (layout 1 (evaluate p) ++ afterEvaluate p))) := by
  refine ⟨lines includes.toList ++ (layout 0 ("namespace " ++ p.enclosing) ++ (layout 0 "\x7b" ++
    (layout 0 ("class " ++ p.className ++ " final") ++ (layout 0 "\x7b" ++ (layout 0 "public:" ++
    (p.values.flatMap accessors).flatMap (layout 1)))))), ?_⟩
  rw [Plan.lines_render hr]
  simp only [namespaceLines, classLines, sectionLines, publicMembers, afterEvaluate,
    List.flatMap_append, List.flatMap_cons, List.flatMap_nil, List.append_nil, List.append_assoc]

theorem layout_loader (h : p.Worded) :
    layout 1 (loader p) = (routine initHead.toList (initBody p)).map (indent 4) := by
  rw [loader_eq_block h]
  exact layout_routine isLine_initHead (tidy_initBody h) 1

theorem lines_render_loader (h : p.Worded) {source : String} (hr : p.render = .ok source) :
    ∃ before, lines source.toList =
      before ++ ((routine initHead.toList (initBody p)).map (indent 4) ++ afterLoader p) := by
  have hevaluate : layout 1 (evaluate p) =
      (routine (evaluateHead p).toList (evaluateBody p)).map (indent 4) := by
    rw [evaluate_eq_block h]
    exact layout_routine (isLine_evaluateHead h) (tidy_evaluateBody h) 1
  obtain ⟨before, hlines⟩ := lines_render_routines hr
  refine ⟨before ++ layout 1 (builder p), ?_⟩
  rw [hlines, layout_loader h, hevaluate, afterLoader_eq, List.append_assoc]

/-- The body of `init` is read back as the plan has it. -/
theorem initBody?_render (h : p.Worded) {source : String} (hr : p.render = .ok source) :
    routineBody? initHead.toList (lines source.toList) = some ((initBody p).map (indent 8)) := by
  obtain ⟨before, hlines⟩ := lines_render_loader h hr
  rw [hlines]
  apply routineBody?_append
  exact routineBody?_routine isLine_initHead.starts
    (fun l hl => (other_initBody l hl).ne_initHead) (ne_initHead_of_mem_afterLoader h)
    ⟨Other.ne_initHead (by decide), Other.ne_initHead (by decide)⟩ 4

/-- The body of `Evaluate` is read back as the plan has it. -/
theorem evaluateBody?_render (h : p.Worded) {source : String} (hr : p.render = .ok source) :
    routineBody? (evaluateHead p).toList (lines source.toList) =
      some ((evaluateBody p).map (indent 8)) := by
  obtain ⟨before, hlines⟩ := lines_render_loader h hr
  have hhead := head?_evaluateHead p
  rw [hlines, afterLoader_eq]
  apply routineBody?_append
  apply routineBody?_append
  exact routineBody?_routine (isLine_evaluateHead h).starts
    (fun l hl => (other_evaluateBody l hl).ne_head hhead)
    (fun l hl => (other_afterEvaluate h l hl).ne_head hhead)
    ⟨Other.ne_head (by decide) hhead, Other.ne_head (by decide) hhead⟩ 4

/-! ### The calls of `init` -/

theorem loadCall?_openCode : ∀ s ∈ openCode, loadCall? s.toList = none := by
  have hcall : ∀ rest : List Char,
      loadCall? ('b' :: 'o' :: 'o' :: 's' :: 't' :: ':' :: rest) = none := fun rest =>
    loadCall?_eq_none (w := ['b', 'o', 'o', 's', 't']) (c := ':') rfl (List.all_eq_true.mp rfl)
      (by decide) (by decide)
  simp only [openCode, List.forall_mem_cons]
  refine ⟨?_, ?_, List.forall_mem_nil _⟩
  · rw [String.toList_ofList]
    exact hcall _
  · rw [String.toList_ofList]
    exact hcall _

theorem wordChar_history {name : String} (h : Identifier.isWord name) :
    ∀ c ∈ (Identifier.history name).toList, Identifier.isWordChar c :=
  Identifier.wordChar_of_isWord
    (Identifier.isWord_append (p := "m_buffer") rfl (Identifier.wordChar_of_isWord h))

theorem loadCall?_allocateCode {i : InputBinding} (h : Identifier.isWord i.name)
    (slot : RecurrentSlot) : ∀ s ∈ allocateCode i slot, loadCall? s.toList = none := by
  simp only [allocateCode, bufferCode, List.forall_mem_cons, String.append_assoc]
  refine ⟨?_, ?_, ?_, List.forall_mem_nil _⟩
  · have hbare := (opens_history h).starts.append (".resize(" ++ (slot.length.repr ++ ");")) |>.bare
    rw [String.toList_append, toList_literal_append] at hbare ⊢
    exact loadCall?_eq_none hbare (wordChar_history h) (by decide) (by decide)
  · rw [toList_literal_append]
    exact loadCall?_eq_none (w := ['f', 'o', 'r']) (c := ' ') rfl (List.all_eq_true.mp rfl)
      (by decide) (by decide)
  · rw [toList_literal_append]
    exact loadCall?_eq_none (w := ['s', 'l', 'o', 't']) (c := ' ') rfl (List.all_eq_true.mp rfl)
      (by decide) (by decide)

theorem filterMap_loadCall? (h : p.Worded) :
    ((initBody p).map (indent 8)).filterMap loadCall? =
      p.values.map fun v => ⟨Identifier.setter v.symbol, typeName v.source, v.uid⟩ := by
  have hindent : loadCall? ∘ indent 8 = loadCall? := funext (loadCall?_indent 8)
  have hopen : (openCode.map String.toList).filterMap loadCall? = [] := by
    rw [List.filterMap_map, List.filterMap_eq_nil_iff]
    exact loadCall?_openCode
  have hallocate : (p.recurrentInputs.flatMap fun r =>
      (allocateCode r.1 r.2).map String.toList).filterMap loadCall? = [] := by
    rw [List.filterMap_eq_nil_iff]
    intro l hl
    obtain ⟨r, hr, hl⟩ := List.mem_flatMap.mp hl
    obtain ⟨s, hs, rfl⟩ := List.mem_map.mp hl
    exact loadCall?_allocateCode (h.recurrent hr) r.2 s hs
  have hloads : (p.values.map fun v => (loadText v).toList).filterMap loadCall? =
      p.values.map fun v => ⟨Identifier.setter v.symbol, typeName v.source, v.uid⟩ := by
    rw [List.filterMap_map, ← List.filterMap_eq_map]
    apply List.filterMap_congr
    intro v hv
    rw [Function.comp_apply, Function.comp_apply, loadCall?_loadText (h.values v hv)]
  rw [List.filterMap_map, hindent, initBody, List.filterMap_append, List.filterMap_append, hopen,
    hallocate, hloads, List.nil_append, List.append_nil]

/-- What is called besides is no setter. -/
theorem setter_ne {symbol : String} {c : Char} {cs : List Char} (hc : c ≠ 's') :
    Identifier.setter symbol ≠ String.ofList (c :: cs) := by
  intro h
  have hlist := congrArg String.toList h
  rw [Identifier.setter, toList_literal_append, String.toList_ofList] at hlist
  exact hc (List.cons.inj hlist).1.symm

theorem callees_openCode (symbol : String) :
    ∀ s ∈ openCode, Identifier.setter symbol ∉ callees s.toList := by
  simp only [openCode, List.forall_mem_cons]
  refine ⟨?_, ?_, List.forall_mem_nil _⟩
  · rw [callees, calleesFrom_eq_nil (lacks_literal (by decide))]
    exact List.not_mem_nil
  · have hcallees : callees "boost::property_tree::read_json(weightFilePath, root);".toList =
        [String.ofList ['r', 'e', 'a', 'd', '_', 'j', 's', 'o', 'n']] := by
      rw [String.toList_ofList]
      rfl
    rw [hcallees, List.mem_singleton]
    exact setter_ne (by decide)

theorem callees_allocateCode {i : InputBinding} (h : Identifier.isWord i.name)
    (slot : RecurrentSlot) (symbol : String) :
    ∀ s ∈ allocateCode i slot, Identifier.setter symbol ∉ callees s.toList := by
  have hlength : '(' ∉ (slot.length.repr ++ ");").toList :=
    lacks_append.mpr ⟨lacks_of_wordChars (by decide) (wordChar_repr _), lacks_literal (by decide)⟩
  have hhistory : '(' ∉ (Identifier.history i.name ++ ")").toList :=
    lacks_append.mpr ⟨lacks_of_wordChars (by decide) (wordChar_history h),
      lacks_literal (by decide)⟩
  have hdims : '(' ∉ (dimsText slot.dims ++ ");").toList :=
    lacks_append.mpr ⟨lacks_dimsText (by decide) (lacks_literal (by decide)) _,
      lacks_literal (by decide)⟩
  -- What the literals of the three lines call, whatever stands behind them.
  have hresize : ∀ word rest : List Char, calleesFrom word (".resize(".toList ++ rest) =
      "resize" :: calleesFrom [] rest := by
    intro word rest
    rw [String.toList_ofList]
    rfl
  have hloop : ∀ rest : List Char, callees ("for (auto& slot : ".toList ++ rest) =
      calleesFrom [] rest := by
    intro rest
    rw [String.toList_ofList]
    rfl
  have hslot : ∀ rest : List Char, callees ("    slot = Halide::Buffer<".toList ++ rest) =
      calleesFrom [] rest := by
    intro rest
    rw [String.toList_ofList]
    rfl
  have hbuffer : ∀ word rest : List Char, calleesFrom word (">(".toList ++ rest) =
      calleesFrom [] rest := by
    intro word rest
    rw [String.toList_ofList]
    rfl
  have htype := Identifier.wordChar_of_isWord (isWord_typeName i.element)
  simp only [allocateCode, bufferCode, List.forall_mem_cons, String.append_assoc]
  refine ⟨?_, ?_, ?_, List.forall_mem_nil _⟩
  · rw [callees, String.toList_append, String.toList_append, calleesFrom_word (wordChar_history h),
      hresize, calleesFrom_eq_nil hlength, List.mem_singleton]
    exact setter_ne (by decide)
  · rw [String.toList_append, hloop, calleesFrom_eq_nil hhistory]
    exact List.not_mem_nil
  · rw [String.toList_append, hslot, String.toList_append, String.toList_append,
      calleesFrom_word htype, hbuffer, calleesFrom_eq_nil hdims]
    exact List.not_mem_nil

theorem callees_initBody (h : p.Worded) (symbol : String) :
    ∀ l ∈ (initBody p).map (indent 8), loadCall? l = none →
      Identifier.setter symbol ∉ callees l := by
  rw [List.forall_mem_map]
  simp only [loadCall?_indent, callees_indent, initBody, List.forall_mem_append,
    List.forall_mem_map]
  refine ⟨⟨?_, ?_⟩, ?_⟩
  · exact fun s hs _ => callees_openCode symbol s hs
  · intro v hv hnone
    rw [loadCall?_loadText (h.values v hv)] at hnone
    cases hnone
  · intro l hl _
    obtain ⟨r, hr, hl⟩ := List.mem_flatMap.mp hl
    obtain ⟨s, hs, rfl⟩ := List.mem_map.mp hl
    exact callees_allocateCode (h.recurrent hr) r.2 symbol s hs

end Header

namespace Graph

theorem loader_reads_store (g : Graph) (naming : Naming) (plan : Plan) (source : String)
    (h : g.lower naming = .ok plan) (hr : plan.render = .ok source) :
    ∃ body,
      Header.routineBody? Header.initHead.toList (lines source.toList) = some body ∧
      body.filterMap Header.loadCall? = (g.leaves.map fun n =>
        ⟨Identifier.setter n.symbol, Header.typeName n.floatType, n.uid⟩) ∧
      (∀ line ∈ body, Header.loadCall? line = none →
        ∀ symbol, Identifier.setter symbol ∉ Header.callees line) ∧
      ((body.filterMap Header.loadCall?).map Header.LoadCall.setter).Nodup ∧
      ((body.filterMap Header.loadCall?).map Header.LoadCall.key).Nodup ∧
      ∀ w : Weights, Weights.ofGraph g = .ok w →
        (∀ uid, uid ∈ w.keys ↔ ∃ n ∈ g.leaves, n.uid = uid ∧ n.value.isSome) ∧
        (∀ n ∈ g.leaves, ∀ values, n.value = some values → w.get? n.uid = some values) ∧
        ((∀ n ∈ g.leaves, n.value.isSome) →
          ((body.filterMap Header.loadCall?).map Header.LoadCall.key).Perm w.keys ∧
          w.validate g = .ok ()) := by
  obtain ⟨hacc, rfl⟩ := lower_eq_ok_iff.mp h
  have hworded := g.worded_planOf naming
  have huids := leafUids_nodup hacc
  have hcalls : ((Header.initBody (g.planOf naming)).map (indent 8)).filterMap Header.loadCall? =
      g.leaves.map fun n =>
        ⟨Identifier.setter n.symbol, Header.typeName n.floatType, n.uid⟩ := by
    rw [Header.filterMap_loadCall? hworded]
    exact List.map_map
  refine ⟨_, Header.initBody?_render hworded hr, hcalls, ?_, ?_, ?_, ?_⟩
  · exact fun line hline hnone symbol => Header.callees_initBody hworded symbol line hline hnone
  · rw [hcalls, List.map_map]
    exact setters_nodup hacc
  · rw [hcalls, List.map_map]
    exact huids
  · intro w hw
    refine ⟨fun uid => Weights.mem_keys_ofGraph huids hw, ?_, ?_⟩
    · exact fun n hn values hv => (Weights.ofGraph_get? huids hw hn hv).1
    · intro hall
      rw [hcalls, List.map_map]
      exact ⟨Weights.keys_ofGraph_perm huids hw hall, Weights.validate_ofGraph huids hw hall⟩

/-- One leaf whose uid needs escapes: its key, its setter and its entry in the store. -/
def shiftedInput : Graph where
  nodes := [
    { uid := "x", kind := .input, shape := [1] },
    { uid := "b\"é\n", kind := .parameter, shape := [1], value := some [default] },
    { uid := "s", kind := .operator "Plus" {}, shape := [1], operands := [0, 1] },
    { uid := "y", kind := .output, shape := [1], operands := [2] }]

theorem shiftedInput_loader_reads_store :
    ∃ source body w, shiftedInput.lower {} = .ok (shiftedInput.planOf {}) ∧
      (shiftedInput.planOf {}).render = .ok source ∧
      Header.routineBody? Header.initHead.toList (lines source.toList) = some body ∧
      body.filterMap Header.loadCall? = [⟨"set_b___", "float", "b\"é\n"⟩] ∧
      Weights.ofGraph shiftedInput = .ok w ∧ w.get? "b\"é\n" = some [default] ∧
      ["b\"é\n"].Perm w.keys ∧ w.validate shiftedInput = .ok () := by
  have hlower : shiftedInput.lower {} = .ok (shiftedInput.planOf {}) := by decide +kernel
  have hrecurrent : (shiftedInput.planOf {}).recurrentInputs = [] := by decide +kernel
  have hrender : (shiftedInput.planOf {}).render =
      .ok (Header.includes ++ "\n" ++ Header.namespaceText (shiftedInput.planOf {})) := by
    rw [Plan.render, hrecurrent]
    rfl
  have hstore : Weights.ofGraph shiftedInput = .ok (Weights.empty.insert "b\"é\n" [default]) := by
    decide +kernel
  have hcall : (shiftedInput.leaves.map fun n => (⟨Identifier.setter n.symbol,
      Header.typeName n.floatType, n.uid⟩ : Header.LoadCall)) =
      [⟨"set_b___", "float", "b\"é\n"⟩] := by
    decide +kernel
  have hvalues : ∀ n ∈ shiftedInput.leaves, n.value = some [default] := by decide +kernel
  obtain ⟨body, hbody, hcalls, -, -, -, hw⟩ :=
    loader_reads_store shiftedInput {} _ _ hlower hrender
  obtain ⟨-, hget, hall⟩ := hw _ hstore
  obtain ⟨hkeys, hvalid⟩ := hall fun n hn => by rw [hvalues n hn]; rfl
  rw [hcall] at hcalls
  rw [hcalls] at hkeys
  exact ⟨_, body, _, hlower, hrender, hbody, hcalls, hstore,
    hget _ List.mem_cons_self _ rfl, hkeys, hvalid⟩

end Graph

end EvaluatorGen
