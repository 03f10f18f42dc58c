import EvaluatorGen.Proofs.Header.Loader
import EvaluatorGen.Proofs.Pairing
import EvaluatorGen.Proofs.Text.Tokens

/-!
The histories in a header.

`init` allocates a history for each recurrent input, and `Evaluate` reads and writes them as rings.
The lengths are printed in three places, for the write by a look-up of the input's name.

1. `resize?` and `indices` read a line as a resizing of a member, and the index expressions of a
   line, from its tokens.
2. `resizes_initBody` and `indices_evaluateBody`: what they find in the two routines.
3. `timestep_in_body` and `timestep_declared`: the number of the step is used exactly if there is a
   recurrent input, and is a parameter in the same case.
4. `feedback_paired`: so names and edges pair the same outputs and inputs, and in the header
   the three lengths of a history are one.
-/
namespace EvaluatorGen

open Text

namespace Header

/-! ### Reading lines -/

/-- A line that resizes a member and does nothing else: the member and the length. -/
def resize? (line : List Char) : Option (String × String) :=
  match tokens line with
  | [owner, ".", "resize", "(", length, ")", ";"] => some (owner, length)
  | _ => none

/-- The texts between brackets, each with the token before its bracket; `owner` is the token that
    was read last. -/
def indicesFrom (owner : String) : List String → List (String × List String)
  | [] => []
  | t :: ts =>
    if t = "[" then (owner, ts.takeWhile (· ≠ "]")) :: indicesFrom t ts else indicesFrom t ts

/-- The index expressions of a line, each with what is indexed. -/
def indices (line : List Char) : List (String × List String) := indicesFrom "" (tokens line)

/-- What is listed under a name. -/
def under {α : Type} (owner : String) (entries : List (String × α)) : List α :=
  (entries.filter (·.1 = owner)).map Prod.snd

/-- The name that a parameter is declared by is its last token. -/
def parameterName? (param : String) : Option String := (tokens param.toList).getLast?

/-- The slot of this step. -/
def writeIndex (length : Nat) : List String := ["timestep", "%", length.repr]

/-- The slot of the step `offset` steps ago. -/
def readIndex (offset length : Nat) : List String :=
  ["(", "(", "timestep", "-", offset.repr, ")", "%", length.repr, "+", length.repr, ")", "%",
   length.repr]

theorem isToken_repr (n : Nat) : IsToken n.repr where
  chars := wordChar_repr n
  ne_nil := by
    rw [Nat.repr_eq_ofList_toDigits, String.toList_ofList]
    exact Nat.toDigits_ne_nil

theorem isToken_history {name : String} (h : Identifier.isWord name) :
    IsToken (Identifier.history name) :=
  isToken_of_isWord (Identifier.isWord_append rfl (Identifier.wordChar_of_isWord h))

theorem isToken_historyParam {name : String} (h : Identifier.isWord name) :
    IsToken (Identifier.historyParam name) :=
  isToken_of_isWord (Identifier.isWord_append rfl (Identifier.wordChar_of_isWord h))

/-! ### Lists of items -/

theorem tokens_commaList_cons (x y : String) (ys : List String) :
    tokens (commaList (x :: y :: ys)).toList =
      tokens x.toList ++ "," :: tokens (commaList (y :: ys)).toList := by
  rw [commaList, String.intercalate_cons_cons, String.append_assoc, String.toList_append,
    tokens_append (stops_literal_append (by decide) _ _), tokens_literal_append (by decide)]
  rfl

theorem mem_tokens_commaList {t : String} (ht : t ≠ ",") {items : List String} :
    t ∈ tokens (commaList items).toList ↔ ∃ x ∈ items, t ∈ tokens x.toList := by
  induction items with
  | nil => simp [commaList, tokens, tokensFrom, wordToken]
  | cons x items ih =>
    cases items with
    | nil => simp [commaList, String.intercalate_singleton]
    | cons y ys =>
      rw [tokens_commaList_cons, List.mem_append, List.mem_cons, ih]
      simp [ht]

/-! ### Index expressions -/

/-- The index expressions of a list of tokens, whatever stands before and behind. -/
def Reads (ts : List String) (found : List (String × List String)) : Prop :=
  ∀ owner rest,
    indicesFrom owner (ts ++ rest) = found ++ indicesFrom (ts.getLast?.getD owner) rest

theorem Reads.indices {l : List Char} {found : List (String × List String)}
    (h : Reads (tokens l) found) : indices l = found := by
  have hall := h "" []
  rwa [List.append_nil, indicesFrom, List.append_nil] at hall

theorem Reads.append {a b : List String} {found found' : List (String × List String)}
    (ha : Reads a found) (hb : Reads b found') : Reads (a ++ b) (found ++ found') := by
  intro owner rest
  rw [List.append_assoc, ha, hb, List.append_assoc, List.getLast?_append]
  cases b.getLast? <;> rfl

theorem reads_of_not_mem {ts : List String} (h : "[" ∉ ts) : Reads ts [] := by
  intro owner rest
  induction ts generalizing owner with
  | nil => rfl
  | cons t ts ih =>
    rw [List.mem_cons, not_or] at h
    rw [List.cons_append, indicesFrom, if_neg (Ne.symm h.1), ih h.2, List.getLast?_cons]
    rfl

theorem reads_index {owner : String} {index : List String} (ho : owner ≠ "[") (h : "[" ∉ index)
    (h' : "]" ∉ index) : Reads (owner :: "[" :: (index ++ ["]"])) [(owner, index)] := by
  intro before rest
  have hindex : ∀ t ∈ index, decide (t ≠ "]") = true := by
    intro t ht
    refine decide_eq_true ?_
    rintro rfl
    exact h' ht
  -- What is left after the opening bracket has no other one, up to the end of the index.
  have hclosed : "[" ∉ index ++ ["]"] := by simp [h]
  have hrest := reads_of_not_mem hclosed "[" rest
  rw [List.cons_append, List.cons_append, indicesFrom, if_neg ho, indicesFrom, if_pos rfl, hrest,
    List.append_assoc, List.takeWhile_append_of_pos hindex]
  simp [List.getLast?_cons]

theorem reads_of_lacks {s : String} (h : Lacks '[' s) : Reads (tokens s.toList) [] :=
  reads_of_not_mem (not_mem_tokens (c := '[') (by decide) h)

theorem reads_commaList {α : Type} {text : α → String}
    {found : α → List (String × List String)} {items : List α}
    (h : ∀ x ∈ items, Reads (tokens (text x).toList) (found x)) :
    Reads (tokens (commaList (items.map text)).toList) (items.flatMap found) := by
  induction items with
  | nil => exact reads_of_not_mem (by simp [commaList, tokens, tokensFrom, wordToken])
  | cons x items ih =>
    rw [List.forall_mem_cons] at h
    cases items with
    | nil => simpa [commaList, String.intercalate_singleton] using h.1
    | cons y ys =>
      have hcomma : Reads [","] [] := reads_of_not_mem (by decide)
      have hall := h.1.append (hcomma.append (ih h.2))
      rw [List.map_cons, List.map_cons, tokens_commaList_cons]
      exact hall

/-! ### Loading the weights -/

theorem resize?_indent (n : Nat) (l : List Char) : resize? (indent n l) = resize? l := by
  rw [resize?, resize?, tokens_indent]

/-- A line whose second token is no dot resizes nothing. -/
theorem resize?_eq_none {l : List Char} {t : String} (h : (tokens l)[1]? = some t)
    (ht : t ≠ ".") : resize? l = none := by
  unfold resize?
  split
  · rename_i heq
    rw [heq] at h
    exact absurd (Option.some.inj h).symm ht
  · rfl

theorem resize?_openCode : ∀ s ∈ openCode, resize? s.toList = none := by
  simp only [openCode, List.forall_mem_cons]
  refine ⟨?_, ?_, List.forall_mem_nil _⟩
  · refine resize?_eq_none (t := ":") ?_ (by decide)
    rw [tokens_literal]
    rfl
  · refine resize?_eq_none (t := ":") ?_ (by decide)
    rw [tokens_literal]
    rfl

theorem resize?_loadText {v : LeafValue} (h : Identifier.isWord v.symbol) :
    resize? (loadText v).toList = none := by
  have hsetter : IsToken (Identifier.setter v.symbol) := isToken_of_isWord (isWord_setter h)
  refine resize?_eq_none (t := "(") ?_ (by decide)
  simp only [loadText, String.append_assoc]
  rw [tokens_word_append hsetter (stops_literal_append (by decide) _ _),
    tokens_literal_append (by decide)]
  rfl

theorem resize?_allocateCode {i : InputBinding} (h : Identifier.isWord i.name)
    (slot : RecurrentSlot) :
    ((allocateCode i slot).map String.toList).filterMap resize? =
      [(Identifier.history i.name, slot.length.repr)] := by
  have htokens : tokens (Identifier.history i.name ++ ".resize(" ++ slot.length.repr ++
      ");").toList =
      [Identifier.history i.name, ".", "resize", "(", slot.length.repr, ")", ";"] := by
    rw [String.append_assoc, String.append_assoc,
      tokens_word_append (isToken_history h) (stops_literal_append (by decide) _ _),
      tokens_literal_append (by decide),
      tokens_word_append (isToken_repr _) (stops_literal (by decide) _), tokens_literal]
    rfl
  have hresize : resize? (Identifier.history i.name ++ ".resize(" ++ slot.length.repr ++
      ");").toList = some (Identifier.history i.name, slot.length.repr) := by
    rw [resize?, htokens]
    rfl
  have hloop : resize? ("for (auto& slot : " ++ Identifier.history i.name ++ ")").toList =
      none := by
    refine resize?_eq_none (t := "(") ?_ (by decide)
    rw [String.append_assoc, tokens_literal_append (by decide)]
    rfl
  have hslot : resize? ("    slot = Halide::Buffer<" ++ typeName i.element ++ ">(" ++
      dimsText slot.dims ++ ");").toList = none := by
    refine resize?_eq_none (t := "=") ?_ (by decide)
    simp only [String.append_assoc]
    rw [tokens_literal_append (by decide)]
    rfl
  simp only [allocateCode, bufferCode, List.map_cons, List.map_nil]
  rw [List.filterMap_cons_some hresize, List.filterMap_cons_none hloop,
    List.filterMap_cons_none hslot, List.filterMap_nil]

variable {p : Plan}

theorem resizes_initBody (h : p.Worded) :
    ((initBody p).map (indent 8)).filterMap resize? =
      p.recurrentInputs.map fun r => (Identifier.history r.1.name, r.2.length.repr) := by
  have hindent : resize? ∘ indent 8 = resize? := funext (resize?_indent 8)
  have hopen : (openCode.map String.toList).filterMap resize? = [] := by
    rw [List.filterMap_map, List.filterMap_eq_nil_iff]
    exact resize?_openCode
  have hloads : (p.values.map fun v => (loadText v).toList).filterMap resize? = [] := by
    rw [List.filterMap_map, List.filterMap_eq_nil_iff]
    intro v hv
    rw [Function.comp_apply, resize?_loadText (h.values v hv)]
  have hallocate : (p.recurrentInputs.flatMap fun r =>
      (allocateCode r.1 r.2).map String.toList).filterMap resize? =
      p.recurrentInputs.map fun r => (Identifier.history r.1.name, r.2.length.repr) := by
    rw [List.filterMap_flatMap, List.map_eq_flatMap]
    exact List.flatMap_congr fun r hr => resize?_allocateCode (h.recurrent hr) r.2
  rw [List.filterMap_map, hindent, initBody, List.filterMap_append, List.filterMap_append, hopen,
    hloads, hallocate]
  rfl

/-! ### Evaluating one step -/

theorem tokens_bindText {i : InputBinding} (h : Identifier.isWord i.name) (slot : RecurrentSlot) :
    tokens (bindText i slot).toList =
      [Identifier.historyParam i.name, ".", "set", "("] ++
      (Identifier.history i.name :: "[" ::
        (readIndex slot.offset.toNat slot.length ++ ["]"]) ++ [")", ";"]) := by
  have hclose : "]" ++ ");" = "]);" := rfl
  simp only [bindText, setText, readBuffer, String.append_assoc, hclose]
  rw [tokens_word_append (isToken_historyParam h) (stops_literal_append (by decide) _ _),
    tokens_literal_append (by decide),
    tokens_word_append (isToken_history h) (stops_literal_append (by decide) _ _),
    tokens_literal_append (by decide),
    tokens_word_append (isToken_repr _) (stops_literal_append (by decide) _ _),
    tokens_literal_append (by decide),
    tokens_word_append (isToken_repr _) (stops_literal_append (by decide) _ _),
    tokens_literal_append (by decide),
    tokens_word_append (isToken_repr _) (stops_literal_append (by decide) _ _),
    tokens_literal_append (by decide),
    tokens_word_append (isToken_repr _) (stops_literal (by decide) _), tokens_literal]
  rfl

theorem tokens_realizeTarget {o : OutputBinding} {target : String} (hf : o.feeds = some target)
    (h : Identifier.isWord target) :
    tokens (realizeTarget p o).toList =
      Identifier.history target :: "[" :: (writeIndex (historyLength p target) ++ ["]"]) := by
  simp only [realizeTarget, hf, String.append_assoc]
  rw [tokens_word_append (isToken_history h) (stops_literal_append (by decide) _ _),
    tokens_literal_append (by decide),
    tokens_word_append (isToken_repr _) (stops_literal (by decide) _), tokens_literal]
  rfl

theorem indices_indent (n : Nat) (l : List Char) : indices (indent n l) = indices l := by
  rw [indices, indices, tokens_indent]

theorem lacks_bracket_of_isWord {s : String} (h : Identifier.isWord s) : Lacks '[' s :=
  lacks_of_wordChars (by decide) (Identifier.wordChar_of_isWord h)

theorem indices_buildCode (h : p.Worded) :
    ∀ s ∈ buildCode (p.inputs.map buildArg), indices s.toList = [] := by
  have hargs : Lacks '[' (commaList (p.inputs.map buildArg)) :=
    lacks_buildArgs (by decide) (lacks_literal (by decide)) h
  simp only [buildCode, List.forall_mem_cons]
  refine ⟨?_, ?_, ?_, ?_, ?_, List.forall_mem_nil _⟩
  · exact (reads_of_lacks (lacks_literal (by decide))).indices
  · exact (reads_of_lacks (lacks_literal (by decide))).indices
  · refine (reads_of_lacks ?_).indices
    simp only [lacks_append, and_assoc]
    exact ⟨lacks_literal (by decide), hargs, lacks_literal (by decide)⟩
  · exact (reads_of_lacks (lacks_literal (by decide))).indices
  · exact (reads_of_lacks (lacks_literal (by decide))).indices

theorem reads_history {name : String} (h : Identifier.isWord name) {index : List String}
    (hi : "[" ∉ index) (hi' : "]" ∉ index) :
    Reads (Identifier.history name :: "[" :: (index ++ ["]"]))
      [(Identifier.history name, index)] :=
  reads_index ((isToken_history h).ne_symbol (c := '[') (by decide)) hi hi'

/-- No bracket stands in an index. -/
theorem not_mem_index {t : String} (h : t = "[" ∨ t = "]") (offset length : Nat) :
    t ∉ readIndex offset length ∧ t ∉ writeIndex length := by
  have hrepr : ∀ n : Nat, t ≠ n.repr := by
    rintro n rfl
    rcases h with h | h
    · exact (isToken_repr n).ne_symbol (c := '[') (by decide) h
    · exact (isToken_repr n).ne_symbol (c := ']') (by decide) h
  rcases h with rfl | rfl <;> simp [readIndex, writeIndex, hrepr]

theorem indices_bindText {i : InputBinding} (h : Identifier.isWord i.name) (slot : RecurrentSlot) :
    indices (bindText i slot).toList =
      [(Identifier.history i.name, readIndex slot.offset.toNat slot.length)] := by
  have hset : "[" ∉ [Identifier.historyParam i.name, ".", "set", "("] := by
    have hparam := (isToken_historyParam h).ne_symbol (c := '[') (by decide)
    simp [hparam.symm]
  have hindex := reads_history h (not_mem_index (.inl rfl) slot.offset.toNat slot.length).1
    (not_mem_index (.inr rfl) slot.offset.toNat slot.length).1
  have hclose : "[" ∉ [")", ";"] := by decide
  have hall := (reads_of_not_mem hset).append (hindex.append (reads_of_not_mem hclose))
  rw [← tokens_bindText h] at hall
  exact hall.indices

/-- The slot that an output is written to, if it is recurrent. -/
def written? (p : Plan) (o : OutputBinding) : Option (String × List String) :=
  o.feeds.map fun target => (Identifier.history target, writeIndex (historyLength p target))

theorem reads_realizeTarget (h : p.Worded) {o : OutputBinding} (ho : o ∈ p.outputs) :
    Reads (tokens (realizeTarget p o).toList) (written? p o).toList := by
  unfold written?
  cases hf : o.feeds with
  | none =>
    simp only [realizeTarget, hf]
    exact reads_of_lacks (lacks_bracket_of_isWord (h.outputs o ho))
  | some target =>
    have hword := h.feeds o ho target hf
    rw [tokens_realizeTarget hf hword]
    exact reads_history hword (not_mem_index (.inl rfl) 0 _).2 (not_mem_index (.inr rfl) 0 _).2

theorem tokens_realizeText :
    tokens (realizeText p).toList =
      ["m_graph", ".", "realize", "(", "\x7b"] ++
      (tokens (commaList (p.outputs.map (realizeTarget p))).toList ++ ["\x7d", ")", ";"]) := by
  have hopen : tokens "m_graph.realize(\x7b ".toList =
      ["m_graph", ".", "realize", "(", "\x7b"] := by
    decide +kernel
  have hclose : tokens " \x7d);".toList = ["\x7d", ")", ";"] := by
    decide +kernel
  rw [tokens_literal] at hopen hclose
  unfold realizeText realizeCall
  rw [tokens_append_literal (by decide), hclose, tokens_literal_append (by decide), hopen,
    List.append_assoc]

theorem indices_realizeText (h : p.Worded) :
    indices (realizeText p).toList = p.outputs.filterMap (written? p) := by
  have htargets : Reads (tokens (commaList (p.outputs.map (realizeTarget p))).toList)
      (p.outputs.flatMap fun o => (written? p o).toList) :=
    reads_commaList fun o ho => reads_realizeTarget h ho
  have hopen : "[" ∉ ["m_graph", ".", "realize", "(", "\x7b"] := by decide
  have hclose : "[" ∉ ["\x7d", ")", ";"] := by decide
  have hall := (reads_of_not_mem hopen).append (htargets.append (reads_of_not_mem hclose))
  rw [← tokens_realizeText] at hall
  rw [hall.indices, List.nil_append, List.append_nil, List.filterMap_eq_flatMap_toList]

/-- `Evaluate` reads every history at one slot, in the order of the inputs, and then writes one
    slot for each recurrent output. -/
theorem indices_evaluateBody (h : p.Worded) :
    ((evaluateBody p).map (indent 8)).flatMap indices =
      (p.recurrentInputs.map fun r =>
        (Identifier.history r.1.name, readIndex r.2.offset.toNat r.2.length)) ++
      p.outputs.filterMap (written? p) := by
  have hbuild : ((buildCode (p.inputs.map buildArg)).map String.toList).flatMap indices = [] := by
    rw [List.flatMap_map, List.flatMap_eq_nil_iff]
    exact indices_buildCode h
  have hbind : (p.recurrentInputs.map fun r => (bindText r.1 r.2).toList).flatMap indices =
      p.recurrentInputs.map fun r =>
        (Identifier.history r.1.name, readIndex r.2.offset.toNat r.2.length) := by
    rw [List.flatMap_map, List.map_eq_flatMap]
    exact List.flatMap_congr fun r hr => indices_bindText (h.recurrent hr) r.2
  rw [List.flatMap_map]
  simp only [indices_indent]
  rw [evaluateBody, List.flatMap_append, List.flatMap_append, hbuild, hbind, List.flatMap_singleton,
    indices_realizeText h, List.nil_append]

end Header

namespace Plan

variable {p : Plan}

theorem hasRecurrence_iff : p.hasRecurrence ↔ ∃ r, r ∈ p.recurrentInputs := by
  simp only [hasRecurrence, List.any_eq_true, Option.isSome_iff_exists, mem_recurrentInputs,
    Prod.exists, exists_and_left]

/-- No input and no immediate output has the name of something that every class has. -/
theorem Wired.not_fixed (h : p.Wired) :
    (∀ i ∈ p.inputs, i.name ∉ Identifier.fixed) ∧
    ∀ o ∈ p.immediateOutputs, o.name ∉ Identifier.fixed := by
  have hn := h.identifiers
  simp only [Plan.identifiers, List.append_assoc] at hn
  have hapart := (List.nodup_append'.mp hn).2.2
  refine ⟨fun i hi hfixed => hapart hfixed ?_, fun o ho hfixed => hapart hfixed ?_⟩
  · exact List.mem_append_left _ (List.mem_map_of_mem hi)
  · simp only [List.mem_append]
    exact .inr (.inr (.inr (.inr (List.mem_map_of_mem ho))))

end Plan

namespace Header

variable {p : Plan}

/-! ### The number of the step -/

theorem timestep_mem_fixed : "timestep" ∈ Identifier.fixed := by decide

theorem parameterName?_append {cs : List Char} (h : cs.getLast?.all (!Identifier.isWordChar ·))
    {name : String} (hname : Identifier.isWord name) :
    parameterName? (String.ofList cs ++ name) = some name := by
  rw [parameterName?, tokens_literal_append h, tokens_word (isToken_of_isWord hname),
    List.getLast?_append]
  rfl

theorem parameterName?_imageParam {i : InputBinding} (h : Identifier.isWord i.name) :
    parameterName? (imageParam i.name) = some i.name :=
  parameterName?_append (by decide) h

theorem parameterName?_buffer {o : OutputBinding} (h : Identifier.isWord o.name) :
    parameterName? ("Halide::Buffer<" ++ typeName o.element ++ ">& " ++ o.name) = some o.name := by
  have htype := isToken_of_isWord (isWord_typeName o.element)
  rw [parameterName?, String.append_assoc, String.append_assoc, tokens_literal_append (by decide),
    tokens_word_append htype (stops_literal_append (by decide) _ _),
    tokens_literal_append (by decide), tokens_word (isToken_of_isWord h)]
  simp [List.getLast?_cons]

theorem timestep_declared (h : p.Worded) (hw : p.Wired) :
    (∃ param ∈ evaluateParams p, parameterName? param = some "timestep") ↔ p.hasRecurrence := by
  refine ⟨?_, ?_⟩
  · rintro ⟨param, hparam, hname⟩
    by_contra hnone
    simp only [evaluateParams, stepParams, if_neg hnone, List.nil_append, List.mem_append,
      List.mem_map] at hparam
    rcases hparam with ⟨_, ⟨i, hi, rfl⟩, rfl⟩ | ⟨_, ⟨o, ho, rfl⟩, rfl⟩
    · have hin := List.mem_of_mem_filter hi
      rw [parameterName?_imageParam (h.inputs i hin)] at hname
      exact hw.not_fixed.1 i hin (Option.some.inj hname ▸ timestep_mem_fixed)
    · rw [parameterName?_buffer (h.outputs o (List.mem_of_mem_filter ho))] at hname
      exact hw.not_fixed.2 o ho (Option.some.inj hname ▸ timestep_mem_fixed)
  · intro hr
    refine ⟨"int timestep", ?_, by decide +kernel⟩
    simp [evaluateParams, stepParams, hr]

theorem not_timestep_buildCode (h : p.Worded) (hw : p.Wired)
    (hnone : ∀ i ∈ p.inputs, i.recurrence = none) :
    ∀ s ∈ buildCode (p.inputs.map buildArg), "timestep" ∉ tokens s.toList := by
  have hargs : "timestep" ∉ tokens (commaList (p.inputs.map buildArg)).toList := by
    rw [mem_tokens_commaList (by decide)]
    simp only [List.mem_map]
    rintro ⟨_, ⟨i, hi, rfl⟩, hin⟩
    simp only [buildArg, hnone i hi] at hin
    rw [if_neg (by simp), tokens_word (isToken_of_isWord (h.inputs i hi)),
      List.mem_singleton] at hin
    exact hw.not_fixed.1 i hi (hin ▸ timestep_mem_fixed)
  -- The other lines, and what stands around the arguments, have no letter `s`.
  have hs : 's' ∈ "timestep".toList := by decide
  simp only [buildCode, List.forall_mem_cons]
  refine ⟨?_, ?_, ?_, ?_, ?_, List.forall_mem_nil _⟩
  · exact not_mem_tokens hs (lacks_literal (by decide))
  · exact not_mem_tokens hs (lacks_literal (by decide))
  · rw [tokens_append_literal (by decide), tokens_literal_append (by decide), List.mem_append,
      List.mem_append, not_or, not_or]
    exact ⟨⟨not_mem_tokens hs (by decide), hargs⟩, not_mem_tokens hs (by decide)⟩
  · exact not_mem_tokens hs (lacks_literal (by decide))
  · exact not_mem_tokens hs (lacks_literal (by decide))

theorem not_timestep_realizeText (h : p.Worded) (hw : p.Wired)
    (hnone : ∀ o ∈ p.outputs, o.feeds = none) : "timestep" ∉ tokens (realizeText p).toList := by
  rw [tokens_realizeText, List.mem_append, List.mem_append, not_or, not_or,
    mem_tokens_commaList (by decide)]
  refine ⟨by decide, ?_, by decide⟩
  simp only [List.mem_map]
  rintro ⟨_, ⟨o, ho, rfl⟩, hin⟩
  simp only [realizeTarget, hnone o ho] at hin
  rw [tokens_word (isToken_of_isWord (h.outputs o ho)), List.mem_singleton] at hin
  have himmediate : o ∈ p.immediateOutputs := List.mem_filter.mpr ⟨ho, by simp [hnone o ho]⟩
  exact hw.not_fixed.2 o himmediate (hin ▸ timestep_mem_fixed)

theorem timestep_in_body (h : p.Worded) (hw : p.Wired) :
    (∃ l ∈ (evaluateBody p).map (indent 8), "timestep" ∈ tokens l) ↔ p.hasRecurrence := by
  simp only [List.mem_map, exists_exists_and_eq_and, tokens_indent, Plan.hasRecurrence_iff]
  refine ⟨?_, ?_⟩
  · rintro ⟨l, hl, ht⟩
    by_contra hnone
    -- Without a recurrent input no output is fed back, so no line reads or writes a ring.
    have hinputs : ∀ i ∈ p.inputs, i.recurrence = none := by
      intro i hi
      cases hs : i.recurrence with
      | none => rfl
      | some slot => exact absurd ⟨(i, slot), Plan.mem_recurrentInputs.mpr ⟨hi, hs⟩⟩ hnone
    have houtputs : ∀ o ∈ p.outputs, o.feeds = none := by
      intro o ho
      cases hf : o.feeds with
      | none => rfl
      | some target =>
        obtain ⟨r, hr, -⟩ := hw.feeds o ho target hf
        exact absurd ⟨r, hr⟩ hnone
    simp only [evaluateBody, List.mem_append, List.mem_map, List.mem_singleton] at hl
    rcases hl with (⟨s, hs, rfl⟩ | ⟨r, hr, rfl⟩) | rfl
    · exact not_timestep_buildCode h hw hinputs s hs ht
    · exact hnone ⟨r, hr⟩
    · exact not_timestep_realizeText h hw houtputs ht
  · rintro ⟨r, hr⟩
    refine ⟨(bindText r.1 r.2).toList, ?_, ?_⟩
    · simp only [evaluateBody, List.mem_append, List.mem_map]
      exact .inl (.inr ⟨r, hr, rfl⟩)
    · rw [tokens_bindText (h.recurrent hr)]
      simp [readIndex]

/-! ### One history -/

theorem under_append {α : Type} (owner : String) (xs ys : List (String × α)) :
    under owner (xs ++ ys) = under owner xs ++ under owner ys := by
  simp only [under, List.filter_append, List.map_append]

theorem countP_history (hw : p.Wired) {r : InputBinding × RecurrentSlot}
    (hr : r ∈ p.recurrentInputs) :
    (p.recurrentInputs.countP fun r' =>
      Identifier.history r'.1.name = Identifier.history r.1.name) = 1 := by
  have hone := List.count_eq_one_of_mem hw.histories
    (List.mem_map_of_mem (f := fun r => Identifier.history r.1.name) hr)
  rw [List.count_eq_countP, List.countP_map] at hone
  rw [← hone]
  apply List.countP_congr
  intro r' _
  simp

/-- A list with one entry for each history has one under the name of each. -/
theorem under_histories (hw : p.Wired) {α : Type} (value : InputBinding × RecurrentSlot → α)
    {r : InputBinding × RecurrentSlot} (hr : r ∈ p.recurrentInputs) :
    under (Identifier.history r.1.name)
      (p.recurrentInputs.map fun r => (Identifier.history r.1.name, value r)) = [value r] := by
  have hfilter : p.recurrentInputs.filter
      ((fun x : String × α => x.1 = Identifier.history r.1.name) ∘
        fun r => (Identifier.history r.1.name, value r)) = [r] :=
    filter_eq_singleton (countP_history hw hr) hr (by simp)
  rw [under, List.filter_map, hfilter]
  rfl

/-- Of the slots that are written, one is of each history. -/
theorem under_written (hw : p.Wired) {r : InputBinding × RecurrentSlot}
    (hr : r ∈ p.recurrentInputs) :
    under (Identifier.history r.1.name) (p.outputs.filterMap (written? p)) =
      [writeIndex r.2.length] := by
  -- The name of a history is that of one input, so its slots are written by the feeders of that.
  have hfilter : (p.outputs.filterMap (written? p)).filter
      (fun x => x.1 = Identifier.history r.1.name) =
      (p.outputs.filter (·.feeds == some r.1.name)).filterMap (written? p) := by
    rw [List.filter_filterMap, List.filterMap_filter]
    apply List.filterMap_congr
    intro o _
    unfold written?
    cases hf : o.feeds with
    | none => rfl
    | some target =>
      by_cases heq : target = r.1.name
      · simp [heq]
      · have hne : Identifier.history target ≠ Identifier.history r.1.name :=
          fun h => heq (history_injective h)
        simp [heq, hne]
  obtain ⟨o, ho, hf⟩ := hw.feeder hr
  have hwritten : written? p o =
      some (Identifier.history r.1.name, writeIndex r.2.length) := by
    rw [written?, hf, Option.map_some, hw.historyLength_eq hr]
  rw [under, hfilter, filter_eq_singleton (hw.fedOnce r hr) ho (by simp [hf]),
    List.filterMap_cons_some hwritten]
  rfl

/-- The two routines agree on the histories. Every target of an output is found, so its length is
    not made up. `init` resizes each history once; `Evaluate` indexes it twice, at the slot that
    is read and at the slot that is written, with remainders by that length, and indexes nothing
    else. It uses the number of the step exactly if a parameter declares it. -/
structure HistoriesAgree (p : Plan) (init evaluate : List (List Char)) : Prop where
  known : ∀ o ∈ p.outputs, ∀ target, o.feeds = some target →
    ((p.input? target).bind (·.recurrence)).isSome
  resized : ∀ r ∈ p.recurrentInputs,
    under (Identifier.history r.1.name) (init.filterMap resize?) = [r.2.length.repr]
  indexed : ∀ r ∈ p.recurrentInputs,
    under (Identifier.history r.1.name) (evaluate.flatMap indices) =
      [readIndex r.2.offset.toNat r.2.length, writeIndex r.2.length]
  only : ∀ x ∈ evaluate.flatMap indices, ∃ r ∈ p.recurrentInputs,
    x.1 = Identifier.history r.1.name
  clock : (∃ line ∈ evaluate, "timestep" ∈ tokens line) ↔
    ∃ param ∈ evaluateParams p, parameterName? param = some "timestep"

theorem historiesAgree (h : p.Worded) (hw : p.Wired) :
    HistoriesAgree p ((initBody p).map (indent 8)) ((evaluateBody p).map (indent 8)) where
  known o ho target hf := by
    obtain ⟨r, hr, rfl⟩ := hw.feeds o ho target hf
    obtain ⟨hin, hslot⟩ := Plan.mem_recurrentInputs.mp hr
    rw [hw.input?_eq hin, Option.bind_some, hslot]
    rfl
  resized r hr := by
    rw [resizes_initBody h, under_histories hw _ hr]
  indexed r hr := by
    rw [indices_evaluateBody h, under_append, under_histories hw _ hr, under_written hw hr]
    rfl
  only x hx := by
    rw [indices_evaluateBody h, List.mem_append, List.mem_map, List.mem_filterMap] at hx
    rcases hx with ⟨r, hr, rfl⟩ | ⟨o, ho, hwritten⟩
    · exact ⟨r, hr, rfl⟩
    · obtain ⟨target, hf, rfl⟩ := Option.map_eq_some_iff.mp hwritten
      obtain ⟨r, hr, rfl⟩ := hw.feeds o ho target hf
      exact ⟨r, hr, rfl⟩
  clock := (timestep_in_body h hw).trans (timestep_declared h hw).symm

end Header

namespace Graph

variable {g : Graph} {naming : Naming}

/-- The look-up by name pairs the recurrent outputs of a plan with its recurrent inputs, and the
    entries that it pairs are those of two nodes that an edge relates. So when the header is
    printed, its two routines agree on the histories. -/
theorem feedback_paired {plan : Plan} (h : g.lower naming = .ok plan) :
    (plan.outputs.Nodup ∧ plan.inputs.Nodup ∧
      Set.BijOn plan.fedInput? {o | o ∈ plan.recurrentOutputs}
        {x | ∃ r ∈ plan.recurrentInputs, x = some r.1}) ∧
    (∀ o ∈ plan.recurrentOutputs, ∃ i j id n m, g.FedByEdge plan o i j id n m) ∧
    ∀ source, plan.render = .ok source →
      ∃ init evaluate,
        Header.routineBody? Header.initHead.toList (lines source.toList) = some init ∧
        Header.routineBody? (Header.evaluateHead plan).toList (lines source.toList) =
          some evaluate ∧
        Header.HistoriesAgree plan init evaluate := by
  obtain ⟨hacc, rfl⟩ := lower_eq_ok_iff.mp h
  have hw := wired_planOf hacc naming
  have hworded := g.worded_planOf naming
  refine ⟨⟨outputs_nodup hacc, hw.inputNames.of_map, hw.fed_bijOn⟩, ?_, ?_⟩
  · exact fun o ho => fedByEdge hacc ho
  · intro source hr
    exact ⟨_, _, Header.initBody?_render hworded hr, Header.evaluateBody?_render hworded hr,
      Header.historiesAgree hworded hw⟩

/-- The history of the loop has three buffers: two steps back, and the one that is written. -/
theorem runningSum_feedback_paired :
    runningSum.lower {} = .ok (runningSum.planOf {}) ∧
    ∃ source init evaluate, (runningSum.planOf {}).render = .ok source ∧
      Header.routineBody? Header.initHead.toList (lines source.toList) = some init ∧
      Header.routineBody? (Header.evaluateHead (runningSum.planOf {})).toList
        (lines source.toList) = some evaluate ∧
      Header.under "m_bufferh" (init.filterMap Header.resize?) = ["3"] ∧
      Header.under "m_bufferh" (evaluate.flatMap Header.indices) =
        [Header.readIndex 2 3, Header.writeIndex 3] := by
  have hslots : (runningSum.planOf {}).recurrentInputs =
      [(⟨"h", "h", .float, some ⟨2, [2]⟩⟩, ⟨2, [2]⟩)] := by
    decide +kernel
  have hrender := Plan.render_ok (p := runningSum.planOf {}) (by rw [hslots]; decide)
  obtain ⟨-, -, hheader⟩ := feedback_paired runningSum_lower
  obtain ⟨init, evaluate, hinit, hevaluate, hagree⟩ := hheader _ hrender
  have hr := hslots ▸ List.mem_singleton_self _
  exact ⟨runningSum_lower, _, init, evaluate, hrender, hinit, hevaluate, hagree.resized _ hr,
    hagree.indexed _ hr⟩

end Graph

end EvaluatorGen
