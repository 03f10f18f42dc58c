import EvaluatorGen.Proofs.Header.Lines

/-!
Reading a header.

What a generated class does is in the text of its header. The functions below read a routine,
the names that a line calls, and a call that loads a leaf back from lines, without knowing the
plan that they were printed from.

1. `routineBody?` is the body of the routine with a given head. `routineBody?_routine`: of a
   routine that was laid out it is the lines that were put between its braces.
2. `callees` are the names that a line calls.
3. `loadCall?` reads a line as a call that hands the values under a key to a setter, and decodes
   the key. `loadCall?_loadText`: it reads the call of a leaf back.
-/
namespace EvaluatorGen

open Text

namespace Header

/-! ### Routines -/

/-- The lines between braces that stand behind `depth` spaces. -/
def braced? (depth : Nat) : List (List Char) → Option (List (List Char))
  | [] => none
  | l :: ls =>
    if l = indent depth ['\x7b'] ∧ indent depth ['\x7d'] ∈ ls then
      some (ls.takeWhile (· ≠ indent depth ['\x7d']))
    else none

/-- The body of the routine with a head. The class and its namespace are named by any text, so
    the head may stand in their names, before the class: the last routine counts. -/
def routineBody? (head : List Char) : List (List Char) → Option (List (List Char))
  | [] => none
  | l :: ls =>
    (routineBody? head ls).or (if bare l = head then braced? (leadingSpaces l) ls else none)

theorem routineBody?_eq_none {head : List Char} {ls : List (List Char)}
    (h : ∀ l ∈ ls, bare l ≠ head) : routineBody? head ls = none := by
  induction ls with
  | nil => rfl
  | cons l ls ih =>
    rw [List.forall_mem_cons] at h
    rw [routineBody?, ih h.2, if_neg h.1]
    rfl

theorem routineBody?_append {head : List Char} {ls body : List (List Char)}
    (h : routineBody? head ls = some body) (before : List (List Char)) :
    routineBody? head (before ++ ls) = some body := by
  induction before with
  | nil => exact h
  | cons l before ih =>
    rw [List.cons_append, routineBody?, ih]
    rfl

/-- A line of a body is indented further than the brace that closes it. -/
theorem indent_ne_close (n : Nat) (l : List Char) : indent (n + 4) l ≠ indent n ['\x7d'] := by
  intro h
  have hlength := congrArg List.length h
  by_cases hl : l = []
  · rw [hl, indent_of_ne_nil (List.cons_ne_nil _ _), indent_nil] at hlength
    simp at hlength
  · rw [indent_of_ne_nil hl, indent_of_ne_nil (List.cons_ne_nil _ _)] at hlength
    simp only [List.length_append, List.length_replicate, List.length_cons, List.length_nil]
      at hlength
    omega

theorem braced?_routine (n : Nat) (body after : List (List Char)) :
    braced? n (indent n ['\x7b'] :: (body.map (indent (n + 4)) ++ indent n ['\x7d'] :: after)) =
      some (body.map (indent (n + 4))) := by
  have hbody : ∀ l ∈ body.map (indent (n + 4)), decide (l ≠ indent n ['\x7d']) = true := by
    intro l hl
    obtain ⟨l, -, rfl⟩ := List.mem_map.mp hl
    exact decide_eq_true (indent_ne_close n l)
  rw [braced?, if_pos ⟨rfl, List.mem_append_right _ List.mem_cons_self⟩,
    List.takeWhile_append_of_pos hbody, List.takeWhile_cons, if_neg (by simp), List.append_nil]

theorem routineBody?_routine {head : String} (hhead : Starts head) {body after : List (List Char)}
    (hbody : ∀ l ∈ body, bare l ≠ head.toList) (hafter : ∀ l ∈ after, bare l ≠ head.toList)
    (hbrace : bare ['\x7b'] ≠ head.toList ∧ bare ['\x7d'] ≠ head.toList) (n : Nat) :
    routineBody? head.toList ((routine head.toList body).map (indent n) ++ after) =
      some (body.map (indent (n + 4))) := by
  have hlines : (routine head.toList body).map (indent n) ++ after =
      indent n head.toList :: indent n ['\x7b'] ::
        (body.map (indent (n + 4)) ++ indent n ['\x7d'] :: after) := by
    simp [routine, Function.comp_def, indent_indent]
  have hrest : routineBody? head.toList (indent n ['\x7b'] ::
      (body.map (indent (n + 4)) ++ indent n ['\x7d'] :: after)) = none := by
    apply routineBody?_eq_none
    simp only [List.forall_mem_cons, List.forall_mem_append, List.forall_mem_map, bare_indent]
    exact ⟨hbrace.1, hbody, hbrace.2, hafter⟩
  have hdepth : leadingSpaces (indent n head.toList) = n := by
    rw [indent_of_ne_nil hhead.ne_nil, leadingSpaces_pad, hhead.leadingSpaces]
    rfl
  rw [hlines, routineBody?, hrest, bare_indent, if_pos hhead.bare, hdepth, braced?_routine]
  rfl

/-! ### Calls -/

/-- The words of a line that an opening parenthesis follows, with the word that was read up to
    here. -/
def calleesFrom (word : List Char) : List Char → List String
  | [] => []
  | c :: cs =>
    if Identifier.isWordChar c then calleesFrom (word ++ [c]) cs
    else if c = '(' ∧ word ≠ [] then String.ofList word :: calleesFrom [] cs
    else calleesFrom [] cs

/-- The names that a line calls. -/
def callees (line : List Char) : List String := calleesFrom [] line

theorem calleesFrom_word {w : List Char} (h : ∀ c ∈ w, Identifier.isWordChar c)
    (word rest : List Char) : calleesFrom word (w ++ rest) = calleesFrom (word ++ w) rest := by
  induction w generalizing word with
  | nil => rw [List.nil_append, List.append_nil]
  | cons c w ih =>
    rw [List.forall_mem_cons] at h
    rw [List.cons_append, calleesFrom, if_pos h.1, ih h.2, List.append_assoc, List.singleton_append]

theorem calleesFrom_eq_nil {l : List Char} (h : '(' ∉ l) (word : List Char) :
    calleesFrom word l = [] := by
  induction l generalizing word with
  | nil => rfl
  | cons c l ih =>
    rw [List.mem_cons, not_or] at h
    have hc : ¬ (c = '(' ∧ word ≠ []) := fun hc => h.1 hc.1.symm
    rw [calleesFrom, ih h.2, ih h.2, if_neg hc]
    exact ite_self []

theorem callees_indent (n : Nat) (l : List Char) : callees (indent n l) = callees l := by
  unfold indent
  split
  · rename_i hl
    rw [hl]
  · induction n with
    | zero => rfl
    | succ n ih => exact ih

/-! ### Load calls -/

/-- A call that hands the values under a key of the weight file to a setter. -/
structure LoadCall where
  setter : String
  /-- The type that the values are read as. -/
  element : String
  key : String
  deriving DecidableEq, Repr

/-- A line as a load call and nothing else; the key is the value of the literal. -/
def loadCall? (line : List Char) : Option LoadCall :=
  let call := bare line
  ((call.dropWhile Identifier.isWordChar).dropPrefix? "(ReadValues<".toList).bind fun argument =>
  ((argument.dropWhile Identifier.isWordChar).dropPrefix? ">(root, \"".toList).bind fun literal =>
  (scanLiteral literal).bind fun r =>
  if r.2 = "));".toList then
    some ⟨String.ofList (call.takeWhile Identifier.isWordChar),
      String.ofList (argument.takeWhile Identifier.isWordChar), String.ofList r.1⟩
  else none

section Words

variable {w : List Char} (hw : ∀ c ∈ w, Identifier.isWordChar c) {c : Char}
  (hc : Identifier.isWordChar c = false) (rest : List Char)

include hw hc

theorem takeWhile_word : (w ++ c :: rest).takeWhile Identifier.isWordChar = w := by
  rw [List.takeWhile_append_of_pos hw, List.takeWhile_cons, hc]
  simp

theorem dropWhile_word : (w ++ c :: rest).dropWhile Identifier.isWordChar = c :: rest := by
  rw [List.dropWhile_append_of_pos hw, List.dropWhile_cons, hc]
  simp

end Words

theorem loadCall?_indent (n : Nat) (l : List Char) : loadCall? (indent n l) = loadCall? l := by
  rw [loadCall?, bare_indent, loadCall?]

/-- A line whose first word no parenthesis follows is no load call. -/
theorem loadCall?_eq_none {line w rest : List Char} {c : Char} (hline : bare line = w ++ c :: rest)
    (hw : ∀ d ∈ w, Identifier.isWordChar d) (hc : Identifier.isWordChar c = false)
    (hne : c ≠ '(') : loadCall? line = none := by
  have hcall : "(ReadValues<".toList = '(' :: "ReadValues<".toList := by
    rw [String.toList_ofList, String.toList_ofList]
  have hdrop : (c :: rest).dropPrefix? ('(' :: "ReadValues<".toList) = none := by
    rw [List.dropPrefix?, if_neg (by simpa using hne)]
  rw [loadCall?, hline, dropWhile_word hw hc, hcall, hdrop]
  rfl

theorem isWord_setter {symbol : String} (h : Identifier.isWord symbol) :
    Identifier.isWord (Identifier.setter symbol) :=
  Identifier.isWord_append rfl (Identifier.wordChar_lowercase h)

theorem loadCall?_loadText {v : LeafValue} (h : Identifier.isWord v.symbol) :
    loadCall? (loadText v).toList =
      some ⟨Identifier.setter v.symbol, typeName v.source, v.uid⟩ := by
  have hsetter := Identifier.wordChar_of_isWord (isWord_setter h)
  have htype := Identifier.wordChar_of_isWord (isWord_typeName v.source)
  have hread : "(ReadValues<".toList = '(' :: "ReadValues<".toList := by
    rw [String.toList_ofList, String.toList_ofList]
  have hroot : ">(root, \"".toList = '>' :: "(root, \"".toList := by
    rw [String.toList_ofList, String.toList_ofList]
  have hend : "\"));".toList = '"' :: "));".toList := by
    rw [String.toList_ofList, String.toList_ofList]
  -- The line in the order in which it is read: a word, a type, and the rest of a literal.
  let literal := v.uid.toList.flatMap escapeChar ++ '"' :: "));".toList
  let argument := (typeName v.source).toList ++ '>' :: ("(root, \"".toList ++ literal)
  have htext : (loadText v).toList =
      (Identifier.setter v.symbol).toList ++ '(' :: ("ReadValues<".toList ++ argument) := by
    simp only [loadText, String.toList_append, escapeLiteral, String.toList_ofList, hread, hroot,
      hend, List.append_assoc, List.cons_append, literal, argument]
  have hcall : ('(' :: ("ReadValues<".toList ++ argument)).dropPrefix? "(ReadValues<".toList =
      some argument := by
    rw [← List.cons_append, ← hread]
    exact List.dropPrefix?_append_of_beq _ (beq_self_eq_true _)
  have hkey : ('>' :: ("(root, \"".toList ++ literal)).dropPrefix? ">(root, \"".toList =
      some literal := by
    rw [← List.cons_append, ← hroot]
    exact List.dropPrefix?_append_of_beq _ (beq_self_eq_true _)
  have hscan : scanLiteral literal = some (v.uid.toList, "));".toList) := scanLiteral_escape _ _
  rw [loadCall?, (isLine_loadText h).starts.bare, htext, dropWhile_word hsetter (by decide), hcall,
    Option.bind_some, dropWhile_word htype (by decide), hkey, Option.bind_some, hscan,
    Option.bind_some, if_pos rfl, takeWhile_word hsetter (by decide),
    takeWhile_word htype (by decide), String.ofList_toList, String.ofList_toList,
    String.ofList_toList]

end Header

end EvaluatorGen
