import EvaluatorGen.CommandLine.Arguments
import Mathlib.Data.List.Induction

/-!
What the arguments ask for.

The words behind `compile` spell items: an option together with the word after it, whatever that
word is, or the path of a graph. What they ask for is said of the items, without reading the
words from the left.

1. `readCompile_items`: words that spell items are read as if the items were entered one by one.
   `foldl_enter`: then each option has the last value it was given.
2. `ofArgs_of_asks`, `exists_asks`: what asks for something is taken for that, and every list of
   arguments asks for something. So it asks for one thing, and the program does that one:
   `ofArgs_eq_iff`.
-/
namespace EvaluatorGen.CommandLine

/-! ### Items -/

/-- What an option of `compile` sets. -/
inductive Setting where
  | outDirectory
  | className
  | enclosing
  deriving DecidableEq

/-- The words for an option. -/
def Setting.flags : Setting → List String
  | .outDirectory => ["--out", "-o"]
  | .className => ["--class"]
  | .enclosing => ["--namespace"]

def helpFlags : List String := ["--help", "-h"]

/-- A word that is neither an option nor asks for help. -/
def IsPlain (word : String) : Prop := word ∉ helpFlags ∧ ∀ s : Setting, word ∉ s.flags

inductive Item where
  | setting (s : Setting) (value : String)
  | graph (path : String)

/-- The graph path of an item. -/
def Item.graph? : Item → Option String
  | .setting .. => none
  | .graph path => some path

/-- The value that an item gives to a setting. -/
def Item.value? (s : Setting) : Item → Option String
  | .setting s' value => if s' = s then some value else none
  | .graph _ => none

def graphs (items : List Item) : List String := items.filterMap Item.graph?

/-- The last value that items give to a setting. -/
def lastValue (s : Setting) (default : String) (items : List Item) : String :=
  (items.filterMap (Item.value? s)).getLast?.getD default

/-- Words that spell items. The word behind an option is its value, whatever it is. -/
inductive Spells : List String → List Item → Prop
  | nil : Spells [] []
  | setting {s : Setting} {flag value : String} {words : List String} {items : List Item}
    (hflag : flag ∈ s.flags) (hrest : Spells words items) :
    Spells (flag :: value :: words) (.setting s value :: items)
  | graph {path : String} {words : List String} {items : List Item}
    (hpath : IsPlain path) (hrest : Spells words items) :
    Spells (path :: words) (.graph path :: items)

/-- What a list of arguments asks for. Words that spell items with at most one graph can be read
    to their end; then a compilation is asked for, unless there is no graph, or reading ends at a
    word for help, at an option without a value or at a second graph. -/
inductive Asks : List String → Command → Prop
  | nothing : Asks [] .help
  | help {word : String} {rest : List String} (hword : word ∈ helpFlags) :
    Asks (word :: rest) .help
  | unknown {word : String} {rest : List String} (hcompile : word ≠ "compile")
    (hhelp : word ∉ helpFlags) : Asks (word :: rest) (.unknown word)
  | request {words : List String} {items : List Item} {path : String}
    (hitems : Spells words items) (hgraph : graphs items = [path]) :
    Asks ("compile" :: words) (.compile {
      graphPath := path
      outDirectory := lastValue .outDirectory "." items
      naming := {
        className := lastValue .className "Evaluator" items
        enclosing := lastValue .enclosing "dnn" items } })
  | noGraph {words : List String} {items : List Item}
    (hitems : Spells words items) (hgraph : graphs items = []) :
    Asks ("compile" :: words) (.misuse .noGraph)
  | compileHelp {words : List String} {items : List Item} {word : String} {rest : List String}
    (hitems : Spells words items) (hgraphs : (graphs items).length ≤ 1)
    (hword : word ∈ helpFlags) : Asks ("compile" :: (words ++ word :: rest)) .compileHelp
  | missingValue {words : List String} {items : List Item} {s : Setting} {flag : String}
    (hitems : Spells words items) (hgraphs : (graphs items).length ≤ 1)
    (hflag : flag ∈ s.flags) :
    Asks ("compile" :: (words ++ [flag])) (.misuse (.missingValue flag))
  | secondGraph {words : List String} {items : List Item} {path word : String}
    {rest : List String} (hitems : Spells words items) (hgraph : graphs items = [path])
    (hword : IsPlain word) :
    Asks ("compile" :: (words ++ word :: rest)) (.misuse (.unexpectedArgument word))

theorem mem_helpFlags {word : String} : word ∈ helpFlags ↔ word = "--help" ∨ word = "-h" := by
  simp [helpFlags]

theorem graphs_cases {items : List Item} (h : (graphs items).length ≤ 1) :
    graphs items = [] ∨ ∃ path, graphs items = [path] := by
  rcases Nat.le_one_iff_eq_zero_or_eq_one.mp h with hnone | hone
  · exact .inl (List.length_eq_zero_iff.mp hnone)
  · exact .inr (List.length_eq_one_iff.mp hone)

theorem Spells.append {words words' : List String} {items items' : List Item}
    (h : Spells words items) (h' : Spells words' items') :
    Spells (words ++ words') (items ++ items') := by
  induction h with
  | nil => exact h'
  | setting hflag _ ih => exact .setting hflag ih
  | graph hpath _ ih => exact .graph hpath ih

theorem graphs_append (items items' : List Item) :
    graphs (items ++ items') = graphs items ++ graphs items' :=
  List.filterMap_append

theorem lastValue_cons (s : Setting) (default : String) (item : Item) (items : List Item) :
    lastValue s default (item :: items) = lastValue s ((item.value? s).getD default) items := by
  unfold lastValue
  cases hvalue : item.value? s with
  | none =>
    rw [List.filterMap_cons_none hvalue]
    rfl
  | some value =>
    rw [List.filterMap_cons_some hvalue, List.getLast?_cons]
    rfl

/-! ### One word -/

/-- The words read so far, and one more item. -/
def CompileWords.enter (p : CompileWords) : Item → CompileWords
  | .setting .outDirectory value => { p with outDirectory := value }
  | .setting .className value => { p with naming := { p.naming with className := value } }
  | .setting .enclosing value => { p with naming := { p.naming with enclosing := value } }
  | .graph path => { p with graphPath := some path }

section

variable {p : CompileWords} {s : Setting} {flag word path : String}

theorem option?_of_flag (h : flag ∈ s.flags) :
    option? flag = some fun p value => p.enter (.setting s value) := by
  cases s with
  | outDirectory =>
    have hflag : flag = "--out" ∨ flag = "-o" := by simpa [Setting.flags] using h
    rcases hflag with rfl | rfl <;> rfl
  | className =>
    cases List.mem_singleton.mp h
    rfl
  | enclosing =>
    cases List.mem_singleton.mp h
    rfl

theorem option?_of_help (h : word ∈ helpFlags) : option? word = none := by
  rcases mem_helpFlags.mp h with rfl | rfl <;> rfl

theorem option?_of_plain (h : IsPlain word) : option? word = none := by
  unfold option?
  split
  · exact absurd (by decide) (h.2 .outDirectory)
  · exact absurd (by decide) (h.2 .outDirectory)
  · exact absurd (by decide) (h.2 .className)
  · exact absurd (by decide) (h.2 .enclosing)
  · rfl

theorem flag_or_help_or_plain (word : String) :
    (∃ s : Setting, word ∈ s.flags) ∨ word ∈ helpFlags ∨ IsPlain word := by
  by_cases hflag : ∃ s : Setting, word ∈ s.flags
  · exact .inl hflag
  · by_cases hhelp : word ∈ helpFlags
    · exact .inr (.inl hhelp)
    · exact .inr (.inr ⟨hhelp, fun s hs => hflag ⟨s, hs⟩⟩)

theorem readCompile_setting (h : flag ∈ s.flags) (value : String) (rest : List String) :
    readCompile p (flag :: value :: rest) = readCompile (p.enter (.setting s value)) rest := by
  rw [readCompile, option?_of_flag h]

theorem readCompile_missing (h : flag ∈ s.flags) :
    readCompile p [flag] = .misuse (.missingValue flag) := by
  rw [readCompile, option?_of_flag h]
  rfl

theorem readCompile_help (h : word ∈ helpFlags) (rest : List String) :
    readCompile p (word :: rest) = .compileHelp := by
  have hword : word = "--help" ∨ word = "-h" := mem_helpFlags.mp h
  cases rest with
  | nil =>
    rw [readCompile, option?_of_help h]
    exact if_pos hword
  | cons next rest =>
    rw [readCompile, option?_of_help h]
    exact if_pos hword

theorem readCompile_graph (h : IsPlain path) (hnone : p.graphPath = none) (rest : List String) :
    readCompile p (path :: rest) = readCompile (p.enter (.graph path)) rest := by
  have hword : ¬ (path = "--help" ∨ path = "-h") := fun hx => h.1 (mem_helpFlags.mpr hx)
  cases rest with
  | nil =>
    conv_lhs => rw [readCompile, option?_of_plain h]
    rw [Option.isSome_none, if_neg Bool.false_ne_true, if_neg hword, hnone]
    rfl
  | cons next rest =>
    rw [readCompile, option?_of_plain h]
    dsimp only
    rw [if_neg hword, hnone]
    rfl

theorem readCompile_second (h : IsPlain word) (hsome : p.graphPath = some path)
    (rest : List String) :
    readCompile p (word :: rest) = .misuse (.unexpectedArgument word) := by
  have hword : ¬ (word = "--help" ∨ word = "-h") := fun hx => h.1 (mem_helpFlags.mpr hx)
  cases rest with
  | nil =>
    rw [readCompile, option?_of_plain h, Option.isSome_none, if_neg Bool.false_ne_true,
      if_neg hword, hsome]
  | cons next rest =>
    rw [readCompile, option?_of_plain h]
    dsimp only
    rw [if_neg hword, hsome]

end

/-! ### All words -/

/-- Words that spell items are read item by item, if they hold no second graph. -/
theorem readCompile_items {words : List String} {items : List Item} (h : Spells words items)
    {p : CompileWords} (hgraphs : p.graphPath.toList.length + (graphs items).length ≤ 1)
    (rest : List String) :
    readCompile p (words ++ rest) = readCompile (items.foldl CompileWords.enter p) rest := by
  induction h generalizing p with
  | nil => rfl
  | @setting s flag value words items hflag _ ih =>
    have hsame : (p.enter (.setting s value)).graphPath = p.graphPath := by cases s <;> rfl
    rw [List.cons_append, List.cons_append, readCompile_setting hflag]
    refine ih ?_
    rw [hsame]
    exact hgraphs
  | @graph path words items hpath _ ih =>
    have hcons : graphs (.graph path :: items) = path :: graphs items := rfl
    rw [hcons, List.length_cons] at hgraphs
    cases hnone : p.graphPath with
    | none =>
      rw [List.cons_append, readCompile_graph hpath hnone]
      refine ih ?_
      rw [hnone] at hgraphs
      have hone : ((p.enter (.graph path)).graphPath.toList).length = 1 := rfl
      have hzero : (none : Option String).toList.length = 0 := rfl
      omega
    | some g =>
      rw [hnone] at hgraphs
      have hone : (some g).toList.length = 1 := rfl
      omega

/-- Entered one by one, the items leave the last graph and the last value of each setting. -/
theorem foldl_enter (items : List Item) (p : CompileWords) :
    items.foldl CompileWords.enter p = {
      graphPath := (graphs items).getLast?.or p.graphPath
      outDirectory := lastValue .outDirectory p.outDirectory items
      naming := {
        className := lastValue .className p.naming.className items
        enclosing := lastValue .enclosing p.naming.enclosing items } } := by
  induction items generalizing p with
  | nil => rfl
  | cons item items ih =>
    rw [List.foldl_cons, ih, lastValue_cons, lastValue_cons, lastValue_cons]
    cases item with
    | setting s value => cases s <;> rfl
    | graph path =>
      have hcons : graphs (.graph path :: items) = path :: graphs items := rfl
      rw [hcons, List.getLast?_cons]
      cases (graphs items).getLast? <;> rfl

theorem ofArgs_compile {words : List String} {items : List Item} (hitems : Spells words items)
    (hgraphs : (graphs items).length ≤ 1) (rest : List String) :
    Command.ofArgs ("compile" :: (words ++ rest)) =
      readCompile (items.foldl CompileWords.enter {}) rest :=
  readCompile_items hitems ((Nat.zero_add _).symm ▸ hgraphs) rest

theorem ofArgs_unknown {word : String} (hcompile : word ≠ "compile") (hhelp : word ∉ helpFlags)
    (rest : List String) : Command.ofArgs (word :: rest) = .unknown word := by
  unfold Command.ofArgs
  split
  · rename_i hnil
    cases hnil
  · rename_i heq
    cases heq
    exact absurd (by decide) hhelp
  · rename_i heq
    cases heq
    exact absurd (by decide) hhelp
  · rename_i heq
    cases heq
    exact absurd rfl hcompile
  · rename_i heq
    cases heq
    rfl

/-- A list of arguments that asks for something is taken for just that. -/
theorem ofArgs_of_asks {args : List String} {c : Command} (h : Asks args c) :
    Command.ofArgs args = c := by
  have hone : ∀ {items : List Item} {path}, graphs items = [path] → (graphs items).length ≤ 1 :=
    fun hgraph => Nat.le_of_eq (congrArg List.length hgraph)
  cases h with
  | nothing => rfl
  | help hword => rcases mem_helpFlags.mp hword with rfl | rfl <;> rfl
  | unknown hcompile hhelp => exact ofArgs_unknown hcompile hhelp _
  | @request words items path hitems hgraph =>
    rw [← List.append_nil words, ofArgs_compile hitems (hone hgraph), foldl_enter, hgraph]
    rfl
  | @noGraph words items hitems hgraph =>
    rw [← List.append_nil words, ofArgs_compile hitems (by rw [hgraph]; exact Nat.zero_le 1),
      foldl_enter, hgraph]
    rfl
  | compileHelp hitems hgraphs hword =>
    rw [ofArgs_compile hitems hgraphs, readCompile_help hword]
  | missingValue hitems hgraphs hflag =>
    rw [ofArgs_compile hitems hgraphs, readCompile_missing hflag]
  | secondGraph hitems hgraph hword =>
    rw [ofArgs_compile hitems (hone hgraph), foldl_enter, hgraph]
    exact readCompile_second hword rfl _

/-- Behind words that spell items with at most one graph, whatever follows asks for something. -/
theorem exists_asks_compile {words : List String} {items : List Item} (hitems : Spells words items)
    (hgraphs : (graphs items).length ≤ 1) (rest : List String) :
    ∃ c, Asks ("compile" :: (words ++ rest)) c := by
  -- A value takes two words, so the induction goes in steps of one word and of two.
  induction rest using List.twoStepInduction generalizing words items with
  | nil =>
    rw [List.append_nil]
    rcases graphs_cases hgraphs with hnone | ⟨path, hgraph⟩
    · exact ⟨_, .noGraph hitems hnone⟩
    · exact ⟨_, .request hitems hgraph⟩
  | singleton word =>
    rcases flag_or_help_or_plain word with ⟨s, hflag⟩ | hhelp | hplain
    · exact ⟨_, .missingValue hitems hgraphs hflag⟩
    · exact ⟨_, .compileHelp hitems hgraphs hhelp⟩
    · rcases graphs_cases hgraphs with hnone | ⟨path, hgraph⟩
      · have hone : graphs (items ++ [.graph word]) = [word] := by
          rw [graphs_append, hnone]
          rfl
        exact ⟨_, .request (hitems.append (.graph hplain .nil)) hone⟩
      · exact ⟨_, .secondGraph hitems hgraph hplain⟩
  | cons_cons word next rest ihRest ihNext =>
    rcases flag_or_help_or_plain word with ⟨s, hflag⟩ | hhelp | hplain
    · have hsame : graphs (items ++ [.setting s next]) = graphs items := by
        rw [graphs_append]
        exact List.append_nil _
      have hasks := ihRest (hitems.append (.setting hflag .nil)) (by rw [hsame]; exact hgraphs)
      rwa [List.append_assoc] at hasks
    · exact ⟨_, .compileHelp hitems hgraphs hhelp⟩
    · rcases graphs_cases hgraphs with hnone | ⟨path, hgraph⟩
      · have hone : (graphs (items ++ [.graph word])).length ≤ 1 := by
          rw [graphs_append, hnone]
          exact Nat.le_refl 1
        have hasks := ihNext next (hitems.append (.graph hplain .nil)) hone
        rwa [List.append_assoc] at hasks
      · exact ⟨_, .secondGraph hitems hgraph hplain⟩

theorem exists_asks (args : List String) : ∃ c, Asks args c := by
  cases args with
  | nil => exact ⟨_, .nothing⟩
  | cons word rest =>
    by_cases hhelp : word ∈ helpFlags
    · exact ⟨_, .help hhelp⟩
    · by_cases hcompile : word = "compile"
      · subst hcompile
        exact exists_asks_compile .nil (Nat.zero_le 1) rest
      · exact ⟨_, .unknown hcompile hhelp⟩

/-- The program takes its arguments for what they ask for. -/
theorem ofArgs_eq_iff {args : List String} {c : Command} :
    Command.ofArgs args = c ↔ Asks args c := by
  constructor
  · intro h
    obtain ⟨c', hasks⟩ := exists_asks args
    rw [← h, ofArgs_of_asks hasks]
    exact hasks
  · exact ofArgs_of_asks

end EvaluatorGen.CommandLine
