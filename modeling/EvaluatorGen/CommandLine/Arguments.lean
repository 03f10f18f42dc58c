import EvaluatorGen.Lowering.Walk

/-!
The arguments of the program and its help texts.

The first word is a subcommand. The words behind `compile` are options, each of which takes
the next word whatever it is, and one graph file.
-/
namespace EvaluatorGen.CommandLine

/-- What `compile` is asked to do. -/
structure CompileRequest where
  graphPath : String
  outDirectory : String
  naming : Naming
  deriving DecidableEq, Repr

/-- Why the words behind `compile` are refused. -/
inductive Misuse where
  | missingValue (option : String)
  | unexpectedArgument (word : String)
  | noGraph
  deriving DecidableEq, Repr

inductive Command where
  | help
  | unknown (word : String)
  | compileHelp
  | misuse (reason : Misuse)
  | compile (request : CompileRequest)
  deriving DecidableEq, Repr

/-- The words behind `compile` that have been read. -/
structure CompileWords where
  graphPath : Option String := none
  outDirectory : String := "."
  naming : Naming := {}
  deriving DecidableEq, Repr

/-- What an option does with its value. -/
def option? : String → Option (CompileWords → String → CompileWords)
  | "--out" | "-o" => some fun p v => { p with outDirectory := v }
  | "--class" => some fun p v => { p with naming := { p.naming with className := v } }
  | "--namespace" => some fun p v => { p with naming := { p.naming with enclosing := v } }
  | _ => none

/-- Read the words behind `compile` from the left. -/
def readCompile (p : CompileWords) : List String → Command
  | [] =>
    match p.graphPath with
    | some graphPath => .compile ⟨graphPath, p.outDirectory, p.naming⟩
    | none => .misuse .noGraph
  | [word] =>
    if (option? word).isSome then .misuse (.missingValue word)
    else if word = "--help" ∨ word = "-h" then .compileHelp
    else match p.graphPath with
      | none => .compile ⟨word, p.outDirectory, p.naming⟩
      | some _ => .misuse (.unexpectedArgument word)
  | word :: next :: rest =>
    match option? word with
    | some take => readCompile (take p next) rest
    | none =>
      if word = "--help" ∨ word = "-h" then .compileHelp
      else match p.graphPath with
        | none => readCompile { p with graphPath := some word } (next :: rest)
        | some _ => .misuse (.unexpectedArgument word)

def Command.ofArgs : List String → Command
  | [] => .help
  | "--help" :: _ | "-h" :: _ => .help
  | "compile" :: rest => readCompile {} rest
  | word :: _ => .unknown word

/-! ### Texts -/

def lineTexts (ls : List String) : String :=
  String.join (ls.map (· ++ "\n"))

def compileUsage : String :=
  "halide-codegen compile <graph.json> [-o <dir>] [--class <name>] [--namespace <name>]"

def helpText : String := lineTexts
  ["halide-codegen: model graph to Halide evaluator compiler",
   "",
   "Usage:",
   "  " ++ compileUsage,
   "",
   "Subcommands:",
   "  compile   Generate an evaluator header and its weight file"]

def compileHelpText : String := lineTexts
  ["Usage: " ++ compileUsage,
   "",
   "Compile a graph description into a Halide C++ evaluator class.",
   "",
   "Options:",
   "  -o, --out <DIR>         Output directory (default: current directory)",
   "      --class <NAME>      Generated class name (default: Evaluator)",
   "      --namespace <NAME>  Enclosing namespace (default: dnn)"]

def Misuse.text : Misuse → String
  | .missingValue option =>
    lineTexts ["Missing value for " ++ option, "Usage: " ++ compileUsage]
  | .unexpectedArgument word =>
    lineTexts ["Unexpected argument: " ++ word, "Usage: " ++ compileUsage]
  | .noGraph => lineTexts ["Usage: " ++ compileUsage]

def unknownText (word : String) : String :=
  lineTexts ["error: unknown subcommand '" ++ word ++ "'", ""] ++ helpText

end EvaluatorGen.CommandLine
