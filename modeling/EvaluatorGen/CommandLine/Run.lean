import EvaluatorGen.CommandLine.Arguments
import EvaluatorGen.CommandLine.FileTree
import EvaluatorGen.Graph.Document
import EvaluatorGen.Header.Basic
import EvaluatorGen.Weights.Text

/-!
Running the program.

`compile` reads a graph file, prepares its artifacts, and only then writes: the header, and
the weight file if a leaf carries a value. Everything is reported on standard error, and
standard output stays empty.
-/
namespace EvaluatorGen.CommandLine

/-- How a run ends: the exit status and the text on standard error. -/
structure Outcome where
  status : UInt32
  report : String
  deriving DecidableEq, Repr

/-- What is written for a graph. -/
structure Artifacts where
  headerName : String
  source : String
  /-- The text of the weight file and how writing it ends; none if no leaf carries a value. -/
  weights : Option (Except WeightError Unit × String)

/-- Why a graph file has no artifacts. -/
inductive Refusal where
  | parse (fault : Json.Fault)
  | lower (e : CompileError)
  | extract (e : WeightError)
  | overflow (o : Overflow)
  deriving DecidableEq, Repr

def Refusal.ofGenerate : GenerateError → Refusal
  | .compile e => .lower e
  | .overflow o => .overflow o

def Refusal.ofWeights : WeightError → Refusal
  | .overflow o => .overflow o
  | e => .extract e

/-- The artifacts of a graph file. -/
def prepare (text : String) (naming : Naming) : Except Refusal Artifacts := do
  let graph ← (Graph.read text).mapError .parse
  let generated ← (graph.generate naming).mapError .ofGenerate
  let weights ← (Weights.ofGraph graph).mapError .ofWeights
  return {
    headerName := generated.plan.headerName
    source := generated.source
    weights := if weights.isEmpty then none else some weights.toText }

def fail (what : String) : Outcome := ⟨1, "Error: " ++ what ++ "\n"⟩

def failFile (what path : String) (e : FileError) : Outcome :=
  fail (what ++ " " ++ path ++ ": " ++ e.message)

/-- An overflow ends the program with a status of its own. -/
def Refusal.outcome (graphPath : String) : Refusal → Outcome
  | .parse _ => fail ("parsing " ++ graphPath)
  | .lower e => fail ("lowering graph: " ++ e.message)
  | .extract e => fail ("extracting weights: " ++ e.message)
  | .overflow o => ⟨101, o.message ++ "\n"⟩

section

variable {m : Type → Type} [Monad m]

/-- Write the artifacts to a directory, which is made if it is not there. -/
def writeArtifacts (files : Files m) (directory : String) (a : Artifacts) : m Outcome := do
  let headerPath := TreePath.join directory a.headerName
  let weightsPath := TreePath.join directory "weights.json"
  match ← files.makeDirectory directory with
  | .error e => return failFile "creating" directory e
  | .ok () =>
    match ← files.write headerPath a.source with
    | .error e => return failFile "writing" headerPath e
    | .ok () =>
      match a.weights with
      | none => return ⟨0, "Generated " ++ headerPath ++ "\n"⟩
      | some (result, text) =>
        match ← files.write weightsPath text, result with
        | .error e, _ => return failFile "creating" weightsPath e
        | .ok (), .error e => return fail ("writing " ++ weightsPath ++ ": " ++ e.message)
        | .ok (), .ok () =>
          return ⟨0, "Generated " ++ headerPath ++ " and " ++ weightsPath ++ "\n"⟩

def compile (files : Files m) (r : CompileRequest) : m Outcome := do
  match ← files.read r.graphPath with
  | .error e => return failFile "reading" r.graphPath e
  | .ok text =>
    match prepare text r.naming with
    | .error refusal => return refusal.outcome r.graphPath
    | .ok artifacts => writeArtifacts files r.outDirectory artifacts

/-- Run the program on its arguments. -/
def run (files : Files m) (args : List String) : m Outcome :=
  match Command.ofArgs args with
  | .help => return ⟨0, helpText⟩
  | .unknown word => return ⟨1, unknownText word⟩
  | .compileHelp => return ⟨0, compileHelpText⟩
  | .misuse reason => return ⟨1, reason.text⟩
  | .compile request => compile files request

end

end EvaluatorGen.CommandLine
