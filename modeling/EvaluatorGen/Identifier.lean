/-!
Identifiers of the generated class.

Every name that the class declares for a node is made from the node's symbol by one of the
functions below, so the pipeline body, the members and the accessors agree on it.
-/
namespace EvaluatorGen.Identifier

/-- The characters of an identifier after its first: ASCII letters, digits and `_`. -/
def isWordChar (c : Char) : Bool :=
  c.isAlphanum || c == '_'

/-- A uid or a display name as an identifier: characters outside `[A-Za-z0-9_]` become `_`,
    and a `_` is put in front of an empty text or a leading digit. -/
def ofText (raw : String) : String :=
  match raw.toList.map (fun c => if isWordChar c then c else '_') with
  | [] => "_"
  | c :: cs => String.ofList (if c.isDigit then '_' :: c :: cs else c :: cs)

/-- ASCII letters in lower case. -/
def lowercase (symbol : String) : String :=
  String.ofList (symbol.toList.map Char.toLower)

/-- The member that stores a leaf's values. -/
def storage (symbol : String) : String := "m_" ++ symbol

/-- The member that stores the scale step of a quantized leaf. -/
def step (symbol : String) : String := "m_step_" ++ symbol

/-- The buffer view over a leaf's storage. -/
def buffer (symbol : String) : String := "b_" ++ symbol

/-- The stage that reads a quantized leaf's storage. -/
def viewStage (symbol : String) : String := "f_" ++ symbol

/-- The stage that reads a quantized leaf's scale step. -/
def stepStage (symbol : String) : String := "f_step_" ++ symbol

def getter (symbol : String) : String := "get_" ++ lowercase symbol

def setter (symbol : String) : String := "set_" ++ lowercase symbol

/-- The member that holds the history buffers of a recurrent input. -/
def history (name : String) : String := "m_buffer" ++ name

/-- The pipeline parameter bound to one buffer of a recurrent input's history. -/
def historyParam (name : String) : String := "m_" ++ name

/-- The identifiers that every generated class declares or refers to. -/
def fixed : List String :=
  ["var1", "var2", "timestep", "root", "slot", "weightFilePath", "m_graph", "m_graphInitialized",
   "create_eval_graph", "init", "Evaluate", "ReadValues", "Halide", "std", "boost", "auto", "bool",
   "char", "class", "const", "double", "float", "int", "return", "short", "static", "template",
   "void"]

end EvaluatorGen.Identifier
