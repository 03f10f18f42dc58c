import EvaluatorGen.Header.Code
import EvaluatorGen.Identifier
import EvaluatorGen.Text.Block

/-!
The three public routines of the generated class.

1. `create_eval_graph` builds the pipeline from its inputs.
2. `init` reads the leaves from a weight file and allocates the histories.
3. `Evaluate` builds the pipeline once, binds each recurrent input to the buffer of its history
   that was written `offset` steps ago, and realizes the outputs.

A history of `n` buffers is used as a ring: step `t` writes buffer `t % n`.
-/
namespace EvaluatorGen.Header

open Text (reindent)

/-- A block of code as it stands in a template: behind an empty line, with `levels` of
    indentation, and before a blank line. -/
def setOff (levels : Nat) (code : List String) : String :=
  let pad := String.ofList (List.replicate (4 * levels) ' ')
  "\n" ++ String.join (code.map fun line => pad ++ line ++ "\n") ++ pad

def imageParam (name : String) : String := "const Halide::ImageParam& " ++ name

/-! ### Building the pipeline -/

def builderSignature (names : List String) : String :=
  "Halide::Pipeline create_eval_graph(" ++ commaList (names.map imageParam) ++ ")"

def indexVariables : String := "Halide::Var var1, var2;"

/-- What is returned: values, each with the name of its output. -/
def returnText (results : List (String × String)) : String :=
  "return Halide::Pipeline(\x7b " ++
    commaList (results.map fun r => r.1 ++ " /*" ++ r.2 ++ "*/") ++ " \x7d);"

def results (p : Plan) : List (String × String) := p.outputs.map fun o => (o.value, o.name)

def builder (p : Plan) : String :=
  reindent 0 (builderSignature (p.inputs.map InputBinding.name)) ++
  reindent 0 "\x7b" ++
  reindent 1 indexVariables ++
  String.join (p.body.map fun s => reindent 1 (stmtText s)) ++
  reindent 1 (returnText (results p)) ++
  reindent 0 "\x7d"

/-! ### Loading the weights -/

def initHead : String := "void init(const std::string& weightFilePath)"

/-- The code of `init` before the first leaf is read. -/
def openCode : List String :=
  ["boost::property_tree::ptree root;", "boost::property_tree::read_json(weightFilePath, root);"]

/-- How `init` begins, up to the first leaf. -/
def openText : String :=
  setOff 2 (initHead :: "\x7b" :: openCode.map fun line => "    " ++ line)

/-- The call that hands the values of one leaf to its setter. -/
def loadText (v : LeafValue) : String :=
  Identifier.setter v.symbol ++ "(ReadValues<" ++ typeName v.source ++ ">(root, \"" ++
    Text.escapeLiteral v.uid ++ "\"));"

/-- The code that makes the buffers of one history. -/
def bufferCode (history : String) (length : Nat) (element : ScalarType) (dims : List UInt64) :
    List String :=
  [history ++ ".resize(" ++ length.repr ++ ");",
   "for (auto& slot : " ++ history ++ ")",
   "    slot = Halide::Buffer<" ++ typeName element ++ ">(" ++ dimsText dims ++ ");"]

/-- The code that allocates the history of an input. -/
def allocateCode (i : InputBinding) (slot : RecurrentSlot) : List String :=
  bufferCode (Identifier.history i.name) slot.length i.element slot.dims

def allocateText (i : InputBinding) (slot : RecurrentSlot) : String :=
  setOff 4 (allocateCode i slot)

def loader (p : Plan) : String :=
  reindent 0 openText ++
  String.join (p.values.map fun v => reindent 1 (loadText v)) ++
  String.join (p.recurrentInputs.map fun r => reindent 1 (allocateText r.1 r.2)) ++
  reindent 0 "\x7d"

/-! ### Evaluating one step -/

/-- The step number if there is a history, the immediate inputs, then the immediate outputs. -/
def stepParams (timed : Bool) (inputs : List String) (outputs : List (ScalarType × String)) :
    List String :=
  (if timed then ["int timestep"] else []) ++
  inputs.map imageParam ++
  outputs.map fun o => "Halide::Buffer<" ++ typeName o.1 ++ ">& " ++ o.2

def evaluateParams (p : Plan) : List String :=
  stepParams p.hasRecurrence (p.immediateInputs.map InputBinding.name)
    (p.immediateOutputs.map fun o => (o.element, o.name))

def evaluateSignature (params : List String) : String := "void Evaluate(" ++ commaList params ++ ")"

/-- What is passed for an input when the pipeline is built. -/
def buildArg (i : InputBinding) : String :=
  if i.recurrence.isSome then Identifier.historyParam i.name else i.name

/-- The number of buffers behind the input of a name; one where it has no history. -/
def historyLength (p : Plan) (name : String) : Nat :=
  match (p.input? name).bind (·.recurrence) with
  | some slot => slot.length
  | none => 1

/-- Where an output is realized: into a parameter, or into the buffer of this step. -/
def realizeTarget (p : Plan) (o : OutputBinding) : String :=
  match o.feeds with
  | none => o.name
  | some target =>
    Identifier.history target ++ "[timestep % " ++ (historyLength p target).repr ++ "]"

/-- The call that binds a parameter to a buffer. -/
def setText (param buffer : String) : String := param ++ ".set(" ++ buffer ++ ");"

/-- The buffer written `offset` steps ago. The remainder of a negative number is not positive,
    so the length is added before the second one. -/
def readBuffer (i : InputBinding) (slot : RecurrentSlot) : String :=
  let length := slot.length.repr
  Identifier.history i.name ++ "[((timestep - " ++ slot.offset.toNat.repr ++ ") % " ++ length ++
    " + " ++ length ++ ") % " ++ length ++ "]"

def bindText (i : InputBinding) (slot : RecurrentSlot) : String :=
  setText (Identifier.historyParam i.name) (readBuffer i slot)

/-- Realize every output, in the order in which the pipeline returns them. -/
def realizeCall (targets : List String) : String :=
  "m_graph.realize(\x7b " ++ commaList targets ++ " \x7d);"

def realizeText (p : Plan) : String := realizeCall (p.outputs.map (realizeTarget p))

/-- The code that builds the pipeline before the first step. -/
def buildCode (arguments : List String) : List String :=
  ["if (!m_graphInitialized)",
   "\x7b",
   "    m_graph = create_eval_graph(" ++ commaList arguments ++ ");",
   "    m_graphInitialized = true;",
   "\x7d"]

def buildOnce (arguments : List String) : String := setOff 3 (buildCode arguments)

def evaluate (p : Plan) : String :=
  reindent 0 (evaluateSignature (evaluateParams p)) ++
  reindent 0 "\x7b" ++
  reindent 1 (buildOnce (p.inputs.map buildArg)) ++
  String.join (p.recurrentInputs.map fun r => reindent 1 (bindText r.1 r.2)) ++
  reindent 1 (realizeText p) ++
  reindent 0 "\x7d"

end EvaluatorGen.Header
