import EvaluatorGen.Header.Code
import EvaluatorGen.Identifier

/-!
Members of the generated class: the accessors and the storage of each leaf, the histories of
the recurrent inputs, and what every class has.
-/
namespace EvaluatorGen.Header

def getterText (v : LeafValue) : String :=
  "const std::vector<" ++ typeName v.storageType ++ ">& " ++ Identifier.getter v.symbol ++
    "() const \x7b return " ++ Identifier.storage v.symbol ++ "; \x7d"

/-- The setter takes values of the source type; that of a quantized leaf quantizes them. -/
def setterText (v : LeafValue) : String :=
  "void " ++ Identifier.setter v.symbol ++ "(std::vector<" ++ typeName v.source ++ ">&& v) \x7b " ++
  (match v.storage with
  | .plain => Identifier.storage v.symbol ++ " = std::move(v);"
  | .quantized _ reservedBits =>
    "auto r = Quantize<" ++ typeName v.source ++ ", " ++ typeName v.storageType ++ ">(v, " ++
      reservedBits.toNat.repr ++ "); " ++ Identifier.storage v.symbol ++ " = r.first; " ++
      Identifier.step v.symbol ++ " = r.second;") ++
  " \x7d"

def accessors (v : LeafValue) : List String :=
  [getterText v, setterText v]

def storageMembers (v : LeafValue) : List String :=
  ("std::vector<" ++ typeName v.storageType ++ "> " ++ Identifier.storage v.symbol ++ ";") ::
  match v.storage with
  | .plain => []
  | .quantized _ _ => [typeName v.source ++ " " ++ Identifier.step v.symbol ++ ";"]

/-- The history of a recurrent input, and the parameter bound to one of its buffers. -/
def historyMembers (i : InputBinding) (slot : RecurrentSlot) : List String :=
  ["std::vector<Halide::Buffer<" ++ typeName i.element ++ ">> " ++ Identifier.history i.name ++ ";",
   "Halide::ImageParam " ++ Identifier.historyParam i.name ++ " \x7b Halide::type_of<" ++
     typeName i.element ++ ">(), " ++ slot.dims.length.repr ++ " \x7d;"]

/-- The routine that reads the values of one leaf from the weight file. -/
def readValues : String :=
  "\n".intercalate
    ["template <typename T>",
     "static std::vector<T> ReadValues(const boost::property_tree::ptree& root, " ++
       "const std::string& name)",
     "\x7b",
     "    std::vector<T> result;",
     "    for (auto& v : root.get_child(boost::property_tree::ptree::path_type(name, '\\0')))",
     "        result.push_back(v.second.get_value<T>());",
     "    return result;",
     "\x7d"]

def fixedMembers : List String :=
  ["Halide::Pipeline m_graph;", "bool m_graphInitialized \x7bfalse\x7d;", readValues]

end EvaluatorGen.Header
