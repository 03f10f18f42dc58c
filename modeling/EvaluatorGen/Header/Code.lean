import EvaluatorGen.Plan.Basic
import EvaluatorGen.Text.Literal

/-!
Types, expressions and statements as they are printed. Each statement is one line, as long as
no name in it holds a newline.
-/
namespace EvaluatorGen.Header

def commaList (items : List String) : String := ", ".intercalate items

def typeName : ScalarType → String
  | .float => "float"
  | .double => "double"
  | .int8 => "char"
  | .int16 => "short"

def calleeName : Callee → String
  | .plus => "Plus"
  | .minus => "Minus"
  | .elementTimes => "ElementTimes"
  | .log => "Log"
  | .tanh => "Tanh"
  | .sigmoid type => "Sigmoid<" ++ typeName type ++ ">"
  | .vectorByMatrixTimes => "VectorByMatrixTimes"
  | .vectorByMatrixTimesQuantized => "VectorByMatrixTimesQuantized"
  | .slice => "Slice"
  | .splice => "Splice"
  | .quantize source target => "Quantize<" ++ typeName source ++ ", " ++ typeName target ++ ">"

mutual

def exprText : Expr → String
  | .ref name => name
  | .int n => n.toInt.repr
  | .call callee args => calleeName callee ++ "(" ++ commaList (argTexts args) ++ ")"

def argTexts : List Expr → List String
  | [] => []
  | e :: es => exprText e :: argTexts es

end

def varsText : IndexVars → String
  | .one => "var1"
  | .two => "var1, var2"

def dimsText (dims : List UInt64) : String :=
  commaList (dims.map fun n => n.toNat.repr)

/-- The definition of a stage. -/
def definitionText (name : String) : FuncDef → String
  | .indexed vars buffer =>
    name ++ "(" ++ varsText vars ++ ") = " ++ buffer ++ "(" ++ varsText vars ++ ");"
  | .scalar memberName => name ++ "() = " ++ memberName ++ ";"
  | .expr value => name ++ " = " ++ exprText value ++ ";"

def stmtText : Stmt → String
  | .bufferView name element storage dims label =>
    "auto " ++ name ++ " = Halide::Buffer<" ++ typeName element ++ ">(" ++ storage ++ ".data(), " ++
      dimsText dims ++ ", \"" ++ Text.escapeLiteral label ++ "\");"
  | .func name definition =>
    "Halide::Func " ++ name ++ "(\"" ++ name ++ "\"); " ++ definitionText name definition
  | .funcPair name view step =>
    "std::vector<Halide::Func> " ++ name ++ " \x7b " ++ commaList [view, step] ++ " \x7d;"
  | .funcGroup name value =>
    "std::vector<Halide::Func> " ++ name ++ "; " ++ name ++ " = " ++ exprText value ++ ";"
  | .computeRoot func => func ++ ".compute_root();"

end EvaluatorGen.Header
