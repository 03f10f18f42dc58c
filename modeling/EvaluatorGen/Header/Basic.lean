import EvaluatorGen.Header.Members
import EvaluatorGen.Header.Routines
import EvaluatorGen.Lowering.Walk

/-!
The header of an evaluator: one class in one namespace, behind the includes that it needs.
-/
namespace EvaluatorGen

namespace Header

open Text (reindent)

def includes : String :=
  "#pragma once\n" ++
  "#include <string>\n" ++
  "#include <vector>\n" ++
  "#include \"HalideDNNLib.h\"\n" ++
  "#include <boost/property_tree/ptree.hpp>\n" ++
  "#include <boost/property_tree/json_parser.hpp>\n"

def publicMembers (p : Plan) : List String :=
  p.values.flatMap accessors ++ [builder p, loader p, evaluate p]

def privateMembers (p : Plan) : List String :=
  p.values.flatMap storageMembers ++
  p.recurrentInputs.flatMap (fun r => historyMembers r.1 r.2) ++
  fixedMembers

/-- One section of a class. -/
def sectionText (label : String) (members : List String) : String :=
  reindent 0 label ++ String.join (members.map (reindent 1))

def classText (p : Plan) : String :=
  reindent 0 ("class " ++ p.className ++ " final") ++
  reindent 0 "\x7b" ++
  sectionText "public:" (publicMembers p) ++
  sectionText "private:" (privateMembers p) ++
  reindent 0 "\x7d;"

def namespaceText (p : Plan) : String :=
  reindent 0 ("namespace " ++ p.enclosing) ++
  reindent 0 "\x7b" ++
  reindent 0 (classText p) ++
  reindent 0 "\x7d"

end Header

namespace Plan

/-- The file name of the header. -/
def headerName (p : Plan) : String := p.className ++ ".h"

/-- The text of the header. The length of every history is printed, and must be a size. -/
def render (p : Plan) : Except Overflow String := do
  p.recurrentInputs.forM fun r => checkedSize r.2.length
  return Header.includes ++ "\n" ++ Header.namespaceText p

end Plan

/-- Why a graph has no header. -/
inductive GenerateError where
  | compile (e : CompileError)
  | overflow (o : Overflow)
  deriving DecidableEq, Repr

/-- A plan and the text of its header. -/
structure Generated where
  plan : Plan
  source : String
  deriving DecidableEq, Repr

/-- The header of a graph. -/
def Graph.generate (g : Graph) (naming : Naming) : Except GenerateError Generated := do
  let plan ← (g.lower naming).mapError .compile
  let source ← plan.render.mapError .overflow
  return ⟨plan, source⟩

end EvaluatorGen
