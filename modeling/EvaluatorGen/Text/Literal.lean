/-!
The contents of a double-quoted string literal in the generated code.

A backslash and a double quote are escaped by a backslash, newline, carriage return and tab
are written `\n`, `\r` and `\t`, and every other character stands for itself.
-/
namespace EvaluatorGen.Text

def escapeChar : Char → List Char
  | '\\' => ['\\', '\\']
  | '"' => ['\\', '"']
  | '\n' => ['\\', 'n']
  | '\r' => ['\\', 'r']
  | '\t' => ['\\', 't']
  | c => [c]

/-- The text between the quotes of a literal whose value is `s`. -/
def escapeLiteral (s : String) : String :=
  String.ofList (s.toList.flatMap escapeChar)

end EvaluatorGen.Text
