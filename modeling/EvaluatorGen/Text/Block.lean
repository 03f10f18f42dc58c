import EvaluatorGen.Text.Blank
import EvaluatorGen.Text.Divide

/-!
Blocks of text and their indentation.

A block is a text of several lines. `reindent` lays a block out at a level of indentation:

1. the first line is dropped if it is blank, then the last one if it is blank;
2. the margin, the least number of leading spaces over the lines that are not blank, is cut
   from every line;
3. every line that is not blank is indented by four spaces a level and loses the blanks at
   its end, a blank line becomes empty, and each line is ended by a newline.

Relative indentation and the blank lines inside a block survive, so blocks nest.
-/
namespace EvaluatorGen.Text

/-- The lines of a text, divided at each newline; the empty text is one empty line. -/
def lines (text : List Char) : List (List Char) :=
  divide '\n' text

def dropBlankHead : List (List Char) → List (List Char)
  | [] => []
  | l :: ls => if isBlankLine l then ls else l :: ls

def dropBlankLast (ls : List (List Char)) : List (List Char) :=
  (dropBlankHead ls.reverse).reverse

/-- The number of spaces that a line starts with. Other blanks do not count. -/
def leadingSpaces (line : List Char) : Nat :=
  (line.takeWhile (· == ' ')).length

/-- The indentation shared by the lines that are not blank. -/
def margin (ls : List (List Char)) : Nat :=
  ((ls.filter (fun l => !isBlankLine l)).map leadingSpaces).min?.getD 0

/-- One line of a block whose margin is `cut`, laid out behind `pad` and ended by a newline. -/
def layLine (pad : List Char) (cut : Nat) (line : List Char) : List Char :=
  if isBlankLine line then ['\n'] else pad ++ trimEnd (line.drop cut) ++ ['\n']

def layLines (level : Nat) (ls : List (List Char)) : List Char :=
  ls.flatMap (layLine (List.replicate (4 * level) ' ') (margin ls))

/-- The block laid out at `level`. -/
def reindent (level : Nat) (block : String) : String :=
  String.ofList (layLines level (dropBlankLast (dropBlankHead (lines block.toList))))

end EvaluatorGen.Text
