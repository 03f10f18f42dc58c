/-!
Dividing a text at a character: lines at newlines, paths at slashes.
-/
namespace EvaluatorGen.Text

/-- The parts of a text between the occurrences of `sep`. There is one more part than there
    are occurrences; a part may be empty. -/
def divide (sep : Char) : List Char → List (List Char)
  | [] => [[]]
  | c :: cs =>
    if c = sep then [] :: divide sep cs
    else match divide sep cs with
      | [] => [[c]]
      | part :: parts => (c :: part) :: parts

end EvaluatorGen.Text
