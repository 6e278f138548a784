/-!
Texts as sequences of lines.
-/
namespace MemberAccess.Text

/-- The parts between the separators, of which there is always one more. -/
def splitChars (separator : Char) : List Char → List (List Char)
  | [] => [[]]
  | c :: cs =>
    if c = separator then [] :: splitChars separator cs
    else
      match splitChars separator cs with
      | [] => [[c]]
      | part :: parts => (c :: part) :: parts

def split (separator : Char) (text : String) : List String :=
  (splitChars separator text.toList).map String.ofList

def dropReturn (line : List Char) : List Char :=
  if line.getLast? = some '\r' then line.dropLast else line

/-- Lines end with a line feed or a carriage return and a line feed. The last line need not be
    terminated; nothing after the last terminator is no line. -/
def terminatedLines : List (List Char) → List (List Char)
  | [] => []
  | [rest] => if rest = [] then [] else [rest]
  | line :: lines => dropReturn line :: terminatedLines lines

def lines (text : String) : List String :=
  (terminatedLines (splitChars '\n' text.toList)).map String.ofList

end MemberAccess.Text
