import MemberAccess.Paint.Painter
import MemberAccess.Text.Lines

/-!
Differences of texts, shown line by line with a colored edge.
-/
namespace MemberAccess.Paint

inductive Difference where
  | same (text : String)
  | added (text : String)
  | removed (text : String)

namespace Difference

def text : Difference → String
  | .same t | .added t | .removed t => t

def edge : Difference → String
  | .same _ => " "
  | .added _ => "+"
  | .removed _ => "-"

def style : Difference → Style
  | .same _ => .ofBackground ⟨.white, true⟩
  | .added _ => .ofBackground ⟨.green, false⟩
  | .removed _ => .ofBackground ⟨.red, false⟩

def shownLines (d : Difference) : List String :=
  if d.text = "" then [""] else Text.lines d.text

def strokes (d : Difference) : List (Stroke String) :=
  d.shownLines.flatMap fun line => styled d.style d.edge ++ [.write (" " ++ line ++ "\n")]

end Difference

def ledger (differences : List Difference) : List (Stroke String) :=
  differences.flatMap Difference.strokes

end MemberAccess.Paint
