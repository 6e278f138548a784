import MemberAccess.Diagnostic.Basic
import MemberAccess.Paint.Painter
import MemberAccess.Text.Lines

/-!
The text of diagnostics. The program text is not at hand, so highlights are shown as byte ranges.
-/
namespace MemberAccess

open Paint

namespace Palette

def frame : Color := ⟨.blue, true⟩
def failure : Color := ⟨.red, true⟩
def warning : Color := ⟨.yellow, true⟩
def help : Color := ⟨.cyan, true⟩
def debug : Color := ⟨.magenta, true⟩

end Palette

def boldOf (c : Color) : Style := { bold := true, foreground := some c }

def Severity.color : Severity → Color
  | .bug | .error => Palette.failure
  | .warning => Palette.warning
  | .debug => Palette.debug

def Role.color (severity : Severity) : Role → Color
  | .primary => severity.color
  | .secondary => Palette.help

def Role.line : Role → String
  | .primary => "═"
  | .secondary => "─"

namespace Highlight

def frame (isFirst : Bool) : String := if isFirst then "┌─" else "├─"

def labelStrokes (h : Highlight) (severity : Severity) : List (Stroke String) :=
  match h.label with
  | none => []
  | some label =>
    let color := h.role.color severity
    styled (.ofForeground color) (" " ++ h.role.line) ++ [.write " "] ++ styled (boldOf color) label

def strokes (h : Highlight) (isFirst : Bool) (severity : Severity) : List (Stroke String) :=
  [.write "\n  "] ++ styled (.ofForeground Palette.frame) (frame isFirst)
    ++ [.write (" " ++ h.span.text)] ++ h.labelStrokes severity

end Highlight

/-- All lines after the first are indented below it, and empty ones are left out. -/
def Note.body (n : Note) : String :=
  match Text.split '\n' n.message with
  | [] => ""
  | first :: rest =>
    let indent := String.ofList (List.replicate (n.kind.name.length + 3) ' ')
    first ++ String.join ((rest.filter (· ≠ "")).map fun line => "\n" ++ indent ++ line)

def Note.strokes (n : Note) : List (Stroke String) :=
  [.write "\n "] ++ styled (boldOf Palette.help) n.kind.name ++ [.write (": " ++ n.body)]

namespace Diagnostic

def headerStrokes (d : Diagnostic) : List (Stroke String) :=
  styled (boldOf d.severity.color) d.severity.name
    ++ (match d.code with
      | none => []
      | some code => styled (.ofForeground d.severity.color) ("[" ++ code.text ++ "]"))
    ++ (match d.message with
      | none => []
      | some message => [.write ": "] ++ styled { bold := true } message)

def highlightStrokes (severity : Severity) : List Highlight → List (Stroke String)
  | [] => []
  | h :: hs => h.strokes true severity ++ hs.flatMap (·.strokes false severity)

def strokes (d : Diagnostic) : List (Stroke String) :=
  d.headerStrokes ++ highlightStrokes d.severity d.highlights ++ d.notes.flatMap Note.strokes

def render [Rendering Style ε] [ToString ε] (choice : ColorChoice) (d : Diagnostic) : String :=
  paintText choice d.strokes

end Diagnostic

end MemberAccess
