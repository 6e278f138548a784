import MemberAccess.Diagnostic.Code
import MemberAccess.Sorted
import MemberAccess.Span

/-!
Diagnostics: messages with highlighted spans and notes. They are ordered by their highlights first,
which keeps a buffer of them close to the order of the program text.
-/
namespace MemberAccess

inductive Severity where
  | bug
  | error | warning | debug
  deriving DecidableEq

namespace Severity

def name : Severity → String
  | .bug => "internal error"
  | .error => "error"
  | .warning => "warning"
  | .debug => "trace"

def rank : Severity → Nat
  | .bug => 0
  | .error => 1
  | .warning => 2
  | .debug => 3

def isFailure : Severity → Bool
  | .bug | .error => true
  | .warning | .debug => false

end Severity

inductive Role where
  | primary | secondary
  deriving DecidableEq

def Role.rank : Role → Nat
  | .primary => 0
  | .secondary => 1

structure Highlight where
  span : Span
  role : Role
  label : Option String
  deriving DecidableEq

instance : Ord Highlight :=
  ⟨compareLex (compareOn (·.span)) (compareLex (compareOn (·.role.rank)) (compareOn (·.label)))⟩

inductive NoteKind where
  | note | help
  deriving DecidableEq

namespace NoteKind

def name : NoteKind → String
  | .note => "note"
  | .help => "help"

def rank : NoteKind → Nat
  | .note => 0
  | .help => 1

end NoteKind

structure Note where
  kind : NoteKind
  message : String
  deriving DecidableEq

instance : Ord Note := ⟨compareLex (compareOn (·.kind.rank)) (compareOn (·.message))⟩

structure Diagnostic where
  severity : Severity
  code : Option Code := none
  message : Option String := none
  /-- In strictly increasing order. -/
  highlights : List Highlight := []
  notes : List Note := []
  deriving DecidableEq

namespace Diagnostic

instance : Ord Diagnostic :=
  ⟨compareLex (compareOn (·.highlights))
    (compareLex (compareOn (·.notes))
      (compareLex (compareOn (·.code))
        (compareLex (compareOn (·.message)) (compareOn (·.severity.rank)))))⟩

def error (code : ErrorCode) : Diagnostic := { severity := .error, code := some (.error code) }

def warning (code : LintCode) : Diagnostic := { severity := .warning, code := some (.lint code) }

def bug : Diagnostic := { severity := .bug }

def debug : Diagnostic := { severity := .debug }

def withMessage (d : Diagnostic) (message : String) : Diagnostic :=
  { d with message := some message }

def withHighlight (d : Diagnostic) (h : Highlight) : Diagnostic :=
  { d with highlights := Sorted.insert compare h d.highlights }

def withSpan (d : Diagnostic) (span : Span) (label : String) : Diagnostic :=
  d.withHighlight ⟨span, .primary, some label⟩

def withUnlabeledSpan (d : Diagnostic) (span : Span) : Diagnostic :=
  d.withHighlight ⟨span, .primary, none⟩

def withLabel (d : Diagnostic) (span : Span) (label : String) : Diagnostic :=
  d.withHighlight ⟨span, .secondary, some label⟩

def withLabels (d : Diagnostic) (spans : List Span) (label : String) : Diagnostic :=
  spans.foldl (fun d span => d.withLabel span label) d

def withNote (d : Diagnostic) (message : String) : Diagnostic :=
  { d with notes := d.notes ++ [⟨.note, message⟩] }

def withHelp (d : Diagnostic) (message : String) : Diagnostic :=
  { d with notes := d.notes ++ [⟨.help, message⟩] }

end Diagnostic

end MemberAccess
