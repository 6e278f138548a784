/-!
Codes of diagnostics: numbered errors and named lints.
-/
namespace MemberAccess

inductive ErrorCode where
  | e000 | e001 | e002 | e003 | e004 | e005
  deriving DecidableEq

namespace ErrorCode

def number : ErrorCode → Nat
  | .e000 => 0
  | .e001 => 1
  | .e002 => 2
  | .e003 => 3
  | .e004 => 4
  | .e005 => 5

def text (c : ErrorCode) : String := "E00" ++ toString c.number

/-- The first three codes are never assigned. -/
def explanation : ErrorCode → Option String
  | .e000 | .e001 | .e002 => none
  | .e003 => some <|
    "None of the extensions, views or static members visible at the access declare a member of " ++
    "this name that applies to the type of the receiver (or, for a shorthand, to the context type)."
  | .e004 => some <|
    "Several declarations apply and none of them is more specific than all others. A " ++
    "declaration is more specific if the type it applies to is a proper subtype of the other one's."
  | .e005 => some
    "The member resolves to a getter but the access supplies an argument list."

end ErrorCode

inductive LintCode where
  | permanentlyUnassigned
  | cyclicBounds
  deriving DecidableEq

namespace LintCode

def number : LintCode → Nat
  | .permanentlyUnassigned => 0
  | .cyclicBounds => 1

def name : LintCode → String
  | .permanentlyUnassigned => "permanently-unassigned"
  | .cyclicBounds => "cyclic-bounds"

end LintCode

inductive Code where
  | error (code : ErrorCode)
  | lint (code : LintCode)
  deriving DecidableEq

namespace Code

def text : Code → String
  | .error code => code.text
  | .lint code => code.name

def errorCode? : Code → Option ErrorCode
  | .error code => some code
  | .lint _ => none

def key : Code → Nat × Nat
  | .error code => (0, code.number)
  | .lint code => (1, code.number)

instance : Ord Code := ⟨compareLex (compareOn (·.key.1)) (compareOn (·.key.2))⟩

end Code

end MemberAccess
