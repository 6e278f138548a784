/-!
The ways a program can be malformed: a dangling index, a table that is full, a reversed span, a
signature whose parameters are out of order. A fault is a property of the input and not a verdict
about an access, so it is kept apart from the failures of resolution.
-/
namespace MemberAccess

inductive Kind where
  | type | param | decl | member | library | name
  deriving DecidableEq

namespace Kind

/-- Members are numbered by 16 bits, all others by 32. -/
def capacity : Kind → Nat
  | .member => Nat.pow 2 16
  | _ => Nat.pow 2 32

theorem capacity_pos (k : Kind) : 0 < k.capacity := by
  cases k <;> decide

def tag : Kind → String
  | .type => "t"
  | .param => "p"
  | .decl => "d"
  | .member => "m"
  | .library => "l"
  | .name => ""

def overflowMessage : Kind → String
  | .type => "index overflow in ‘TyDeclIdx’"
  | .param => "index overflow in ‘TyParamIdx’"
  | .decl => "index overflow in ‘DeclIdx’"
  | .member => "index overflow in ‘MemberIdx’"
  | .library => "index overflow in ‘LibraryIdx’"
  | .name => "the atom interner is exhausted"

end Kind

inductive Fault where
  | outOfRange (size index : Nat)
  | indexOverflow (kind : Kind)
  | reversedSpan (start stop : Nat)
  | requiredAfterOptional (required positional : Nat)
  | splitPastEnd
  deriving DecidableEq

def Fault.message : Fault → String
  | .outOfRange size index =>
    s!"index out of bounds: the len is {size} but the index is {index}"
  | .indexOverflow kind => kind.overflowMessage
  | .reversedSpan start stop => s!"span start ({start}) > span end ({stop})"
  | .requiredAfterOptional required positional =>
    "assertion `left == right` failed\n" ++
      s!"  left: {required}\n right: {positional}"
  | .splitPastEnd => "mid > len"

end MemberAccess
