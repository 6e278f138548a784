import MemberAccess.Span
import MemberAccess.Ty.Basic

/-!
Sites: the accesses of members that are not declared by the static type of their receiver. An
access either has a receiver, as in `e.id`, or is a shorthand `.id` for a static member of the
type that its context expects.
-/
namespace MemberAccess

structure Argument where
  type : Ty
  constant : Bool := false

structure Arguments where
  types : Option (List Ty) := none
  positional : List Argument := []
  named : List (String × Argument) := []

def Arguments.all (a : Arguments) : List Argument := a.positional ++ a.named.map (·.2)

inductive Form where
  | get
  | set (value : Argument)
  | call (arguments : Arguments)

def Form.isSet : Form → Bool
  | .set _ => true
  | _ => false

inductive Receiver where
  | value (type : Ty)
  /-- The type that is expected, and the type of the left operand if the shorthand is the right
      operand of an equality. -/
  | shorthand (expected : Ty) (equalityOperand : Option Ty)

inductive Selector where
  | nullAssert
  | member (name : String)
  | call
  deriving DecidableEq

structure Site where
  span : Span := .zero
  name : String
  receiver : Receiver
  form : Form := .get
  selectors : List Selector := []
  enclosing : Option DeclId := none
  library : LibraryId
  constantContext : Bool := false

namespace Site

def isShorthand (s : Site) : Bool :=
  match s.receiver with
  | .value _ => false
  | .shorthand .. => true

def withEqualityOperand (s : Site) (left : Ty) : Site :=
  match s.receiver with
  | .value _ => s
  | .shorthand expected _ => { s with receiver := .shorthand expected (some left) }

/-- The type the declarations are matched against. The left operand of an equality counts only for
    a shorthand that is exactly the right one. -/
def context (s : Site) : Ty :=
  match s.receiver with
  | .value type => type
  | .shorthand expected none => expected
  | .shorthand expected (some left) => if s.selectors = [] then left else expected

/-- Extensions never apply to a receiver of type `dynamic`. -/
def isDynamic (s : Site) : Bool := !s.isShorthand && s.context = .dynamic

end Site

end MemberAccess
