import MemberAccess.Table

/-!
Interned names. Names are equal exactly if they have the same index.
-/
namespace MemberAccess

structure Interner where
  names : Table .name String

namespace Interner

def predefined : List String :=
  ["bool", "double", "==", "Future", "int", "Iterable", "List", "new", "Null", "num", "Object",
    "String"]

def initial : Interner := ⟨.ofList predefined⟩

def find? (n : Interner) (name : String) : Option (Index .name) :=
  (n.names.entries.idxOf? name).map .mk

def intern (n : Interner) (name : String) : Except Fault (Index .name × Interner) :=
  match n.find? name with
  | some i => .ok (i, n)
  | none => do
    let (i, names) ← n.names.insert name
    pure (i, ⟨names⟩)

def internAll (n : Interner) : List String → Except Fault (List (Index .name) × Interner)
  | [] => .ok ([], n)
  | name :: rest => do
    let (i, n) ← n.intern name
    let (is, n) ← n.internAll rest
    pure (i :: is, n)

def text (n : Interner) (i : Index .name) : Except Fault String := n.names.fetch i

def isPredefined (i : Index .name) : Bool := i.val < predefined.length

end Interner

end MemberAccess
