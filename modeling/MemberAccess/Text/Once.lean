/-!
Texts that are written at most once: whoever shows one a second time gets nothing.
-/
namespace MemberAccess.Text

structure Once where
  remaining : Option String
  deriving DecidableEq

namespace Once

def ofString (text : String) : Once := ⟨some text⟩

def show? (t : Once) : Option String × Once := (t.remaining, ⟨none⟩)

def shows : Nat → Once → List String
  | 0, _ => []
  | n + 1, t => (t.show?.1.getD "") :: shows n t.show?.2

end Once

end MemberAccess.Text
