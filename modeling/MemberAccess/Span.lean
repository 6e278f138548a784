import MemberAccess.Fault

/-!
Byte ranges of the program text. They identify accesses and locate diagnostics; the text itself
is never read.
-/
namespace MemberAccess

structure Span where
  start : Nat
  stop : Nat
  ordered : start ≤ stop := by omega
  deriving DecidableEq

namespace Span

def zero : Span := ⟨0, 0, by omega⟩

instance : Inhabited Span := ⟨zero⟩

def between (start stop : Nat) : Except Fault Span :=
  if h : start ≤ stop then .ok ⟨start, stop, h⟩ else .error (.reversedSpan start stop)

def text (s : Span) : String := toString s.start ++ ".." ++ toString s.stop

protected def compare (s t : Span) : Ordering :=
  (compare s.start t.start).then (compare s.stop t.stop)

instance : Ord Span := ⟨Span.compare⟩

end Span

end MemberAccess
