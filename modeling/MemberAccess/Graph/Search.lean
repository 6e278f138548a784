/-!
Strongly connected components by depth-first search. The search numbers the positions of a graph in
the order in which it comes to them, and keeps on a stack those whose components are not complete. A
position from which no edges lead back to earlier ones on the stack is the first of its component;
the other members are above it.
-/
namespace MemberAccess

/-- The state of a search. What came last is first in each list. -/
structure Search where
  indices : List (Nat × Nat) := []
  stack : List Nat := []
  components : List (List Nat) := []

namespace Search

def index? (s : Search) (p : Nat) : Option Nat := s.indices.lookup p

def enter (s : Search) (p : Nat) : Search :=
  { s with indices := (p, s.indices.length) :: s.indices, stack := p :: s.stack }

def leave (s : Search) (p : Nat) : Search :=
  { s with
    stack := (s.stack.dropWhile (· ≠ p)).tail
    components := (s.stack.takeWhile (· ≠ p) ++ [p]) :: s.components }

def follow (connect : Nat → Search → Nat × Search) : Nat × Search → Nat → Nat × Search
  | (low, s), q =>
    match s.index? q with
    | none =>
      let (low', s) := connect q s
      (min low low', s)
    | some index => (if q ∈ s.stack then min low index else low, s)

/-- Search what can be reached from a new position. The result is the low link of the position: the
    least index on the stack that the search has found an edge to, or its own one. At each step the
    number of new positions decreases, so that a step for each position is enough. -/
def connect (targets : List (List Nat)) : Nat → Nat → Search → Nat × Search
  | 0, _, s => (0, s)
  | n + 1, p, s =>
    let index := s.indices.length
    let (low, s) := (targets.getD p []).foldl (follow (connect targets n)) (index, s.enter p)
    (low, if low = index then s.leave p else s)

def visit (targets : List (List Nat)) (s : Search) (p : Nat) : Search :=
  if (s.index? p).isSome then s else (connect targets targets.length p s).2

def all (targets : List (List Nat)) : Search :=
  (List.range targets.length).foldl (visit targets) {}

end Search

end MemberAccess
