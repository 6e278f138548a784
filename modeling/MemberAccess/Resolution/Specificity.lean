import MemberAccess.Display
import MemberAccess.Reporting
import MemberAccess.Resolution.Basic
import MemberAccess.Text.Listing

/-!
Specificity of candidates. The declaration whose body an access is in beats all others, and apart
from that the candidate with the smaller type is the more specific one. Candidates whose types are
subtypes of each other are told apart by what their declarations apply to when instantiated to
bounds.
-/
namespace MemberAccess

inductive Specificity where
  /-- The first candidate is more specific. -/
  | less
  | greater
  | incomparable
  deriving DecidableEq

namespace Specificity

def ofSubtyping : (forward backward : Bool) → Specificity
  | true, false => .less
  | false, true => .greater
  | _, _ => .incomparable

def reverse : Specificity → Specificity
  | .less => .greater
  | .greater => .less
  | .incomparable => .incomparable

end Specificity

inductive Ranking where
  | winner (candidate : Candidate)
  | none
  | ambiguous (maximal : List Candidate)
  deriving DecidableEq

namespace Session

def overflowWarning (s : Session) (d : DeclId) (overflow : BoundsOverflow) :
    Except Fault Diagnostic := do
  let header ← s.program.showDecl d
  let decl ← s.program.decls.fetch d
  let param ← s.program.showParam overflow.param
  pure <| (Diagnostic.warning .cyclicBounds)
    |>.withMessage ("the bounds of " ++ Text.quote header ++ " do not converge")
    |>.withUnlabeledSpan decl.span
    |>.withNote ("instantiate-to-bounds gave up on the type parameter " ++ Text.quote param ++
      " after " ++ toString s.options.limit ++ " steps")
    |>.withNote "the declaration is ranked as if it was unrelated to the others"

def boundedType (s : Session) (c : Candidate) : Reporting (Option Ty) := do
  match ← s.oracle.instantiateDecl c.decl with
  | .ok t => pure (some t)
  | .error overflow =>
    Reporting.report (← s.overflowWarning c.decl overflow)
    pure none

def compareTypes (s : Session) (t u : Ty) : Except Fault (Bool × Bool) := do
  let forward ← s.oracle.isSubtype t u
  let backward ← s.oracle.isSubtype u t
  pure (forward, backward)

def breakTie (s : Session) (a b : Candidate) : Reporting Specificity := do
  let t ← s.boundedType a
  let u ← s.boundedType b
  match t, u with
  | some t, some u => do
    let (forward, backward) ← s.compareTypes t u
    pure (.ofSubtyping forward backward)
  | _, _ => pure .incomparable

def compareByType (s : Session) (a b : Candidate) : Reporting Specificity := do
  let (forward, backward) ← s.compareTypes a.appliesTo b.appliesTo
  if forward && backward then
    match s.options.tieBreak with
    | .never => pure .incomparable
    | .byBounds => s.breakTie a b
  else pure (.ofSubtyping forward backward)

def compare (s : Session) (site : Site) (a b : Candidate) : Reporting Specificity :=
  if a.decl = b.decl then pure .incomparable
  else if site.enclosing = some a.decl then pure .less
  else if site.enclosing = some b.decl then pure .greater
  else s.compareByType a b

def isMaximal (s : Session) (site : Site) (c : Candidate) : List Candidate → Reporting Bool
  | [] => pure true
  | other :: others => do
    if (← s.compare site other c) = .less then pure false else s.isMaximal site c others

def maximality (s : Session) (site : Site) (all : List Candidate) :
    List Candidate → Reporting (List Bool)
  | [] => pure []
  | c :: cs => do
    let isMaximal ← s.isMaximal site c all
    pure (isMaximal :: (← s.maximality site all cs))

def maximal (s : Session) (site : Site) (candidates : List Candidate) :
    Reporting (List Candidate) := do
  let flags ← s.maximality site candidates candidates
  pure (((candidates.zip flags).filter (·.2)).map (·.1))

def comparisons (s : Session) (site : Site) (candidates : List Candidate) :
    Reporting (List (List Specificity)) :=
  candidates.mapM fun a => candidates.mapM fun b => s.compare site a b

def rank (s : Session) (site : Site) : List Candidate → Reporting Ranking
  | [] => pure .none
  | [c] => pure (.winner c)
  | candidates => do
    match ← s.maximal site candidates with
    | [c] => pure (.winner c)
    | maximal => pure (.ambiguous maximal)

end Session

end MemberAccess
