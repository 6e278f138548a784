import MemberAccess.Diagnostic.Basic
import MemberAccess.Fault

/-!
Computations that report diagnostics on their way to an outcome. What is reported has no influence
on the outcome, so the two are kept side by side.
-/
namespace MemberAccess

structure Reporting (α : Type) where
  outcome : Except Fault α
  reports : List Diagnostic := []

namespace Reporting

def succeed (a : α) : Reporting α := ⟨.ok a, []⟩

/-- Nothing runs after a fault. -/
def andThen (x : Reporting α) (f : α → Reporting β) : Reporting β :=
  match x.outcome with
  | .ok a => ⟨(f a).outcome, x.reports ++ (f a).reports⟩
  | .error fault => ⟨.error fault, x.reports⟩

instance : Monad Reporting where
  pure := succeed
  bind := andThen

instance : MonadLift (Except Fault) Reporting := ⟨fun outcome => ⟨outcome, []⟩⟩

def report (d : Diagnostic) : Reporting Unit := ⟨.ok (), [d]⟩

@[simp] theorem outcome_pure (a : α) : (pure a : Reporting α).outcome = .ok a := rfl

@[simp] theorem outcome_bind (x : Reporting α) (f : α → Reporting β) :
    (x >>= f).outcome = x.outcome.bind fun a => (f a).outcome := by
  obtain ⟨outcome, reports⟩ := x
  cases outcome <;> rfl

@[simp] theorem outcome_lift (x : Except Fault α) :
    (liftM x : Reporting α).outcome = x := rfl

@[simp] theorem outcome_report (d : Diagnostic) : (report d).outcome = .ok () := rfl

end Reporting

end MemberAccess
