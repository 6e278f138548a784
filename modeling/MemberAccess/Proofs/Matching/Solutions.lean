import MemberAccess.Proofs.Matching.Applicability
import MemberAccess.Proofs.Matching.Invariants

/-!
Which parameters a solution is for. Whatever a step of the matching finds, it records it for the
variables only, so a solution has types for variables and for nothing else.
-/
namespace MemberAccess.Program

open Unification

variable {P : Program} {vars : List ParamId} {limit n : Nat} {p : ParamId} {t c u : Ty}
  {s : Substitution}

def Confined (vars : List ParamId) (step : Step) : Prop :=
  ∀ s s', step s = .ok (some s') → ∀ p, p ∉ vars → s'.get? p = s.get? p

theorem confined_bindLower (own : p ∈ vars) : Confined vars (P.bindLower limit p t) := by
  intro s s' h q outside
  have other : q ≠ p := fun same => outside (same ▸ own)
  unfold bindLower at h
  cases value : s.get? p with
  | none =>
    rw [value] at h
    cases h
    rw [Substitution.get?_insert, if_neg other]
  | some lower =>
    rw [value] at h
    obtain ⟨u, _, h⟩ := bind_eq_ok.1 h
    cases h
    rw [Substitution.get?_insert, if_neg other]

theorem confined_matchType (t c : Ty) : Confined vars (P.matchType limit vars n t c) := by
  intro s s' run p outside
  have lower (q : ParamId) (own : q ∈ vars) (c : Ty) (_ : c.Every fun _ => True) :
      Preserves (fun r => r.get? p = s.get? p) (P.bindLower limit q c) :=
    fun r r' same h => (confined_bindLower own r r' h p outside).trans same
  exact persistent_true.matchType_preserves lower (fun _ _ => trivial) s s' rfl run

theorem mem_of_solved (h : P.unify limit t c vars = .ok (some s)) (value : s.get? p = some u) :
    p ∈ vars := by
  by_contra outside
  have kept := confined_matchType t c _ _ (unify_eq_some.1 h).1 p outside
  rw [value] at kept
  cases kept

end MemberAccess.Program
