import MemberAccess.Proofs.Renaming.Substitution
import MemberAccess.Proofs.Typing.Persistence

/-!
Type parameters that do not occur. Where the supertypes of a program and the bounds of its other
parameters do not mention them, no answer about types without them does.
-/
namespace MemberAccess.Program

structure Avoids (P : Program) (vars : List ParamId) : Prop where
  supers : ∀ e d, P.types.get? e = some d → ∀ t ∈ d.supers, t.Free vars
  bounds : ∀ p q, P.params.get? p = some q → p ∉ vars → ∀ t ∈ q.bound, t.Free vars

variable {P : Program} {vars : List ParamId} {n : Nat} {t u v : Ty} {p : ParamId}
  {as xs : List Ty} {d e : TypeId}

theorem free_interface : (Ty.interface d as).Free vars ↔ ∀ a ∈ as, a.Free vars := by
  simp [Ty.Free, Ty.param?]

namespace Avoids

variable (avoids : P.Avoids vars)

include avoids

theorem persistent : P.Persistent fun part => ∀ p ∈ part.param?, p ∉ vars where
  toRebuilds := Ty.headed_free.rebuilds
  object := by simp [Ty.object, Ty.param?]
  bounds p q hq own := avoids.bounds p q hq (own p rfl)
  supers := avoids.supers

theorem free_boundOf (hp : p ∉ vars) (h : P.boundOf p = .ok t) : t.Free vars := by
  refine avoids.persistent.every_boundOf (fun q hq => ?_) h
  cases hq
  exact hp

theorem free_superArgs (free : ∀ a ∈ as, a.Free vars)
    (h : P.superArgs? ⟨d, as⟩ e = .ok (some xs)) : ∀ x ∈ xs, x.Free vars :=
  avoids.persistent.every_superArgs (free_interface.2 free) h

theorem free_upperBound (ht : t.Free vars) (hu : u.Free vars)
    (h : P.upperBound n t u = .ok v) : v.Free vars :=
  avoids.persistent.every_upperBound ht hu h

end Avoids

end MemberAccess.Program
