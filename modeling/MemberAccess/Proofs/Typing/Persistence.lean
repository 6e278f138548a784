import MemberAccess.Proofs.Typing.Answers
import MemberAccess.Proofs.Typing.Rules

/-!
Properties of types that the declarations of a program pass on. If they hold of all declared bounds
and supertypes, then they hold of the supertypes and of the upper bounds of types they hold of. No
index has to be in range for that: what is not declared gives no answer.
-/
namespace MemberAccess.Program

/-- A property that all parts of declared supertypes have, and all parts of the bounds of parameters
    with the property. -/
structure Persistent (P : Program) (φ : Ty → Prop) : Prop extends Ty.Rebuilds φ where
  object : φ .object
  bounds : ∀ p q, P.params.get? p = some q → φ (.param p) → ∀ t ∈ q.bound, t.Every φ
  supers : ∀ e d, P.types.get? e = some d → ∀ t ∈ d.supers, t.Every φ

variable {P : Program} {φ : Ty → Prop} {n : Nat} {t u v : Ty} {p : ParamId} {i j : Instance}
  {as xs : List Ty} {d e : TypeId} {found js : List Instance}

theorem mem_of_sharedInstance (h : P.sharedInstance? i js = .ok (some j)) : j ∈ js := by
  induction js with
  | nil => cases h
  | cons k js ih =>
    rw [sharedInstance?] at h
    obtain ⟨args, _, h⟩ := bind_eq_ok.1 h
    split at h
    · cases h
      exact List.mem_cons_self
    · exact List.mem_cons_of_mem k (ih h)

namespace Persistent

variable (persistent : P.Persistent φ)

include persistent

theorem every_object : Ty.object.Every φ := Ty.every_interface.2 ⟨persistent.object, by simp⟩

theorem every_boundOf (hp : φ (.param p)) (h : P.boundOf p = .ok t) : t.Every φ := by
  obtain ⟨q, hq, rfl⟩ := boundOf_eq_ok.1 h
  cases bound : q.bound with
  | none => exact persistent.orNull _ persistent.every_object
  | some b => exact persistent.bounds p q hq hp b bound

theorem every_extends (hi : i.type.Every φ) (h : P.Extends i j) : j.type.Every φ := by
  obtain ⟨d, hd, member⟩ := h
  rcases mem_directSupers.1 member with ⟨t, ht, substituted⟩ | ⟨_, rfl⟩
  · rw [← substituted]
    apply persistent.every_substitute (persistent.supers _ d hd t ht)
    intro p u value
    exact (Ty.every_interface.1 hi).2 u (TypeDecl.mem_of_bindings value).2
  · exact persistent.every_object

theorem every_supertypes (hi : i.type.Every φ) (h : P.supertypes i = .ok found) :
    ∀ j ∈ found, j.type.Every φ :=
  (walk_of_supertypes h).keeps (fun _ _ => persistent.every_extends)
    (List.forall_mem_singleton.2 hi)

theorem every_superArgs (hi : i.type.Every φ) (h : P.superArgs? i e = .ok (some xs)) :
    ∀ x ∈ xs, x.Every φ := by
  simp only [superArgs?, bind_eq_ok, pure_eq_ok, Option.map_eq_some_iff] at h
  obtain ⟨found, hfound, j, hj, rfl⟩ := h
  have all := persistent.every_supertypes hi hfound
  exact (Ty.every_interface.1 (all j (List.mem_of_find?_eq_some hj))).2

theorem every_upperBoundByShape {meet : Ty → Ty → Except Fault Ty} (ht : t.Every φ)
    (hu : u.Every φ) (ih : ∀ t u v, t.Every φ → u.Every φ → meet t u = .ok v → v.Every φ)
    (h : P.upperBoundByShape meet t u = .ok v) : v.Every φ := by
  unfold upperBoundByShape at h
  split at h
  · next d as e bs =>
    obtain ⟨head, has⟩ := Ty.every_interface.1 ht
    have hbs := (Ty.every_interface.1 hu).2
    split at h
    · next same =>
      obtain ⟨cs, hcs, result⟩ := bind_eq_ok.1 h
      cases result
      have hlength : as.length = cs.length := by
        have := (mapM_eq_ok.1 hcs).length_eq
        simp only [List.length_zip] at this
        omega
      refine Ty.every_interface.2 ⟨persistent.interface d as cs hlength head, fun c hc => ?_⟩
      obtain ⟨x, hx, met⟩ := exists_of_mem_mapM hcs hc
      obtain ⟨left, right⟩ := List.of_mem_zip hx
      exact ih _ _ _ (has _ left) (hbs _ right) met
    · obtain ⟨found, hfound, h⟩ := bind_eq_ok.1 h
      obtain ⟨shared, hshared, result⟩ := bind_eq_ok.1 h
      cases shared with
      | none =>
        cases result
        exact persistent.every_object
      | some i =>
        cases result
        have all := persistent.every_supertypes (i := ⟨d, as⟩) ht hfound
        exact all i (mem_of_sharedInstance hshared)
  · cases h
    exact persistent.every_object

theorem every_upperBound (ht : t.Every φ) (hu : u.Every φ) (h : P.upperBound n t u = .ok v) :
    v.Every φ := by
  induction n generalizing t u v with
  | zero =>
    cases h
    exact persistent.orNull _ persistent.every_object
  | succ n ih =>
    rw [upperBound] at h
    obtain ⟨forward, _, h⟩ := bind_eq_ok.1 h
    split at h
    · cases h
      exact hu
    obtain ⟨backward, _, h⟩ := bind_eq_ok.1 h
    split at h
    · cases h
      exact ht
    split at h
    · cases h
      exact persistent.orNull _ hu
    split at h
    · cases h
      exact persistent.orNull _ ht
    obtain ⟨hl, hr⟩ := Closed.every_stripNullable ht hu
    generalize Ty.stripNullable t u = stripped at h hl hr
    obtain ⟨bound, hbound, result⟩ := bind_eq_ok.1 h
    have every := persistent.every_upperBoundByShape hl hr (fun _ _ _ => ih) hbound
    cases result
    split
    · exact persistent.orNull _ every
    · exact every

end Persistent

end MemberAccess.Program
