import MemberAccess.Proofs.Instantiation.Equations

/-!
Placeholders in instantiation to bounds. None is left in the types that come out if there is none in
the declared bounds and in the types that are fixed, since the members of cycles are replaced by
`dynamic` and a round only puts the types into each other.
-/
namespace MemberAccess

open Program Bounds

namespace Ty

variable {t : Ty} {f : ParamId → Option Ty} {s : Substitution}

theorem hasUnknown_eq_false : t.hasUnknown = false ↔ t.Known := by
  simp [hasUnknown, Known, Every]

theorem rebuilds_known : Rebuilds (· ≠ .unknown) where
  orNull t h := by cases t <;> simp_all [orNull]
  interface _ _ _ _ _ := nofun
  futureOr _ _ _ := nofun
  promoted _ _ _ _ := nofun
  func _ _ _ _ _ := nofun
  record _ _ _ := nofun

theorem Known.replace (known : t.Known) (values : ∀ p u, f p = some u → u.Known) :
    (t.replace f).Known :=
  rebuilds_known.every_replace known values

theorem Known.substitute (known : t.Known) (values : ∀ p u, s.get? p = some u → u.Known) :
    (t.substitute s).Known := by
  unfold Ty.substitute
  split
  · exact known
  · exact known.replace values

end Ty

def Substitution.Known (s : Substitution) : Prop := ∀ p t, s.get? p = some t → t.Known

variable {P : Program} {vars ps : List ParamId} {B : ParamId → Ty} {s σ fixed : Substitution}
  {n limit : Nat} {p : ParamId} {t : Ty}

theorem Substitution.Known.round (known : s.Known) : (s.mapTypes (·.substitute s)).Known := by
  intro p u value
  rw [get?_mapTypes] at value
  obtain ⟨t, found, rfl⟩ := Option.map_eq_some_iff.1 value
  exact (known p t found).substitute known

namespace Bounds

theorem known_brokenBound (known : (B p).Known) : (brokenBound vars B p).Known := by
  unfold brokenBound
  split
  · refine known.replace fun q u value => ?_
    split at value <;> cases value
    decide
  · exact known

theorem known_start (known : ∀ p ∈ vars, (B p).Known) : (start vars B).Known := by
  intro p t value
  obtain ⟨own, rfl⟩ := get?_start.1 value
  exact known_brokenBound (known p own)

theorem known_converge (known : s.Known) (run : converge vars n s = .ok σ) : σ.Known := by
  fun_induction converge vars n s with
  | case1 n s closed =>
    cases run
    exact known
  | case2 s p opened => cases run
  | case3 n s p opened ih => exact ih known.round run

end Bounds

namespace Program

theorem known_givenBound (bounds : ∀ q ∈ P.params.get? p, ∀ b ∈ q.bound, b.Known)
    (values : fixed.Known) : (P.givenBound fixed p).Known := by
  refine Ty.Known.substitute ?_ values
  cases bound : (P.params.get? p).bind (·.bound) with
  | none => decide
  | some b =>
    obtain ⟨q, found, bound⟩ := Option.bind_eq_some_iff.1 bound
    exact bounds q found b bound

theorem instantiateParams_known
    (bounds : ∀ p ∈ ps, ∀ q ∈ P.params.get? p, ∀ b ∈ q.bound, b.Known)
    (values : fixed.Known) (h : P.instantiateParams limit ps fixed = .ok (.ok σ)) : σ.Known := by
  rw [instantiateParams_eq] at h
  obtain ⟨_, declared, h⟩ := bind_eq_ok.1 h
  obtain ⟨_, rfl⟩ := mapM_declaredBound.1 declared
  obtain ⟨r, run, rfl⟩ := except_map_eq_ok.1 (pure_eq_ok.1 h)
  rw [ofList_acyclic] at run
  have first : (start (openParams ps fixed) (P.givenBound fixed)).Known :=
    known_start fun p own => known_givenBound (bounds p (openParams_subset own)) values
  intro p t value
  rw [get?_insertAll_fixed] at value
  split at value
  · exact values p t value
  · exact known_converge first run p t value

end Program

end MemberAccess
