import MemberAccess.Proofs.Instantiation.Convergence

/-!
What instantiation to bounds converges to: the one solution of the equations between the open
parameters and their bounds, in which the members of a cycle count as `dynamic` for each other.
-/
namespace MemberAccess

open Program Bounds

variable {P : Program} {vars ps : List ParamId} {B : ParamId → Ty} {s σ τ fixed : Substitution}
  {n limit : Nat} {p q : ParamId} {t u : Ty}

namespace Bounds

/-- Whether each of the open parameters has its bound for a type, once the open parameters in the
    bound are replaced by their types in turn. -/
structure Solves (vars : List ParamId) (B : ParamId → Ty) (σ : Substitution) : Prop where
  domain : σ.HasDomain vars
  equation : ∀ p ∈ vars, σ.get? p = some ((brokenBound vars B p).substitute σ)

section Rounds

/-- What is preserved by the rounds that start with the broken bounds: the bound of a parameter
    comes to the same as its type, and each solution stays one. -/
structure Unfolds (vars : List ParamId) (B : ParamId → Ty) (s : Substitution) : Prop where
  domain : s.HasDomain vars
  normal : ∀ p u, s.get? p = some u → u.InNormalForm
  further : ∀ p u, s.get? p = some u →
    (brokenBound vars B p).replace s.get? = u.replace (start vars B).get?
  solved : ∀ σ, Solves vars B σ → ∀ p u, s.get? p = some u → σ.get? p = some (u.replace σ.get?)

theorem Solves.replace (solves : Solves vars B σ) (own : p ∈ vars) :
    σ.get? p = some ((brokenBound vars B p).replace σ.get?) := by
  obtain ⟨u, value⟩ := Option.isSome_iff_exists.1 ((solves.domain p).2 own)
  rw [solves.equation p own, Ty.substitute_of_mem value]

theorem unfolds_start (normal : ∀ p ∈ vars, (brokenBound vars B p).InNormalForm) :
    Unfolds vars B (start vars B) := by
  refine ⟨hasDomain_start, fun p u h => ?_, fun p u h => ?_, fun σ solves p u h => ?_⟩
  all_goals obtain ⟨own, rfl⟩ := get?_start.1 h
  · exact normal p own
  · rfl
  · exact solves.replace own

theorem Unfolds.round (unfolds : Unfolds vars B s) :
    Unfolds vars B (s.mapTypes (·.substitute s)) := by
  have round : (s.mapTypes (·.substitute s)).get? = Ty.followedBy s.get? s.get? :=
    funext fun _ => get?_round
  have value (p : ParamId) (u : Ty) (h : (s.mapTypes (·.substitute s)).get? p = some u) :
      ∃ t, s.get? p = some t ∧ u = t.replace s.get? := by
    rw [round, Ty.followedBy] at h
    cases found : s.get? p with
    | none => simp [found] at h
    | some t =>
      rw [found] at h
      exact ⟨t, rfl, (Option.some.inj h).symm⟩
  refine ⟨unfolds.domain.mapTypes, fun p u h => ?_, fun p u h => ?_, fun σ solves p u h => ?_⟩
  all_goals obtain ⟨t, found, rfl⟩ := value p u h
  · exact Ty.inNormalForm_replace unfolds.normal
  · -- one more bound can be put in before the round or after it
    have swap : Ty.followedBy (start vars B).get? s.get? =
        Ty.followedBy s.get? (start vars B).get? := by
      funext q
      rw [Ty.followedBy, Ty.followedBy]
      by_cases own : q ∈ vars
      · obtain ⟨u, inner⟩ := Option.isSome_iff_exists.1 ((unfolds.domain q).2 own)
        rw [get?_start.2 ⟨own, rfl⟩, inner, Option.elim_some, Option.elim_some,
          unfolds.further q u inner]
      · rw [hasDomain_start.get?_eq_none own, unfolds.domain.get?_eq_none own]
        rfl
    rw [round, ← Ty.replace_replace, unfolds.further p t found, Ty.replace_replace, swap,
      Ty.replace_replace]
  · have same : Ty.followedBy s.get? σ.get? = σ.get? := by
      funext q
      rw [Ty.followedBy]
      cases inner : s.get? q with
      | none => rfl
      | some u => exact (unfolds.solved σ solves q u inner).symm
    rw [Ty.replace_replace, same]
    exact unfolds.solved σ solves p t found

theorem Unfolds.converge (unfolds : Unfolds vars B s) (run : Bounds.converge vars n s = .ok σ) :
    Unfolds vars B σ := by
  fun_induction Bounds.converge vars n s with
  | case1 n s closed =>
    cases run
    exact unfolds
  | case2 s p opened => cases run
  | case3 n s p opened ih => exact ih unfolds.round run

end Rounds

theorem normal_brokenBound (normal : (B p).InNormalForm) :
    (brokenBound vars B p).InNormalForm := by
  unfold brokenBound
  split
  · refine Ty.inNormalForm_replace fun q u value => ?_
    split at value <;> cases value
    decide
  · exact normal

theorem solves_of_converge (normal : ∀ p ∈ vars, (B p).InNormalForm)
    (run : converge vars n (.ofList (acyclic vars (vars.map fun p => (p, B p)))) = .ok σ) :
    Solves vars B σ ∧ (∀ p u, σ.get? p = some u → u.Free vars) ∧
      ∀ τ, Solves vars B τ → τ = σ := by
  rw [ofList_acyclic] at run
  have first : Unfolds vars B (start vars B) :=
    unfolds_start fun p own => normal_brokenBound (normal p own)
  have unfolds : Unfolds vars B σ := first.converge run
  have free := free_of_converge run
  refine ⟨⟨unfolds.domain, fun p own => ?_⟩, free, fun τ solves => ?_⟩
  · obtain ⟨u, value⟩ := Option.isSome_iff_exists.1 ((unfolds.domain p).2 own)
    have settled : u.replace (start vars B).get? = u :=
      (unfolds.normal p u value).replace_of_free (free p u value)
        fun q outside => hasDomain_start.get?_eq_none outside
    rw [Ty.substitute_of_mem value, unfolds.further p u value, settled, value]
  · apply Substitution.ext_get?
    intro p
    cases value : σ.get? p with
    | none =>
      exact solves.domain.get?_eq_none fun own => by simpa [value] using (unfolds.domain p).2 own
    | some u =>
      have settled : u.replace τ.get? = u :=
        (unfolds.normal p u value).replace_of_free (free p u value)
          fun q outside => solves.domain.get?_eq_none outside
      rw [unfolds.solved τ solves p u value, settled]

end Bounds

namespace Program

theorem instantiateParams_covers
    (h : P.instantiateParams limit ps fixed = .ok (.ok σ)) :
    σ.HasDomain ps ∧ ∀ p ∈ ps, ∀ t, fixed.get? p = some t → σ.get? p = some t := by
  rw [instantiateParams_eq] at h
  obtain ⟨_, declared, h⟩ := bind_eq_ok.1 h
  obtain ⟨_, rfl⟩ := mapM_declaredBound.1 declared
  obtain ⟨r, run, rfl⟩ := except_map_eq_ok.1 (pure_eq_ok.1 h)
  rw [ofList_acyclic] at run
  have domain := hasDomain_converge hasDomain_start run
  refine ⟨fun p => ?_, fun p own t value => ?_⟩
  · rw [get?_insertAll_fixed]
    split
    · next known => exact ⟨fun _ => known.1, fun _ => known.2⟩
    · next unknown =>
      rw [domain p, mem_openParams]
      refine ⟨And.left, fun own => ⟨own, ?_⟩⟩
      exact Option.not_isSome_iff_eq_none.1 fun given => unknown ⟨own, given⟩
  · rw [get?_insertAll_fixed, if_pos ⟨own, by rw [value]; rfl⟩, value]

theorem normal_givenBound
    (bounds : ∀ p q t, P.params.get? p = some q → q.bound = some t → t.InNormalForm)
    (values : ∀ p t, fixed.get? p = some t → t.InNormalForm) :
    (P.givenBound fixed p).InNormalForm := by
  have declared : (((P.params.get? p).bind (·.bound)).getD Ty.object.orNull).InNormalForm := by
    cases bound : (P.params.get? p).bind (·.bound) with
    | none => decide
    | some t =>
      obtain ⟨q, found, bound⟩ := Option.bind_eq_some_iff.1 bound
      exact bounds p q t found bound
  unfold givenBound Ty.substitute
  split
  · exact declared
  · exact Ty.inNormalForm_replace values

/-- Instantiation to bounds covers the given parameters, keeps what is fixed, and solves the
    equations between the open parameters and their bounds. There is no other solution. -/
theorem instantiation_solves (P : Program) (limit : Nat) (params : List ParamId)
    (fixed S : Substitution)
    (bounds : ∀ p q t, P.params.get? p = some q → q.bound = some t → t.InNormalForm)
    (values : ∀ p t, fixed.get? p = some t → t.InNormalForm)
    (h : P.instantiateParams limit params fixed = .ok (.ok S)) :
    S.HasDomain params ∧
      (∀ p ∈ params, ∀ t, fixed.get? p = some t → S.get? p = some t) ∧
      ∃ σ, (∀ p ∈ openParams params fixed, S.get? p = σ.get? p) ∧
        (∀ p t, σ.get? p = some t → t.Free (openParams params fixed)) ∧
        Solves (openParams params fixed) (P.givenBound fixed) σ ∧
        ∀ τ, Solves (openParams params fixed) (P.givenBound fixed) τ → τ = σ := by
  obtain ⟨domain, keeps⟩ := instantiateParams_covers h
  rw [instantiateParams_eq] at h
  obtain ⟨_, declared, h⟩ := bind_eq_ok.1 h
  obtain ⟨_, rfl⟩ := mapM_declaredBound.1 declared
  obtain ⟨σ, run, rfl⟩ := except_map_eq_ok.1 (pure_eq_ok.1 h)
  obtain ⟨solves, free, unique⟩ :=
    solves_of_converge (fun p _ => normal_givenBound bounds values) run
  exact ⟨domain, keeps, σ, fun p opened => get?_insertAll_fixed_of_open opened, free, solves,
    unique⟩

theorem boundedParams_solved :
    let params : List ParamId := [⟨4⟩, ⟨5⟩, ⟨6⟩, ⟨7⟩, ⟨3⟩, ⟨4⟩]
    let fixed : Substitution := .ofList [(⟨3⟩, .interface ⟨5⟩ [])]
    let list : Ty := .interface ⟨10⟩ [.dynamic]
    let pair : Ty := .record [.nullable list, .interface ⟨5⟩ []]
    let S : Substitution := .ofList
      [(⟨3⟩, .interface ⟨5⟩ []), (⟨4⟩, pair), (⟨5⟩, pair), (⟨6⟩, .interface ⟨9⟩ [.dynamic]),
        (⟨7⟩, list)]
    boundedParams.instantiateParams 2 params fixed = .ok (.ok S) ∧ S.HasDomain params ∧
      ∃ σ, Solves (openParams params fixed) (boundedParams.givenBound fixed) σ ∧
        ∀ τ, Solves (openParams params fixed) (boundedParams.givenBound fixed) τ → τ = σ := by
  intro params fixed list pair S
  have bounds : ∀ q ∈ boundedParams.params.entries, ∀ t ∈ q.bound, t.InNormalForm := by decide
  have values : ∀ e ∈ fixed.entries, e.2.InNormalForm := by decide
  have instantiated : boundedParams.instantiateParams 2 params fixed = .ok (.ok S) := by
    decide +kernel
  obtain ⟨domain, _, σ, _, _, solves, unique⟩ :=
    instantiation_solves boundedParams 2 params fixed S
      (fun _ q t found => bounds q (Array.mem_of_getElem? found) t)
      (fun p t value => values (p, t) (Substitution.get?_eq_some.1 value)) instantiated
  exact ⟨instantiated, domain, σ, solves, unique⟩

end Program

end MemberAccess
