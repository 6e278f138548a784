import Mathlib.Algebra.Group.Nat.Defs
import MemberAccess.Proofs.Instantiation.Breaking

/-!
How fast instantiation to bounds converges. A round substitutes all types at once, so it doubles
the number of bounds that each type has been through.
-/
namespace MemberAccess

open Program Bounds Relation

variable {P : Program} {vars ps : List ParamId} {B : ParamId → Ty} {s σ S fixed : Substitution}
  {bounds : List (ParamId × Ty)} {n m : Nat} {p q : ParamId} {t : Ty}

namespace Bounds

theorem get?_round :
    (s.mapTypes (·.substitute s)).get? p = Ty.followedBy s.get? s.get? p := by
  rw [Substitution.get?_mapTypes, Ty.followedBy]
  cases value : s.get? p with
  | none => rfl
  | some u => simp only [Option.map_some, Option.elim_some, Ty.substitute_of_mem value]

section Rounds

variable {rank : ParamId → Nat}

/-- Whether the open parameters that a type mentions rank lower than its own one by some margin. -/
def Descends (vars : List ParamId) (rank : ParamId → Nat) (m : Nat) (s : Substitution) : Prop :=
  ∀ p u, s.get? p = some u → ∀ q ∈ u.params, q ∈ vars → rank q + m ≤ rank p

theorem Descends.round (descends : Descends vars rank m s) (domain : s.HasDomain vars) :
    Descends vars rank (2 * m) (s.mapTypes (·.substitute s)) := by
  intro p u' value' q hq own
  rw [get?_round, Ty.followedBy] at value'
  cases value : s.get? p with
  | none => simp [value] at value'
  | some u =>
    rw [value] at value'
    cases value'
    rcases Ty.mem_params_replace hq with ⟨_, absent⟩ | ⟨r, hr, v, inner, hq⟩
    · have present := (domain q).2 own
      rw [absent] at present
      cases present
    · have between : r ∈ vars := (domain r).1 (by rw [inner]; rfl)
      have above : rank r + m ≤ rank p := descends p u value r hr between
      have below : rank q + m ≤ rank r := descends r v inner q hq own
      omega

theorem converge_of_closed (closed : firstOpen? s vars = none) : converge vars n s = .ok s := by
  unfold converge
  rw [closed]

theorem converge_succ (h : firstOpen? s vars = some p) :
    converge vars (n + 1) s = converge vars n (s.mapTypes (·.substitute s)) := by
  conv_lhs => unfold converge
  rw [h]

/-- The margin doubles in each round, so it exceeds all ranks after logarithmically many. -/
theorem exists_converge (descends : Descends vars rank m s) (domain : s.HasDomain vars)
    (enough : ∀ p ∈ vars, rank p < m * 2 ^ n) : ∃ S, converge vars n s = .ok S := by
  induction n generalizing m s with
  | zero =>
    refine ⟨s, converge_of_closed (firstOpen?_eq_none.2 fun p u value => ?_)⟩
    refine Ty.free_iff.2 fun q hq own => ?_
    have margin : rank q + m ≤ rank p := descends p u value q hq own
    have small : rank p < m * 2 ^ 0 := enough p ((domain p).1 (by rw [value]; rfl))
    omega
  | succ n ih =>
    cases first : firstOpen? s vars with
    | none => exact ⟨s, converge_of_closed first⟩
    | some p =>
      rw [converge_succ first]
      refine ih (descends.round domain) domain.mapTypes fun p own => ?_
      have small : rank p < m * 2 ^ (n + 1) := enough p own
      rw [Nat.pow_succ] at small
      calc rank p < m * (2 ^ n * 2) := small
        _ = m * (2 * 2 ^ n) := by rw [Nat.mul_comm (2 ^ n)]
        _ = 2 * m * 2 ^ n := by rw [Nat.mul_left_comm, Nat.mul_assoc]

end Rounds

theorem hasDomain_converge (domain : s.HasDomain vars) (run : converge vars n s = .ok σ) :
    σ.HasDomain vars := by
  fun_induction converge vars n s with
  | case1 n s closed =>
    cases run
    exact domain
  | case2 s p opened => cases run
  | case3 n s p opened ih => exact ih domain.mapTypes run

theorem free_of_converge (run : converge vars n s = .ok σ) :
    ∀ p t, σ.get? p = some t → t.Free vars := by
  fun_induction converge vars n s with
  | case1 n s closed =>
    cases run
    exact firstOpen?_eq_none.1 closed
  | case2 s p opened => cases run
  | case3 n s p opened ih => exact ih run

theorem exists_converge_acyclic (enough : vars.toFinset.card ≤ 2 ^ n) :
    ∃ S, converge vars n (.ofList (acyclic vars (vars.map fun p => (p, B p)))) = .ok S := by
  rw [ofList_acyclic]
  have acyclic (p : ParamId) : ¬ TransGen (Depends vars (brokenBound vars B)) p p :=
    acyclic_brokenBound
  have descends : Descends vars (reach vars (brokenBound vars B)) 1 (start vars B) := by
    intro p u value q hq own
    obtain ⟨listed, rfl⟩ := get?_start.1 value
    exact reach_lt acyclic ⟨listed, own, hq⟩
  refine exists_converge descends hasDomain_start fun p own => ?_
  have small : reach vars (brokenBound vars B) p < vars.toFinset.card := reach_lt_card acyclic own
  omega

end Bounds

namespace Program

/-- The declared bound of a parameter with the types that are fixed. -/
def givenBound (P : Program) (fixed : Substitution) (p : ParamId) : Ty :=
  (((P.params.get? p).bind (·.bound)).getD Ty.object.orNull).substitute fixed

theorem declaredBound_eq_ok {b : ParamId × Ty} :
    P.declaredBound fixed p = .ok b ↔ (P.params.get? p).isSome ∧ b = (p, P.givenBound fixed p) := by
  simp only [declaredBound, givenBound, bind_eq_ok, pure_eq_ok, boundOf_eq_ok]
  constructor
  · rintro ⟨_, ⟨q, found, rfl⟩, rfl⟩
    simp [found]
  · rintro ⟨present, rfl⟩
    obtain ⟨q, found⟩ := Option.isSome_iff_exists.1 present
    exact ⟨_, ⟨q, found, rfl⟩, by simp [found]⟩

theorem mapM_declaredBound : vars.mapM (P.declaredBound fixed) = .ok bounds ↔
    (∀ p ∈ vars, (P.params.get? p).isSome) ∧
      bounds = vars.map fun p => (p, P.givenBound fixed p) := by
  induction vars generalizing bounds with
  | nil =>
    simp only [List.mapM_nil, pure_eq_ok, List.map_nil, List.not_mem_nil, false_imp_iff,
      implies_true, true_and]
    exact eq_comm
  | cons p vars ih =>
    rw [List.mapM_cons, List.forall_mem_cons, List.map_cons]
    simp only [bind_eq_ok, pure_eq_ok, declaredBound_eq_ok, ih]
    constructor
    · rintro ⟨_, ⟨first, rfl⟩, _, ⟨rest, rfl⟩, rfl⟩
      exact ⟨⟨first, rest⟩, rfl⟩
    · rintro ⟨⟨first, rest⟩, rfl⟩
      exact ⟨_, ⟨first, rfl⟩, _, ⟨rest, rfl⟩, rfl⟩

theorem get?_insertAll_fixed :
    (σ.insertAll (ps.filterMap fun p => (fixed.get? p).map (p, ·))).get? p =
      if p ∈ ps ∧ (fixed.get? p).isSome then fixed.get? p else σ.get? p := by
  have listed (e : ParamId × Ty) : e ∈ ps.filterMap (fun p => (fixed.get? p).map (p, ·)) ↔
      e.1 ∈ ps ∧ fixed.get? e.1 = some e.2 := by
    rw [List.mem_filterMap]
    constructor
    · rintro ⟨p, own, value⟩
      obtain ⟨t, found, rfl⟩ := Option.map_eq_some_iff.1 value
      exact ⟨own, found⟩
    · rintro ⟨own, value⟩
      exact ⟨e.1, own, by rw [value]; rfl⟩
  split
  · next known =>
    obtain ⟨own, given⟩ := known
    obtain ⟨t, value⟩ := Option.isSome_iff_exists.1 given
    rw [value]
    apply Substitution.get?_insertAll_of_unique
    · exact ⟨(p, t), (listed _).2 ⟨own, value⟩, rfl⟩
    · rintro e member rfl
      rw [((listed e).1 member).2] at value
      exact Option.some.inj value
  · next unknown =>
    apply Substitution.get?_insertAll_of_absent
    rintro e member rfl
    obtain ⟨own, value⟩ := (listed e).1 member
    exact unknown ⟨own, by rw [value]; rfl⟩

theorem get?_insertAll_fixed_of_open (opened : p ∈ openParams ps fixed) :
    (σ.insertAll (ps.filterMap fun p => (fixed.get? p).map (p, ·))).get? p = σ.get? p := by
  rw [get?_insertAll_fixed, if_neg]
  rintro ⟨_, known⟩
  rw [(mem_openParams.1 opened).2] at known
  cases known

theorem exists_instantiateParams {limit : Nat}
    (present : ∀ p ∈ openParams ps fixed, (P.params.get? p).isSome)
    (enough : (openParams ps fixed).toFinset.card ≤ 2 ^ limit) :
    ∃ S, P.instantiateParams limit ps fixed = .ok (.ok S) ∧
      ∀ p ∈ openParams ps fixed, ∃ t, S.get? p = some t ∧ t.Free (openParams ps fixed) := by
  obtain ⟨σ, converged⟩ := exists_converge_acyclic (B := P.givenBound fixed) enough
  rw [instantiateParams_eq, mapM_declaredBound.2 ⟨present, rfl⟩, ok_bind, converged]
  refine ⟨_, rfl, fun p opened => ?_⟩
  rw [ofList_acyclic] at converged
  have domain : σ.HasDomain (openParams ps fixed) := hasDomain_converge hasDomain_start converged
  obtain ⟨t, value⟩ := Option.isSome_iff_exists.1 ((domain p).2 opened)
  exact ⟨t, (get?_insertAll_fixed_of_open opened).trans value,
    free_of_converge converged p t value⟩

/-- Instantiation to bounds takes logarithmically many rounds, whatever the bounds are, and leaves
    no open parameter in the types it returns. A single parameter takes no round at all. -/
theorem instantiation_converges (P : Program) :
    (∀ limit params fixed, (∀ p ∈ openParams params fixed, (P.params.get? p).isSome) →
      (openParams params fixed).toFinset.card ≤ 2 ^ limit →
      ∃ S, P.instantiateParams limit params fixed = .ok (.ok S) ∧
        ∀ p ∈ openParams params fixed,
          ∃ t, S.get? p = some t ∧ t.Free (openParams params fixed)) ∧
    ∀ limit p, (P.params.get? p).isSome →
      ∃ t, P.instantiateParam limit p = .ok (.ok t) ∧ t.Free [p] := by
  refine ⟨fun limit params fixed => exists_instantiateParams, fun limit p present => ?_⟩
  have single : openParams [p] .empty = [p] := rfl
  obtain ⟨S, instantiated, closed⟩ : ∃ S, P.instantiateParams limit [p] .empty = .ok (.ok S) ∧
      ∀ q ∈ openParams [p] .empty, ∃ t, S.get? q = some t ∧ t.Free (openParams [p] .empty) := by
    apply exists_instantiateParams
    · simpa [single] using present
    · exact Nat.one_le_two_pow
  obtain ⟨t, value, free⟩ := closed p (List.mem_singleton_self p)
  refine ⟨t, ?_, free⟩
  rw [instantiateParam, instantiated, ok_bind, Except.map, value]
  rfl

/-- Parameters `A extends B`, `B extends (V?, E)`, `K extends Iterable<V>` and `V extends List<K>`,
    the last two of which are on a cycle. -/
def boundedParams : Program :=
  { core with
    params := .ofList
      [⟨"T", none⟩, ⟨"T", none⟩, ⟨"E", none⟩, ⟨"E", none⟩,
        ⟨"A", some (.param ⟨5⟩)⟩,
        ⟨"B", some (.record [.nullable (.param ⟨7⟩), .param ⟨3⟩])⟩,
        ⟨"K", some (.interface ⟨9⟩ [.param ⟨7⟩])⟩,
        ⟨"V", some (.interface ⟨10⟩ [.param ⟨6⟩])⟩] }

theorem boundedParams_converge :
    let params : List ParamId := [⟨4⟩, ⟨5⟩, ⟨6⟩, ⟨7⟩, ⟨4⟩]
    (openParams params .empty).toFinset.card = 2 ^ 2 ∧
      ∃ S, boundedParams.instantiateParams 2 params .empty = .ok (.ok S) ∧
        ∀ p ∈ openParams params .empty,
          ∃ t, S.get? p = some t ∧ t.Free (openParams params .empty) :=
  ⟨by decide, (instantiation_converges boundedParams).1 2 _ .empty (by decide) (by decide)⟩

end Program

end MemberAccess
