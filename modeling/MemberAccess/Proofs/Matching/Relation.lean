import Mathlib.Order.Filter.AtTopBot.Basic
import MemberAccess.Proofs.Matching.Pattern
import MemberAccess.Proofs.Typing.Answers
import MemberAccess.Proofs.Typing.Transitivity

/-!
Matching apart from its limits. Whether a type matches a pattern does not depend on what has been
found for the variables before, and what is found is recorded one by one in the order of the
variables in the pattern.
-/
namespace MemberAccess

structure Offer where
  param : ParamId
  type : Ty
  covariant : Bool

namespace Ty

def isUnion : Ty → Bool
  | .nullable _ | .futureOr _ => true
  | _ => false

end Ty

namespace Program

open Unification Filter

def record (P : Program) (limit : Nat) : List Offer → Step
  | [] => .done
  | o :: os => .andThen (P.bindLower limit o.param o.type) (P.record limit os)

/-- What a pattern and a type are matched by if their heads are not compared. -/
inductive Inner (P : Program) : Ty → Ty → Ty → Ty → Prop
  | nullable : Inner P (.nullable t) (.nullable c) t c
  | nullable_right : c ≠ .never → c ≠ .unknown → ¬ c.isNull → (∀ u, c ≠ .nullable u) →
      Inner P (.nullable t) c t c
  | futureOr : Inner P (.futureOr t) (.futureOr c) t c
  | future : Inner P (.futureOr t) (.interface .future (a :: as)) t a
  | futureOr_right : c ≠ .never → c ≠ .unknown → (∀ u, c ≠ .futureOr u) →
      c.declaration? ≠ some .future → Inner P (.futureOr t) c t c
  | param : ¬ t.isUnion → P.boundOf p = .ok bound → Inner P t (.param p) t bound
  | promoted : ¬ t.isUnion → Inner P t (.promoted p bound) t bound

/-- What a parameter of a function offers, which is compared the other way round. -/
inductive MatchesParam (P : Program) (vars : List ParamId) : Ty → Ty → List Offer → Prop
  | var : p ∈ vars → MatchesParam P vars (.param p) c [⟨p, c, false⟩]
  | free : t.Free vars → P.Derivable t c → MatchesParam P vars t c []

/-- What a type offers to the variables of a pattern that it matches. -/
inductive Matches (P : Program) (vars : List ParamId) : Nat → Ty → Ty → List Offer → Prop
  | var : p ∈ vars → Matches P vars (n + 1) (.param p) c [⟨p, c, true⟩]
  | free : t.Free vars → P.Derivable c t → Matches P vars (n + 1) t c []
  | bottom : ¬ t.Free vars → varOf? vars t = none → c = .never ∨ c = .unknown →
      Matches P vars (n + 1) t c []
  | null : ¬ t.Free vars → c.isNull → Matches P vars (n + 1) (.nullable t) c []
  | inner : ¬ t.Free vars → varOf? vars t = none → P.Inner t c t' c' → Matches P vars n t' c' os →
      Matches P vars (n + 1) t c os
  | interface : ¬ (Ty.interface e ps).Free vars → P.Reaches ⟨d, as⟩ ⟨e, xs⟩ →
      ps.length = xs.length → (∀ x ∈ ps.zip xs, Matches P vars n x.1 x.2 (f x)) →
      Matches P vars (n + 1) (.interface e ps) (.interface d as) ((ps.zip xs).flatMap f)
  | func : ¬ (Ty.func ps r).Free vars → ps.length = cs.length →
      (∀ x ∈ ps.zip cs, P.MatchesParam vars x.1 x.2 (f x)) → Matches P vars n r c os →
      Matches P vars (n + 1) (.func ps r) (.func cs c) ((ps.zip cs).flatMap f ++ os)
  | record : ¬ (Ty.record ps).Free vars → ps.length = cs.length →
      (∀ x ∈ ps.zip cs, Matches P vars n x.1 x.2 (f x)) →
      Matches P vars (n + 1) (.record ps) (.record cs) ((ps.zip cs).flatMap f)

variable {P : Program} {vars : List ParamId} {n m limit k : Nat} {t c a b t' c' : Ty}
  {os os' : List Offer} {p : ParamId} {s s' : Substitution} {ps cs : List Ty}

theorem Matches.succ (h : P.Matches vars n t c os) : P.Matches vars (n + 1) t c os := by
  induction h with
  | var hp => exact .var hp
  | free free derivable => exact .free free derivable
  | bottom mentions notVar extreme => exact .bottom mentions notVar extreme
  | null mentions isNull => exact .null mentions isNull
  | inner mentions notVar inner _ ih => exact .inner mentions notVar inner ih
  | interface mentions reaches hlength _ ih => exact .interface mentions reaches hlength ih
  | func mentions hlength params _ ih => exact .func mentions hlength params ih
  | record mentions hlength _ ih => exact .record mentions hlength ih

theorem Matches.mono (h : P.Matches vars n t c os) (hnm : n ≤ m) : P.Matches vars m t c os := by
  induction hnm with
  | refl => exact h
  | step _ ih => exact ih.succ

theorem Matches.offers_of_var (hp : p ∈ vars) (h : P.Matches vars n (.param p) c os) :
    os = [⟨p, c, true⟩] := by
  cases h with
  | var => rfl
  | free free => exact absurd hp (Ty.every_param.1 free p rfl)
  | bottom _ notVar | inner _ notVar => simp [varOf?, hp] at notVar

theorem Coherent.eventually_subtype (coherent : P.Coherent) (ha : P.Valid a) (hb : P.Valid b)
    (h : P.Derivable a b) : ∀ᶠ limit in atTop, P.isSubtype limit a b = .ok true := by
  obtain ⟨n, h⟩ := h
  filter_upwards [eventually_ge_atTop (2 * n)] with limit hlimit
  exact coherent.subtype_of_derives ha hb h (by omega)

section Steps

variable {first second third : Step}

theorem andThen_done : Step.andThen first .done = first := by
  funext s
  unfold Step.andThen
  cases first s with
  | error fault => rfl
  | ok found => cases found <;> rfl

theorem andThen_assoc :
    Step.andThen (.andThen first second) third = .andThen first (.andThen second third) := by
  funext s
  unfold Step.andThen
  cases first s with
  | error fault => rfl
  | ok found => cases found <;> rfl

theorem record_append :
    P.record limit (os ++ os') = .andThen (P.record limit os) (P.record limit os') := by
  induction os with
  | nil => rfl
  | cons o os ih => rw [List.cons_append, record, ih, record, andThen_assoc]

theorem each_eq_record {step : Ty → Ty → Step} {f : Ty × Ty → List Offer} {xs : List (Ty × Ty)}
    (h : ∀ x ∈ xs, step x.1 x.2 = P.record limit (f x)) :
    Step.each step xs = P.record limit (xs.flatMap f) := by
  induction xs with
  | nil => rfl
  | cons x xs ih =>
    obtain ⟨first, rest⟩ := List.forall_mem_cons.1 h
    rw [Step.each, first, ih rest, List.flatMap_cons, record_append]

theorem pairwise_eq_record {step : Ty → Ty → Step} {f : Ty × Ty → List Offer}
    (hlength : ps.length = cs.length) (h : ∀ x ∈ ps.zip cs, step x.1 x.2 = P.record limit (f x)) :
    Step.pairwise step ps cs = P.record limit ((ps.zip cs).flatMap f) := by
  rw [Step.pairwise, if_pos hlength, each_eq_record h]

end Steps

theorem eventually_forall_mem {α : Type} {l : List α} {holds : Nat → α → Prop}
    (h : ∀ x ∈ l, ∀ᶠ n in atTop, holds n x) : ∀ᶠ n in atTop, ∀ x ∈ l, holds n x := by
  induction l with
  | nil => simp
  | cons x l ih =>
    obtain ⟨first, rest⟩ := List.forall_mem_cons.1 h
    filter_upwards [first, ih rest] with n hn hl
    exact List.forall_mem_cons.2 ⟨hn, hl⟩

theorem Inner.valid (coherent : P.Coherent) (h : P.Inner t c t' c') (ht : P.Valid t)
    (hc : P.Valid c) : P.Valid t' ∧ P.Valid c' := by
  cases h with
  | nullable => exact ⟨valid_nullable.1 ht, valid_nullable.1 hc⟩
  | nullable_right => exact ⟨valid_nullable.1 ht, hc⟩
  | futureOr => exact ⟨valid_futureOr.1 ht, valid_futureOr.1 hc⟩
  | future => exact ⟨valid_futureOr.1 ht, (valid_interface.1 hc).2 _ List.mem_cons_self⟩
  | futureOr_right => exact ⟨valid_futureOr.1 ht, hc⟩
  | param _ hbound => exact ⟨ht, coherent.valid_boundOf hbound⟩
  | promoted => exact ⟨ht, (valid_promoted.1 hc).2⟩

theorem Inner.matchByShape {go : Ty → Ty → Step} (h : P.Inner t c t' c') :
    P.matchByShape limit vars go t c = go t' c' := by
  cases h with
  | nullable => rfl
  | nullable_right notNever notUnknown notNull notNullable =>
    cases c with
    | never => exact absurd rfl notNever
    | unknown => exact absurd rfl notUnknown
    | nullable u => exact absurd rfl (notNullable u)
    | interface d as => exact if_neg notNull
    | _ => rfl
  | futureOr => rfl
  | future => rfl
  | futureOr_right notNever notUnknown notFutureOr notFuture =>
    cases c with
    | never => exact absurd rfl notNever
    | unknown => exact absurd rfl notUnknown
    | futureOr u => exact absurd rfl (notFutureOr u)
    | interface d as => exact if_neg (by simpa [Ty.declaration?] using notFuture)
    | _ => rfl
  | @param p _ _ notUnion hbound =>
    funext s
    have bound_eq : (do go t (← P.boundOf p) s) = go t c' s := by rw [hbound, ok_bind]
    cases t with
    | nullable | futureOr => exact absurd rfl notUnion
    | _ => exact bound_eq
  | promoted notUnion =>
    cases t with
    | nullable | futureOr => exact absurd rfl notUnion
    | _ => rfl

section Run

variable (coherent : P.Coherent)

theorem matchType_var (hp : p ∈ vars) :
    P.matchType limit vars (n + 1) (.param p) c = P.bindLower limit p c := by
  simp [matchType, varOf?, hp]

theorem varOf?_of_free (free : t.Free vars) : varOf? vars t = none := by
  cases t with
  | param p =>
    have outside : p ∉ vars := Ty.every_param.1 free p rfl
    simp [varOf?, outside]
  | _ => rfl

theorem matchType_free (free : t.Free vars) :
    P.matchType limit vars (n + 1) t c = .check (P.isSubtype limit c t) := by
  rw [matchType, varOf?_of_free free]
  exact if_neg (Ty.not_mentionsAny_iff.2 free)

theorem matchType_mentions (mentions : ¬ t.Free vars) (notVar : varOf? vars t = none) :
    P.matchType limit vars (n + 1) t c =
      P.matchByShape limit vars (P.matchType limit vars n) t c := by
  rw [matchType, notVar]
  exact if_pos (Ty.mentionsAny_iff.2 mentions)

include coherent

theorem MatchesParam.run (ht : P.Valid t) (hc : P.Valid c) (h : P.MatchesParam vars t c os) :
    ∀ᶠ limit in atTop, P.matchParam limit vars t c = P.record limit os := by
  cases h with
  | var hp =>
    refine .of_forall fun limit => ?_
    simp [matchParam, varOf?, hp, record, andThen_done]
  | free free derivable =>
    filter_upwards [coherent.eventually_subtype ht hc derivable] with limit hlimit
    rw [matchParam, varOf?_of_free free]
    simp only [Ty.not_mentionsAny_iff.2 free]
    rw [hlimit]
    rfl

/-- A type that matches a pattern does so from some limit on, and the depth does not matter. -/
theorem Matches.run (ht : P.Valid t) (hc : P.Valid c) (h : P.Matches vars n t c os) :
    ∀ᶠ limit in atTop, ∀ k ≥ n, P.matchType limit vars k t c = P.record limit os := by
  have step {n k : Nat} (hk : k ≥ n + 1) : ∃ m, k = m + 1 ∧ m ≥ n := ⟨k - 1, by omega, by omega⟩
  induction h with
  | var hp =>
    refine .of_forall fun limit k hk => ?_
    obtain ⟨m, rfl, _⟩ := step hk
    rw [matchType_var hp]
    exact andThen_done.symm
  | free free derivable =>
    filter_upwards [coherent.eventually_subtype hc ht derivable] with limit hlimit k hk
    obtain ⟨m, rfl, _⟩ := step hk
    rw [matchType_free free, hlimit]
    rfl
  | bottom mentions notVar extreme =>
    refine .of_forall fun limit k hk => ?_
    obtain ⟨m, rfl, _⟩ := step hk
    rw [matchType_mentions mentions notVar]
    rcases extreme with rfl | rfl <;> rfl
  | @null n t c mentions isNull =>
    refine .of_forall fun limit k hk => ?_
    obtain ⟨m, rfl, _⟩ := step hk
    rw [matchType_mentions (mt Ty.free_nullable.1 mentions) rfl]
    cases c with
    | interface d as => exact if_pos isNull
    | _ => cases isNull
  | inner mentions notVar inner _ ih =>
    obtain ⟨ht, hc⟩ := inner.valid coherent ht hc
    filter_upwards [ih ht hc] with limit hlimit k hk
    obtain ⟨m, rfl, hm⟩ := step hk
    rw [matchType_mentions mentions notVar, inner.matchByShape, hlimit m hm]
  | @interface e ps d as xs n f mentions reaches hlength _ ih =>
    have validXs := (valid_interface.1 (coherent.valid_of_reaches (i := ⟨d, as⟩) hc reaches)).2
    have each := eventually_forall_mem fun x hx =>
      ih x hx ((valid_interface.1 ht).2 _ (List.of_mem_zip hx).1) (validXs _ (List.of_mem_zip hx).2)
    obtain ⟨args, hargs, all⟩ := coherent.superArgs_eq_ok (i := ⟨d, as⟩) hc e
    rw [(all xs).2 reaches] at hargs
    filter_upwards [each] with limit hlimit k hk
    obtain ⟨m, rfl, hm⟩ := step hk
    rw [matchType_mentions mentions rfl, matchByShape, hargs]
    exact pairwise_eq_record hlength fun x hx => hlimit x hx m hm
  | @func ps cs r c n f os mentions hlength params _ ih =>
    obtain ⟨validPs, validR⟩ := valid_func.1 ht
    obtain ⟨validCs, validC⟩ := valid_func.1 hc
    have each := eventually_forall_mem fun x hx =>
      (params x hx).run coherent (validPs _ (List.of_mem_zip hx).1)
        (validCs _ (List.of_mem_zip hx).2)
    filter_upwards [each, ih validR validC] with limit hparams hresult k hk
    obtain ⟨m, rfl, hm⟩ := step hk
    rw [matchType_mentions mentions rfl, matchByShape, pairwise_eq_record hlength hparams,
      hresult m hm, record_append]
  | @record ps cs n f mentions hlength _ ih =>
    have each := eventually_forall_mem fun x hx =>
      ih x hx (valid_record.1 ht _ (List.of_mem_zip hx).1)
        (valid_record.1 hc _ (List.of_mem_zip hx).2)
    filter_upwards [each] with limit hlimit k hk
    obtain ⟨m, rfl, hm⟩ := step hk
    rw [matchType_mentions mentions rfl, matchByShape]
    exact pairwise_eq_record hlength fun x hx => hlimit x hx m hm

omit coherent

section Found

variable {first second : Step}

theorem andThen_eq_some :
    Step.andThen first second s = .ok (some s') ↔
      ∃ r, first s = .ok (some r) ∧ second r = .ok (some s') := by
  unfold Step.andThen
  rw [bind_eq_ok]
  constructor
  · rintro ⟨found, hfirst, hsecond⟩
    cases found with
    | none => cases hsecond
    | some r => exact ⟨r, hfirst, hsecond⟩
  · rintro ⟨r, hfirst, hsecond⟩
    exact ⟨some r, hfirst, hsecond⟩

theorem check_eq_some {holds : Except Fault Bool} :
    Step.check holds s = .ok (some s') ↔ holds = .ok true ∧ s = s' := by
  unfold Step.check
  rw [bind_eq_ok]
  constructor
  · rintro ⟨answer, rfl, h⟩
    cases answer with
    | true => exact ⟨rfl, by simpa using h⟩
    | false => simp at h
  · rintro ⟨rfl, rfl⟩
    exact ⟨true, rfl, rfl⟩

theorem each_eq_some {step : Ty → Ty → Step} {xs : List (Ty × Ty)}
    (h : Step.each step xs s = .ok (some s')) :
    ∀ x ∈ xs, ∃ r r', step x.1 x.2 r = .ok (some r') := by
  induction xs generalizing s with
  | nil => simp
  | cons x xs ih =>
    obtain ⟨r, first, rest⟩ := andThen_eq_some.1 h
    exact List.forall_mem_cons.2 ⟨⟨s, r, first⟩, ih rest⟩

theorem pairwise_eq_some {step : Ty → Ty → Step}
    (h : Step.pairwise step ps cs s = .ok (some s')) :
    ps.length = cs.length ∧ ∀ x ∈ ps.zip cs, ∃ r r', step x.1 x.2 r = .ok (some r') := by
  unfold Step.pairwise at h
  split at h
  · next hlength => exact ⟨hlength, each_eq_some h⟩
  · cases h

theorem exists_offers {R : Ty × Ty → List Offer → Prop} {xs : List (Ty × Ty)}
    (h : ∀ x ∈ xs, ∃ os, R x os) : ∃ f : Ty × Ty → List Offer, ∀ x ∈ xs, R x (f x) := by
  refine Classical.skolem (p := fun x os => x ∈ xs → R x os) |>.1 fun x => ?_
  by_cases hx : x ∈ xs
  · obtain ⟨os, hos⟩ := h x hx
    exact ⟨os, fun _ => hos⟩
  · exact ⟨[], fun h => absurd h hx⟩

end Found

include coherent

theorem matchesParam_of_run (ht : P.Valid t) (hc : P.Valid c)
    (h : P.matchParam limit vars t c s = .ok (some s')) : ∃ os, P.MatchesParam vars t c os := by
  unfold matchParam at h
  cases isVar : varOf? vars t with
  | some p =>
    obtain ⟨rfl, hp⟩ := Closed.varOf?_eq_some.1 isVar
    exact ⟨_, .var hp⟩
  | none =>
    rw [isVar] at h
    by_cases free : t.Free vars
    · simp only [Ty.not_mentionsAny_iff.2 free] at h
      have holds := (check_eq_some.1 h).1
      exact ⟨[], .free free (coherent.derives_of_subtype ht hc holds).derivable⟩
    · simp only [Ty.mentionsAny_iff.2 free] at h
      cases h

theorem matches_of_shape (ht : P.Valid t) (hc : P.Valid c) (mentions : ¬ t.Free vars)
    (notVar : varOf? vars t = none)
    (ih : ∀ t c s s', P.Valid t → P.Valid c → P.matchType limit vars n t c s = .ok (some s') →
      ∃ os, P.Matches vars n t c os)
    (h : P.matchByShape limit vars (P.matchType limit vars n) t c s = .ok (some s')) :
    ∃ os, P.Matches vars (n + 1) t c os := by
  have inner {t' c' : Ty} {r : Substitution} (inner : P.Inner t c t' c')
      (h : P.matchType limit vars n t' c' r = .ok (some s')) :
      ∃ os, P.Matches vars (n + 1) t c os := by
    obtain ⟨ht, hc⟩ := inner.valid coherent ht hc
    obtain ⟨os, hos⟩ := ih _ _ _ _ ht hc h
    exact ⟨os, .inner mentions notVar inner hos⟩
  have notUnion (notNullable : ∀ u, t ≠ .nullable u) (notFutureOr : ∀ u, t ≠ .futureOr u) :
      ¬ t.isUnion := by
    cases t <;> simp_all [Ty.isUnion]
  have components {ps cs : List Ty} {x : Ty × Ty} (validCs : ∀ c ∈ cs, P.Valid c)
      (validPs : ∀ p ∈ ps, P.Valid p) (hx : x ∈ ps.zip cs)
      (found : ∃ r r', P.matchType limit vars n x.1 x.2 r = .ok (some r')) :
      ∃ os, P.Matches vars n x.1 x.2 os := by
    obtain ⟨_, _, found⟩ := found
    exact ih _ _ _ _ (validPs _ (List.of_mem_zip hx).1) (validCs _ (List.of_mem_zip hx).2) found
  unfold matchByShape at h
  split at h
  · exact ⟨[], .bottom mentions notVar (.inr rfl)⟩
  · exact ⟨[], .bottom mentions notVar (.inl rfl)⟩
  · exact inner .nullable h
  · next notUnknown notNever notNullable =>
    split at h
    · next isNull => exact ⟨[], .null (mt Ty.free_nullable.2 mentions) isNull⟩
    · next notNull =>
      exact inner (.nullable_right notNever notUnknown notNull fun u hu => notNullable u hu) h
  · exact inner .futureOr h
  · split at h
    · next isFuture =>
      subst isFuture
      split at h
      · exact inner .future h
      · cases h
    · next notFuture =>
      exact inner (.futureOr_right (by simp) (by simp) (by simp)
        (by simpa [Ty.declaration?] using notFuture)) h
  · next notUnknown notNever notFutureOr notInterface =>
    refine inner (.futureOr_right notNever notUnknown (fun u hu => notFutureOr u hu) ?_) h
    cases c <;> simp_all [Ty.declaration?]
  · next notNullable notFutureOr =>
    simp only [bind_eq_ok] at h
    obtain ⟨bound, hbound, h⟩ := h
    exact inner (.param (notUnion notNullable notFutureOr) hbound) h
  · next notNullable notFutureOr => exact inner (.promoted (notUnion notNullable notFutureOr)) h
  · next e ps d as =>
    obtain ⟨args, hargs, h⟩ := bind_eq_ok.1 h
    obtain ⟨args', hargs', all⟩ := coherent.superArgs_eq_ok (i := ⟨d, as⟩) hc e
    rw [hargs] at hargs'
    cases hargs'
    cases args with
    | none => cases h
    | some xs =>
      have reaches := (all xs).1 rfl
      have validXs := (valid_interface.1 (coherent.valid_of_reaches (i := ⟨d, as⟩) hc reaches)).2
      obtain ⟨hlength, each⟩ := pairwise_eq_some h
      obtain ⟨f, hf⟩ := exists_offers fun x hx => components validXs
        (valid_interface.1 ht).2 hx (each x hx)
      exact ⟨_, .interface mentions reaches hlength hf⟩
  · next ps r cs u =>
    obtain ⟨validPs, validR⟩ := valid_func.1 ht
    obtain ⟨validCs, validU⟩ := valid_func.1 hc
    obtain ⟨r', params, result⟩ := andThen_eq_some.1 h
    obtain ⟨hlength, each⟩ := pairwise_eq_some params
    obtain ⟨f, hf⟩ := exists_offers fun x hx => by
      obtain ⟨_, _, found⟩ := each x hx
      exact matchesParam_of_run coherent (validPs _ (List.of_mem_zip hx).1)
        (validCs _ (List.of_mem_zip hx).2) found
    obtain ⟨os, hos⟩ := ih _ _ _ _ validR validU result
    exact ⟨_, .func mentions hlength hf hos⟩
  · obtain ⟨hlength, each⟩ := pairwise_eq_some h
    obtain ⟨f, hf⟩ := exists_offers fun x hx => components (valid_record.1 hc)
      (valid_record.1 ht) hx (each x hx)
    exact ⟨_, .record mentions hlength hf⟩
  · cases h

theorem matches_of_run (ht : P.Valid t) (hc : P.Valid c)
    (h : P.matchType limit vars n t c s = .ok (some s')) : ∃ os, P.Matches vars n t c os := by
  induction n generalizing t c s s' with
  | zero => cases h
  | succ n ih =>
    by_cases free : t.Free vars
    · rw [matchType_free free] at h
      have holds := (check_eq_some.1 h).1
      exact ⟨[], .free free (coherent.derives_of_subtype hc ht holds).derivable⟩
    cases isVar : varOf? vars t with
    | some p =>
      obtain ⟨rfl, hp⟩ := Closed.varOf?_eq_some.1 isVar
      exact ⟨_, .var hp⟩
    | none =>
      rw [matchType_mentions free isVar] at h
      exact matches_of_shape coherent ht hc free isVar (fun _ _ _ _ => ih) h

end Run

end Program

end MemberAccess
