import MemberAccess.Proofs.Matching.Merging
import MemberAccess.Proofs.Resolution.Contributions
import MemberAccess.Proofs.Typing.Inheritance
import MemberAccess.Visibility

/-!
Applicability and subtypes. A declaration that applies to a type applies to its subtypes as well, as
far as matching is complete for them and what they offer to the variables can be merged.
-/
namespace MemberAccess.Program

open Filter Unification

/-- Whether a declaration is kept for a value of a type. Other visible declarations do not matter
    for that. -/
def Keeps (P : Program) (options : Options) (site : Site) (t : Ty) (d : DeclId) : Prop :=
  (P.session options).applicable { site with receiver := .value t } [d] = .ok [d]

variable {P : Program} {options : Options} {site : Site} {vars : List ParamId} {limit n : Nat}
  {a b c t u : Ty} {d : DeclId} {decl : Decl} {os : List Offer} {s : Substitution} {φ : Ty → Prop}

theorem applies_value {s : Session} (isValue : site.receiver = .value t) {denoted : List TypeId} :
    s.applies site denoted decl = .ok true ↔ (∀ target, decl.body ≠ .shorthand target) ∧
      ∃ solution, s.oracle.unify decl.appliesTo site.context decl.params = .ok (some solution) := by
  unfold Session.applies
  rw [isValue]
  cases body : decl.body with
  | shorthand target => simp
  | extension | view =>
    simp only [bind_eq_ok, pure_eq_ok, Option.isSome_iff_exists]
    grind

theorem keeps_iff (hd : P.decls.get? d = some decl) : P.Keeps options site t d ↔
    t ≠ .dynamic ∧ decl.hasFittingMember { site with receiver := .value t } ∧
      (∀ target, decl.body ≠ .shorthand target) ∧
      ∃ s, P.unify options.limit decl.appliesTo t decl.params = .ok (some s) := by
  have single : [d].eraseDups = [d] := by simp [List.eraseDups_cons]
  have fetched : (P.session options).program.decls.fetch d = .ok decl := Table.fetch_eq_ok.2 hd
  have isValue : ({ site with receiver := .value t } : Site).receiver = .value t := rfl
  unfold Keeps
  generalize { site with receiver := .value t } = site at isValue
  have context : site.context = t := by simp [Site.context, isValue]
  have noShorthand : site.isShorthand = false := by simp [Site.isShorthand, isValue]
  by_cases isDynamic : t = .dynamic
  · have dynamic : site.isDynamic := by simp [Site.isDynamic, noShorthand, context, isDynamic]
    simp [Session.applicable, dynamic, isDynamic]
  · have dynamic : site.isDynamic = false := by simp [Site.isDynamic, context, isDynamic]
    have denoted : (P.session options).denotedBy site = .ok [] := by
      simp [Session.denotedBy, noShorthand]
    have applies : (P.session options).applies site [] decl = .ok true ↔ _ :=
      applies_value isValue
    rw [Session.applicable_of_not_dynamic dynamic, single, denoted, ok_bind,
      Session.applicableAmong, fetched, ok_bind]
    cases fitting : decl.hasFittingMember site with
    | false => simp [Session.applicableAmong]
    | true =>
      rw [context] at applies
      simp only [isDynamic, ne_eq, not_false_eq_true, true_and]
      refine .trans ?_ applies
      cases (P.session options).applies site [] decl with
      | error => simp
      | ok answer => cases answer <;> simp [Session.applicableAmong]

theorem unify_eq_some : P.unify limit t c vars = .ok (some s) ↔
    P.matchType limit vars (limit + 1) t c .empty = .ok (some s) ∧
      ((t.substitute s).mentionsAny vars ∨ P.isSubtype limit c (t.substitute s) = .ok true) := by
  unfold unify
  rw [bind_eq_ok]
  constructor
  · rintro ⟨found, hmatch, h⟩
    cases found with
    | none => cases h
    | some r =>
      simp only at h
      split at h
      · next mentions =>
        cases h
        exact ⟨hmatch, .inl mentions⟩
      · obtain ⟨answer, hanswer, h⟩ := bind_eq_ok.1 h
        cases answer with
        | true =>
          cases h
          exact ⟨hmatch, .inr hanswer⟩
        | false => cases h
  · rintro ⟨hmatch, accepted⟩
    refine ⟨some s, hmatch, ?_⟩
    simp only
    split
    · rfl
    · next mentions => rw [accepted.resolve_left mentions]; rfl

theorem MatchesParam.valid_offers (valid : P.Valid c) (h : P.MatchesParam vars t c os) :
    ∀ o ∈ os, P.Valid o.type := by
  cases h with
  | var => simpa using valid
  | free => simp

theorem Matches.valid_offers (coherent : P.Coherent) (valid : P.Valid c)
    (h : P.Matches vars n t c os) : ∀ o ∈ os, P.Valid o.type := by
  have hereditary := coherent.hereditary_valid
  induction h with
  | var => simpa using valid
  | free | bottom | null => simp
  | inner _ _ inner _ ih => exact ih (inner.hereditary hereditary valid)
  | interface _ reaches _ _ ih =>
    intro o ho
    obtain ⟨x, hx, ho⟩ := List.mem_flatMap.1 ho
    exact ih x hx (hereditary _ _ (.argument reaches (List.of_mem_zip hx).2) valid) o ho
  | func _ _ params _ ih =>
    obtain ⟨validParams, validResult⟩ := valid_func.1 valid
    refine List.forall_mem_append.2 ⟨fun o ho => ?_, ih validResult⟩
    obtain ⟨x, hx, ho⟩ := List.mem_flatMap.1 ho
    exact (params x hx).valid_offers (validParams _ (List.of_mem_zip hx).2) o ho
  | record _ _ _ ih =>
    intro o ho
    obtain ⟨x, hx, ho⟩ := List.mem_flatMap.1 ho
    exact ih x hx (valid_record.1 valid _ (List.of_mem_zip hx).2) o ho

/-- What matches a pattern unifies with it from some limit on, if what it offers can be merged. -/
theorem Matches.unify (coherent : P.Coherent) (ht : P.Valid t) (unpromoted : t.Unpromoted vars)
    (fits : P.Fits false b) (mergeable : P.Mergeable os) (h : P.Matches vars n t b os) :
    ∀ᶠ limit in atTop, ∃ s, P.unify limit t b vars = .ok (some s) := by
  have offers := h.valid_offers coherent fits.valid
  have run := h.run coherent ht fits.valid
  by_cases free : t.Free vars
  · cases h with
    | var hp => exact absurd hp (Ty.every_param.1 free _ rfl)
    | free _ below =>
      filter_upwards [coherent.eventually_subtype fits.valid ht below] with limit hlimit
      refine ⟨.empty, unify_eq_some.2 ⟨?_, .inr hlimit⟩⟩
      rw [matchType_free free, hlimit]
      rfl
    | bottom mentions | inner mentions | interface mentions | func mentions | record mentions =>
      exact absurd free mentions
    | null mentions => exact absurd (Ty.free_nullable.1 free) mentions
  obtain ⟨f, recorded, absent, respected⟩ := mergeable.solution coherent offers
  have outside (p : ParamId) (hp : p ∉ vars) : f p = none :=
    absent p fun o ho same => hp (same ▸ h.params o ho)
  have values (p : ParamId) (u : Ty) (hu : f p = some u) : P.Valid u ∧ u ≠ .unknown := by
    have some : ¬ ∀ o ∈ os, o.param ≠ p := mt (absent p) (by simp [hu])
    push Not at some
    obtain ⟨o, ho, rfl⟩ := some
    obtain ⟨v, hv, valid, known, _⟩ := respected o ho
    rw [hu] at hv
    cases hv
    exact ⟨valid, known⟩
  have respects (o : Offer) (ho : o ∈ os) : P.Respects (Ty.replace f) (Ty.replace f) o := by
    obtain ⟨u, hu, valid, _, respected⟩ := respected o ho
    have validOffer := offers o ho
    rw [Respects, Ty.replace, hu, Option.getD_some]
    rw [Respected] at respected
    split
    · next covariant =>
      rw [if_pos covariant] at respected
      exact (coherent.below_iff validOffer valid).1 respected
    · next contravariant =>
      rw [if_neg contravariant] at respected
      exact (coherent.below_iff valid validOffer).1 respected
  have below := h.below_replace coherent ht unpromoted fits outside
    (fun p u hu => (values p u hu).2) respects
  have validInstance : P.Valid (t.replace f) := valid_replace ht fun p u hu => (values p u hu).1
  filter_upwards [run, recorded, coherent.eventually_subtype fits.valid validInstance below,
    eventually_ge_atTop n] with limit hrun hrecorded hbelow hlimit
  obtain ⟨s, hs, same⟩ := hrecorded
  refine ⟨s, unify_eq_some.2 ⟨by rw [hrun (limit + 1) (by omega), hs], ?_⟩⟩
  obtain rfl : s.get? = f := funext same
  unfold Ty.substitute
  split
  · exact .inl (Ty.mentionsAny_iff.2 free)
  · exact .inr hbelow

/-- A declaration that applies to a type applies to a subtype, from some limit on, if the parts of
    its own type that mention its parameters are tractable for what they are compared with in the
    subtype, and what the subtype offers to a parameter several times can be merged. -/
theorem applicable_of_subtype (P : Program) (options : Options) (site : Site) (d : DeclId)
    (decl : Decl) (a b : Ty) (coherent : P.Coherent) (hd : P.decls.get? d = some decl)
    (pattern : P.Fits true decl.appliesTo) (unpromoted : decl.appliesTo.Unpromoted decl.params)
    (valid : P.Valid a) (known : a.Known) (fits : P.Fits false b) (notDynamic : b ≠ .dynamic)
    (matchable : P.Matchable decl.params decl.appliesTo b)
    (mergeable : ∀ n os, P.Matches decl.params n decl.appliesTo b os → P.Mergeable os)
    (below : P.Below b a) (kept : ∃ limit, P.Keeps { options with limit } site a d) :
    ∀ᶠ limit in atTop, P.Keeps { options with limit } site b d := by
  obtain ⟨limit, kept⟩ := kept
  obtain ⟨_, fitting, applied, s, unified⟩ := (keeps_iff hd).1 kept
  obtain ⟨n, matched⟩ := matches_of_run coherent pattern.valid valid (unify_eq_some.1 unified).1
  obtain ⟨width, declared, narrow⟩ :=
    (P.eventually_declares_narrow.and (eventually_narrow b)).exists
  have aboveA : P.Derivable a (decl.appliesTo.widest decl.params width) :=
    matched.below_widest coherent pattern.valid unpromoted valid
  have belowA : P.Derivable b a := (coherent.below_iff fits.valid valid).1 below
  have aboveB := coherent.derivable_trans fits valid known pattern.widest belowA aboveA
  obtain ⟨n, os, h⟩ :=
    coherent.complete declared pattern unpromoted b ⟨fits, narrow, matchable⟩ aboveB
  have unifies := h.unify coherent pattern.valid unpromoted fits (mergeable n os h)
  filter_upwards [unifies] with limit hlimit
  exact (keeps_iff hd).2 ⟨notDynamic, fitting, applied, hlimit⟩

/-- Extensions on types of all shapes, and types with bounds and supertypes of all kinds. -/
def shapeExtensions : Program :=
  let list (t : Ty) : Ty := .interface ⟨10⟩ [t]
  let ints : Ty := list (.interface ⟨5⟩ [])
  let t : Ty := .param ⟨4⟩
  let on (t : Ty) : Decl :=
    { binder := none, params := [⟨4⟩], library := .core, body := .extension t,
      members := .singleton { name := "foo", kind := .getter } }
  { core with
    types := .ofList (core.types.entries.toList ++
      [coreClass "Task" [] [.future ints], coreClass "Raw" [] [list .unknown]])
    params := .ofList (core.params.entries.toList ++ [⟨"T", none⟩, ⟨"X", some ints⟩,
      ⟨"Y", some ints.orNull⟩, ⟨"Z", none⟩, ⟨"W", some .never⟩, ⟨"U", some .unknown⟩,
      ⟨"V", some (.futureOr ints)⟩, ⟨"C", some (.promoted ⟨5⟩ (.param ⟨11⟩))⟩])
    decls := .ofList [on (.func [t, t] .void), on (.record [t, t]),
      on (.record [.futureOr t, list t]), on (list t), on (.nullable (list t)),
      on (.futureOr (list t)), on (.futureOr (.nullable (list t))),
      on (.futureOr (.future t)), on (.future t), on (.record [.promoted ⟨7⟩ t, t]),
      on (.nullable (.futureOr .object)), on (.func [.dynamic] .void)] }

theorem coherent_shapeExtensions : shapeExtensions.Coherent := by
  have linear : shapeExtensions.Linear
      fun e => [0, 0, 1, 1, 2, 3, 3, 2, 1, 1, 2, 2, 3].getD e.val 0 := by decide
  exact linear.coherent ⟨_, rfl, rfl, rfl⟩ ⟨_, rfl, rfl, rfl⟩ ⟨_, rfl, rfl, rfl, by decide⟩
    (by decide) (by decide)

theorem shapeExtensions_offers {n : Nat} {c u : Ty} {os : List Offer}
    (valid : shapeExtensions.Valid u) (h : shapeExtensions.Matches [⟨4⟩] n
      (.record [.futureOr (.param ⟨4⟩), .interface ⟨10⟩ [.param ⟨4⟩]])
      (.record [.future c, .interface ⟨10⟩ [u]]) os) :
    os = [⟨⟨4⟩, c, true⟩, ⟨⟨4⟩, u, true⟩] := by
  have future {n : Nat} {os : List Offer}
      (h : shapeExtensions.Matches [⟨4⟩] n (.futureOr (.param ⟨4⟩)) (.future c) os) :
      os = [⟨⟨4⟩, c, true⟩] := by
    cases h with
    | free free => exact absurd free (by decide)
    | bottom _ _ extreme => simp [Ty.future] at extreme
    | inner _ _ inner h =>
      cases inner with
      | future => exact h.offers_of_var List.mem_cons_self
      | futureOr_right _ _ _ notFuture => exact absurd rfl notFuture
  have list {n : Nat} {os : List Offer}
      (h : shapeExtensions.Matches [⟨4⟩] n (.interface ⟨10⟩ [.param ⟨4⟩]) (.interface ⟨10⟩ [u])
        os) : os = [⟨⟨4⟩, u, true⟩] := by
    cases h with
    | free free => exact absurd free (by decide)
    | bottom _ _ extreme => simp at extreme
    | inner _ _ inner => cases inner
    | @interface _ _ _ _ xs _ f _ reaches _ args =>
      have validList : shapeExtensions.Valid (.interface ⟨10⟩ [u]) :=
        valid_interface.2 ⟨rfl, by simpa using valid⟩
      have same := coherent_shapeExtensions.unique ⟨⟨10⟩, [u]⟩ _ _ validList .refl reaches rfl
      cases same
      have offered := (args (.param ⟨4⟩, u) List.mem_cons_self).offers_of_var List.mem_cons_self
      simpa using offered
  cases h with
  | free free => exact absurd free (by decide)
  | bottom _ _ extreme => simp at extreme
  | inner _ _ inner => cases inner
  | @record _ _ _ f _ _ fields =>
    have first := future (fields (.futureOr (.param ⟨4⟩), .future c) List.mem_cons_self)
    have second := list (fields (.interface ⟨10⟩ [.param ⟨4⟩], .interface ⟨10⟩ [u])
      (List.mem_cons_of_mem _ List.mem_cons_self))
    simp [first, second]

def fooSite : Site := { name := "foo", receiver := .value .void, library := .core }

theorem shapeExtensions_keeps :
    let num : Ty := .interface ⟨4⟩ []
    let int : Ty := .interface ⟨5⟩ []
    let a : Ty := .record [.futureOr num, .interface ⟨10⟩ [.object]]
    let b : Ty := .record [.future int, .interface ⟨10⟩ [num]]
    shapeExtensions.Below b a ∧ (∃ limit, shapeExtensions.Keeps { limit } fooSite a ⟨2⟩) ∧
      ∀ᶠ limit in atTop, shapeExtensions.Keeps { limit } fooSite b ⟨2⟩ := by
  intro num int a b
  have matchable : shapeExtensions.Matchable [⟨4⟩]
      (.record [.futureOr (.param ⟨4⟩), .interface ⟨10⟩ [.param ⟨4⟩]])
      (.record [.future int, .interface ⟨10⟩ [num]]) := by
    refine matchable_of_steps ⟨tame_of_not_variable rfl, trivial⟩ fun x hx => ?_
    cases hx with
    | inner inner => cases inner
    | field hx =>
      rcases List.mem_cons.1 hx with rfl | hx
      · exact matchable_of_opens rfl
      cases List.mem_singleton.1 hx
      refine matchable_of_steps ⟨tame_of_not_variable rfl, fun isFuture => nomatch isFuture⟩
        fun x hx => ?_
      cases hx with
      | inner inner => cases inner
      | argument h hx =>
        have isVar : x.1 = .param ⟨4⟩ := by simpa using (List.of_mem_zip hx).1
        rw [isVar]
        exact matchable_of_opens rfl
  have mergeable : shapeExtensions.Mergeable [⟨⟨4⟩, int, true⟩, ⟨⟨4⟩, num, true⟩] := by
    refine ⟨by simp [int, num], fun p several => ⟨num, ?_, ?_⟩⟩
    · obtain rfl : ⟨4⟩ = p := by
        by_contra other
        simp [offered, other] at several
      filter_upwards [eventually_ge_atTop 5] with limit hlimit
      obtain ⟨n, rfl⟩ := Nat.exists_eq_add_of_le' hlimit
      rfl
    · have respected : shapeExtensions.Respected ⟨⟨4⟩, int, true⟩ num := ⟨5, rfl⟩
      simpa using ⟨fun _ => respected, fun _ => respected_self rfl⟩
  have below : shapeExtensions.Below b a := ⟨5, rfl⟩
  have kept : ∃ limit, shapeExtensions.Keeps { limit } fooSite a ⟨2⟩ := ⟨5, rfl⟩
  exact ⟨below, kept, applicable_of_subtype shapeExtensions {} fooSite ⟨2⟩ _ a b
    coherent_shapeExtensions rfl ⟨by decide, by decide⟩ (by decide) (by decide) (by decide)
    ⟨by decide, by decide⟩ (by decide) matchable
    (fun n os h => shapeExtensions_offers (by decide) h ▸ mergeable) below kept⟩

/-!
### Where subtypes lose a declaration

None of the conditions can be left out: for each there are types that lose a declaration without it.
-/

/-- Whether a declaration is kept for a type, but for no limit for a subtype of it. -/
def Loses (P : Program) (site : Site) (d : DeclId) (a b : Ty) : Prop :=
  (P.Valid a ∧ a.Known ∧ P.Valid b ∧ b.Known ∧ b ≠ .dynamic) ∧
  (∃ n, ∀ limit, P.isSubtype (limit + n) b a = .ok true) ∧
  (∃ n, ∀ limit, P.Keeps { limit := limit + n } site a d) ∧
  ∀ limit, ¬ P.Keeps { limit } site b d

theorem loses_of_rejected (proper : P.Valid a ∧ a.Known ∧ P.Valid b ∧ b.Known ∧ b ≠ .dynamic)
    (below : ∀ limit, P.isSubtype (limit + n) b a = .ok true)
    (kept : ∀ limit, P.Keeps { limit := limit + n } site a d)
    (early : ∀ limit < n,
      (P.session { limit }).applicable { site with receiver := .value b } [d] = .ok [])
    (late : ∀ limit, (P.session { limit := limit + n }).applicable
      { site with receiver := .value b } [d] = .ok []) :
    P.Loses site d a b := by
  refine ⟨proper, ⟨n, below⟩, ⟨n, kept⟩, fun limit keeps => ?_⟩
  rw [Keeps] at keeps
  rcases Nat.lt_or_ge limit n with small | large
  · rw [early limit small] at keeps
    cases keeps
  · obtain ⟨limit, rfl⟩ := Nat.exists_eq_add_of_le' large
    rw [late] at keeps
    cases keeps

def intType : Ty := .interface ⟨5⟩ []

def listOf (t : Ty) : Ty := .interface ⟨10⟩ [t]

/-- What is offered repeatedly is merged to an upper bound, also where a function takes it, and for
    a variable and a class that is `Object`, which the variable is not below. -/
theorem repeated_offers_lose :
    let num : Ty := .interface ⟨4⟩ []
    let string : Ty := .interface ⟨7⟩ []
    shapeExtensions.Loses fooSite ⟨0⟩ (.func [intType, intType] .void)
        (.func [num, .object] .void) ∧
      shapeExtensions.Loses fooSite ⟨1⟩ (.record [.nullable .object, .nullable .object])
        (.record [.param ⟨7⟩, string]) := by
  intro num string
  refine ⟨?_, ?_⟩
  all_goals
    exact loses_of_rejected (n := 5) (by decide) (fun _ => rfl) (fun _ => rfl) (by decide)
      fun _ => rfl

/-- A supertype may hold a placeholder. -/
theorem offered_placeholder_loses :
    shapeExtensions.Loses fooSite ⟨2⟩ (.record [.dynamic, listOf intType])
      (.record [.dynamic, .interface ⟨12⟩ []]) := by
  exact loses_of_rejected (n := 5) (by decide) (fun _ => rfl) (fun _ => rfl) (by decide)
    fun _ => rfl

/-- The bound of `C` is a variable that is promoted to `C`, so that no matching gets past it. -/
theorem shapeExtensions_cycle {n : Nat} {os : List Offer} :
    ¬ shapeExtensions.Matches [⟨4⟩] n (.interface ⟨10⟩ [.param ⟨4⟩]) (.param ⟨11⟩) os := by
  have mentions : ¬ (Ty.interface ⟨10⟩ [.param ⟨4⟩]).Free [⟨4⟩] := by decide
  induction n using Nat.strong_induction_on with
  | _ n ih =>
    intro h
    cases h with
    | free free => exact mentions free
    | bottom _ _ extreme => simp at extreme
    | inner _ _ inner h =>
      cases inner with
      | param _ hbound =>
        cases hbound
        cases h with
        | free free => exact mentions free
        | bottom _ _ extreme => simp at extreme
        | inner _ _ inner h =>
          cases inner with
          | promoted => exact ih _ (by omega) h

/-- Matching takes a promoted variable for what it is promoted to, and never gets to its bound. -/
theorem variables_lose :
    shapeExtensions.Loses fooSite ⟨3⟩ (listOf intType) (.promoted ⟨5⟩ .object) ∧
      shapeExtensions.Loses fooSite ⟨3⟩ (listOf intType) (.promoted ⟨9⟩ intType) ∧
      shapeExtensions.Loses fooSite ⟨3⟩ (listOf intType) (.param ⟨11⟩) := by
  refine ⟨?_, ?_, ?cyclic⟩
  case cyclic =>
    refine ⟨by decide, ⟨5, fun _ => rfl⟩, ⟨5, fun _ => rfl⟩, fun limit keeps => ?_⟩
    obtain ⟨_, _, _, s, unified⟩ := (keeps_iff rfl).1 keeps
    obtain ⟨os, h⟩ := matches_of_run coherent_shapeExtensions (by decide) (by decide)
      (unify_eq_some.1 unified).1
    exact shapeExtensions_cycle h
  all_goals
    exact loses_of_rejected (n := 5) (by decide) (fun _ => rfl) (fun _ => rfl) (by decide)
      fun _ => rfl

/-- Matching takes one question mark off, and none from the bound of a variable. -/
theorem optional_types_lose :
    shapeExtensions.Loses fooSite ⟨4⟩ (.nullable (listOf intType)) (.param ⟨6⟩) ∧
      shapeExtensions.Loses fooSite ⟨4⟩ (.nullable (listOf intType))
        (.nullable (.nullable (listOf intType))) := by
  refine ⟨?_, ?_⟩
  all_goals
    exact loses_of_rejected (n := 5) (by decide) (fun _ => rfl) (fun _ => rfl) (by decide)
      fun _ => rfl

/-- Matching knows a future or a `FutureOr` by the type itself, not by a supertype or a bound. -/
theorem future_subtypes_lose :
    shapeExtensions.Loses fooSite ⟨5⟩ (.future (listOf intType)) (.interface ⟨11⟩ []) ∧
      shapeExtensions.Loses fooSite ⟨5⟩ (.futureOr (listOf intType)) (.param ⟨10⟩) := by
  refine ⟨?_, ?_⟩
  all_goals
    exact loses_of_rejected (n := 5) (by decide) (fun _ => rfl) (fun _ => rfl) (by decide)
      fun _ => rfl

/-- Matching takes unions apart in one order only. -/
theorem future_patterns_lose :
    shapeExtensions.Loses fooSite ⟨6⟩ (.futureOr (.nullable (listOf intType)))
        (.nullable (.futureOr (listOf intType))) ∧
      shapeExtensions.Loses fooSite ⟨7⟩ (.futureOr (.future intType)) (.future intType) ∧
      shapeExtensions.Loses fooSite ⟨8⟩ (.future .object) (.futureOr .never) := by
  refine ⟨?_, ?_, ?_⟩
  all_goals
    exact loses_of_rejected (n := 5) (by decide) (fun _ => rfl) (fun _ => rfl) (by decide)
      fun _ => rfl

theorem promoted_pattern_loses :
    shapeExtensions.Loses fooSite ⟨9⟩ (.record [.param ⟨8⟩, intType])
      (.record [.param ⟨8⟩, .never]) := by
  exact loses_of_rejected (n := 5) (by decide) (fun _ => rfl) (fun _ => rfl) (by decide)
    fun _ => rfl

/-- `(FutureOr<Object>)?` is above all types, but not taken for such a type. -/
theorem unrecognized_tops_lose :
    shapeExtensions.Loses fooSite ⟨10⟩ (.nullable .object) .void ∧
      shapeExtensions.Loses fooSite ⟨11⟩ (.func [.nullable .object] .void)
        (.func [.nullable (.futureOr .object)] .void) := by
  refine ⟨?_, ?_⟩
  all_goals
    exact loses_of_rejected (n := 5) (by decide) (fun _ => rfl) (fun _ => rfl) (by decide)
      fun _ => rfl

/-- Extensions on supertypes of types in a hierarchy that is not coherent. -/
def irregularExtensions : Program :=
  let sink (t : Ty) : Ty := .interface ⟨4⟩ [t]
  let on (t : Ty) : Decl :=
    { binder := none, params := [], library := .core, body := .extension t,
      members := .singleton { name := "foo", kind := .getter } }
  { irregular with
    types := .ofList (irregular.types.entries.toList ++
      [coreClass "Drain" [] [sink .never], coreClass "Pipe" [] [sink .object, .interface ⟨8⟩ []]])
    decls := .ofList [on (.nullable (.record [])), on (sink (.func [.object] .void)),
      on (sink (.promoted ⟨0⟩ .never)), on (sink .never)] }

theorem irregular_lose :
    irregularExtensions.Loses fooSite ⟨0⟩ .null (.interface ⟨3⟩ []) ∧
      irregularExtensions.Loses fooSite ⟨1⟩ (.interface ⟨5⟩ [.object]) (.interface ⟨5⟩ [.never]) ∧
      irregularExtensions.Loses fooSite ⟨2⟩ (.interface ⟨6⟩ [.never]) (.interface ⟨7⟩ []) ∧
      irregularExtensions.Loses fooSite ⟨3⟩ (.interface ⟨8⟩ []) (.interface ⟨9⟩ []) := by
  refine ⟨?_, ?_, ?_, ?_⟩
  all_goals
    exact loses_of_rejected (n := 5) (by decide) (fun _ => rfl) (fun _ => rfl) (by decide)
      fun _ => rfl

end MemberAccess.Program
