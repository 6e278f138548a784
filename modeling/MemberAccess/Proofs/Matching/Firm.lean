import MemberAccess.Proofs.Matching.Replacement

/-!
Firm types: instances of patterns that neither top types nor `Null` are below. A variable is below a
firm type only because of what it stands for, and what is below a union of a firm type is compared
with the type under the union.
-/
namespace MemberAccess

namespace Ty

/-- Generic types, functions and records, possibly in unions. -/
def isFirm : Ty → Bool
  | .interface _ as => !as.isEmpty
  | .func .. | .record _ => true
  | .nullable t | .futureOr t => isFirm t
  | _ => false

/-- `Null` and types with a question mark, except for `Object?`. -/
def isOptional : Ty → Bool
  | .nullable t => !t.isObject
  | t => t.isNull

def isAsync : Ty → Bool
  | .futureOr _ => true
  | t => t.declaration? = some .future

/-- Types that are neither futures nor nullable, also under a `FutureOr`. -/
def isSettled : Ty → Bool
  | .nullable _ => false
  | .futureOr t => isSettled t
  | t => t.declaration? ≠ some .future

end Ty

namespace Program

/-- Whether a type is a subtype of another one at some limit. -/
def Below (P : Program) (a b : Ty) : Prop := ∃ limit, P.isSubtype limit a b = .ok true

/-- What a variable stands for. -/
inductive Climbs (P : Program) : Ty → Ty → Prop
  | bound : P.boundOf p = .ok bound → Climbs P (.param p) bound
  | promoted : Climbs P (.promoted p t) t

/-- Whether a variable is promoted to a subtype of its bound, and what stands for a variable is not
    promoted in a cycle. -/
structure Tame (P : Program) (c : Ty) : Prop where
  bound : ∀ p bound, c = .param p → P.boundOf p = .ok bound → bound.isPromoted →
    Acc (fun u t => P.Climbs t u) bound
  promoted : ∀ p t bound, c = .promoted p t → P.boundOf p = .ok bound →
    bound.Known ∧ P.Below t bound

variable {P : Program} {n : Nat} {a c t u v w bound : Ty} {p : ParamId} {d e : TypeId}
  {as xs : List Ty}

theorem tame_of_not_variable (notVar : c.param? = none) : P.Tame c where
  bound := by
    rintro p bound rfl
    cases notVar
  promoted := by
    rintro p t bound rfl
    cases notVar

theorem Coherent.below_iff (coherent : P.Coherent) (ha : P.Valid a) (hb : P.Valid c) :
    P.Below a c ↔ P.Derivable a c := by
  constructor
  · rintro ⟨limit, h⟩
    exact (coherent.derives_of_subtype ha hb h).derivable
  · rintro ⟨n, h⟩
    exact ⟨2 * n, coherent.subtype_of_derives ha hb h (by omega)⟩

theorem isAboveBounds_of_isFirm (firm : w.isFirm) : w.isAboveBounds := by
  cases w <;> simp_all [Ty.isFirm, Ty.isAboveBounds]

section Firm

variable (coherent : P.Coherent) (valid : P.Valid w) (firm : w.isFirm)

include coherent valid firm

theorem not_objectLike_of_isFirm : ¬ w.objectLike := by
  induction w using Ty.induct with
  | futureOr t ih => exact ih (valid_futureOr.1 valid) firm
  | interface d as =>
    intro objectLike
    obtain rfl : d = .object := by simpa [Ty.objectLike] using objectLike
    rw [coherent.args_object valid] at firm
    cases firm
  | func | record | nullable => simp [Ty.objectLike]
  | _ => cases firm

theorem not_topLike_of_isFirm : ¬ w.topLike := by
  induction w using Ty.induct with
  | futureOr t ih => exact ih (valid_futureOr.1 valid) firm
  | nullable t ih =>
    have valid := valid_nullable.1 valid
    simp [Ty.topLike, ih valid firm, not_objectLike_of_isFirm coherent valid firm]
  | interface | func | record => simp [Ty.topLike]
  | _ => cases firm

theorem not_isTop_of_isFirm : ¬ w.isTop :=
  mt Ty.topLike_of_isTop (not_topLike_of_isFirm coherent valid firm)

theorem not_isNull_of_isFirm : ¬ w.isNull := by
  cases w with
  | interface d as =>
    intro null
    obtain rfl : d = .null := by simpa [Ty.isNull] using null
    obtain ⟨d, hd, hparams, _⟩ := coherent.null
    have hlength := length_params (i := ⟨.null, as⟩) valid hd
    rw [hparams] at hlength
    have none : as = [] := List.eq_nil_of_length_eq_zero hlength.symm
    simp [none, Ty.isFirm] at firm
  | _ => simp [Ty.isNull]

theorem not_acceptsNull_of_isSettled (settled : w.isSettled) : ¬ w.acceptsNull := by
  induction w using Ty.induct with
  | futureOr t ih => exact ih (valid_futureOr.1 valid) firm settled
  | interface => exact not_isNull_of_isFirm coherent valid firm
  | func | record => simp [Ty.acceptsNull, Ty.isNull]
  | nullable => cases settled
  | _ => cases firm

end Firm

section Climbing

theorem Climbs.consists (h : P.Climbs c a) : P.Consists c a := by
  cases h with
  | bound hbound => exact .bound hbound
  | promoted => exact .promoted

theorem Hereditary.climbs {φ : Ty → Prop} (hereditary : P.Hereditary φ)
    (h : Relation.ReflTransGen P.Climbs c a) (hc : φ c) : φ a := by
  induction h with
  | refl => exact hc
  | tail _ step ih => exact hereditary _ _ step.consists ih

theorem Derivable.of_climbs (above : w.isAboveBounds) (h : Relation.ReflTransGen P.Climbs c a)
    (below : P.Derivable a w) : P.Derivable c w := by
  induction h using Relation.ReflTransGen.head_induction_on with
  | refl => exact below
  | head step _ ih =>
    cases step with
    | bound hbound => exact ih.param above hbound
    | promoted => exact ih.promoted_bound above

theorem param?_of_climbs (h : P.Climbs c a) : c.param? ≠ none := by
  cases h <;> simp [Ty.param?]

theorem eq_of_climbs (notVar : c.param? = none) (h : Relation.ReflTransGen P.Climbs c a) :
    c = a := by
  rcases h.cases_head with same | ⟨_, step, _⟩
  · exact same
  · exact absurd notVar (param?_of_climbs step)

variable (coherent : P.Coherent) (fits : P.Fits true w) (firm : w.isFirm)

include coherent fits firm

/-- A variable is below a union if it is below what is under it, and else if one of the types it
    stands for is. -/
theorem variable_inv (isVar : c.param? ≠ none) (h : P.Derives (n + 1) c w) :
    (∃ v, Widens v w ∧ P.Fits true v ∧ v.isFirm ∧ P.Derives n c v) ∨
    (∃ p bound, c = .param p ∧ P.boundOf p = .ok bound ∧ P.Derives n bound w) ∨
    ∃ p t, c = .promoted p t ∧ (P.Derives n (.param p) w ∨ P.Derives n t w) := by
  have notTop := not_isTop_of_isFirm coherent fits.valid firm
  cases h with
  | refl => cases c <;> simp_all [Ty.param?, Ty.isFirm]
  | unknown_right | promoted_right => cases firm
  | top isTop => exact absurd isTop notTop
  | null isNull => cases c <;> simp_all [Ty.param?, Ty.isNull]
  | nullable_right _ h => exact .inl ⟨_, fits.widens_nullable, fits.of_nullable, firm, h⟩
  | future_right _ h => exact .inl ⟨_, .future, coherent.fits_future fits.of_futureOr, rfl, h⟩
  | futureOr_right _ h => exact .inl ⟨_, fits.widens_futureOr, fits.of_futureOr, firm, h⟩
  | param _ hbound h => exact .inr (.inl ⟨_, _, rfl, hbound, h⟩)
  | promoted_param _ h => exact .inr (.inr ⟨_, _, rfl, .inl h⟩)
  | promoted_bound _ h => exact .inr (.inr ⟨_, _, rfl, .inr h⟩)
  | _ => exact absurd rfl isVar

theorem bound_below (h : P.Derives n (.param p) w) :
    ∃ bound, P.boundOf p = .ok bound ∧ P.Derivable bound w := by
  induction n generalizing w with
  | zero => cases h
  | succ n ih =>
    rcases variable_inv coherent fits firm (by simp [Ty.param?]) h with
      ⟨v, wider, fits, firm, h⟩ | ⟨_, bound, same, hbound, h⟩ | ⟨_, _, same, _⟩
    · obtain ⟨bound, hbound, below⟩ := ih fits firm h
      exact ⟨bound, hbound, below.widen wider⟩
    · cases same
      exact ⟨bound, hbound, h.derivable⟩
    · cases same

theorem promoted_below (fitsC : P.Fits false (.promoted p t)) (tame : P.Tame (.promoted p t))
    (h : P.Derives n (.promoted p t) w) : P.Derivable t w := by
  induction n generalizing w with
  | zero => cases h
  | succ n ih =>
    rcases variable_inv coherent fits firm (by simp [Ty.param?]) h with
      ⟨v, wider, fits, firm, h⟩ | ⟨_, _, same, _⟩ | ⟨_, _, same, h | h⟩
    · exact (ih fits firm h).widen wider
    · cases same
    · cases same
      obtain ⟨bound, hbound, below⟩ := bound_below coherent fits firm h
      obtain ⟨known, promotes⟩ := tame.promoted p t bound rfl hbound
      have valid := coherent.valid_boundOf hbound
      exact coherent.derivable_trans fitsC.of_promoted valid known fits
        ((coherent.below_iff fitsC.of_promoted.valid valid).1 promotes) below
    · cases same
      exact h.derivable

theorem exists_climbed_of_acc (acc : Acc (fun u t => P.Climbs t u) c) (fitsC : P.Fits false c)
    (tame : ∀ a, Relation.ReflTransGen P.Climbs c a → P.Tame a) (h : P.Derivable c w) :
    ∃ a, Relation.ReflTransGen P.Climbs c a ∧ P.Derivable a w ∧ a.param? = none := by
  induction acc with
  | intro c _ ih =>
    obtain ⟨n, h⟩ := h
    have next {t : Ty} (step : P.Climbs c t) (below : P.Derivable t w) :
        ∃ a, Relation.ReflTransGen P.Climbs c a ∧ P.Derivable a w ∧ a.param? = none := by
      have fitsT : P.Fits false t := coherent.hereditary_fits _ _ step.consists fitsC
      obtain ⟨a, climbs, rest⟩ :=
        ih t step fitsT (fun a climbs => tame a (.head step climbs)) below
      exact ⟨a, .head step climbs, rest⟩
    cases c with
    | param p =>
      obtain ⟨bound, hbound, below⟩ := bound_below coherent fits firm h
      exact next (.bound hbound) below
    | promoted p t =>
      exact next .promoted (promoted_below coherent fits firm fitsC (tame _ .refl) h)
    | _ => exact ⟨_, .refl, h.derivable, rfl⟩

/-- The height of the derivation decreases on the way from one bound to the next, unless that is
    promoted. -/
theorem exists_climbed_of_not_promoted (fitsC : P.Fits false c)
    (tame : ∀ a, Relation.ReflTransGen P.Climbs c a → P.Tame a) (notPromoted : ¬ c.isPromoted)
    (h : P.Derives n c w) :
    ∃ a, Relation.ReflTransGen P.Climbs c a ∧ P.Derivable a w ∧ a.param? = none := by
  induction n generalizing c w with
  | zero => cases h
  | succ n ih =>
    by_cases notVar : c.param? = none
    · exact ⟨c, .refl, h.derivable, notVar⟩
    rcases variable_inv coherent fits firm notVar h with
      ⟨v, wider, fits, firm, h⟩ | ⟨p, bound, rfl, hbound, h⟩ | ⟨_, _, rfl, _⟩
    · obtain ⟨a, climbs, below, rest⟩ := ih fits firm fitsC tame notPromoted h
      exact ⟨a, climbs, below.widen wider, rest⟩
    · have step := Climbs.bound hbound
      have tameBound (a : Ty) (climbs : Relation.ReflTransGen P.Climbs bound a) : P.Tame a :=
        tame a (.head step climbs)
      have fitsBound := coherent.fits_boundOf hbound
      have climbed : ∃ a, Relation.ReflTransGen P.Climbs bound a ∧ P.Derivable a w ∧
          a.param? = none := by
        by_cases isPromoted : bound.isPromoted
        · have acc := (tame _ .refl).bound p bound rfl hbound isPromoted
          exact exists_climbed_of_acc coherent fits firm acc fitsBound tameBound h.derivable
        · exact ih fits firm fitsBound tameBound isPromoted h
      obtain ⟨a, climbs, rest⟩ := climbed
      exact ⟨a, .head step climbs, rest⟩
    · exact absurd rfl notPromoted

theorem exists_climbed (fitsC : P.Fits false c)
    (tame : ∀ a, Relation.ReflTransGen P.Climbs c a → P.Tame a) (h : P.Derivable c w) :
    ∃ a, Relation.ReflTransGen P.Climbs c a ∧ P.Derivable a w ∧ a.param? = none := by
  induction c using Ty.induct with
  | promoted p t ih =>
    obtain ⟨n, h⟩ := h
    obtain ⟨a, climbs, rest⟩ := ih fitsC.of_promoted
      (fun a climbs => tame a (.head .promoted climbs))
      (promoted_below coherent fits firm fitsC (tame _ .refl) h)
    exact ⟨a, .head .promoted climbs, rest⟩
  | _ =>
    obtain ⟨n, h⟩ := h
    exact exists_climbed_of_not_promoted coherent fits firm fitsC tame (by simp [Ty.isPromoted]) h

end Climbing

section Futures

variable (coherent : P.Coherent)

include coherent

theorem Coherent.future_reaches (h : P.Reaches ⟨.future, as⟩ ⟨e, xs⟩) :
    e = .future ∧ xs = as ∨ e = .object := by
  rcases h.cases_head with same | ⟨k, ⟨d, hd, hk⟩, rest⟩
  · cases same
    exact .inl ⟨rfl, rfl⟩
  · obtain ⟨_, hd', _, supers, _⟩ := coherent.future
    rw [hd] at hd'
    cases hd'
    rcases mem_directSupers.1 hk with ⟨t, ht, _⟩ | ⟨_, rfl⟩
    · simp [supers] at ht
    · cases reaches_eq rest fun k => coherent.extends_object rfl
      exact .inr rfl

theorem Coherent.exists_future (valid : P.Valid c) (h : c.declaration? = some .future) :
    ∃ u, c = .future u := by
  cases c with
  | interface d as =>
    obtain rfl : d = .future := by simpa [Ty.declaration?] using h
    obtain ⟨u, rfl⟩ := coherent.exists_arg_future valid
    exact ⟨u, rfl⟩
  | _ => cases h

theorem Coherent.future_inv (h : P.Derives n (.future u) (.future v)) : P.Derivable u v := by
  cases h with
  | refl => exact .refl u
  | top isTop => cases isTop
  | null isNull => cases isNull
  | interface _ reaches hlength h =>
    rcases coherent.future_reaches reaches with ⟨_, rfl⟩ | object
    · exact (h (u, v) (by simp)).derivable
    · cases object

theorem Coherent.future_not_below (valid : P.Valid w) (firm : w.isFirm) (noUnion : ¬ w.isUnion)
    (other : w.declaration? ≠ some .future) : ¬ P.Derives n (.future u) w := by
  intro h
  cases w with
  | interface e bs =>
    cases h with
    | refl => exact other rfl
    | top isTop => cases isTop
    | null isNull => cases isNull
    | interface _ reaches hlength h =>
      rcases coherent.future_reaches reaches with ⟨rfl, _⟩ | rfl
      · exact other rfl
      · rw [coherent.args_object valid] at firm
        cases firm
  | func | record =>
    cases h with
    | top isTop => cases isTop
    | null isNull => cases isNull
  | nullable | futureOr => simp [Ty.isUnion] at noUnion
  | _ => cases firm

theorem Coherent.future_below_futureOr (h : P.Derives n (.future u) (.futureOr w))
    (notTop : ¬ w.isTop) : P.Derivable u w ∨ P.Derivable (.future u) w := by
  cases h with
  | top isTop => exact absurd isTop notTop
  | null isNull => cases isNull
  | future_right _ h => exact .inl (coherent.future_inv h)
  | futureOr_right _ h => exact .inr h.derivable

omit coherent in
theorem future_below_nullable (h : P.Derives n (.future u) (.nullable w))
    (notTop : ¬ (Ty.nullable w).isTop) : P.Derivable (.future u) w := by
  cases h with
  | top isTop => exact absurd isTop notTop
  | null isNull => cases isNull
  | nullable_right _ h => exact h.derivable

/-- Futures are below a settled type for the sake of what they become. -/
theorem Coherent.below_of_future_below (fits : P.Fits true w) (firm : w.isFirm)
    (settled : w.isSettled) (h : P.Derives n (.future u) w) : P.Derivable u w := by
  induction w using Ty.induct generalizing n with
  | futureOr w ih =>
    have notTop := not_isTop_of_isFirm coherent fits.of_futureOr.valid firm
    rcases coherent.future_below_futureOr h notTop with below | ⟨m, h⟩
    · exact below.widen fits.widens_futureOr
    · exact (ih fits.of_futureOr firm settled h).widen fits.widens_futureOr
  | interface | func | record =>
    refine absurd h (coherent.future_not_below fits.valid firm (by simp [Ty.isUnion]) ?_)
    simpa [Ty.isSettled] using settled
  | nullable => cases settled
  | _ => cases firm

end Futures

section Unions

variable (coherent : P.Coherent) (fits : P.Fits true w) (firm : w.isFirm) (valid : P.Valid c)
  (notVar : c.param? = none)

include coherent firm valid notVar

theorem below_of_below_nullable (validW : P.Valid w)
    (future : ∀ u, c = .futureOr u → P.Derivable (.future u) w → P.Derivable u w)
    (notOptional : ¬ c.isOptional) (h : P.Derives n c (.nullable w)) : P.Derivable c w := by
  have notObject := not_objectLike_of_isFirm coherent validW firm
  have notTop : ¬ (Ty.nullable w).topLike :=
    not_topLike_of_isFirm coherent (valid_nullable.2 validW) firm
  cases h with
  | refl =>
    have isObject : w.isObject := by simpa [Ty.isOptional] using notOptional
    exact absurd (Ty.objectLike_of_isObject isObject) notObject
  | unknown_left => exact .unknown_left
  | top isTop => exact absurd (Ty.topLike_of_isTop isTop) notTop
  | never => exact ⟨1, .never⟩
  | null isNull =>
    cases c with
    | interface => exact absurd isNull notOptional
    | _ => cases isNull
  | @nullable_left _ u _ h admits =>
    have isObject : u.isObject := by simpa [Ty.isOptional] using notOptional
    rw [coherent.eq_object (valid_nullable.1 valid) isObject] at h
    have known : (Ty.nullable .object).Known := by decide
    exact absurd (coherent.topLike_of_derives (.nullable_left h admits) known rfl) notTop
  | futureOr_left h _ =>
    have below := future_below_nullable h (mt Ty.topLike_of_isTop notTop)
    exact below.futureOr_left (future _ rfl below)
  | nullable_right _ h => exact h.derivable
  | param | promoted_param | promoted_bound => cases notVar

omit valid notVar in
theorem below_nullable_of_nullable_below (validW : P.Valid w)
    (h : P.Derivable (.nullable c) (.nullable w)) : P.Derivable c (.nullable w) := by
  obtain ⟨n, h⟩ := h
  cases h with
  | refl =>
    refine (Derivable.refl c).widen (.nullable ?_)
    rintro rfl
    cases firm
  | top isTop =>
    have notTop := not_isTop_of_isFirm coherent (valid_nullable.2 validW) firm
    exact absurd isTop notTop
  | null isNull => cases isNull
  | nullable_left h _ => exact h.derivable
  | nullable_right atomic => cases atomic

include fits

theorem below_of_below_futureOr (settled : w.isSettled)
    (future : P.Derivable c (.future w) → c = .never ∨ c.isAsync)
    (h : P.Derives n c (.futureOr w)) :
    (∃ u, c = .futureOr u ∧ P.Derivable u w) ∨ (∃ u, c = .future u ∧ P.Derivable u w) ∨
      ¬ c.isAsync ∧ P.Derivable c w := by
  have notTop := not_isTop_of_isFirm coherent fits.valid firm
  have notNull := not_acceptsNull_of_isSettled coherent fits.valid firm settled
  have other (noFutureOr : ∀ u, c ≠ .futureOr u) (below : P.Derivable c w) :
      (∃ u, c = .futureOr u ∧ P.Derivable u w) ∨ (∃ u, c = .future u ∧ P.Derivable u w) ∨
        ¬ c.isAsync ∧ P.Derivable c w := by
    by_cases isFuture : c.declaration? = some .future
    · obtain ⟨u, rfl⟩ := coherent.exists_future valid isFuture
      obtain ⟨m, h⟩ := below
      exact .inr (.inl ⟨u, rfl, coherent.below_of_future_below fits firm settled h⟩)
    · refine .inr (.inr ⟨?_, below⟩)
      cases c with
      | futureOr u => exact absurd rfl (noFutureOr u)
      | _ => simpa [Ty.isAsync] using isFuture
  cases h with
  | refl => exact .inl ⟨w, rfl, .refl w⟩
  | unknown_left => exact other (by simp) .unknown_left
  | top isTop => exact absurd isTop notTop
  | never => exact other (by simp) ⟨1, .never⟩
  | null _ admits | nullable_left _ admits =>
    exact absurd (acceptsNull_of_admitsNull admits) notNull
  | futureOr_left h _ =>
    rcases coherent.future_below_futureOr h notTop with below | ⟨m, h⟩
    · exact .inl ⟨_, rfl, below⟩
    · exact .inl ⟨_, rfl, coherent.below_of_future_below fits firm settled h⟩
  | future_right atomic h =>
    rcases future h.derivable with rfl | async
    · exact other (by simp) ⟨1, .never⟩
    · cases c with
      | futureOr => cases atomic
      | interface d as =>
        obtain ⟨u, same⟩ := coherent.exists_future valid (by simpa [Ty.isAsync] using async)
        rw [same] at h ⊢
        exact .inr (.inl ⟨u, rfl, coherent.future_inv h⟩)
      | _ => simp [Ty.isAsync, Ty.declaration?] at async
  | futureOr_right atomic h =>
    refine other (fun u same => ?_) h.derivable
    rw [same] at atomic
    cases atomic
  | param | promoted_param | promoted_bound => cases notVar

end Unions

end Program

end MemberAccess
