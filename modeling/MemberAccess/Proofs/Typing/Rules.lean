import MemberAccess.Proofs.Typing.Derivation

/-!
What follows from the rules of subtyping regardless of heights. What is above a top type is as
much of a top type, and a rule either takes apart the type on the left or the one on the right.
-/
namespace MemberAccess

namespace Ty

/-- Whether a type accepts null, no matter what its placeholders stand for. -/
def isNullable : Ty → Bool
  | .dynamic | .void | .nullable _ => true
  | .futureOr t => isNullable t
  | t => t.isNull

/-- Whether a type has no placeholders. -/
def Known (t : Ty) : Prop := t.Every (· ≠ .unknown)

instance (t : Ty) : Decidable t.Known := inferInstanceAs (Decidable (t.Every _))

theorem acceptsNull_of_isNullable {t : Ty} (h : t.isNullable) : t.acceptsNull := by
  induction t using induct with
  | futureOr t ih => exact ih h
  | _ => simp_all [isNullable, acceptsNull]

theorem isNullable_of_isNull {t : Ty} (h : t.isNull) : t.isNullable := by
  cases t <;> simp_all [isNullable, isNull]

theorem Known.ne_unknown {t : Ty} (known : t.Known) : t ≠ .unknown := by
  rintro rfl
  simp [Known] at known

theorem Known.isNullable {t : Ty} (known : t.Known) (h : t.acceptsNull) : t.isNullable := by
  induction t using induct with
  | futureOr t ih => exact ih (every_futureOr.1 known).2 h
  | unknown => exact absurd rfl known.ne_unknown
  | _ => simp_all [Ty.isNullable, acceptsNull]

theorem acceptsNull_of_isTop {t : Ty} (h : t.isTop) : t.acceptsNull := by
  induction t using induct with
  | futureOr t ih => exact ih h
  | dynamic | void | nullable => rfl
  | _ => cases h

theorem objectLike_of_isObject {t : Ty} (h : t.isObject) : t.objectLike := by
  cases t <;> simp_all [isObject, objectLike]

theorem topLike_of_isTop {t : Ty} (h : t.isTop) : t.topLike := by
  induction t using induct with
  | futureOr t ih => exact ih h
  | dynamic | void => rfl
  | nullable t ih =>
    rw [isTop, Bool.or_eq_true] at h
    rw [topLike, Bool.or_eq_true]
    exact h.imp objectLike_of_isObject ih
  | _ => cases h

theorem topLike_of_objectLike {t : Ty} (h : t.objectLike) (accepts : t.acceptsNull) :
    t.topLike := by
  induction t using induct with
  | futureOr t ih => exact ih h accepts
  | unknown => rfl
  | interface d as =>
    obtain rfl : d = .object := by simpa [objectLike] using h
    simp [acceptsNull, isNull, TypeId.object, TypeId.null] at accepts
  | _ => cases h

theorem not_isNull_of_isTop {t : Ty} (h : t.isTop) : ¬ t.isNull := by
  cases t <;> simp_all [isTop, isNull]

theorem not_isAtomic_of_isTop {t : Ty} (h : t.isTop) : ¬ t.isAtomic := by
  cases t <;> simp_all [isTop, isAtomic]

end Ty

namespace Program

inductive Widens : Ty → Ty → Prop
  | nullable : u ≠ .unknown → Widens u (.nullable u)
  | futureOr : u ≠ .unknown → Widens u (.futureOr u)
  | future : Widens (.future u) (.futureOr u)

variable {P : Program} {n m k : Nat} {a b c t u v sub sup bound : Ty} {p : ParamId}
  {d e : TypeId} {as bs cs ps qs fs gs xs : List Ty} {s : Bool}

def Derivable (P : Program) (a b : Ty) : Prop := ∃ n, P.Derives n a b

theorem Derives.derivable (h : P.Derives n a b) : P.Derivable a b := ⟨n, h⟩

namespace Derivable

theorem refl (t : Ty) : P.Derivable t t := ⟨1, .refl⟩

theorem unknown_left : P.Derivable .unknown t := ⟨1, .unknown_left⟩

theorem unknown_right : P.Derivable t .unknown := ⟨1, .unknown_right⟩

theorem top (h : b.isTop) : P.Derivable a b := ⟨1, .top h⟩

theorem null (isNull : a.isNull) (accepts : b.acceptsNull) : P.Derivable a b := by
  obtain ⟨n, admits⟩ := exists_admitsNull accepts
  exact ⟨n + 1, .null isNull admits⟩

theorem nullable_left (h : P.Derivable t b) (accepts : b.acceptsNull) :
    P.Derivable (.nullable t) b := by
  obtain ⟨n, h⟩ := h
  obtain ⟨m, admits⟩ := exists_admitsNull accepts
  exact ⟨max n m + 1, .nullable_left (h.mono (le_max_left n m))
    (admitsNull_mono admits (le_max_right n m))⟩

theorem futureOr_left (future : P.Derivable (.future t) b) (h : P.Derivable t b) :
    P.Derivable (.futureOr t) b := by
  obtain ⟨n, future⟩ := future
  obtain ⟨m, h⟩ := h
  exact ⟨max n m + 1, .futureOr_left (future.mono (le_max_left n m)) (h.mono (le_max_right n m))⟩

theorem promoted_right (atomic : a.isAtomic) (param : P.Derivable a (.param p))
    (h : P.Derivable a bound) : P.Derivable a (.promoted p bound) := by
  obtain ⟨n, param⟩ := param
  obtain ⟨m, h⟩ := h
  exact ⟨max n m + 1,
    .promoted_right atomic (param.mono (le_max_left n m)) (h.mono (le_max_right n m))⟩

theorem param (above : b.isAboveBounds) (hbound : P.boundOf p = .ok bound)
    (h : P.Derivable bound b) : P.Derivable (.param p) b := by
  obtain ⟨n, h⟩ := h
  exact ⟨n + 1, .param above hbound h⟩

theorem promoted_param (above : b.isAboveBounds) (h : P.Derivable (.param p) b) :
    P.Derivable (.promoted p bound) b := by
  obtain ⟨n, h⟩ := h
  exact ⟨n + 1, .promoted_param above h⟩

theorem promoted_bound (above : b.isAboveBounds) (h : P.Derivable bound b) :
    P.Derivable (.promoted p bound) b := by
  obtain ⟨n, h⟩ := h
  exact ⟨n + 1, .promoted_bound above h⟩

theorem common_height {l : List (Ty × Ty)} (h : ∀ x ∈ l, P.Derivable x.1 x.2) :
    ∃ n, ∀ x ∈ l, P.Derives n x.1 x.2 := by
  induction l with
  | nil => exact ⟨0, by simp⟩
  | cons x xs ih =>
    rw [List.forall_mem_cons] at h
    obtain ⟨n, first⟩ := h.1
    obtain ⟨m, rest⟩ := ih h.2
    refine ⟨max n m, List.forall_mem_cons.2 ⟨first.mono (le_max_left n m), ?_⟩⟩
    intro x hx
    exact (rest x hx).mono (le_max_right n m)

theorem interface (notNull : d ≠ .null) (reaches : P.Reaches ⟨d, as⟩ ⟨e, xs⟩)
    (hlength : xs.length = bs.length) (h : ∀ x ∈ xs.zip bs, P.Derivable x.1 x.2) :
    P.Derivable (.interface d as) (.interface e bs) := by
  obtain ⟨n, h⟩ := common_height h
  exact ⟨n + 1, .interface notNull reaches hlength h⟩

theorem func (hlength : ps.length = qs.length) (params : ∀ x ∈ ps.zip qs, P.Derivable x.2 x.1)
    (h : P.Derivable t u) : P.Derivable (.func ps t) (.func qs u) := by
  obtain ⟨n, params⟩ := common_height (l := (ps.zip qs).map Prod.swap) fun x hx => by
    obtain ⟨y, hy, rfl⟩ := List.mem_map.1 hx
    exact params y hy
  obtain ⟨m, h⟩ := h
  refine ⟨max n m + 1, .func hlength (fun x hx => ?_) (h.mono (le_max_right n m))⟩
  exact (params x.swap (List.mem_map_of_mem hx)).mono (le_max_left n m)

theorem record (hlength : fs.length = gs.length) (h : ∀ x ∈ fs.zip gs, P.Derivable x.1 x.2) :
    P.Derivable (.record fs) (.record gs) := by
  obtain ⟨n, h⟩ := common_height h
  exact ⟨n + 1, .record hlength h⟩

end Derivable

theorem Widens.isTop (h : Widens u v) (isTop : u.isTop) : v.isTop := by
  cases h <;> simp_all [Ty.isTop, Ty.future]

theorem Widens.acceptsNull (h : Widens u v) (accepts : u.acceptsNull) : v.acceptsNull := by
  cases h <;> simp_all [Ty.acceptsNull, Ty.future, Ty.isNull, TypeId.future, TypeId.null]

theorem Widens.ne_unknown (h : Widens u v) : u ≠ .unknown := by
  cases h <;> simp_all [Ty.future]

theorem Derivable.widen_atomic (h : P.Derivable a u) (atomic : a.isAtomic) (wider : Widens u v) :
    P.Derivable a v := by
  obtain ⟨n, h⟩ := h
  cases wider with
  | nullable => exact ⟨n + 1, .nullable_right atomic h⟩
  | futureOr => exact ⟨n + 1, .futureOr_right atomic h⟩
  | future => exact ⟨n + 1, .future_right atomic h⟩

theorem Derives.acceptsNull (h : P.Derives n a b) (nullable : a.isNullable) : b.acceptsNull := by
  induction h with
  | refl => exact Ty.acceptsNull_of_isNullable nullable
  | unknown_right | nullable_right => rfl
  | top isTop => exact Ty.acceptsNull_of_isTop isTop
  | null _ admits | nullable_left _ admits => exact acceptsNull_of_admitsNull admits
  | futureOr_left _ _ _ ih => exact ih nullable
  | futureOr_right atomic _ ih => exact ih nullable
  | future_right atomic _ ih => cases ih nullable
  | promoted_right atomic _ _ ih => cases ih nullable
  | interface notNull => simp_all [Ty.isNullable, Ty.isNull]
  | _ => cases nullable

theorem Derivable.widen (h : P.Derivable a u) (wider : Widens u v) : P.Derivable a v := by
  induction a using Ty.induct generalizing u v with
  | dynamic | void =>
    obtain ⟨n, h⟩ := h
    cases h with
    | refl => exact .top (wider.isTop rfl)
    | unknown_right => exact absurd rfl wider.ne_unknown
    | top isTop => exact .top (wider.isTop isTop)
    | null isNull => cases isNull
    | _ => contradiction
  | interface d as =>
    by_cases atomic : (Ty.interface d as).isAtomic
    · exact h.widen_atomic atomic wider
    · have isNull : (Ty.interface d as).isNull := by simpa [Ty.isAtomic] using atomic
      obtain ⟨n, h⟩ := h
      exact .null isNull (wider.acceptsNull (h.acceptsNull (Ty.isNullable_of_isNull isNull)))
  | nullable t ih =>
    obtain ⟨n, h⟩ := h
    cases h with
    | refl =>
      refine .nullable_left ?_ (wider.acceptsNull rfl)
      by_cases known : t = .unknown
      · exact known ▸ .unknown_left
      · exact ih (ih (.refl t) (.nullable known)) wider
    | unknown_right => exact absurd rfl wider.ne_unknown
    | top isTop => exact .top (wider.isTop isTop)
    | null isNull => cases isNull
    | nullable_left h admits =>
      have accepts := wider.acceptsNull (acceptsNull_of_admitsNull admits)
      exact .nullable_left (ih h.derivable wider) accepts
    | _ => contradiction
  | futureOr t ih =>
    obtain ⟨n, h⟩ := h
    cases h with
    | refl =>
      have future : P.Derivable (.future t) (.futureOr t) := (refl _).widen_atomic rfl .future
      refine .futureOr_left (future.widen_atomic rfl wider) ?_
      by_cases known : t = .unknown
      · exact known ▸ .unknown_left
      · exact ih (ih (.refl t) (.futureOr known)) wider
    | unknown_right => exact absurd rfl wider.ne_unknown
    | top isTop => exact .top (wider.isTop isTop)
    | null isNull => cases isNull
    | futureOr_left future h =>
      exact .futureOr_left (future.derivable.widen_atomic rfl wider) (ih h.derivable wider)
    | _ => contradiction
  | _ => exact h.widen_atomic rfl wider

theorem Coherent.objectLike_of_derives (coherent : P.Coherent) (h : P.Derives n a b)
    (isObject : a.isObject) : b.objectLike ∨ b.topLike := by
  induction h with
  | refl => exact .inl (Ty.objectLike_of_isObject isObject)
  | unknown_right => exact .inl rfl
  | top isTop => exact .inr (Ty.topLike_of_isTop isTop)
  | null isNull =>
    have accepts := Ty.acceptsNull_of_isNullable (Ty.isNullable_of_isNull isNull)
    exact absurd isObject (not_isObject_of_acceptsNull accepts)
  | nullable_right _ _ ih => exact .inr (by simpa [Ty.topLike] using ih isObject)
  | futureOr_right _ _ ih => exact ih isObject
  | future_right _ _ ih =>
    have := ih isObject
    simp [Ty.future, Ty.objectLike, Ty.topLike, TypeId.future, TypeId.object] at this
  | promoted_right _ _ _ ih => simpa [Ty.objectLike, Ty.topLike] using ih isObject
  | @interface d _ _ _ _ _ _ reaches =>
    have root : d = .object := by simpa [Ty.isObject] using isObject
    have same := reaches_eq reaches fun k => coherent.extends_object root
    simp_all [Ty.isObject, Ty.objectLike]
  | _ => cases isObject

theorem Coherent.topLike_of_derives (coherent : P.Coherent) (h : P.Derives n a b)
    (known : a.Known) (isTop : a.isTop) : b.topLike := by
  induction h with
  | refl => exact Ty.topLike_of_isTop isTop
  | unknown_right => rfl
  | top above => exact Ty.topLike_of_isTop above
  | nullable_left h admits ih =>
    have accepts := acceptsNull_of_admitsNull admits
    rw [Ty.isTop, Bool.or_eq_true] at isTop
    rcases isTop with isObject | isTop
    · rcases coherent.objectLike_of_derives h isObject with objectLike | topLike
      · exact Ty.topLike_of_objectLike objectLike accepts
      · exact topLike
    · exact ih (Ty.every_nullable.1 known).2 isTop
  | futureOr_left _ _ _ ih => exact ih (Ty.every_futureOr.1 known).2 isTop
  | nullable_right atomic | futureOr_right atomic | future_right atomic | promoted_right atomic =>
    exact absurd atomic (Ty.not_isAtomic_of_isTop isTop)
  | null isNull => exact absurd isNull (Ty.not_isNull_of_isTop isTop)
  | _ => cases isTop

/-- Types that may be on one side of a subtype question: hidden top types may only be in covariant
    positions on the left, and in contravariant ones on the right. -/
structure Fits (P : Program) (right : Bool) (t : Ty) : Prop where
  valid : P.Valid t
  clear : t.Clear right

section Fits

theorem Fits.args (fits : P.Fits s (.interface d as)) : ∀ a ∈ as, P.Fits s a := fun a ha =>
  ⟨(valid_interface.1 fits.valid).2 a ha, (Ty.everyAt_interface.1 fits.clear).2 a ha⟩

theorem Fits.of_nullable (fits : P.Fits s (.nullable t)) : P.Fits s t :=
  ⟨valid_nullable.1 fits.valid, (Ty.everyAt_nullable.1 fits.clear).2⟩

theorem Fits.of_futureOr (fits : P.Fits s (.futureOr t)) : P.Fits s t :=
  ⟨valid_futureOr.1 fits.valid, (Ty.everyAt_futureOr.1 fits.clear).2⟩

theorem Fits.of_promoted (fits : P.Fits s (.promoted p t)) : P.Fits s t :=
  ⟨(valid_promoted.1 fits.valid).2, (Ty.everyAt_promoted.1 fits.clear).2⟩

theorem Fits.param_of_promoted (fits : P.Fits s (.promoted p t)) : P.Fits s (.param p) :=
  ⟨(valid_promoted.1 fits.valid).1, by simp [Ty.Clear, Ty.isHiddenTop, Ty.topLike]⟩

theorem Fits.params (fits : P.Fits s (.func ps t)) : ∀ p ∈ ps, P.Fits (!s) p := fun p hp =>
  ⟨(valid_func.1 fits.valid).1 p hp, (Ty.everyAt_func.1 fits.clear).2.1 p hp⟩

theorem Fits.result (fits : P.Fits s (.func ps t)) : P.Fits s t :=
  ⟨(valid_func.1 fits.valid).2, (Ty.everyAt_func.1 fits.clear).2.2⟩

theorem Fits.fields (fits : P.Fits s (.record fs)) : ∀ f ∈ fs, P.Fits s f := fun f hf =>
  ⟨valid_record.1 fits.valid f hf, (Ty.everyAt_record.1 fits.clear).2 f hf⟩

theorem Coherent.fits_future (coherent : P.Coherent) (fits : P.Fits s t) :
    P.Fits s (.future t) := by
  refine ⟨coherent.valid_future fits.valid, Ty.everyAt_interface.2 ⟨fun _ => ?_, ?_⟩⟩
  · simp [Ty.isHiddenTop, Ty.topLike]
  · exact List.forall_mem_singleton.2 fits.clear

theorem Coherent.fits_boundOf (coherent : P.Coherent) (h : P.boundOf p = .ok bound) :
    P.Fits false bound := by
  refine ⟨coherent.valid_boundOf h, ?_⟩
  obtain ⟨q, hq, rfl⟩ := boundOf_eq_ok.1 h
  cases hbound : q.bound with
  | none => simp [Ty.object, Ty.orNull, Ty.Clear]
  | some bound => exact (coherent.bounds p q bound hq hbound).2

theorem Coherent.fits_of_reaches (coherent : P.Coherent) (fits : P.Fits false (.interface d as))
    (h : P.Reaches ⟨d, as⟩ ⟨e, xs⟩) : ∀ x ∈ xs, P.Fits false x :=
  Fits.args ⟨coherent.valid_of_reaches (i := ⟨d, as⟩) fits.valid h,
    coherent.clear_of_reaches (i := ⟨d, as⟩) fits.valid fits.clear h⟩

end Fits

theorem acceptsNull_orNull : t.orNull.acceptsNull := by
  cases t <;> rfl

theorem Derivable.orNull_right (h : P.Derivable a b) : P.Derivable a b.orNull := by
  cases b with
  | dynamic | void | unknown | nullable => exact h
  | _ => exact h.widen (.nullable (by simp))

theorem Derivable.orNull_left (h : P.Derivable a c) (accepts : c.acceptsNull) :
    P.Derivable a.orNull c := by
  cases a with
  | dynamic | void | unknown | nullable => exact h
  | _ => exact h.nullable_left accepts

theorem Derives.below_param (h : P.Derives n a b) (hb : b = .param p) :
    a = .unknown ∨ a = .never ∨ a.param?.isSome := by
  induction h with
  | null _ admits | nullable_left _ admits =>
    have accepts := acceptsNull_of_admitsNull admits
    simp [hb, Ty.acceptsNull, Ty.isNull] at accepts
  | futureOr_left _ _ ih => simpa [Ty.future, Ty.param?] using ih hb
  | _ => simp_all [Ty.isTop, Ty.object, Ty.param?]

theorem future_not_below_promoted : ¬ P.Derives n (.future t) (.promoted p bound) := by
  intro h
  cases h with
  | top isTop => cases isTop
  | null isNull => cases isNull
  | promoted_right _ param _ => simpa [Ty.future, Ty.param?] using param.below_param rfl

theorem Derives.below_promoted (h : P.Derives (n + 1) a (.promoted p bound)) :
    a = .promoted p bound ∨ a = .unknown ∨ a = .never ∨
      P.Derives n a (.param p) ∧ P.Derives n a bound := by
  cases h with
  | refl => exact .inl rfl
  | unknown_left => exact .inr (.inl rfl)
  | never => exact .inr (.inr (.inl rfl))
  | null _ admits | nullable_left _ admits => cases acceptsNull_of_admitsNull admits
  | futureOr_left future _ => exact absurd future future_not_below_promoted
  | promoted_right _ param h => exact .inr (.inr (.inr ⟨param, h⟩))
  | top isTop => cases isTop
  | param above | promoted_param above | promoted_bound above => cases above

theorem Derivable.promoted (below : P.Derivable a (.param p)) (h : P.Derivable a bound) :
    P.Derivable a (.promoted p bound) := by
  have ⟨n, hparam⟩ := below
  refine below.promoted_right ?_ h
  rcases hparam.below_param rfl with rfl | rfl | h
  · rfl
  · rfl
  · cases a <;> simp_all [Ty.param?, Ty.isAtomic, Ty.isNull]

theorem Fits.widens_nullable (fits : P.Fits true (.nullable t)) : Widens t (.nullable t) := by
  refine .nullable ?_
  rintro rfl
  exact fits.clear.self rfl

theorem Fits.widens_futureOr (fits : P.Fits true (.futureOr t)) : Widens t (.futureOr t) := by
  refine .futureOr ?_
  rintro rfl
  exact fits.clear.self rfl

/-- The premise of a rule that takes apart the type on the right, or types of one shape. -/
def RightPremise (P : Program) (n : Nat) (a : Ty) : Ty → Prop
  | .nullable u => a.isAtomic ∧ P.Derives n a u
  | .futureOr u => a.isAtomic ∧ (P.Derives n a (.future u) ∨ P.Derives n a u)
  | .promoted p bound => a.isAtomic ∧ P.Derives n a (.param p) ∧ P.Derives n a bound
  | .interface e bs =>
    ((∃ ps t, a = .func ps t) ∨ ∃ fs, a = .record fs) ∧ .interface e bs = Ty.object ∨
      ∃ d as xs, a = .interface d as ∧ d ≠ .null ∧ P.Reaches ⟨d, as⟩ ⟨e, xs⟩ ∧
        xs.length = bs.length ∧ ∀ x ∈ xs.zip bs, P.Derives n x.1 x.2
  | .func qs u => ∃ ps t, a = .func ps t ∧ ps.length = qs.length ∧
      (∀ x ∈ ps.zip qs, P.Derives n x.2 x.1) ∧ P.Derives n t u
  | .record gs => ∃ fs, a = .record fs ∧ fs.length = gs.length ∧
      ∀ x ∈ fs.zip gs, P.Derives n x.1 x.2
  | _ => False

def LeftPremise (P : Program) (n : Nat) (c : Ty) : Ty → Prop
  | .nullable t => P.Derives n t c ∧ c.acceptsNull
  | .futureOr t => P.Derives n (.future t) c ∧ P.Derives n t c
  | .promoted p bound => P.Derives n (.param p) c ∨ P.Derives n bound c
  | .interface d as =>
    d = .null ∧ c.acceptsNull ∨
      d ≠ .null ∧ ∃ e xs bs, c = .interface e bs ∧ P.Reaches ⟨d, as⟩ ⟨e, xs⟩ ∧
        xs.length = bs.length ∧ ∀ x ∈ xs.zip bs, P.Derives n x.1 x.2
  | .func ps t => c = .object ∨ ∃ qs u, c = .func qs u ∧ ps.length = qs.length ∧
      (∀ x ∈ ps.zip qs, P.Derives n x.2 x.1) ∧ P.Derives n t u
  | .record fs => c = .object ∨ ∃ gs, c = .record gs ∧ fs.length = gs.length ∧
      ∀ x ∈ fs.zip gs, P.Derives n x.1 x.2
  | .dynamic | .void => False
  | .unknown | .never | .param _ => True

/-- What is below the type on the right for the same reasons can take the place of the type on the
    left, unless the rule takes that apart. -/
theorem Derives.split_right (coherent : P.Coherent) (h : P.Derives (n + 1) b c)
    (fits : P.Fits true c) :
    (∀ a, P.Derivable a b → (∀ d, P.Fits true d → P.Derives n b d → P.Derivable a d) →
      P.Derivable a c) ∨ P.LeftPremise n c b := by
  cases h with
  | refl => exact .inl fun a hab _ => hab
  | unknown_right => exact .inl fun a _ _ => .unknown_right
  | top isTop => exact .inl fun a _ _ => .top isTop
  | nullable_right _ h =>
    exact .inl fun a _ below => (below _ fits.of_nullable h).widen fits.widens_nullable
  | future_right _ h =>
    exact .inl fun a _ below => (below _ (coherent.fits_future fits.of_futureOr) h).widen .future
  | futureOr_right _ h =>
    exact .inl fun a _ below => (below _ fits.of_futureOr h).widen fits.widens_futureOr
  | promoted_right _ param h =>
    exact .inl fun a _ below =>
      (below _ fits.param_of_promoted param).promoted (below _ fits.of_promoted h)
  | unknown_left | never | param => exact .inr trivial
  | null isNull admits =>
    refine .inr ?_
    have accepts := acceptsNull_of_admitsNull admits
    cases b with
    | interface d as => exact .inl ⟨by simpa [Ty.isNull] using isNull, accepts⟩
    | _ => cases isNull
  | func_object | record_object => exact .inr (.inl rfl)
  | nullable_left h admits => exact .inr ⟨h, acceptsNull_of_admitsNull admits⟩
  | futureOr_left future h => exact .inr ⟨future, h⟩
  | promoted_param _ h => exact .inr (.inl h)
  | promoted_bound _ h => exact .inr (.inr h)
  | interface notNull reaches hlength h =>
    exact .inr (.inr ⟨notNull, _, _, _, rfl, reaches, hlength, h⟩)
  | func hlength params h => exact .inr (.inr ⟨_, _, rfl, hlength, params, h⟩)
  | record hlength h => exact .inr (.inr ⟨_, rfl, hlength, h⟩)

theorem Derives.split_left (coherent : P.Coherent) (h : P.Derives (n + 1) a b)
    (fits : P.Fits false a) :
    (∀ c, (b.isTop → c.isTop) → (b.acceptsNull → c.acceptsNull) →
      (b.isAboveBounds → c.isAboveBounds) →
      (∀ d, P.Fits false d → P.Derives n d b → P.Derivable d c) → P.Derivable a c) ∨
    a = b ∨ b = .unknown ∨ P.RightPremise n a b := by
  cases h with
  | refl => exact .inr (.inl rfl)
  | unknown_right => exact .inr (.inr (.inl rfl))
  | unknown_left => exact .inl fun _ _ _ _ _ => .unknown_left
  | top isTop => exact .inl fun _ above _ _ _ => .top (above isTop)
  | never => exact .inl fun _ _ _ _ _ => ⟨1, .never⟩
  | null isNull admits =>
    exact .inl fun _ _ accepts _ _ => .null isNull (accepts (acceptsNull_of_admitsNull admits))
  | nullable_left h admits =>
    exact .inl fun _ _ accepts _ above =>
      (above _ fits.of_nullable h).nullable_left (accepts (acceptsNull_of_admitsNull admits))
  | futureOr_left future h =>
    exact .inl fun _ _ _ _ above =>
      (above _ (coherent.fits_future fits.of_futureOr) future).futureOr_left
        (above _ fits.of_futureOr h)
  | param bounds hbound h =>
    exact .inl fun _ _ _ keeps above =>
      (above _ (coherent.fits_boundOf hbound) h).param (keeps bounds) hbound
  | promoted_param bounds h =>
    exact .inl fun _ _ _ keeps above =>
      (above _ fits.param_of_promoted h).promoted_param (keeps bounds)
  | promoted_bound bounds h =>
    exact .inl fun _ _ _ keeps above => (above _ fits.of_promoted h).promoted_bound (keeps bounds)
  | func_object => exact .inr (.inr (.inr (.inl ⟨.inl ⟨_, _, rfl⟩, rfl⟩)))
  | record_object => exact .inr (.inr (.inr (.inl ⟨.inr ⟨_, rfl⟩, rfl⟩)))
  | nullable_right atomic h => exact .inr (.inr (.inr ⟨atomic, h⟩))
  | future_right atomic h => exact .inr (.inr (.inr ⟨atomic, .inl h⟩))
  | futureOr_right atomic h => exact .inr (.inr (.inr ⟨atomic, .inr h⟩))
  | promoted_right atomic param h => exact .inr (.inr (.inr ⟨atomic, param, h⟩))
  | interface notNull reaches hlength h =>
    exact .inr (.inr (.inr (.inr ⟨_, _, _, rfl, notNull, reaches, hlength, h⟩)))
  | func hlength params h => exact .inr (.inr (.inr ⟨_, _, rfl, hlength, params, h⟩))
  | record hlength h => exact .inr (.inr (.inr ⟨_, rfl, hlength, h⟩))

end Program

end MemberAccess
