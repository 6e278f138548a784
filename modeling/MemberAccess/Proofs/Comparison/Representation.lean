import MemberAccess.Proofs.Comparison.Interfaces

/-!
Views and their representations. A view that shows its representation is a subtype of it where the
representation is an interface type, since only those are visited as supertypes.
-/
namespace MemberAccess.Program

open Filter

variable {P P₁ : Program} {name : String} {params : List ParamId} {representation shown t u : Ty}
  {library : LibraryId} {v e : TypeId} {d : DeclId} {n : Nat} {as bs : List Ty}

theorem addView_shown
    (h : P.addView name params representation .shown library = .ok (v, d, P₁)) :
    v = ⟨P.types.size⟩ ∧
      P₁.types.get? v = some ⟨name, .viewKind, params, [representation], library⟩ := by
  obtain ⟨⟨v, Q⟩, added, h⟩ := bind_eq_ok.1 h
  obtain ⟨⟨d, Q'⟩, declared, h⟩ := bind_eq_ok.1 h
  cases h
  obtain ⟨⟨v, types⟩, inserted, h⟩ := bind_eq_ok.1 added
  cases h
  obtain ⟨_, _, h⟩ := bind_eq_ok.1 declared
  cases h
  obtain ⟨rfl, entries⟩ := Table.of_insert inserted
  exact ⟨rfl, by simp [Table.get?, entries, Table.size]⟩

/-- Whether a type is a view that was declared to show its representation, and what the
    representation is with the type arguments of the view. -/
structure Shows (P : Program) (v : TypeId) (as : List Ty) (shown : Ty) : Prop where
  entry : ∃ d, P.types.get? v = some d ∧ ∃ representation,
    d.supers = [representation] ∧ representation.substitute (d.bindings as) = shown
  later : 2 < v.val
  args : ∀ a ∈ as, P.InRange a

namespace Shows

theorem inRange_view (shows : P.Shows v as shown) : P.InRange (.interface v as) := by
  obtain ⟨d, hd, _⟩ := shows.entry
  exact Ty.every_interface.2 ⟨by simp [headInRange, hd], shows.args⟩

theorem inRange_shown (wf : P.WellFormed) (shows : P.Shows v as shown) : P.InRange shown := by
  obtain ⟨d, hd, representation, supers, rfl⟩ := shows.entry
  refine headed_headInRange.every_substitute (wf.supers v d hd _ (by simp [supers])) ?_
  exact fun p u value => shows.args u (TypeDecl.mem_of_bindings value).2

section Supertypes

theorem supertypes_eq (shows : P.Shows v as shown) :
    ∃ n, ∀ rest, P.visit (n + 1) [v] (Instance.ofType? shown).toList = .ok rest →
      P.supertypes ⟨v, as⟩ = .ok (⟨v, as⟩ :: rest) := by
  obtain ⟨d, hd, representation, supers, rfl⟩ := shows.entry
  have inRange : v.val < P.types.size := lt_size_of_get? hd
  have own : d.extendsObject v = false := by simp [TypeDecl.extendsObject, supers]
  have direct : d.directSupers ⟨v, as⟩ =
      (Instance.ofType? (representation.substitute (d.bindings as))).toList := by
    rw [TypeDecl.directSupers, own, supers]
    cases h : Instance.ofType? (representation.substitute (d.bindings as)) <;> simp [h]
  refine ⟨P.types.size - 1, fun rest walk => ?_⟩
  rw [show P.types.size - 1 + 1 = P.types.size by omega] at walk
  rw [supertypes, visit]
  simp [Table.fetch, hd, direct, walk]

theorem superArgs_interface (wf : P.WellFormed) (shows : P.Shows v as (.interface e bs))
    (other : e ≠ v) : P.superArgs? ⟨v, as⟩ e = .ok (some bs) := by
  obtain ⟨n, walk⟩ := shows.supertypes_eq
  obtain ⟨d, hd⟩ := Option.isSome_iff_exists.1 (shows.inRange_shown wf).self
  obtain ⟨rest, hrest, _⟩ := wf.visit (n := n) [e, v] (d.directSupers ⟨e, bs⟩) fun j hj =>
    wf.inRange_extends (shows.inRange_shown wf) ⟨d, hd, hj⟩
  have next : P.visit (n + 1) [v] [⟨e, bs⟩] = .ok (⟨e, bs⟩ :: rest) := by
    simp [visit, other, Table.fetch, hd, hrest]
  simp [superArgs?, walk _ next, other.symm]

theorem superArgs_none (shows : P.Shows v as shown) (plain : Instance.ofType? shown = none)
    (other : e ≠ v) : P.superArgs? ⟨v, as⟩ e = .ok none := by
  obtain ⟨n, walk⟩ := shows.supertypes_eq
  have last : P.visit (n + 1) [v] (Instance.ofType? shown).toList = .ok [] := by
    rw [plain]
    rfl
  simp [superArgs?, walk _ last, other.symm]

end Supertypes

theorem ne_of_le (shows : P.Shows v as shown) (early : e.val ≤ 2) : v ≠ e := by
  rintro rfl
  exact absurd shows.later (by omega)

end Shows

/-- When a view is a subtype of the representation that it shows. -/
inductive Exposes (P : Program) (v : TypeId) (as : List Ty) : Ty → Prop
  | unknown : Exposes P v as .unknown
  | top {t : Ty} : t.isTop → Exposes P v as t
  | interface {e : TypeId} {bs : List Ty} : e ≠ v → Exposes P v as (.interface e bs)
  | again {bs : List Ty} : as.length = bs.length → (∀ x ∈ as.zip bs, P.Below x.1 x.2) →
    Exposes P v as (.interface v bs)
  | nullable {t : Ty} : P.Below (.interface v as) t → Exposes P v as (.nullable t)
  | futureOr {t : Ty} : P.Below (.interface v as) t → Exposes P v as (.futureOr t)

namespace Shows

section Check

variable (wf : P.WellFormed) (shows : P.Shows v as shown)

include shows

theorem not_below_future (plain : Instance.ofType? shown = none) :
    P.subtype n (.interface v as) (.future t) ≠ .ok true := by
  intro h
  have notFuture : v ≠ .future := shows.ne_of_le (by decide)
  cases n with
  | zero => simp [subtype] at h
  | succ n =>
    rcases rules_of_subtype (shows.ne_of_le (by decide)) h with same | same | isTop | isObject | h
    · exact notFuture (by cases same; rfl)
    · cases same
    · cases isTop
    · simp [Ty.future, Ty.isObject, TypeId.future, TypeId.object] at isObject
    · rw [Ty.future] at h
      simp [subtypeByUnion, subtypeByShape, shows.superArgs_none plain notFuture.symm] at h

include wf

theorem exposes_of_below (h : P.Below (.interface v as) shown) : P.Exposes v as shown := by
  have notNull : v ≠ .null := shows.ne_of_le (by decide)
  have notObject : v ≠ .object := shows.ne_of_le (by decide)
  have view := shows.inRange_view
  have target := shows.inRange_shown wf
  cases shown with
  | interface e bs =>
    by_cases other : e = v
    · subst other
      obtain ⟨hlength, each⟩ := (wf.below_interface_iff notNull notObject view target).1 h
      exact .again hlength each
    · exact .interface other
  | nullable t =>
    by_cases isTop : (Ty.nullable t).isTop
    · exact .top isTop
    · exact .nullable ((below_nullable_iff notNull isTop).1 h)
  | futureOr t =>
    by_cases isTop : (Ty.futureOr t).isTop
    · exact .top isTop
    obtain ⟨n, h⟩ := h
    have h := union_of_subtype notNull rfl (by simp) isTop h
    rw [union_futureOr (isAtomic_interface notNull)] at h
    rcases choice_eq_ok.1 h with h | ⟨_, h⟩
    · exact absurd h (shows.not_below_future rfl)
    rcases choice_eq_ok.1 h with h | ⟨_, h⟩
    · exact .futureOr (below_of_subtype h)
    · simp [subtypeByShape] at h
  | promoted p bound =>
    obtain ⟨n, h⟩ := h
    have h := union_of_subtype notNull rfl (by simp) (by simp [Ty.isTop]) h
    rw [union_promoted (isAtomic_interface notNull)] at h
    exact absurd (below_of_subtype (guard_eq_ok.1 h).1) (not_below_param notNull)
  | param p => exact absurd h (not_below_param notNull)
  | unknown => exact .unknown
  | dynamic | void => exact .top rfl
  | _ =>
    obtain ⟨n, h⟩ := h
    have h := union_of_subtype notNull rfl (by simp) (by simp [Ty.isTop]) h
    simp [subtypeByUnion, subtypeByShape] at h

theorem below_of_exposes (h : P.Exposes v as shown) : P.Below (.interface v as) shown := by
  have notNull : v ≠ .null := shows.ne_of_le (by decide)
  have notObject : v ≠ .object := shows.ne_of_le (by decide)
  have view := shows.inRange_view
  have target := shows.inRange_shown wf
  cases h with
  | unknown => exact ⟨0, subtype_of_easy (by simp)⟩
  | top isTop => exact below_of_isTop isTop
  | interface other => exact below_of_superArgs notNull (shows.superArgs_interface wf other)
  | again hlength each =>
    exact (wf.below_interface_iff notNull notObject view target).2 ⟨hlength, each⟩
  | @nullable t below =>
    by_cases isTop : (Ty.nullable t).isTop
    · exact below_of_isTop isTop
    · exact (below_nullable_iff notNull isTop).2 below
  | @futureOr t below =>
    obtain ⟨limit, h⟩ := below
    have future : P.InRange (.future t) := wf.closed.every_future (Ty.every_futureOr.1 target).2
    refine ⟨limit + 1, subtype_of_atomic (isAtomic_interface notNull) (by simp) nofun ?_⟩
    rw [union_futureOr (isAtomic_interface notNull)]
    refine choice_of_answered (wf.closed.subtype_answered view future) (.inr ?_)
    exact choice_eq_ok.2 (.inl h)

end Check

end Shows

/-- A view that shows its representation is a subtype of it where that is an interface type, but
    not of a nullable type, a function, a record or a type variable just because it is shown. -/
theorem shown_view_below_iff (P₀ P₁ P : Program) (name : String) (params : List ParamId)
    (representation : Ty) (library : LibraryId) (v : TypeId) (d : DeclId) (as : List Ty)
    (core : 2 < P₀.types.size)
    (added : P₀.addView name params representation .shown library = .ok (v, d, P₁))
    (kept : P.types.get? v = P₁.types.get? v) (wf : P.WellFormed) (args : ∀ a ∈ as, P.InRange a) :
    P.Below (.interface v as) (representation.substitute (.ofList (params.zip as))) ↔
      P.Exposes v as (representation.substitute (.ofList (params.zip as))) := by
  obtain ⟨rfl, entry⟩ := addView_shown added
  have shows : P.Shows ⟨P₀.types.size⟩ as (representation.substitute (.ofList (params.zip as))) :=
    ⟨⟨_, kept.trans entry, representation, rfl, rfl⟩, core, args⟩
  exact ⟨shows.exposes_of_below wf, shows.below_of_exposes wf⟩

def elementsView : Program :=
  (core.addView "Elements" [⟨3⟩] (.interface ⟨10⟩ [.param ⟨3⟩]) .shown .core).toOption.elim core
    (·.2.2)

theorem wellFormed_elementsView : elementsView.WellFormed where
  object := rfl
  future := rfl
  supers := by decide
  bounds := by decide
  decls := by decide

theorem elements_below_list :
    let int : Ty := .interface ⟨5⟩ []
    2 < core.types.size ∧
    core.addView "Elements" [⟨3⟩] (.interface ⟨10⟩ [.param ⟨3⟩]) .shown .core =
      .ok (⟨11⟩, ⟨0⟩, elementsView) ∧
    elementsView.Below (.interface ⟨11⟩ [int]) (.interface ⟨10⟩ [int]) := by
  intro int
  have added : core.addView "Elements" [⟨3⟩] (.interface ⟨10⟩ [.param ⟨3⟩]) .shown .core =
      .ok (⟨11⟩, ⟨0⟩, elementsView) := rfl
  refine ⟨by decide, added, ?_⟩
  exact (shown_view_below_iff core elementsView elementsView _ _ _ _ _ _ [int] (by decide) added rfl
    wellFormed_elementsView (by decide)).2 (.interface (by decide))

end MemberAccess.Program
