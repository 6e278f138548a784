import MemberAccess.Proofs.Matching.Relation

/-!
What a type is taken apart into as far as matching looks into it. That includes the bounds of its
variables and the arguments of its supertypes, but not the parameters of functions.
-/
namespace MemberAccess

open Filter

def Ty.Narrow (width : Nat) (t : Ty) : Prop :=
  t.Every fun part => ∀ fs, part = .record fs → fs.length < width

namespace Program

inductive Consists (P : Program) : Ty → Ty → Prop
  | nullable : Consists P (.nullable t) t
  | futureOr : Consists P (.futureOr t) t
  | bound : P.boundOf p = .ok bound → Consists P (.param p) bound
  | promoted : Consists P (.promoted p t) t
  | argument : P.Reaches ⟨d, as⟩ ⟨e, xs⟩ → x ∈ xs → Consists P (.interface d as) x
  | result : Consists P (.func ps t) t
  | field : f ∈ fs → Consists P (.record fs) f

def Hereditary (P : Program) (φ : Ty → Prop) : Prop := ∀ t u, P.Consists t u → φ t → φ u

variable {P : Program} {t u c t' c' bound : Ty} {φ : Ty → Prop} {ts : List Ty} {n m width : Nat}
  {f : ParamId → Option Ty} {i j : Instance} {p : ParamId}

theorem Inner.hereditary (h : P.Inner t c t' c') (hereditary : P.Hereditary φ) (hc : φ c) :
    φ c' := by
  cases h with
  | nullable => exact hereditary _ _ .nullable hc
  | futureOr => exact hereditary _ _ .futureOr hc
  | future => exact hereditary _ _ (.argument .refl List.mem_cons_self) hc
  | nullable_right | futureOr_right => exact hc
  | param _ hbound => exact hereditary _ _ (.bound hbound) hc
  | promoted => exact hereditary _ _ .promoted hc

theorem Coherent.hereditary_valid (coherent : P.Coherent) : P.Hereditary P.Valid := by
  intro t u step valid
  cases step with
  | nullable => exact valid_nullable.1 valid
  | futureOr => exact valid_futureOr.1 valid
  | bound hbound => exact coherent.valid_boundOf hbound
  | promoted => exact (valid_promoted.1 valid).2
  | @argument d as _ _ _ reaches hx =>
    exact (valid_interface.1 (coherent.valid_of_reaches (i := ⟨d, as⟩) valid reaches)).2 _ hx
  | result => exact (valid_func.1 valid).2
  | field hf => exact valid_record.1 valid _ hf

theorem Coherent.hereditary_fits (coherent : P.Coherent) : P.Hereditary (P.Fits false) := by
  intro t u step fits
  cases step with
  | nullable => exact fits.of_nullable
  | futureOr => exact fits.of_futureOr
  | bound hbound => exact coherent.fits_boundOf hbound
  | promoted => exact fits.of_promoted
  | argument reaches hx => exact coherent.fits_of_reaches fits reaches _ hx
  | result => exact fits.result
  | field hf => exact fits.fields _ hf

section Narrow

theorem eventually_narrow (t : Ty) : ∀ᶠ width in atTop, t.Narrow width := by
  refine eventually_forall_mem fun part _ => ?_
  cases part with
  | record fs =>
    filter_upwards [eventually_gt_atTop fs.length] with width hwidth gs same
    cases same
    exact hwidth
  | _ => simp

theorem narrow_orNull : t.orNull.Narrow width ↔ t.Narrow width := by
  cases t <;> simp [Ty.orNull, Ty.Narrow]

theorem narrow_replace (narrow : t.Narrow width) (values : ∀ p u, f p = some u → u.Narrow width) :
    (t.replace f).Narrow width := by
  induction t using Ty.induct with
  | unknown | dynamic | void | never => exact narrow
  | interface d as ih =>
    have args := (Ty.every_interface.1 narrow).2
    rw [Ty.replace, Ty.replaceAll_eq_map]
    refine Ty.every_interface.2 ⟨by simp, List.forall_mem_map.2 fun a ha => ih a ha (args a ha)⟩
  | nullable t ih => exact narrow_orNull.2 (ih (Ty.every_nullable.1 narrow).2)
  | futureOr t ih => exact Ty.every_futureOr.2 ⟨by simp, ih (Ty.every_futureOr.1 narrow).2⟩
  | param p =>
    rw [Ty.replace]
    cases value : f p with
    | none => exact narrow
    | some u => exact values p u value
  | promoted p bound ih =>
    rw [Ty.replace]
    cases value : f p with
    | none => exact Ty.every_promoted.2 ⟨by simp, ih (Ty.every_promoted.1 narrow).2⟩
    | some u => exact values p u value
  | func ps r ihParams ihResult =>
    obtain ⟨_, params, result⟩ := Ty.every_func.1 narrow
    rw [Ty.replace, Ty.replaceAll_eq_map]
    exact Ty.every_func.2 ⟨by simp,
      List.forall_mem_map.2 fun p hp => ihParams p hp (params p hp), ihResult result⟩
  | record fs ih =>
    obtain ⟨own, fields⟩ := Ty.every_record.1 narrow
    rw [Ty.replace, Ty.replaceAll_eq_map]
    refine Ty.every_record.2 ⟨?_, List.forall_mem_map.2 fun g hg => ih g hg (fields g hg)⟩
    rintro gs same
    cases same
    simpa using own fs rfl

structure Narrow (P : Program) (width : Nat) : Prop where
  supers : ∀ e d, P.types.get? e = some d → ∀ t ∈ d.supers, t.Narrow width
  bounds : ∀ p q bound, P.params.get? p = some q → q.bound = some bound → bound.Narrow width

/-- Since the declarations are finitely many, all types in them are narrow for some width. -/
theorem eventually_declares_narrow (P : Program) : ∀ᶠ width in atTop, P.Narrow width := by
  have supers : ∀ᶠ width in atTop, ∀ d ∈ P.types.entries.toList, ∀ t ∈ d.supers,
      Ty.Narrow width t :=
    eventually_forall_mem fun d _ => eventually_forall_mem fun t _ => eventually_narrow t
  have bounds : ∀ᶠ width in atTop, ∀ q ∈ P.params.entries.toList, ∀ bound ∈ q.bound,
      Ty.Narrow width bound := by
    refine eventually_forall_mem fun q _ => ?_
    cases q.bound with
    | none => simp
    | some bound => simpa using eventually_narrow bound
  filter_upwards [supers, bounds] with width supers bounds
  exact ⟨fun e d hd => supers d (by simpa using Array.mem_of_getElem? hd),
    fun p q bound hq => bounds q (by simpa using Array.mem_of_getElem? hq) bound⟩

theorem Narrow.boundOf (narrow : P.Narrow width) (h : P.boundOf p = .ok bound) :
    bound.Narrow width := by
  obtain ⟨q, hq, rfl⟩ := boundOf_eq_ok.1 h
  cases hbound : q.bound with
  | none => simp [Ty.object, Ty.orNull, Ty.Narrow]
  | some bound => exact narrow.bounds p q bound hq hbound

theorem Coherent.narrow_of_extends (coherent : P.Coherent) (declared : P.Narrow width)
    (valid : P.Valid i.type) (narrow : i.type.Narrow width) (h : P.Extends i j) :
    j.type.Narrow width := by
  obtain ⟨d, hd, hj⟩ := h
  rcases coherent.directSupers_cases (length_params valid hd) hd hj with
    ⟨k, hk, _, substituted⟩ | ⟨_, rfl⟩
  · have super := declared.supers _ d hd _ hk
    rw [← substituted, TypeDecl.substitute_bindings (length_params valid hd)]
    split
    · exact super
    · exact narrow_replace super fun p u h =>
        (Ty.every_interface.1 narrow).2 u (TypeDecl.mem_of_bindings h).2
  · simp [Instance.type, Ty.Narrow]

theorem Coherent.narrow_of_reaches (coherent : P.Coherent) (declared : P.Narrow width)
    (valid : P.Valid i.type) (narrow : i.type.Narrow width) (h : P.Reaches i j) :
    j.type.Narrow width := by
  induction h with
  | refl => exact narrow
  | tail first last ih =>
    exact coherent.narrow_of_extends declared (coherent.valid_of_reaches valid first) ih last

theorem Coherent.hereditary_narrow (coherent : P.Coherent) (declared : P.Narrow width) :
    P.Hereditary fun t => P.Valid t ∧ t.Narrow width := by
  rintro t u step ⟨valid, narrow⟩
  refine ⟨coherent.hereditary_valid _ _ step valid, ?_⟩
  cases step with
  | nullable => exact (Ty.every_nullable.1 narrow).2
  | futureOr => exact (Ty.every_futureOr.1 narrow).2
  | bound hbound => exact declared.boundOf hbound
  | promoted => exact (Ty.every_promoted.1 narrow).2
  | @argument d as _ _ _ reaches hx =>
    have super := coherent.narrow_of_reaches declared (i := ⟨d, as⟩) valid narrow reaches
    exact (Ty.every_interface.1 super).2 _ hx
  | result => exact (Ty.every_func.1 narrow).2.2
  | field hf => exact (Ty.every_record.1 narrow).2 _ hf

end Narrow

end Program

end MemberAccess
