import MemberAccess.Proofs.Matching.Constituents
import MemberAccess.Proofs.Typing.Normal

/-!
Types above what matches. A type that matches a pattern is below what becomes of the pattern when
its variables are replaced by types that respect what they are offered.
-/
namespace MemberAccess

open Unification

variable {vars : List ParamId} {width : Nat} {t u c : Ty} {ps : List Ty} {f : ParamId → Option Ty}

namespace Ty

def Unpromoted (vars : List ParamId) (t : Ty) : Prop :=
  t.Every fun part => part.isPromoted → part.Free vars

instance : Decidable (t.Unpromoted vars) := inferInstanceAs (Decidable (t.Every _))

theorem widest_ne_unknown (mentions : ¬ t.Free vars) : t.widest vars width ≠ .unknown := by
  cases t with
  | param | func =>
    rw [widest]
    split <;> simp
  | unknown => simp [Free, param?] at mentions
  | _ => simp [widest]

theorem isAboveBounds_widest (mentions : ¬ t.Free vars) (unpromoted : t.Unpromoted vars) :
    (t.widest vars width).isAboveBounds := by
  cases t with
  | param | func =>
    rw [widest]
    split <;> rfl
  | never => simp [Free, param?] at mentions
  | promoted p bound => exact absurd (unpromoted.self rfl) mentions
  | _ => rfl

theorem replace_of_free (outside : ∀ p, p ∉ vars → f p = none) (free : t.Free vars) :
    t.replace f = t.normal := by
  induction t using induct with
  | unknown | dynamic | void | never => rfl
  | interface d as ih =>
    have args := (every_interface.1 free).2
    rw [replace, replaceAll_eq_map, normal_interface]
    exact congrArg _ (List.map_congr_left fun a ha => ih a ha (args a ha))
  | nullable t ih => rw [replace, ih (every_nullable.1 free).2, normal_nullable]
  | futureOr t ih => rw [replace, ih (every_futureOr.1 free).2, normal_futureOr]
  | param p =>
    rw [replace, outside p (every_param.1 free p rfl)]
    rfl
  | promoted p bound ih =>
    obtain ⟨head, free⟩ := every_promoted.1 free
    rw [replace, outside p (head p rfl), ih free]
    rfl
  | func ps r ihParams ihResult =>
    obtain ⟨_, params, result⟩ := every_func.1 free
    rw [replace, replaceAll_eq_map, ihResult result, normal_func]
    exact congrArg (func · _) (List.map_congr_left fun p hp => ihParams p hp (params p hp))
  | record fs ih =>
    have fields := (every_record.1 free).2
    rw [replace, replaceAll_eq_map, normal_record]
    exact congrArg _ (List.map_congr_left fun g hg => ih g hg (fields g hg))

theorem replace_ne_unknown (mentions : ¬ t.Free vars) (known : ∀ p u, f p = some u → u ≠ .unknown) :
    t.replace f ≠ .unknown := by
  induction t using induct with
  | param p =>
    rw [replace]
    cases value : f p with
    | none => simp
    | some u => exact known p u value
  | promoted p bound =>
    rw [replace]
    cases value : f p with
    | none => simp
    | some u => exact known p u value
  | nullable t ih => exact mt orNull_eq_unknown.1 (ih (mt free_nullable.2 mentions))
  | unknown => simp [Free, param?] at mentions
  | _ => simp [replace]

theorem isAboveBounds_replace (mentions : ¬ t.Free vars) (unpromoted : t.Unpromoted vars)
    (notVar : varOf? vars t = none) : (t.replace f).isAboveBounds := by
  cases t with
  | param p =>
    refine absurd (every_param.2 ?_) mentions
    intro q hq
    cases hq
    simpa [varOf?] using notVar
  | nullable t =>
    rw [replace]
    cases t.replace f <;> rfl
  | never => simp [Free, param?] at mentions
  | promoted p bound => exact absurd (unpromoted.self rfl) mentions
  | _ => rfl

end Ty

namespace Program

variable {P : Program} {φ : Ty → Prop} {up down : Ty → Ty} {n : Nat} {os : List Offer}
  {t' c' : Ty}

/-- Whether the types that replace a variable are on the right sides of one that it is offered. -/
def Respects (P : Program) (up down : Ty → Ty) (o : Offer) : Prop :=
  if o.covariant then P.Derivable o.type (up (.param o.param))
  else P.Derivable (down (.param o.param)) o.type

structure Replacement (P : Program) (vars : List ParamId) (φ : Ty → Prop) (up down : Ty → Ty) :
    Prop where
  free : ∀ t c, t.Free vars → P.Valid t → φ c → P.Derivable c t → P.Derivable c (up t)
  free_down : ∀ t cs r, t.Free vars → P.Valid t → φ (.func cs r) → ∀ c ∈ cs, P.Derivable t c →
    P.Derivable (down t) c
  acceptsNull : ∀ t, (up (.nullable t)).acceptsNull
  nullable : ∀ t c, ¬ t.Free vars → P.Derivable c (up t) → P.Derivable c (up (.nullable t))
  futureOr : ∀ t, ¬ t.Free vars → up (.futureOr t) = .futureOr (up t) ∧ up t ≠ .unknown
  interface : ∀ e ps, up (.interface e ps) = .interface e (ps.map up)
  func : ∀ ps r, Ty.solvable vars ps → up (.func ps r) = .func (ps.map down) (up r)
  record : ∀ fs, up (.record fs) = .record (fs.map up)
  above : ∀ t, ¬ t.Free vars → t.Unpromoted vars → varOf? vars t = none → (up t).isAboveBounds

theorem Inner.unpromoted (h : P.Inner t c t' c') (ht : t.Unpromoted vars) : t'.Unpromoted vars := by
  cases h with
  | nullable | nullable_right => exact (Ty.every_nullable.1 ht).2
  | futureOr | future | futureOr_right => exact (Ty.every_futureOr.1 ht).2
  | param | promoted => exact ht

theorem Inner.free (h : P.Inner t c t' c') : t'.Free vars ↔ t.Free vars := by
  cases h with
  | nullable | nullable_right => exact Ty.free_nullable.symm
  | futureOr | future | futureOr_right => exact Ty.free_futureOr.symm
  | param | promoted => exact .rfl

theorem Coherent.exists_arg_future (coherent : P.Coherent) {as : List Ty}
    (valid : P.Valid (.interface .future as)) : ∃ t, as = [t] := by
  obtain ⟨d, hd, hparams, _⟩ := coherent.future
  have hlength := length_params (i := ⟨.future, as⟩) valid hd
  rw [hparams] at hlength
  exact List.length_eq_one_iff.1 hlength.symm

theorem Inner.derivable (coherent : P.Coherent) (valid : P.Valid c)
    (replacement : P.Replacement vars φ up down) (h : P.Inner t c t' c')
    (mentions : ¬ t.Free vars) (unpromoted : t.Unpromoted vars) (notVar : varOf? vars t = none)
    (below : P.Derivable c' (up t')) : P.Derivable c (up t) := by
  have mentions' : ¬ t'.Free vars := mt h.free.1 mentions
  cases h with
  | nullable =>
    exact (replacement.nullable _ _ mentions' below).nullable_left (replacement.acceptsNull _)
  | nullable_right => exact replacement.nullable _ _ mentions' below
  | futureOr =>
    obtain ⟨same, known⟩ := replacement.futureOr _ mentions'
    rw [same]
    exact .futureOr_left (below.future.widen .future) (below.widen (.futureOr known))
  | @future t a as =>
    obtain ⟨same, _⟩ := replacement.futureOr _ mentions'
    obtain ⟨_, single⟩ := coherent.exists_arg_future valid
    cases single
    rw [same]
    exact below.future.widen .future
  | futureOr_right =>
    obtain ⟨same, known⟩ := replacement.futureOr _ mentions'
    rw [same]
    exact below.widen (.futureOr known)
  | param _ hbound => exact below.param (replacement.above _ mentions unpromoted notVar) hbound
  | promoted => exact below.promoted_bound (replacement.above _ mentions unpromoted notVar)

theorem exists_mem_zip {xs : List Ty} (hlength : ps.length = xs.length) (ht : t ∈ ps) :
    ∃ x, (t, x) ∈ ps.zip xs := by
  obtain ⟨i, hi, rfl⟩ := List.mem_iff_getElem.1 ht
  exact ⟨xs[i], List.mem_iff_getElem.2 ⟨i, by simp; omega, by simp⟩⟩

theorem MatchesParam.solvable (h : P.MatchesParam vars t c os) :
    t.Free vars ∨ ∃ p ∈ vars, t = .param p := by
  cases h with
  | var hp => exact .inr ⟨_, hp, rfl⟩
  | free free => exact .inl free

section

variable (coherent : P.Coherent) (replacement : P.Replacement vars φ up down)

include replacement in
theorem MatchesParam.derivable {cs : List Ty} {r : Ty} (ht : P.Valid t) (hφ : φ (.func cs r))
    (hc : c ∈ cs) (respects : ∀ o ∈ os, P.Respects up down o) (h : P.MatchesParam vars t c os) :
    P.Derivable (down t) c := by
  cases h with
  | var => simpa [Respects] using respects
  | free free derivable => exact replacement.free_down _ _ _ free ht hφ _ hc derivable

include coherent replacement in
theorem Matches.derivable (hereditary : P.Hereditary φ) (valid : ∀ c, φ c → P.Valid c)
    (ht : P.Valid t) (unpromoted : t.Unpromoted vars) (hc : φ c)
    (respects : ∀ o ∈ os, P.Respects up down o) (h : P.Matches vars n t c os) :
    P.Derivable c (up t) := by
  induction h with
  | var => simpa [Respects] using respects
  | free free derivable => exact replacement.free _ _ free ht hc derivable
  | bottom _ _ extreme =>
    rcases extreme with rfl | rfl
    · exact ⟨1, .never⟩
    · exact .unknown_left
  | null _ isNull => exact .null isNull (replacement.acceptsNull _)
  | inner mentions notVar inner _ ih =>
    have ht' := (inner.valid coherent ht (valid _ hc)).1
    exact inner.derivable coherent (valid _ hc) replacement mentions unpromoted notVar
      (ih ht' (inner.unpromoted unpromoted) (inner.hereditary hereditary hc) respects)
  | @interface e ps d as xs n f _ reaches hlength _ ih =>
    rw [replacement.interface]
    by_cases null : d = .null
    · obtain ⟨rfl, rfl⟩ := Instance.mk.inj (reaches_eq reaches fun k => coherent.extends_null null)
      exact .null (by simp [Ty.isNull, null]) (by simp [Ty.acceptsNull, Ty.isNull, null])
    · refine .interface null reaches (by simpa using hlength.symm) (forall_mem_zip_map_right.2
        (forall_mem_zip_swap.2 fun x hx => ?_))
      obtain ⟨left, right⟩ := List.of_mem_zip hx
      exact ih x hx ((valid_interface.1 ht).2 _ left) ((Ty.every_interface.1 unpromoted).2 _ left)
        (hereditary _ _ (.argument reaches right) hc)
        fun o ho => respects o (List.mem_flatMap.2 ⟨x, hx, ho⟩)
  | func _ hlength params _ ih =>
    obtain ⟨validParams, validResult⟩ := valid_func.1 ht
    have solvable := Ty.solvable_iff.2 fun p hp => by
      obtain ⟨x, hx⟩ := exists_mem_zip hlength hp
      exact (params _ hx).solvable
    rw [replacement.func _ _ solvable]
    refine .func (by simpa using hlength.symm) (forall_mem_zip_map_right.2
      (forall_mem_zip_swap.2 fun x hx => ?_)) ?_
    · obtain ⟨left, right⟩ := List.of_mem_zip hx
      exact (params x hx).derivable replacement (validParams _ left) hc right
        fun o ho => respects o (List.mem_append_left _ (List.mem_flatMap.2 ⟨x, hx, ho⟩))
    · exact ih validResult (Ty.every_func.1 unpromoted).2.2 (hereditary _ _ .result hc)
        fun o ho => respects o (List.mem_append_right _ ho)
  | @record ps cs n f _ hlength _ ih =>
    rw [replacement.record]
    refine .record (by simpa using hlength.symm) (forall_mem_zip_map_right.2
      (forall_mem_zip_swap.2 fun x hx => ?_))
    obtain ⟨left, right⟩ := List.of_mem_zip hx
    exact ih x hx (valid_record.1 ht _ left) ((Ty.every_record.1 unpromoted).2 _ left)
      (hereditary _ _ (.field right) hc)
      fun o ho => respects o (List.mem_flatMap.2 ⟨x, hx, ho⟩)

end

section Kinds

theorem MatchesParam.params (h : P.MatchesParam vars t c os) : ∀ o ∈ os, o.param ∈ vars := by
  cases h with
  | var hp => simpa using hp
  | free => simp

theorem Matches.params (h : P.Matches vars n t c os) : ∀ o ∈ os, o.param ∈ vars := by
  induction h with
  | var hp => simpa using hp
  | free | bottom | null => simp
  | inner _ _ _ _ ih => exact ih
  | interface _ _ _ _ ih | record _ _ _ ih =>
    intro o ho
    obtain ⟨x, hx, ho⟩ := List.mem_flatMap.1 ho
    exact ih x hx o ho
  | func _ _ params _ ih =>
    refine List.forall_mem_append.2 ⟨fun o ho => ?_, ih⟩
    obtain ⟨x, hx, ho⟩ := List.mem_flatMap.1 ho
    exact (params x hx).params o ho

theorem replacement_widest :
    P.Replacement vars P.Valid (Ty.widest vars width) (Ty.lowest vars) where
  free t c free _ _ h := by rwa [Ty.widest_of_free free]
  free_down t cs r free _ _ c _ h := by rwa [Ty.lowest_of_free free]
  acceptsNull _ := rfl
  nullable t c mentions h := h.widen (.nullable (Ty.widest_ne_unknown mentions))
  futureOr t mentions := ⟨rfl, Ty.widest_ne_unknown mentions⟩
  interface e ps := by rw [Ty.widest, Ty.widestAll_eq_map]
  func ps r solvable := if_pos solvable
  record fs := by rw [Ty.widest, Ty.widestAll_eq_map]
  above t mentions unpromoted _ := Ty.isAboveBounds_widest mentions unpromoted

theorem Matches.below_widest (coherent : P.Coherent) (ht : P.Valid t)
    (unpromoted : t.Unpromoted vars) (hc : P.Valid c) (h : P.Matches vars n t c os) :
    P.Derivable c (t.widest vars width) := by
  refine h.derivable coherent replacement_widest coherent.hereditary_valid (fun _ h => h) ht
    unpromoted hc fun o ho => ?_
  have own := h.params o ho
  unfold Respects
  split
  · simpa [Ty.widest, own] using Derivable.top rfl
  · simpa [Ty.lowest, own] using ⟨1, .never⟩

theorem Coherent.replacement_replace (coherent : P.Coherent)
    (outside : ∀ p, p ∉ vars → f p = none) (known : ∀ p u, f p = some u → u ≠ .unknown) :
    P.Replacement vars (P.Fits false) (Ty.replace f) (Ty.replace f) where
  free t c free valid fits h := by
    rw [Ty.replace_of_free outside free]
    exact coherent.normal_right fits valid h
  free_down t cs r free valid fits c hc h := by
    rw [Ty.replace_of_free outside free]
    exact coherent.normal_left valid (fits.params c hc) h
  acceptsNull _ := acceptsNull_orNull
  nullable t c _ h := h.orNull_right
  futureOr t mentions := ⟨rfl, Ty.replace_ne_unknown mentions known⟩
  interface e ps := by rw [Ty.replace, Ty.replaceAll_eq_map]
  func ps r _ := by rw [Ty.replace, Ty.replaceAll_eq_map]
  record fs := by rw [Ty.replace, Ty.replaceAll_eq_map]
  above t mentions unpromoted notVar := Ty.isAboveBounds_replace mentions unpromoted notVar

theorem Matches.below_replace (coherent : P.Coherent) (ht : P.Valid t)
    (unpromoted : t.Unpromoted vars) (fits : P.Fits false c)
    (outside : ∀ p, p ∉ vars → f p = none) (known : ∀ p u, f p = some u → u ≠ .unknown)
    (respects : ∀ o ∈ os, P.Respects (Ty.replace f) (Ty.replace f) o)
    (h : P.Matches vars n t c os) : P.Derivable c (t.replace f) :=
  h.derivable coherent (coherent.replacement_replace outside known) coherent.hereditary_fits
    (fun _ fits => fits.valid) ht unpromoted fits respects

end Kinds

end Program

end MemberAccess
