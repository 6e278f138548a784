import MemberAccess.Proofs.Typing.Lifting

/-!
Question marks that say nothing. To substitute drops those that are around a type that has one
already, or that is a top type; what is above or below the type stays the same.
-/
namespace MemberAccess

namespace Ty

/-- The type as a substitution leaves it that replaces none of its parameters. -/
def normal (t : Ty) : Ty := t.replace fun _ => none

variable {t : Ty} {f : ParamId → Option Ty} {ts : List Ty} {d : TypeId} {p : ParamId}

@[simp] theorem normal_interface : (interface d ts).normal = .interface d (ts.map normal) := by
  simp [normal, replace, replaceAll_eq_map]

@[simp] theorem normal_nullable : (nullable t).normal = t.normal.orNull := rfl

@[simp] theorem normal_futureOr : (futureOr t).normal = .futureOr t.normal := rfl

@[simp] theorem normal_future : (future t).normal = .future t.normal := normal_interface

@[simp] theorem normal_func : (func ts t).normal = .func (ts.map normal) t.normal := by
  simp [normal, replace, replaceAll_eq_map]

@[simp] theorem normal_record : (record ts).normal = .record (ts.map normal) := by
  simp [normal, replace, replaceAll_eq_map]

theorem isTop_normal (h : t.isTop) : t.normal.isTop := by
  induction t using induct with
  | dynamic | void => rfl
  | nullable t ih =>
    rw [normal_nullable, isTop_orNull, Bool.or_eq_true]
    rw [isTop, Bool.or_eq_true] at h
    refine h.imp (fun root => ?_) ih
    cases t with
    | interface => simpa [isObject] using root
    | _ => cases root
  | futureOr t ih => exact ih h
  | _ => cases h

theorem acceptsNull_normal (h : t.acceptsNull) : t.normal.acceptsNull := by
  induction t using induct with
  | nullable t => exact Program.acceptsNull_orNull
  | futureOr t ih => exact ih h
  | interface d as => simpa [acceptsNull, isNull] using h
  | unknown | dynamic | void => rfl
  | _ => cases h

theorem isAboveBounds_normal (h : t.isAboveBounds) : t.normal.isAboveBounds := by
  cases t with
  | nullable t =>
    rw [normal_nullable]
    cases t.normal <;> rfl
  | interface | func | record => simp [isAboveBounds]
  | never | promoted => cases h
  | _ => rfl

end Ty

namespace Program

variable {P : Program} {n : Nat} {a b c t u : Ty} {p : ParamId}

theorem Derivable.of_normal_unknown (h : t.normal = .unknown) (accepts : b.acceptsNull) :
    P.Derivable t b := by
  induction t using Ty.induct with
  | unknown => exact .unknown_left
  | nullable t ih => exact (ih (Ty.orNull_eq_unknown.1 h)).nullable_left accepts
  | interface | func | record => simp at h
  | _ => cases h

/-- Whether what is above the bounds of `t` is above `u`. Where the types are promoted variables,
    that is more than that `t` is a subtype of `u`. -/
def Replaces (P : Program) (t u : Ty) : Prop :=
  ∀ a, (∀ v, v.isAboveBounds → P.Derivable t v → P.Derivable a v) → t = u ∨ P.Derivable a u

theorem Replaces.derivable (h : P.Replaces t u) : P.Derivable t u := by
  rcases h t fun _ _ h => h with rfl | h
  · exact .refl _
  · exact h

theorem Replaces.promoted (h : P.Replaces t u) : P.Replaces (.promoted p t) (.promoted p u) := by
  intro a above
  rcases h a fun v hv h => above v hv (h.promoted_bound hv) with rfl | h
  · exact .inl rfl
  · exact .inr ((above (.param p) rfl ((Derivable.refl _).promoted_param rfl)).promoted h)

theorem replaces_of_derivable (above : u.isAboveBounds) (h : P.Derivable t u) : P.Replaces t u :=
  fun _ keeps => .inr (keeps u above h)

theorem replaces_normal (t : Ty) : P.Replaces t t.normal ∧ P.Replaces t.normal t := by
  induction t using Ty.induct with
  | unknown | dynamic | void | never | param => exact ⟨fun _ _ => .inl rfl, fun _ _ => .inl rfl⟩
  | interface d as ih =>
    rw [Ty.normal_interface]
    have args : ∀ x ∈ as.zip (as.map Ty.normal), P.Derivable x.1 x.2 :=
      forall_mem_zip_map_right.2 (forall_mem_zip_self.2 fun t ht => (ih t ht).1.derivable)
    have args' : ∀ x ∈ (as.map Ty.normal).zip as, P.Derivable x.1 x.2 :=
      forall_mem_zip_map_left.2 (forall_mem_zip_self.2 fun t ht => (ih t ht).2.derivable)
    by_cases null : d = .null
    · have isNull (as : List Ty) : (Ty.interface d as).isNull := by simp [Ty.isNull, null]
      have accepts (as : List Ty) : (Ty.interface d as).acceptsNull := isNull as
      exact ⟨replaces_of_derivable rfl (.null (isNull _) (accepts _)),
        replaces_of_derivable rfl (.null (isNull _) (accepts _))⟩
    · exact ⟨replaces_of_derivable rfl (.interface null .refl (by simp) args),
        replaces_of_derivable rfl (.interface null .refl (by simp) args')⟩
  | nullable t ih =>
    rw [Ty.normal_nullable]
    refine ⟨replaces_of_derivable (by cases t.normal <;> rfl)
      (ih.1.derivable.orNull_right.nullable_left acceptsNull_orNull),
      replaces_of_derivable rfl (Derivable.orNull_left ?_ rfl)⟩
    by_cases known : t = .unknown
    · rw [known]
      exact .unknown_left
    · exact ih.2.derivable.widen (.nullable known)
  | futureOr t ih =>
    rw [Ty.normal_futureOr]
    refine ⟨replaces_of_derivable rfl (.futureOr_left (ih.1.derivable.future.widen .future) ?_),
      replaces_of_derivable rfl (.futureOr_left (ih.2.derivable.future.widen .future) ?_)⟩
    · by_cases known : t.normal = .unknown
      · exact .of_normal_unknown known (by rw [known]; rfl)
      · exact ih.1.derivable.widen (.futureOr known)
    · by_cases known : t = .unknown
      · rw [known]
        exact .unknown_left
      · exact ih.2.derivable.widen (.futureOr known)
  | promoted p bound ih => exact ⟨ih.1.promoted, ih.2.promoted⟩
  | func ps r ihParams ihResult =>
    rw [Ty.normal_func]
    have params : ∀ x ∈ ps.zip (ps.map Ty.normal), P.Derivable x.2 x.1 :=
      forall_mem_zip_map_right.2
        (forall_mem_zip_self.2 fun t ht => (ihParams t ht).2.derivable)
    have params' : ∀ x ∈ (ps.map Ty.normal).zip ps, P.Derivable x.2 x.1 :=
      forall_mem_zip_map_left.2
        (forall_mem_zip_self.2 fun t ht => (ihParams t ht).1.derivable)
    exact ⟨replaces_of_derivable rfl (.func (by simp) params ihResult.1.derivable),
      replaces_of_derivable rfl (.func (by simp) params' ihResult.2.derivable)⟩
  | record fs ih =>
    rw [Ty.normal_record]
    have fields : ∀ x ∈ fs.zip (fs.map Ty.normal), P.Derivable x.1 x.2 :=
      forall_mem_zip_map_right.2 (forall_mem_zip_self.2 fun t ht => (ih t ht).1.derivable)
    have fields' : ∀ x ∈ (fs.map Ty.normal).zip fs, P.Derivable x.1 x.2 :=
      forall_mem_zip_map_left.2 (forall_mem_zip_self.2 fun t ht => (ih t ht).2.derivable)
    exact ⟨replaces_of_derivable rfl (.record (by simp) fields),
      replaces_of_derivable rfl (.record (by simp) fields')⟩

def NormalLeft (P : Program) (n : Nat) : Prop :=
  ∀ t c, P.Valid t → P.Fits true c → P.Derives n t c → P.Derivable t.normal c

def NormalRight (P : Program) (n : Nat) : Prop :=
  ∀ a t, P.Fits false a → P.Valid t → P.Derives n a t → P.Derivable a t.normal

section Step

variable {d e : TypeId} {as bs xs : List Ty} (coherent : P.Coherent)

include coherent

theorem normalLeft_interface (below : ∀ i ≤ n, P.NormalLeft i) (valid : P.Valid (.interface d as))
    (fits : P.Fits true (.interface e bs)) (notNull : d ≠ .null)
    (reaches : P.Reaches ⟨d, as⟩ ⟨e, xs⟩) (hlength : xs.length = bs.length)
    (h : ∀ x ∈ xs.zip bs, P.Derives n x.1 x.2) :
    P.Derivable (.interface d (as.map Ty.normal)) (.interface e bs) := by
  let R (a b : Ty) : Prop := a = b.normal ∧ b ≠ .unknown ∧ P.Valid b
  have liftable : P.Liftable R := {
    known := fun _ _ h => h.2.1
    derivable := fun _ b h => h.1 ▸ (replaces_normal b).2.derivable }
  have cut (i : Nat) (hi : i < n + 1) (a b c : Ty) (hR : R a b) (fits : P.Fits true c)
      (h : P.Derives i b c) : P.Derivable a c := by
    obtain ⟨rfl, _, valid⟩ := hR
    exact below i (by omega) b c valid fits h
  obtain ⟨arity, args⟩ := valid_interface.1 valid
  have lifted : ∀ x ∈ (as.map Ty.normal).zip as, P.Lift R true x.1 x.2 := by
    refine forall_mem_zip_map_left.2 (forall_mem_zip_self.2 fun a ha => ?_)
    by_cases known : a = .unknown
    · rw [known]
      exact .refl
    · exact .base ⟨rfl, known, args a ha⟩
  obtain ⟨⟨_, zs⟩, reaches', rfl, _, hzs, related⟩ := coherent.reaches_lift
    (i := ⟨d, as.map Ty.normal⟩) (j := ⟨d, as⟩) ⟨rfl, by simpa using arity, by simp, lifted⟩ reaches
  obtain ⟨lifts, _⟩ := lifts coherent liftable cut (Nat.lt_succ_self n)
  apply Derivable.interface notNull reaches' (hzs.trans hlength)
  intro x hx
  obtain ⟨y, first, second⟩ := exists_zip_of_zip hzs hx
  exact lifts _ _ _ (related (x.1, y) first) (fits.args _ (List.of_mem_zip hx).2)
    (h (y, x.2) second)

theorem normalLeft_succ (below : ∀ i ≤ n, P.NormalLeft i) (right : P.NormalRight n) :
    P.NormalLeft (n + 1) := by
  have left := below n le_rfl
  intro t c valid fits h
  cases h with
  | refl => exact (replaces_normal t).2.derivable
  | unknown_left => exact .unknown_left
  | unknown_right => exact .unknown_right
  | top isTop => exact .top isTop
  | never => exact ⟨1, .never⟩
  | null isNull admits =>
    refine .null ?_ (acceptsNull_of_admitsNull admits)
    cases t with
    | interface d as => simpa [Ty.isNull] using isNull
    | _ => cases isNull
  | func_object =>
    rw [Ty.normal_func]
    exact ⟨1, .func_object⟩
  | record_object =>
    rw [Ty.normal_record]
    exact ⟨1, .record_object⟩
  | nullable_left h admits =>
    exact (left _ _ (valid_nullable.1 valid) fits h).orNull_left (acceptsNull_of_admitsNull admits)
  | futureOr_left future h =>
    have valid := valid_futureOr.1 valid
    have future := left _ _ (coherent.valid_future valid) fits future
    rw [Ty.normal_future] at future
    exact future.futureOr_left (left _ _ valid fits h)
  | nullable_right _ h => exact (left _ _ valid fits.of_nullable h).widen fits.widens_nullable
  | future_right _ h =>
    exact (left _ _ valid (coherent.fits_future fits.of_futureOr) h).widen .future
  | futureOr_right _ h => exact (left _ _ valid fits.of_futureOr h).widen fits.widens_futureOr
  | promoted_right _ param h =>
    exact (left _ _ valid fits.param_of_promoted param).promoted (left _ _ valid fits.of_promoted h)
  | param above hbound h => exact ⟨n + 1, .param above hbound h⟩
  | promoted_param above h => exact h.derivable.promoted_param above
  | promoted_bound above h =>
    exact (left _ _ (valid_promoted.1 valid).2 fits h).promoted_bound above
  | interface notNull reaches hlength h =>
    rw [Ty.normal_interface]
    exact normalLeft_interface coherent below valid fits notNull reaches hlength h
  | func hlength params h =>
    obtain ⟨validParams, valid⟩ := valid_func.1 valid
    rw [Ty.normal_func]
    refine .func (by simpa using hlength) (forall_mem_zip_map_left.2 fun y hy => ?_)
      (left _ _ valid fits.result h)
    obtain ⟨first, second⟩ := List.of_mem_zip hy
    exact right _ _ (fits.params _ second) (validParams _ first) (params y hy)
  | record hlength h =>
    have valid := valid_record.1 valid
    rw [Ty.normal_record]
    refine .record (by simpa using hlength) <|
      forall_mem_zip_map_left.2 fun y hy => ?_
    obtain ⟨first, second⟩ := List.of_mem_zip hy
    exact left _ _ (valid _ first) (fits.fields _ second) (h y hy)

theorem normalRight_succ (left : P.NormalLeft n) (right : P.NormalRight n) :
    P.NormalRight (n + 1) := by
  intro a t fits valid h
  cases h with
  | refl => exact (replaces_normal a).1.derivable
  | unknown_left => exact .unknown_left
  | unknown_right => exact .unknown_right
  | top isTop => exact .top (Ty.isTop_normal isTop)
  | never => exact ⟨1, .never⟩
  | null isNull admits =>
    exact .null isNull (Ty.acceptsNull_normal (acceptsNull_of_admitsNull admits))
  | func_object => exact ⟨1, .func_object⟩
  | record_object => exact ⟨1, .record_object⟩
  | nullable_left h admits =>
    exact (right _ _ fits.of_nullable valid h).nullable_left
      (Ty.acceptsNull_normal (acceptsNull_of_admitsNull admits))
  | futureOr_left future h =>
    exact (right _ _ (coherent.fits_future fits.of_futureOr) valid future).futureOr_left
      (right _ _ fits.of_futureOr valid h)
  | nullable_right _ h => exact (right _ _ fits (valid_nullable.1 valid) h).orNull_right
  | future_right _ h =>
    have future := right _ _ fits (coherent.valid_future (valid_futureOr.1 valid)) h
    rw [Ty.normal_future] at future
    exact future.widen .future
  | futureOr_right atomic h =>
    obtain ⟨m, h⟩ := right _ _ fits (valid_futureOr.1 valid) h
    exact ⟨m + 1, .futureOr_right atomic h⟩
  | promoted_right atomic param h =>
    obtain ⟨validParam, valid⟩ := valid_promoted.1 valid
    exact .promoted_right atomic (right _ _ fits validParam param) (right _ _ fits valid h)
  | param above hbound h =>
    exact (right _ _ (coherent.fits_boundOf hbound) valid h).param (Ty.isAboveBounds_normal above)
      hbound
  | promoted_param above h =>
    exact (right _ _ fits.param_of_promoted valid h).promoted_param (Ty.isAboveBounds_normal above)
  | promoted_bound above h =>
    exact (right _ _ fits.of_promoted valid h).promoted_bound (Ty.isAboveBounds_normal above)
  | interface notNull reaches hlength h =>
    have valid := (valid_interface.1 valid).2
    rw [Ty.normal_interface]
    refine .interface notNull reaches (by simpa using hlength) <|
      forall_mem_zip_map_right.2 fun y hy => ?_
    obtain ⟨first, second⟩ := List.of_mem_zip hy
    exact right _ _ (coherent.fits_of_reaches fits reaches _ first) (valid _ second) (h y hy)
  | func hlength params h =>
    obtain ⟨validParams, valid⟩ := valid_func.1 valid
    rw [Ty.normal_func]
    refine .func (by simpa using hlength) (forall_mem_zip_map_right.2 fun y hy => ?_)
      (right _ _ fits.result valid h)
    obtain ⟨first, second⟩ := List.of_mem_zip hy
    exact left _ _ (validParams _ second) (fits.params _ first) (params y hy)
  | record hlength h =>
    have valid := valid_record.1 valid
    rw [Ty.normal_record]
    refine .record (by simpa using hlength) <|
      forall_mem_zip_map_right.2 fun y hy => ?_
    obtain ⟨first, second⟩ := List.of_mem_zip hy
    exact right _ _ (fits.fields _ first) (valid _ second) (h y hy)

theorem Coherent.normal_sides (n : Nat) : P.NormalLeft n ∧ P.NormalRight n := by
  induction n using Nat.strong_induction_on with
  | _ n ih =>
    match n with
    | 0 => exact ⟨fun _ _ _ _ h => (nomatch h), fun _ _ _ _ h => (nomatch h)⟩
    | n + 1 =>
      obtain ⟨left, right⟩ := ih n (Nat.lt_succ_self n)
      exact ⟨normalLeft_succ coherent (fun i hi => (ih i (by omega)).1) right,
        normalRight_succ coherent left right⟩

theorem Coherent.normal_left (valid : P.Valid t) (fits : P.Fits true c) (h : P.Derivable t c) :
    P.Derivable t.normal c := by
  obtain ⟨n, h⟩ := h
  exact (coherent.normal_sides n).1 t c valid fits h

theorem Coherent.normal_right (fits : P.Fits false a) (valid : P.Valid t) (h : P.Derivable a t) :
    P.Derivable a t.normal := by
  obtain ⟨n, h⟩ := h
  exact (coherent.normal_sides n).2 a t fits valid h

end Step

end Program

end MemberAccess
