import MemberAccess.Proofs.Typing.Hierarchy

/-!
Derivations of subtype relations. The rules are those of the check, but their order does not
matter. What the check accepts has a derivation whose height is the limit.
-/
namespace MemberAccess

namespace Ty

def acceptsNull : Ty → Bool
  | .unknown | .dynamic | .void | .nullable _ => true
  | .futureOr t => acceptsNull t
  | t => t.isNull

/-- Whether a type can be above a type parameter because it is above its bound. -/
def isAboveBounds : Ty → Bool
  | .never | .promoted .. => false
  | _ => true

end Ty

namespace Program

inductive Derives (P : Program) : Nat → Ty → Ty → Prop
  | refl : Derives P (n + 1) t t
  | unknown_left : Derives P (n + 1) .unknown t
  | unknown_right : Derives P (n + 1) t .unknown
  | top : sup.isTop → Derives P (n + 1) sub sup
  | never : Derives P (n + 1) .never sup
  | null : sub.isNull → sup.admitsNull n → Derives P (n + 1) sub sup
  | func_object : Derives P (n + 1) (.func ps t) .object
  | record_object : Derives P (n + 1) (.record fs) .object
  | nullable_left : Derives P n t sup → sup.admitsNull n → Derives P (n + 1) (.nullable t) sup
  | futureOr_left : Derives P n (.future t) sup → Derives P n t sup →
      Derives P (n + 1) (.futureOr t) sup
  | nullable_right : sub.isAtomic → Derives P n sub t → Derives P (n + 1) sub (.nullable t)
  | future_right : sub.isAtomic → Derives P n sub (.future t) →
      Derives P (n + 1) sub (.futureOr t)
  | futureOr_right : sub.isAtomic → Derives P n sub t → Derives P (n + 1) sub (.futureOr t)
  | promoted_right : sub.isAtomic → Derives P n sub (.param p) → Derives P n sub bound →
      Derives P (n + 1) sub (.promoted p bound)
  | param : sup.isAboveBounds → P.boundOf p = .ok bound → Derives P n bound sup →
      Derives P (n + 1) (.param p) sup
  | promoted_param : sup.isAboveBounds → Derives P n (.param p) sup →
      Derives P (n + 1) (.promoted p bound) sup
  | promoted_bound : sup.isAboveBounds → Derives P n bound sup →
      Derives P (n + 1) (.promoted p bound) sup
  | interface : d ≠ .null → P.Reaches ⟨d, as⟩ ⟨e, xs⟩ → xs.length = bs.length →
      (∀ x ∈ xs.zip bs, Derives P n x.1 x.2) → Derives P (n + 1) (.interface d as) (.interface e bs)
  | func : ps.length = qs.length → (∀ x ∈ ps.zip qs, Derives P n x.2 x.1) → Derives P n t u →
      Derives P (n + 1) (.func ps t) (.func qs u)
  | record : fs.length = gs.length → (∀ x ∈ fs.zip gs, Derives P n x.1 x.2) →
      Derives P (n + 1) (.record fs) (.record gs)

variable {P : Program} {n m : Nat} {a b t u sub sup bound : Ty} {p : ParamId} {d e : TypeId}
  {as bs ps qs fs gs xs : List Ty}

theorem admitsNull_mono (h : t.admitsNull n = true) (hnm : n ≤ m) : t.admitsNull m = true := by
  induction n generalizing t m with
  | zero => simp [Ty.admitsNull] at h
  | succ n ih =>
    obtain ⟨m, rfl⟩ : ∃ k, m = k + 1 := ⟨m - 1, by omega⟩
    cases t with
    | futureOr t =>
      simp only [Ty.admitsNull] at h ⊢
      exact ih h (by omega)
    | _ => simp_all [Ty.admitsNull]

theorem acceptsNull_of_admitsNull (h : t.admitsNull n = true) : t.acceptsNull := by
  induction n generalizing t with
  | zero => simp [Ty.admitsNull] at h
  | succ n ih =>
    cases t with
    | futureOr t => exact ih (t := t) h
    | _ => simp_all [Ty.admitsNull, Ty.acceptsNull]

theorem exists_admitsNull (h : t.acceptsNull) : ∃ n, t.admitsNull n = true := by
  induction t using Ty.induct with
  | futureOr t ih =>
    obtain ⟨n, hn⟩ := ih h
    exact ⟨n + 1, hn⟩
  | _ => exact ⟨1, h⟩

theorem Derives.succ (h : P.Derives n a b) : P.Derives (n + 1) a b := by
  induction h with
  | refl => exact .refl
  | unknown_left => exact .unknown_left
  | unknown_right => exact .unknown_right
  | top isTop => exact .top isTop
  | never => exact .never
  | null isNull admits => exact .null isNull (admitsNull_mono admits (by omega))
  | func_object => exact .func_object
  | record_object => exact .record_object
  | nullable_left _ admits ih => exact .nullable_left ih (admitsNull_mono admits (by omega))
  | futureOr_left _ _ ihFuture ih => exact .futureOr_left ihFuture ih
  | nullable_right atomic _ ih => exact .nullable_right atomic ih
  | future_right atomic _ ih => exact .future_right atomic ih
  | futureOr_right atomic _ ih => exact .futureOr_right atomic ih
  | promoted_right atomic _ _ ihParam ih => exact .promoted_right atomic ihParam ih
  | param above hbound _ ih => exact .param above hbound ih
  | promoted_param above _ ih => exact .promoted_param above ih
  | promoted_bound above _ ih => exact .promoted_bound above ih
  | interface notNull reaches hlength _ ih => exact .interface notNull reaches hlength ih
  | func hlength _ _ ihParams ih => exact .func hlength ihParams ih
  | record hlength _ ih => exact .record hlength ih

theorem Derives.mono (h : P.Derives n a b) (hnm : n ≤ m) : P.Derives m a b := by
  induction hnm with
  | refl => exact h
  | step _ ih => exact ih.succ

theorem Coherent.args_object (coherent : P.Coherent) (valid : P.Valid (.interface .object xs)) :
    xs = [] := by
  obtain ⟨d, hd, hparams, _⟩ := coherent.object
  have := length_params (i := ⟨.object, xs⟩) valid hd
  rw [hparams] at this
  exact List.eq_nil_of_length_eq_zero this.symm

theorem Coherent.eq_object (coherent : P.Coherent) (valid : P.Valid t) (h : t.isObject) :
    t = .object := by
  cases t with
  | interface e bs =>
    obtain rfl : e = .object := by simpa [Ty.isObject] using h
    rw [coherent.args_object valid, Ty.object]
  | _ => simp [Ty.isObject] at h

theorem pairwise_eq_true {holds : Ty → Ty → Except Fault Bool} :
    pairwise holds as bs = .ok true ↔
      as.length = bs.length ∧ ∀ x ∈ as.zip bs, holds x.1 x.2 = .ok true := by
  unfold pairwise
  split <;> simp_all [allM_eq_true]

theorem boundOf_eq_ok : P.boundOf p = .ok bound ↔
    ∃ q, P.params.get? p = some q ∧ q.bound.getD Ty.object.orNull = bound := by
  simp only [boundOf, bind_eq_ok, Table.fetch_eq_ok]
  refine exists_congr fun q => and_congr_right' ?_
  cases q.bound <;> simp

theorem Coherent.valid_boundOf (coherent : P.Coherent) (h : P.boundOf p = .ok bound) :
    P.Valid bound := by
  obtain ⟨q, hq, rfl⟩ := boundOf_eq_ok.1 h
  cases hbound : q.bound with
  | none => exact valid_orNull.2 coherent.valid_object
  | some bound => exact (coherent.bounds p q bound hq hbound).1

theorem exists_boundOf (valid : P.Valid (.param p)) : ∃ bound, P.boundOf p = .ok bound := by
  have head : (P.params.get? p).isSome := by simpa [Valid, hasHead] using valid
  obtain ⟨q, hq⟩ := Option.isSome_iff_exists.1 head
  exact ⟨_, boundOf_eq_ok.2 ⟨q, hq, rfl⟩⟩

theorem Coherent.derives_object (coherent : P.Coherent) (valid : P.Valid (.interface d as))
    (reaches : P.Reaches ⟨d, as⟩ ⟨.object, xs⟩) : P.Derives (n + 1) (.interface d as) .object := by
  obtain rfl := coherent.args_object (coherent.valid_of_reaches (i := ⟨d, as⟩) valid reaches)
  refine .interface (fun null => ?_) reaches rfl (by simp)
  have same := reaches_eq reaches fun k => coherent.extends_null null
  simp [null, TypeId.object, TypeId.null] at same

theorem Coherent.derives_of_isNonNull (coherent : P.Coherent) (valid : P.Valid t)
    (h : P.isNonNull n t = .ok true) : P.Derives n t .object := by
  induction n generalizing t with
  | zero => simp [isNonNull] at h
  | succ n ih =>
    cases t with
    | interface d as =>
      simp only [isNonNull, bind_eq_ok, pure_eq_ok] at h
      obtain ⟨args, hargs, found⟩ := h
      obtain ⟨xs, rfl⟩ := Option.isSome_iff_exists.1 found
      obtain ⟨args, hargs', all⟩ := coherent.superArgs_eq_ok (i := ⟨d, as⟩) valid .object
      rw [hargs] at hargs'
      cases hargs'
      exact coherent.derives_object valid ((all xs).1 rfl)
    | func ps r => exact .func_object
    | record fs => exact .record_object
    | never => exact .never
    | unknown => exact .unknown_left
    | futureOr t =>
      have inner := ih (valid_futureOr.1 valid) h
      have future : P.Derives n (.future t) .object := by
        cases n with
        | zero => cases inner
        | succ n => exact .interface (by decide) (coherent.future_object t) rfl (by simp)
      exact .futureOr_left future inner
    | param p =>
      simp only [isNonNull, bind_eq_ok] at h
      obtain ⟨bound, hbound, h⟩ := h
      exact .param rfl hbound (ih (coherent.valid_boundOf hbound) h)
    | promoted p bound =>
      obtain ⟨param, valid⟩ := valid_promoted.1 valid
      simp only [isNonNull, choice_eq_ok] at h
      rcases h with h | ⟨_, h⟩
      · exact .promoted_bound rfl (ih valid h)
      · exact .promoted_param rfl (ih param h)
    | _ => simp [isNonNull] at h

theorem Coherent.derives_of_shape (coherent : P.Coherent) (ha : P.Valid a) (hb : P.Valid b)
    (ih : ∀ a b, P.Valid a → P.Valid b → P.subtype n a b = .ok true → P.Derives n a b)
    (notNull : ¬ a.isNull) (above : b.isAboveBounds)
    (h : P.subtypeByShape (P.subtype n) a b = .ok true) : P.Derives (n + 1) a b := by
  unfold subtypeByShape at h
  split at h
  · simp only [bind_eq_ok] at h
    obtain ⟨bound, hbound, h⟩ := h
    exact .param above hbound (ih _ _ (coherent.valid_boundOf hbound) hb h)
  · obtain ⟨param, valid⟩ := valid_promoted.1 ha
    simp only [choice_eq_ok] at h
    rcases h with h | ⟨_, h⟩
    · exact .promoted_param above (ih _ _ param hb h)
    · exact .promoted_bound above (ih _ _ valid hb h)
  · next d as e bs =>
    simp only [bind_eq_ok] at h
    obtain ⟨args, hargs, h⟩ := h
    obtain ⟨args, hargs', all⟩ := coherent.superArgs_eq_ok (i := ⟨d, as⟩) ha e
    rw [hargs] at hargs'
    cases hargs'
    cases args with
    | none => simp at h
    | some xs =>
      have reaches := (all xs).1 rfl
      have valid := (valid_interface.1 (coherent.valid_of_reaches (i := ⟨d, as⟩) ha reaches)).2
      obtain ⟨hlength, h⟩ := pairwise_eq_true.1 h
      apply Derives.interface (by simpa [Ty.isNull] using notNull) reaches hlength
      intro x hx
      obtain ⟨left, right⟩ := List.of_mem_zip hx
      exact ih _ _ (valid _ left) ((valid_interface.1 hb).2 _ right) (h x hx)
  · rw [valid_func] at ha hb
    obtain ⟨params, h⟩ := guard_eq_ok.1 h
    obtain ⟨hlength, params⟩ := pairwise_eq_true.1 params
    refine .func hlength (fun x hx => ?_) (ih _ _ ha.2 hb.2 h)
    obtain ⟨left, right⟩ := List.of_mem_zip hx
    exact ih _ _ (hb.1 _ right) (ha.1 _ left) (params x hx)
  · rw [valid_record] at ha hb
    obtain ⟨hlength, h⟩ := pairwise_eq_true.1 h
    apply Derives.record hlength
    intro x hx
    obtain ⟨left, right⟩ := List.of_mem_zip hx
    exact ih _ _ (ha _ left) (hb _ right) (h x hx)
  · simp at h

theorem Coherent.valid_future (coherent : P.Coherent) (valid : P.Valid t) :
    P.Valid (.future t) := by
  obtain ⟨d, hd, hparams, _⟩ := coherent.future
  exact valid_interface.2 ⟨arity?_eq_some.2 ⟨d, hd, by simpa using hparams⟩, by simpa⟩

/-- The rules for unions and promoted parameters, which come after those for `Null` and
    `Object`. -/
def subtypeByUnion (P : Program) (n : Nat) (sub sup : Ty) : Except Fault Bool :=
  match sub, sup with
  | .nullable t, _ => do
    if ← P.subtype n t sup then pure (sup.admitsNull n) else pure false
  | .futureOr t, _ => do
    if ← P.subtype n (.future t) sup then P.subtype n t sup else pure false
  | _, .nullable u => do
    if ← P.subtype n sub u then pure true else P.subtypeByShape (P.subtype n) sub sup
  | _, .futureOr u => do
    if ← P.subtype n sub (.future u) then pure true
    else if ← P.subtype n sub u then pure true
    else P.subtypeByShape (P.subtype n) sub sup
  | _, .promoted p bound => do
    if ← P.subtype n sub (.param p) then P.subtype n sub bound else pure false
  | _, _ => P.subtypeByShape (P.subtype n) sub sup

theorem subtype_succ : P.subtype (n + 1) a b =
    if a = b ∨ a = .unknown ∨ b = .unknown then pure true
    else if b.isTop ∨ a = .never then pure true
    else if a = .dynamic ∨ a = .void ∨ b = .never then pure false
    else if a.isNull then pure (b.admitsNull n)
    else if b.isObject then P.isNonNull n a
    else P.subtypeByUnion n a b := by
  rw [subtype.eq_def]
  rfl

inductive FoundBy (P : Program) (n : Nat) (a b : Ty) : Prop
  | easy (h : a = b ∨ a = .unknown ∨ b = .unknown ∨ b.isTop ∨ a = .never)
  | null (isNull : a.isNull) (admits : b.admitsNull n)
  | object (notNull : ¬ a.isNull) (isObject : b.isObject) (nonNull : P.isNonNull n a = .ok true)
  | union (notNull : ¬ a.isNull) (notObject : ¬ b.isObject)
      (notExtreme : ¬ (a = .dynamic ∨ a = .void ∨ b = .never))
      (h : P.subtypeByUnion n a b = .ok true)

theorem foundBy_of_subtype (h : P.subtype (n + 1) a b = .ok true) : P.FoundBy n a b := by
  rw [subtype_succ] at h
  split at h
  · next easy => exact .easy (by tauto)
  split at h
  · next easy => exact .easy (by tauto)
  split at h
  · cases h
  next notExtreme =>
  split at h
  · next isNull => exact .null isNull (by simpa using h)
  next notNull =>
  split at h
  · next isObject => exact .object notNull isObject h
  · next notObject => exact .union notNull notObject notExtreme h

theorem Coherent.derives_of_union (coherent : P.Coherent) (ha : P.Valid a) (hb : P.Valid b)
    (ih : ∀ a b, P.Valid a → P.Valid b → P.subtype n a b = .ok true → P.Derives n a b)
    (notNull : ¬ a.isNull) (notExtreme : ¬ (a = .dynamic ∨ a = .void ∨ b = .never))
    (h : P.subtypeByUnion n a b = .ok true) : P.Derives (n + 1) a b := by
  have atomic (noNullable : ∀ t, a ≠ .nullable t) (noFutureOr : ∀ t, a ≠ .futureOr t) :
      a.isAtomic := by
    cases a <;> simp_all [Ty.isAtomic]
  have shape (above : b.isAboveBounds) (h : P.subtypeByShape (P.subtype n) a b = .ok true) :=
    coherent.derives_of_shape ha hb ih notNull above h
  unfold subtypeByUnion at h
  split at h
  · rw [valid_nullable] at ha
    obtain ⟨inner, h⟩ := guard_eq_ok.1 h
    exact .nullable_left (ih _ _ ha hb inner) (by simpa using h)
  · rw [valid_futureOr] at ha
    obtain ⟨future, h⟩ := guard_eq_ok.1 h
    exact .futureOr_left (ih _ _ (coherent.valid_future ha) hb future) (ih _ _ ha hb h)
  · next noNullable noFutureOr =>
    rcases choice_eq_ok.1 h with h | ⟨_, h⟩
    · exact .nullable_right (atomic noNullable noFutureOr) (ih _ _ ha (valid_nullable.1 hb) h)
    · exact shape rfl h
  · next noNullable noFutureOr =>
    have valid := valid_futureOr.1 hb
    rcases choice_eq_ok.1 h with h | ⟨_, h⟩
    · exact .future_right (atomic noNullable noFutureOr) (ih _ _ ha (coherent.valid_future valid) h)
    · rcases choice_eq_ok.1 h with h | ⟨_, h⟩
      · exact .futureOr_right (atomic noNullable noFutureOr) (ih _ _ ha valid h)
      · exact shape rfl h
  · next noNullable noFutureOr =>
    obtain ⟨param, valid⟩ := valid_promoted.1 hb
    obtain ⟨hparam, h⟩ := guard_eq_ok.1 h
    exact .promoted_right (atomic noNullable noFutureOr) (ih _ _ ha param hparam)
      (ih _ _ ha valid h)
  · refine shape ?_ h
    cases b <;> simp_all [Ty.isAboveBounds]

theorem Coherent.derives_of_subtype (coherent : P.Coherent) (ha : P.Valid a) (hb : P.Valid b)
    (h : P.subtype n a b = .ok true) : P.Derives n a b := by
  induction n generalizing a b with
  | zero => simp [subtype] at h
  | succ n ih =>
    cases foundBy_of_subtype h with
    | easy easy =>
      rcases easy with rfl | rfl | rfl | isTop | rfl
      · exact .refl
      · exact .unknown_left
      · exact .unknown_right
      · exact .top isTop
      · exact .never
    | null isNull admits => exact .null isNull admits
    | object _ isObject nonNull =>
      rw [coherent.eq_object hb isObject]
      exact (coherent.derives_of_isNonNull ha nonNull).succ
    | union notNull _ notExtreme h =>
      exact coherent.derives_of_union ha hb (fun _ _ => ih) notNull notExtreme h

theorem not_isObject_of_acceptsNull (h : t.acceptsNull) : ¬ t.isObject := by
  cases t with
  | interface d as =>
    obtain rfl : d = .null := by simpa [Ty.acceptsNull, Ty.isNull] using h
    simp [Ty.isObject, TypeId.object, TypeId.null]
  | _ => simp [Ty.isObject]

theorem ne_never_of_acceptsNull (h : t.acceptsNull) : t ≠ .never := by
  rintro rfl
  simp [Ty.acceptsNull, Ty.isNull] at h

theorem ne_never_of_isAboveBounds (h : t.isAboveBounds) : t ≠ .never := by
  rintro rfl
  simp [Ty.isAboveBounds] at h

theorem Derives.below_never (h : P.Derives n a b) (hb : b = .never) :
    a = .never ∨ a = .unknown := by
  induction h with
  | null _ admits | nullable_left _ admits =>
    exact absurd hb (ne_never_of_acceptsNull (acceptsNull_of_admitsNull admits))
  | futureOr_left _ _ ih => simpa [Ty.future] using ih hb
  | param above | promoted_param above | promoted_bound above =>
    exact absurd hb (ne_never_of_isAboveBounds above)
  | _ => simp_all [Ty.isTop, Ty.object]

end Program

end MemberAccess
