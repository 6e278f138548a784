import MemberAccess.Typing.Denotation
import MemberAccess.Typing.Subtype

/-!
Types by their parts. A part of a type stands in a covariant position unless it is below the
parameters of a function type, which swap the two kinds of positions.
-/
namespace MemberAccess.Ty

variable {t u : Ty} {as ps fs : List Ty} {d : TypeId} {p : ParamId} {s : Bool} {φ ψ : Ty → Prop}

@[elab_as_elim]
theorem induct {motive : Ty → Prop} (unknown : motive .unknown) (dynamic : motive .dynamic)
    (void : motive .void) (never : motive .never)
    (interface : ∀ d as, (∀ t ∈ as, motive t) → motive (.interface d as))
    (nullable : ∀ t, motive t → motive (.nullable t))
    (futureOr : ∀ t, motive t → motive (.futureOr t))
    (param : ∀ p, motive (.param p))
    (promoted : ∀ p bound, motive bound → motive (.promoted p bound))
    (func : ∀ ps r, (∀ t ∈ ps, motive t) → motive r → motive (.func ps r))
    (record : ∀ fs, (∀ t ∈ fs, motive t) → motive (.record fs)) (t : Ty) : motive t :=
  @Ty.rec motive (fun ts => ∀ t ∈ ts, motive t) unknown dynamic void never interface nullable
    futureOr param promoted func record (fun _ h => nomatch h)
    (fun _ _ head tail => List.forall_mem_cons.2 ⟨head, tail⟩) t

def Every (φ : Ty → Prop) (t : Ty) : Prop := ∀ part ∈ t.parts, φ part

instance [DecidablePred φ] : Decidable (t.Every φ) :=
  inferInstanceAs (Decidable (∀ part ∈ t.parts, φ part))

theorem forall_mem_partsAll (ts : List Ty) :
    (∀ part ∈ partsAll ts, φ part) ↔ ∀ t ∈ ts, Every φ t := by
  rw [partsAll_eq_flatMap, List.forall_mem_flatMap]
  rfl

section Every

@[simp] theorem every_unknown : Every φ .unknown ↔ φ .unknown := List.forall_mem_singleton

@[simp] theorem every_dynamic : Every φ .dynamic ↔ φ .dynamic := List.forall_mem_singleton

@[simp] theorem every_void : Every φ .void ↔ φ .void := List.forall_mem_singleton

@[simp] theorem every_never : Every φ .never ↔ φ .never := List.forall_mem_singleton

@[simp] theorem every_param : Every φ (.param p) ↔ φ (.param p) := List.forall_mem_singleton

@[simp] theorem every_interface :
    Every φ (.interface d as) ↔ φ (.interface d as) ∧ ∀ a ∈ as, Every φ a :=
  List.forall_mem_cons.trans (and_congr_right' (forall_mem_partsAll as))

@[simp] theorem every_nullable : Every φ (.nullable t) ↔ φ (.nullable t) ∧ Every φ t :=
  List.forall_mem_cons

@[simp] theorem every_futureOr : Every φ (.futureOr t) ↔ φ (.futureOr t) ∧ Every φ t :=
  List.forall_mem_cons

@[simp] theorem every_promoted : Every φ (.promoted p t) ↔ φ (.promoted p t) ∧ Every φ t :=
  List.forall_mem_cons

@[simp] theorem every_func :
    Every φ (.func ps t) ↔ φ (.func ps t) ∧ (∀ p ∈ ps, Every φ p) ∧ Every φ t :=
  List.forall_mem_cons.trans (and_congr_right'
    (List.forall_mem_append.trans (and_congr_left' (forall_mem_partsAll ps))))

@[simp] theorem every_record :
    Every φ (.record fs) ↔ φ (.record fs) ∧ ∀ f ∈ fs, Every φ f :=
  List.forall_mem_cons.trans (and_congr_right' (forall_mem_partsAll fs))

end Every

mutual
def partsAt : (covariant : Bool) → Ty → List Ty
  | s, .interface d as => (if s then [.interface d as] else []) ++ partsAtAll s as
  | s, .nullable t => (if s then [.nullable t] else []) ++ partsAt s t
  | s, .futureOr t => (if s then [.futureOr t] else []) ++ partsAt s t
  | s, .promoted p bound => (if s then [.promoted p bound] else []) ++ partsAt s bound
  | s, .func ps r => (if s then [.func ps r] else []) ++ (partsAtAll (!s) ps ++ partsAt s r)
  | s, .record fs => (if s then [.record fs] else []) ++ partsAtAll s fs
  | s, t => if s then [t] else []

def partsAtAll : (covariant : Bool) → List Ty → List Ty
  | _, [] => []
  | s, t :: ts => partsAt s t ++ partsAtAll s ts
end

def EveryAt (covariant : Bool) (φ : Ty → Prop) (t : Ty) : Prop :=
  ∀ part ∈ t.partsAt covariant, φ part

instance [DecidablePred φ] : Decidable (t.EveryAt s φ) :=
  inferInstanceAs (Decidable (∀ part ∈ t.partsAt s, φ part))

theorem forall_mem_partsAtAll (ts : List Ty) :
    (∀ part ∈ partsAtAll s ts, φ part) ↔ ∀ t ∈ ts, EveryAt s φ t := by
  induction ts with
  | nil => simp [partsAtAll]
  | cons t ts ih =>
    rw [partsAtAll, List.forall_mem_append, ih, List.forall_mem_cons, EveryAt]

theorem forall_mem_own : (∀ part ∈ if s then [t] else [], φ part) ↔ (s = true → φ t) := by
  cases s <;> simp

section EveryAt

@[simp] theorem everyAt_unknown : EveryAt s φ .unknown ↔ (s = true → φ .unknown) := forall_mem_own

@[simp] theorem everyAt_dynamic : EveryAt s φ .dynamic ↔ (s = true → φ .dynamic) := forall_mem_own

@[simp] theorem everyAt_void : EveryAt s φ .void ↔ (s = true → φ .void) := forall_mem_own

@[simp] theorem everyAt_never : EveryAt s φ .never ↔ (s = true → φ .never) := forall_mem_own

@[simp] theorem everyAt_param : EveryAt s φ (.param p) ↔ (s = true → φ (.param p)) :=
  forall_mem_own

@[simp] theorem everyAt_interface : EveryAt s φ (.interface d as) ↔
    (s = true → φ (.interface d as)) ∧ ∀ a ∈ as, EveryAt s φ a :=
  List.forall_mem_append.trans (and_congr forall_mem_own (forall_mem_partsAtAll as))

@[simp] theorem everyAt_nullable :
    EveryAt s φ (.nullable t) ↔ (s = true → φ (.nullable t)) ∧ EveryAt s φ t :=
  List.forall_mem_append.trans (and_congr_left' forall_mem_own)

@[simp] theorem everyAt_futureOr :
    EveryAt s φ (.futureOr t) ↔ (s = true → φ (.futureOr t)) ∧ EveryAt s φ t :=
  List.forall_mem_append.trans (and_congr_left' forall_mem_own)

@[simp] theorem everyAt_promoted :
    EveryAt s φ (.promoted p t) ↔ (s = true → φ (.promoted p t)) ∧ EveryAt s φ t :=
  List.forall_mem_append.trans (and_congr_left' forall_mem_own)

@[simp] theorem everyAt_func : EveryAt s φ (.func ps t) ↔
    (s = true → φ (.func ps t)) ∧ (∀ p ∈ ps, EveryAt (!s) φ p) ∧ EveryAt s φ t :=
  List.forall_mem_append.trans (and_congr forall_mem_own
    (List.forall_mem_append.trans (and_congr_left' (forall_mem_partsAtAll ps))))

@[simp] theorem everyAt_record : EveryAt s φ (.record fs) ↔
    (s = true → φ (.record fs)) ∧ ∀ f ∈ fs, EveryAt s φ f :=
  List.forall_mem_append.trans (and_congr forall_mem_own (forall_mem_partsAtAll fs))

end EveryAt

theorem Every.self (h : Every φ t) : φ t := by
  cases t <;> simp_all

theorem EveryAt.self (h : EveryAt true φ t) : φ t := by
  cases t <;> simp_all

structure Headed (φ : Ty → Prop) : Prop where
  plain : ∀ t : Ty, t.declaration? = none → t.param? = none → φ t
  interface : ∀ d as bs, as.length = bs.length → φ (.interface d as) → φ (.interface d bs)
  promoted : ∀ p t, φ (.promoted p t) ↔ φ (.param p)

theorem Headed.every_orNull (headed : Headed φ) : t.orNull.Every φ ↔ t.Every φ := by
  have nullable (t : Ty) : φ (.nullable t) := headed.plain _ rfl rfl
  cases t <;> simp [orNull, nullable]

structure Rebuilds (φ : Ty → Prop) : Prop where
  orNull : ∀ t : Ty, t.Every φ → t.orNull.Every φ
  interface : ∀ d as bs, as.length = bs.length → φ (.interface d as) → φ (.interface d bs)
  futureOr : ∀ t u, φ (.futureOr t) → φ (.futureOr u)
  promoted : ∀ p t u, φ (.promoted p t) → φ (.promoted p u)
  func : ∀ ps r qs u, φ (.func ps r) → φ (.func qs u)
  record : ∀ fs gs, φ (.record fs) → φ (.record gs)

theorem Rebuilds.every_replace_of_kept (rebuilds : Rebuilds φ) {f : ParamId → Option Ty}
    (every : t.Every fun part =>
      (part.param?.bind f).elim (φ part ∨ ∃ u, part = .nullable u) (·.Every φ)) :
    (t.replace f).Every φ := by
  induction t using induct with
  | unknown | dynamic | void | never =>
    exact List.forall_mem_singleton.2 (every.self.resolve_right nofun)
  | interface d as ih =>
    obtain ⟨head, args⟩ := every_interface.1 every
    have head : φ (.interface d as) := head.resolve_right nofun
    simp only [replace, replaceAll_eq_map, every_interface, List.forall_mem_map]
    exact ⟨rebuilds.interface d _ _ (by simp) head, fun a ha => ih a ha (args a ha)⟩
  | nullable t ih => exact rebuilds.orNull _ (ih (every_nullable.1 every).2)
  | futureOr t ih =>
    obtain ⟨head, inner⟩ := every_futureOr.1 every
    exact every_futureOr.2 ⟨rebuilds.futureOr _ _ (head.resolve_right nofun), ih inner⟩
  | param p =>
    have own : (f p).elim (φ (.param p) ∨ _) (·.Every φ) := every.self
    rw [replace]
    cases value : f p with
    | none => simpa [value] using own
    | some u => simpa [value] using own
  | promoted p bound ih =>
    obtain ⟨head, inner⟩ := every_promoted.1 every
    have own : (f p).elim (φ (.promoted p bound) ∨ _) (·.Every φ) := head
    rw [replace]
    cases value : f p with
    | none =>
      rw [value] at own
      exact every_promoted.2 ⟨rebuilds.promoted p _ _ (own.resolve_right nofun), ih inner⟩
    | some u => simpa [value] using own
  | func ps r ihParams ihResult =>
    obtain ⟨head, params, result⟩ := every_func.1 every
    have head : φ (.func ps r) := head.resolve_right nofun
    simp only [replace, replaceAll_eq_map, every_func, List.forall_mem_map]
    exact ⟨rebuilds.func _ _ _ _ head, fun p hp => ihParams p hp (params p hp), ihResult result⟩
  | record fs ih =>
    obtain ⟨head, fields⟩ := every_record.1 every
    have head : φ (.record fs) := head.resolve_right nofun
    simp only [replace, replaceAll_eq_map, every_record, List.forall_mem_map]
    exact ⟨rebuilds.record _ _ head, fun g hg => ih g hg (fields g hg)⟩

theorem Rebuilds.every_replace (rebuilds : Rebuilds φ) {f : ParamId → Option Ty}
    (every : t.Every φ) (values : ∀ p u, f p = some u → u.Every φ) : (t.replace f).Every φ := by
  refine rebuilds.every_replace_of_kept fun part hpart => ?_
  show (part.param?.bind f).elim (φ part ∨ _) (·.Every φ)
  cases value : part.param?.bind f with
  | none => exact .inl (every part hpart)
  | some u =>
    obtain ⟨p, _, value⟩ := Option.bind_eq_some_iff.1 value
    exact values p u value

theorem Headed.rebuilds (headed : Headed φ) : Rebuilds φ where
  orNull _ := headed.every_orNull.2
  interface := headed.interface
  futureOr _ _ _ := headed.plain _ rfl rfl
  promoted p _ _ h := (headed.promoted p _).2 ((headed.promoted p _).1 h)
  func _ _ _ _ _ := headed.plain _ rfl rfl
  record _ _ _ := headed.plain _ rfl rfl

theorem Headed.every_replace (headed : Headed φ) {f : ParamId → Option Ty} (every : t.Every φ)
    (values : ∀ p u, f p = some u → u.Every φ) : (t.replace f).Every φ :=
  headed.rebuilds.every_replace every values

/-- Whether everything that is not null is an instance. -/
def objectLike : Ty → Bool
  | .unknown => true
  | .interface d _ => d = .object
  | .futureOr t => objectLike t
  | _ => false

def topLike : Ty → Bool
  | .unknown | .dynamic | .void => true
  | .nullable t => objectLike t || topLike t
  | .futureOr t => topLike t
  | _ => false

/-- Types such as `FutureOr<Object>?`, of which everything is an instance although they are not
    recognized as top types. -/
def isHiddenTop (t : Ty) : Bool := t.topLike && !t.isTop && t ≠ .unknown

def Clear (covariant : Bool) (t : Ty) : Prop := t.EveryAt covariant fun part => ¬ part.isHiddenTop

instance : Decidable (Clear s t) := inferInstanceAs (Decidable (t.EveryAt s _))

theorem isTop_of_topLike (clear : Clear true t) (known : t ≠ .unknown) (h : t.topLike) :
    t.isTop := by
  have notHidden := EveryAt.self clear
  simp_all [isHiddenTop]

def isPromoted : Ty → Bool
  | .promoted .. => true
  | _ => false

/-- Whether a type is anything but a union, `Null` or a top type that is not built from others. -/
def isAtomic : Ty → Bool
  | .dynamic | .void | .nullable _ | .futureOr _ => false
  | t => !t.isNull

theorem topLike_orNull : t.orNull.topLike = (t.objectLike || t.topLike) := by
  cases t <;> simp [orNull, topLike, objectLike]

theorem isTop_orNull : t.orNull.isTop = (t.isObject || t.isTop) := by
  cases t <;> simp [orNull, isTop, isObject]

theorem objectLike_orNull (known : t ≠ .unknown) : t.orNull.objectLike = false := by
  cases t <;> simp_all [orNull, objectLike]

theorem isObject_orNull : t.orNull.isObject = false := by
  cases t <;> simp [orNull, isObject]

@[simp] theorem orNull_eq_unknown : t.orNull = .unknown ↔ t = .unknown := by
  cases t <;> simp [orNull]

structure SameTop (t u : Ty) : Prop where
  topLike : t.topLike = u.topLike
  objectLike : t.objectLike = u.objectLike
  isTop : t.isTop = u.isTop
  isObject : t.isObject = u.isObject
  unknown : t = .unknown ↔ u = .unknown

theorem SameTop.refl (t : Ty) : SameTop t t := ⟨rfl, rfl, rfl, rfl, .rfl⟩

theorem SameTop.isHiddenTop (same : SameTop t u) : t.isHiddenTop = u.isHiddenTop := by
  simp [Ty.isHiddenTop, same.topLike, same.isTop, same.unknown]

theorem SameTop.orNull (same : SameTop t u) (known : u ≠ .unknown) :
    SameTop t.orNull (.nullable u) where
  topLike := by rw [topLike_orNull, same.objectLike, same.topLike, Ty.topLike]
  objectLike := objectLike_orNull (mt same.unknown.1 known)
  isTop := by rw [isTop_orNull, same.isObject, same.isTop, Ty.isTop]
  isObject := isObject_orNull
  unknown := by simp [same.unknown, known]

variable {f : ParamId → Option Ty}

theorem sameTop_replace (clear : Clear true t)
    (kept : t.EveryAt true fun part => ∀ p, part.param? = some p → f p = none) :
    SameTop (t.replace f) t := by
  induction t using induct with
  | unknown | dynamic | void | never => exact .refl _
  | interface d as _ => exact ⟨rfl, rfl, rfl, rfl, by simp [replace]⟩
  | nullable t ih =>
    obtain ⟨notHidden, clear⟩ := everyAt_nullable.1 clear
    have known : t ≠ .unknown := by
      rintro rfl
      exact notHidden rfl rfl
    exact (ih clear (everyAt_nullable.1 kept).2).orNull known
  | futureOr t ih =>
    obtain ⟨topLike, objectLike, isTop, _, _⟩ :=
      ih (everyAt_futureOr.1 clear).2 (everyAt_futureOr.1 kept).2
    exact ⟨topLike, objectLike, isTop, rfl, by simp [replace]⟩
  | param p =>
    rw [replace, kept.self p rfl]
    exact .refl _
  | promoted p bound _ =>
    rw [replace, kept.self p rfl]
    exact ⟨rfl, rfl, rfl, rfl, by simp⟩
  | func ps r _ _ => exact ⟨rfl, rfl, rfl, rfl, by simp [replace]⟩
  | record fs _ => exact ⟨rfl, rfl, rfl, rfl, by simp [replace]⟩

theorem clear_orNull (clear : Clear s t) (own : s = true → ¬ t.orNull.isHiddenTop) :
    Clear s t.orNull := by
  cases t <;> simp_all [orNull, Clear]

theorem clear_replace (clear : Clear s t)
    (kept : t.EveryAt s fun part => ∀ p, part.param? = some p → f p = none)
    (values : ∀ p u, f p = some u → Clear false u) : Clear s (t.replace f) := by
  induction t using induct generalizing s with
  | unknown | dynamic | void | never => exact clear
  | interface d as ih =>
    simp only [Clear, everyAt_interface] at clear kept
    simp only [replace, replaceAll_eq_map, Clear, everyAt_interface, List.forall_mem_map]
    exact ⟨fun _ => by simp [isHiddenTop, topLike],
      fun a ha => ih a ha (clear.2 a ha) (kept.2 a ha)⟩
  | nullable t ih =>
    have inner := ih (everyAt_nullable.1 clear).2 (everyAt_nullable.1 kept).2
    apply clear_orNull inner
    intro covariant
    subst covariant
    rw [← replace, (sameTop_replace clear kept).isHiddenTop]
    exact clear.self
  | futureOr t ih =>
    have inner := ih (everyAt_futureOr.1 clear).2 (everyAt_futureOr.1 kept).2
    refine everyAt_futureOr.2 ⟨fun covariant => ?_, inner⟩
    subst covariant
    rw [← replace, (sameTop_replace clear kept).isHiddenTop]
    exact clear.self
  | param p =>
    cases s with
    | true =>
      rw [replace, kept.self p rfl]
      exact clear
    | false =>
      rw [replace]
      cases value : f p with
      | none => exact clear
      | some u => exact values p u value
  | promoted p bound ih =>
    obtain ⟨_, clear⟩ := everyAt_promoted.1 clear
    have inner := ih clear (everyAt_promoted.1 kept).2
    rw [replace]
    cases value : f p with
    | none => exact everyAt_promoted.2 ⟨fun _ => by simp [isHiddenTop, topLike], inner⟩
    | some u =>
      cases s with
      | true => simp [kept.self p rfl] at value
      | false => exact values p u value
  | func ps r ihParams ihResult =>
    simp only [Clear, everyAt_func] at clear kept
    simp only [replace, replaceAll_eq_map, Clear, everyAt_func, List.forall_mem_map]
    exact ⟨fun _ => by simp [isHiddenTop, topLike],
      fun a ha => ihParams a ha (clear.2.1 a ha) (kept.2.1 a ha),
      ihResult clear.2.2 kept.2.2⟩
  | record fs ih =>
    simp only [Clear, everyAt_record] at clear kept
    simp only [replace, replaceAll_eq_map, Clear, everyAt_record, List.forall_mem_map]
    exact ⟨fun _ => by simp [isHiddenTop, topLike],
      fun a ha => ih a ha (clear.2 a ha) (kept.2 a ha)⟩

end MemberAccess.Ty
