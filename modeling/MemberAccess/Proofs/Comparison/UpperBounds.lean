import MemberAccess.Proofs.Comparison.Interfaces
import MemberAccess.Proofs.Renaming.Substitution

/-!
Upper bounds that are above both types. They are found argument by argument or at a shared
supertype, but where `Object` is the last resort, it is above types that do not accept null only.
-/
namespace MemberAccess

open Filter

def Ty.alike : Ty → Ty → Bool
  | .interface d as, .interface e bs => d = e && as.length = bs.length
  | _, _ => false

namespace Program

variable {P : Program} {n : Nat} {l r t u b : Ty} {d e : TypeId} {as bs : List Ty} {q : Bool}
  {i j k : Instance} {js found : List Instance}

def Shares (P : Program) (i j k : Instance) : Prop :=
  P.superArgs? i k.decl = .ok (some k.args) ∧ P.superArgs? j k.decl = .ok (some k.args)

/-- When an upper bound of two types is above both of them. -/
inductive Joins (P : Program) : Ty → Ty → Prop
  | left {l r : Ty} : P.Below l r → Joins P l r
  | right {l r : Ty} : P.Below r l → Joins P l r
  | null {l r : Ty} : l.isNull ∨ r.isNull → Joins P l r
  | args {l r : Ty} {d : TypeId} {as bs : List Ty} {q : Bool} :
    Ty.stripNullable l r = (.interface d as, .interface d bs, q) → as.length = bs.length →
      (∀ x ∈ as.zip bs, Joins P x.1 x.2) → Joins P l r
  | nullable {l r t u : Ty} : Ty.stripNullable l r = (t, u, true) → ¬ t.alike u → Joins P l r
  | shared {i j k : Instance} : ¬ i.type.alike j.type → P.Shares i j k → Joins P i.type j.type
  | object {l r : Ty} : ¬ l.alike r → P.Below l .object → P.Below r .object → Joins P l r

/-- Whether two types have no upper bound for a trivial reason. -/
structure Apart (P : Program) (l r : Ty) : Prop where
  left : ¬ P.Below l r
  right : ¬ P.Below r l
  leftNull : ¬ l.isNull
  rightNull : ¬ r.isNull

section SharedInstances

theorem type_injective (h : i.type = j.type) : i = j := by
  cases i
  cases j
  cases h
  rfl

theorem superArgs_eq_some (h : P.supertypes i = .ok found) :
    P.superArgs? i k.decl = .ok (some k.args) ↔ k ∈ found := by
  have distinct := (walk_of_supertypes h).distinct.1
  simp only [superArgs?, h, ok_bind, pure_eq_ok, Option.map_eq_some_iff]
  constructor
  · rintro ⟨j, hj, args⟩
    have decl : j.decl = k.decl := by simpa using List.find?_some hj
    have same : j = k := by
      cases j
      cases k
      simp_all
    exact same ▸ List.mem_of_find?_eq_some hj
  · intro member
    cases first : found.find? (·.decl = k.decl) with
    | none => simpa using List.find?_eq_none.1 first k member
    | some j =>
      have decl : j.decl = k.decl := by simpa using List.find?_some first
      have same : j = k :=
        List.inj_on_of_nodup_map distinct (List.mem_of_find?_eq_some first) member decl
      exact ⟨j, rfl, by rw [same]⟩

theorem sharedInstance_eq_some (h : P.sharedInstance? i js = .ok (some k)) :
    k ∈ js ∧ P.superArgs? i k.decl = .ok (some k.args) := by
  induction js with
  | nil => cases h
  | cons j js ih =>
    rw [sharedInstance?] at h
    obtain ⟨args, hargs, h⟩ := bind_eq_ok.1 h
    split at h
    · next same =>
      cases h
      exact ⟨List.mem_cons_self, by rw [hargs, same]⟩
    · exact (ih h).imp_left (List.mem_cons_of_mem j)

theorem sharedInstance_eq_none (h : P.sharedInstance? i js = .ok none) :
    ∀ k ∈ js, P.superArgs? i k.decl ≠ .ok (some k.args) := by
  induction js with
  | nil => simp
  | cons j js ih =>
    rw [sharedInstance?] at h
    obtain ⟨args, hargs, h⟩ := bind_eq_ok.1 h
    split at h
    · cases h
    · next different =>
      refine List.forall_mem_cons.2 ⟨fun same => different ?_, ih h⟩
      rw [hargs] at same
      exact Except.ok.inj same

theorem shape_of_not_alike (wf : P.WellFormed) (ht : P.InRange t) (hu : P.InRange u)
    (other : ¬ t.alike u) :
    (∃ i j k : Instance, t = i.type ∧ u = j.type ∧ P.Shares i j k ∧
      ∀ meet, P.upperBoundByShape meet t u = .ok k.type) ∨
    (∀ i j k : Instance, t = i.type → u = j.type → ¬ P.Shares i j k) ∧
      ∀ meet, P.upperBoundByShape meet t u = .ok .object := by
  by_cases interfaces : ∃ i j : Instance, t = i.type ∧ u = j.type
  · obtain ⟨i, j, rfl, rfl⟩ := interfaces
    obtain ⟨found, walk, every⟩ := wf.closed.supertypes i ht
    obtain ⟨shared, search, _⟩ := wf.closed.sharedInstance (i := j) hu every
    have different : ¬ (i.decl = j.decl ∧ i.args.length = j.args.length) := by
      simpa [Instance.type, Ty.alike] using other
    have shape (meet : Ty → Ty → Except Fault Ty) :
        P.upperBoundByShape meet i.type j.type = .ok (shared.elim .object Instance.type) := by
      simp only [Instance.type, upperBoundByShape, if_neg different, walk, ok_bind, search]
      cases shared <;> rfl
    cases shared with
    | none =>
      refine .inr ⟨fun i' j' k own theirs shares => ?_, shape⟩
      obtain rfl : i = i' := type_injective own
      obtain rfl : j = j' := type_injective theirs
      exact sharedInstance_eq_none search k ((superArgs_eq_some walk).1 shares.1) shares.2
    | some k =>
      obtain ⟨member, second⟩ := sharedInstance_eq_some search
      exact .inl ⟨i, j, k, rfl, rfl, ⟨(superArgs_eq_some walk).2 member, second⟩, shape⟩
  · refine .inr ⟨fun i j _ own theirs _ => interfaces ⟨i, j, own, theirs⟩, fun meet => ?_⟩
    unfold upperBoundByShape
    split
    · exact absurd ⟨⟨_, _⟩, ⟨_, _⟩, rfl, rfl⟩ interfaces
    · rfl

end SharedInstances

section Question

theorem below_stripped_iff (wf : P.WellFormed) (hl : P.InRange l) (hr : P.InRange r)
    (strip : Ty.stripNullable l r = (t, u, true)) :
    P.Below l (.nullable b) ∧ P.Below r (.nullable b) ↔
      P.Below t (.nullable b) ∧ P.Below u (.nullable b) := by
  unfold Ty.stripNullable at strip
  split at strip
  · cases strip
    rw [wf.nullable_below_nullable_iff (Ty.every_nullable.1 hl).2,
      wf.nullable_below_nullable_iff (Ty.every_nullable.1 hr).2]
  · cases strip
    rw [wf.nullable_below_nullable_iff (Ty.every_nullable.1 hl).2]
  · cases strip
    rw [wf.nullable_below_nullable_iff (Ty.every_nullable.1 hr).2, and_comm]
  · cases strip

theorem eq_of_stripped (strip : Ty.stripNullable l r = (t, u, false)) : t = l ∧ u = r := by
  unfold Ty.stripNullable at strip
  split at strip <;> cases strip
  exact ⟨rfl, rfl⟩

theorem sizeOf_stripped (strip : Ty.stripNullable l r = (t, u, q)) :
    sizeOf t + sizeOf u ≤ sizeOf l + sizeOf r := by
  unfold Ty.stripNullable at strip
  split at strip <;> cases strip <;> grind [Ty.nullable.sizeOf_spec]

theorem below_nullable_of_isNull (isNull : t.isNull) : P.Below t (.nullable b) :=
  ⟨1, subtype_of_null isNull rfl⟩

theorem WellFormed.below_object (wf : P.WellFormed) (ha : P.InRange (.interface .object as)) :
    P.Below (.interface .object as) (.interface .object bs) := by
  have self : P.superArgs? ⟨.object, as⟩ .object = .ok (some as) :=
    wf.superArgs_self (i := ⟨.object, as⟩) ha
  exact ⟨1, subtype_of_object nofun rfl (by simp [isNonNull, self])⟩

theorem Apart.proper (wf : P.WellFormed) (hl : P.InRange l) (apart : P.Apart l r)
    (strip : Ty.stripNullable l r = (.interface d as, .interface d bs, q)) :
    d ≠ .null ∧ d ≠ .object := by
  obtain ⟨left, right, leftNull, rightNull⟩ := apart
  unfold Ty.stripNullable at strip
  split at strip <;> cases strip
  · have isNull : d = .null → (Ty.interface d as).isNull := fun same => by simp [Ty.isNull, same]
    refine ⟨fun same => left ?_, fun same => left (below_of_isTop ?_)⟩
    · rw [wf.nullable_below_nullable_iff (Ty.every_nullable.1 hl).2]
      exact below_nullable_of_isNull (isNull same)
    · simp [Ty.isTop, Ty.isObject, same]
  · refine ⟨fun same => rightNull ?_, fun same => right (below_of_isTop ?_)⟩
    · simp [Ty.isNull, same]
    · simp [Ty.isTop, Ty.isObject, same]
  · refine ⟨fun same => leftNull ?_, fun same => left (below_of_isTop ?_)⟩
    · simp [Ty.isNull, same]
    · simp [Ty.isTop, Ty.isObject, same]
  · refine ⟨fun same => leftNull ?_, ?_⟩
    · simp [Ty.isNull, same]
    · rintro rfl
      exact left (wf.below_object hl)

end Question

section Cases

theorem alike_iff : t.alike u ↔ ∃ d as bs, t = .interface d as ∧ u = .interface d bs ∧
    as.length = bs.length := by
  cases t with
  | interface d as =>
    cases u with
    | interface e bs =>
      simp only [Ty.alike, Bool.and_eq_true, decide_eq_true_eq, Ty.interface.injEq]
      constructor
      · rintro ⟨rfl, hlength⟩
        exact ⟨d, as, bs, ⟨rfl, rfl⟩, ⟨rfl, rfl⟩, hlength⟩
      · rintro ⟨_, _, _, ⟨rfl, rfl⟩, ⟨rfl, rfl⟩, hlength⟩
        exact ⟨rfl, hlength⟩
    | _ => simp [Ty.alike]
  | _ => simp [Ty.alike]

theorem alike_of_length (hlength : as.length = bs.length) :
    (Ty.interface d as).alike (.interface d bs) := by
  simp [Ty.alike, hlength]

theorem not_nullable_below_object : ¬ P.Below (.nullable t) .object :=
  fun ⟨_, h⟩ => not_subtype_nullable (by decide) h

theorem stripNullable_of_below_object (hl : P.Below l .object) (hr : P.Below r .object) :
    Ty.stripNullable l r = (l, r, false) := by
  unfold Ty.stripNullable
  split
  · exact absurd hl not_nullable_below_object
  · exact absurd hl not_nullable_below_object
  · exact absurd hr not_nullable_below_object
  · rfl

theorem Apart.joins_iff_args (apart : P.Apart l r)
    (strip : Ty.stripNullable l r = (.interface d as, .interface d bs, q))
    (hlength : as.length = bs.length) :
    P.Joins l r ↔ ∀ x ∈ as.zip bs, P.Joins x.1 x.2 := by
  refine ⟨fun joins => ?_, .args strip hlength⟩
  have same : (Ty.interface d as).alike (.interface d bs) := alike_of_length hlength
  cases joins with
  | left below => exact absurd below apart.left
  | right below => exact absurd below apart.right
  | null isNull => exact (isNull.elim apart.leftNull apart.rightNull).elim
  | args strip' _ each =>
    rw [strip] at strip'
    cases strip'
    exact each
  | nullable strip' other =>
    rw [strip] at strip'
    cases strip'
    exact absurd same other
  | @shared i j _ other =>
    have plain : Ty.stripNullable i.type j.type = (i.type, j.type, false) := rfl
    rw [plain] at strip
    simp only [Prod.mk.injEq] at strip
    rw [strip.1, strip.2.1] at other
    exact absurd same other
  | object other left right =>
    rw [stripNullable_of_below_object left right] at strip
    simp only [Prod.mk.injEq] at strip
    rw [strip.1, strip.2.1] at other
    exact absurd same other

theorem Apart.joins_iff_object (apart : P.Apart l r)
    (strip : Ty.stripNullable l r = (l, r, false)) (other : ¬ l.alike r)
    (unshared : ∀ i j k : Instance, l = i.type → r = j.type → ¬ P.Shares i j k) :
    P.Joins l r ↔ P.Below l .object ∧ P.Below r .object := by
  refine ⟨fun joins => ?_, fun below => .object other below.1 below.2⟩
  cases joins with
  | left below => exact absurd below apart.left
  | right below => exact absurd below apart.right
  | null isNull => exact (isNull.elim apart.leftNull apart.rightNull).elim
  | args strip' hlength =>
    rw [strip] at strip'
    cases strip'
    exact absurd (alike_of_length hlength) other
  | nullable strip' =>
    rw [strip] at strip'
    cases strip'
  | shared _ shares => exact absurd shares (unshared _ _ _ rfl rfl)
  | object _ left right => exact ⟨left, right⟩

end Cases

section Run

theorem eventually_succ {holds : Nat → Prop} :
    (∀ᶠ n in atTop, holds (n + 1)) ↔ ∀ᶠ n in atTop, holds n := by
  rw [← eventually_map (m := fun n => n + 1), map_add_atTop_eq_nat]

variable (wf : P.WellFormed) (hl : P.InRange l) (hr : P.InRange r)

include wf hl hr

theorem Apart.eventually_upperBound (apart : P.Apart l r)
    (strip : Ty.stripNullable l r = (t, u, q))
    (shape : ∀ᶠ n in atTop, P.upperBoundByShape (P.upperBound n) t u = .ok b) :
    ∀ᶠ n in atTop, P.upperBound n l r = .ok (if q then b.orNull else b) := by
  refine eventually_succ.1 (shape.mono fun n hshape => ?_)
  rw [upperBound, wf.refused hl hr apart.left, wf.refused hr hl apart.right]
  simp [apart.leftNull, apart.rightNull, strip, hshape]

theorem inRange_of_upperBound (h : ∀ᶠ n in atTop, P.upperBound n l r = .ok b) : P.InRange b := by
  obtain ⟨n, h⟩ := h.exists
  obtain ⟨b', h', every⟩ := wf.closed.upperBound (n := n) hl hr
  rw [h] at h'
  cases h'
  exact every

end Run

section Alike

variable {f : Ty × Ty → Ty}

theorem eventually_mapM {xs : List (Ty × Ty)}
    (h : ∀ x ∈ xs, ∀ᶠ n in atTop, P.upperBound n x.1 x.2 = .ok (f x)) :
    ∀ᶠ n in atTop, (xs.mapM fun (a, b) => P.upperBound n a b) = .ok (xs.map f) := by
  filter_upwards [eventually_forall_mem h] with n each
  refine mapM_eq_ok.2 ?_
  rw [List.forall₂_map_right_iff, List.forall₂_same]
  exact each

theorem zip_map_zip (hlength : as.length = bs.length) :
    as.zip ((as.zip bs).map f) = (as.zip bs).map (fun x => (x.1, f x)) ∧
      bs.zip ((as.zip bs).map f) = (as.zip bs).map fun x => (x.2, f x) := by
  induction as generalizing bs with
  | nil => cases bs <;> simp_all
  | cons a as ih => cases bs <;> simp_all

variable (wf : P.WellFormed) (hl : P.InRange l) (hr : P.InRange r) (apart : P.Apart l r)
  (strip : Ty.stripNullable l r = (.interface d as, .interface d bs, q))
  (hlength : as.length = bs.length)

include wf hl hr

omit wf in
theorem inRange_stripped (strip : Ty.stripNullable l r = (t, u, q)) :
    P.InRange t ∧ P.InRange u := by
  have stripped := Closed.every_stripNullable hl hr
  rw [strip] at stripped
  exact stripped

include apart strip hlength

theorem above_instance_iff (hb : P.InRange (.interface d ((as.zip bs).map f))) :
    P.Below l (if q then (Ty.interface d ((as.zip bs).map f)).orNull
        else .interface d ((as.zip bs).map f)) ∧
      P.Below r (if q then (Ty.interface d ((as.zip bs).map f)).orNull
        else .interface d ((as.zip bs).map f)) ↔
    ∀ x ∈ as.zip bs, P.Below x.1 (f x) ∧ P.Below x.2 (f x) := by
  obtain ⟨notNull, notObject⟩ := apart.proper wf hl strip
  obtain ⟨ht, hu⟩ := inRange_stripped hl hr strip
  have plain : P.Below (.interface d as) (.interface d ((as.zip bs).map f)) ∧
      P.Below (.interface d bs) (.interface d ((as.zip bs).map f)) ↔
        ∀ x ∈ as.zip bs, P.Below x.1 (f x) ∧ P.Below x.2 (f x) := by
    obtain ⟨first, second⟩ := zip_map_zip (f := f) hlength
    rw [wf.below_interface_iff notNull notObject ht hb,
      wf.below_interface_iff notNull notObject hu hb, first, second]
    simp only [List.length_map, List.length_zip, hlength, min_self, true_and, List.forall_mem_map]
    exact ⟨fun h x hx => ⟨h.1 x hx, h.2 x hx⟩,
      fun h => ⟨fun x hx => (h x hx).1, fun x hx => (h x hx).2⟩⟩
  cases q with
  | false =>
    obtain ⟨rfl, rfl⟩ := eq_of_stripped strip
    exact plain
  | true =>
    have notTop : ¬ (Ty.nullable (.interface d ((as.zip bs).map f))).isTop := by
      simp [Ty.isTop, Ty.isObject, notObject]
    have question : (Ty.interface d ((as.zip bs).map f)).orNull =
        .nullable (.interface d ((as.zip bs).map f)) := rfl
    rw [if_pos rfl, question, below_stripped_iff wf hl hr strip, below_nullable_iff notNull notTop,
      below_nullable_iff notNull notTop]
    exact plain

theorem exists_instance
    (meets : ∀ x ∈ as.zip bs, ∃ b, (∀ᶠ n in atTop, P.upperBound n x.1 x.2 = .ok b) ∧
      (P.Below x.1 b ∧ P.Below x.2 b ↔ P.Joins x.1 x.2)) :
    ∃ b, (∀ᶠ n in atTop, P.upperBound n l r = .ok b) ∧
      (P.Below l b ∧ P.Below r b ↔ P.Joins l r) := by
  obtain ⟨ht, hu⟩ := inRange_stripped hl hr strip
  choose! f meet above using meets
  have shape : ∀ᶠ n in atTop, P.upperBoundByShape (P.upperBound n) (.interface d as)
      (.interface d bs) = .ok (.interface d ((as.zip bs).map f)) := by
    filter_upwards [eventually_mapM meet] with n met
    rw [upperBoundByShape, if_pos ⟨rfl, hlength⟩, met]
    rfl
  have inside : P.InRange (.interface d ((as.zip bs).map f)) := by
    refine Ty.every_interface.2 ⟨ht.self, List.forall_mem_map.2 fun x hx => ?_⟩
    obtain ⟨first, second⟩ := List.of_mem_zip hx
    exact inRange_of_upperBound wf ((Ty.every_interface.1 ht).2 _ first)
      ((Ty.every_interface.1 hu).2 _ second) (meet x hx)
  refine ⟨_, apart.eventually_upperBound wf hl hr strip shape, ?_⟩
  rw [above_instance_iff wf hl hr apart strip hlength inside, apart.joins_iff_args strip hlength]
  exact forall₂_congr above

end Alike

section Different

theorem below_nullable_of_superArgs (h : P.superArgs? i k.decl = .ok (some k.args)) :
    P.Below i.type (.nullable k.type) := by
  by_cases null : i.decl = .null
  · exact below_nullable_of_isNull (by simp [Instance.type, Ty.isNull, null])
  by_cases isTop : (Ty.nullable k.type).isTop
  · exact below_of_isTop isTop
  · exact (below_nullable_iff null isTop).2 (below_of_superArgs null h)

variable (wf : P.WellFormed) (hl : P.InRange l) (hr : P.InRange r) (apart : P.Apart l r)
  (strip : Ty.stripNullable l r = (t, u, q)) (other : ¬ t.alike u)

include wf hl hr apart strip other

theorem exists_meet : ∃ b, (∀ meet, P.upperBoundByShape meet t u = .ok b) ∧
    (P.Below l (if q then b.orNull else b) ∧ P.Below r (if q then b.orNull else b) ↔
      P.Joins l r) := by
  obtain ⟨ht, hu⟩ := inRange_stripped hl hr strip
  rcases shape_of_not_alike wf ht hu other with
    ⟨i, j, k, rfl, rfl, shares, shape⟩ | ⟨unshared, shape⟩
  · refine ⟨k.type, shape, ?_⟩
    cases q with
    | false =>
      obtain ⟨rfl, rfl⟩ := eq_of_stripped strip
      have left : i.decl ≠ .null := fun null =>
        apart.leftNull (by simp [Instance.type, Ty.isNull, null])
      have right : j.decl ≠ .null := fun null =>
        apart.rightNull (by simp [Instance.type, Ty.isNull, null])
      exact ⟨fun _ => .shared other shares, fun _ => ⟨below_of_superArgs left shares.1,
        below_of_superArgs right shares.2⟩⟩
    | true =>
      refine ⟨fun _ => .nullable strip other, fun _ => ?_⟩
      exact (below_stripped_iff wf hl hr strip).2
        ⟨below_nullable_of_superArgs shares.1, below_nullable_of_superArgs shares.2⟩
  · refine ⟨.object, shape, ?_⟩
    cases q with
    | false =>
      obtain ⟨rfl, rfl⟩ := eq_of_stripped strip
      exact (apart.joins_iff_object strip other unshared).symm
    | true =>
      have isTop : Ty.object.orNull.isTop := rfl
      exact ⟨fun _ => .nullable strip other, fun _ => ⟨below_of_isTop isTop, below_of_isTop isTop⟩⟩

end Different

section Related

theorem below_orNull_of_isNull (isNull : t.isNull) : P.Below t b.orNull := by
  cases b with
  | unknown => exact ⟨0, subtype_of_easy (by simp [Ty.orNull])⟩
  | dynamic | void => exact below_of_isTop rfl
  | _ => exact below_nullable_of_isNull isNull

theorem WellFormed.below_orNull (wf : P.WellFormed) (ht : P.InRange t) : P.Below t t.orNull := by
  cases t with
  | unknown | dynamic | void | nullable => exact below_refl _
  | _ => exact wf.below_of_strips (.nullable .refl) (Ty.every_nullable.2 ⟨rfl, ht⟩)

variable (wf : P.WellFormed) (hl : P.InRange l) (hr : P.InRange r)

include wf hl hr

theorem eventually_of_left (h : P.Below l r) : ∀ᶠ n in atTop, P.upperBound n l r = .ok r := by
  refine eventually_succ.1 ((eventually_succ.2 (wf.eventually_of_below hl hr h)).mono ?_)
  intro n found
  rw [upperBound, found]
  rfl

theorem eventually_of_right (left : ¬ P.Below l r) (h : P.Below r l) :
    ∀ᶠ n in atTop, P.upperBound n l r = .ok l := by
  refine eventually_succ.1 ((eventually_succ.2 (wf.eventually_of_below hr hl h)).mono ?_)
  intro n found
  rw [upperBound, wf.refused hl hr left, found]
  rfl

theorem eventually_of_null (left : ¬ P.Below l r) (right : ¬ P.Below r l)
    (null : l.isNull ∨ r.isNull) :
    ∀ᶠ n in atTop, P.upperBound n l r = .ok (if l.isNull then r.orNull else l.orNull) := by
  refine eventually_succ.1 (.of_forall fun n => ?_)
  rw [upperBound, wf.refused hl hr left, wf.refused hr hl right]
  by_cases leftNull : l.isNull
  · simp [leftNull]
  · simp [leftNull, null.resolve_left leftNull]

end Related

/-- From some limit on, the upper bound is one type, which is above both types if and only if they
    join. -/
theorem exists_upperBound (wf : P.WellFormed) (hl : P.InRange l) (hr : P.InRange r) :
    ∃ b, (∀ᶠ n in atTop, P.upperBound n l r = .ok b) ∧
      (P.Below l b ∧ P.Below r b ↔ P.Joins l r) := by
  induction size : sizeOf l + sizeOf r using Nat.strong_induction_on generalizing l r with
  | _ size ih =>
    subst size
    by_cases left : P.Below l r
    · exact ⟨r, eventually_of_left wf hl hr left, fun _ => .left left,
        fun _ => ⟨left, below_refl r⟩⟩
    by_cases right : P.Below r l
    · exact ⟨l, eventually_of_right wf hl hr left right, fun _ => .right right,
        fun _ => ⟨below_refl l, right⟩⟩
    by_cases null : l.isNull ∨ r.isNull
    · refine ⟨_, eventually_of_null wf hl hr left right null, fun _ => .null null, fun _ => ?_⟩
      by_cases leftNull : l.isNull
      · rw [if_pos leftNull]
        exact ⟨below_orNull_of_isNull leftNull, wf.below_orNull hr⟩
      · rw [if_neg leftNull]
        exact ⟨wf.below_orNull hl, below_orNull_of_isNull (null.resolve_left leftNull)⟩
    obtain ⟨leftNull, rightNull⟩ := not_or.1 null
    have apart : P.Apart l r := ⟨left, right, leftNull, rightNull⟩
    obtain ⟨⟨t, u, q⟩, strip⟩ : ∃ stripped, Ty.stripNullable l r = stripped := ⟨_, rfl⟩
    by_cases alike : t.alike u
    · obtain ⟨d, as, bs, rfl, rfl, hlength⟩ := alike_iff.1 alike
      obtain ⟨ht, hu⟩ := inRange_stripped hl hr strip
      refine exists_instance wf hl hr apart strip hlength fun x hx => ?_
      obtain ⟨first, second⟩ := List.of_mem_zip hx
      have smaller := sizeOf_stripped strip
      have firstLess := List.sizeOf_lt_of_mem first
      have secondLess := List.sizeOf_lt_of_mem second
      simp only [Ty.interface.sizeOf_spec] at smaller
      exact ih _ (by omega) ((Ty.every_interface.1 ht).2 _ first)
        ((Ty.every_interface.1 hu).2 _ second) rfl
    · obtain ⟨b, shape, iff⟩ := exists_meet wf hl hr apart strip alike
      exact ⟨_, apart.eventually_upperBound wf hl hr strip (.of_forall fun n => shape _), iff⟩

section Unification

open Unification

variable {p : ParamId} {limit m : Nat}

theorem matchType_pair (h : P.upperBound (limit + 1) l r = .ok b) :
    P.matchType limit [p] (m + 2) (.record [.param p, .param p]) (.record [l, r]) .empty =
      .ok (some (.ofList [(p, b)])) := by
  have mentions : (Ty.record [.param p, .param p]).mentionsAny [p] = true := by
    rw [Ty.mentionsAny_iff]
    simp [Ty.Free, Ty.param?]
  have var : varOf? [p] (.param p) = some p := by simp [varOf?]
  have own : (Substitution.empty.insert p l).get? p = some l := by simp [Substitution.get?_insert]
  have last : (Substitution.empty.insert p l).insert p b = .ofList [(p, b)] := by
    apply Substitution.ext_get?
    intro x
    by_cases same : x = p <;>
      simp [Substitution.ofList, Substitution.insertAll, Substitution.get?_insert, same]
  have first : P.matchType limit [p] (m + 1) (.param p) l .empty =
      .ok (some (Substitution.empty.insert p l)) := by
    rw [matchType, var]
    rfl
  have second : P.matchType limit [p] (m + 1) (.param p) r (Substitution.empty.insert p l) =
      .ok (some (.ofList [(p, b)])) := by
    rw [matchType, var]
    simp only [bindLower, own, h, ok_bind, last]
    rfl
  have both : Step.pairwise (P.matchType limit [p] (m + 1)) [.param p, .param p] [l, r] .empty =
      .ok (some (.ofList [(p, b)])) := by
    simp [Step.pairwise, Step.each, Step.andThen, first, second, Step.done]
  rw [matchType, mentions]
  exact both

theorem unify_pair {answer : Bool} (h : P.upperBound (limit + 2) l r = .ok b)
    (check : P.isSubtype (limit + 1) (.record [l, r]) (.record [b, b]) = .ok answer) :
    P.unify (limit + 1) (.record [.param p, .param p]) (.record [l, r]) [p] =
      .ok (if b.mentionsAny [p] || answer then some (.ofList [(p, b)]) else none) := by
  have value : (Substitution.ofList [(p, b)]).get? p = some b := by
    simp [Substitution.ofList, Substitution.insertAll, Substitution.get?_insert]
  have nonempty : (Substitution.ofList [(p, b)]).isEmpty = false := rfl
  have instantiated : (Ty.record [.param p, .param p]).substitute (.ofList [(p, b)]) =
      .record [b, b] := by
    simp [Ty.substitute, nonempty, Ty.replace, Ty.replaceAll, value]
  have mentions : (Ty.record [b, b]).mentionsAny [p] = b.mentionsAny [p] := by
    rw [Bool.eq_iff_iff, Ty.mentionsAny_iff, Ty.mentionsAny_iff]
    simp [Ty.Free, Ty.param?]
  rw [unify, matchType_pair h, ok_bind]
  simp only [instantiated, mentions, check, ok_bind]
  cases b.mentionsAny [p] <;> cases answer <;> rfl

end Unification

/-- An upper bound is above both types exactly if they join, and it is found for a variable that
    is offered both of them exactly then, unless the variable occurs in it. -/
theorem upperBound_above_iff_joins (P : Program) (l r : Ty) (wf : P.WellFormed) (hl : P.InRange l)
    (hr : P.InRange r) :
    ∃ b, (∀ᶠ limit in atTop, P.upperBound (limit + 1) l r = .ok b) ∧
      (P.Below l b ∧ P.Below r b ↔ P.Joins l r) ∧
      ∀ p, (P.Joins l r → ∀ᶠ limit in atTop, P.unify limit (.record [.param p, .param p])
          (.record [l, r]) [p] = .ok (some (.ofList [(p, b)]))) ∧
        (¬ P.Joins l r → b.Free [p] → ∀ᶠ limit in atTop, P.unify limit
          (.record [.param p, .param p]) (.record [l, r]) [p] = .ok none) := by
  obtain ⟨b, bound, iff⟩ := exists_upperBound wf hl hr
  have hb : P.InRange b := inRange_of_upperBound wf hl hr bound
  have pair : P.InRange (.record [l, r]) :=
    Ty.every_record.2 ⟨rfl, List.forall_mem_cons.2 ⟨hl, List.forall_mem_singleton.2 hr⟩⟩
  have target : P.InRange (.record [b, b]) :=
    Ty.every_record.2 ⟨rfl, List.forall_mem_cons.2 ⟨hb, List.forall_mem_singleton.2 hb⟩⟩
  have checked : P.Below (.record [l, r]) (.record [b, b]) ↔ P.Joins l r := by
    rw [wf.below_record_iff pair target, ← iff]
    simp
  have met : ∀ᶠ limit in atTop, P.upperBound (limit + 2) l r = .ok b :=
    eventually_succ.2 (eventually_succ.2 bound)
  refine ⟨b, eventually_succ.2 bound, iff, fun p => ⟨fun joins => ?_, fun apart free => ?_⟩⟩
  · have found : ∀ᶠ limit in atTop,
        P.isSubtype (limit + 1) (.record [l, r]) (.record [b, b]) = .ok true :=
      eventually_succ.2 (eventually_succ.2 (wf.eventually_of_below pair target (checked.2 joins)))
    refine eventually_succ.1 ?_
    filter_upwards [met, found] with limit met found
    rw [unify_pair met found, Bool.or_true, if_pos rfl]
  · have refused (limit : Nat) :
        P.isSubtype (limit + 1) (.record [l, r]) (.record [b, b]) = .ok false :=
      wf.refused pair target (mt checked.1 apart) _
    have absent : b.mentionsAny [p] = false := by simpa using Ty.not_mentionsAny_iff.2 free
    refine eventually_succ.1 (met.mono fun limit met => ?_)
    rw [unify_pair met (refused limit), absent]
    rfl

theorem wellFormed_core : core.WellFormed where
  object := rfl
  future := rfl
  supers := by decide
  bounds := by decide
  decls := by decide

theorem core_lists_join :
    let list (t : Ty) : Ty := .interface ⟨10⟩ [t]
    let int : Ty := .interface ⟨5⟩ []
    let double : Ty := .interface ⟨6⟩ []
    core.InRange (list int) ∧ core.InRange (list double) ∧ core.Joins (list int) (list double) ∧
      ∃ b, core.Below (list int) b ∧ core.Below (list double) b ∧
        ∀ᶠ limit in atTop, core.unify limit (.record [.param ⟨0⟩, .param ⟨0⟩])
          (.record [list int, list double]) [⟨0⟩] = .ok (some (.ofList [(⟨0⟩, b)])) := by
  intro list int double
  have joins : core.Joins (list int) (list double) := by
    refine .args rfl rfl (List.forall_mem_singleton.2 ?_)
    exact .object (by decide) ⟨1, by decide +kernel⟩ ⟨1, by decide +kernel⟩
  obtain ⟨b, _, above, unifies⟩ := upperBound_above_iff_joins core (list int) (list double)
    wellFormed_core (by decide) (by decide)
  obtain ⟨left, right⟩ := above.2 joins
  exact ⟨by decide, by decide, joins, b, left, right, (unifies ⟨0⟩).1 joins⟩

end Program

end MemberAccess
