import Mathlib.Data.List.Zip
import MemberAccess.Proofs.Typing.Rules

/-!
Relations between types that are lifted to the types built from them. An instance of a generic
class whose arguments are below those of another instance has supertypes of which the same holds,
since the parameters only occur in covariant positions of the declared supertypes.
-/
namespace MemberAccess.Program

/-- A relation lifted from the types in covariant positions. In contravariant positions the types
    are compared the other way around. -/
inductive Lift (P : Program) (R : Ty → Ty → Prop) : (covariant : Bool) → Ty → Ty → Prop
  | base : R a b → Lift P R true a b
  | refl : Lift P R s t t
  | interface : P.arity? d = some as.length → as.length = bs.length →
      (∀ x ∈ as.zip bs, Lift P R s x.1 x.2) → Lift P R s (.interface d as) (.interface d bs)
  | orNull : Lift P R s a b → Lift P R s a.orNull b.orNull
  | futureOr : Lift P R s a b → Lift P R s (.futureOr a) (.futureOr b)
  | func : ps.length = qs.length → (∀ x ∈ ps.zip qs, Lift P R (!s) x.2 x.1) → Lift P R s t u →
      Lift P R s (.func ps t) (.func qs u)
  | record : fs.length = gs.length → (∀ x ∈ fs.zip gs, Lift P R s x.1 x.2) →
      Lift P R s (.record fs) (.record gs)

variable {P : Program} {R : Ty → Ty → Prop} {s : Bool} {n m k : Nat} {a b c t u : Ty}
  {d e : TypeId} {as bs cs ts : List Ty} {i j : Instance} {decl : TypeDecl}

theorem exists_zip_of_zip {x : Ty × Ty} (hlength : as.length = bs.length)
    (hx : x ∈ as.zip cs) : ∃ b, (x.1, b) ∈ as.zip bs ∧ (b, x.2) ∈ bs.zip cs := by
  induction as generalizing bs cs with
  | nil => simp at hx
  | cons a as ih =>
    match bs, cs with
    | [], _ => simp at hlength
    | _, [] => simp at hx
    | b :: bs, c :: cs =>
      rcases List.mem_cons.1 hx with rfl | hx
      · exact ⟨b, by simp⟩
      · obtain ⟨b', first, second⟩ := ih (Nat.succ.inj hlength) hx
        exact ⟨b', List.mem_cons_of_mem _ first, List.mem_cons_of_mem _ second⟩

section Zip

variable {φ : Ty × Ty → Prop} {f : Ty → Ty}

theorem forall_mem_zip_map_left :
    (∀ x ∈ (as.map f).zip bs, φ x) ↔ ∀ x ∈ as.zip bs, φ (f x.1, x.2) := by
  rw [List.zip_map_left, List.forall_mem_map]
  rfl

theorem forall_mem_zip_map_right :
    (∀ x ∈ as.zip (bs.map f), φ x) ↔ ∀ x ∈ as.zip bs, φ (x.1, f x.2) := by
  rw [List.zip_map_right, List.forall_mem_map]
  rfl

theorem forall_mem_zip_swap : (∀ x ∈ as.zip bs, φ x) ↔ ∀ x ∈ bs.zip as, φ x.swap := by
  rw [← List.zip_swap bs as, List.forall_mem_map]

theorem forall_mem_zip_self : (∀ x ∈ as.zip as, φ x) ↔ ∀ a ∈ as, φ (a, a) := by
  have same : as.zip as = as.map fun a => (a, a) := by
    induction as <;> simp_all
  rw [same, List.forall_mem_map]

end Zip

structure LiftArgs (P : Program) (R : Ty → Ty → Prop) (i j : Instance) : Prop where
  decl : i.decl = j.decl
  arity : P.arity? i.decl = some i.args.length
  length : i.args.length = j.args.length
  args : ∀ x ∈ i.args.zip j.args, P.Lift R true x.1 x.2

theorem lift_map {f g : Ty → Ty} (h : ∀ t ∈ ts, P.Lift R s (f t) (g t)) :
    ∀ x ∈ (ts.map f).zip (ts.map g), P.Lift R s x.1 x.2 := by
  intro x hx
  rw [List.zip_map', List.mem_map] at hx
  obtain ⟨t, ht, rfl⟩ := hx
  exact h t ht

theorem rel_cases {α β : Type} {r : α → β → Prop} {x : Option α} {y : Option β}
    (h : Option.Rel r x y) : x = none ∧ y = none ∨ ∃ v w, x = some v ∧ y = some w ∧ r v w := by
  cases h with
  | none => exact .inl ⟨rfl, rfl⟩
  | some h => exact .inr ⟨_, _, rfl, rfl, h⟩

/-- Substitutions that are related parameter by parameter have related results if they only replace
    what is in covariant positions. -/
theorem lift_replace {f g : ParamId → Option Ty}
    (related : ∀ p, Option.Rel (P.Lift R true) (f p) (g p)) (valid : P.Valid t)
    (covariant : t.EveryAt (!s) fun part => ∀ p ∈ part.param?, f p = none)
    (promoted : t.Every fun part => part.isPromoted → ∀ p ∈ part.param?, (f p).isSome) :
    P.Lift R s (t.replace (if s then f else g)) (t.replace (if s then g else f)) := by
  induction t using Ty.induct generalizing s with
  | unknown | dynamic | void | never => exact .refl
  | interface d as ih =>
    obtain ⟨arity, valid⟩ := valid_interface.1 valid
    have covariant := (Ty.everyAt_interface.1 covariant).2
    have promoted := (Ty.every_interface.1 promoted).2
    simp only [Ty.replace, Ty.replaceAll_eq_map]
    exact .interface (by simpa using arity) (by simp)
      (lift_map fun a ha => ih a ha (valid a ha) (covariant a ha) (promoted a ha))
  | nullable t ih =>
    exact .orNull (ih (valid_nullable.1 valid) (Ty.everyAt_nullable.1 covariant).2
      (Ty.every_nullable.1 promoted).2)
  | futureOr t ih =>
    exact .futureOr (ih (valid_futureOr.1 valid) (Ty.everyAt_futureOr.1 covariant).2
      (Ty.every_futureOr.1 promoted).2)
  | param p =>
    rcases rel_cases (related p) with ⟨hf, hg⟩ | ⟨w, x, hf, hg, lifted⟩
    · cases s <;> simpa [Ty.replace, hf, hg] using .refl
    · cases s with
      | false => cases hf.symm.trans (covariant.self p rfl)
      | true => simpa [Ty.replace, hf, hg] using lifted
  | promoted p bound _ =>
    have replaced := promoted.self rfl p rfl
    rcases rel_cases (related p) with ⟨hf, _⟩ | ⟨w, x, hf, hg, lifted⟩
    · simp [hf] at replaced
    · cases s with
      | false => cases hf.symm.trans (covariant.self p rfl)
      | true => simpa [Ty.replace, hf, hg] using lifted
  | func ps r ihParams ihResult =>
    obtain ⟨validParams, valid⟩ := valid_func.1 valid
    obtain ⟨_, covariantParams, covariant⟩ := Ty.everyAt_func.1 covariant
    obtain ⟨_, promotedParams, promoted⟩ := Ty.every_func.1 promoted
    simp only [Ty.replace, Ty.replaceAll_eq_map]
    refine .func (by simp) (fun x hx => ?_) (ihResult valid covariant promoted)
    rw [List.zip_map', List.mem_map] at hx
    obtain ⟨p, hp, rfl⟩ := hx
    have := ihParams p hp (validParams p hp) (covariantParams p hp) (promotedParams p hp)
    cases s <;> exact this
  | record fs ih =>
    have valid := valid_record.1 valid
    have covariant := (Ty.everyAt_record.1 covariant).2
    have promoted := (Ty.every_record.1 promoted).2
    simp only [Ty.replace, Ty.replaceAll_eq_map]
    exact .record (by simp)
      (lift_map fun f hf => ih f hf (valid f hf) (covariant f hf) (promoted f hf))

theorem LiftArgs.refl (arity : P.arity? i.decl = some i.args.length) : P.LiftArgs R i i := by
  have args : ∀ x ∈ (i.args.map id).zip (i.args.map id), P.Lift R true x.1 x.2 :=
    lift_map fun _ _ => .refl
  exact ⟨rfl, arity, rfl, by simpa using args⟩

theorem Coherent.extends_lift (coherent : P.Coherent) {k : Instance} (lift : P.LiftArgs R i j)
    (h : P.Extends j k) : ∃ l, P.Extends i l ∧ P.LiftArgs R l k := by
  obtain ⟨decl, hd, hk⟩ := h
  have hi : P.types.get? i.decl = some decl := lift.decl ▸ hd
  have lengthI := length_params_of_arity lift.arity hi
  have lengthJ := lengthI.trans lift.length
  rcases coherent.directSupers_cases lengthJ hd hk with
    ⟨⟨e, ts⟩, declared, rfl, substituted⟩ | ⟨extendsObject, rfl⟩
  · have template := coherent.supers _ decl hd _ declared
    obtain ⟨arity, valid⟩ := valid_interface.1 template.valid
    rw [TypeDecl.substitute_bindings lengthJ] at substituted
    split at substituted
    · next closed =>
      refine ⟨k, ⟨decl, hi, mem_directSupers.2 (.inl ⟨_, declared, ?_⟩)⟩, .refl ?_⟩
      · rw [TypeDecl.substitute_bindings lengthI, if_pos closed, substituted]
      · obtain ⟨_, rfl⟩ := Ty.interface.inj substituted
        exact arity
    · next generic =>
      obtain ⟨_, args⟩ := Ty.interface.inj substituted
      rw [Ty.replaceAll_eq_map] at args
      refine ⟨⟨k.decl, ts.map (Ty.replace (decl.bindings i.args).get?)⟩,
        ⟨decl, hi, mem_directSupers.2 (.inl ⟨_, declared, ?_⟩)⟩, rfl, by simpa using arity,
        by simp [← args], ?_⟩
      · rw [TypeDecl.substitute_bindings lengthI, if_neg generic, Instance.type, Ty.replace,
          Ty.replaceAll_eq_map, Instance.type]
      · rw [← args]
        refine lift_map fun t ht => lift_replace (s := true)
          (TypeDecl.bindings_rel lift.length lift.args) (valid t ht) ?covariant ?promoted
        case covariant =>
          intro part h p hp
          have covariant := (Ty.everyAt_interface.1 template.covariant).2 t ht
          exact TypeDecl.bindings_eq_none (covariant part h p hp)
        case promoted =>
          intro part h isPromoted p hp
          have promoted := (Ty.every_interface.1 template.promoted).2 t ht
          exact TypeDecl.isSome_bindings lengthI (promoted part h isPromoted p hp)
  · refine ⟨⟨TypeId.object, []⟩, ⟨decl, hi, mem_directSupers.2 (.inr ⟨?_, rfl⟩)⟩, .refl ?_⟩
    · rwa [lift.decl]
    · exact (valid_interface.1 coherent.valid_object).1

theorem Coherent.reaches_lift (coherent : P.Coherent) {k : Instance} (lift : P.LiftArgs R i j)
    (h : P.Reaches j k) : ∃ l, P.Reaches i l ∧ P.LiftArgs R l k := by
  induction h with
  | refl => exact ⟨i, .refl, lift⟩
  | tail _ last ih =>
    obtain ⟨l, before, lift⟩ := ih
    obtain ⟨l', super, lift⟩ := coherent.extends_lift lift last
    exact ⟨l', before.tail super, lift⟩

structure Liftable (P : Program) (R : Ty → Ty → Prop) : Prop where
  known : ∀ a b, R a b → b ≠ .unknown
  derivable : ∀ a b, R a b → P.Derivable a b

theorem Lift.eq_unknown (liftable : P.Liftable R) (lift : P.Lift R s a b) :
    (b = .unknown → a = .unknown) ∧ (s = false → a = .unknown → b = .unknown) := by
  induction lift with
  | base h => exact ⟨fun hb => absurd hb (liftable.known _ _ h), by simp⟩
  | refl => simp
  | orNull _ ih => simpa using ih
  | _ => simp

theorem Derivable.future (h : P.Derivable a b) : P.Derivable (.future a) (.future b) :=
  .interface (by decide) .refl rfl (by simpa using h)

theorem Lift.derivable (liftable : P.Liftable R) (lift : P.Lift R s a b) : P.Derivable a b := by
  induction lift with
  | base h => exact liftable.derivable _ _ h
  | refl => exact .refl _
  | @interface d s as bs arity hlength _ ih =>
    by_cases null : d = .null
    · exact .null (by simp [Ty.isNull, null]) (by simp [Ty.acceptsNull, Ty.isNull, null])
    · exact .interface null .refl hlength ih
  | orNull _ ih => exact ih.orNull_right.orNull_left acceptsNull_orNull
  | @futureOr s a b lift ih =>
    by_cases known : b = .unknown
    · rw [known, (lift.eq_unknown liftable).1 known]
      exact .refl _
    · have future : P.Derivable (.future a) (.future b) := ih.future
      exact .futureOr_left (future.widen .future) (ih.widen (.futureOr known))
  | func hlength _ _ ihParams ih => exact .func hlength ihParams ih
  | record hlength _ ih => exact .record hlength ih

theorem Coherent.lift_future (coherent : P.Coherent) (lift : P.Lift R s a b) :
    P.Lift R s (.future a) (.future b) := by
  obtain ⟨d, hd, hparams, _⟩ := coherent.future
  exact .interface (arity?_eq_some.2 ⟨d, hd, hparams⟩) rfl (by simpa using lift)

theorem Lift.head (lift : P.Lift R s a b) (contravariant : s = false) :
    (a.isTop → b.isTop) ∧ (a.isObject → b.isObject) ∧ (a.acceptsNull → b.acceptsNull) ∧
      (a.isAboveBounds → b.isAboveBounds) := by
  induction lift with
  | base => cases contravariant
  | refl => simp
  | interface => simp [Ty.isTop, Ty.isObject, Ty.acceptsNull, Ty.isNull, Ty.isAboveBounds]
  | @orNull s a b _ ih =>
    obtain ⟨isTop, isObject, _, _⟩ := ih contravariant
    refine ⟨fun h => ?_, fun h => ?_, fun _ => acceptsNull_orNull, fun _ => by cases b <;> rfl⟩
    · rw [Ty.isTop_orNull, Bool.or_eq_true] at h ⊢
      exact h.imp isObject isTop
    · rw [Ty.isObject_orNull] at h
      cases h
  | futureOr _ ih =>
    obtain ⟨isTop, _, accepts, _⟩ := ih contravariant
    exact ⟨isTop, id, accepts, id⟩
  | func | record => simp [Ty.isTop, Ty.isObject, Ty.acceptsNull, Ty.isNull, Ty.isAboveBounds]

section Cut

variable (coherent : P.Coherent) (liftable : P.Liftable R)
  (cut : ∀ i < k, ∀ a b c, R a b → P.Fits true c → P.Derives i b c → P.Derivable a c)

def LiftsLeft (P : Program) (R : Ty → Ty → Prop) (n : Nat) : Prop :=
  ∀ a b c, P.Lift R true a b → P.Fits true c → P.Derives n b c → P.Derivable a c

def LiftsRight (P : Program) (R : Ty → Ty → Prop) (n : Nat) : Prop :=
  ∀ a b c, P.Fits false a → P.Lift R false b c → P.Derives n a b → P.Derivable a c

include coherent liftable cut

theorem liftsLeft_succ (hn : n + 1 < k) (left : P.LiftsLeft R n) (right : P.LiftsRight R n) :
    P.LiftsLeft R (n + 1) := by
  intro a b c lift fits h
  rcases h.split_right coherent fits with taken | premise
  · exact taken _ (lift.derivable liftable) fun _ => left _ _ _ lift
  generalize covariant : true = s at lift
  induction lift with
  | base r => exact cut _ hn _ _ _ r fits h
  | refl => exact h.derivable
  | @interface d s as bs arity hlength args _ =>
    subst covariant
    rcases premise with ⟨null, accepts⟩ | ⟨notNull, e, xs, cs, rfl, super, hxs, premises⟩
    · exact .null (by simp [Ty.isNull, null]) accepts
    · obtain ⟨⟨_, ws⟩, reaches, rfl, _, hws, related⟩ :=
        coherent.reaches_lift (i := ⟨d, as⟩) (j := ⟨d, bs⟩) ⟨rfl, arity, hlength, args⟩ super
      apply Derivable.interface notNull reaches (hws.trans hxs)
      intro x hx
      obtain ⟨y, first, second⟩ := exists_zip_of_zip hws hx
      exact left _ _ _ (related (x.1, y) first) (fits.args _ (List.of_mem_zip hx).2)
        (premises (y, x.2) second)
  | @orNull s a b lift ih =>
    cases b with
    | unknown =>
      rw [(lift.eq_unknown liftable).1 rfl]
      exact .unknown_left
    | dynamic | void | nullable =>
      exact (ih h premise covariant).orNull_left (h.acceptsNull rfl)
    | _ =>
      subst covariant
      obtain ⟨premise, accepts⟩ := premise
      exact (left _ _ _ lift fits premise).orNull_left accepts
  | futureOr lift ih =>
    subst covariant
    obtain ⟨future, premise⟩ := premise
    exact .futureOr_left (left _ _ _ (coherent.lift_future lift) fits future)
      (left _ _ _ lift fits premise)
  | func hlength params lift =>
    subst covariant
    rcases premise with rfl | ⟨qs, u, rfl, hqs, premises, premise⟩
    · exact ⟨1, .func_object⟩
    · refine .func (hlength.trans hqs) (fun x hx => ?_) (left _ _ _ lift fits.result premise)
      obtain ⟨y, first, second⟩ := exists_zip_of_zip hlength hx
      exact right _ _ _ (fits.params _ (List.of_mem_zip hx).2) (params (x.1, y) first)
        (premises (y, x.2) second)
  | record hlength fields =>
    subst covariant
    rcases premise with rfl | ⟨gs, rfl, hgs, premises⟩
    · exact ⟨1, .record_object⟩
    · apply Derivable.record (hlength.trans hgs)
      intro x hx
      obtain ⟨y, first, second⟩ := exists_zip_of_zip hlength hx
      exact left _ _ _ (fields (x.1, y) first) (fits.fields _ (List.of_mem_zip hx).2)
        (premises (y, x.2) second)

omit cut in
theorem liftsRight_succ (left : P.LiftsLeft R n) (right : P.LiftsRight R n) :
    P.LiftsRight R (n + 1) := by
  intro a b c fits lift h
  rcases h.split_left coherent fits with taken | rfl | unknown | premise
  · obtain ⟨isTop, _, accepts, above⟩ := lift.head rfl
    exact taken _ isTop accepts above fun _ fits => right _ _ _ fits lift
  · exact lift.derivable liftable
  · rw [(lift.eq_unknown liftable).2 rfl unknown]
    exact .unknown_right
  generalize contravariant : false = s at lift
  induction lift with
  | base r => cases contravariant
  | refl => exact h.derivable
  | @interface d s bs cs arity hlength args _ =>
    subst contravariant
    rcases premise with ⟨shape, object⟩ | ⟨e, as, xs, rfl, notNull, reaches, hxs, premises⟩
    · obtain ⟨rfl, rfl⟩ := Ty.interface.inj object
      obtain rfl : cs = [] := by simpa using hlength.symm
      rcases shape with ⟨ps, t, rfl⟩ | ⟨fs, rfl⟩
      · exact ⟨1, .func_object⟩
      · exact ⟨1, .record_object⟩
    · apply Derivable.interface notNull reaches (hxs.trans hlength)
      intro x hx
      obtain ⟨y, first, second⟩ := exists_zip_of_zip hxs hx
      exact right _ _ _ (coherent.fits_of_reaches fits reaches _ (List.of_mem_zip hx).1)
        (args (y, x.2) second) (premises (x.1, y) first)
  | @orNull s b c lift ih =>
    cases b with
    | unknown =>
      subst contravariant
      rw [(lift.eq_unknown liftable).2 rfl rfl]
      exact .unknown_right
    | dynamic | void | nullable => exact (ih h premise contravariant).orNull_right
    | _ =>
      subst contravariant
      exact (right _ _ _ fits lift premise.2).orNull_right
  | @futureOr s b c lift ih =>
    subst contravariant
    obtain ⟨atomic, future | premise⟩ := premise
    · exact (right _ _ _ fits (coherent.lift_future lift) future).widen .future
    · by_cases known : c = .unknown
      · rw [(lift.eq_unknown liftable).1 known] at h
        rw [known]
        exact h.derivable
      · exact (right _ _ _ fits lift premise).widen (.futureOr known)
  | func hlength params lift =>
    subst contravariant
    obtain ⟨ps, t, rfl, hps, premises, premise⟩ := premise
    refine .func (hps.trans hlength) (fun x hx => ?_) (right _ _ _ fits.result lift premise)
    obtain ⟨y, first, second⟩ := exists_zip_of_zip hps hx
    exact left _ _ _ (params (y, x.2) second) (fits.params _ (List.of_mem_zip hx).1)
      (premises (x.1, y) first)
  | record hlength fields =>
    subst contravariant
    obtain ⟨fs, rfl, hfs, premises⟩ := premise
    apply Derivable.record (hfs.trans hlength)
    intro x hx
    obtain ⟨y, first, second⟩ := exists_zip_of_zip hfs hx
    exact right _ _ _ (fits.fields _ (List.of_mem_zip hx).1) (fields (y, x.2) second)
      (premises (x.1, y) first)

/-- A relation that can be put before all derivations below a height can be lifted. -/
theorem lifts (hn : n < k) : P.LiftsLeft R n ∧ P.LiftsRight R n := by
  induction n with
  | zero => exact ⟨fun _ _ _ _ _ h => (nomatch h), fun _ _ _ _ _ h => (nomatch h)⟩
  | succ n ih =>
    obtain ⟨left, right⟩ := ih (by omega)
    exact ⟨liftsLeft_succ coherent liftable cut hn left right,
      liftsRight_succ coherent liftable left right⟩

end Cut

end MemberAccess.Program
