import MemberAccess.Proofs.Typing.Completeness
import MemberAccess.Proofs.Typing.Inheritance
import MemberAccess.Proofs.Typing.Lifting

/-!
Transitivity of subtyping. The type in the middle is cut out: two derivations that meet at it are
taken apart until the one on the left or the one on the right does not depend on it.
-/
namespace MemberAccess.Program

variable {P : Program} {i j k n : Nat} {a b c t u bound : Ty} {p : ParamId} {d e : TypeId}
  {as bs cs : List Ty}

/-- Whether types in the middle can be cut out of derivations below a height. -/
def CutBelow (P : Program) (k : Nat) : Prop :=
  ∀ i j a b c, i + j < k → P.Fits false a → P.Valid b → b.Known → P.Fits true c →
    P.Derives i a b → P.Derives j b c → P.Derivable a c

/-- The relation that is lifted to supertypes: what can be cut out before derivations below a
    height. -/
def Cut (P : Program) (j : Nat) (a b : Ty) : Prop :=
  b.Known ∧ P.Derivable a b ∧ ∀ n < j, ∀ c, P.Fits true c → P.Derives n b c → P.Derivable a c

theorem cut_liftable : P.Liftable (P.Cut j) where
  known _ _ h := h.1.ne_unknown
  derivable _ _ h := h.2.1

section Step

variable (coherent : P.Coherent) (ih : P.CutBelow (i + j + 2)) (left : P.Fits false a)
  (valid : P.Valid b) (known : b.Known) (right : P.Fits true c)

include coherent

omit ih left in
theorem cut_object (shape : (∃ ps t, a = .func ps t) ∨ ∃ fs, a = .record fs)
    (h : P.LeftPremise j c .object) : P.Derivable a c := by
  rcases h with ⟨null, _⟩ | ⟨_, e, xs, cs, rfl, reaches, hlength, _⟩
  · cases null
  · obtain ⟨rfl, rfl⟩ := Instance.mk.inj (reaches_eq reaches fun k => coherent.extends_object rfl)
    obtain rfl : cs = [] := by simpa using hlength.symm
    rcases shape with ⟨ps, t, rfl⟩ | ⟨fs, rfl⟩
    · exact ⟨1, .func_object⟩
    · exact ⟨1, .record_object⟩

include ih left valid known right

theorem cut_interface {xs : List Ty} (notNull : d ≠ .null)
    (hb : b = .interface e bs) (ha : a = .interface d as) (reaches : P.Reaches ⟨d, as⟩ ⟨e, xs⟩)
    (hxs : xs.length = bs.length) (args : ∀ x ∈ xs.zip bs, P.Derives i x.1 x.2)
    (h : P.LeftPremise j c b) : P.Derivable a c := by
  subst ha hb
  rcases h with ⟨null, _⟩ | ⟨_, f, ys, cs, rfl, super, hys, premises⟩
  · cases coherent.null_of_reaches (i := ⟨d, as⟩) left.valid reaches null
    exact absurd null notNull
  · have cut (x : Ty × Ty) (hx : x ∈ xs.zip bs) : P.Cut (j + 1) x.1 x.2 := by
      obtain ⟨hxs, hbs⟩ := List.of_mem_zip hx
      have fits := coherent.fits_of_reaches left reaches _ hxs
      have validB := (valid_interface.1 valid).2 _ hbs
      have knownB := (Ty.every_interface.1 known).2 _ hbs
      refine ⟨knownB, (args x hx).derivable, ?_⟩
      intro n hn c right h
      exact ih i n _ _ _ (by omega) fits validB knownB right (args x hx) h
    obtain ⟨⟨_, zs⟩, reaches', rfl, _, hzs, related⟩ := coherent.reaches_lift
      (i := ⟨e, xs⟩) (j := ⟨e, bs⟩) (k := ⟨f, ys⟩)
      ⟨rfl, hxs ▸ (valid_interface.1 valid).1, hxs, fun x hx => .base (cut x hx)⟩ super
    obtain ⟨lifts, _⟩ := lifts coherent cut_liftable (k := j + 1) (n := j)
      (fun n hn a b c h => h.2.2 n hn c) (by omega)
    apply Derivable.interface notNull (reaches.trans reaches') (hzs.trans hys)
    intro x hx
    obtain ⟨y, first, second⟩ := exists_zip_of_zip hzs hx
    exact lifts _ _ _ (related (x.1, y) first) (right.args _ (List.of_mem_zip hx).2)
      (premises (y, x.2) second)

theorem cut_premises (ha : P.RightPremise i a b) (hc : P.LeftPremise j c b) :
    P.Derivable a c := by
  cases b with
  | nullable u =>
    exact ih i j a u c (by omega) left (valid_nullable.1 valid) (Ty.every_nullable.1 known).2
      right ha.2 hc.1
  | futureOr u =>
    have valid := valid_futureOr.1 valid
    have known := (Ty.every_futureOr.1 known).2
    obtain ⟨_, future | premise⟩ := ha
    · have knownFuture : (Ty.future u).Known :=
        Ty.every_interface.2 ⟨by simp, List.forall_mem_singleton.2 known⟩
      exact ih i j a _ c (by omega) left (coherent.valid_future valid) knownFuture right future hc.1
    · exact ih i j a u c (by omega) left valid known right premise hc.2
  | promoted p bound =>
    obtain ⟨validParam, valid⟩ := valid_promoted.1 valid
    obtain ⟨_, param, premise⟩ := ha
    rcases hc with hc | hc
    · exact ih i j a _ c (by omega) left validParam (Ty.every_param.2 (by simp)) right param hc
    · exact ih i j a _ c (by omega) left valid (Ty.every_promoted.1 known).2 right premise hc
  | interface e bs =>
    rcases ha with ⟨shape, object⟩ | ⟨d, as, xs, ha, notNull, reaches, hxs, premises⟩
    · exact cut_object coherent shape (object ▸ hc)
    · exact cut_interface coherent ih left valid known right notNull rfl ha reaches hxs premises hc
  | func qs u =>
    obtain ⟨ps, t, rfl, hps, premisesA, premiseA⟩ := ha
    rcases hc with rfl | ⟨rs, v, rfl, hrs, premisesC, premiseC⟩
    · exact ⟨1, .func_object⟩
    obtain ⟨validParams, valid⟩ := valid_func.1 valid
    obtain ⟨_, knownParams, known⟩ := Ty.every_func.1 known
    -- the parameters are cut the other way around
    refine .func (hps.trans hrs) (fun x hx => ?_)
      (ih i j t u v (by omega) left.result valid known right.result premiseA premiseC)
    obtain ⟨y, first, second⟩ := exists_zip_of_zip hps hx
    have hy := (List.of_mem_zip first).2
    exact ih j i _ y _ (by omega) (right.params _ (List.of_mem_zip hx).2) (validParams y hy)
      (knownParams y hy) (left.params _ (List.of_mem_zip hx).1) (premisesC (y, x.2) second)
      (premisesA (x.1, y) first)
  | record gs =>
    obtain ⟨fs, rfl, hfs, premisesA⟩ := ha
    rcases hc with rfl | ⟨hs, rfl, hhs, premisesC⟩
    · exact ⟨1, .record_object⟩
    apply Derivable.record (hfs.trans hhs)
    intro x hx
    obtain ⟨y, first, second⟩ := exists_zip_of_zip hfs hx
    have hy := (List.of_mem_zip first).2
    exact ih i j _ y _ (by omega) (left.fields _ (List.of_mem_zip hx).1)
      (valid_record.1 valid y hy) ((Ty.every_record.1 known).2 y hy)
      (right.fields _ (List.of_mem_zip hx).2) (premisesA (x.1, y) first) (premisesC (y, x.2) second)
  | _ => cases ha

theorem cut_above (above : c.isAboveBounds) (hc : c ≠ .unknown) (hab : P.Derives (i + 1) a b)
    (hbc : P.Derives (j + 1) b c) : P.Derivable a c := by
  rcases hbc.split_right coherent right with taken | premiseC
  · exact taken _ hab.derivable fun d fits h =>
      ih (i + 1) j a b d (by omega) left valid known fits hab h
  rcases hab.split_left coherent left with taken | rfl | unknown | premiseA
  · refine taken c (fun isTop => ?_) (fun accepts => ?_) (fun _ => above) fun d fits h => ?_
    · exact Ty.isTop_of_topLike right.clear hc (coherent.topLike_of_derives hbc known isTop)
    · exact hbc.acceptsNull (known.isNullable accepts)
    · exact ih i (j + 1) d b c (by omega) fits valid known right h hbc
  · exact hbc.derivable
  · exact absurd unknown known.ne_unknown
  · exact cut_premises coherent ih left valid known right premiseA premiseC

theorem cut_step (hab : P.Derives (i + 1) a b) (hbc : P.Derives (j + 1) b c) :
    P.Derivable a c := by
  cases c with
  | unknown => exact .unknown_right
  | never =>
    rcases hbc.below_never rfl with rfl | unknown
    · exact hab.derivable
    · exact absurd unknown known.ne_unknown
  | promoted p bound =>
    rcases hbc.below_promoted with rfl | unknown | rfl | ⟨param, h⟩
    · exact hab.derivable
    · exact absurd unknown known.ne_unknown
    · rcases hab.below_never rfl with rfl | rfl
      · exact ⟨1, .never⟩
      · exact .unknown_left
    · exact Derivable.promoted
        (ih (i + 1) j a b _ (by omega) left valid known right.param_of_promoted hab param)
        (ih (i + 1) j a b _ (by omega) left valid known right.of_promoted hab h)
  | _ => exact cut_above coherent ih left valid known right rfl (by simp) hab hbc

end Step

theorem Coherent.cutBelow (coherent : P.Coherent) (k : Nat) : P.CutBelow k := by
  induction k with
  | zero => exact fun _ _ _ _ _ h => absurd h (by omega)
  | succ k ih =>
    intro i j a b c hij left valid known right hab hbc
    match i, j with
    | 0, _ => cases hab
    | _, 0 => cases hbc
    | i + 1, j + 1 =>
      have ih : P.CutBelow (i + j + 2) := fun i' j' a b c h => ih i' j' a b c (by omega)
      exact cut_step coherent ih left valid known right hab hbc

theorem Coherent.derivable_trans (coherent : P.Coherent) (left : P.Fits false a) (valid : P.Valid b)
    (known : b.Known) (right : P.Fits true c) (hab : P.Derivable a b) (hbc : P.Derivable b c) :
    P.Derivable a c := by
  obtain ⟨i, hab⟩ := hab
  obtain ⟨j, hbc⟩ := hbc
  exact coherent.cutBelow _ _ _ a b c (Nat.lt_succ_self _) left valid known right hab hbc

/-- Subtyping is transitive, although the check has no rule for that. Only the type in the middle
    has to be without placeholders. -/
theorem subtype_trans (coherent : P.Coherent) (left : P.Fits false a) (valid : P.Valid b)
    (known : b.Known) (right : P.Fits true c)
    (hab : ∃ limit, P.isSubtype limit a b = .ok true)
    (hbc : ∃ limit, P.isSubtype limit b c = .ok true) :
    ∃ limit, P.isSubtype limit a c = .ok true := by
  obtain ⟨i, hab⟩ := hab
  obtain ⟨j, hbc⟩ := hbc
  have hab := coherent.derives_of_subtype left.valid valid hab
  have hbc := coherent.derives_of_subtype valid right.valid hbc
  obtain ⟨n, h⟩ := coherent.cutBelow _ _ _ a b c (Nat.lt_succ_self _) left valid known right hab hbc
  exact ⟨2 * n, coherent.subtype_of_derives left.valid right.valid h (by omega)⟩

theorem core_list_below_futureOr :
    ∃ limit, core.isSubtype limit (.interface ⟨10⟩ [.interface ⟨5⟩ []])
      (.futureOr (.interface ⟨9⟩ [.interface ⟨3⟩ [.interface ⟨4⟩ []]])) = .ok true :=
  subtype_trans (b := .interface ⟨9⟩ [.interface ⟨4⟩ []]) coherent_core
    ⟨by decide, by decide⟩ (by decide) (by decide) ⟨by decide, by decide⟩ ⟨3, rfl⟩ ⟨4, rfl⟩

/-- Whether the last type is not above the first, although the one in the middle is between them. -/
def Gap (P : Program) (a b c : Ty) : Prop :=
  (∀ t ∈ [a, b, c], P.Valid t ∧ t.Known) ∧ (∃ limit, P.isSubtype limit a b = .ok true) ∧
    (∃ limit, P.isSubtype limit b c = .ok true) ∧ ∀ limit, P.isSubtype limit a c = .ok false

/-- Classes of which one extends `Null`, and two have supertypes that promoted parameters of others
    or contravariant parameters occur in. -/
def irregular : Program where
  types := .ofList
    [coreClass "Object" [] [],
      coreClass "Null" [] [],
      coreClass "Future" [⟨0⟩] [],
      coreClass "Nothing" [] [.null],
      coreClass "Sink" [⟨1⟩] [],
      coreClass "Feed" [⟨2⟩] [.interface ⟨4⟩ [.func [.param ⟨2⟩] .void]],
      coreClass "Box" [⟨3⟩] [.interface ⟨4⟩ [.promoted ⟨0⟩ (.param ⟨3⟩)]],
      coreClass "Crate" [] [.interface ⟨6⟩ [.unknown]]]
  params := .ofList [⟨"T", none⟩, ⟨"E", none⟩, ⟨"E", none⟩, ⟨"E", none⟩]
  decls := .empty
  libraries := initial.libraries

/-- That no type has two supertypes that are instances of one declaration is not enough: there are
    gaps where a top type is not recognized, where `Null` is extended, and where a declared
    supertype has contravariant parameters or promoted ones of others. -/
theorem irregular_gaps :
    (∀ i j, irregular.Extends i j → ¬ irregular.Reaches j i) ∧
    (∀ i j k, irregular.Reaches i j → irregular.Reaches i k → j.decl = k.decl → j = k) ∧
    (∀ e d, irregular.types.get? e = some d → ∀ t ∈ d.supers, irregular.Valid t) ∧
    irregular.Gap .dynamic (.nullable .object) (.nullable (.futureOr .object)) ∧
    irregular.Gap (.interface ⟨3⟩ []) .null (.nullable (.record [])) ∧
    irregular.Gap (.interface ⟨5⟩ [.never]) (.interface ⟨5⟩ [.object])
      (.interface ⟨4⟩ [.func [.object] .void]) ∧
    irregular.Gap (.interface ⟨7⟩ []) (.interface ⟨6⟩ [.never])
      (.interface ⟨4⟩ [.promoted ⟨0⟩ .never]) := by
  have linear : irregular.Linear fun e => [0, 0, 1, 1, 1, 2, 2, 3].getD e.val 0 := by decide
  refine ⟨fun _ _ => linear.acyclic, fun _ _ _ => linear.unique, by decide, ?top, ?null,
    ?contravariant, ?promoted⟩
  case top => exact ⟨by decide, ⟨0, rfl⟩, ⟨3, rfl⟩, fun _ => rfl⟩
  case null => exact ⟨by decide, ⟨1, rfl⟩, ⟨1, rfl⟩, fun | 0 => rfl | _ + 1 => rfl⟩
  case contravariant =>
    exact ⟨by decide, ⟨1, rfl⟩, ⟨3, rfl⟩, fun | 0 => rfl | 1 => rfl | _ + 2 => rfl⟩
  case promoted =>
    exact ⟨by decide, ⟨1, rfl⟩, ⟨3, rfl⟩, fun | 0 => rfl | 1 => rfl | 2 => rfl | _ + 3 => rfl⟩

end MemberAccess.Program
