import MemberAccess.Proofs.Typing.Derivation

/-!
Properties of types that questions about subtypes preserve. Where a type has such a property,
everything it is compared by has it as well, so that each table entry that is looked up on the way
is there and the check comes to an answer, whatever its limit is.
-/
namespace MemberAccess.Program

/-- A property that passes from types to their bounds and to their supertypes, which are all
    declared. -/
structure Closed (P : Program) (φ : Ty → Prop) : Prop extends Ty.Headed φ where
  object : φ .object
  future : ∀ t, φ (.future t)
  bounds : ∀ p, φ (.param p) → Yields (P.boundOf p) (Ty.Every φ)
  supertypes : ∀ i : Instance, i.type.Every φ →
    Yields (P.supertypes i) fun found => ∀ j ∈ found, j.type.Every φ

variable {P : Program} {φ : Ty → Prop} {n : Nat} {a b t u : Ty} {d e : TypeId} {p : ParamId}
  {as bs : List Ty}

theorem exists_pairwise_eq_ok {holds : Ty → Ty → Except Fault Bool}
    (h : ∀ x ∈ as.zip bs, ∃ answer, holds x.1 x.2 = .ok answer) :
    ∃ answer, pairwise holds as bs = .ok answer := by
  unfold pairwise
  split
  · exact exists_allM_eq_ok h
  · exact ⟨false, rfl⟩

theorem Coherent.closed (coherent : P.Coherent) : P.Closed (P.hasHead ·) where
  toHeaded := headed_hasHead
  object := coherent.valid_object.self
  future t := (coherent.valid_future (t := .dynamic) (by simp [Valid, hasHead])).self
  bounds p hp := by
    obtain ⟨bound, hbound⟩ := exists_boundOf (P := P) (p := p) (by simpa [Valid] using hp)
    exact ⟨bound, hbound, coherent.valid_boundOf hbound⟩
  supertypes i valid := by
    obtain ⟨found, hfound, all⟩ := coherent.supertypes_eq_ok valid
    exact ⟨found, hfound, fun j hj => coherent.valid_of_reaches valid ((all j).1 hj)⟩

namespace Closed

variable (closed : P.Closed φ)

include closed

theorem every_object : Ty.object.Every φ := Ty.every_interface.2 ⟨closed.object, by simp⟩

theorem every_future (h : t.Every φ) : (Ty.future t).Every φ :=
  Ty.every_interface.2 ⟨closed.future t, by simpa using h⟩

theorem every_param (h : (Ty.promoted p t).Every φ) : (Ty.param p).Every φ :=
  Ty.every_param.2 ((closed.promoted p t).1 h.self)

theorem superArgs (h : (Ty.interface d as).Every φ) :
    Yields (P.superArgs? ⟨d, as⟩ e) fun args => ∀ xs, args = some xs → ∀ x ∈ xs, x.Every φ := by
  refine (closed.supertypes ⟨d, as⟩ h).bind fun found all => yields_pure ?_
  intro xs hxs
  obtain ⟨j, hj, rfl⟩ := Option.map_eq_some_iff.1 hxs
  exact (Ty.every_interface.1 (all j (List.mem_of_find?_eq_some hj))).2

theorem isNonNull_answered (h : t.Every φ) : ∃ answer, P.isNonNull n t = .ok answer := by
  induction n generalizing t with
  | zero => exact ⟨false, rfl⟩
  | succ n ih =>
    cases t with
    | interface d as =>
      obtain ⟨args, hargs, _⟩ := closed.superArgs (e := .object) h
      exact ⟨args.isSome, by simp [isNonNull, hargs]⟩
    | futureOr t => exact ih (Ty.every_futureOr.1 h).2
    | param p =>
      obtain ⟨bound, hbound, every⟩ := closed.bounds p h.self
      obtain ⟨answer, hanswer⟩ := ih every
      exact ⟨answer, by simp [isNonNull, hbound, hanswer]⟩
    | promoted p bound =>
      exact exists_branch_eq_ok (ih (Ty.every_promoted.1 h).2) ⟨true, rfl⟩
        (ih (closed.every_param h))
    | _ => exact ⟨_, rfl⟩

theorem shape_answered (ha : a.Every φ) (hb : b.Every φ)
    (ih : ∀ a b, a.Every φ → b.Every φ → ∃ answer, P.subtype n a b = .ok answer) :
    ∃ answer, P.subtypeByShape (P.subtype n) a b = .ok answer := by
  unfold subtypeByShape
  split
  · obtain ⟨bound, hbound, every⟩ := closed.bounds _ ha.self
    rw [hbound]
    exact ih _ _ every hb
  · exact exists_branch_eq_ok (ih _ _ (closed.every_param ha) hb) ⟨true, rfl⟩
      (ih _ _ (Ty.every_promoted.1 ha).2 hb)
  · next d as e bs =>
    obtain ⟨args, hargs, every⟩ := closed.superArgs (e := e) ha
    rw [hargs]
    cases args with
    | none => exact ⟨false, rfl⟩
    | some xs =>
      apply exists_pairwise_eq_ok
      intro x hx
      obtain ⟨left, right⟩ := List.of_mem_zip hx
      exact ih _ _ (every xs rfl _ left) ((Ty.every_interface.1 hb).2 _ right)
  · obtain ⟨_, paramsA, resultA⟩ := Ty.every_func.1 ha
    obtain ⟨_, paramsB, resultB⟩ := Ty.every_func.1 hb
    refine exists_branch_eq_ok (exists_pairwise_eq_ok fun x hx => ?_) (ih _ _ resultA resultB)
      ⟨false, rfl⟩
    obtain ⟨left, right⟩ := List.of_mem_zip hx
    exact ih _ _ (paramsB _ right) (paramsA _ left)
  · apply exists_pairwise_eq_ok
    intro x hx
    obtain ⟨left, right⟩ := List.of_mem_zip hx
    exact ih _ _ ((Ty.every_record.1 ha).2 _ left) ((Ty.every_record.1 hb).2 _ right)
  · exact ⟨false, rfl⟩

theorem subtype_answered (ha : a.Every φ) (hb : b.Every φ) :
    ∃ answer, P.subtype n a b = .ok answer := by
  induction n generalizing a b with
  | zero => exact ⟨false, rfl⟩
  | succ n ih =>
    have shape := closed.shape_answered ha hb (n := n) fun _ _ => ih
    rw [subtype_succ]
    split
    · exact ⟨true, rfl⟩
    split
    · exact ⟨true, rfl⟩
    split
    · exact ⟨false, rfl⟩
    split
    · exact ⟨_, rfl⟩
    split
    · exact closed.isNonNull_answered ha
    unfold subtypeByUnion
    split
    · exact exists_branch_eq_ok (ih (Ty.every_nullable.1 ha).2 hb) ⟨_, rfl⟩ ⟨false, rfl⟩
    · have every := (Ty.every_futureOr.1 ha).2
      exact exists_branch_eq_ok (ih (closed.every_future every) hb) (ih every hb) ⟨false, rfl⟩
    · exact exists_branch_eq_ok (ih ha (Ty.every_nullable.1 hb).2) ⟨true, rfl⟩ shape
    · have every := (Ty.every_futureOr.1 hb).2
      exact exists_branch_eq_ok (ih ha (closed.every_future every)) ⟨true, rfl⟩
        (exists_branch_eq_ok (ih ha every) ⟨true, rfl⟩ shape)
    · exact exists_branch_eq_ok (ih ha (closed.every_param hb))
        (ih ha (Ty.every_promoted.1 hb).2) ⟨false, rfl⟩
    · exact shape

theorem isSubtype_answered (limit : Nat) (ha : a.Every φ) (hb : b.Every φ) :
    ∃ answer, P.isSubtype limit a b = .ok answer := closed.subtype_answered ha hb

end Closed

end MemberAccess.Program
