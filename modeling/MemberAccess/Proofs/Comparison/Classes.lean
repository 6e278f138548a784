import Mathlib.Data.Fintype.EquivFin
import Mathlib.Order.WellFounded
import MemberAccess.Proofs.Typing.Completeness

/-!
Hierarchies of classes without type parameters. If no class is below itself and none is below
`Null`, the subtypes among the classes and their nullable forms are those that the declared
supertypes amount to, from the limit 2 on: a question mark may be added but not lost.
-/
namespace MemberAccess

def TypeId.plain (c : TypeId) : Ty := .interface c []

def Ty.marked (optional : Bool) (t : Ty) : Ty := if optional then .nullable t else t

namespace Program

variable {P : Program} {classes : TypeId → Prop} {c d e : TypeId} {n limit : Nat} {q r : Bool}

def Inherits (P : Program) (c d : TypeId) : Prop := P.Reaches ⟨c, []⟩ ⟨d, []⟩

/-- Classes, mixins and enums without type parameters whose supertypes are among them. -/
structure ClassHierarchy (P : Program) (classes : TypeId → Prop) : Prop where
  object : classes .object
  declared : ∀ c, classes c → ∃ d, P.types.get? c = some d ∧ d.params = [] ∧ d.kind ≠ .viewKind ∧
    ∀ t ∈ d.supers, ∃ e, classes e ∧ t = e.plain
  acyclic : ∀ c, classes c → ¬ Relation.TransGen P.Extends ⟨c, []⟩ ⟨c, []⟩
  notNull : ∀ c, classes c → ¬ P.Inherits c .null

theorem Inherits.trans (first : P.Inherits c d) (second : P.Inherits d e) : P.Inherits c e :=
  Relation.ReflTransGen.trans first second

theorem marked_plain_inj (h : Ty.marked q c.plain = .marked r d.plain) : q = r ∧ c = d := by
  cases q <;> cases r <;> simp_all [Ty.marked, TypeId.plain]

@[simp] theorem substitute_plain (s : Substitution) : e.plain.substitute s = e.plain := by
  simp [Ty.substitute, TypeId.plain, Ty.replace, Ty.replaceAll]

theorem extends_plain {decl : TypeDecl} {j : Instance} (hdecl : P.types.get? c = some decl)
    (supers : ∀ t ∈ decl.supers, ∃ e, classes e ∧ t = e.plain) (h : P.Extends ⟨c, []⟩ j) :
    (∃ e, classes e ∧ e.plain ∈ decl.supers ∧ j = ⟨e, []⟩) ∨
      decl.extendsObject c ∧ j = ⟨.object, []⟩ := by
  obtain ⟨d, hd, hj⟩ := h
  rw [hdecl] at hd
  cases hd
  rcases mem_directSupers.1 hj with ⟨t, ht, substituted⟩ | implicit
  · obtain ⟨e, he, rfl⟩ := supers t ht
    rw [substitute_plain] at substituted
    cases j
    cases substituted
    exact .inl ⟨_, he, ht, rfl⟩
  · exact .inr implicit

namespace ClassHierarchy

theorem of_rank (rank : TypeId → Nat) (object : classes .object) (null : ¬ classes .null)
    (declared : ∀ c, classes c → ∃ d, P.types.get? c = some d ∧ d.params = [] ∧
      d.kind ≠ .viewKind ∧ (∀ t ∈ d.supers, ∃ e, classes e ∧ rank e < rank c ∧ t = e.plain) ∧
      (c ≠ .object → rank .object < rank c)) : P.ClassHierarchy classes := by
  have step (c : TypeId) (hc : classes c) (j : Instance) (h : P.Extends ⟨c, []⟩ j) :
      ∃ e, classes e ∧ rank e < rank c ∧ j = ⟨e, []⟩ := by
    obtain ⟨d, hd, _, _, supers, root⟩ := declared c hc
    have listed : ∀ t ∈ d.supers, ∃ e, (classes e ∧ rank e < rank c) ∧ t = e.plain := by
      simpa only [and_assoc] using supers
    rcases extends_plain hd listed h with ⟨e, ⟨he, lower⟩, _, rfl⟩ | ⟨up, rfl⟩
    · exact ⟨e, he, lower, rfl⟩
    · exact ⟨_, object, root (by simp_all [TypeDecl.extendsObject]), rfl⟩
  have above {c : TypeId} (hc : classes c) {j : Instance}
      (h : Relation.TransGen P.Extends ⟨c, []⟩ j) :
      ∃ e, classes e ∧ rank e < rank c ∧ j = ⟨e, []⟩ := by
    induction h with
    | single first => exact step c hc _ first
    | tail _ last ih =>
      obtain ⟨e, he, lower, rfl⟩ := ih
      obtain ⟨o, ho, lower', rfl⟩ := step e he _ last
      exact ⟨o, ho, lower'.trans lower, rfl⟩
  refine ⟨object, fun c hc => ?_, fun c hc h => ?_, fun c hc h => ?_⟩
  · obtain ⟨d, hd, params, notView, supers, _⟩ := declared c hc
    refine ⟨d, hd, params, notView, fun t ht => ?_⟩
    obtain ⟨e, he, _, same⟩ := supers t ht
    exact ⟨e, he, same⟩
  · obtain ⟨_, _, lower, same⟩ := above hc h
    cases same
    exact lt_irrefl _ lower
  · rcases Relation.reflTransGen_iff_eq_or_transGen.1 h with same | steps
    · cases same
      exact null hc
    · obtain ⟨_, he, _, same⟩ := above hc steps
      cases same
      exact null he

variable (hierarchy : P.ClassHierarchy classes)

include hierarchy

theorem ne_null (hc : classes c) : c ≠ .null := by
  rintro rfl
  exact hierarchy.notNull _ hc .refl

theorem region : P.Region fun i => classes i.decl ∧ i.args = [] where
  declared i hi := by
    obtain ⟨d, hd, _⟩ := hierarchy.declared i.decl hi.1
    exact ⟨d, hd⟩
  supers := by
    rintro ⟨c, _⟩ j ⟨hc, rfl⟩ h
    obtain ⟨d, hd, _, _, supers⟩ := hierarchy.declared c hc
    rcases extends_plain hd supers h with ⟨e, he, _, rfl⟩ | ⟨_, rfl⟩
    · exact ⟨he, rfl⟩
    · exact ⟨hierarchy.object, rfl⟩

theorem inherits_object (hc : classes c) : P.Inherits c .object := by
  let above (d c : { c // classes c }) : Prop := Relation.TransGen P.Extends ⟨c, []⟩ ⟨d, []⟩
  have : Finite { c // classes c } := by
    have inRange (c : { c // classes c }) : c.1.val < P.types.size := by
      obtain ⟨d, hd, _⟩ := hierarchy.declared c c.2
      exact lt_size_of_get? hd
    refine Finite.of_injective (fun c => (⟨c.1.val, inRange c⟩ : Fin P.types.size)) ?_
    rintro ⟨⟨c⟩, _⟩ ⟨⟨d⟩, _⟩ same
    simpa using same
  have : IsTrans _ above := ⟨fun _ _ _ first second => second.trans first⟩
  have : Std.Irrefl above := ⟨fun c => hierarchy.acyclic c c.2⟩
  suffices all : ∀ c : { c // classes c }, P.Inherits c .object from all ⟨c, hc⟩
  intro c
  induction c using (Finite.wellFounded_of_trans_of_irrefl above).induction with
  | _ c ih =>
    obtain ⟨d, hd, _, notView, supers⟩ := hierarchy.declared c c.2
    cases declared : d.supers with
    | nil =>
      by_cases root : c.1 = .object
      · rw [root]
        exact .refl
      · have implicit : d.extendsObject c = true := by
          simp [TypeDecl.extendsObject, declared, notView, root, hierarchy.ne_null c.2]
        exact .single ⟨d, hd, mem_directSupers.2 (.inr ⟨implicit, rfl⟩)⟩
    | cons t ts =>
      obtain ⟨e, he, rfl⟩ := supers t (by simp [declared])
      have direct : P.Extends ⟨c, []⟩ ⟨e, []⟩ :=
        ⟨d, hd, mem_directSupers.2 (.inl ⟨e.plain, by simp [declared], substitute_plain _⟩)⟩
      exact .head direct (ih ⟨e, he⟩ (.single direct))

theorem superArgs_class (hc : classes c) (e : TypeId) :
    P.superArgs? ⟨c, []⟩ e = .ok (some []) ∧ P.Inherits c e ∨
      P.superArgs? ⟨c, []⟩ e = .ok none ∧ ¬ P.Inherits c e := by
  have plain (j : Instance) (h : P.Reaches ⟨c, []⟩ j) : j.args = [] :=
    (hierarchy.region.reaches (i := ⟨c, []⟩) ⟨hc, rfl⟩ h).2
  obtain ⟨args, hargs, all⟩ := hierarchy.region.superArgs_eq_ok (i := ⟨c, []⟩) ⟨hc, rfl⟩
    (fun ⟨j, xs⟩ ⟨k, ys⟩ hj hk same => by
      cases same
      cases plain _ hj
      cases plain _ hk
      rfl) e
  cases args with
  | none => exact .inr ⟨hargs, fun inherits => by cases (all []).2 inherits⟩
  | some xs =>
    have reaches := (all xs).1 rfl
    obtain rfl : xs = [] := plain _ reaches
    exact .inl ⟨hargs, reaches⟩

theorem isNonNull_class (hc : classes c) : P.isNonNull (n + 1) c.plain = .ok true := by
  rcases hierarchy.superArgs_class hc .object with ⟨found, _⟩ | ⟨_, none⟩
  · rw [TypeId.plain, isNonNull, found]
    rfl
  · exact absurd (hierarchy.inherits_object hc) none

theorem shape_class (hc : classes c) (le : Ty → Ty → Except Fault Bool) :
    Yields (P.subtypeByShape le c.plain d.plain) (· = true ↔ P.Inherits c d) := by
  rcases hierarchy.superArgs_class hc d with ⟨found, inherits⟩ | ⟨found, not⟩
  · exact ⟨true, by simp [TypeId.plain, subtypeByShape, found, pairwise], by simpa⟩
  · exact ⟨false, by simp [TypeId.plain, subtypeByShape, found], by simpa⟩

/-- Only the question whether a class is below `Object` takes a level more. -/
theorem subtype_plain (hc : classes c) (enough : d = .object → n ≠ 0) :
    Yields (P.subtype (n + 1) c.plain d.plain) (· = true ↔ P.Inherits c d) := by
  have notNull := hierarchy.ne_null hc
  by_cases same : c = d
  · subst same
    exact ⟨true, subtype_of_easy (.inl rfl), iff_of_true rfl .refl⟩
  by_cases object : d = .object
  · subst object
    obtain ⟨n, rfl⟩ := Nat.exists_eq_succ_of_ne_zero (enough rfl)
    have asked : P.subtype (n + 2) c.plain TypeId.object.plain = P.isNonNull (n + 1) c.plain := by
      rw [subtype_succ]
      simp [TypeId.plain, same, notNull, Ty.isTop, Ty.isNull, Ty.isObject]
    rw [asked, hierarchy.isNonNull_class hc]
    exact ⟨true, rfl, iff_of_true rfl (hierarchy.inherits_object hc)⟩
  · have shape : P.subtype (n + 1) c.plain d.plain =
        P.subtypeByShape (P.subtype n) c.plain d.plain := by
      rw [subtype_succ]
      simp [TypeId.plain, same, object, notNull, Ty.isTop, Ty.isNull, Ty.isObject, subtypeByUnion]
    rw [shape]
    exact hierarchy.shape_class hc (P.subtype n)

theorem subtype_nullable_right (hc : classes c) :
    Yields (P.subtype (n + 2) c.plain (.nullable d.plain)) (· = true ↔ P.Inherits c d) := by
  have notNull := hierarchy.ne_null hc
  by_cases object : d = .object
  · subst object
    exact ⟨true, subtype_of_easy (by simp [TypeId.plain, Ty.isTop, Ty.isObject]),
      iff_of_true rfl (hierarchy.inherits_object hc)⟩
  have rules : P.subtype (n + 2) c.plain (.nullable d.plain) =
      (do if ← P.subtype (n + 1) c.plain d.plain then pure true else pure false) := by
    rw [subtype_succ]
    simp [TypeId.plain, object, notNull, Ty.isTop, Ty.isNull, Ty.isObject, subtypeByUnion,
      subtypeByShape]
  obtain ⟨answer, found, iff⟩ := hierarchy.subtype_plain (n := n) hc (fun h => absurd h object)
  rw [rules, found]
  cases answer <;> exact ⟨_, rfl, iff⟩

theorem subtype_nullable_left (hc : classes c) (hd : classes d) :
    P.subtype (n + 2) (.nullable c.plain) d.plain = .ok false := by
  have notNull := hierarchy.ne_null hd
  by_cases object : d = .object
  · subst object
    rw [subtype_succ]
    simp [TypeId.plain, Ty.isTop, Ty.isNull, Ty.isObject, isNonNull]
  have rules : P.subtype (n + 2) (.nullable c.plain) d.plain =
      (do if ← P.subtype (n + 1) c.plain d.plain then pure false else pure false) := by
    rw [subtype_succ]
    simp [TypeId.plain, object, notNull, Ty.isTop, Ty.isNull, Ty.isObject, subtypeByUnion,
      Ty.admitsNull]
  obtain ⟨answer, found, _⟩ := hierarchy.subtype_plain (n := n) hc (fun h => absurd h object)
  rw [rules, found]
  cases answer <;> rfl

theorem subtype_nullable (hc : classes c) :
    Yields (P.subtype (n + 3) (.nullable c.plain) (.nullable d.plain))
      (· = true ↔ P.Inherits c d) := by
  by_cases same : c = d
  · subst same
    exact ⟨true, subtype_of_easy (.inl rfl), iff_of_true rfl .refl⟩
  by_cases object : d = .object
  · subst object
    exact ⟨true, subtype_of_easy (by simp [TypeId.plain, Ty.isTop, Ty.isObject]),
      iff_of_true rfl (hierarchy.inherits_object hc)⟩
  have rules : P.subtype (n + 3) (.nullable c.plain) (.nullable d.plain) =
      (do if ← P.subtype (n + 2) c.plain (.nullable d.plain) then pure true else pure false) := by
    rw [subtype_succ]
    simp [TypeId.plain, same, object, Ty.isTop, Ty.isNull, Ty.isObject, subtypeByUnion,
      Ty.admitsNull]
  obtain ⟨answer, found, iff⟩ := hierarchy.subtype_nullable_right (n := n) (d := d) hc
  rw [rules, found]
  cases answer <;> exact ⟨_, rfl, iff⟩

theorem isSubtype_marked (hc : classes c) (hd : classes d) (enough : 2 ≤ limit) :
    Yields (P.isSubtype limit (.marked q c.plain) (.marked r d.plain))
      (· = true ↔ P.Inherits c d ∧ (q = true → r = true)) := by
  obtain ⟨n, rfl⟩ : ∃ n, limit = n + 2 := ⟨limit - 2, by omega⟩
  cases q with
  | false =>
    cases r with
    | false => simpa [Ty.marked, isSubtype] using hierarchy.subtype_plain (n := n + 2) hc (by simp)
    | true => simpa [Ty.marked, isSubtype] using hierarchy.subtype_nullable_right (n := n + 1) hc
  | true =>
    cases r with
    | false => exact ⟨false, hierarchy.subtype_nullable_left hc hd, by simp⟩
    | true => simpa [Ty.marked, isSubtype] using hierarchy.subtype_nullable (n := n) hc

end ClassHierarchy

end Program

end MemberAccess
