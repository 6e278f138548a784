import MemberAccess.Proofs.Typing.Answers
import MemberAccess.Visibility

/-!
Programs whose indices are in range. In such a program the walk to the supertypes of a type finds an
entry for every declaration it comes to, even where types have the wrong number of arguments, so
that questions about types that are in range lead to types that are in range only.
-/
namespace MemberAccess

def Receiver.types : Receiver → List Ty
  | .value type => [type]
  | .shorthand expected operand => expected :: operand.toList

def Form.types : Form → List Ty
  | .get => []
  | .set value => [value.type]
  | .call a => a.types.getD [] ++ a.all.map (·.type)

def Site.types (s : Site) : List Ty := s.receiver.types ++ s.form.types

namespace Program

def headInRange (P : Program) : Ty → Bool
  | .interface d _ => (P.types.get? d).isSome
  | .param p | .promoted p _ => (P.params.get? p).isSome
  | _ => true

def InRange (P : Program) (t : Ty) : Prop := t.Every (P.headInRange ·)

instance (P : Program) (t : Ty) : Decidable (P.InRange t) := inferInstanceAs (Decidable (t.Every _))

/-- The results of members are never looked at. -/
def SignatureInRange (P : Program) (sig : Signature) : Prop :=
  (∀ p ∈ sig.params, (P.params.get? p).isSome) ∧ (∀ t ∈ sig.positional, P.InRange t) ∧
    ∀ p ∈ sig.named, P.InRange p.type

def BodyInRange (P : Program) : DeclBody → Prop
  | .extension receiver => P.InRange receiver
  | .view type representation _ => (P.types.get? type).isSome ∧ P.InRange representation
  | .shorthand target => (P.types.get? target).isSome

structure DeclInRange (P : Program) (d : Decl) : Prop where
  params : ∀ p ∈ d.params, (P.params.get? p).isSome
  body : P.BodyInRange d.body
  members : ∀ i m, d.members.get? i = some m → P.SignatureInRange m.sig

instance (P : Program) (sig : Signature) : Decidable (P.SignatureInRange sig) :=
  inferInstanceAs (Decidable (_ ∧ _ ∧ _))

instance (P : Program) : (body : DeclBody) → Decidable (P.BodyInRange body)
  | .extension receiver => inferInstanceAs (Decidable (P.InRange receiver))
  | .view type representation _ =>
    inferInstanceAs (Decidable ((P.types.get? type).isSome ∧ P.InRange representation))
  | .shorthand target => inferInstanceAs (Decidable (P.types.get? target).isSome)

instance (P : Program) (d : Decl) : Decidable (P.DeclInRange d) :=
  decidable_of_iff ((∀ p ∈ d.params, (P.params.get? p).isSome) ∧ P.BodyInRange d.body ∧
      ∀ i m, d.members.get? i = some m → P.SignatureInRange m.sig)
    ⟨fun h => ⟨h.1, h.2.1, h.2.2⟩, fun h => ⟨h.params, h.body, h.members⟩⟩

/-- A program whose indices are in range. `Object` and `Future` have to be there, since they are
    supertypes and bounds that are not written down. -/
structure WellFormed (P : Program) : Prop where
  object : (P.types.get? TypeId.object).isSome
  future : (P.types.get? TypeId.future).isSome
  supers : ∀ e d, P.types.get? e = some d → ∀ t ∈ d.supers, P.InRange t
  bounds : ∀ p q, P.params.get? p = some q → ∀ t ∈ q.bound, P.InRange t
  decls : ∀ d decl, P.decls.get? d = some decl → P.DeclInRange decl

structure SiteInRange (P : Program) (site : Site) : Prop where
  library : (P.libraries.get? site.library).isSome
  enclosing : ∀ d ∈ site.enclosing, (P.decls.get? d).isSome
  types : ∀ t ∈ site.types, P.InRange t

variable {P : Program} {n : Nat} {t : Ty} {d : TypeDecl} {i j : Instance} {site : Site}
  {decl : Decl}

theorem headed_headInRange : Ty.Headed (P.headInRange ·) where
  plain t := by cases t <;> simp [headInRange, Ty.declaration?, Ty.param?]
  interface _ _ _ _ := id
  promoted _ _ := .rfl

theorem SiteInRange.context (inRange : P.SiteInRange site) : P.InRange site.context := by
  have receiver : ∀ t ∈ site.receiver.types, P.InRange t := fun t ht =>
    inRange.types t (List.mem_append_left _ ht)
  unfold Site.context
  cases shape : site.receiver with
  | value type =>
    rw [shape] at receiver
    exact receiver type (by simp [Receiver.types])
  | shorthand expected operand =>
    rw [shape] at receiver
    obtain ⟨hexpected, hoperand⟩ := List.forall_mem_cons.1 receiver
    cases operand with
    | none => exact hexpected
    | some left =>
      simp only
      split
      · exact hoperand left (by simp)
      · exact hexpected

theorem DeclInRange.appliesTo (h : P.DeclInRange decl) : P.InRange decl.appliesTo := by
  have ofParams (d : TypeId) (hd : (P.types.get? d).isSome) :
      P.InRange (.ofParams d decl.params) := by
    refine Ty.every_interface.2 ⟨hd, List.forall_mem_map.2 fun p hp => ?_⟩
    exact Ty.every_param.2 (h.params p hp)
  have body := h.body
  unfold Decl.appliesTo
  cases shape : decl.body with
  | extension receiver => rwa [shape] at body
  | view type representation exposure =>
    rw [shape] at body
    exact ofParams type body.1
  | shorthand target =>
    rw [shape] at body
    exact ofParams target body

namespace WellFormed

variable (wf : P.WellFormed)

include wf

theorem inRange_object : P.InRange .object := Ty.every_interface.2 ⟨wf.object, by simp⟩

theorem inRange_extends (hi : P.InRange i.type) (h : P.Extends i j) : P.InRange j.type := by
  obtain ⟨d, hd, hj⟩ := h
  rcases mem_directSupers.1 hj with ⟨t, ht, substituted⟩ | ⟨_, rfl⟩
  · rw [← substituted]
    refine headed_headInRange.every_substitute (wf.supers _ d hd t ht) fun p u value => ?_
    exact (Ty.every_interface.1 hi).2 u (TypeDecl.mem_of_bindings value).2
  · exact wf.inRange_object

theorem visit (visited : List TypeId) (waiting : List Instance)
    (h : ∀ i ∈ waiting, P.InRange i.type) :
    Yields (P.visit n visited waiting) fun found => ∀ j ∈ found, P.InRange j.type := by
  induction n generalizing visited waiting with
  | zero => exact yields_pure (by simp)
  | succ n ih =>
    unfold Program.visit
    have subset := List.dropWhile_subset (·.decl ∈ visited) (l := waiting)
    split
    · exact yields_pure (by simp)
    · next i rest next =>
      rw [next] at subset
      obtain ⟨hi, hrest⟩ := List.cons_subset.1 subset
      have head : (P.types.get? i.decl).isSome := (h i hi).self
      obtain ⟨d, hd⟩ := Option.isSome_iff_exists.1 head
      rw [Table.fetch_eq_ok.2 hd, ok_bind]
      refine (ih (i.decl :: visited) _ ?_).bind fun found hfound => yields_pure ?_
      · intro j hj
        rcases List.mem_append.1 hj with hj | hj
        · exact h j (hrest hj)
        · exact wf.inRange_extends (h i hi) ⟨d, hd, hj⟩
      · exact List.forall_mem_cons.2 ⟨h i hi, hfound⟩

theorem closed : P.Closed (P.headInRange ·) where
  toHeaded := headed_headInRange
  object := wf.object
  future _ := wf.future
  bounds p hp := by
    obtain ⟨q, hq⟩ := Option.isSome_iff_exists.1 hp
    refine ⟨_, boundOf_eq_ok.2 ⟨q, hq, rfl⟩, ?_⟩
    cases hbound : q.bound with
    | none => exact headed_headInRange.every_orNull.2 wf.inRange_object
    | some bound => exact wf.bounds p q hq bound hbound
  supertypes i hi := wf.visit [] [i] (List.forall_mem_singleton.2 hi)

end WellFormed

end Program

end MemberAccess
