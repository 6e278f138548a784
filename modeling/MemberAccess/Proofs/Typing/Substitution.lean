import MemberAccess.Proofs.Typing.Types

/-!
Substitutions entry by entry. Two substitutions for one list of parameters are defined at the same
parameters, and what they assign to a parameter stands in one place of the two lists of types.
-/
namespace MemberAccess

namespace Substitution

variable {es : List (ParamId × Ty)} {ps : List ParamId} {as bs : List Ty} {p q : ParamId}
  {t : Ty} {s r : Substitution} {R : Ty → Ty → Prop}

theorem lookup_insertEntry :
    (insertEntry p t es).lookup q = if q = p then some t else es.lookup q := by
  have index : p.val = q.val ↔ p = q := by cases p; cases q; simp
  induction es with
  | nil => by_cases h : q = p <;> simp [insertEntry, List.lookup_cons, h, beq_eq_false_iff_ne.2]
  | cons e es ih =>
    obtain ⟨r, u⟩ := e
    unfold insertEntry
    split
    · by_cases h : q = p <;> simp [List.lookup_cons, h, beq_eq_false_iff_ne.2]
    · split
      · next same =>
        obtain rfl : p = r := by cases p; cases r; simp_all
        by_cases h : q = p <;> simp [List.lookup_cons, h, beq_eq_false_iff_ne.2]
      · next different =>
        by_cases h : q = r
        · subst h
          have : q ≠ p := by rintro rfl; exact different rfl
          simp [this]
        · simp [List.lookup_cons, beq_eq_false_iff_ne.2 h, ih]

@[simp] theorem get?_insert : (s.insert p t).get? q = if q = p then some t else s.get? q :=
  lookup_insertEntry

@[simp] theorem get?_empty : empty.get? p = none := rfl

theorem insertAll_rel (hlength : as.length = bs.length) (hR : ∀ e ∈ as.zip bs, R e.1 e.2)
    (hs : ∀ q, Option.Rel R (s.get? q) (r.get? q)) (q : ParamId) :
    Option.Rel R ((s.insertAll (ps.zip as)).get? q) ((r.insertAll (ps.zip bs)).get? q) := by
  induction ps generalizing as bs s r with
  | nil => exact hs q
  | cons p ps ih =>
    match as, bs with
    | [], [] => exact hs q
    | a :: as, b :: bs =>
      rw [List.zip_cons_cons, List.forall_mem_cons] at hR
      apply ih (Nat.succ.inj hlength) hR.2
      intro q
      by_cases h : q = p
      · simpa [h] using Option.Rel.some hR.1
      · simpa [h] using hs q

theorem mem_of_insertAll (h : (s.insertAll es).get? p = some t) :
    (p, t) ∈ es ∨ s.get? p = some t := by
  induction es generalizing s with
  | nil => exact .inr h
  | cons e es ih =>
    rcases ih h with inserted | before
    · exact .inl (List.mem_cons_of_mem _ inserted)
    · by_cases same : p = e.1
      · rw [get?_insert, if_pos same, Option.some.injEq] at before
        exact .inl (by simp [same, ← before])
      · rw [get?_insert, if_neg same] at before
        exact .inr before

theorem isSome_insertAll (hlength : ps.length = as.length) (hp : p ∈ ps ∨ (s.get? p).isSome) :
    ((s.insertAll (ps.zip as)).get? p).isSome := by
  induction ps generalizing as s with
  | nil => simpa [insertAll] using hp
  | cons q ps ih =>
    match as with
    | a :: as =>
      refine ih (Nat.succ.inj hlength) ?_
      by_cases h : p = q
      · simp [h]
      · simpa [h] using hp

theorem isEmpty_insertEntry : (insertEntry p t es).isEmpty = false := by
  cases es with
  | nil => rfl
  | cons e es =>
    unfold insertEntry
    split
    · rfl
    · split <;> rfl

theorem isEmpty_insertAll (h : s.isEmpty = false) : (s.insertAll es).isEmpty = false := by
  induction es generalizing s with
  | nil => exact h
  | cons e es ih => exact ih isEmpty_insertEntry

theorem isEmpty_ofList : (ofList es).isEmpty = es.isEmpty := by
  cases es with
  | nil => rfl
  | cons e es => exact isEmpty_insertAll (s := empty.insert e.1 e.2) isEmpty_insertEntry

end Substitution

namespace TypeDecl

variable {d : TypeDecl} {as bs : List Ty} {p : ParamId} {t u : Ty} {R : Ty → Ty → Prop}

theorem bindings_rel (hlength : as.length = bs.length) (hR : ∀ e ∈ as.zip bs, R e.1 e.2)
    (p : ParamId) : Option.Rel R ((d.bindings as).get? p) ((d.bindings bs).get? p) :=
  Substitution.insertAll_rel hlength hR (fun _ => .none) p

theorem isSome_bindings (hlength : d.params.length = as.length) (hp : p ∈ d.params) :
    ((d.bindings as).get? p).isSome :=
  Substitution.isSome_insertAll hlength (.inl hp)

theorem mem_of_bindings (h : (d.bindings as).get? p = some t) : p ∈ d.params ∧ t ∈ as :=
  List.of_mem_zip ((Substitution.mem_of_insertAll h).resolve_right (by simp))

theorem bindings_eq_none (hp : p ∉ d.params) : (d.bindings as).get? p = none :=
  Option.eq_none_iff_forall_ne_some.2 fun _ h => hp (mem_of_bindings h).1

theorem substitute_bindings (hlength : d.params.length = as.length) :
    t.substitute (d.bindings as) =
      if d.params = [] then t else t.replace (d.bindings as).get? := by
  have empty : (d.bindings as).isEmpty = true ↔ d.params = [] := by
    rw [bindings, Substitution.isEmpty_ofList, List.isEmpty_iff, List.zip_eq_nil_iff,
      ← List.length_eq_zero_iff, ← List.length_eq_zero_iff, hlength, or_self]
  simp only [Ty.substitute, empty]

end TypeDecl

end MemberAccess
