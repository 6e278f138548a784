import MemberAccess.Proofs.Matching.Relation
import MemberAccess.Proofs.Typing.Persistence

/-!
Invariants of the matching. All that a matching does to the solution is to record lower bounds of
variables. What each of these records keeps is kept by the whole matching, where the lower bounds
are constituents of the concrete type, of the bounds of its parameters or of its supertypes.
-/
namespace MemberAccess.Program

open Unification

variable {P : Program} {φ : Ty → Prop} {I : Substitution → Prop} {vars : List ParamId}
  {limit n : Nat} {t c : Ty} {first second : Step}

def Preserves (I : Substitution → Prop) (step : Step) : Prop :=
  ∀ s s', I s → step s = .ok (some s') → I s'

namespace Preserves

theorem fail : Preserves I .fail := by
  intro s s' _ h
  cases h

theorem done : Preserves I .done := by
  intro s s' hs h
  cases h
  exact hs

theorem check (holds : Except Fault Bool) : Preserves I (.check holds) := by
  intro s s' hs h
  obtain ⟨_, rfl⟩ := check_eq_some.1 h
  exact hs

theorem andThen (hfirst : Preserves I first) (hsecond : Preserves I second) :
    Preserves I (.andThen first second) := by
  intro s s' hs h
  obtain ⟨r, start, rest⟩ := andThen_eq_some.1 h
  exact hsecond r s' (hfirst s r hs start) rest

theorem each {α β : Type} {f : α → β → Step} {xs : List (α × β)}
    (h : ∀ x ∈ xs, Preserves I (f x.1 x.2)) : Preserves I (.each f xs) := by
  induction xs with
  | nil => exact done
  | cons x xs ih =>
    obtain ⟨head, tail⟩ := List.forall_mem_cons.1 h
    exact head.andThen (ih tail)

theorem pairwise {f : Ty → Ty → Step} {ts cs : List Ty}
    (h : ∀ t, ∀ c ∈ cs, Preserves I (f t c)) : Preserves I (.pairwise f ts cs) := by
  unfold Step.pairwise
  split
  · exact each fun x hx => h x.1 x.2 (List.of_mem_zip hx).2
  · exact fail

theorem bind {α : Type} {x : Except Fault α} {f : α → Step}
    (h : ∀ a, x = .ok a → Preserves I (f a)) : Preserves I fun s => x >>= fun a => f a s := by
  intro s s' hs run
  obtain ⟨a, answer, run⟩ := bind_eq_ok.1 run
  exact h a answer s s' hs run

end Preserves

theorem persistent_true : P.Persistent fun _ => True where
  orNull _ _ _ _ := trivial
  interface _ _ _ _ _ := trivial
  futureOr _ _ _ := trivial
  promoted _ _ _ _ := trivial
  func _ _ _ _ _ := trivial
  record _ _ _ := trivial
  object := trivial
  bounds _ _ _ _ _ _ _ _ := trivial
  supers _ _ _ _ _ _ _ := trivial

namespace Persistent

variable (persistent : P.Persistent φ)
  (lower : ∀ p ∈ vars, ∀ c, c.Every φ → Preserves I (P.bindLower limit p c))

include lower

theorem matchParam_preserves (hc : c.Every φ) : Preserves I (P.matchParam limit vars t c) := by
  unfold matchParam
  cases isVar : varOf? vars t with
  | some p => exact lower p (Closed.varOf?_eq_some.1 isVar).2 c hc
  | none =>
    simp only
    split
    · exact .fail
    · exact .check _

include persistent

theorem matchByShape_preserves {go : Ty → Ty → Step}
    (ih : ∀ t c, c.Every φ → Preserves I (go t c)) (hc : c.Every φ) :
    Preserves I (P.matchByShape limit vars go t c) := by
  unfold matchByShape
  split
  · exact .done
  · exact .done
  · exact ih _ _ (Ty.every_nullable.1 hc).2
  · split
    · exact .done
    · exact ih _ _ hc
  · exact ih _ _ (Ty.every_futureOr.1 hc).2
  · split
    · split
      · exact ih _ _ ((Ty.every_interface.1 hc).2 _ List.mem_cons_self)
      · exact .fail
    · exact ih _ _ hc
  · exact ih _ _ hc
  · exact .bind fun bound h => ih _ bound (persistent.every_boundOf hc.self h)
  · exact ih _ _ (Ty.every_promoted.1 hc).2
  · next d as =>
    refine .bind fun found h => ?_
    cases found with
    | none => exact .fail
    | some args =>
      have every := persistent.every_superArgs (i := ⟨d, as⟩) hc h
      exact .pairwise fun t a ha => ih t a (every a ha)
  · obtain ⟨_, params, result⟩ := Ty.every_func.1 hc
    refine .andThen (.pairwise fun t a ha => ?_) (ih _ _ result)
    exact matchParam_preserves lower (params a ha)
  · exact .pairwise fun t a ha => ih t a ((Ty.every_record.1 hc).2 a ha)
  · exact .fail

theorem matchType_preserves (hc : c.Every φ) : Preserves I (P.matchType limit vars n t c) := by
  induction n generalizing t c with
  | zero => exact .fail
  | succ n ih =>
    unfold matchType
    cases isVar : varOf? vars t with
    | some p => exact lower p (Closed.varOf?_eq_some.1 isVar).2 c hc
    | none =>
      simp only
      split
      · exact persistent.matchByShape_preserves lower (fun _ _ => ih) hc
      · exact .check _

end Persistent

end MemberAccess.Program
