import Mathlib.Order.Filter.AtTopBot.Basic
import MemberAccess.Proofs.Typing.Completeness

/-!
Monotonicity of the subtype check. All premises count in favour of an answer, so a subtype that is
found at some limit is not denied at any greater limit, and it is found there again unless a longer
derivation looks up an entry that is missing.
-/
namespace MemberAccess.Program

open Filter

variable {α : Type} {P : Program} {φ : Ty → Prop} {n m : Nat} {a b t : Ty} {as bs : List Ty}
  {x x' y y' : Except Fault Bool}

theorem choice_of_answered (hx : ∃ answer, x = .ok answer) (h : x = .ok true ∨ y = .ok true) :
    (do if ← x then pure true else y) = .ok true := by
  obtain ⟨answer, hanswer⟩ := hx
  rw [choice_eq_ok]
  cases answer with
  | true => exact .inl hanswer
  | false =>
    rcases h with h | h
    · exact .inl h
    · exact .inr ⟨hanswer, h⟩

/-- Whether the second computation does not take back what the first one has found. -/
def Upholds (x x' : Except Fault Bool) : Prop := x = .ok true → x' ≠ .ok false

namespace Upholds

theorem same : Upholds x x := by
  intro found denied
  rw [found] at denied
  cases denied

theorem of_denied : Upholds (.ok false) x := fun found => by cases found

theorem found (h : Upholds x x') (answered : ∃ answer, x' = .ok answer) (hx : x = .ok true) :
    x' = .ok true := by
  obtain ⟨answer, rfl⟩ := answered
  cases answer with
  | true => rfl
  | false => exact absurd rfl (h hx)

theorem bind {z : Except Fault α} {f f' : α → Except Fault Bool}
    (h : ∀ v, z = .ok v → Upholds (f v) (f' v)) : Upholds (z >>= f) (z >>= f') := by
  cases z with
  | error fault => exact same
  | ok v => exact h v rfl

theorem choice (hx : Upholds x x') (hy : Upholds y y') :
    Upholds (do if ← x then pure true else y) (do if ← x' then pure true else y') := by
  intro found
  rcases x' with fault | _ | _
  · rintro ⟨⟩
  · have notFirst : x ≠ .ok true := fun first => hx first rfl
    exact hy ((choice_eq_ok.1 found).resolve_left notFirst).2
  · rintro ⟨⟩

theorem guard (hx : Upholds x x') (hy : Upholds y y') :
    Upholds (do if ← x then y else pure false) (do if ← x' then y' else pure false) := by
  intro found
  obtain ⟨first, second⟩ := guard_eq_ok.1 found
  rcases x' with fault | _ | _
  · rintro ⟨⟩
  · exact absurd rfl (hx first)
  · exact hy second

theorem allM {f f' : α → Except Fault Bool} {xs : List α} (h : ∀ v, Upholds (f v) (f' v)) :
    Upholds (xs.allM f) (xs.allM f') := by
  induction xs with
  | nil => exact same
  | cons v xs ih =>
    have cons (f : α → Except Fault Bool) :
        (v :: xs).allM f = (do if ← f v then xs.allM f else pure false) := by
      rw [List.allM]
      refine bind_congr fun answer => ?_
      cases answer <;> rfl
    rw [cons, cons]
    exact guard (h v) ih

theorem pairwise {le le' : Ty → Ty → Except Fault Bool} (h : ∀ a b, Upholds (le a b) (le' a b)) :
    Upholds (MemberAccess.pairwise le as bs) (MemberAccess.pairwise le' as bs) := by
  unfold MemberAccess.pairwise
  split
  · exact allM fun v => h v.1 v.2
  · exact same

end Upholds

/-- Depths are counted downwards, so that a greater number stands for a greater limit as well as for
    a smaller depth to start at. -/
theorem isNonNull_upholds (deeper : n ≤ m) : Upholds (P.isNonNull n t) (P.isNonNull m t) := by
  induction n generalizing m t with
  | zero => exact .of_denied
  | succ n ih =>
    obtain ⟨m, rfl⟩ : ∃ k, m = k + 1 := ⟨m - 1, by omega⟩
    have inner (t : Ty) : Upholds (P.isNonNull n t) (P.isNonNull m t) := ih (by omega)
    cases t with
    | futureOr t => exact inner t
    | param p => exact .bind fun bound _ => inner bound
    | promoted p bound => exact .choice (inner bound) (inner (.param p))
    | _ => exact .same

theorem subtypeByShape_upholds {le le' : Ty → Ty → Except Fault Bool}
    (h : ∀ a b, Upholds (le a b) (le' a b)) :
    Upholds (P.subtypeByShape le a b) (P.subtypeByShape le' a b) := by
  unfold subtypeByShape
  split
  · exact .bind fun bound _ => h bound _
  · exact .choice (h _ _) (h _ _)
  · refine .bind fun args _ => ?_
    cases args with
    | none => exact .same
    | some xs => exact .pairwise h
  · exact .guard (.pairwise fun p q => h q p) (h _ _)
  · exact .pairwise h
  · exact .same

theorem admitsNull_upholds (deeper : n ≤ m) :
    Upholds (pure (t.admitsNull n)) (pure (t.admitsNull m)) := by
  intro found
  rw [show t.admitsNull m = true from admitsNull_mono (Except.ok.inj found) deeper]
  rintro ⟨⟩

theorem subtypeByUnion_upholds (deeper : n ≤ m)
    (h : ∀ a b, Upholds (P.subtype n a b) (P.subtype m a b)) :
    Upholds (P.subtypeByUnion n a b) (P.subtypeByUnion m a b) := by
  have shape (a b : Ty) := subtypeByShape_upholds (P := P) (a := a) (b := b) h
  unfold subtypeByUnion
  split
  · exact .guard (h _ _) (admitsNull_upholds deeper)
  · exact .guard (h _ _) (h _ _)
  · exact .choice (h _ _) (shape _ _)
  · exact .choice (h _ _) (.choice (h _ _) (shape _ _))
  · exact .guard (h _ _) (h _ _)
  · exact shape _ _

/-- The rules that are tried do not depend on the limit, only how far they get. -/
theorem subtype_upholds (deeper : n ≤ m) : Upholds (P.subtype n a b) (P.subtype m a b) := by
  induction n generalizing m a b with
  | zero => exact .of_denied
  | succ n ih =>
    obtain ⟨m, rfl⟩ : ∃ k, m = k + 1 := ⟨m - 1, by omega⟩
    have within : n ≤ m := by omega
    rw [subtype_succ, subtype_succ]
    split
    · exact .same
    split
    · exact .same
    split
    · exact .same
    split
    · exact admitsNull_upholds within
    split
    · exact isNonNull_upholds within
    · exact subtypeByUnion_upholds within fun a b => ih within

namespace Closed

variable (closed : P.Closed φ)

include closed

theorem subtype_mono (ha : a.Every φ) (hb : b.Every φ) (hnm : n ≤ m)
    (h : P.subtype n a b = .ok true) : P.subtype m a b = .ok true :=
  (subtype_upholds hnm).found (closed.subtype_answered ha hb) h

theorem isNonNull_mono (ht : t.Every φ) (hnm : n ≤ m) (h : P.isNonNull n t = .ok true) :
    P.isNonNull m t = .ok true :=
  (isNonNull_upholds hnm).found (closed.isNonNull_answered ht) h

theorem eventually_subtype (ha : a.Every φ) (hb : b.Every φ) (h : P.subtype n a b = .ok true) :
    ∀ᶠ m in atTop, P.subtype m a b = .ok true := by
  filter_upwards [eventually_ge_atTop n] with m hm
  exact closed.subtype_mono ha hb hm h

end Closed

end MemberAccess.Program
