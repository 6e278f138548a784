import MemberAccess.Proofs.Matching.Firm

/-!
Where matching is complete. A type may be below the widest instance of a pattern without matching
it: a pattern that is a union is compared with what is under the union in the type, or with the type
as it is, and a promoted variable is taken for what it is promoted to.
-/
namespace MemberAccess.Program

open Unification

def NullPlain (P : Program) (c : Ty) : Prop :=
  ∀ t u, (c = .nullable t ∨ P.Climbs c t) → Relation.ReflTransGen P.Climbs t u → ¬ u.isOptional

structure FuturePlain (P : Program) (c : Ty) : Prop where
  below : ∀ u, P.Below c (.future u) → c = .never ∨ c.isAsync
  climbs : ∀ t u v, P.Climbs c t → Relation.ReflTransGen P.Climbs t u → u ≠ .futureOr v

/-- Whether a type matches a pattern once it is below its widest instance, as far as what they are
    made of does. -/
def Tractable (P : Program) (t c : Ty) : Prop :=
  P.Tame c ∧ match t with
    | .interface d _ => d = .future → ∀ u, c ≠ .futureOr u
    | .nullable _ => P.NullPlain c
    | .futureOr t => t.isSettled ∧ P.FuturePlain c
    | _ => True

inductive Descends (P : Program) : Ty × Ty → Ty × Ty → Prop
  | inner : P.Inner t c t' c' → Descends P (t, c) (t', c')
  | argument : P.Reaches ⟨d, as⟩ ⟨e, xs⟩ → x ∈ ps.zip xs →
      Descends P (.interface e ps, .interface d as) x
  | result : Descends P (.func ps r, .func cs c) (r, c)
  | field : x ∈ ps.zip cs → Descends P (.record ps, .record cs) x

/-- Whether all parts of a pattern are tractable for what they are compared with in a type, except
    for those that mention no variables and those that all types match. -/
def Matchable (P : Program) (vars : List ParamId) (t c : Ty) : Prop :=
  ∀ t' c', Relation.ReflTransGen P.Descends (t, c) (t', c') →
    t'.Free vars ∨ t'.opens vars ∨ P.Tractable t' c'

/-- Types to be matched with a pattern. Their records have fewer fields than the one that stands for
    what no function matches. -/
structure Scrutinee (P : Program) (vars : List ParamId) (width : Nat) (t c : Ty) : Prop where
  fits : P.Fits false c
  narrow : c.Narrow width
  matchable : P.Matchable vars t c

variable {P : Program} {vars : List ParamId} {width n : Nat} {t c t' c' a u : Ty} {φ : Ty → Prop}

theorem Descends.hereditary (h : P.Descends (t, c) (t', c')) (hereditary : P.Hereditary φ)
    (hc : φ c) : φ c' := by
  cases h with
  | inner inner => exact inner.hereditary hereditary hc
  | argument reaches hx => exact hereditary _ _ (.argument reaches (List.of_mem_zip hx).2) hc
  | result => exact hereditary _ _ .result hc
  | field hx => exact hereditary _ _ (.field (List.of_mem_zip hx).2) hc

theorem Matchable.self (h : P.Matchable vars t c) (mentions : ¬ t.Free vars)
    (closed : ¬ t.opens vars) : P.Tractable t c :=
  ((h t c .refl).resolve_left mentions).resolve_left closed

theorem Tractable.declaration?_ne_future (h : P.Tractable t (.futureOr u)) :
    t.declaration? ≠ some .future := by
  cases t with
  | interface d as => exact fun isFuture => h.2 (by simpa [Ty.declaration?] using isFuture) u rfl
  | _ => simp [Ty.declaration?]

theorem Descends.opens (h : P.Descends (t, c) (t', c')) (opens : t.opens vars) : t'.opens vars := by
  cases h with
  | inner inner => cases inner <;> exact opens
  | argument | result | field => cases opens

theorem matchable_of_opens (opens : t.opens vars) : P.Matchable vars t c := by
  intro t' c' descends
  refine .inr (.inl ?_)
  generalize hx : (t', c') = x at descends
  induction descends generalizing t' c' with
  | refl =>
    cases hx
    exact opens
  | @tail y _ _ last ih =>
    subst hx
    exact last.opens (ih y.1 y.2 rfl)

theorem matchable_of_steps (own : P.Tractable t c)
    (steps : ∀ x, P.Descends (t, c) x → P.Matchable vars x.1 x.2) : P.Matchable vars t c := by
  intro t' c' descends
  rcases descends.cases_head with same | ⟨x, first, rest⟩
  · cases same
    exact .inr (.inr own)
  · exact steps x first t' c' rest

theorem isFirm_widest (mentions : ¬ t.Free vars) (closed : ¬ t.opens vars)
    (unpromoted : t.Unpromoted vars) : (t.widest vars width).isFirm := by
  induction t using Ty.induct with
  | unknown | dynamic | void | never => simp [Ty.Free, Ty.param?] at mentions
  | interface d as =>
    cases as with
    | nil => simp [Ty.Free, Ty.param?] at mentions
    | cons a as => rfl
  | nullable t ih =>
    exact ih (mt Ty.free_nullable.2 mentions) closed (Ty.every_nullable.1 unpromoted).2
  | futureOr t ih =>
    exact ih (mt Ty.free_futureOr.2 mentions) closed (Ty.every_futureOr.1 unpromoted).2
  | param p =>
    have own : p ∈ vars := by simpa [Ty.Free, Ty.param?] using mentions
    simp [Ty.opens, own] at closed
  | promoted p bound => exact absurd (unpromoted.self rfl) mentions
  | func ps r =>
    rw [Ty.widest]
    split <;> rfl
  | record fs => rfl

theorem isUnion_widest : (t.widest vars width).isUnion = t.isUnion := by
  cases t with
  | param | func =>
    rw [Ty.widest]
    split <;> rfl
  | _ => rfl

theorem isSettled_widest (settled : t.isSettled) : (t.widest vars width).isSettled := by
  induction t using Ty.induct with
  | futureOr t ih => exact ih settled
  | nullable => cases settled
  | param | func =>
    rw [Ty.widest]
    split <;> rfl
  | _ => exact settled

section Scrutinee

variable (coherent : P.Coherent) (declared : P.Narrow width)

include coherent declared

theorem Scrutinee.step (h : P.Scrutinee vars width t c) (step : P.Descends (t, c) (t', c')) :
    P.Scrutinee vars width t' c' where
  fits := step.hereditary coherent.hereditary_fits h.fits
  narrow :=
    (step.hereditary (coherent.hereditary_narrow declared) ⟨h.fits.valid, h.narrow⟩).2
  matchable t'' c'' rest := h.matchable t'' c'' (.head step rest)

theorem Scrutinee.climbs (h : P.Scrutinee vars width t c) (noUnion : ¬ t.isUnion)
    (climbs : Relation.ReflTransGen P.Climbs c a) : P.Scrutinee vars width t a := by
  induction climbs with
  | refl => exact h
  | tail _ step ih =>
    cases step with
    | bound hbound => exact ih.step coherent declared (.inner (.param noUnion hbound))
    | promoted => exact ih.step coherent declared (.inner (.promoted noUnion))

theorem Scrutinee.under_nullable (h : P.Scrutinee vars width (.nullable t) c)
    (proper : c ≠ .never ∧ c ≠ .unknown) (notNull : ¬ c.isNull)
    (notNullable : ∀ u, c ≠ .nullable u) :
    P.Scrutinee vars width t c :=
  h.step coherent declared (.inner (.nullable_right proper.1 proper.2 notNull notNullable))

theorem Scrutinee.under_futureOr (h : P.Scrutinee vars width (.futureOr t) c)
    (proper : c ≠ .never ∧ c ≠ .unknown) (notFutureOr : ∀ u, c ≠ .futureOr u)
    (notFuture : c.declaration? ≠ some .future) : P.Scrutinee vars width t c :=
  h.step coherent declared (.inner (.futureOr_right proper.1 proper.2 notFutureOr notFuture))

theorem Scrutinee.tame (h : P.Scrutinee vars width t c) (mentions : ¬ t.Free vars)
    (closed : ¬ t.opens vars) (climbs : Relation.ReflTransGen P.Climbs c a) : P.Tame a := by
  have own : P.Tame c := (h.matchable.self mentions closed).1
  by_cases notVar : c.param? = none
  · exact eq_of_climbs notVar climbs ▸ own
  have proper : c ≠ .never ∧ c ≠ .unknown := by
    constructor <;> rintro rfl <;> exact notVar rfl
  induction t using Ty.induct with
  | nullable t ih =>
    refine ih (h.under_nullable coherent declared proper ?_ ?_) (mt Ty.free_nullable.2 mentions)
      closed
    · cases c <;> simp_all [Ty.param?, Ty.isNull]
    · rintro u rfl
      exact notVar rfl
  | futureOr t ih =>
    refine ih (h.under_futureOr coherent declared proper ?_ ?_) (mt Ty.free_futureOr.2 mentions)
      closed
    · rintro u rfl
      exact notVar rfl
    · cases c <;> simp_all [Ty.param?, Ty.declaration?]
  | _ =>
    have inner := h.climbs coherent declared (by simp [Ty.isUnion]) climbs
    exact (inner.matchable.self mentions closed).1

theorem Scrutinee.future_not_below (h : P.Scrutinee vars width t c) (noUnion : ¬ t.isUnion)
    (mentions : ¬ t.Free vars) (closed : ¬ t.opens vars) (fits : P.Fits true t)
    (unpromoted : t.Unpromoted vars) (climbs : Relation.ReflTransGen P.Climbs c (.futureOr u)) :
    ¬ P.Derives n (.future u) (t.widest vars width) := by
  have inner := h.climbs coherent declared noUnion climbs
  refine coherent.future_not_below fits.widest.valid (isFirm_widest mentions closed unpromoted)
    (by rwa [isUnion_widest]) ?_
  rw [Ty.declaration?_widest]
  exact (inner.matchable.self mentions closed).declaration?_ne_future

theorem Scrutinee.below_of_future_below (h : P.Scrutinee vars width t c) (mentions : ¬ t.Free vars)
    (closed : ¬ t.opens vars) (fits : P.Fits true t) (unpromoted : t.Unpromoted vars)
    (climbs : Relation.ReflTransGen P.Climbs c (.futureOr u))
    (below : P.Derivable (.future u) (t.widest vars width)) :
    P.Derivable u (t.widest vars width) := by
  have firm : (t.widest vars width).isFirm := isFirm_widest mentions closed unpromoted
  obtain ⟨n, below⟩ := below
  induction t using Ty.induct generalizing n with
  | nullable t ih =>
    have mentions := mt Ty.free_nullable.2 mentions
    have notTop := not_isTop_of_isFirm coherent fits.widest.valid firm
    obtain ⟨m, below⟩ := future_below_nullable below notTop
    have inner : P.Scrutinee vars width t c := by
      rcases climbs.cases_head with rfl | ⟨_, step, _⟩
      · exact h.under_nullable coherent declared (by simp) (by simp [Ty.isNull]) (by simp)
      · cases step <;>
          exact h.under_nullable coherent declared (by simp) (by simp [Ty.isNull]) (by simp)
    have deeper := ih inner mentions closed fits.of_nullable (Ty.every_nullable.1 unpromoted).2 firm
      m below
    exact deeper.widen (.nullable (Ty.widest_ne_unknown mentions))
  | futureOr t =>
    obtain ⟨settled, _⟩ := (h.matchable.self mentions closed).2
    exact coherent.below_of_future_below fits.widest firm (isSettled_widest settled) below
  | _ =>
    exact absurd below (h.future_not_below coherent declared (by simp [Ty.isUnion]) mentions
      closed fits unpromoted climbs)

end Scrutinee

end MemberAccess.Program
