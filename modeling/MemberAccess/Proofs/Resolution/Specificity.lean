import Mathlib.Data.List.Nodup
import MemberAccess.Proofs.Outcomes
import MemberAccess.Resolution.Specificity

/-!
The order of candidates by specificity. Comparisons in the two directions rest on the same answers,
so they are the reverse of each other. Where the questions about types are answered by preorders,
specificity is a strict order: the enclosing declaration comes first, then the smaller type, and
then the smaller type instantiated to bounds.
-/
namespace MemberAccess

namespace Specificity

@[simp] theorem reverse_reverse (o : Specificity) : o.reverse.reverse = o := by
  cases o <;> rfl

theorem eq_reverse_iff {o r : Specificity} : o = r.reverse ↔ r = o.reverse := by
  cases o <;> cases r <;> simp [reverse]

theorem ofSubtyping_swap (forward backward : Bool) :
    ofSubtyping backward forward = (ofSubtyping forward backward).reverse := by
  cases forward <;> cases backward <;> rfl

@[simp] theorem less_eq_ofSubtyping {forward backward : Bool} :
    .less = ofSubtyping forward backward ↔ forward = true ∧ backward = false := by
  cases forward <;> cases backward <;> simp [ofSubtyping]

end Specificity

namespace Session

variable {s : Session} {site : Site} {a b c : Candidate} {o : Specificity}

def precedes (s : Session) (site : Site) (a b : Candidate) : Prop :=
  (s.compare site a b).outcome = .ok .less

instance (s : Session) (site : Site) (a b : Candidate) : Decidable (s.precedes site a b) :=
  match h : (s.compare site a b).outcome with
  | .ok .less => .isTrue h
  | .ok .greater | .ok .incomparable | .error _ => .isFalse (by simp [precedes, h])

def strictlyBelow (s : Session) (t u : Ty) : Prop :=
  s.oracle.isSubtype t u = .ok true ∧ s.oracle.isSubtype u t = .ok false

def equivalent (s : Session) (t u : Ty) : Prop :=
  s.oracle.isSubtype t u = .ok true ∧ s.oracle.isSubtype u t = .ok true

/-- The type of a candidate is smaller when its declaration is instantiated to bounds. -/
def breaksTie (s : Session) (a b : Candidate) : Prop :=
  s.options.tieBreak = .byBounds ∧ ∃ t u, s.oracle.instantiateDecl a.decl = .ok (.ok t) ∧
    s.oracle.instantiateDecl b.decl = .ok (.ok u) ∧ s.strictlyBelow t u

theorem compareTypes_eq_ok {t u : Ty} {answers : Bool × Bool} :
    s.compareTypes t u = .ok answers ↔
      s.oracle.isSubtype t u = .ok answers.1 ∧ s.oracle.isSubtype u t = .ok answers.2 := by
  obtain ⟨forward, backward⟩ := answers
  simp only [compareTypes, bind_eq_ok, pure_eq_ok, Prod.mk.injEq]
  constructor
  · rintro ⟨_, forward, _, backward, rfl, rfl⟩
    exact ⟨forward, backward⟩
  · rintro ⟨forward, backward⟩
    exact ⟨_, forward, _, backward, rfl, rfl⟩

theorem compareTypes_swap {t u : Ty} {forward backward : Bool} :
    s.compareTypes t u = .ok (forward, backward) ↔
      s.compareTypes u t = .ok (backward, forward) := by
  simp only [compareTypes_eq_ok, and_comm]

theorem boundedType_eq_some {t : Ty} :
    (s.boundedType c).outcome = .ok (some t) ↔ s.oracle.instantiateDecl c.decl = .ok (.ok t) := by
  simp only [boundedType, Reporting.outcome_bind, Reporting.outcome_lift, except_bind_eq_ok]
  constructor
  · rintro ⟨result, hresult, same⟩
    cases result with
    | ok u => simp_all
    | error overflow => simp at same
  · intro h
    exact ⟨.ok t, h, by simp⟩

def tieOutcome (s : Session) : Option Ty → Option Ty → Specificity → Prop
  | some t, some u, o => ∃ forward backward,
      s.compareTypes t u = .ok (forward, backward) ∧ o = .ofSubtyping forward backward
  | _, _, o => o = .incomparable

theorem tieOutcome_swap {t u : Option Ty} : s.tieOutcome t u o ↔ s.tieOutcome u t o.reverse := by
  cases t with
  | none => cases u <;> cases o <;> simp [tieOutcome, Specificity.reverse]
  | some t =>
    cases u with
    | none => cases o <;> simp [tieOutcome, Specificity.reverse]
    | some u =>
      simp only [tieOutcome]
      constructor
      · rintro ⟨forward, backward, answers, rfl⟩
        exact ⟨backward, forward, compareTypes_swap.1 answers,
          (Specificity.ofSubtyping_swap _ _).symm⟩
      · rintro ⟨backward, forward, answers, same⟩
        refine ⟨forward, backward, compareTypes_swap.1 answers, ?_⟩
        rw [Specificity.ofSubtyping_swap, Specificity.eq_reverse_iff, same]

theorem breakTie_eq_ok :
    (s.breakTie a b).outcome = .ok o ↔ ∃ t u, (s.boundedType a).outcome = .ok t ∧
      (s.boundedType b).outcome = .ok u ∧ s.tieOutcome t u o := by
  simp only [breakTie, Reporting.outcome_bind, except_bind_eq_ok]
  refine exists_congr fun t => ?_
  rw [← exists_and_left]
  refine exists_congr fun u => and_congr_right fun _ => and_congr_right fun _ => ?_
  cases t with
  | none => cases u <;> simp [tieOutcome, eq_comm]
  | some t =>
    cases u with
    | none => simp [tieOutcome, eq_comm]
    | some u =>
      simp only [tieOutcome, Reporting.outcome_bind, Reporting.outcome_lift, except_bind_eq_ok,
        Prod.exists, Reporting.outcome_pure, Except.ok.injEq]
      exact exists_congr fun _ => exists_congr fun _ => and_congr_right fun _ => eq_comm

theorem breakTie_swap :
    (s.breakTie a b).outcome = .ok o ↔ (s.breakTie b a).outcome = .ok o.reverse := by
  simp only [breakTie_eq_ok]
  rw [exists_comm]
  refine exists_congr fun u => exists_congr fun t => ?_
  rw [tieOutcome_swap]
  exact and_left_comm

theorem compareByType_eq_ok :
    (s.compareByType a b).outcome = .ok o ↔ ∃ forward backward,
      s.compareTypes a.appliesTo b.appliesTo = .ok (forward, backward) ∧
      if forward && backward then
        if s.options.tieBreak = .byBounds then (s.breakTie a b).outcome = .ok o
        else o = .incomparable
      else o = .ofSubtyping forward backward := by
  simp only [compareByType, Reporting.outcome_bind, Reporting.outcome_lift, except_bind_eq_ok,
    Prod.exists]
  refine exists_congr fun forward => exists_congr fun backward => and_congr_right fun _ => ?_
  cases forward <;> cases backward <;> cases h : s.options.tieBreak <;> simp [eq_comm]

theorem compareByType_swap :
    (s.compareByType a b).outcome = .ok o ↔ (s.compareByType b a).outcome = .ok o.reverse := by
  simp only [compareByType_eq_ok]
  rw [exists_comm]
  refine exists_congr fun backward => exists_congr fun forward => ?_
  rw [compareTypes_swap, breakTie_swap, Bool.and_comm]
  refine and_congr_right fun _ => ?_
  split
  · split
    · rfl
    · cases o <;> simp [Specificity.reverse]
  · rw [Specificity.ofSubtyping_swap forward backward, Specificity.eq_reverse_iff,
      Specificity.reverse_reverse, eq_comm]

theorem compare_swap :
    (s.compare site a b).outcome = .ok o ↔ (s.compare site b a).outcome = .ok o.reverse := by
  unfold compare
  by_cases same : a.decl = b.decl
  · cases o <;> simp [same, Specificity.reverse]
  · simp only [same, Ne.symm same, if_false]
    by_cases first : site.enclosing = some a.decl
    · cases o <;> simp [first, same, Specificity.reverse]
    · by_cases second : site.enclosing = some b.decl
      · cases o <;> simp [second, Ne.symm same, Specificity.reverse]
      · simp only [first, second, if_false]
        exact compareByType_swap

theorem breakTie_eq_less :
    (s.breakTie a b).outcome = .ok .less ↔ ∃ t u, s.oracle.instantiateDecl a.decl = .ok (.ok t) ∧
      s.oracle.instantiateDecl b.decl = .ok (.ok u) ∧ s.strictlyBelow t u := by
  rw [breakTie_eq_ok]
  constructor
  · rintro ⟨t, u, bounded, bounded', tie⟩
    cases t with
    | none => simp [tieOutcome] at tie
    | some t =>
      cases u with
      | none => simp [tieOutcome] at tie
      | some u =>
        obtain ⟨forward, backward, answers, same⟩ := tie
        obtain ⟨rfl, rfl⟩ := Specificity.less_eq_ofSubtyping.1 same
        exact ⟨t, u, boundedType_eq_some.1 bounded, boundedType_eq_some.1 bounded',
          compareTypes_eq_ok.1 answers⟩
  · rintro ⟨t, u, bounded, bounded', below⟩
    exact ⟨some t, some u, boundedType_eq_some.2 bounded, boundedType_eq_some.2 bounded',
      true, false, compareTypes_eq_ok.2 below, rfl⟩

theorem compareByType_eq_less :
    (s.compareByType a b).outcome = .ok .less ↔ s.strictlyBelow a.appliesTo b.appliesTo ∨
      s.equivalent a.appliesTo b.appliesTo ∧ s.breaksTie a b := by
  rw [compareByType_eq_ok]
  constructor
  · rintro ⟨forward, backward, answers, decided⟩
    by_cases both : forward && backward
    · obtain ⟨rfl, rfl⟩ : forward = true ∧ backward = true := by simpa using both
      by_cases mode : s.options.tieBreak = .byBounds
      · simp only [Bool.and_self, mode, if_true, breakTie_eq_less] at decided
        exact .inr ⟨compareTypes_eq_ok.1 answers, mode, decided⟩
      · simp [mode] at decided
    · simp only [both] at decided
      obtain ⟨rfl, rfl⟩ := Specificity.less_eq_ofSubtyping.1 decided
      exact .inl (compareTypes_eq_ok.1 answers)
  · rintro (below | ⟨equivalent, mode, bounds⟩)
    · exact ⟨true, false, compareTypes_eq_ok.2 below, rfl⟩
    · refine ⟨true, true, compareTypes_eq_ok.2 equivalent, ?_⟩
      simpa only [Bool.and_self, mode, if_true, breakTie_eq_less] using bounds

theorem precedes_iff : s.precedes site a b ↔ a.decl ≠ b.decl ∧
    (site.enclosing = some a.decl ∨ site.enclosing ≠ some b.decl ∧
      (s.strictlyBelow a.appliesTo b.appliesTo ∨
        s.equivalent a.appliesTo b.appliesTo ∧ s.breaksTie a b)) := by
  rw [precedes, compare, ← compareByType_eq_less]
  by_cases same : a.decl = b.decl
  · simp [same]
  · by_cases first : site.enclosing = some a.decl
    · simp [same, first]
    · by_cases second : site.enclosing = some b.decl
      · rw [if_neg same, if_neg first, if_pos second]
        simp [second, Ne.symm same]
      · simp [same, first, second]

theorem precedes_irrefl : ¬ s.precedes site a a := by simp [precedes_iff]

theorem precedes_asymm (h : s.precedes site a b) : ¬ s.precedes site b a := by
  have reversed := compare_swap.1 h
  simp [precedes, reversed, Specificity.reverse]

theorem incomparable_of_not_precedes {answer : Specificity}
    (answered : (s.compare site a b).outcome = .ok answer) (forward : ¬ s.precedes site a b)
    (backward : ¬ s.precedes site b a) : (s.compare site a b).outcome = .ok .incomparable := by
  cases answer with
  | less => exact absurd answered forward
  | greater => exact absurd (compare_swap.1 answered) backward
  | incomparable => exact answered

def TransitiveOn (s : Session) (types : List Ty) : Prop :=
  ∀ t ∈ types, ∀ u ∈ types, ∀ v ∈ types, s.oracle.isSubtype t u = .ok true →
    s.oracle.isSubtype u v = .ok true → s.oracle.isSubtype t v = .ok true

instance (s : Session) (types : List Ty) : Decidable (s.TransitiveOn types) :=
  inferInstanceAs (Decidable (∀ t ∈ types, ∀ u ∈ types, ∀ v ∈ types, _ → _ → _))

/-- What the declarations apply to when instantiated to bounds, so far as their bounds converge. -/
def boundedTypes (s : Session) (cs : List Candidate) : List Ty :=
  cs.filterMap fun c =>
    match s.oracle.instantiateDecl c.decl with
    | .ok (.ok t) => some t
    | _ => none

theorem mem_boundedTypes_iff {cs : List Candidate} {t : Ty} :
    t ∈ s.boundedTypes cs ↔ ∃ c ∈ cs, s.oracle.instantiateDecl c.decl = .ok (.ok t) := by
  simp only [boundedTypes, List.mem_filterMap]
  refine exists_congr fun c => and_congr_right fun _ => ?_
  split <;> simp_all

theorem mem_boundedTypes {cs : List Candidate} {t : Ty} (hc : c ∈ cs)
    (h : s.oracle.instantiateDecl c.decl = .ok (.ok t)) : t ∈ s.boundedTypes cs :=
  mem_boundedTypes_iff.2 ⟨c, hc, h⟩

def Comparable (s : Session) (site : Site) (cs : List Candidate) : Prop :=
  ∀ a ∈ cs, ∀ b ∈ cs, ∃ o, (s.compare site a b).outcome = .ok o

instance (s : Session) (site : Site) (cs : List Candidate) : Decidable (s.Comparable site cs) :=
  inferInstanceAs (Decidable (∀ a ∈ cs, ∀ b ∈ cs, ∃ o, (s.compare site a b).outcome = .ok o))

theorem strictlyBelow_of_answered {t u : Ty} {answer : Bool}
    (below : s.oracle.isSubtype t u = .ok true) (answered : s.oracle.isSubtype u t = .ok answer)
    (strict : s.oracle.isSubtype u t ≠ .ok true) : s.strictlyBelow t u := by
  cases answer with
  | false => exact ⟨below, answered⟩
  | true => exact absurd answered strict

theorem compareByType_answered (h : (s.compareByType a b).outcome = .ok o) :
    ∃ answer, s.oracle.isSubtype b.appliesTo a.appliesTo = .ok answer := by
  obtain ⟨_, backward, answers, _⟩ := compareByType_eq_ok.1 h
  exact ⟨backward, (compareTypes_eq_ok.1 answers).2⟩

theorem compareByType_bounds_answered {t u : Ty} (h : (s.compareByType a b).outcome = .ok o)
    (same : s.equivalent a.appliesTo b.appliesTo) (mode : s.options.tieBreak = .byBounds)
    (bounded : s.oracle.instantiateDecl a.decl = .ok (.ok t))
    (bounded' : s.oracle.instantiateDecl b.decl = .ok (.ok u)) :
    ∃ answer, s.oracle.isSubtype u t = .ok answer := by
  obtain ⟨_, _, answers, decided⟩ := compareByType_eq_ok.1 h
  have both : s.compareTypes a.appliesTo b.appliesTo = .ok (true, true) :=
    compareTypes_eq_ok.2 same
  rw [both] at answers
  cases answers
  simp only [Bool.and_self, mode, if_true, breakTie_eq_ok] at decided
  obtain ⟨t', u', ht, hu, tie⟩ := decided
  rw [boundedType_eq_some.2 bounded] at ht
  rw [boundedType_eq_some.2 bounded'] at hu
  cases ht
  cases hu
  obtain ⟨_, backward, answers, _⟩ := tie
  exact ⟨backward, (compareTypes_eq_ok.1 answers).2⟩

section Order

variable {cs : List Candidate} (types : s.TransitiveOn (cs.map (·.appliesTo)))
  (bounds : s.TransitiveOn (s.boundedTypes cs))
include types bounds

/-- The types decide, or all three candidates are tied and the bounds decide. -/
theorem compareByType_trans (ha : a ∈ cs) (hb : b ∈ cs) (hc : c ∈ cs)
    (answered : (s.compareByType a c).outcome = .ok o)
    (first : (s.compareByType a b).outcome = .ok .less)
    (second : (s.compareByType b c).outcome = .ok .less) :
    (s.compareByType a c).outcome = .ok .less := by
  rw [compareByType_eq_less] at first second ⊢
  have ta := List.mem_map_of_mem (f := Candidate.appliesTo) ha
  have tb := List.mem_map_of_mem (f := Candidate.appliesTo) hb
  have tc := List.mem_map_of_mem (f := Candidate.appliesTo) hc
  have ab : s.oracle.isSubtype a.appliesTo b.appliesTo = .ok true := by
    rcases first with below | ⟨same, _⟩
    exacts [below.1, same.1]
  have bc : s.oracle.isSubtype b.appliesTo c.appliesTo = .ok true := by
    rcases second with below | ⟨same, _⟩
    exacts [below.1, same.1]
  have ac := types _ ta _ tb _ tc ab bc
  obtain ⟨answer, ca⟩ := compareByType_answered answered
  cases answer with
  | false => exact .inl ⟨ac, ca⟩
  | true =>
    -- Going back from `c` to `a` makes all three types equivalent.
    have ba := types _ tb _ tc _ ta bc ca
    have cb := types _ tc _ ta _ tb ca ab
    rcases first with below | ⟨_, mode, t, u, ht, hu, tu⟩
    · simp [below.2] at ba
    rcases second with below | ⟨_, _, u', v, hu', hv, uv⟩
    · simp [below.2] at cb
    obtain rfl : u = u' := by simpa [hu] using hu'
    have mt := mem_boundedTypes ha ht
    have mu := mem_boundedTypes hb hu
    have mv := mem_boundedTypes hc hv
    have tv := bounds t mt u mu v mv tu.1 uv.1
    obtain ⟨answer, vt⟩ := compareByType_bounds_answered answered ⟨ac, ca⟩ mode ht hv
    refine .inr ⟨⟨ac, ca⟩, mode, t, v, ht, hv, strictlyBelow_of_answered tv vt ?_⟩
    intro vt
    have ut := bounds u mu v mv t mt uv.1 vt
    simp [tu.2] at ut

theorem precedes_trans (distinct : (cs.map (·.decl)).Nodup) (answered : s.Comparable site cs)
    (ha : a ∈ cs) (hb : b ∈ cs) (hc : c ∈ cs) (first : s.precedes site a b)
    (second : s.precedes site b c) : s.precedes site a c := by
  have ac : a.decl ≠ c.decl := by
    intro same
    obtain rfl := List.inj_on_of_nodup_map distinct ha hc same
    exact precedes_asymm first second
  obtain ⟨ab, enclosing | ⟨notB, first⟩⟩ := precedes_iff.1 first
  · exact precedes_iff.2 ⟨ac, .inl enclosing⟩
  obtain ⟨bc, enclosing | ⟨notC, second⟩⟩ := precedes_iff.1 second
  · exact absurd enclosing notB
  refine precedes_iff.2 ⟨ac, or_iff_not_imp_left.2 fun notA => ⟨notC, ?_⟩⟩
  rw [← compareByType_eq_less] at first second ⊢
  obtain ⟨answer, h⟩ := answered a ha c hc
  rw [compare, if_neg ac, if_neg notA, if_neg notC] at h
  exact compareByType_trans types bounds ha hb hc h first second

end Order

end Session

end MemberAccess
