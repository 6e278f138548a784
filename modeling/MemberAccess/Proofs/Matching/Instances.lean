import MemberAccess.Proofs.Matching.Applicability
import MemberAccess.Proofs.Typing.Stripping

/-!
Patterns and their own instances. An instance offers each variable the type that is put in its
place, perhaps without some of its question marks, so that what a variable is offered several times
can always be merged, and what is found for the variables makes up for the instance.
-/
namespace MemberAccess

open Filter Unification

/-- Whether the functions in a pattern have no other parameters than variables and types that
    mention none. -/
def Ty.paramsSolvable (vars : List ParamId) : Ty → Bool
  | .func ps _ => solvable vars ps
  | _ => true

def Ty.Solvable (vars : List ParamId) (t : Ty) : Prop := t.Every (paramsSolvable vars ·)

instance (vars : List ParamId) (t : Ty) : Decidable (t.Solvable vars) :=
  inferInstanceAs (Decidable (t.Every _))

namespace Program

/-- Whether a pattern has no placeholders, no variables in promoted types, and functions with
    solvable parameters only. -/
def Plain (P : Program) (vars : List ParamId) (t : Ty) : Prop :=
  t.Every fun part => part ≠ .unknown ∧ (part.isPromoted → part.Free vars) ∧
    part.paramsSolvable vars ∧ P.headInRange part

/-- Whether types are assigned to the variables of a pattern, and to no others. -/
structure Assigns (P : Program) (vars : List ParamId) (f : ParamId → Option Ty) : Prop where
  outside : ∀ p, p ∉ vars → f p = none
  value : ∀ p ∈ vars, ∃ w, f p = some w
  known : ∀ p w, f p = some w → w.Known
  inRange : ∀ p w, f p = some w → P.InRange w

/-- Whether the types that are found for the variables are what is left of those that are assigned
    to them, and accept null if what is offered does. -/
structure Serves (f : ParamId → Option Ty) (os : List Offer) (g : ParamId → Option Ty) : Prop where
  stripped : ∀ p u, g p = some u → ∃ w, f p = some w ∧ w.Strips u
  accepts : ∀ o ∈ os, ∃ u, g o.param = some u ∧ (o.type.acceptsNull → u.acceptsNull)

/-- Whether a step, from some limit and some depth on, records offers of what is left of the types
    that are assigned to the variables, and whatever serves the offers has a property. -/
structure Presents (P : Program) (f : ParamId → Option Ty) (step : (limit depth : Nat) → Step)
    (holds : (ParamId → Option Ty) → Prop) (os : List Offer) : Prop where
  own : ∀ o ∈ os, ∃ w, f o.param = some w ∧ w.Strips o.type
  run : ∃ n, ∀ᶠ limit in atTop, ∀ k ≥ n, step limit k = P.record limit os
  holds : ∀ g, Serves f os g → holds g

variable {P : Program} {vars : List ParamId} {f g : ParamId → Option Ty} {p : ParamId}
  {t c u v w : Ty} {ts : List Ty} {os os' : List Offer} {limit : Nat}
  {step step' : Nat → Nat → Step} {holds holds' : (ParamId → Option Ty) → Prop}

theorem Serves.append (h : Serves f (os ++ os') g) : Serves f os g ∧ Serves f os' g :=
  ⟨⟨h.stripped, fun o ho => h.accepts o (List.mem_append_left _ ho)⟩,
    ⟨h.stripped, fun o ho => h.accepts o (List.mem_append_right _ ho)⟩⟩

section Presents

theorem Presents.mono (h : P.Presents f step holds os)
    (imp : ∀ g, Serves f os g → holds g → holds' g) : P.Presents f step holds' os :=
  ⟨h.own, h.run, fun g serves => imp g serves (h.holds g serves)⟩

theorem presents_check (h : ∃ n, ∀ᶠ limit in atTop, ∀ k ≥ n, step limit k = .done)
    (always : ∀ g, Serves f [] g → holds g) : P.Presents f step holds [] :=
  ⟨by simp, h, always⟩

theorem presents_offer (value : f p = some w) (stripped : w.Strips c) (covariant : Bool)
    (h : ∃ n, ∀ᶠ limit in atTop, ∀ k ≥ n, step limit k = P.bindLower limit p c) :
    P.Presents f step (fun g => ∃ u, g p = some u ∧ w.Strips u ∧ (c.acceptsNull → u.acceptsNull))
      [⟨p, c, covariant⟩] where
  own := by simpa using ⟨w, value, stripped⟩
  run := by
    obtain ⟨n, h⟩ := h
    refine ⟨n, h.mono fun limit h k hk => ?_⟩
    rw [h k hk]
    exact andThen_done.symm
  holds g serves := by
    obtain ⟨u, hu, accepts⟩ := serves.accepts _ List.mem_cons_self
    obtain ⟨w', hw', stripped⟩ := serves.stripped p u hu
    rw [value] at hw'
    cases hw'
    exact ⟨u, hu, stripped, accepts⟩

theorem Presents.andThen (first : P.Presents f step holds os)
    (second : P.Presents f step' holds' os') :
    P.Presents f (fun limit k => .andThen (step limit k) (step' limit k))
      (fun g => holds g ∧ holds' g) (os ++ os') where
  own := List.forall_mem_append.2 ⟨first.own, second.own⟩
  run := by
    obtain ⟨n, hn⟩ := first.run
    obtain ⟨m, hm⟩ := second.run
    refine ⟨max n m, ?_⟩
    filter_upwards [hn, hm] with limit hn hm k hk
    rw [hn k (by omega), hm k (by omega), record_append]
  holds g serves := ⟨first.holds g serves.append.1, second.holds g serves.append.2⟩

theorem exists_presents_pairwise (step : Nat → Nat → Ty → Ty → Step)
    {holds : Ty → (ParamId → Option Ty) → Prop}
    (h : ∀ t ∈ ts, ∃ os,
      P.Presents f (fun limit k => step limit k t (t.replace f)) (holds t) os) :
    ∃ os, P.Presents f (fun limit k => .pairwise (step limit k) ts (ts.map (Ty.replace f)))
      (fun g => ∀ t ∈ ts, holds t g) os := by
  induction ts with
  | nil => exact ⟨[], presents_check ⟨0, .of_forall fun _ _ _ => rfl⟩ (by simp)⟩
  | cons t ts ih =>
    obtain ⟨⟨os, first⟩, rest⟩ := List.forall_mem_cons.1 h
    obtain ⟨os', rest⟩ := ih rest
    have whole : P.Presents f _ (fun g => ∀ u ∈ t :: ts, holds u g) (os ++ os') :=
      (first.andThen rest).mono fun g _ h => List.forall_mem_cons.2 h
    refine ⟨os ++ os', whole.own, ?_, whole.holds⟩
    obtain ⟨n, run⟩ := whole.run
    refine ⟨n, run.mono fun limit run k hk => ?_⟩
    rw [← run k hk]
    simp [Step.pairwise, Step.each]

theorem Presents.deeper (mentions : ¬ t.Free vars) (notVar : varOf? vars t = none)
    (h : P.Presents f
      (fun limit k => P.matchByShape limit vars (P.matchType limit vars k) t c) holds os) :
    P.Presents f (fun limit k => P.matchType limit vars k t c) holds os where
  own := h.own
  run := by
    obtain ⟨n, run⟩ := h.run
    refine ⟨n + 1, run.mono fun limit run k hk => ?_⟩
    obtain ⟨m, rfl⟩ : ∃ m, k = m + 1 := ⟨k - 1, by omega⟩
    rw [matchType_mentions mentions notVar]
    exact run m (by omega)
  holds := h.holds

theorem Presents.inner {t' c' : Ty} (mentions : ¬ t.Free vars) (notVar : varOf? vars t = none)
    (inner : P.Inner t c t' c')
    (h : P.Presents f (fun limit k => P.matchType limit vars k t' c') holds os) :
    P.Presents f (fun limit k => P.matchType limit vars k t c) holds os := by
  refine .deeper mentions notVar ?_
  simp only [inner.matchByShape]
  exact h

end Presents

section Instance

variable (wf : P.WellFormed) (assigns : P.Assigns vars f)

theorem Plain.known (plain : P.Plain vars t) : t.Known := fun part h => (plain part h).1

theorem Plain.inRange (plain : P.Plain vars t) : P.InRange t := fun part h => (plain part h).2.2.2

theorem inRange_normal (inRange : P.InRange t) : P.InRange t.normal :=
  headed_headInRange.every_replace inRange fun _ _ value => nomatch value

include assigns

theorem Assigns.inRange_replace (inRange : P.InRange t) : P.InRange (t.replace f) :=
  headed_headInRange.every_replace inRange assigns.inRange

theorem Assigns.replace_eq (free : t.Free vars) : t.replace f = t.normal :=
  Ty.replace_of_free assigns.outside free

theorem Assigns.serves_outside (serves : Serves f os g) : ∀ p, p ∉ vars → g p = none := by
  intro p hp
  cases value : g p with
  | none => rfl
  | some u =>
    obtain ⟨w, hw, _⟩ := serves.stripped p u value
    rw [assigns.outside p hp] at hw
    cases hw

theorem Assigns.serves_known (serves : Serves f os g) : ∀ p u, g p = some u → u ≠ .unknown := by
  intro p u value
  obtain ⟨w, hw, stripped⟩ := serves.stripped p u value
  exact Ty.Known.ne_unknown (stripped.every (assigns.known p w hw))

include wf

theorem Assigns.exists_presents_param (plain : P.Plain vars t)
    (solvable : t.Free vars ∨ ∃ p ∈ vars, t = .param p) :
    ∃ os, P.Presents f (fun limit _ => P.matchParam limit vars t (t.replace f))
      (fun g => bare.Derivable (t.replace g) (t.replace f)) os := by
  rcases solvable with free | ⟨p, hp, rfl⟩
  · refine ⟨[], presents_check ⟨0, ?_⟩ fun g serves => ?_⟩
    · have below := wf.eventually_subtype plain.inRange (inRange_normal plain.inRange)
        (replaces_normal t).1.derivable
      filter_upwards [below] with limit hlimit _ _
      rw [assigns.replace_eq free, matchParam, varOf?_of_free free]
      simp only [Ty.not_mentionsAny_iff.2 free]
      rw [hlimit]
      rfl
    · rw [assigns.replace_eq free, Ty.replace_of_free (assigns.serves_outside serves) free]
      exact .refl _
  · obtain ⟨w, hw⟩ := assigns.value p hp
    have bind (limit : Nat) : P.matchParam limit vars (.param p) w = P.bindLower limit p w := by
      simp [matchParam, varOf?, hp]
    simp only [Ty.replace, hw, Option.getD_some, bind]
    refine ⟨_, (presents_offer hw .refl false ⟨0, .of_forall fun _ _ _ => rfl⟩).mono ?_⟩
    rintro g - ⟨u, hu, stripped, _⟩
    rw [hu]
    exact stripped.part_below

theorem Assigns.exists_presents_free (plain : P.Plain vars t) (free : t.Free vars)
    (stripped : (t.replace f).Strips c) :
    ∃ os, P.Presents f (fun limit k => P.matchType limit vars k t c)
      (fun g => bare.Derivable c (t.replace g)) os := by
  have inRange : P.InRange c := stripped.every (assigns.inRange_replace plain.inRange)
  rw [assigns.replace_eq free] at stripped
  refine ⟨[], presents_check ⟨1, ?_⟩ fun g serves => ?_⟩
  · have below := wf.eventually_subtype inRange plain.inRange (stripped.normal_below plain.known)
    filter_upwards [below] with limit hlimit k hk
    obtain ⟨m, rfl⟩ : ∃ m, k = m + 1 := ⟨k - 1, by omega⟩
    rw [matchType_free free, hlimit]
    rfl
  · rw [Ty.replace_of_free (assigns.serves_outside serves) free]
    exact stripped.part_below

theorem Assigns.exists_presents (plain : P.Plain vars t) (stripped : (t.replace f).Strips c) :
    ∃ os, P.Presents f (fun limit k => P.matchType limit vars k t c)
      (fun g => bare.Derivable c (t.replace g)) os := by
  induction t using Ty.induct generalizing c with
  | unknown | dynamic | void | never =>
    exact assigns.exists_presents_free wf plain (by simp [Ty.Free, Ty.param?]) stripped
  | promoted p bound =>
    exact assigns.exists_presents_free wf plain (plain.self.2.1 rfl) stripped
  | param p =>
    by_cases hp : p ∈ vars
    · obtain ⟨w, hw⟩ := assigns.value p hp
      simp only [Ty.replace, hw, Option.getD_some] at stripped ⊢
      have run : ∃ n, ∀ᶠ limit in atTop, ∀ k ≥ n,
          P.matchType limit vars k (.param p) c = P.bindLower limit p c := by
        refine ⟨1, .of_forall fun limit k hk => ?_⟩
        obtain ⟨m, rfl⟩ : ∃ m, k = m + 1 := ⟨k - 1, by omega⟩
        exact matchType_var hp
      refine ⟨_, (presents_offer hw stripped true run).mono ?_⟩
      rintro g - ⟨u, hu, remains, accepts⟩
      rw [hu]
      exact stripped.derivable remains accepts
    · have free : (Ty.param p).Free vars := by simpa [Ty.Free, Ty.param?] using hp
      exact assigns.exists_presents_free wf plain free stripped
  | nullable t ih =>
    by_cases free : t.Free vars
    · exact assigns.exists_presents_free wf plain (Ty.free_nullable.2 free) stripped
    have mentions : ¬ (Ty.nullable t).Free vars := mt Ty.free_nullable.1 free
    have plain : P.Plain vars t := (Ty.every_nullable.1 plain).2
    rw [Ty.replace] at stripped
    rcases stripped.of_orNull with ⟨d, rfl, inner⟩ | ⟨last, inner⟩
    · obtain ⟨os, h⟩ := ih plain inner
      refine ⟨os, (Presents.inner mentions rfl .nullable h).mono fun g _ below => ?_⟩
      exact below.orNull_right.nullable_left acceptsNull_orNull
    by_cases extreme : c = .never ∨ c = .unknown ∨ c.isNull
    · -- what has a question mark is not asked what it offers to these types
      have done (limit : Nat) (go : Ty → Ty → Step) :
          P.matchByShape limit vars go (.nullable t) c = .done := by
        rcases extreme with rfl | rfl | isNull
        · rfl
        · rfl
        · cases c with
          | interface d as => exact if_pos isNull
          | _ => cases isNull
      have skip : P.Presents f (fun limit k => P.matchByShape limit vars (P.matchType limit vars k)
          (.nullable t) c) (fun g => bare.Derivable c (t.replace g).orNull) [] := by
        refine presents_check ⟨0, .of_forall fun limit k _ => done limit _⟩ fun g _ => ?_
        rcases extreme with rfl | rfl | isNull
        · exact ⟨1, .never⟩
        · exact .unknown_left
        · exact .null isNull acceptsNull_orNull
      exact ⟨[], skip.deeper mentions rfl⟩
    · push Not at extreme
      obtain ⟨notNever, notUnknown, notNull⟩ := extreme
      obtain ⟨os, h⟩ := ih plain inner
      have right : P.Inner (.nullable t) c t c :=
        .nullable_right notNever notUnknown (by simpa using notNull) last
      exact ⟨os, (Presents.inner mentions rfl right h).mono fun g _ below => below.orNull_right⟩
  | futureOr t ih =>
    by_cases free : t.Free vars
    · exact assigns.exists_presents_free wf plain (Ty.free_futureOr.2 free) stripped
    have mentions : ¬ (Ty.futureOr t).Free vars := mt Ty.free_futureOr.1 free
    obtain rfl : c = .futureOr (t.replace f) := stripped.eq fun _ => by simp [Ty.replace]
    obtain ⟨os, h⟩ := ih (Ty.every_futureOr.1 plain).2 .refl
    refine ⟨os, (Presents.inner mentions rfl .futureOr h).mono fun g serves below => ?_⟩
    have known : t.replace g ≠ .unknown :=
      Ty.replace_ne_unknown free (assigns.serves_known serves)
    exact .futureOr_left (below.future.widen .future) (below.widen (.futureOr known))
  | interface d as ih =>
    by_cases free : (Ty.interface d as).Free vars
    · exact assigns.exists_presents_free wf plain free stripped
    obtain rfl : c = (Ty.interface d as).replace f := stripped.eq fun _ => by simp [Ty.replace]
    have self : P.superArgs? ⟨d, as.map (Ty.replace f)⟩ d = .ok (some (as.map (Ty.replace f))) := by
      have inRange := assigns.inRange_replace plain.inRange
      rw [Ty.replace, Ty.replaceAll_eq_map] at inRange
      exact wf.superArgs_self (i := ⟨d, as.map (Ty.replace f)⟩) inRange
    obtain ⟨os, h⟩ := exists_presents_pairwise (fun limit k => P.matchType limit vars k)
      fun t ht => ih t ht ((Ty.every_interface.1 plain).2 t ht) .refl
    refine ⟨os, (Presents.deeper free rfl ⟨h.own, ?_, h.holds⟩).mono fun g _ below => ?_⟩
    · simp only [Ty.replace, Ty.replaceAll_eq_map, matchByShape, self, ok_bind]
      exact h.run
    · simp only [Ty.replace, Ty.replaceAll_eq_map]
      by_cases null : d = .null
      · have isNull (ts : List Ty) : (Ty.interface d ts).isNull := by simp [Ty.isNull, null]
        exact .null (isNull _) (isNull _)
      · refine .interface null .refl (by simp) (forall_mem_zip_map_left.2 ?_)
        exact forall_mem_zip_map_right.2 (forall_mem_zip_self.2 below)
  | func ps r ihParams ihResult =>
    by_cases free : (Ty.func ps r).Free vars
    · exact assigns.exists_presents_free wf plain free stripped
    obtain rfl : c = (Ty.func ps r).replace f := stripped.eq fun _ => by simp [Ty.replace]
    obtain ⟨head, plainParams, plainResult⟩ := Ty.every_func.1 plain
    have solvable := Ty.solvable_iff.1 head.2.2.1
    obtain ⟨os, params⟩ := exists_presents_pairwise
      (fun limit _ => P.matchParam limit vars)
      fun t ht => assigns.exists_presents_param wf (plainParams t ht) (solvable t ht)
    obtain ⟨os', result⟩ := ihResult plainResult .refl
    have both := params.andThen result
    refine ⟨os ++ os', (Presents.deeper free rfl ⟨both.own, ?_, both.holds⟩).mono ?_⟩
    · simpa only [Ty.replace, Ty.replaceAll_eq_map, matchByShape] using both.run
    · rintro g - ⟨below, belowResult⟩
      simp only [Ty.replace, Ty.replaceAll_eq_map]
      refine .func (by simp) (forall_mem_zip_map_left.2 ?_) belowResult
      exact forall_mem_zip_map_right.2 (forall_mem_zip_self.2 below)
  | record fs ih =>
    by_cases free : (Ty.record fs).Free vars
    · exact assigns.exists_presents_free wf plain free stripped
    obtain rfl : c = (Ty.record fs).replace f := stripped.eq fun _ => by simp [Ty.replace]
    obtain ⟨os, h⟩ := exists_presents_pairwise (fun limit k => P.matchType limit vars k)
      fun t ht => ih t ht ((Ty.every_record.1 plain).2 t ht) .refl
    refine ⟨os, (Presents.deeper free rfl ⟨h.own, ?_, h.holds⟩).mono fun g _ below => ?_⟩
    · simpa only [Ty.replace, Ty.replaceAll_eq_map, matchByShape] using h.run
    · simp only [Ty.replace, Ty.replaceAll_eq_map]
      refine .record (by simp) (forall_mem_zip_map_left.2 ?_)
      exact forall_mem_zip_map_right.2 (forall_mem_zip_self.2 below)

end Instance

section Merging

variable (wf : P.WellFormed) (inRange : P.InRange w)

include wf inRange

/-- Of two types that are left of one type, the upper bound is the one that accepts null if one of
    them does. -/
theorem eventually_upperBound (hu : w.Strips u) (hv : w.Strips v) :
    ∃ r, w.Strips r ∧ (u.acceptsNull ∨ v.acceptsNull → r.acceptsNull) ∧
      ∀ᶠ limit in atTop, P.upperBound (limit + 1) u v = .ok r := by
  have inRangeU : P.InRange u := hu.every inRange
  have inRangeV : P.InRange v := hv.every inRange
  by_cases accepts : u.acceptsNull → v.acceptsNull
  · refine ⟨v, hv, fun either => either.elim accepts id, ?_⟩
    filter_upwards [wf.eventually_subtype inRangeU inRangeV (hu.derivable hv accepts)] with limit h
    rw [isSubtype] at h
    rw [upperBound, h]
    rfl
  · obtain ⟨acceptsU, refusesV⟩ := Classical.not_imp.1 accepts
    refine ⟨u, hu, fun _ => acceptsU, ?_⟩
    have question : ∃ t, u = .nullable t := by
      rcases hu.total hv with h | h
      · cases h with
        | refl => exact absurd acceptsU refusesV
        | nullable => exact ⟨_, rfl⟩
      · cases h with
        | refl => exact absurd acceptsU refusesV
        | nullable => exact absurd rfl refusesV
    obtain ⟨t, rfl⟩ := question
    have back := wf.eventually_subtype inRangeV inRangeU (hv.derivable hu fun _ => rfl)
    filter_upwards [back] with limit h
    obtain ⟨answer, hanswer⟩ := wf.closed.subtype_answered (n := limit + 1) inRangeU inRangeV
    cases answer with
    | true => exact absurd hanswer (not_subtype_nullable refusesV)
    | false =>
      rw [isSubtype] at h
      rw [upperBound, hanswer, ok_bind, h]
      rfl

theorem eventually_merged {found : Option Ty} (hts : ∀ t ∈ ts, w.Strips t)
    (hfound : ∀ t ∈ found, w.Strips t) :
    ∃ r : Option Ty, (∀ᶠ limit in atTop, P.merged limit found ts = .ok r) ∧
      (∀ u ∈ r, w.Strips u) ∧ (ts = [] → r = found) ∧
      ∀ t, t ∈ ts ∨ t ∈ found → ∃ u, r = some u ∧ (t.acceptsNull → u.acceptsNull) := by
  induction ts generalizing found with
  | nil =>
    refine ⟨found, .of_forall fun _ => rfl, hfound, fun _ => rfl, fun t ht => ?_⟩
    exact ⟨t, ht.resolve_left (by simp), id⟩
  | cons t ts ih =>
    obtain ⟨ht, hts⟩ := List.forall_mem_cons.1 hts
    cases found with
    | none =>
      have hfirst : ∀ u ∈ some t, w.Strips u := by simpa using ht
      obtain ⟨r, run, remains, _, accepts⟩ := ih hts hfirst
      refine ⟨r, run, remains, by simp, fun u hu => accepts u ?_⟩
      simpa [or_comm, eq_comm] using hu
    | some lower =>
      obtain ⟨b, hb, above, bound⟩ :=
        eventually_upperBound wf inRange (hfound lower rfl) ht
      have hbest : ∀ u ∈ some b, w.Strips u := by simpa using hb
      obtain ⟨r, run, remains, _, accepts⟩ := ih hts hbest
      refine ⟨r, ?_, remains, by simp, fun u hu => ?_⟩
      · filter_upwards [run, bound] with limit hrun hbound
        rw [merged, hbound, ok_bind, hrun]
      obtain ⟨v, hv, acceptsV⟩ := accepts b (.inr rfl)
      have through (h : u.acceptsNull → b.acceptsNull) :
          ∃ u', r = some u' ∧ (u.acceptsNull → u'.acceptsNull) := ⟨v, hv, fun hu => acceptsV (h hu)⟩
      rcases hu with hu | hu
      · rcases List.mem_cons.1 hu with rfl | hu
        · exact through fun h => above (.inr h)
        · exact accepts u (.inl hu)
      · obtain rfl : lower = u := by simpa using hu
        exact through fun h => above (.inl h)

end Merging

theorem Assigns.exists_serves (wf : P.WellFormed) (assigns : P.Assigns vars f)
    (own : ∀ o ∈ os, ∃ w, f o.param = some w ∧ w.Strips o.type) : ∃ g, Serves f os g ∧
      ∀ᶠ limit in atTop, ∃ s, P.record limit os .empty = .ok (some s) ∧ ∀ p, s.get? p = g p := by
  have each (p : ParamId) : ∃ r : Option Ty,
      (∀ᶠ limit in atTop, P.merged limit none (offered os p) = .ok r) ∧
      (∀ u ∈ r, ∃ w, f p = some w ∧ w.Strips u) ∧
      ∀ t ∈ offered os p, ∃ u, r = some u ∧ (t.acceptsNull → u.acceptsNull) := by
    by_cases nothing : offered os p = []
    · exact ⟨none, by simp [nothing, merged], by simp, by simp [nothing]⟩
    obtain ⟨t, ht⟩ := List.exists_mem_of_ne_nil _ nothing
    obtain ⟨o, ho, rfl, rfl⟩ := mem_offered.1 ht
    obtain ⟨w, hw, _⟩ := own o ho
    have strips : ∀ t ∈ offered os o.param, w.Strips t := by
      intro t ht
      obtain ⟨o', ho', same, rfl⟩ := mem_offered.1 ht
      obtain ⟨w', hw', stripped⟩ := own o' ho'
      rw [same, hw] at hw'
      cases hw'
      exact stripped
    have hnone : ∀ t ∈ (none : Option Ty), w.Strips t := by simp
    obtain ⟨r, run, remains, _, accepts⟩ :=
      eventually_merged wf (assigns.inRange _ w hw) strips hnone
    exact ⟨r, run, fun u hu => ⟨w, hw, remains u hu⟩, fun t ht => accepts t (.inl ht)⟩
  choose g run remains accepts using each
  refine ⟨g, ⟨fun p u hu => remains p u hu, fun o ho => ?_⟩, eventually_record run⟩
  exact accepts o.param o.type (mem_offered.2 ⟨o, ho, rfl, rfl⟩)

theorem Assigns.eventually_unify (wf : P.WellFormed) (assigns : P.Assigns vars f)
    (plain : P.Plain vars t) :
    ∀ᶠ limit in atTop, ∃ s, P.unify limit t (t.replace f) vars = .ok (some s) := by
  obtain ⟨os, presents⟩ := assigns.exists_presents wf plain .refl
  obtain ⟨g, serves, recorded⟩ := assigns.exists_serves wf presents.own
  obtain ⟨n, run⟩ := presents.run
  have inRangeG : ∀ p u, g p = some u → P.InRange u := by
    intro p u hu
    obtain ⟨w, hw, stripped⟩ := serves.stripped p u hu
    exact stripped.every (assigns.inRange p w hw)
  have below := wf.eventually_subtype (assigns.inRange_replace plain.inRange)
    (headed_headInRange.every_replace plain.inRange inRangeG) (presents.holds g serves)
  have alone : ∀ᶠ limit in atTop, t.Free vars → P.isSubtype limit (t.replace f) t = .ok true := by
    by_cases free : t.Free vars
    · rw [assigns.replace_eq free]
      have back := wf.eventually_subtype (inRange_normal plain.inRange) plain.inRange
        (replaces_normal t).2.derivable
      exact back.mono fun limit h _ => h
    · exact .of_forall fun _ h => absurd h free
  filter_upwards [run, recorded, below, alone, eventually_ge_atTop n]
    with limit hrun hrecorded hbelow halone hn
  obtain ⟨s, hs, same⟩ := hrecorded
  refine ⟨s, unify_eq_some.2 ⟨by rw [hrun (limit + 1) (by omega), hs], ?_⟩⟩
  obtain rfl : s.get? = g := funext same
  unfold Ty.substitute
  split
  · by_cases free : t.Free vars
    · exact .inr (halone free)
    · exact .inl (Ty.mentionsAny_iff.2 free)
  · exact .inr hbelow

/-- A declaration applies to all instances of its own type, from some limit on, if the parameters of
    the functions in that type are parameters of the declaration or mention none. -/
theorem applicable_to_instances (P : Program) (options : Options) (site : Site) (d : DeclId)
    (decl : Decl) (s : Substitution) (wf : P.WellFormed) (hd : P.decls.get? d = some decl)
    (applied : ∀ target, decl.body ≠ .shorthand target) (known : decl.appliesTo.Known)
    (unpromoted : decl.appliesTo.Unpromoted decl.params)
    (solvable : decl.appliesTo.Solvable decl.params)
    (domain : ∀ p, (s.get? p).isSome ↔ p ∈ decl.params)
    (values : ∀ p t, s.get? p = some t → t.Known ∧ P.InRange t) :
    let receiver := decl.appliesTo.substitute s
    (∀ᶠ limit in atTop, ∃ r, P.unify limit decl.appliesTo receiver decl.params = .ok (some r)) ∧
    (receiver ≠ .dynamic → decl.hasFittingMember { site with receiver := .value receiver } →
      ∀ᶠ limit in atTop, P.Keeps { options with limit } site receiver d) := by
  intro receiver
  have unifies : ∀ᶠ limit in atTop,
      ∃ r, P.unify limit decl.appliesTo receiver decl.params = .ok (some r) := by
    have inRange : P.InRange decl.appliesTo := (wf.decls d decl hd).appliesTo
    by_cases empty : s.isEmpty
    · have noParams (p : ParamId) (hp : p ∈ decl.params) : False := by
        have none : s.get? p = none := by
          rw [Substitution.get?, List.isEmpty_iff.1 empty]
          rfl
        simpa [none] using (domain p).2 hp
      have free : decl.appliesTo.Free decl.params := fun _ _ p _ hp => noParams p hp
      have same : receiver = decl.appliesTo := if_pos empty
      have reflexive (limit : Nat) :
          P.isSubtype limit decl.appliesTo decl.appliesTo = .ok true := subtype_of_easy (.inl rfl)
      refine .of_forall fun limit => ⟨.empty, unify_eq_some.2 ?_⟩
      rw [same, matchType_free free, reflexive]
      exact ⟨rfl, .inr (reflexive limit)⟩
    · have replaced : receiver = decl.appliesTo.replace s.get? := if_neg empty
      have assigns : P.Assigns decl.params s.get? :=
        { outside := fun p hp => by simpa using mt (domain p).1 hp
          value := fun p hp => Option.isSome_iff_exists.1 ((domain p).2 hp)
          known := fun p t ht => (values p t ht).1
          inRange := fun p t ht => (values p t ht).2 }
      rw [replaced]
      exact assigns.eventually_unify wf fun part hpart =>
        ⟨known part hpart, unpromoted part hpart, solvable part hpart, inRange part hpart⟩
  refine ⟨unifies, fun notDynamic fitting => unifies.mono fun limit unified => ?_⟩
  exact (keeps_iff hd).2 ⟨notDynamic, fitting, applied, unified⟩

def unaryExtension (receiver : Ty) : Decl :=
  { binder := none, params := [⟨4⟩], library := .core, body := .extension receiver,
    members := .singleton { name := "foo", kind := .getter } }

def unaryExtensions : Program :=
  let t : Ty := .param ⟨4⟩
  let list (t : Ty) : Ty := .interface ⟨10⟩ [t]
  { genericCore with
    decls := .ofList [unaryExtension (.record [.nullable t, list t, .func [t] t]),
      unaryExtension (.func [list t] .void), unaryExtension (.futureOr (.nullable t))] }

def danglingExtension : Program :=
  { unaryExtensions with decls := .ofList [unaryExtension (.interface ⟨11⟩ [.param ⟨4⟩])] }

theorem wellFormed_unaryExtensions : unaryExtensions.WellFormed where
  object := rfl
  future := rfl
  supers := by decide
  bounds := by decide
  decls := by decide

/-- A question mark in each of the places that it can come from. -/
theorem unaryExtensions_keeps :
    let site : Site := { name := "foo", receiver := .value .void, library := .core }
    let int : Ty := .nullable (.interface ⟨5⟩ [])
    let receiver : Ty := .record [int, .interface ⟨10⟩ [int], .func [int] int]
    ∀ᶠ limit in atTop, unaryExtensions.Keeps { limit } site receiver ⟨0⟩ := by
  intro site int receiver
  let s : Substitution := .ofList [(⟨4⟩, int)]
  have value (p : ParamId) : s.get? p = if p = ⟨4⟩ then some int else none := by
    simp [s, Substitution.ofList, Substitution.insertAll]
  have domain (p : ParamId) : (s.get? p).isSome ↔ p ∈ [⟨4⟩] := by
    rw [value]
    split <;> simp_all
  have proper (p : ParamId) (t : Ty) (ht : s.get? p = some t) :
      t.Known ∧ unaryExtensions.InRange t := by
    rw [value] at ht
    split at ht <;> cases ht
    exact ⟨by decide, by decide⟩
  obtain ⟨_, keeps⟩ := applicable_to_instances unaryExtensions {} site ⟨0⟩ _ s
    wellFormed_unaryExtensions rfl (fun _ h => by cases h) (by decide) (by decide) (by decide)
    domain proper
  exact keeps (by decide) rfl

def Misses (P : Program) (d : DeclId) (s : Substitution) : Prop :=
  ∃ decl, P.decls.get? d = some decl ∧
    (decl.appliesTo.Every fun part => part ≠ .unknown ∧ ¬ part.isPromoted) ∧
    (∀ p ∈ decl.params, P.boundOf p = .ok Ty.object.orNull) ∧
    s.entries.map Prod.fst = decl.params ∧ s.isClosed ∧ decl.appliesTo.substitute s ≠ .dynamic ∧
    ∀ limit r,
      P.unify limit decl.appliesTo (decl.appliesTo.substitute s) decl.params ≠ .ok (some r)

theorem instances_missed :
    let t (u : Ty) : Substitution := .ofList [(⟨4⟩, u)]
    let int : Ty := .interface ⟨5⟩ []
    unaryExtensions.Misses ⟨1⟩ (t int) ∧
    unaryExtensions.Misses ⟨2⟩ (t (.nullable (.nullable (.interface ⟨11⟩ [])))) ∧
    danglingExtension.Misses ⟨0⟩ (t int) := by
  intro t int
  refine ⟨⟨_, rfl, by decide, by decide, rfl, rfl, by decide, fun limit r h => ?_⟩,
    ⟨_, rfl, by decide, by decide, rfl, rfl, by decide, fun limit r h => ?_⟩,
    ⟨_, rfl, by decide, by decide, rfl, rfl, by decide, fun limit r h => ?_⟩⟩
  all_goals
    match limit with
    | 0 | 1 | 2 | 3 | 4 | _ + 5 => nomatch h

end Program

end MemberAccess
