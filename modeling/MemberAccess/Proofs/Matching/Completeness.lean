import MemberAccess.Proofs.Matching.Tractable

/-!
Completeness of matching. Where all that a pattern and a type are taken apart into is tractable, the
type matches the pattern as soon as it is below its widest instance.
-/
namespace MemberAccess.Program

open Unification

variable {P : Program} {vars : List ParamId} {width n : Nat} {a c t u v w bound : Ty} {p : ParamId}
  {d e : TypeId} {as bs xs ps cs : List Ty}

def Matched (P : Program) (vars : List ParamId) (t c : Ty) : Prop :=
  ∃ n os, P.Matches vars n t c os

section Matched

theorem Matched.inner (mentions : ¬ t.Free vars) (notVar : varOf? vars t = none)
    (h : P.Inner t c u v) (matched : P.Matched vars u v) : P.Matched vars t c := by
  obtain ⟨n, os, h'⟩ := matched
  exact ⟨n + 1, os, .inner mentions notVar h h'⟩

theorem matched_common {l : List (Ty × Ty)} (h : ∀ x ∈ l, P.Matched vars x.1 x.2) :
    ∃ n, ∃ f : Ty × Ty → List Offer, ∀ x ∈ l, P.Matches vars n x.1 x.2 (f x) := by
  have common : ∃ n, ∀ x ∈ l, ∃ os, P.Matches vars n x.1 x.2 os := by
    induction l with
    | nil => exact ⟨0, by simp⟩
    | cons x l ih =>
      obtain ⟨⟨n, os, hx⟩, hl⟩ := List.forall_mem_cons.1 h
      obtain ⟨m, hm⟩ := ih hl
      refine ⟨max n m, List.forall_mem_cons.2 ⟨⟨os, hx.mono (le_max_left n m)⟩, ?_⟩⟩
      intro y hy
      obtain ⟨os, hy⟩ := hm y hy
      exact ⟨os, hy.mono (le_max_right n m)⟩
  obtain ⟨n, hn⟩ := common
  obtain ⟨f, hf⟩ := exists_offers hn
  exact ⟨n, f, hf⟩

theorem Matched.of_climbs (mentions : ¬ t.Free vars) (notVar : varOf? vars t = none)
    (noUnion : ¬ t.isUnion) (h : Relation.ReflTransGen P.Climbs c a)
    (matched : P.Matched vars t a) : P.Matched vars t c := by
  induction h using Relation.ReflTransGen.head_induction_on with
  | refl => exact matched
  | head step _ ih =>
    cases step with
    | bound hbound => exact ih.inner mentions notVar (.param noUnion hbound)
    | promoted => exact ih.inner mentions notVar (.promoted noUnion)

theorem not_free_of_opens (opens : t.opens vars) : ¬ t.Free vars := by
  induction t using Ty.induct with
  | param p =>
    intro free
    exact Ty.every_param.1 free p rfl (by simpa [Ty.opens] using opens)
  | nullable t ih => exact mt Ty.free_nullable.1 (ih opens)
  | futureOr t ih => exact mt Ty.free_futureOr.1 (ih opens)
  | _ => cases opens

theorem matched_of_opens (coherent : P.Coherent) (opens : t.opens vars) (valid : P.Valid c) :
    P.Matched vars t c := by
  induction t using Ty.induct generalizing c with
  | param p => exact ⟨1, _, .var (by simpa [Ty.opens] using opens)⟩
  | nullable t ih =>
    have mentions : ¬ (Ty.nullable t).Free vars := not_free_of_opens opens
    by_cases extreme : c = .never ∨ c = .unknown
    · exact ⟨1, [], .bottom mentions rfl extreme⟩
    by_cases isNull : c.isNull
    · exact ⟨1, [], .null (mt Ty.free_nullable.2 mentions) isNull⟩
    rw [not_or] at extreme
    by_cases nullable : ∃ u, c = .nullable u
    · obtain ⟨u, rfl⟩ := nullable
      exact (ih opens (valid_nullable.1 valid)).inner mentions rfl .nullable
    · exact (ih opens valid).inner mentions rfl
        (.nullable_right extreme.1 extreme.2 isNull fun u hu => nullable ⟨u, hu⟩)
  | futureOr t ih =>
    have mentions : ¬ (Ty.futureOr t).Free vars := not_free_of_opens opens
    by_cases extreme : c = .never ∨ c = .unknown
    · exact ⟨1, [], .bottom mentions rfl extreme⟩
    rw [not_or] at extreme
    by_cases futureOr : ∃ u, c = .futureOr u
    · obtain ⟨u, rfl⟩ := futureOr
      exact (ih opens (valid_futureOr.1 valid)).inner mentions rfl .futureOr
    by_cases future : c.declaration? = some .future
    · obtain ⟨u, rfl⟩ := coherent.exists_future valid future
      exact (ih opens ((valid_interface.1 valid).2 u (by simp))).inner mentions rfl .future
    · exact (ih opens valid).inner mentions rfl
        (.futureOr_right extreme.1 extreme.2 (fun u hu => futureOr ⟨u, hu⟩) future)
  | _ => cases opens

end Matched

theorem shape_premise (coherent : P.Coherent) (valid : P.Valid w) (firm : w.isFirm)
    (noUnion : ¬ w.isUnion) (notVar : c.param? = none) (h : P.Derives n c w) :
    c = .never ∨ c = .unknown ∨ (∃ u, c = .futureOr u ∧ P.Derivable (.future u) w) ∨
      ∃ n, P.RightPremise n c w := by
  have notTop := not_isTop_of_isFirm coherent valid firm
  have notNull := not_isNull_of_isFirm coherent valid firm
  have rejects : ¬ w.acceptsNull := by
    cases w <;> simp_all [Ty.acceptsNull, Ty.isUnion, Ty.isFirm]
  cases h with
  | refl =>
    refine .inr (.inr (.inr ⟨1, ?_⟩))
    cases c with
    | interface d as =>
      have properHead : d ≠ .null := by simpa [Ty.isNull] using notNull
      exact .inr ⟨d, as, as, rfl, properHead, .refl, rfl, forall_mem_zip_self.2 fun _ _ => .refl⟩
    | func ps r =>
      exact ⟨ps, r, rfl, rfl, forall_mem_zip_self.2 fun _ _ => .refl, .refl⟩
    | record fs => exact ⟨fs, rfl, rfl, forall_mem_zip_self.2 fun _ _ => .refl⟩
    | nullable | futureOr => simp [Ty.isUnion] at noUnion
    | _ => cases firm
  | unknown_left => exact .inr (.inl rfl)
  | unknown_right => cases firm
  | top isTop => exact absurd isTop notTop
  | never => exact .inl rfl
  | null _ admits | nullable_left _ admits =>
    exact absurd (acceptsNull_of_admitsNull admits) rejects
  | func_object | record_object => cases firm
  | futureOr_left h _ => exact .inr (.inr (.inl ⟨_, rfl, h.derivable⟩))
  | nullable_right | future_right | futureOr_right => simp [Ty.isUnion] at noUnion
  | promoted_right => cases firm
  | param | promoted_param | promoted_bound => cases notVar
  | interface properHead reaches hlength h =>
    exact .inr (.inr (.inr ⟨_, .inr ⟨_, _, _, rfl, properHead, reaches, hlength, h⟩⟩))
  | func hlength params h => exact .inr (.inr (.inr ⟨_, _, _, rfl, hlength, params, h⟩))
  | record hlength h => exact .inr (.inr (.inr ⟨_, _, rfl, hlength, h⟩))

/-- Whether all scrutinees match a pattern as soon as they are below its widest instance. -/
def Complete (P : Program) (vars : List ParamId) (width : Nat) (t : Ty) : Prop :=
  ∀ c, P.Scrutinee vars width t c → P.Derivable c (t.widest vars width) → P.Matched vars t c

theorem matchesParam_of_lowest (solvable : t.Free vars ∨ ∃ p ∈ vars, t = .param p)
    (h : P.Derivable (t.lowest vars) c) : ∃ os, P.MatchesParam vars t c os := by
  rcases solvable with free | ⟨p, hp, rfl⟩
  · rw [Ty.lowest_of_free free] at h
    exact ⟨[], .free free h⟩
  · exact ⟨_, .var hp⟩

theorem complete_of_mentions (h : ¬ t.Free vars → P.Complete vars width t) :
    P.Complete vars width t := by
  by_cases free : t.Free vars
  · intro c _ below
    rw [Ty.widest_of_free free] at below
    exact ⟨1, [], .free free below⟩
  · exact h free

theorem matched_components (ih : ∀ p ∈ ps, P.Complete vars width p)
    (own : ∀ x ∈ ps.zip xs, P.Scrutinee vars width x.1 x.2)
    (h : ∀ x ∈ xs.zip (ps.map (Ty.widest vars width)), P.Derives n x.1 x.2) :
    ∃ n, ∃ f : Ty × Ty → List Offer, ∀ x ∈ ps.zip xs, P.Matches vars n x.1 x.2 (f x) := by
  have corresponding := forall_mem_zip_swap.1 (forall_mem_zip_map_right.1 h)
  refine matched_common fun x hx => ?_
  exact ih _ (List.of_mem_zip hx).1 _ (own x hx) (corresponding x hx).derivable

theorem not_isOptional_of_climbs (plain : P.NullPlain c) (notOptional : ¬ c.isOptional)
    (climbs : Relation.ReflTransGen P.Climbs c a) : ¬ a.isOptional := by
  rcases climbs.cases_head with rfl | ⟨b, step, rest⟩
  · exact notOptional
  · exact plain b a (.inr step) rest

section Complete

variable (coherent : P.Coherent) (declared : P.Narrow width)

include coherent declared

theorem complete_of_shape (fits : P.Fits true t) (unpromoted : t.Unpromoted vars)
    (mentions : ¬ t.Free vars) (closed : ¬ t.opens vars) (noUnion : ¬ t.isUnion)
    (notVar : varOf? vars t = none)
    (own : ∀ c n, P.Scrutinee vars width t c → P.RightPremise n c (t.widest vars width) →
      P.Matched vars t c) : P.Complete vars width t := by
  intro c scrutinee below
  have firm : (t.widest vars width).isFirm := isFirm_widest mentions closed unpromoted
  have noUnionW : ¬ (t.widest vars width).isUnion := by rwa [isUnion_widest]
  obtain ⟨a, climbs, ⟨n, below⟩, notVariable⟩ := exists_climbed coherent fits.widest firm
    scrutinee.fits (fun a => scrutinee.tame coherent declared mentions closed) below
  have inner := scrutinee.climbs coherent declared noUnion climbs
  refine Matched.of_climbs mentions notVar noUnion climbs ?_
  rcases shape_premise coherent fits.widest.valid firm noUnionW notVariable below with
    rfl | rfl | ⟨u, rfl, m, h⟩ | ⟨m, premise⟩
  · exact ⟨1, [], .bottom mentions notVar (.inl rfl)⟩
  · exact ⟨1, [], .bottom mentions notVar (.inr rfl)⟩
  · exact absurd h
      (inner.future_not_below coherent declared noUnion mentions closed fits unpromoted .refl)
  · exact own a m inner premise

theorem complete_interface (ih : ∀ p ∈ ps, P.Complete vars width p)
    (mentions : ¬ (Ty.interface e ps).Free vars) (fits : P.Fits true (.interface e ps))
    (unpromoted : (Ty.interface e ps).Unpromoted vars) :
    P.Complete vars width (.interface e ps) := by
  refine complete_of_shape coherent declared fits unpromoted mentions (by simp [Ty.opens])
    (by simp [Ty.isUnion]) rfl fun c n scrutinee premise => ?_
  rw [Ty.widest, Ty.widestAll_eq_map] at premise
  rcases premise with ⟨_, object⟩ | ⟨d, as, xs, rfl, notNull, reaches, hlength, premises⟩
  · have none : ps = [] := by simpa [Ty.object] using (Ty.interface.inj object).2
    simp [none, Ty.Free, Ty.param?] at mentions
  · obtain ⟨n, f, hf⟩ := matched_components ih
      (fun x hx => scrutinee.step coherent declared (.argument reaches hx)) premises
    exact ⟨n + 1, _, .interface mentions reaches (by simpa using hlength.symm) hf⟩

theorem complete_record (ih : ∀ p ∈ ps, P.Complete vars width p)
    (mentions : ¬ (Ty.record ps).Free vars) (fits : P.Fits true (.record ps))
    (unpromoted : (Ty.record ps).Unpromoted vars) : P.Complete vars width (.record ps) := by
  refine complete_of_shape coherent declared fits unpromoted mentions (by simp [Ty.opens])
    (by simp [Ty.isUnion]) rfl fun c n scrutinee premise => ?_
  rw [Ty.widest, Ty.widestAll_eq_map] at premise
  obtain ⟨fs, rfl, hlength, premises⟩ := premise
  obtain ⟨n, f, hf⟩ := matched_components ih
    (fun x hx => scrutinee.step coherent declared (.field hx)) premises
  exact ⟨n + 1, _, .record mentions (by simpa using hlength.symm) hf⟩

theorem complete_func (ih : P.Complete vars width t) (mentions : ¬ (Ty.func ps t).Free vars)
    (fits : P.Fits true (.func ps t)) (unpromoted : (Ty.func ps t).Unpromoted vars) :
    P.Complete vars width (.func ps t) := by
  refine complete_of_shape coherent declared fits unpromoted mentions (by simp [Ty.opens])
    (by simp [Ty.isUnion]) rfl fun c n scrutinee premise => ?_
  rw [Ty.widest] at premise
  split at premise
  · next solvable =>
    obtain ⟨cs, u, rfl, hlength, params, result⟩ := premise
    obtain ⟨n, os, hos⟩ := ih u (scrutinee.step coherent declared .result) result.derivable
    have corresponding := forall_mem_zip_swap.1 (forall_mem_zip_map_right.1 params)
    obtain ⟨f, hf⟩ := exists_offers fun x (hx : x ∈ ps.zip cs) =>
      matchesParam_of_lowest (Ty.solvable_iff.1 solvable _ (List.of_mem_zip hx).1)
        (corresponding x hx).derivable
    exact ⟨n + 1, _, .func mentions (by simpa using hlength.symm) hf hos⟩
  · obtain ⟨fs, rfl, hlength, _⟩ := premise
    have narrow := scrutinee.narrow.self fs rfl
    simp [hlength] at narrow

theorem complete_nullable (ih : P.Complete vars width t) (mentions : ¬ t.Free vars)
    (fits : P.Fits true (.nullable t)) (unpromoted : t.Unpromoted vars) :
    P.Complete vars width (.nullable t) := by
  have mentionsOuter := mt Ty.free_nullable.1 mentions
  intro c scrutinee below
  by_cases opens : t.opens vars
  · exact matched_of_opens coherent opens scrutinee.fits.valid
  obtain ⟨_, plain⟩ := scrutinee.matchable.self mentionsOuter opens
  have firm : (t.widest vars width).isFirm := isFirm_widest mentions opens unpromoted
  have fitsW : P.Fits true (.nullable (t.widest vars width)) := Fits.widest fits
  have matched {c : Ty} (scrutinee : P.Scrutinee vars width t c)
      (notOptional : ∀ a, Relation.ReflTransGen P.Climbs c a → ¬ a.isOptional)
      (below : P.Derivable c (.nullable (t.widest vars width))) : P.Matched vars t c := by
    obtain ⟨a, climbs, ⟨n, below⟩, notVar⟩ := exists_climbed coherent fitsW firm scrutinee.fits
      (fun a => scrutinee.tame coherent declared mentions opens) below
    have valid : P.Valid a := coherent.hereditary_valid.climbs climbs scrutinee.fits.valid
    have inner : P.Derivable a (t.widest vars width) := by
      refine below_of_below_nullable coherent firm valid notVar fitsW.of_nullable.valid ?_
        (notOptional a climbs) below
      rintro u rfl
      exact scrutinee.below_of_future_below coherent declared mentions opens fits.of_nullable
        unpromoted climbs
    exact ih c scrutinee (inner.of_climbs (isAboveBounds_of_isFirm firm) climbs)
  by_cases extreme : c = .never ∨ c = .unknown
  · exact ⟨1, [], .bottom mentionsOuter rfl extreme⟩
  by_cases isNull : c.isNull
  · exact ⟨1, [], .null mentions isNull⟩
  by_cases nullable : ∃ u, c = .nullable u
  · obtain ⟨u, rfl⟩ := nullable
    have below := below_nullable_of_nullable_below coherent firm fitsW.of_nullable.valid below
    exact (matched (scrutinee.step coherent declared (.inner .nullable))
      (fun a => plain u a (.inl rfl)) below).inner mentionsOuter rfl .nullable
  · rw [not_or] at extreme
    have other (u : Ty) (hu : c = .nullable u) : False := nullable ⟨u, hu⟩
    have notOptional : ¬ c.isOptional := by
      cases c with
      | nullable u => exact (other u rfl).elim
      | _ => exact isNull
    exact (matched (scrutinee.under_nullable coherent declared extreme isNull other)
      (fun a => not_isOptional_of_climbs plain notOptional) below).inner mentionsOuter rfl
      (.nullable_right extreme.1 extreme.2 isNull other)

theorem complete_futureOr (ih : P.Complete vars width t) (mentions : ¬ t.Free vars)
    (fits : P.Fits true (.futureOr t)) (unpromoted : t.Unpromoted vars) :
    P.Complete vars width (.futureOr t) := by
  have mentionsOuter := mt Ty.free_futureOr.1 mentions
  intro c scrutinee below
  by_cases opens : t.opens vars
  · exact matched_of_opens coherent opens scrutinee.fits.valid
  obtain ⟨_, settled, plain⟩ := scrutinee.matchable.self mentionsOuter opens
  have firm : (t.widest vars width).isFirm := isFirm_widest mentions opens unpromoted
  have fitsW : P.Fits true (.futureOr (t.widest vars width)) := Fits.widest fits
  have future (h : P.Derivable c (.future (t.widest vars width))) : c = .never ∨ c.isAsync := by
    have validFuture := coherent.valid_future fitsW.of_futureOr.valid
    exact plain.below _ ((coherent.below_iff scrutinee.fits.valid validFuture).2 h)
  obtain ⟨a, climbs, ⟨n, below⟩, notVar⟩ := exists_climbed coherent fitsW firm scrutinee.fits
    (fun a => scrutinee.tame coherent declared mentionsOuter opens) below
  have valid : P.Valid a := coherent.hereditary_valid.climbs climbs scrutinee.fits.valid
  by_cases extreme : c = .never ∨ c = .unknown
  · exact ⟨1, [], .bottom mentionsOuter rfl extreme⟩
  rw [not_or] at extreme
  have matched (notFutureOr : ∀ u, c ≠ .futureOr u) (notFuture : c.declaration? ≠ some .future)
      (below : P.Derivable c (t.widest vars width)) : P.Matched vars (.futureOr t) c :=
    (ih c (scrutinee.under_futureOr coherent declared extreme notFutureOr notFuture) below).inner
      mentionsOuter rfl (.futureOr_right extreme.1 extreme.2 notFutureOr notFuture)
  rcases climbs.cases_head with rfl | ⟨b, step, rest⟩
  · rcases below_of_below_futureOr coherent fitsW.of_futureOr firm valid notVar
      (isSettled_widest settled) future below with
      ⟨u, rfl, inner⟩ | ⟨u, rfl, inner⟩ | ⟨notAsync, inner⟩
    · exact (ih u (scrutinee.step coherent declared (.inner .futureOr)) inner).inner mentionsOuter
        rfl .futureOr
    · exact (ih u (scrutinee.step coherent declared (.inner .future)) inner).inner mentionsOuter
        rfl .future
    · refine matched (fun u hu => ?_) (fun isFuture => ?_) inner
      · exact notAsync (hu ▸ rfl)
      · cases c with
        | interface d as => exact notAsync (by simpa [Ty.isAsync] using isFuture)
        | _ => cases isFuture
  · -- a variable is neither a future nor below one, so what it stands for is none
    have notAsync : c ≠ .never ∧ ¬ c.isAsync := by
      cases step <;> simp [Ty.isAsync, Ty.declaration?]
    have notFuture (h : P.Derivable a (.future (t.widest vars width))) : False := by
      rcases future (h.of_climbs rfl climbs) with never | async
      · exact notAsync.1 never
      · exact notAsync.2 async
    rcases below_of_below_futureOr coherent fitsW.of_futureOr firm valid notVar
      (isSettled_widest settled) (fun h => (notFuture h).elim) below with
      ⟨u, same, _⟩ | ⟨u, rfl, inner⟩ | ⟨_, inner⟩
    · exact absurd same (plain.climbs b a u step rest)
    · exact (notFuture inner.future).elim
    · have above := isAboveBounds_of_isFirm firm
      refine matched (fun u hu => ?_) (fun isFuture => ?_) (inner.of_climbs above climbs)
      · cases step <;> cases hu
      · cases step <;> cases isFuture

end Complete

/-- A type that is below the widest instance of a pattern matches it, if all they are taken apart
    into is tractable. -/
theorem Coherent.complete (coherent : P.Coherent) (declared : P.Narrow width) (fits : P.Fits true t)
    (unpromoted : t.Unpromoted vars) : P.Complete vars width t := by
  induction t using Ty.induct with
  | unknown | dynamic | void | never =>
    exact complete_of_mentions fun mentions => by simp [Ty.Free, Ty.param?] at mentions
  | param p =>
    refine complete_of_mentions fun mentions c _ _ => ⟨1, _, .var ?_⟩
    simpa [Ty.Free, Ty.param?] using mentions
  | promoted p bound =>
    exact complete_of_mentions fun mentions => absurd (unpromoted.self rfl) mentions
  | interface e ps ih =>
    have parts := (Ty.every_interface.1 unpromoted).2
    exact complete_of_mentions fun mentions => complete_interface coherent declared
      (fun p hp => ih p hp (fits.args p hp) (parts p hp)) mentions fits unpromoted
  | record ps ih =>
    have parts := (Ty.every_record.1 unpromoted).2
    exact complete_of_mentions fun mentions => complete_record coherent declared
      (fun p hp => ih p hp (fits.fields p hp) (parts p hp)) mentions fits unpromoted
  | func ps r _ ih =>
    have part := (Ty.every_func.1 unpromoted).2.2
    exact complete_of_mentions fun mentions =>
      complete_func coherent declared (ih fits.result part) mentions fits unpromoted
  | nullable t ih =>
    have part := (Ty.every_nullable.1 unpromoted).2
    exact complete_of_mentions fun mentions => complete_nullable coherent declared
      (ih fits.of_nullable part) (mt Ty.free_nullable.2 mentions) fits part
  | futureOr t ih =>
    have part := (Ty.every_futureOr.1 unpromoted).2
    exact complete_of_mentions fun mentions => complete_futureOr coherent declared
      (ih fits.of_futureOr part) (mt Ty.free_futureOr.2 mentions) fits part

end MemberAccess.Program
