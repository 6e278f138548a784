import MemberAccess.Proofs.Typing.Closed
import MemberAccess.Typing.Bounds
import MemberAccess.Typing.Unification

/-!
Answers that are types or substitutions. Upper bounds, solutions of a unification and instantiations
to bounds are found for all types with a property that passes to bounds and supertypes, and they
have this property again.
-/
namespace MemberAccess

namespace Substitution

variable {φ : Ty → Prop} {s r : Substitution} {es : List (ParamId × Ty)} {p : ParamId} {t : Ty}

def Every (φ : Ty → Prop) (s : Substitution) : Prop :=
  ∀ e ∈ s.entries, φ (.param e.1) ∧ e.2.Every φ

theorem every_empty : empty.Every φ := fun _ h => nomatch h

theorem every_insert (hs : s.Every φ) (hp : φ (.param p)) (ht : t.Every φ) :
    (s.insert p t).Every φ := by
  intro e he
  rcases mem_insertEntry he with rfl | he
  · exact ⟨hp, ht⟩
  · exact hs e he

theorem every_insertAll (hs : s.Every φ) (hes : ∀ e ∈ es, φ (.param e.1) ∧ e.2.Every φ) :
    (s.insertAll es).Every φ := by
  induction es generalizing s with
  | nil => exact hs
  | cons e es ih =>
    obtain ⟨⟨hp, ht⟩, hes⟩ := List.forall_mem_cons.1 hes
    exact ih (every_insert hs hp ht) hes

theorem every_ofList (hes : ∀ e ∈ es, φ (.param e.1) ∧ e.2.Every φ) : (ofList es).Every φ :=
  every_insertAll every_empty hes

theorem every_mapTypes {f : Ty → Ty} (hs : s.Every φ) (hf : ∀ t, t.Every φ → (f t).Every φ) :
    (s.mapTypes f).Every φ := by
  intro e he
  obtain ⟨entry, member, rfl⟩ := List.mem_map.1 he
  exact ⟨(hs entry member).1, hf _ (hs entry member).2⟩

theorem mem_of_get? (h : s.get? p = some t) : (p, t) ∈ s.entries := by
  obtain ⟨before, after, entries, _⟩ := List.lookup_eq_some_iff.1 h
  rw [entries]
  simp

theorem Every.get? (hs : s.Every φ) (h : s.get? p = some t) : t.Every φ :=
  (hs _ (mem_of_get? h)).2

end Substitution

theorem Ty.Rebuilds.every_substitute {φ : Ty → Prop} (rebuilds : Ty.Rebuilds φ) {t : Ty}
    {s : Substitution} (ht : t.Every φ) (values : ∀ p u, s.get? p = some u → u.Every φ) :
    (t.substitute s).Every φ := by
  unfold Ty.substitute
  split
  · exact ht
  · exact rebuilds.every_replace ht values

theorem Ty.Headed.every_substitute {φ : Ty → Prop} (headed : Ty.Headed φ) {t : Ty}
    {s : Substitution} (ht : t.Every φ) (values : ∀ p u, s.get? p = some u → u.Every φ) :
    (t.substitute s).Every φ :=
  headed.rebuilds.every_substitute ht values

namespace Program.Closed

open Unification

variable {P : Program} {φ : Ty → Prop} (closed : P.Closed φ) {n limit : Nat} {t u : Ty}
  {s : Substitution} {p : ParamId} {i : Instance} {as bs : List Ty}

include closed

section UpperBounds

theorem sharedInstance {js : List Instance} (hi : i.type.Every φ)
    (hjs : ∀ j ∈ js, j.type.Every φ) :
    Yields (P.sharedInstance? i js) fun shared => ∀ j ∈ shared, j.type.Every φ := by
  induction js with
  | nil => exact yields_pure (by simp)
  | cons j js ih =>
    obtain ⟨hj, hjs⟩ := List.forall_mem_cons.1 hjs
    refine (closed.superArgs hi).bind fun args _ => ?_
    split
    · exact yields_pure (by simpa using hj)
    · exact ih hjs

theorem upperBoundByShape {meet : Ty → Ty → Except Fault Ty} (ht : t.Every φ) (hu : u.Every φ)
    (ih : ∀ t u, t.Every φ → u.Every φ → Yields (meet t u) (Ty.Every φ)) :
    Yields (P.upperBoundByShape meet t u) (Ty.Every φ) := by
  unfold Program.upperBoundByShape
  split
  · next d as e bs =>
    obtain ⟨head, has⟩ := Ty.every_interface.1 ht
    have hbs := (Ty.every_interface.1 hu).2
    split
    · next same =>
      have met (x : Ty × Ty) (hx : x ∈ as.zip bs) : Yields (meet x.1 x.2) (Ty.Every φ) :=
        ih _ _ (has _ (List.of_mem_zip hx).1) (hbs _ (List.of_mem_zip hx).2)
      obtain ⟨cs, hcs, every⟩ := yields_mapM met
      refine ⟨.interface d cs, by rw [hcs]; rfl, ?_⟩
      have hlength : as.length = cs.length := by
        have := (mapM_eq_ok.1 hcs).length_eq
        simp only [List.length_zip] at this
        omega
      exact Ty.every_interface.2 ⟨closed.interface d as cs hlength head, every⟩
    · refine (closed.supertypes ⟨d, as⟩ ht).bind fun found hfound => ?_
      refine (closed.sharedInstance (i := ⟨e, bs⟩) hu hfound).bind fun shared hshared => ?_
      cases shared with
      | none => exact yields_pure closed.every_object
      | some j => exact yields_pure (hshared j rfl)
  · exact yields_pure closed.every_object

omit closed in
theorem every_stripNullable (ht : t.Every φ) (hu : u.Every φ) :
    (Ty.stripNullable t u).1.Every φ ∧ (Ty.stripNullable t u).2.1.Every φ := by
  unfold Ty.stripNullable
  split <;> simp_all

theorem upperBound (ht : t.Every φ) (hu : u.Every φ) :
    Yields (P.upperBound n t u) (Ty.Every φ) := by
  induction n generalizing t u with
  | zero => exact yields_pure (closed.every_orNull.2 closed.every_object)
  | succ n ih =>
    obtain ⟨forward, hforward⟩ := closed.subtype_answered (n := n + 1) ht hu
    obtain ⟨backward, hbackward⟩ := closed.subtype_answered (n := n + 1) hu ht
    rw [Program.upperBound, hforward, hbackward, ok_bind, ok_bind]
    split
    · exact yields_pure hu
    split
    · exact yields_pure ht
    split
    · exact yields_pure (closed.every_orNull.2 hu)
    split
    · exact yields_pure (closed.every_orNull.2 ht)
    obtain ⟨hl, hr⟩ := every_stripNullable ht hu
    generalize Ty.stripNullable t u = stripped at hl hr
    refine (closed.upperBoundByShape hl hr fun _ _ => ih).bind fun bound every => yields_pure ?_
    split
    · exact closed.every_orNull.2 every
    · exact every

end UpperBounds

section Unification

variable {vars : List ParamId} {pattern concrete : Ty}

/-- Whether a step answers for every solution with a property and keeps this property. -/
def Keeps (φ : Ty → Prop) (step : Step) : Prop :=
  ∀ s : Substitution, s.Every φ → Yields (step s) fun found => ∀ s' ∈ found, s'.Every φ

omit closed in
theorem keeps_fail : Keeps φ .fail := fun _ _ => yields_pure (by simp)

omit closed in
theorem keeps_done : Keeps φ .done := fun _ hs => yields_pure (by simpa using hs)

omit closed in
theorem keeps_check {holds : Except Fault Bool} (h : ∃ answer, holds = .ok answer) :
    Keeps φ (.check holds) := by
  intro s hs
  obtain ⟨answer, rfl⟩ := h
  cases answer with
  | true => exact yields_pure (by simpa using hs)
  | false => exact yields_pure (by simp)

omit closed in
theorem keeps_andThen {first second : Step} (hfirst : Keeps φ first) (hsecond : Keeps φ second) :
    Keeps φ (.andThen first second) := by
  intro s hs
  refine (hfirst s hs).bind fun found hfound => ?_
  cases found with
  | none => exact yields_pure (by simp)
  | some s' => exact hsecond s' (hfound s' rfl)

omit closed in
theorem keeps_each {α β : Type} {f : α → β → Step} {xs : List (α × β)}
    (h : ∀ x ∈ xs, Keeps φ (f x.1 x.2)) : Keeps φ (.each f xs) := by
  induction xs with
  | nil => exact keeps_done
  | cons x xs ih =>
    obtain ⟨first, rest⟩ := List.forall_mem_cons.1 h
    exact keeps_andThen first (ih rest)

omit closed in
theorem keeps_pairwise {f : Ty → Ty → Step}
    (h : ∀ a ∈ as, ∀ b ∈ bs, Keeps φ (f a b)) : Keeps φ (.pairwise f as bs) := by
  unfold Step.pairwise
  split
  · apply keeps_each
    intro x hx
    obtain ⟨left, right⟩ := List.of_mem_zip hx
    exact h _ left _ right
  · exact keeps_fail

theorem keeps_bindLower (hp : φ (.param p)) (ht : t.Every φ) : Keeps φ (P.bindLower limit p t) := by
  intro s hs
  unfold Program.bindLower
  cases value : s.get? p with
  | none =>
    refine yields_pure fun s' hs' => ?_
    cases hs'
    exact Substitution.every_insert hs hp ht
  | some lower =>
    refine (closed.upperBound (hs.get? value) ht).bind fun bound every => yields_pure ?_
    intro s' hs'
    cases hs'
    exact Substitution.every_insert hs hp every

omit closed in
theorem varOf?_eq_some : varOf? vars pattern = some p ↔ pattern = .param p ∧ p ∈ vars := by
  cases pattern <;> simp [varOf?]
  grind

theorem keeps_matchParam (hpattern : pattern.Every φ) (hconcrete : concrete.Every φ) :
    Keeps φ (P.matchParam limit vars pattern concrete) := by
  unfold Program.matchParam
  split
  · next hvar =>
    obtain ⟨rfl, _⟩ := varOf?_eq_some.1 hvar
    exact closed.keeps_bindLower hpattern.self hconcrete
  · split
    · exact keeps_fail
    · exact keeps_check (closed.isSubtype_answered limit hpattern hconcrete)

theorem keeps_matchByShape {go : Ty → Ty → Step} (hpattern : pattern.Every φ)
    (hconcrete : concrete.Every φ)
    (ih : ∀ pattern concrete, pattern.Every φ → concrete.Every φ → Keeps φ (go pattern concrete)) :
    Keeps φ (P.matchByShape limit vars go pattern concrete) := by
  unfold Program.matchByShape
  split
  · exact keeps_done
  · exact keeps_done
  · exact ih _ _ (Ty.every_nullable.1 hpattern).2 (Ty.every_nullable.1 hconcrete).2
  · split
    · exact keeps_done
    · exact ih _ _ (Ty.every_nullable.1 hpattern).2 hconcrete
  · exact ih _ _ (Ty.every_futureOr.1 hpattern).2 (Ty.every_futureOr.1 hconcrete).2
  · split
    · split
      · refine ih _ _ (Ty.every_futureOr.1 hpattern).2 ((Ty.every_interface.1 hconcrete).2 _ ?_)
        exact List.mem_cons_self
      · exact keeps_fail
    · exact ih _ _ (Ty.every_futureOr.1 hpattern).2 hconcrete
  · exact ih _ _ (Ty.every_futureOr.1 hpattern).2 hconcrete
  · intro s hs
    refine (closed.bounds _ hconcrete.self).bind fun bound every => ?_
    exact ih _ _ hpattern every s hs
  · exact ih _ _ hpattern (Ty.every_promoted.1 hconcrete).2
  · intro s hs
    refine (closed.superArgs hconcrete).bind fun args every => ?_
    cases args with
    | none => exact yields_pure (by simp)
    | some xs =>
      refine keeps_pairwise (fun a ha b hb => ?_) s hs
      exact ih _ _ ((Ty.every_interface.1 hpattern).2 a ha) (every xs rfl b hb)
  · obtain ⟨_, paramsPattern, resultPattern⟩ := Ty.every_func.1 hpattern
    obtain ⟨_, params, result⟩ := Ty.every_func.1 hconcrete
    refine keeps_andThen (keeps_pairwise fun a ha b hb => ?_) (ih _ _ resultPattern result)
    exact closed.keeps_matchParam (paramsPattern a ha) (params b hb)
  · apply keeps_pairwise
    intro a ha b hb
    exact ih _ _ ((Ty.every_record.1 hpattern).2 a ha) ((Ty.every_record.1 hconcrete).2 b hb)
  · exact keeps_fail

theorem keeps_matchType (hpattern : pattern.Every φ) (hconcrete : concrete.Every φ) :
    Keeps φ (P.matchType limit vars n pattern concrete) := by
  induction n generalizing pattern concrete with
  | zero => exact keeps_fail
  | succ n ih =>
    unfold Program.matchType
    split
    · next hvar =>
      obtain ⟨rfl, _⟩ := varOf?_eq_some.1 hvar
      exact closed.keeps_bindLower hpattern.self hconcrete
    · split
      · exact closed.keeps_matchByShape hpattern hconcrete fun _ _ => ih
      · exact keeps_check (closed.isSubtype_answered limit hconcrete hpattern)

theorem unify (limit : Nat) (vars : List ParamId) (hpattern : pattern.Every φ)
    (hconcrete : concrete.Every φ) :
    Yields (P.unify limit pattern concrete vars) fun found => ∀ s ∈ found, s.Every φ := by
  refine (closed.keeps_matchType hpattern hconcrete .empty Substitution.every_empty).bind ?_
  intro found hfound
  cases found with
  | none => exact yields_pure (by simp)
  | some solution =>
    have hsolution := hfound solution rfl
    simp only
    split
    · exact yields_pure (by simpa using hsolution)
    · have instantiated := closed.every_substitute hpattern fun _ _ => hsolution.get?
      obtain ⟨answer, hanswer⟩ := closed.isSubtype_answered limit hconcrete instantiated
      rw [hanswer, ok_bind]
      cases answer with
      | true => exact yields_pure (by simpa using hsolution)
      | false => exact yields_pure (by simp)

end Unification

section Bounds

open Bounds

variable {bounds : List (ParamId × Ty)} {params cycle : List ParamId} {fixed : Substitution}

def Instantiated (φ : Ty → Prop) (ψ : α → Prop) : Bounded α → Prop
  | .ok a => ψ a
  | .error overflow => φ (.param overflow.param)

omit closed in
theorem Instantiated.map {α β : Type} {f : α → β} {ψ : α → Prop} {χ : β → Prop} {x : Bounded α}
    (h : Instantiated φ ψ x) (hf : ∀ a, ψ a → χ (f a)) : Instantiated φ χ (x.map f) := by
  cases x with
  | ok a => exact hf a h
  | error overflow => exact h

theorem every_breakCycle (h : ∀ e ∈ bounds, φ (.param e.1) ∧ e.2.Every φ) :
    ∀ e ∈ breakCycle bounds cycle, φ (.param e.1) ∧ e.2.Every φ := by
  have breaker (p : ParamId) (u : Ty)
      (value : (Substitution.ofList (cycle.map fun p => (p, .dynamic))).get? p = some u) :
      u.Every φ := by
    have member := (Substitution.mem_of_insertAll value).resolve_right (by simp)
    obtain ⟨_, _, same⟩ := List.mem_map.1 member
    cases same
    exact Ty.every_dynamic.2 (closed.plain _ rfl rfl)
  intro e he
  obtain ⟨⟨p, bound⟩, hb, rfl⟩ := List.mem_map.1 he
  refine ⟨(h _ hb).1, ?_⟩
  simp only
  split
  · exact closed.every_substitute (h _ hb).2 breaker
  · exact (h _ hb).2

theorem converge (hs : s.Every φ) :
    Instantiated φ (Substitution.Every φ) (Bounds.converge params n s) := by
  induction n generalizing s with
  | zero =>
    unfold Bounds.converge
    cases first : firstOpen? s params with
    | none => exact hs
    | some p =>
      obtain ⟨e, found, rfl⟩ := Option.map_eq_some_iff.1 first
      exact (hs e (List.mem_of_find?_eq_some found)).1
  | succ n ih =>
    unfold Bounds.converge
    cases first : firstOpen? s params with
    | none => exact hs
    | some p =>
      apply ih
      exact Substitution.every_mapTypes hs fun t ht => closed.every_substitute ht fun _ _ => hs.get?

theorem instantiateParams (limit : Nat) (hparams : ∀ p ∈ params, φ (.param p))
    (hfixed : fixed.Every φ) :
    Yields (P.instantiateParams limit params fixed)
      (Instantiated φ (Substitution.Every φ)) := by
  have declared : Yields ((params.filter fun p => !fixed.contains p).mapM fun p => do
      pure (p, (← P.boundOf p).substitute fixed)) fun bounds =>
        ∀ e ∈ bounds, φ (.param e.1) ∧ e.2.Every φ := by
    apply yields_mapM
    intro p hp
    have own := hparams p (List.mem_filter.1 hp).1
    refine (closed.bounds p own).bind fun bound every => yields_pure ⟨own, ?_⟩
    exact closed.every_substitute every fun _ _ => hfixed.get?
  refine declared.bind fun bounds hbounds => yields_pure ?_
  have acyclic (cycles : List (List ParamId)) :
      ∀ e ∈ cycles.foldl breakCycle bounds, φ (.param e.1) ∧ e.2.Every φ := by
    induction cycles generalizing bounds with
    | nil => exact hbounds
    | cons cycle cycles ih => exact ih _ (closed.every_breakCycle hbounds)
  refine (closed.converge (Substitution.every_ofList (acyclic _))).map fun s hs => ?_
  apply Substitution.every_insertAll hs
  intro e he
  obtain ⟨p, hp, value⟩ := List.mem_filterMap.1 he
  obtain ⟨t, ht, rfl⟩ := Option.map_eq_some_iff.1 value
  exact ⟨hparams p hp, hfixed.get? ht⟩

theorem instantiateDecl (limit : Nat) {d : DeclId} {decl : Decl}
    (hd : P.decls.get? d = some decl)
    (hparams : ∀ p ∈ decl.params, φ (.param p)) (applies : decl.appliesTo.Every φ) :
    Yields (P.instantiateDecl limit d) (Instantiated φ (Ty.Every φ)) := by
  unfold Program.instantiateDecl
  rw [Table.fetch_eq_ok.2 hd, ok_bind]
  refine (closed.instantiateParams limit hparams Substitution.every_empty).bind
    fun found hfound => ?_
  exact yields_pure (hfound.map fun s hs => closed.every_substitute applies fun _ _ => hs.get?)

end Bounds

section Denotation

theorem denote_answered (ht : t.Every φ) : ∃ denoted, P.denote n t = .ok denoted := by
  induction n generalizing t with
  | zero => exact ⟨none, rfl⟩
  | succ n ih =>
    cases t with
    | nullable t => exact ih (Ty.every_nullable.1 ht).2
    | futureOr t => exact ih (Ty.every_futureOr.1 ht).2
    | promoted p t => exact ih (Ty.every_promoted.1 ht).2
    | param p =>
      obtain ⟨bound, hbound, every⟩ := closed.bounds p ht.self
      obtain ⟨q, hq, rfl⟩ := boundOf_eq_ok.1 hbound
      rw [denote, Table.fetch_eq_ok.2 hq, ok_bind]
      cases hb : q.bound with
      | none => exact ⟨none, rfl⟩
      | some bound => exact ih (by simpa [hb] using every)
    | _ => exact ⟨_, rfl⟩

theorem denotedArgs (target : TypeId) (n : Nat) (ht : t.Every φ) :
    Yields (P.denotedArgs? target n t) fun args => ∀ xs ∈ args, ∀ x ∈ xs, x.Every φ := by
  induction n generalizing t with
  | zero => exact yields_pure (by simp)
  | succ n ih =>
    cases t with
    | interface d as =>
      refine yields_pure ?_
      intro xs hxs
      split at hxs
      · cases hxs
        exact (Ty.every_interface.1 ht).2
      · cases hxs
    | nullable t => exact ih (Ty.every_nullable.1 ht).2
    | futureOr t => exact ih (Ty.every_futureOr.1 ht).2
    | promoted p t => exact ih (Ty.every_promoted.1 ht).2
    | param p =>
      obtain ⟨bound, hbound, every⟩ := closed.bounds p ht.self
      obtain ⟨q, hq, rfl⟩ := boundOf_eq_ok.1 hbound
      rw [denotedArgs?, Table.fetch_eq_ok.2 hq, ok_bind]
      cases hb : q.bound with
      | none => exact yields_pure (by simp)
      | some bound => exact ih (by simpa [hb] using every)
    | _ => exact yields_pure (by simp)

end Denotation

end Program.Closed

end MemberAccess
