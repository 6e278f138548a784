import MemberAccess.Proofs.Matching.Relation
import MemberAccess.Proofs.Renaming.Freshness

/-!
Matching of renamed patterns. The match of a pattern whose variables are renamed finds the same
types for the new variables, step by step, whatever variables the type has that is matched.
-/
namespace MemberAccess

open Program Unification

variable {P : Program} {ρ : ParamId → ParamId} {ps : List ParamId} {n limit : Nat}
  {s r : Substitution} {t c : Ty} {p : ParamId} {ts cs : List Ty}
  {first first' second second' : Step} {f g : Ty → Ty → Step}

/-- Whether one solution finds for the new names of variables what another one finds for the
    variables, and nothing with new names in it. -/
structure Echoes (ρ : ParamId → ParamId) (ps : List ParamId) (s r : Substitution) : Prop where
  mirrors : Mirrors ρ id ps s r
  free : ∀ p u, s.get? p = some u → u.Free (ps.map ρ)

/-- Whether two steps take solutions that correspond to solutions that correspond. -/
def Abreast (ρ : ParamId → ParamId) (ps : List ParamId) (first second : Step) : Prop :=
  ∀ s r, Echoes ρ ps s r → Parallel (Option.Rel (Echoes ρ ps)) (first s) (second r)

namespace Abreast

theorem fail : Abreast ρ ps .fail .fail := fun _ _ _ => .ok .none

theorem done : Abreast ρ ps .done .done := fun _ _ echoes => .ok (.some echoes)

theorem check (holds : Except Fault Bool) : Abreast ρ ps (.check holds) (.check holds) := by
  intro s r echoes
  cases holds with
  | error => exact .error
  | ok answer =>
    cases answer with
    | true => exact .ok (.some echoes)
    | false => exact .ok .none

theorem andThen (hfirst : Abreast ρ ps first first') (hsecond : Abreast ρ ps second second') :
    Abreast ρ ps (.andThen first second) (.andThen first' second') := by
  intro s r echoes
  apply (hfirst s r echoes).bind
  intro found found' related
  cases related with
  | none => exact .ok .none
  | some echoes => exact hsecond _ _ echoes

theorem each {xs : List (Ty × Ty)} (h : ∀ x ∈ xs, Abreast ρ ps (f x.1 x.2) (g (x.1.rename ρ) x.2)) :
    Abreast ρ ps (.each f xs) (.each g (xs.map (Prod.map (Ty.rename ρ) id))) := by
  induction xs with
  | nil => exact done
  | cons x xs ih =>
    obtain ⟨head, tail⟩ := List.forall_mem_cons.1 h
    exact head.andThen (ih tail)

theorem pairwise (h : ∀ t ∈ ts, ∀ c ∈ cs, Abreast ρ ps (f t c) (g (t.rename ρ) c)) :
    Abreast ρ ps (.pairwise f ts cs) (.pairwise g (ts.map (Ty.rename ρ)) cs) := by
  unfold Step.pairwise
  rw [List.length_map, List.zip_map_left]
  split
  · apply each
    intro x hx
    obtain ⟨left, right⟩ := List.of_mem_zip hx
    exact h _ left _ right
  · exact fail

end Abreast

variable (refreshes : Refreshes ρ ps) (avoids : P.Avoids (ps.map ρ))

section Patterns

include refreshes

theorem varOf?_rename (free : t.Free (ps.map ρ)) :
    varOf? (ps.map ρ) (t.rename ρ) = (varOf? ps t).map ρ := by
  cases t with
  | param p =>
    have outside : p ∉ ps.map ρ := free.self p rfl
    simp only [Ty.rename, varOf?, refreshes.mem_map outside]
    split <;> rfl
  | _ => rfl

theorem mentionsAny_rename (free : t.Free (ps.map ρ)) :
    (t.rename ρ).mentionsAny (ps.map ρ) = t.mentionsAny ps := by
  rw [Bool.eq_iff_iff, Ty.mentionsAny_iff, Ty.mentionsAny_iff, refreshes.free_rename free]

end Patterns

section Variables

include refreshes avoids

theorem abreast_bindLower (hp : p ∈ ps) (hc : c.Free (ps.map ρ)) :
    Abreast ρ ps (P.bindLower limit p c) (P.bindLower limit (ρ p) c) := by
  intro s r echoes
  have inserted (u : Ty) (hu : u.Free (ps.map ρ)) :
      Echoes ρ ps (s.insert p u) (r.insert (ρ p) u) := by
    refine ⟨echoes.mirrors.insert refreshes.injective hp Ty.rename_id.symm, ?_⟩
    intro q v value
    rw [Substitution.get?_insert] at value
    split at value
    · cases value
      exact hu
    · exact echoes.free q v value
  have renamed := echoes.mirrors.renamed p hp
  unfold bindLower
  cases value : s.get? p with
  | none =>
    rw [value, Option.map_none] at renamed
    rw [renamed]
    exact .ok (.some (inserted c hc))
  | some lower =>
    rw [value, Option.map_some, Ty.rename_id] at renamed
    rw [renamed]
    apply (Parallel.same _).bind
    rintro bound _ ⟨merged, rfl⟩
    have free := avoids.free_upperBound (echoes.free p lower value) hc merged
    exact .ok (.some (inserted bound free))

theorem abreast_matchParam (ht : t.Free (ps.map ρ)) (hc : c.Free (ps.map ρ)) :
    Abreast ρ ps (P.matchParam limit ps t c) (P.matchParam limit (ps.map ρ) (t.rename ρ) c) := by
  unfold matchParam
  rw [varOf?_rename refreshes ht]
  cases isVar : varOf? ps t with
  | some p =>
    obtain ⟨rfl, own⟩ := Closed.varOf?_eq_some.1 isVar
    exact abreast_bindLower refreshes avoids own hc
  | none =>
    simp only [Option.map_none, mentionsAny_rename refreshes ht]
    split
    · exact Abreast.fail
    · next mentions =>
      rw [refreshes.rename_of_free (Ty.not_mentionsAny_iff.1 mentions)]
      exact Abreast.check _

omit refreshes in
theorem abreast_boundOf {x : ParamId} (hx : x ∉ ps.map ρ)
    (h : ∀ bound : Ty, bound.Free (ps.map ρ) → Abreast ρ ps (f t bound) (g (t.rename ρ) bound)) :
    Abreast ρ ps (fun s => do f t (← P.boundOf x) s)
      (fun s => do g (t.rename ρ) (← P.boundOf x) s) := by
  intro s r echoes
  apply (Parallel.same (P.boundOf x)).bind
  rintro bound _ ⟨hbound, rfl⟩
  exact h bound (avoids.free_boundOf hx hbound) s r echoes

theorem abreast_matchByShape (ht : t.Free (ps.map ρ)) (hc : c.Free (ps.map ρ))
    (ih : ∀ t c, t.Free (ps.map ρ) → c.Free (ps.map ρ) → Abreast ρ ps (f t c) (g (t.rename ρ) c)) :
    Abreast ρ ps (P.matchByShape limit ps f t c)
      (P.matchByShape limit (ps.map ρ) g (t.rename ρ) c) := by
  cases t with
  | nullable t =>
    have ht := Ty.free_nullable.1 ht
    cases c with
    | unknown | never => exact Abreast.done
    | nullable c => exact ih t c ht (Ty.free_nullable.1 hc)
    | interface d as =>
      simp only [Ty.rename, matchByShape]
      split
      · exact Abreast.done
      · exact ih t _ ht hc
    | _ => exact ih t _ ht hc
  | futureOr t =>
    have ht := Ty.free_futureOr.1 ht
    cases c with
    | unknown | never => exact Abreast.done
    | futureOr c => exact ih t c ht (Ty.free_futureOr.1 hc)
    | interface d as =>
      simp only [Ty.rename, matchByShape]
      split
      · cases as with
        | nil => exact Abreast.fail
        | cons a as => exact ih t a ht (free_interface.1 hc a List.mem_cons_self)
      · exact ih t _ ht hc
    | _ => exact ih t _ ht hc
  | interface e ts =>
    have hts := free_interface.1 ht
    cases c with
    | unknown | never => exact Abreast.done
    | param x => exact abreast_boundOf avoids (hc.self x rfl) fun bound hbound => ih _ _ ht hbound
    | promoted x bound => exact ih _ _ ht (Ty.every_promoted.1 hc).2
    | interface d as =>
      intro s r echoes
      simp only [Ty.rename, Ty.renameAll_eq_map, matchByShape]
      apply (Parallel.same (P.superArgs? ⟨d, as⟩ e)).bind
      rintro found _ ⟨hfound, rfl⟩
      cases found with
      | none => exact .ok .none
      | some args =>
        have free := avoids.free_superArgs (free_interface.1 hc) hfound
        have pairs := Abreast.pairwise (f := f) (g := g) fun t ht c hc =>
          ih t c (hts t ht) (free c hc)
        exact pairs s r echoes
    | _ => exact Abreast.fail
  | func ts result =>
    obtain ⟨_, hts, hresult⟩ := Ty.every_func.1 ht
    cases c with
    | unknown | never => exact Abreast.done
    | param x => exact abreast_boundOf avoids (hc.self x rfl) fun bound hbound => ih _ _ ht hbound
    | promoted x bound => exact ih _ _ ht (Ty.every_promoted.1 hc).2
    | func cs c =>
      obtain ⟨_, hcs, hc⟩ := Ty.every_func.1 hc
      simp only [Ty.rename, Ty.renameAll_eq_map, matchByShape]
      apply Abreast.andThen
      · exact Abreast.pairwise fun t ht c hc =>
          abreast_matchParam refreshes avoids (hts t ht) (hcs c hc)
      · exact ih result c hresult hc
    | _ => exact Abreast.fail
  | record ts =>
    have hts := (Ty.every_record.1 ht).2
    cases c with
    | unknown | never => exact Abreast.done
    | param x => exact abreast_boundOf avoids (hc.self x rfl) fun bound hbound => ih _ _ ht hbound
    | promoted x bound => exact ih _ _ ht (Ty.every_promoted.1 hc).2
    | record cs =>
      have hcs := (Ty.every_record.1 hc).2
      simp only [Ty.rename, Ty.renameAll_eq_map, matchByShape]
      exact Abreast.pairwise fun t ht c hc => ih t c (hts t ht) (hcs c hc)
    | _ => exact Abreast.fail
  | _ =>
    cases c with
    | unknown | never => exact Abreast.done
    | param x => exact abreast_boundOf avoids (hc.self x rfl) fun bound hbound => ih _ _ ht hbound
    | promoted x bound => exact ih _ _ ht (Ty.every_promoted.1 hc).2
    | _ => exact Abreast.fail

theorem abreast_matchType (ht : t.Free (ps.map ρ)) (hc : c.Free (ps.map ρ)) :
    Abreast ρ ps (P.matchType limit ps n t c) (P.matchType limit (ps.map ρ) n (t.rename ρ) c) := by
  induction n generalizing t c with
  | zero => exact Abreast.fail
  | succ n ih =>
    unfold matchType
    rw [varOf?_rename refreshes ht]
    cases isVar : varOf? ps t with
    | some p =>
      obtain ⟨rfl, own⟩ := Closed.varOf?_eq_some.1 isVar
      exact abreast_bindLower refreshes avoids own hc
    | none =>
      simp only [Option.map_none, mentionsAny_rename refreshes ht]
      split
      · exact abreast_matchByShape refreshes avoids ht hc fun t c => ih
      · next mentions =>
        rw [refreshes.rename_of_free (Ty.not_mentionsAny_iff.1 mentions)]
        exact Abreast.check _

/-- A match comes to a solution where the match of the renamed pattern does, and to the same types.
    -/
theorem match_parallel (ht : t.Free (ps.map ρ)) (hc : c.Free (ps.map ρ)) :
    Parallel (Option.Rel (Echoes ρ ps)) (P.matchType limit ps n t c .empty)
      (P.matchType limit (ps.map ρ) n (t.rename ρ) c .empty) :=
  abreast_matchType refreshes avoids ht hc .empty .empty ⟨.empty, fun _ _ value => nomatch value⟩

end Variables

end MemberAccess
