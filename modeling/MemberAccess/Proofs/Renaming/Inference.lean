import MemberAccess.Proofs.Matching.Applicability
import MemberAccess.Proofs.Renaming.Instantiation
import MemberAccess.Proofs.Renaming.Matching

/-!
Inference of the type arguments of a declaration whose parameters are renamed. The check of a
solution that leaves no parameter open is repeated once all parameters are known, so that the
parameters that the type at hand mentions cannot make it succeed.
-/
namespace MemberAccess

open Program

/-- Whether one substitution assigns to the new names of parameters what another one assigns to the
    parameters, so that none of those that are renamed is left over. -/
structure Replays (ρ : ParamId → ParamId) (ps : List ParamId) (s r : Substitution) : Prop where
  mirrors : ∃ keys, (∀ p ∈ keys, p ∉ ps.map ρ) ∧ Mirrors ρ id keys s r
  total : ∀ p ∈ ps, (s.get? p).isSome

variable {P : Program} {options : Options} {site : Site} {decl : Decl} {m : Member}
  {ρ : ParamId → ParamId} {ps vars : List ParamId} {limit n : Nat} {s r σ σ' : Substitution}
  {t u c : Ty} {p : ParamId} {es : List (ParamId × Ty)}

namespace Replays

variable (refreshes : Refreshes ρ ps) (replays : Replays ρ ps s r)

include refreshes replays

theorem substitute (free : t.Free (ps.map ρ)) : (t.rename ρ).substitute r = t.substitute s := by
  obtain ⟨keys, known, mirrors⟩ := replays.mirrors
  rw [Ty.free_iff] at free
  have same : (t.rename ρ).substitute r = (t.substitute s).rename id := by
    apply Ty.rename_substitute [] mirrors.isEmpty_eq
    · exact fun p hp u value => mirrors.assigned value
    · intro p hp absent _
      have kept : p ∉ ps := by
        intro own
        have present := replays.total p own
        rw [absent] at present
        cases present
      have fixed := refreshes.fixed p kept
      refine ⟨?_, fixed.symm⟩
      by_cases own : p ∈ keys
      · rw [mirrors.renamed p own, absent, Option.map_none]
      · apply mirrors.outside_renamed
        intro h
        obtain ⟨q, hq, named⟩ := List.mem_map.1 h
        exact own (refreshes.injOn (known q hq) (free p hp) named ▸ hq)
    · rw [Ty.free_iff]
      simp
  rw [same, Ty.rename_id]

theorem eq_renameKeys : r = s.renameKeys ρ := by
  obtain ⟨keys, known, mirrors⟩ := replays.mirrors
  exact mirrors.eq_renameKeys (refreshes.injOn.mono known)

theorem insertAll (known : ∀ e ∈ es, e.1 ∉ ps.map ρ) :
    Replays ρ ps (s.insertAll es) (r.insertAll (es.map fun e => (ρ e.1, e.2))) := by
  obtain ⟨keys, knownKeys, mirrors⟩ := replays.mirrors
  have knownAll : ∀ p ∈ keys ++ es.map (·.1), p ∉ ps.map ρ := by
    intro p hp
    rcases List.mem_append.1 hp with hp | hp
    · exact knownKeys p hp
    · obtain ⟨e, he, rfl⟩ := List.mem_map.1 hp
      exact known e he
  have injective : Set.InjOn ρ {p | p ∈ keys ++ es.map (·.1)} := refreshes.injOn.mono knownAll
  have outer := mirrors.mono injective (List.subset_append_left keys _)
  have inserted := outer.insertAll injective fun e he =>
    List.mem_append_right keys (List.mem_map_of_mem (f := Prod.fst) he)
  simp only [Ty.rename_id] at inserted
  refine ⟨⟨_, knownAll, inserted⟩, fun p hp => ?_⟩
  exact Substitution.isSome_get?_insertAll.2 (.inr (replays.total p hp))

end Replays

theorem Echoes.substitute (refreshes : Refreshes ρ ps) (echoes : Echoes ρ ps s r)
    (free : t.Free (ps.map ρ)) (closed : (t.substitute s).Free ps) :
    (t.rename ρ).substitute r = t.substitute s := by
  rw [Ty.free_iff] at free
  have mirrors := echoes.mirrors
  have same : (t.rename ρ).substitute r = (t.substitute s).rename id := by
    apply Ty.rename_substitute ps mirrors.isEmpty_eq
    · exact fun p hp u value => mirrors.assigned value
    · intro p hp absent outside
      have fresh : ρ p ∉ ps.map ρ := mt (refreshes.mem_map (free p hp)).1 outside
      exact ⟨mirrors.outside_renamed _ fresh, (refreshes.fixed p outside).symm⟩
    · exact closed
  rw [same, Ty.rename_id]

namespace Program

theorem replace_of_keeps (keeps : ∀ p u, s.get? p = some u → σ.get? p = some u)
    (outside : ∀ p, p ∉ vars → σ.get? p = none) (free : (t.replace s.get?).Free vars) :
    t.replace σ.get? = t.replace s.get? := by
  have same := Ty.rename_replace (ρ := id) (τ := id) (f := s.get?) (g := σ.get?) (t := t)
    (fun p _ u value => by rw [Ty.rename_id]; exact keeps p u value)
    (fun p _ _ kept => ⟨outside p kept, rfl⟩) free
  rwa [Ty.rename_id, Ty.rename_id] at same

theorem unify_of_completed (found : P.matchType limit vars (limit + 1) t c .empty = .ok (some s))
    (keeps : ∀ p u, s.get? p = some u → σ.get? p = some u)
    (outside : ∀ p, p ∉ vars → σ.get? p = none)
    (fits : P.isSubtype limit c (t.substitute σ) = .ok true) :
    P.unify limit t c vars = .ok (some s) := by
  apply unify_eq_some.2
  refine ⟨found, ?_⟩
  by_cases free : (t.substitute s).Free vars
  · right
    unfold Ty.substitute at free fits ⊢
    cases empty : s.isEmpty with
    | true =>
      rw [empty, if_pos rfl] at free
      rw [matchType_free free] at found
      simp only [Unification.Step.check, bind_eq_ok] at found
      obtain ⟨answer, holds, found⟩ := found
      cases answer with
      | true => exact holds
      | false => cases found
    | false =>
      have nonempty : σ.isEmpty = false := by
        rw [← Bool.not_eq_true, Substitution.isEmpty_iff] at empty ⊢
        intro absent
        apply empty
        intro p
        apply Option.eq_none_iff_forall_ne_some.2
        intro u value
        have kept := keeps p u value
        rw [absent] at kept
        cases kept
      rw [empty, if_neg (by simp)] at free
      rw [nonempty, if_neg (by simp), replace_of_keeps keeps outside free] at fits
      exact fits
  · exact .inl (Ty.mentionsAny_iff.2 free)

end Program

/-! Declarations with renamed parameters. -/

def Signature.rename (ρ : ParamId → ParamId) (sig : Signature) : Signature where
  params := sig.params.map ρ
  positional := sig.positional.map (Ty.rename ρ)
  required := sig.required
  named := sig.named.map fun p => { p with type := p.type.rename ρ }
  result := sig.result.map (Ty.rename ρ)

def Member.rename (ρ : ParamId → ParamId) (m : Member) : Member := { m with sig := m.sig.rename ρ }

def DeclBody.rename (ρ : ParamId → ParamId) : DeclBody → DeclBody
  | .extension receiver => .extension (receiver.rename ρ)
  | .view type representation exposure => .view type (representation.rename ρ) exposure
  | .shorthand target => .shorthand target

def Decl.rename (ρ : ParamId → ParamId) (d : Decl) : Decl :=
  { d with
    params := d.params.map ρ
    members := ⟨d.members.entries.map (Member.rename ρ), by simpa using d.members.fits⟩
    body := d.body.rename ρ }

structure Signature.Avoids (sig : Signature) (vars : List ParamId) : Prop where
  params : ∀ p ∈ sig.params, p ∉ vars
  positional : ∀ t ∈ sig.positional, t.Free vars
  named : ∀ p ∈ sig.named, p.type.Free vars

instance (sig : Signature) : Decidable (sig.Avoids vars) :=
  decidable_of_iff ((∀ p ∈ sig.params, p ∉ vars) ∧ (∀ t ∈ sig.positional, t.Free vars) ∧
      ∀ p ∈ sig.named, p.type.Free vars)
    ⟨fun h => ⟨h.1, h.2.1, h.2.2⟩, fun h => ⟨h.params, h.positional, h.named⟩⟩

structure Decl.Avoids (d : Decl) (vars : List ParamId) : Prop where
  appliesTo : d.appliesTo.Free vars
  members : ∀ i m, d.members.get? i = some m → m.sig.Avoids vars

/-- Whether parameters of a declaration get new names that do not occur in the program, and bounds
    that are renamed like themselves. -/
structure Program.Renames (P : Program) (ρ : ParamId → ParamId) (decl : Decl) : Prop where
  refreshes : Refreshes ρ decl.params
  bounds : P.CopiesBounds ρ decl.params
  avoids : P.Avoids (decl.params.map ρ)
  unmentioned : decl.Avoids (decl.params.map ρ)

theorem Decl.appliesTo_rename : (decl.rename ρ).appliesTo = decl.appliesTo.rename ρ := by
  unfold appliesTo rename
  cases decl.body <;>
    simp [DeclBody.rename, Ty.ofParams, Ty.rename, Ty.renameAll_eq_map, Function.comp_def]

namespace Session

theorem inferArgs_eq_some (isValue : site.receiver = .value t) :
    (P.session options).inferArgs site decl m = .ok (some σ) ↔
      ∃ solved, P.unify options.limit decl.appliesTo t decl.params = .ok (some solved) ∧
        (P.session options).completeArgs site decl solved = .ok (some σ) := by
  have context : site.context = t := by rw [Site.context, isValue]
  have unify : (P.session options).oracle.unify = P.unify options.limit := rfl
  unfold inferArgs
  rw [isValue, context, unify]
  simp only [bind_eq_ok]
  constructor
  · rintro ⟨found, hfound, h⟩
    cases found with
    | none => cases h
    | some solved => exact ⟨solved, hfound, h⟩
  · rintro ⟨solved, hfound, h⟩
    exact ⟨some solved, hfound, h⟩

theorem completeArgs_eq_some (isValue : site.receiver = .value t) :
    (P.session options).completeArgs site decl s = .ok (some σ) ↔
      P.instantiateParams options.limit decl.params s = .ok (.ok σ) ∧
        P.isSubtype options.limit t (decl.appliesTo.substitute σ) = .ok true ∧
        (P.session options).respectsBounds s σ = .ok true := by
  have context : site.context = t := by rw [Site.context, isValue]
  have noShorthand : site.isShorthand = false := by rw [Site.isShorthand, isValue]
  have instantiate : (P.session options).oracle.instantiateParams =
      P.instantiateParams options.limit := rfl
  have subtype : (P.session options).oracle.isSubtype = P.isSubtype options.limit := rfl
  unfold completeArgs
  rw [context, noShorthand, instantiate, subtype]
  simp only [bind_eq_ok, if_neg (Bool.false_ne_true)]
  constructor
  · rintro ⟨completed, hcompleted, h⟩
    cases completed with
    | error => cases h
    | ok σ' =>
      obtain ⟨fits, hfits, h⟩ := bind_eq_ok.1 h
      cases fits with
      | false => cases h
      | true =>
        obtain ⟨respected, hrespected, h⟩ := bind_eq_ok.1 h
        cases respected with
        | false => cases h
        | true =>
          cases h
          exact ⟨hcompleted, hfits, hrespected⟩
  · rintro ⟨hcompleted, hfits, hrespected⟩
    exact ⟨.ok σ, hcompleted, by simp [hfits, hrespected]⟩

theorem respectsBounds_eq_true : (P.session options).respectsBounds s σ = .ok true ↔
    ∀ p u, s.get? p = some u → ∃ q, P.params.get? p = some q ∧
      ∀ bound ∈ q.bound, P.isSubtype options.limit u (bound.substitute σ) = .ok true := by
  have subtype : (P.session options).oracle.isSubtype = P.isSubtype options.limit := rfl
  unfold respectsBounds
  rw [subtype, allM_eq_true, Prod.forall]
  apply forall_congr'
  intro p
  apply forall_congr'
  intro u
  rw [← Substitution.get?_eq_some]
  apply imp_congr_right
  intro _
  simp only [bind_eq_ok, Table.fetch_eq_ok]
  apply exists_congr
  intro q
  apply and_congr_right
  intro _
  cases q.bound <;> simp

section Renaming

variable (renames : P.Renames ρ decl)

include renames

theorem respects_rename (replays : Replays ρ decl.params σ σ') (hp : p ∈ decl.params) :
    (∃ q, P.params.get? (ρ p) = some q ∧
        ∀ bound ∈ q.bound, P.isSubtype limit u (bound.substitute σ') = .ok true) ↔
      ∃ q, P.params.get? p = some q ∧
        ∀ bound ∈ q.bound, P.isSubtype limit u (bound.substitute σ) = .ok true := by
  have refreshes := renames.refreshes
  have copied := renames.bounds p hp
  cases own : P.params.get? p with
  | none =>
    rw [own, Option.map_none, Option.map_eq_none_iff] at copied
    simp [copied]
  | some q =>
    rw [own, Option.map_some, Option.map_eq_some_iff] at copied
    obtain ⟨q', hq', bounds⟩ := copied
    simp only [hq', Option.some.injEq, exists_eq_left', bounds]
    cases bound : q.bound with
    | none => simp
    | some b =>
      have free := renames.avoids.bounds p q own (refreshes.not_mem_map hp) b bound
      simp [replays.substitute refreshes free]

theorem respectsBounds_rename (echoes : Echoes ρ decl.params s r)
    (replays : Replays ρ decl.params σ σ') :
    (P.session options).respectsBounds r σ' = .ok true ↔
      (P.session options).respectsBounds s σ = .ok true := by
  rw [respectsBounds_eq_true, respectsBounds_eq_true]
  constructor
  · intro h p u value
    have renamed := echoes.mirrors.assigned value
    rw [Ty.rename_id] at renamed
    exact (respects_rename renames replays (echoes.mirrors.mem value)).1 (h (ρ p) u renamed)
  · intro h q _ value
    obtain ⟨p, hp, rfl, u, found, rfl⟩ := echoes.mirrors.exists_assigned value
    rw [Ty.rename_id]
    exact (respects_rename renames replays hp).2 (h p u found)

variable (isValue : site.receiver = .value t)

include isValue

theorem completeArgs_rename (echoes : Echoes ρ decl.params s r)
    (uncaptured : P.Uncaptured decl.params s) :
    (∀ σ, (P.session options).completeArgs site decl s = .ok (some σ) →
      ∃ σ', (P.session options).completeArgs site (decl.rename ρ) r = .ok (some σ') ∧
        Mirrors ρ id decl.params σ σ' ∧ Completes decl.params s σ) ∧
    ∀ σ', (P.session options).completeArgs site (decl.rename ρ) r = .ok (some σ') →
      ∃ σ, (P.session options).completeArgs site decl s = .ok (some σ) ∧
        Mirrors ρ id decl.params σ σ' ∧ Completes decl.params s σ := by
  have refreshes := renames.refreshes
  have runs : Parallel _ (P.instantiateParams options.limit decl.params s)
      (P.instantiateParams options.limit (decl.rename ρ).params r) :=
    instantiateParams_parallel refreshes renames.avoids renames.bounds echoes.mirrors echoes.free
      uncaptured
  have accepted (σ σ' : Substitution)
      (related : Mirrors ρ id decl.params σ σ' ∧ Completes decl.params s σ) :
      P.isSubtype options.limit t ((decl.rename ρ).appliesTo.substitute σ') = .ok true ∧
          (P.session options).respectsBounds r σ' = .ok true ↔
        P.isSubtype options.limit t (decl.appliesTo.substitute σ) = .ok true ∧
          (P.session options).respectsBounds s σ = .ok true := by
    have replays : Replays ρ decl.params σ σ' :=
      ⟨⟨_, fun p hp => refreshes.not_mem_map hp, related.1⟩, related.2.total⟩
    rw [Decl.appliesTo_rename, replays.substitute refreshes renames.unmentioned.appliesTo,
      respectsBounds_rename renames echoes replays]
  constructor
  · intro σ h
    obtain ⟨instantiated, fits⟩ := (completeArgs_eq_some isValue).1 h
    rw [instantiated] at runs
    obtain ⟨_, instantiated', both⟩ := runs.left
    obtain ⟨σ', rfl, related⟩ := both.left
    refine ⟨σ', (completeArgs_eq_some isValue).2 ⟨instantiated', ?_⟩, related⟩
    exact (accepted σ σ' related).2 fits
  · intro σ' h
    obtain ⟨instantiated', fits⟩ := (completeArgs_eq_some isValue).1 h
    rw [instantiated'] at runs
    obtain ⟨_, instantiated, both⟩ := runs.right
    obtain ⟨σ, rfl, related⟩ := both.right
    refine ⟨σ, (completeArgs_eq_some isValue).2 ⟨instantiated, ?_⟩, related⟩
    exact (accepted σ σ' related).1 fits

variable (unmentioned : t.Free (decl.params.map ρ))
  (uncaptured : ∀ solved,
    P.unify options.limit decl.appliesTo t decl.params = .ok (some solved) →
      P.Uncaptured decl.params solved)

include unmentioned uncaptured

theorem inferArgs_rename (h : (P.session options).inferArgs site decl m = .ok (some σ)) :
    ∃ σ', (∀ m', (P.session options).inferArgs site (decl.rename ρ) m' = .ok (some σ')) ∧
      Replays ρ decl.params σ σ' := by
  have refreshes := renames.refreshes
  obtain ⟨solved, unified, completed⟩ := (inferArgs_eq_some isValue).1 h
  have runs : Parallel _
      (P.matchType options.limit decl.params (options.limit + 1) decl.appliesTo t .empty) _ :=
    match_parallel refreshes renames.avoids renames.unmentioned.appliesTo unmentioned
  rw [(unify_eq_some.1 unified).1] at runs
  obtain ⟨found, matched, related⟩ := runs.left
  cases related with
  | @some _ solved' echoes =>
    obtain ⟨σ', completed', mirrors, completes⟩ :=
      (completeArgs_rename renames isValue echoes (uncaptured solved unified)).1 σ completed
    refine ⟨σ', fun _ => (inferArgs_eq_some isValue).2 ⟨solved', ?_, completed'⟩,
      ⟨_, fun p hp => refreshes.not_mem_map hp, mirrors⟩, completes.total⟩
    have keeps (q : ParamId) (u : Ty) (value : solved'.get? q = some u) : σ'.get? q = some u := by
      obtain ⟨p, _, rfl, v, found, rfl⟩ := echoes.mirrors.exists_assigned value
      exact mirrors.assigned (completes.keeps p v found)
    rw [← Decl.appliesTo_rename] at matched
    exact unify_of_completed matched keeps mirrors.outside_renamed
      ((completeArgs_eq_some isValue).1 completed').2.1

/-- A check that succeeds for new names succeeds for the parameters, unless there are parameters
    left over that prevent it. -/
theorem inferArgs_of_rename
    (h : (P.session options).inferArgs site (decl.rename ρ) m = .ok (some σ')) :
    ∃ σ, (∀ m', (P.session options).inferArgs site decl m' = .ok (some σ)) ∧
      Replays ρ decl.params σ σ' := by
  have refreshes := renames.refreshes
  obtain ⟨solved', unified', completed'⟩ := (inferArgs_eq_some isValue).1 h
  obtain ⟨matched', checked'⟩ := unify_eq_some.1 unified'
  have runs : Parallel _
      (P.matchType options.limit decl.params (options.limit + 1) decl.appliesTo t .empty) _ :=
    match_parallel refreshes renames.avoids renames.unmentioned.appliesTo unmentioned
  rw [Decl.appliesTo_rename] at matched' checked'
  have renamed : (decl.rename ρ).params = decl.params.map ρ := rfl
  rw [renamed] at matched' checked'
  rw [matched'] at runs
  obtain ⟨found, matched, related⟩ := runs.right
  cases related with
  | @some solved _ echoes =>
    have unified : P.unify options.limit decl.appliesTo t decl.params = .ok (some solved) := by
      refine unify_eq_some.2 ⟨matched, ?_⟩
      by_cases closed : (decl.appliesTo.substitute solved).Free decl.params
      · have same := echoes.substitute refreshes renames.unmentioned.appliesTo closed
        have free := Ty.headed_free.every_substitute renames.unmentioned.appliesTo echoes.free
        rw [same] at checked'
        exact .inr (checked'.resolve_left (Ty.not_mentionsAny_iff.2 free))
      · exact .inl (Ty.mentionsAny_iff.2 closed)
    obtain ⟨σ, completed, mirrors, completes⟩ :=
      (completeArgs_rename renames isValue echoes (uncaptured solved unified)).2 σ' completed'
    exact ⟨σ, fun _ => (inferArgs_eq_some isValue).2 ⟨solved, unified, completed⟩,
      ⟨_, fun p hp => refreshes.not_mem_map hp, mirrors⟩, completes.total⟩

end Renaming

end Session

end MemberAccess
