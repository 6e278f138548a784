import MemberAccess.Proofs.Renaming.Freshness
import MemberAccess.Proofs.Renaming.Graphs

/-!
Instantiation to bounds under a renaming. The parameters that are still open can be renamed as long
as no type that is substituted into their bounds mentions one of them.
-/
namespace MemberAccess

open Program Bounds

variable {P : Program} {ρ : ParamId → ParamId} {ps qs vars cycle : List ParamId} {n limit : Nat}
  {s r s' r' : Substitution} {t u : Ty} {p : ParamId} {es bounds : List (ParamId × Ty)}

theorem Mirrors.substitute (refreshes : Refreshes ρ vars) (mirrors : Mirrors ρ ρ vars s r)
    (free : t.Free (vars.map ρ)) : (t.rename ρ).substitute r = (t.substitute s).rename ρ := by
  rw [Ty.free_iff] at free
  have same (p : ParamId) (hp : p ∈ t.params) : r.get? (ρ p) = (s.get? p).map (Ty.rename ρ) := by
    by_cases own : p ∈ vars
    · exact mirrors.renamed p own
    · have outside : ρ p ∉ vars.map ρ := mt (refreshes.mem_map (free p hp)).1 own
      rw [mirrors.outside p own, mirrors.outside_renamed _ outside, Option.map_none]
  apply Ty.rename_substitute [] mirrors.isEmpty_eq
  · intro p hp u value
    rw [same p hp, value, Option.map_some]
  · intro p hp absent _
    rw [same p hp, absent, Option.map_none]
    exact ⟨rfl, rfl⟩
  · rw [Ty.free_iff]
    simp

namespace Bounds

def renameBounds (ρ : ParamId → ParamId) (bounds : List (ParamId × Ty)) : List (ParamId × Ty) :=
  bounds.map fun b => (ρ b.1, b.2.rename ρ)

def Belong (ρ : ParamId → ParamId) (vars : List ParamId) (bounds : List (ParamId × Ty)) : Prop :=
  ∀ b ∈ bounds, b.1 ∈ vars ∧ b.2.Free (vars.map ρ)

def acyclic (vars : List ParamId) (bounds : List (ParamId × Ty)) : List (ParamId × Ty) :=
  (dependencies bounds vars).cycles.foldl breakCycle bounds

section Cycles

variable (refreshes : Refreshes ρ vars) (belong : Belong ρ vars bounds)

include refreshes belong

theorem dependencies_rename :
    dependencies (renameBounds ρ bounds) (vars.map ρ) = (dependencies bounds vars).rename ρ := by
  unfold dependencies renameBounds Graph.rename
  rw [List.map_map, List.map_map]
  apply List.map_congr_left
  intro b hb
  have free := Ty.free_iff.1 (belong b hb).2
  have params : (b.2.rename ρ).params = b.2.params.map ρ :=
    Ty.params_rename (refreshes.injOn.mono free)
  have kept : b.2.params.filter (fun p => decide (ρ p ∈ vars.map ρ)) =
      b.2.params.filter (fun p => decide (p ∈ vars)) :=
    List.filter_congr fun p hp => decide_eq_decide.2 (refreshes.mem_map (free p hp))
  simp only [Function.comp_apply, params, List.filter_map, Function.comp_def, kept]

omit belong in
theorem breaker_mirrors (subset : cycle ⊆ vars) : Mirrors ρ ρ vars
    (.ofList (cycle.map fun p => (p, .dynamic)))
    (.ofList ((cycle.map ρ).map fun p => (p, .dynamic))) := by
  have image : (cycle.map ρ).map (fun p => (p, Ty.dynamic)) =
      (cycle.map fun p => (p, Ty.dynamic)).map fun e => (ρ e.1, e.2.rename ρ) := by
    simp only [List.map_map, Function.comp_def, Ty.rename]
  rw [image]
  exact .ofList refreshes.injective (List.forall_mem_map.2 fun p hp => subset hp)

theorem breakCycle_rename (subset : cycle ⊆ vars) :
    breakCycle (renameBounds ρ bounds) (cycle.map ρ) =
      renameBounds ρ (breakCycle bounds cycle) := by
  simp only [breakCycle, renameBounds, List.map_map, Function.comp_def]
  apply List.map_congr_left
  intro b hb
  obtain ⟨own, free⟩ := belong b hb
  have onCycle : ρ b.1 ∈ cycle.map ρ ↔ b.1 ∈ cycle := by
    constructor
    · intro h
      obtain ⟨p, hp, same⟩ := List.mem_map.1 h
      exact refreshes.injective own (subset hp) same.symm ▸ hp
    · exact List.mem_map_of_mem
  simp only [onCycle]
  split
  · have broken := (breaker_mirrors refreshes subset).substitute refreshes free
    rw [List.map_map] at broken
    rw [← broken]
    rfl
  · rfl

omit refreshes in
theorem Belong.breakCycle : Belong ρ vars (breakCycle bounds cycle) := by
  intro e he
  obtain ⟨b, hb, rfl⟩ := List.mem_map.1 he
  obtain ⟨own, free⟩ := belong b hb
  refine ⟨own, ?_⟩
  simp only
  split
  · apply Ty.headed_free.every_substitute free
    intro p u value
    have member := (Substitution.mem_of_insertAll value).resolve_right (by simp)
    obtain ⟨_, _, same⟩ := List.mem_map.1 member
    cases same
    simp [Ty.param?]
  · exact free

omit refreshes belong in
theorem fst_breakCycle : (breakCycle bounds cycle).map (·.1) = bounds.map (·.1) := by
  simp only [breakCycle, List.map_map, Function.comp_def]

theorem foldl_breakCycle_rename {cycles : List (List ParamId)} (subset : ∀ c ∈ cycles, c ⊆ vars) :
    (cycles.map (List.map ρ)).foldl breakCycle (renameBounds ρ bounds) =
        renameBounds ρ (cycles.foldl breakCycle bounds) ∧
      Belong ρ vars (cycles.foldl breakCycle bounds) ∧
      (cycles.foldl breakCycle bounds).map (·.1) = bounds.map (·.1) := by
  induction cycles generalizing bounds with
  | nil => exact ⟨rfl, belong, rfl⟩
  | cons cycle cycles ih =>
    obtain ⟨first, rest⟩ := List.forall_mem_cons.1 subset
    have step := breakCycle_rename refreshes belong first
    obtain ⟨renamed, belong, names⟩ := ih belong.breakCycle rest
    rw [List.map_cons, List.foldl_cons, List.foldl_cons, step]
    exact ⟨renamed, belong, names.trans fst_breakCycle⟩

theorem acyclic_rename :
    acyclic (vars.map ρ) (renameBounds ρ bounds) = renameBounds ρ (acyclic vars bounds) ∧
      Belong ρ vars (acyclic vars bounds) ∧
      (acyclic vars bounds).map (·.1) = bounds.map (·.1) := by
  have within : (dependencies bounds vars).Within vars := by
    intro node member
    obtain ⟨b, hb, rfl⟩ := List.mem_map.1 member
    exact ⟨(belong b hb).1, fun p hp => by simpa using (List.mem_filter.1 hp).2⟩
  have cycles := Graph.cycles_rename refreshes.injective within
  unfold acyclic
  rw [dependencies_rename refreshes belong, cycles]
  exact foldl_breakCycle_rename refreshes belong fun c hc => Graph.mem_of_mem_cycles within hc

end Cycles

theorem firstOpen?_eq_none :
    firstOpen? s vars = none ↔ ∀ p u, s.get? p = some u → u.Free vars := by
  rw [firstOpen?, Option.map_eq_none_iff, List.find?_eq_none]
  constructor
  · intro h p u value
    exact Ty.not_mentionsAny_iff.1 (h (p, u) (Substitution.get?_eq_some.1 value))
  · intro h e member
    exact Ty.not_mentionsAny_iff.2 (h e.1 e.2 (Substitution.get?_eq_some.2 member))

section Converging

variable (refreshes : Refreshes ρ vars) (mirrors : Mirrors ρ ρ vars s r)
  (free : ∀ p u, s.get? p = some u → u.Free (vars.map ρ))

include refreshes mirrors free

theorem firstOpen?_rename : firstOpen? r (vars.map ρ) = none ↔ firstOpen? s vars = none := by
  rw [firstOpen?_eq_none, firstOpen?_eq_none]
  constructor
  · intro h p u value
    exact (refreshes.free_rename (free p u value)).1 (h _ _ (mirrors.assigned value))
  · intro h q u value
    obtain ⟨p, _, _, t, found, rfl⟩ := mirrors.exists_assigned value
    exact (refreshes.free_rename (free p t found)).2 (h p t found)

theorem mirrors_step :
    Mirrors ρ ρ vars (s.mapTypes (·.substitute s)) (r.mapTypes (·.substitute r)) where
  outside p hp := by rw [Substitution.get?_mapTypes, mirrors.outside p hp, Option.map_none]
  outside_renamed p hp := by
    rw [Substitution.get?_mapTypes, mirrors.outside_renamed p hp, Option.map_none]
  renamed p hp := by
    rw [Substitution.get?_mapTypes, Substitution.get?_mapTypes, mirrors.renamed p hp]
    cases value : s.get? p with
    | none => rfl
    | some u =>
      simp only [Option.map_some]
      rw [mirrors.substitute refreshes (free p u value)]

omit free in
theorem mirrors_of_closed (none : firstOpen? s vars = none) : Mirrors ρ id vars s r where
  outside := mirrors.outside
  outside_renamed := mirrors.outside_renamed
  renamed p hp := by
    rw [mirrors.renamed p hp]
    apply Option.map_congr
    intro u value
    rw [refreshes.rename_of_free (firstOpen?_eq_none.1 none p u value), Ty.rename_id]

/-- Instantiation to renamed bounds takes as many steps and comes to the same types. -/
theorem converge_parallel :
    Parallel (fun s' r' => Mirrors ρ id vars s' r' ∧ ∀ p, (s'.get? p).isSome = (s.get? p).isSome)
      (converge vars n s) (converge (vars.map ρ) n r) := by
  induction n generalizing s r with
  | zero =>
    have closed := firstOpen?_rename refreshes mirrors free
    unfold converge
    cases first : firstOpen? s vars with
    | none =>
      rw [closed.2 first]
      exact .ok ⟨mirrors_of_closed refreshes mirrors first, fun _ => rfl⟩
    | some p =>
      have opened : firstOpen? r (vars.map ρ) ≠ none := mt closed.1 (by simp [first])
      obtain ⟨q, hq⟩ := Option.ne_none_iff_exists'.1 opened
      rw [hq]
      exact .error
  | succ n ih =>
    have closed := firstOpen?_rename refreshes mirrors free
    unfold converge
    cases first : firstOpen? s vars with
    | none =>
      rw [closed.2 first]
      exact .ok ⟨mirrors_of_closed refreshes mirrors first, fun _ => rfl⟩
    | some p =>
      have opened : firstOpen? r (vars.map ρ) ≠ none := mt closed.1 (by simp [first])
      obtain ⟨q, hq⟩ := Option.ne_none_iff_exists'.1 opened
      have step := mirrors_step refreshes mirrors free
      have stays (p : ParamId) (u : Ty)
          (value : (s.mapTypes (·.substitute s)).get? p = some u) : u.Free (vars.map ρ) := by
        rw [Substitution.get?_mapTypes, Option.map_eq_some_iff] at value
        obtain ⟨t, ht, rfl⟩ := value
        exact Ty.headed_free.every_substitute (free p t ht) free
      have rest := ih step stays
      simp only [Substitution.get?_mapTypes, Option.isSome_map] at rest
      rw [hq]
      exact rest

end Converging

theorem converge_acyclic_parallel (refreshes : Refreshes ρ vars) (belong : Belong ρ vars bounds) :
    Parallel (fun s r => Mirrors ρ id vars s r ∧ ∀ b ∈ bounds, (s.get? b.1).isSome)
      (converge vars n (.ofList (acyclic vars bounds)))
      (converge (vars.map ρ) n (.ofList (acyclic (vars.map ρ) (renameBounds ρ bounds)))) := by
  obtain ⟨renamed, belong, names⟩ := acyclic_rename refreshes belong
  have start : Mirrors ρ ρ vars (.ofList (acyclic vars bounds))
      (.ofList (renameBounds ρ (acyclic vars bounds))) :=
    .ofList refreshes.injective fun e he => (belong e he).1
  have free (p : ParamId) (u : Ty)
      (value : (Substitution.ofList (acyclic vars bounds)).get? p = some u) :
      u.Free (vars.map ρ) :=
    (belong _ ((Substitution.mem_of_insertAll value).resolve_right (by simp))).2
  have run : Parallel _ (converge vars n _) (converge (vars.map ρ) n _) :=
    converge_parallel refreshes start free
  rw [renamed]
  refine run.imp ?_
  rintro s r ⟨mirrors, kept⟩
  refine ⟨mirrors, fun b hb => ?_⟩
  have named : b.1 ∈ (acyclic vars bounds).map (·.1) := names ▸ List.mem_map_of_mem hb
  obtain ⟨e, he, same⟩ := List.mem_map.1 named
  rw [kept]
  exact Substitution.isSome_get?_insertAll.2 (.inl ⟨e, he, same⟩)

end Bounds

namespace Program

def CopiesBounds (P : Program) (ρ : ParamId → ParamId) (ps : List ParamId) : Prop :=
  ∀ p ∈ ps, (P.params.get? (ρ p)).map (·.bound) =
    (P.params.get? p).map fun q => q.bound.map (Ty.rename ρ)

def openParams (ps : List ParamId) (solved : Substitution) : List ParamId :=
  ps.filter fun p => !solved.contains p

def declaredBound (P : Program) (solved : Substitution) (p : ParamId) :
    Except Fault (ParamId × Ty) := do
  pure (p, (← P.boundOf p).substitute solved)

theorem instantiateParams_eq : P.instantiateParams limit ps s =
    (openParams ps s).mapM (P.declaredBound s) >>= fun bounds =>
      pure ((converge (openParams ps s) limit (.ofList (acyclic (openParams ps s) bounds))).map
        fun σ => σ.insertAll (ps.filterMap fun p => (s.get? p).map (p, ·))) :=
  rfl

theorem fst_declared (h : List.Forall₂ (fun p b => b.1 = p ∧ b.2.Free qs) ps bounds) :
    bounds.map (·.1) = ps ∧ ∀ b ∈ bounds, b.2.Free qs := by
  induction h with
  | nil => simp
  | cons first _ ih =>
    exact ⟨by rw [List.map_cons, first.1, ih.1], List.forall_mem_cons.2 ⟨first.2, ih.2⟩⟩

/-- Whether no open parameter is mentioned by the solution of a parameter that occurs in the bound
    of an open one. -/
def Uncaptured (P : Program) (ps : List ParamId) (solved : Substitution) : Prop :=
  ∀ p ∈ openParams ps solved, ∀ bound, P.boundOf p = .ok bound → ∀ q ∈ bound.params, ∀ u,
    solved.get? q = some u → u.Free (openParams ps solved)

theorem uncaptured_of_free (h : ∀ e ∈ s.entries, e.2.Free (openParams ps s)) :
    P.Uncaptured ps s :=
  fun _ _ _ _ q _ u value => h (q, u) (Substitution.get?_eq_some.1 value)

structure Completes (ps : List ParamId) (solved completed : Substitution) : Prop where
  keeps : ∀ p u, solved.get? p = some u → completed.get? p = some u
  total : ∀ p ∈ ps, (completed.get? p).isSome

theorem boundOf_rename (refreshes : Refreshes ρ ps) (avoids : P.Avoids (ps.map ρ))
    (copies : P.CopiesBounds ρ ps) (hp : p ∈ ps) :
    Parallel (fun b b' => b' = b.rename ρ ∧ b.Free (ps.map ρ)) (P.boundOf p)
      (P.boundOf (ρ p)) := by
  have copied := copies p hp
  cases own : P.params.get? p with
  | none =>
    rw [own, Option.map_none, Option.map_eq_none_iff] at copied
    simp only [boundOf, Table.fetch, own, copied]
    exact .error
  | some q =>
    rw [own, Option.map_some, Option.map_eq_some_iff] at copied
    obtain ⟨q', hq', bound⟩ := copied
    have hb : P.boundOf p = .ok (q.bound.getD Ty.object.orNull) := boundOf_eq_ok.2 ⟨q, own, rfl⟩
    have hb' : P.boundOf (ρ p) = .ok (q'.bound.getD Ty.object.orNull) :=
      boundOf_eq_ok.2 ⟨q', hq', rfl⟩
    have free := avoids.free_boundOf (refreshes.not_mem_map hp) hb
    rw [hb, hb']
    refine .ok ⟨?_, free⟩
    rw [bound]
    cases q.bound <;> rfl

section Instantiation

variable (refreshes : Refreshes ρ ps) (avoids : P.Avoids (ps.map ρ)) (copies : P.CopiesBounds ρ ps)
  (mirrors : Mirrors ρ id ps s r) (free : ∀ p u, s.get? p = some u → u.Free (ps.map ρ))
  (uncaptured : P.Uncaptured ps s)

theorem openParams_rename (mirrors : Mirrors ρ id ps s r) :
    openParams (ps.map ρ) r = (openParams ps s).map ρ := by
  unfold openParams
  rw [List.filter_map]
  congr 1
  apply List.filter_congr
  intro p hp
  simp only [Function.comp_apply, Substitution.contains, mirrors.renamed p hp, Option.isSome_map]

theorem openParams_subset : openParams ps s ⊆ ps := List.filter_subset_self _

theorem mem_openParams : p ∈ openParams ps s ↔ p ∈ ps ∧ s.get? p = none := by
  simp [openParams, Substitution.contains]

include refreshes avoids copies mirrors free uncaptured

theorem declared_parallel (hp : p ∈ openParams ps s) :
    Parallel (fun b b' => b' = (renameOnly ρ (openParams ps s) b.1,
        b.2.rename (renameOnly ρ (openParams ps s))) ∧ b.1 = p ∧ b.2.Free (ps.map ρ))
      (P.declaredBound s p) (P.declaredBound r (ρ p)) := by
  have fixed (u : Ty) (free : u.Free (openParams ps s)) :
      u.rename (renameOnly ρ (openParams ps s)) = u :=
    (refreshes.restrict openParams_subset).rename_of_free free
  have bounded := boundOf_rename refreshes avoids copies (openParams_subset hp)
  unfold declaredBound
  cases own : P.boundOf p with
  | error fault =>
    rw [own] at bounded
    cases renamed : P.boundOf (ρ p) with
    | error fault => exact .error
    | ok b' =>
      rw [renamed] at bounded
      cases bounded
  | ok b =>
    rw [own] at bounded
    obtain ⟨b', hb', rfl, outside⟩ := bounded.left
    have known := Ty.free_iff.1 outside
    have substituted : (b.rename ρ).substitute r =
        (b.substitute s).rename (renameOnly ρ (openParams ps s)) := by
      apply Ty.rename_substitute [] mirrors.isEmpty_eq
      · intro q hq u value
        rw [mirrors.assigned value, Ty.rename_id, fixed u (uncaptured p hp b own q hq u value)]
      · intro q hq absent _
        by_cases open_ : q ∈ ps
        · have left : q ∈ openParams ps s := mem_openParams.2 ⟨open_, absent⟩
          rw [mirrors.renamed q open_, absent]
          exact ⟨rfl, if_pos left⟩
        · have left : q ∉ openParams ps s := fun h => open_ (openParams_subset h)
          have fresh : ρ q ∉ ps.map ρ := mt (refreshes.mem_map (known q hq)).1 open_
          rw [mirrors.outside_renamed _ fresh, refreshes.fixed q open_]
          exact ⟨rfl, if_neg left⟩
      · rw [Ty.free_iff]
        simp
    rw [hb', ok_bind, ok_bind, substituted]
    refine .ok ⟨?_, rfl, Ty.headed_free.every_substitute outside free⟩
    simp only [renameOnly, hp, if_true]

omit avoids copies free uncaptured in
theorem mirrors_completed
    (instantiated : Mirrors (renameOnly ρ (openParams ps s)) id (openParams ps s) s' r')
    (total : ∀ p ∈ openParams ps s, (s'.get? p).isSome) :
    Mirrors ρ id ps (s'.insertAll (ps.filterMap fun p => (s.get? p).map (p, ·)))
        (r'.insertAll ((ps.map ρ).filterMap fun p => (r.get? p).map (p, ·))) ∧
      Completes ps s (s'.insertAll (ps.filterMap fun p => (s.get? p).map (p, ·))) := by
  have entries (e : ParamId × Ty) (he : e ∈ ps.filterMap fun p => (s.get? p).map (p, ·)) :
      e.1 ∈ ps ∧ s.get? e.1 = some e.2 := by
    obtain ⟨p, hp, value⟩ := List.mem_filterMap.1 he
    obtain ⟨u, hu, rfl⟩ := Option.map_eq_some_iff.1 value
    exact ⟨hp, hu⟩
  have image : ((ps.map ρ).filterMap fun p => (r.get? p).map (p, ·)) =
      (ps.filterMap fun p => (s.get? p).map (p, ·)).map fun e => (ρ e.1, e.2.rename id) := by
    rw [List.filterMap_map, List.map_filterMap]
    apply List.filterMap_congr
    intro p hp
    rw [Function.comp_apply, mirrors.renamed p hp]
    cases s.get? p <;> rfl
  have outer : Mirrors ρ id ps s' r' := by
    have inner : Mirrors ρ id (openParams ps s) s' r' := by
      obtain ⟨outside, outside_renamed, renamed⟩ := instantiated
      rw [map_renameOnly] at outside_renamed
      refine ⟨outside, outside_renamed, fun p hp => ?_⟩
      have same : renameOnly ρ (openParams ps s) p = ρ p := if_pos hp
      rw [← same, renamed p hp]
    exact inner.mono refreshes.injective openParams_subset
  rw [image]
  refine ⟨outer.insertAll refreshes.injective fun e he => (entries e he).1, ?_, ?_⟩
  · intro p u value
    have present : ∃ e ∈ ps.filterMap fun p => (s.get? p).map (p, ·), e.1 = p :=
      ⟨(p, u), List.mem_filterMap.2 ⟨p, mirrors.mem value, by rw [value]; rfl⟩, rfl⟩
    obtain ⟨v, hv⟩ := Option.isSome_iff_exists.1
      (Substitution.isSome_get?_insertAll (s := s').2 (.inl present))
    rcases Substitution.mem_of_insertAll hv with inserted | before
    · have own := (entries _ inserted).2
      rw [value] at own
      rw [hv, own]
    · have closed : p ∉ openParams ps s := by simp [mem_openParams, value]
      rw [instantiated.outside p closed] at before
      cases before
  · intro p hp
    apply Substitution.isSome_get?_insertAll.2
    cases value : s.get? p with
    | none => exact .inr (total p (mem_openParams.2 ⟨hp, value⟩))
    | some u => exact .inl ⟨(p, u), List.mem_filterMap.2 ⟨p, hp, by rw [value]; rfl⟩, rfl⟩

/-- The instantiation of renamed parameters fails where that of the parameters fails, and otherwise
    assigns the same types. -/
theorem instantiateParams_parallel :
    Parallel (Parallel fun σ σ' => Mirrors ρ id ps σ σ' ∧ Completes ps s σ)
      (P.instantiateParams limit ps s) (P.instantiateParams limit (ps.map ρ) r) := by
  have subset : openParams ps s ⊆ ps := openParams_subset
  have each (p : ParamId) (hp : p ∈ openParams ps s) :=
    declared_parallel refreshes avoids copies mirrors free uncaptured hp
  have declared := Parallel.mapM (g := P.declaredBound r) each
  rw [← openParams_rename mirrors] at declared
  rw [instantiateParams_eq, instantiateParams_eq]
  apply declared.bind
  rintro bounds _ ⟨rfl, each⟩
  obtain ⟨names, outside⟩ := fst_declared each
  have belong : Belong (renameOnly ρ (openParams ps s)) (openParams ps s) bounds := by
    intro b hb
    rw [map_renameOnly]
    exact ⟨names ▸ List.mem_map_of_mem hb, (outside b hb).mono (List.map_subset ρ subset)⟩
  have run := converge_acyclic_parallel (n := limit) (refreshes.restrict subset) belong
  rw [map_renameOnly, ← openParams_rename mirrors] at run
  refine .ok (run.map ?_)
  rintro s' r' ⟨instantiated, covered⟩
  apply mirrors_completed refreshes mirrors instantiated
  intro p hp
  rw [← names] at hp
  obtain ⟨b, hb, rfl⟩ := List.mem_map.1 hp
  exact covered b hb

end Instantiation

end Program

end MemberAccess
