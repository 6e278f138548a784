import MemberAccess.Proofs.Range.Display
import MemberAccess.Proofs.Resolution.Selection
import MemberAccess.Proofs.Visibility
import MemberAccess.Resolution.Constant

/-!
No run faults if the indices of the program and of the site are in range. Each stage of a resolution
comes to an answer whose indices are in range again, whatever the limit is and whether results are
reported or not, so that the result can be explained or looked up afterwards.
-/
namespace MemberAccess

namespace Program

structure CandidateInRange (P : Program) (c : Candidate) : Prop where
  ref : P.RefInRange c.ref
  substitution : c.substitution.Every (P.headInRange ·)
  appliesTo : P.InRange c.appliesTo

structure ScreeningInRange (P : Program) (part : Screening) : Prop where
  candidates : ∀ c ∈ part.candidates, P.CandidateInRange c
  getterCalls : ∀ ref ∈ part.getterCalls, P.RefInRange ref

/-- Whether all indices in a result are in range: those of declarations and members, of the
    parameters that are replaced, and those in the types that replace them. -/
def ResolutionInRange (P : Program) : Resolution → Prop
  | .resolved t => P.RefInRange (t.decl, t.member) ∧ t.substitution.Every (P.headInRange ·)
  | .failed f => P.FailureInRange f

namespace WellFormed

variable {P : Program} (wf : P.WellFormed) (options : Options) {site : Site}
  (inRange : P.SiteInRange site) {decl : Decl} {m : Member} {sig : Signature} {d : DeclId}
  {t u : Ty} {s solved : Substitution} {c : Candidate} {cs : List Candidate} {ds : List DeclId}
  {part : Screening} {parts : List Screening}

include wf

section Screening

theorem denotedBy_answered (inRange : P.SiteInRange site) :
    ∃ denoted, (P.session options).denotedBy site = .ok denoted := by
  unfold Session.denotedBy
  split
  · obtain ⟨found, hfound⟩ := wf.closed.denote_answered (n := options.limit + 1) inRange.context
    exact ⟨found.toList, bind_eq_ok.2 ⟨found, hfound, rfl⟩⟩
  · exact ⟨[], rfl⟩

include inRange

theorem applies_answered (denoted : List TypeId) (hd : P.DeclInRange decl) :
    ∃ answer, (P.session options).applies site denoted decl = .ok answer := by
  have unified : ∃ answer, (do
      pure (← P.unify options.limit decl.appliesTo site.context decl.params).isSome) =
        Except.ok answer := by
    obtain ⟨found, hfound, _⟩ := wf.closed.unify options.limit decl.params
      hd.appliesTo inRange.context
    exact ⟨found.isSome, by rw [hfound]; rfl⟩
  unfold Session.applies
  split
  · exact unified
  · exact unified
  · exact ⟨_, rfl⟩
  · exact ⟨_, rfl⟩
  · exact ⟨false, rfl⟩

theorem constructorArgs (hd : P.DeclInRange decl) :
    Yields ((P.session options).constructorArgs site decl)
      (Substitution.Every (P.headInRange ·)) := by
  have zipped (args : Option (List Ty)) (hargs : ∀ xs ∈ args, ∀ x ∈ xs, P.InRange x) :
      (Substitution.ofList ((decl.params.zip (args.getD [])).filter
        fun e => !e.2.hasUnknown)).Every (P.headInRange ·) := by
    apply Substitution.every_ofList
    intro e he
    obtain ⟨hp, ht⟩ := List.of_mem_zip (List.mem_filter.1 he).1
    refine ⟨hd.params _ hp, ?_⟩
    cases args with
    | none => cases ht
    | some xs => exact hargs xs rfl _ ht
  have denoted (target : TypeId) := wf.closed.denotedArgs target options.limit inRange.context
  unfold Session.constructorArgs
  dsimp only
  split
  · next types passed =>
    refine yields_pure (zipped (some types) fun xs hxs x hx => ?_)
    cases hxs
    split at passed
    · next shape =>
      split at passed
      · cases passed
        exact inRange.types x (by simp [Site.types, shape, Form.types, hx])
      · cases passed
    · cases passed
  · exact (denoted _).bind fun args hargs => yields_pure (zipped args hargs)
  · exact yields_pure (zipped none (by simp))

omit inRange in
theorem respectsBounds_answered (hsolved : solved.Every (P.headInRange ·))
    (hs : s.Every (P.headInRange ·)) :
    ∃ answer, (P.session options).respectsBounds solved s = .ok answer := by
  apply exists_allM_eq_ok
  rintro ⟨p, t⟩ he
  obtain ⟨hp, ht⟩ := hsolved _ he
  obtain ⟨q, hq⟩ := Option.isSome_iff_exists.1 hp
  simp only [Program.session, Table.fetch_eq_ok.2 hq, ok_bind]
  cases hbound : q.bound with
  | none => exact ⟨true, rfl⟩
  | some bound =>
    have inRange := wf.bounds p q hq bound hbound
    exact wf.closed.isSubtype_answered options.limit ht
      (headed_headInRange.every_substitute inRange fun _ _ => hs.get?)

theorem completeArgs (hd : P.DeclInRange decl) (hsolved : solved.Every (P.headInRange ·)) :
    Yields ((P.session options).completeArgs site decl solved) fun found =>
      ∀ s ∈ found, s.Every (P.headInRange ·) := by
  refine (wf.closed.instantiateParams options.limit hd.params hsolved).bind ?_
  intro found hfound
  cases found with
  | error overflow => exact yields_pure (by simp)
  | ok s =>
    have hs : s.Every (P.headInRange ·) := hfound
    have applied : P.InRange (decl.appliesTo.substitute s) :=
      headed_headInRange.every_substitute hd.appliesTo fun _ _ => hs.get?
    have concluded (fits : Bool) : Yields (if fits then do
        pure (if ← (P.session options).respectsBounds solved s then some s else none)
        else pure none) fun found => ∀ s ∈ found, s.Every (P.headInRange ·) := by
      obtain ⟨respects, hrespects⟩ :=
        wf.respectsBounds_answered options hsolved hs
      rw [hrespects, ok_bind]
      cases fits <;> cases respects <;> refine yields_pure ?_ <;> simp
      exact hs
    simp only
    split
    · exact concluded true
    · obtain ⟨fits, hfits⟩ := wf.closed.isSubtype_answered options.limit inRange.context
        applied
      simp only [Program.session, Program.oracle, hfits, ok_bind]
      exact concluded fits

theorem inferArgs (hd : P.DeclInRange decl) :
    Yields ((P.session options).inferArgs site decl m) fun found =>
      ∀ s ∈ found, s.Every (P.headInRange ·) := by
  unfold Session.inferArgs
  split
  · have unified := wf.closed.unify options.limit decl.params hd.appliesTo inRange.context
    refine unified.bind fun found hfound => ?_
    cases found with
    | none => exact yields_pure (by simp)
    | some solved => exact wf.completeArgs options inRange hd (hfound solved rfl)
  · split
    · exact (wf.constructorArgs options inRange hd).bind fun solved =>
        wf.completeArgs options inRange hd
    · exact yields_pure (by simpa using Substitution.every_empty)

omit inRange in
theorem acceptsType_answered (hs : s.Every (P.headInRange ·)) (ht : P.InRange t)
    (hu : P.InRange u) :
    ∃ answer, (P.session options).acceptsType sig s t u = .ok answer := by
  have placeholder (p : ParamId) (v : Ty)
      (value : (Session.placeholders sig).get? p = some v) : P.InRange v := by
    have member := (Substitution.mem_of_insertAll value).resolve_right (by simp)
    obtain ⟨_, _, same⟩ := List.mem_map.1 member
    cases same
    exact Ty.every_unknown.2 rfl
  have target : P.InRange ((u.substitute s).substitute (Session.placeholders sig)) :=
    headed_headInRange.every_substitute
      (headed_headInRange.every_substitute hu fun _ _ => hs.get?) placeholder
  unfold Session.acceptsType Program.session Program.oracle
  dsimp only
  split
  · exact ⟨true, rfl⟩
  · exact wf.closed.isSubtype_answered options.limit ht target

omit inRange in
theorem acceptsNamed_answered (hsig : P.SignatureInRange sig) (hs : s.Every (P.headInRange ·))
    {passed : List String} {args : List (String × Argument)}
    (hargs : ∀ a ∈ args, P.InRange a.2.type) :
    ∃ answer, (P.session options).acceptsNamed sig s passed args = .ok answer := by
  induction args generalizing passed with
  | nil => exact ⟨_, rfl⟩
  | cons a args ih =>
    obtain ⟨name, arg⟩ := a
    obtain ⟨harg, hargs⟩ := List.forall_mem_cons.1 hargs
    unfold Session.acceptsNamed
    cases found : sig.named? name with
    | none => exact ⟨false, rfl⟩
    | some p =>
      have hp := hsig.2.2 p (List.mem_of_find?_eq_some found)
      simp only
      split
      · exact ⟨false, rfl⟩
      · exact exists_branch_eq_ok (wf.acceptsType_answered options hs harg hp) (ih hargs)
          ⟨false, rfl⟩

omit inRange in
theorem acceptsArguments_answered (hsig : P.SignatureInRange sig)
    (hs : s.Every (P.headInRange ·)) {a : Arguments} (ha : ∀ x ∈ a.all, P.InRange x.type) :
    ∃ answer, (P.session options).acceptsArguments sig s a = .ok answer := by
  have positional : ∀ x ∈ a.positional, P.InRange x.type := fun x hx =>
    ha x (List.mem_append_left _ hx)
  have named : ∀ x ∈ a.named, P.InRange x.2.type := fun x hx =>
    ha x.2 (List.mem_append_right _ (List.mem_map_of_mem hx))
  unfold Session.acceptsArguments
  split
  · exact ⟨false, rfl⟩
  · refine exists_branch_eq_ok (exists_allM_eq_ok fun x hx => ?_)
      (wf.acceptsNamed_answered options hsig hs named) ⟨false, rfl⟩
    obtain ⟨left, right⟩ := List.of_mem_zip hx
    exact wf.acceptsType_answered options hs (positional _ left) (hsig.2.1 _ right)

omit wf inRange in
theorem every_passTypes {types : Option (List Ty)} (hsig : P.SignatureInRange m.sig)
    (hs : s.Every (P.headInRange ·)) (htypes : ∀ xs ∈ types, ∀ x ∈ xs, P.InRange x) :
    ∀ s' ∈ Session.passTypes decl m types s, s'.Every (P.headInRange ·) := by
  intro s' h
  unfold Session.passTypes at h
  split at h
  · cases h
    exact hs
  · next xs =>
    split at h
    · split at h
      · cases h
        exact hs
      · cases h
    · split at h
      · cases h
        apply Substitution.every_insertAll hs
        intro e he
        obtain ⟨hp, hx⟩ := List.of_mem_zip he
        exact ⟨hsig.1 _ hp, htypes xs rfl _ hx⟩
      · cases h

theorem checkShape (hsig : P.SignatureInRange m.sig) (hs : s.Every (P.headInRange ·)) :
    Yields ((P.session options).checkShape site decl m s) fun shape =>
      ∀ s', shape = .accepted s' → s'.Every (P.headInRange ·) := by
  have formTypes : ∀ t ∈ site.form.types, P.InRange t := fun t ht =>
    inRange.types t (List.mem_append_right _ ht)
  have decided {s : Substitution} (hs : s.Every (P.headInRange ·)) {x : Except Fault Bool}
      (h : ∃ answer, x = .ok answer) :
      Yields (do pure (if ← x then Shape.accepted s else .mismatch)) fun shape =>
        ∀ s', shape = .accepted s' → s'.Every (P.headInRange ·) := by
    obtain ⟨answer, rfl⟩ := h
    cases answer with
    | true => exact yields_pure (by simpa using hs)
    | false => exact yields_pure (by simp)
  unfold Session.checkShape
  cases shape : site.form with
  | get => exact yields_pure (by simpa using hs)
  | set value =>
    rw [shape] at formTypes
    have hvalue := formTypes value.type (by simp [Form.types])
    simp only
    cases positional : m.sig.positional with
    | nil => exact yields_pure (by simp)
    | cons target rest =>
      have htarget := hsig.2.1 target (by simp [positional])
      exact decided hs (wf.acceptsType_answered options hs hvalue htarget)
  | call a =>
    rw [shape] at formTypes
    have htypes : ∀ xs ∈ a.types, ∀ x ∈ xs, P.InRange x := by
      intro xs hxs x hx
      exact formTypes x (by simp [Form.types, Option.mem_def.1 hxs, hx])
    have hargs : ∀ x ∈ a.all, P.InRange x.type := by
      intro x hx
      exact formTypes _ (List.mem_append_right _ (List.mem_map_of_mem hx))
    simp only
    split
    · exact yields_pure (by simp)
    · cases passed : Session.passTypes decl m a.types s with
      | none => exact yields_pure (by simp)
      | some s' =>
        have hs' := every_passTypes hsig hs htypes s' passed
        exact decided hs' (wf.acceptsArguments_answered options hsig hs' hargs)

theorem screenMembers (hd : P.decls.get? d = some decl) {members : List (MemberId × Member)}
    (hmembers : ∀ e ∈ members, decl.members.get? e.1 = some e.2) :
    Yields ((P.session options).screenMembers site d decl members) P.ScreeningInRange := by
  have declInRange := wf.decls d decl hd
  induction members with
  | nil => exact yields_pure ⟨by simp, by simp⟩
  | cons e members ih =>
    obtain ⟨i, m⟩ := e
    obtain ⟨hm, hmembers⟩ := List.forall_mem_cons.1 hmembers
    have ref : P.RefInRange (d, i) := ⟨decl, hd, by simp [hm]⟩
    unfold Session.screenMembers
    refine (wf.inferArgs options inRange declInRange).bind fun inferred hinferred => ?_
    cases inferred with
    | none => exact ih hmembers
    | some s =>
      have hsig := declInRange.members i m hm
      refine (wf.checkShape options inRange hsig (hinferred s rfl)).bind fun shape hshape => ?_
      cases shape with
      | accepted s' =>
        have hs' := hshape s' rfl
        have applied : P.InRange (decl.appliesTo.substitute s') :=
          headed_headInRange.every_substitute declInRange.appliesTo fun _ _ => hs'.get?
        exact yields_pure ⟨by simpa using ⟨ref, hs', applied⟩, by simp⟩
      | getterCall =>
        refine (ih hmembers).bind fun rest hrest => yields_pure ⟨hrest.candidates, ?_⟩
        exact List.forall_mem_cons.2 ⟨ref, hrest.getterCalls⟩
      | mismatch =>
        refine (ih hmembers).bind fun rest hrest => ?_
        exact yields_pure ⟨hrest.candidates, hrest.getterCalls⟩

theorem alone (h : (P.decls.get? d).isSome) :
    Yields ((P.session options).alone site d) P.ScreeningInRange := by
  have nothing : P.ScreeningInRange {} := ⟨by simp, by simp⟩
  cases dynamic : site.isDynamic with
  | true =>
    rw [Session.alone_of_dynamic dynamic]
    exact yields_pure nothing
  | false =>
    obtain ⟨decl, hd⟩ := Option.isSome_iff_exists.1 h
    have single : [d].eraseDups = [d] := by simp [List.eraseDups_cons]
    obtain ⟨denoted, hdenoted⟩ := wf.denotedBy_answered options inRange
    have program : (P.session options).program.decls.fetch d = .ok decl :=
      Table.fetch_eq_ok.2 hd
    obtain ⟨kept, hkept⟩ : ∃ kept,
        (P.session options).applicableAmong site denoted [d] = .ok kept := by
      obtain ⟨answer, hanswer⟩ := wf.applies_answered options inRange denoted
        (wf.decls d decl hd)
      rw [Session.applicableAmong, program, ok_bind]
      dsimp only
      split
      · exact ⟨_, by rw [hanswer]; rfl⟩
      · exact ⟨_, rfl⟩
    rw [Session.alone, Session.applicable_of_not_dynamic dynamic, single, hdenoted, ok_bind,
      hkept, ok_bind]
    rcases Session.applicableAmong_singleton hkept with rfl | ⟨rfl, _⟩
    · exact yields_pure nothing
    · rw [Session.screen_singleton, Session.screenDecl, program, ok_bind]
      apply wf.screenMembers options inRange hd
      intro e he
      exact Table.mem_toList.1 (List.mem_of_mem_filter (List.mem_of_mem_filter he))

theorem contributions (hds : ∀ d ∈ ds, (P.decls.get? d).isSome) :
    Yields (ds.mapM ((P.session options).alone site)) fun parts =>
      ∀ part ∈ parts, P.ScreeningInRange part :=
  yields_mapM fun d hd => wf.alone options inRange (hds d hd)

end Screening

section Comparison

variable {a b : Candidate}

theorem boundedType (hc : P.CandidateInRange c) :
    Yields ((P.session options).boundedType c).outcome fun found =>
      ∀ t ∈ found, P.InRange t := by
  have declared : (P.decls.get? c.decl).isSome := hc.ref.decl
  obtain ⟨decl, hd⟩ := Option.isSome_iff_exists.1 declared
  have inRange := wf.decls c.decl decl hd
  obtain ⟨found, hfound, holds⟩ := wf.closed.instantiateDecl options.limit hd
    inRange.params inRange.appliesTo
  have program : (P.session options).oracle.instantiateDecl c.decl = .ok found := hfound
  cases found with
  | ok t =>
    have applies : P.InRange t := holds
    exact ⟨some t, by simp [Session.boundedType, program], by simpa using applies⟩
  | error overflow =>
    obtain ⟨header, hheader⟩ := wf.showDecl_answered declared
    obtain ⟨param, hparam⟩ := showParam_answered holds
    obtain ⟨warning, hwarning⟩ : ∃ warning,
        (P.session options).overflowWarning c.decl overflow = .ok warning :=
      ⟨_, by
        simp only [Session.overflowWarning, Program.session, Table.fetch_eq_ok.2 hd, hheader,
          hparam, ok_bind]
        rfl⟩
    refine ⟨none, ?_, by simp⟩
    simp [Session.boundedType, program, hwarning, Except.bind]

theorem compareTypes_answered (ht : P.InRange t) (hu : P.InRange u) :
    ∃ answers, (P.session options).compareTypes t u = .ok answers := by
  obtain ⟨forward, hforward⟩ := wf.closed.isSubtype_answered options.limit ht hu
  obtain ⟨backward, hbackward⟩ := wf.closed.isSubtype_answered options.limit hu ht
  exact ⟨(forward, backward), Session.compareTypes_eq_ok.2 ⟨hforward, hbackward⟩⟩

theorem breakTie_answered (ha : P.CandidateInRange a) (hb : P.CandidateInRange b) :
    ∃ o, ((P.session options).breakTie a b).outcome = .ok o := by
  obtain ⟨t, ht, inRangeT⟩ := wf.boundedType options ha
  obtain ⟨u, hu, inRangeU⟩ := wf.boundedType options hb
  simp only [Session.breakTie, Reporting.outcome_bind, ht, hu, Except.bind]
  cases t with
  | none => exact ⟨_, rfl⟩
  | some t =>
    cases u with
    | none => exact ⟨_, rfl⟩
    | some u =>
      obtain ⟨answers, hanswers⟩ := wf.compareTypes_answered options
        (inRangeT t rfl) (inRangeU u rfl)
      exact ⟨_, by simp [hanswers]; rfl⟩

theorem compare_answered (ha : P.CandidateInRange a) (hb : P.CandidateInRange b) :
    ∃ o, ((P.session options).compare site a b).outcome = .ok o := by
  obtain ⟨⟨forward, backward⟩, hanswers⟩ := wf.compareTypes_answered options
    ha.appliesTo hb.appliesTo
  obtain ⟨o, ho⟩ := wf.breakTie_answered options ha hb
  unfold Session.compare
  split
  · exact ⟨_, rfl⟩
  split
  · exact ⟨_, rfl⟩
  split
  · exact ⟨_, rfl⟩
  simp only [Session.compareByType, Reporting.outcome_bind, Reporting.outcome_lift, hanswers,
    Except.bind]
  split
  · split
    · exact ⟨_, rfl⟩
    · exact ⟨o, ho⟩
  · exact ⟨_, rfl⟩

end Comparison

end WellFormed

variable {P : Program} {site : Site} {ds : List DeclId} {cs : List Candidate}
  {parts : List Screening} {r : Resolution}

theorem inRange_contributed (h : ∀ part ∈ parts, P.ScreeningInRange part) :
    ∀ c ∈ Session.contributed parts, P.CandidateInRange c := by
  intro c hc
  obtain ⟨part, hpart, head⟩ := List.mem_filterMap.1 hc
  exact (h part hpart).candidates c (List.mem_of_mem_head? head)

theorem inRange_rejection {declared : Bool} (h : ∀ part ∈ parts, P.ScreeningInRange part) :
    P.FailureInRange (Session.rejection site declared parts) := by
  unfold Session.rejection
  split
  · trivial
  split
  · trivial
  split
  · next d m found =>
    obtain ⟨part, hpart, head⟩ := List.exists_of_findSome?_eq_some found
    exact ((h part hpart).getterCalls (d, m) (List.mem_of_mem_head? head)).decl
  · trivial

theorem inRange_chosen {s : Session} (h : ∀ c ∈ cs, P.CandidateInRange c) :
    P.ResolutionInRange (s.chosen site cs) := by
  have unbeaten : ∀ c ∈ s.unbeaten site cs, P.CandidateInRange c := fun c hc =>
    h c (Session.mem_unbeaten.1 hc).1
  unfold Session.chosen
  split
  · next c single =>
    have hc := unbeaten c (by simp [single])
    exact ⟨hc.ref, hc.substitution⟩
  · intro ref hr
    obtain ⟨c, hc, rfl⟩ := List.mem_map.1 hr
    exact (unbeaten c hc).ref

theorem WellFormed.resolveAmong (wf : P.WellFormed) (options : Options)
    (inRange : P.SiteInRange site) (hds : ∀ d ∈ ds, (P.decls.get? d).isSome) :
    Yields ((P.session options).resolveAmong site ds).outcome P.ResolutionInRange := by
  obtain ⟨parts, hparts, screened⟩ := wf.contributions options inRange fun d hd =>
    hds d (List.mem_eraseDups.1 hd)
  have candidates := inRange_contributed screened
  have answers : (P.session options).Answers site ds parts :=
    { denoted := wf.denotedBy_answered options inRange
      comparable := fun a ha b hb => wf.compare_answered options (candidates a ha) (candidates b hb)
      headers := fun _ d hd => wf.quoteDecl_answered (hds d hd)
      members := fun _ c hc => wf.quoteMember_answered (candidates c hc).ref
      typeArgs := fun _ c hc => showSubstitution_answered (candidates c hc).substitution }
  obtain ⟨r, hr⟩ := Session.resolveAmong_answered hparts answers
  obtain ⟨parts', hparts', rfl⟩ := Session.resolveAmong_eq_ok hr
  rw [hparts] at hparts'
  cases hparts'
  refine ⟨_, hr, ?_⟩
  unfold Session.selection
  split
  · exact inRange_rejection screened
  · exact inRange_chosen candidates

theorem SiteInRange.visible (inRange : P.SiteInRange site) :
    Yields (P.visible site) fun ds => ∀ d ∈ ds, (P.decls.get? d).isSome := by
  obtain ⟨ds, hds⟩ := visible_answered.2 (.inl inRange.library)
  refine ⟨ds, hds, fun d hd => ?_⟩
  rcases ((visible_eq_ok hds).2 d).1 hd with enclosing | ⟨decl, hdecl, _⟩
  · exact inRange.enclosing d enclosing
  · exact Option.isSome_of_eq_some hdecl

theorem WellFormed.resolve (wf : P.WellFormed) (options : Options) (inRange : P.SiteInRange site) :
    Yields ((P.session options).resolve site).outcome P.ResolutionInRange := by
  obtain ⟨ds, hds, declared⟩ := inRange.visible
  have scope : (P.session options).scope.visible site = .ok ds := hds
  rw [Session.resolve, Reporting.outcome_bind, Reporting.outcome_lift, scope]
  exact wf.resolveAmong options inRange declared

theorem ResolutionInRange.isConstant_answered {s : Session} {t : Target}
    (h : s.program.ResolutionInRange (.resolved t)) :
    ∃ constant, s.isConstant site t = .ok constant := by
  obtain ⟨⟨decl, hd, hm⟩, _⟩ := h
  obtain ⟨m, hm⟩ := Option.isSome_iff_exists.1 hm
  unfold Session.isConstant
  rw [Table.fetch_eq_ok.2 hd, ok_bind, Table.fetch_eq_ok.2 hm, ok_bind]
  split <;> exact ⟨_, rfl⟩

/-- Whatever the options are, an access resolves to a member that can be looked up or fails with a
    diagnostic that can be written. -/
theorem resolve_in_range (P : Program) (options : Options) (site : Site) (wf : P.WellFormed)
    (inRange : P.SiteInRange site) :
    ∃ r, ((P.session options).resolve site).outcome = .ok r ∧ P.ResolutionInRange r ∧
      (∀ t, r = .resolved t →
        ∃ constant, (P.session options).isConstant site t = .ok constant) ∧
      ∀ f, r = .failed f → ∃ diagnostic, P.explain f = .ok diagnostic := by
  obtain ⟨r, hr, holds⟩ := wf.resolve options inRange
  refine ⟨r, hr, holds, ?_, ?_⟩
  · rintro t rfl
    exact ResolutionInRange.isConstant_answered (s := P.session options) holds
  · rintro f rfl
    exact wf.explain_answered holds

open Session (listExtensions)

theorem wellFormed_listExtensions : listExtensions.WellFormed where
  object := by decide
  future := by decide
  supers := by decide
  bounds := by decide
  decls := by decide

/-- Even a list without a type argument is looked up without a fault. -/
theorem listExtensions_in_range :
    let site : Site := { name := "sum", receiver := .value (.interface ⟨10⟩ []), library := .core }
    let s := listExtensions.session { trace := true }
    ∃ r, (s.resolve site).outcome = .ok r ∧ listExtensions.ResolutionInRange r ∧
      (∀ t, r = .resolved t → ∃ constant, s.isConstant site t = .ok constant) ∧
      ∀ f, r = .failed f → ∃ diagnostic, listExtensions.explain f = .ok diagnostic :=
  resolve_in_range listExtensions { trace := true } _ wellFormed_listExtensions
    ⟨by decide, by decide, by decide⟩

end Program

end MemberAccess
