import MemberAccess.Proofs.Resolution.Contributions
import MemberAccess.Proofs.Resolution.Ranking
import MemberAccess.Resolution.Resolve

/-!
What a site resolves to, in terms of what each visible declaration contributes by itself. If there
are candidates, the comparisons among them decide; only if there are none, the reasons why the
declarations were ruled out matter.
-/
namespace MemberAccess.Session

variable {s : Session} {site : Site} {visible kept ds : List DeclId} {d : DeclId}
  {denoted : List TypeId} {parts : List Screening} {r : Resolution}

def rejection (site : Site) (declared : Bool) (parts : List Screening) : Failure :=
  if site.isDynamic then .noMatch site.span site.name .dynamicReceiver
  else if !declared then .noMatch site.span site.name .undeclared
  else
    match parts.findSome? (·.getterCalls.head?) with
    | some (decl, _) => .getterInvoked site.span site.name decl
    | none =>
      .noMatch site.span site.name
        (if parts.any (!·.shapeMismatches.isEmpty) then .shapeMismatch else .receiverMismatch)

/-- The only candidate that no other one precedes, or all of them if there are more or less. -/
def chosen (s : Session) (site : Site) (cs : List Candidate) : Resolution :=
  match s.unbeaten site cs with
  | [c] => .resolved c.target
  | maximal => .failed (.ambiguous site.span site.name (maximal.map Candidate.ref))

/-- The resolution by what the declarations contribute one by one. -/
def selection (s : Session) (site : Site) (declared : Bool) (parts : List Screening) :
    Resolution :=
  if contributed parts = [] then .failed (rejection site declared parts)
  else s.chosen site (contributed parts)

theorem traceWith_eq_ok {message : Except Fault String} :
    (s.traceWith site message).outcome = .ok () ↔
      (s.options.trace = true → ∃ text, message = .ok text) := by
  cases traced : s.options.trace <;> simp [traceWith, traced]

theorem anyDeclares_eq_ok {answer : Bool} (h : s.anyDeclares site ds = .ok answer) :
    answer = s.declares site ds := by
  induction ds with
  | nil =>
    cases h
    rfl
  | cons d ds ih =>
    simp only [anyDeclares, bind_eq_ok, Table.fetch_eq_ok] at h
    obtain ⟨decl, hdecl, h⟩ := h
    by_cases fitting : decl.hasFittingMember site
    · simp_all [declares]
    · have rest := ih (by simpa [fitting] using h)
      simp_all [declares]

theorem anyDeclares_answered (h : ∀ d ∈ ds, ∃ decl, s.program.decls.get? d = some decl) :
    s.anyDeclares site ds = .ok (s.declares site ds) := by
  suffices ∃ answer, s.anyDeclares site ds = .ok answer by
    obtain ⟨answer, hanswer⟩ := this
    rw [hanswer, anyDeclares_eq_ok hanswer]
  induction ds with
  | nil => exact ⟨false, rfl⟩
  | cons d ds ih =>
    obtain ⟨decl, hdecl⟩ := h d (by simp)
    obtain ⟨rest, hrest⟩ := ih fun d hd => h d (by simp [hd])
    simp only [anyDeclares, Table.fetch_eq_ok.2 hdecl, hrest]
    by_cases fitting : decl.hasFittingMember site
    · exact ⟨true, by simp [fitting, bind, Except.bind]⟩
    · exact ⟨rest, by simp [fitting, bind, Except.bind]⟩

theorem any_shapeMismatches (parts : List Screening) :
    parts.any (!·.shapeMismatches.isEmpty) =
      !(Screening.concat parts).shapeMismatches.isEmpty := by
  rw [Screening.shapeMismatches_concat]
  induction parts with
  | nil => rfl
  | cons part parts ih =>
    rw [List.any_cons, ih, List.flatMap_cons]
    cases part.shapeMismatches <;> simp

theorem noCandidate_concat (h : site.isDynamic = false) :
    noCandidate site (.concat parts) = .failed (rejection site true parts) := by
  have getters : (parts.findSome? (·.getterCalls.head?)) =
      (Screening.concat parts).getterCalls.head? := by
    rw [Screening.getterCalls_concat, List.head?_flatMap]
  rw [noCandidate, rejection, getters, any_shapeMismatches]
  generalize Screening.concat parts = screening
  cases getterCalls : screening.getterCalls with
  | nil => cases empty : screening.shapeMismatches.isEmpty <;> simp [h]
  | cons call calls => simp [h]

theorem choose_eq_ok {cs : List Candidate} (nonempty : cs ≠ [])
    (h : (s.choose site cs).outcome = .ok r) : r = s.chosen site cs := by
  obtain ⟨first, rest, rfl⟩ := List.exists_cons_of_ne_nil nonempty
  simp only [choose, Reporting.outcome_bind, except_bind_eq_ok] at h
  obtain ⟨ranked, hranked, h⟩ := h
  rw [rank_eq_ok hranked, ranking] at h
  rw [chosen]
  generalize s.unbeaten site (first :: rest) = maximal at h
  rcases maximal with _ | ⟨c, _ | ⟨d, cs⟩⟩
  · simpa [eq_comm] using h
  · simp only [Reporting.outcome_bind, except_bind_eq_ok, Reporting.outcome_pure] at h
    obtain ⟨_, _, h⟩ := h
    cases h
    rfl
  · simpa [eq_comm] using h

theorem noApplicable_eq_ok (dynamic : site.isDynamic = false)
    (empty : Screening.concat parts = {}) (h : s.noApplicable site visible = .ok r) :
    r = .failed (rejection site (s.declares site visible) parts) := by
  simp only [noApplicable, bind_eq_ok, pure_eq_ok] at h
  obtain ⟨declared, hdeclared, rfl⟩ := h
  rw [← anyDeclares_eq_ok hdeclared]
  cases declared with
  | false => simp [rejection, dynamic]
  | true => simp [← noCandidate_concat dynamic, empty, noCandidate]

theorem declares_of_applicableAmong (h : s.applicableAmong site denoted ds = .ok kept)
    (nonempty : kept ≠ []) : s.declares site ds = true := by
  induction ds generalizing kept with
  | nil =>
    cases h
    contradiction
  | cons d ds ih =>
    rw [applicableAmong_cons] at h
    simp only [bind_eq_ok, pure_eq_ok] at h
    obtain ⟨first, hfirst, others, hothers, rfl⟩ := h
    rcases applicableAmong_singleton hfirst with rfl | ⟨rfl, here⟩
    · have rest := ih hothers nonempty
      simp_all [declares]
    · simp_all [declares]

theorem declares_eraseDups : s.declares site visible.eraseDups = s.declares site visible := by
  rw [Bool.eq_iff_iff]
  simp [declares]

theorem declares_of_applicable (dynamic : site.isDynamic = false)
    (h : s.applicable site visible = .ok kept) (nonempty : kept ≠ []) :
    s.declares site visible = true := by
  simp only [applicable_of_not_dynamic dynamic, bind_eq_ok] at h
  obtain ⟨denoted, _, collected⟩ := h
  rw [← declares_eraseDups]
  exact declares_of_applicableAmong collected nonempty

theorem describeApplicable_answered :
    (∃ text, s.describeApplicable site kept = .ok text) ↔
      ∀ d ∈ kept, ∃ text, s.program.quoteDecl d = .ok text := by
  constructor
  · rintro ⟨text, h⟩ d hd
    simp only [describeApplicable, bind_eq_ok] at h
    obtain ⟨headers, hheaders, _⟩ := h
    exact exists_eq_ok_of_mapM hheaders hd
  · intro h
    obtain ⟨headers, hheaders⟩ := exists_mapM_eq_ok h
    rw [describeApplicable, hheaders]
    exact ⟨_, rfl⟩

theorem describeCandidates_answered {cs : List Candidate} :
    (∃ text, s.describeCandidates site cs = .ok text) ↔
      ∀ c ∈ cs, ∃ text, s.program.quoteMember c.ref = .ok text := by
  constructor
  · rintro ⟨text, h⟩ c hc
    simp only [describeCandidates, bind_eq_ok] at h
    obtain ⟨members, hmembers, _⟩ := h
    exact exists_eq_ok_of_mapM (f := fun c => s.program.quoteMember c.ref) hmembers hc
  · intro h
    obtain ⟨members, hmembers⟩ := exists_mapM_eq_ok h
    rw [describeCandidates, hmembers]
    exact ⟨_, rfl⟩

structure Screens (s : Session) (site : Site) (visible : List DeclId) (parts : List Screening) :
    Prop where
  denoted : ∃ denoted, s.denotedBy site = .ok denoted
  contributions : visible.eraseDups.mapM (s.alone site) = .ok parts
  headers : s.options.trace = true → ∀ d ∈ visible, s.applicable site [d] = .ok [d] →
    ∃ text, s.program.quoteDecl d = .ok text
  members : s.options.trace = true →
    ∀ c ∈ contributed parts, ∃ text, s.program.quoteMember c.ref = .ok text

theorem declared_of_parts (dynamic : site.isDynamic = false)
    (hparts : visible.eraseDups.mapM (s.alone site) = .ok parts) (hd : d ∈ visible) :
    ∃ decl, s.program.decls.get? d = some decl := by
  obtain ⟨part, h⟩ := exists_eq_ok_of_mapM hparts (List.mem_eraseDups.2 hd)
  have single : [d].eraseDups = [d] := by simp [List.eraseDups_cons]
  simp only [alone, applicable_of_not_dynamic dynamic, single, applicableAmong, bind_eq_ok,
    Table.fetch_eq_ok] at h
  obtain ⟨_, ⟨_, _, decl, hdecl, _⟩, _⟩ := h
  exact ⟨decl, hdecl⟩

def Concludes (s : Session) (site : Site) (visible : List DeclId) (parts : List Screening)
    (r : Resolution) : Prop :=
  if contributed parts = [] then r = .failed (rejection site (s.declares site visible) parts)
  else (s.choose site (contributed parts)).outcome = .ok r

theorem screens_of_run (dynamic : site.isDynamic = false)
    (h : (s.resolveAmong site visible).outcome = .ok r) :
    ∃ parts, s.Screens site visible parts ∧ s.Concludes site visible parts r := by
  simp only [resolveAmong, dynamic, Bool.false_eq_true, if_false, Reporting.outcome_bind,
    Reporting.outcome_lift, except_bind_eq_ok] at h
  obtain ⟨kept, collected, _, traced, h⟩ := h
  have headers (trace : s.options.trace = true) (d : DeclId) (hd : d ∈ visible)
      (keeps : s.applicable site [d] = .ok [d]) : ∃ text, s.program.quoteDecl d = .ok text :=
    describeApplicable_answered.1 (traceWith_eq_ok.1 traced trace) d
      ((mem_of_applicable dynamic collected).2 ⟨hd, keeps⟩)
  by_cases none : kept = []
  · subst none
    obtain ⟨hdenoted, parts, hparts, empty⟩ := applicable_screen.1 ⟨_, collected, screen_nil⟩
    have noCandidates : contributed parts = [] := by
      rw [(contributed_decls hparts).2, ← Screening.candidates_concat, ← empty]
    refine ⟨parts, ⟨hdenoted dynamic, hparts, headers, by simp [noCandidates]⟩, ?_⟩
    rw [Concludes, if_pos noCandidates]
    exact noApplicable_eq_ok dynamic empty.symm (by simpa using h)
  · simp only [List.isEmpty_iff, none, if_false, Reporting.outcome_bind, Reporting.outcome_lift,
      except_bind_eq_ok] at h
    obtain ⟨screening, screened, _, listed, h⟩ := h
    obtain ⟨hdenoted, parts, hparts, rfl⟩ := applicable_screen.1 ⟨_, collected, screened⟩
    have candidates : (Screening.concat parts).candidates = contributed parts := by
      rw [Screening.candidates_concat, (contributed_decls hparts).2]
    rw [candidates] at listed h
    refine ⟨parts, ⟨hdenoted dynamic, hparts, headers, fun trace =>
      describeCandidates_answered.1 (traceWith_eq_ok.1 listed trace)⟩, ?_⟩
    unfold Concludes
    by_cases noCandidates : contributed parts = []
    · rw [if_pos noCandidates] at h ⊢
      rw [declares_of_applicable dynamic collected none, ← noCandidate_concat dynamic]
      exact (Except.ok.inj h).symm
    · rw [if_neg noCandidates] at h ⊢
      exact h

theorem run_of_screens (dynamic : site.isDynamic = false)
    (screens : s.Screens site visible parts) (concludes : s.Concludes site visible parts r) :
    (s.resolveAmong site visible).outcome = .ok r := by
  obtain ⟨kept, collected, screened⟩ :=
    applicable_screen.2 ⟨fun _ => screens.denoted, parts, screens.contributions, rfl⟩
  have candidates : (Screening.concat parts).candidates = contributed parts := by
    rw [Screening.candidates_concat, (contributed_decls screens.contributions).2]
  have headers : (s.traceWith site (s.describeApplicable site kept)).outcome = .ok () := by
    apply traceWith_eq_ok.2
    intro trace
    apply describeApplicable_answered.2
    intro d hd
    obtain ⟨visible, keeps⟩ := (mem_of_applicable dynamic collected).1 hd
    exact screens.headers trace d visible keeps
  have members :
      (s.traceWith site (s.describeCandidates site (contributed parts))).outcome = .ok () :=
    traceWith_eq_ok.2 fun trace => describeCandidates_answered.2 (screens.members trace)
  simp only [resolveAmong, dynamic, Bool.false_eq_true, if_false, Reporting.outcome_bind,
    Reporting.outcome_lift, collected, headers, Except.bind]
  by_cases none : kept = []
  · subst none
    have declared : s.anyDeclares site visible = .ok (s.declares site visible) :=
      anyDeclares_answered fun d hd => declared_of_parts dynamic screens.contributions hd
    have empty : Screening.concat parts = {} := by
      rw [screen_nil] at screened
      exact (Except.ok.inj screened).symm
    have noCandidates : contributed parts = [] := by rw [← candidates, empty]
    rw [Concludes, if_pos noCandidates] at concludes
    obtain ⟨r', h⟩ : ∃ r', s.noApplicable site visible = .ok r' :=
      ⟨_, by simp only [noApplicable, declared]; rfl⟩
    rw [concludes, ← noApplicable_eq_ok dynamic empty h]
    exact h
  · simp only [List.isEmpty_iff, none, if_false, Reporting.outcome_bind, Reporting.outcome_lift,
      screened, candidates, members, Except.bind]
    unfold Concludes at concludes
    by_cases noCandidates : contributed parts = []
    · rw [if_pos noCandidates] at concludes ⊢
      rw [noCandidate_concat dynamic, concludes, declares_of_applicable dynamic collected none]
      rfl
    · rw [if_neg noCandidates] at concludes ⊢
      exact concludes

theorem resolveAmong_of_dynamic (dynamic : site.isDynamic = true) :
    s.resolveAmong site visible =
      pure (.failed (.noMatch site.span site.name .dynamicReceiver)) := by
  simp [resolveAmong, dynamic]

theorem Concludes.eq_selection (h : s.Concludes site visible parts r) :
    r = s.selection site (s.declares site visible) parts := by
  unfold Concludes at h
  unfold selection
  by_cases noCandidates : contributed parts = []
  · rw [if_pos noCandidates] at h ⊢
    exact h
  · rw [if_neg noCandidates] at h ⊢
    exact choose_eq_ok noCandidates h

theorem resolveAmong_eq_ok (h : (s.resolveAmong site visible).outcome = .ok r) :
    ∃ parts, visible.eraseDups.mapM (s.alone site) = .ok parts ∧
      r = s.selection site (s.declares site visible) parts := by
  cases dynamic : site.isDynamic with
  | true =>
    refine ⟨_, mapM_alone_of_dynamic dynamic, ?_⟩
    rw [resolveAmong_of_dynamic dynamic] at h
    simp [← Except.ok.inj h, selection, contributed, rejection, dynamic]
  | false =>
    obtain ⟨parts, screens, concludes⟩ := screens_of_run dynamic h
    exact ⟨parts, screens.contributions, concludes.eq_selection⟩

/-- Everything that a resolution asks for besides what the declarations contribute. -/
structure Answers (s : Session) (site : Site) (visible : List DeclId) (parts : List Screening) :
    Prop where
  denoted : ∃ denoted, s.denotedBy site = .ok denoted
  comparable : s.Comparable site (contributed parts)
  headers : s.options.trace = true → ∀ d ∈ visible, ∃ text, s.program.quoteDecl d = .ok text
  members : s.options.trace = true →
    ∀ c ∈ contributed parts, ∃ text, s.program.quoteMember c.ref = .ok text
  typeArgs : s.options.trace = true →
    ∀ c ∈ contributed parts, ∃ text, s.program.showSubstitution c.substitution = .ok text

theorem describeWinner_answered {c : Candidate}
    (member : ∃ text, s.program.quoteMember c.ref = .ok text)
    (typeArgs : ∃ text, s.program.showSubstitution c.substitution = .ok text) :
    ∃ text, s.describeWinner site c = .ok text := by
  obtain ⟨member, hmember⟩ := member
  obtain ⟨typeArgs, htypeArgs⟩ := typeArgs
  by_cases empty : c.substitution.isEmpty
  · simp [describeWinner, hmember, empty]
  · simp [describeWinner, hmember, htypeArgs, empty]

theorem choose_answered {cs : List Candidate} (nonempty : cs ≠ [])
    (comparable : s.Comparable site cs)
    (described : s.options.trace = true →
      ∀ c, s.ranking site cs = .winner c → ∃ text, s.describeWinner site c = .ok text) :
    ∃ r, (s.choose site cs).outcome = .ok r := by
  simp only [choose, Reporting.outcome_bind, except_bind_eq_ok]
  rw [exists_comm]
  refine ⟨s.ranking site cs, ?_⟩
  simp only [rank_answered comparable, true_and]
  cases h : s.ranking site cs with
  | winner c =>
    have traced : (s.traceWith site (s.describeWinner site c)).outcome = .ok () :=
      traceWith_eq_ok.2 fun traced => described traced c h
    exact ⟨_, by simp [traced]; rfl⟩
  | none => exact absurd h (ranking_ne_none nonempty)
  | ambiguous maximal => exact ⟨_, rfl⟩

theorem resolveAmong_answered (hparts : visible.eraseDups.mapM (s.alone site) = .ok parts)
    (answers : s.Answers site visible parts) :
    ∃ r, (s.resolveAmong site visible).outcome = .ok r := by
  cases dynamic : site.isDynamic with
  | true =>
    rw [resolveAmong_of_dynamic dynamic]
    exact ⟨_, rfl⟩
  | false =>
    have screens : s.Screens site visible parts :=
      ⟨answers.denoted, hparts, fun trace d hd _ => answers.headers trace d hd, answers.members⟩
    suffices ∃ r, s.Concludes site visible parts r by
      obtain ⟨r, concludes⟩ := this
      exact ⟨r, run_of_screens dynamic screens concludes⟩
    unfold Concludes
    by_cases noCandidates : contributed parts = []
    · simp [noCandidates]
    · simp only [if_neg noCandidates]
      apply choose_answered noCandidates answers.comparable
      intro trace c winner
      have hc := mem_of_ranking_winner winner
      exact describeWinner_answered (answers.members trace c hc) (answers.typeArgs trace c hc)

theorem resolveAmong_eq_selection (s : Session) (site : Site) (visible : List DeclId) :
    (∀ r, (s.resolveAmong site visible).outcome = .ok r →
      ∃ parts, visible.eraseDups.mapM (s.alone site) = .ok parts ∧
        r = s.selection site (s.declares site visible) parts) ∧
    (∀ parts, visible.eraseDups.mapM (s.alone site) = .ok parts →
      (∀ part ∈ parts, part.candidates.length ≤ 1) ∧
      (s.Answers site visible parts → (s.resolveAmong site visible).outcome =
        .ok (s.selection site (s.declares site visible) parts))) ∧
    (∀ cs, cs ≠ [] → (s.rank site cs).outcome ≠ .ok .none) := by
  refine ⟨fun r => resolveAmong_eq_ok, ?selected, ?ranked⟩
  case selected =>
    intro parts hparts
    constructor
    · intro part hpart
      obtain ⟨d, _, contribution⟩ := exists_of_mem_mapM hparts hpart
      rcases alone_candidates contribution with none | ⟨c, one, _⟩
      · simp [none]
      · simp [one]
    · intro answers
      obtain ⟨r, hr⟩ := resolveAmong_answered hparts answers
      obtain ⟨parts', hparts', rfl⟩ := resolveAmong_eq_ok hr
      rw [hparts] at hparts'
      cases hparts'
      exact hr
  case ranked =>
    intro cs nonempty h
    exact ranking_ne_none nonempty (rank_eq_ok h).symm

theorem listExtensions_selection :
    let s := listExtensions.session {}
    let ints : Ty := .interface ⟨10⟩ [.interface ⟨5⟩ []]
    let site : Site := { name := "sum", receiver := .value ints, library := .core }
    let visible : List DeclId := [⟨0⟩, ⟨1⟩, ⟨0⟩, ⟨2⟩]
    ∃ parts, visible.eraseDups.mapM (s.alone site) = .ok parts ∧ s.Answers site visible parts ∧
      contributed parts = listCandidates ∧
      (s.resolveAmong site visible).outcome = .ok (.resolved ⟨⟨1⟩, ⟨0⟩, .empty⟩) := by
  intro s ints site visible
  refine ⟨listCandidates.map fun c => { candidates := [c] }, by decide +kernel, ?_⟩
  have answers : s.Answers site visible (listCandidates.map fun c => { candidates := [c] }) :=
    ⟨⟨[], rfl⟩, by decide +kernel, by decide, by decide, by decide⟩
  refine ⟨answers, rfl, ?_⟩
  rw [((resolveAmong_eq_selection s site visible).2.1 _ (by decide +kernel)).2 answers]
  decide +kernel

end MemberAccess.Session
