import MemberAccess.Proofs.Outcomes
import MemberAccess.Resolution.Applicable
import MemberAccess.Resolution.Screening

/-!
What each visible declaration contributes to a resolution by itself. To collect and to screen many
declarations is the same as to do so for one after the other, and to put the results together in
the order of the declarations.
-/
namespace MemberAccess

namespace Screening

theorem append_assoc (a b c : Screening) : (a.append b).append c = a.append (b.append c) := by
  simp [append]

@[simp] theorem empty_append (a : Screening) : append {} a = a := rfl

@[simp] theorem append_empty (a : Screening) : append a {} = a := by
  simp [append]

@[simp] theorem concat_nil : concat [] = {} := rfl

@[simp] theorem concat_cons (part : Screening) (parts : List Screening) :
    concat (part :: parts) = part.append (concat parts) := rfl

theorem concat_append (first second : List Screening) :
    concat (first ++ second) = (concat first).append (concat second) := by
  induction first with
  | nil => rfl
  | cons part parts ih => rw [List.cons_append, concat_cons, ih, concat_cons, append_assoc]

theorem concat_replicate_empty (n : Nat) : concat (.replicate n {}) = {} := by
  induction n with
  | zero => rfl
  | succ n ih => rw [List.replicate_succ, concat_cons, ih, empty_append]

@[simp] theorem candidates_concat (parts : List Screening) :
    (concat parts).candidates = parts.flatMap (·.candidates) := by
  induction parts with
  | nil => rfl
  | cons part parts ih => simp [append, ih]

@[simp] theorem getterCalls_concat (parts : List Screening) :
    (concat parts).getterCalls = parts.flatMap (·.getterCalls) := by
  induction parts with
  | nil => rfl
  | cons part parts ih => simp [append, ih]

@[simp] theorem shapeMismatches_concat (parts : List Screening) :
    (concat parts).shapeMismatches = parts.flatMap (·.shapeMismatches) := by
  induction parts with
  | nil => rfl
  | cons part parts ih => simp [append, ih]

end Screening

namespace Session

variable {s : Session} {site : Site} {visible kept ds : List DeclId} {d : DeclId}
  {denoted : List TypeId} {part screening : Screening} {parts : List Screening}

def alone (s : Session) (site : Site) (d : DeclId) : Except Fault Screening := do
  s.screen site (← s.applicable site [d])

def declares (s : Session) (site : Site) (visible : List DeclId) : Bool :=
  visible.any fun d => (s.program.decls.get? d).any (·.hasFittingMember site)

/-- The candidates that the single declarations contribute, at most one each. -/
def contributed (parts : List Screening) : List Candidate :=
  parts.filterMap (·.candidates.head?)

theorem applicableAmong_cons :
    s.applicableAmong site denoted (d :: ds) = (do
      let first ← s.applicableAmong site denoted [d]
      let others ← s.applicableAmong site denoted ds
      pure (first ++ others)) := by
  simp only [applicableAmong, bind_assoc, pure_bind]
  refine bind_congr fun decl => ?_
  by_cases fitting : decl.hasFittingMember site
  · simp only [fitting, if_true, bind_assoc, pure_bind]
    refine bind_congr fun isApplicable => bind_congr fun others => ?_
    cases isApplicable <;> rfl
  · simp [fitting]

theorem screen_nil : s.screen site [] = .ok {} := rfl

theorem screen_append (first second : List DeclId) :
    s.screen site (first ++ second) = (do
      let a ← s.screen site first
      let b ← s.screen site second
      pure (a.append b)) := by
  simp [screen, List.mapM_append, Screening.concat_append]

/-- Collecting and then screening goes declaration by declaration. -/
theorem applicableAmong_screen :
    (∃ kept, s.applicableAmong site denoted ds = .ok kept ∧ s.screen site kept = .ok screening) ↔
      ∃ parts, ds.mapM (fun d => s.applicableAmong site denoted [d] >>= s.screen site) = .ok parts ∧
        screening = .concat parts := by
  induction ds generalizing screening with
  | nil =>
    constructor
    · rintro ⟨kept, collected, screened⟩
      cases collected
      cases screened
      exact ⟨[], rfl, rfl⟩
    · rintro ⟨parts, hparts, rfl⟩
      cases hparts
      exact ⟨[], rfl, rfl⟩
  | cons d ds ih =>
    rw [applicableAmong_cons]
    simp only [bind_eq_ok, pure_eq_ok, List.mapM_cons]
    constructor
    · rintro ⟨_, ⟨first, hfirst, others, hothers, rfl⟩, h⟩
      simp only [screen_append, bind_eq_ok, pure_eq_ok] at h
      obtain ⟨a, ha, b, hb, rfl⟩ := h
      obtain ⟨parts, hparts, rfl⟩ := ih.1 ⟨others, hothers, hb⟩
      exact ⟨a :: parts, ⟨a, ⟨first, hfirst, ha⟩, parts, hparts, rfl⟩, rfl⟩
    · rintro ⟨_, ⟨a, ⟨first, hfirst, ha⟩, parts, hparts, rfl⟩, rfl⟩
      obtain ⟨others, hothers, hb⟩ := ih.2 ⟨parts, hparts, rfl⟩
      refine ⟨first ++ others, ⟨first, hfirst, others, hothers, rfl⟩, ?_⟩
      simp only [screen_append, bind_eq_ok, pure_eq_ok]
      exact ⟨a, ha, _, hb, rfl⟩

def denotedBy (s : Session) (site : Site) : Except Fault (List TypeId) :=
  if site.isShorthand then s.oracle.denoted site.context else pure []

theorem applicable_of_not_dynamic (h : site.isDynamic = false) :
    s.applicable site ds = s.denotedBy site >>= (s.applicableAmong site · ds.eraseDups) := by
  cases shorthand : site.isShorthand <;> simp [applicable, denotedBy, h, shorthand]

theorem applicable_of_dynamic (h : site.isDynamic = true) : s.applicable site ds = .ok [] := by
  simp [applicable, h]

theorem alone_of_dynamic (h : site.isDynamic = true) : s.alone site d = .ok {} := by
  rw [alone, applicable_of_dynamic h]
  rfl

theorem mapM_alone_of_dynamic (h : site.isDynamic = true) :
    ds.mapM (s.alone site) = .ok (.replicate ds.length {}) := by
  induction ds with
  | nil => rfl
  | cons d ds ih => simp [alone_of_dynamic h, ih, List.replicate_succ]

theorem mapM_alone_of_denoted (h : site.isDynamic = false)
    (hdenoted : s.denotedBy site = .ok denoted) :
    s.alone site = fun d => s.applicableAmong site denoted [d] >>= s.screen site := by
  funext d
  have single : [d].eraseDups = [d] := by simp [List.eraseDups_cons]
  simp [alone, applicable_of_not_dynamic h, hdenoted, single, bind, Except.bind]

theorem applicable_screen :
    (∃ kept, s.applicable site visible = .ok kept ∧ s.screen site kept = .ok screening) ↔
      (site.isDynamic = false → ∃ denoted, s.denotedBy site = .ok denoted) ∧
      ∃ parts, visible.eraseDups.mapM (s.alone site) = .ok parts ∧ screening = .concat parts := by
  cases dynamic : site.isDynamic with
  | true =>
    simp [applicable_of_dynamic dynamic, mapM_alone_of_dynamic dynamic, screen_nil,
      Screening.concat_replicate_empty, eq_comm]
  | false =>
    simp only [applicable_of_not_dynamic dynamic, bind_eq_ok, true_imp_iff]
    constructor
    · rintro ⟨kept, ⟨denoted, hdenoted, collected⟩, screened⟩
      refine ⟨⟨denoted, hdenoted⟩, ?_⟩
      rw [mapM_alone_of_denoted dynamic hdenoted]
      exact applicableAmong_screen.1 ⟨kept, collected, screened⟩
    · rintro ⟨⟨denoted, hdenoted⟩, runs⟩
      rw [mapM_alone_of_denoted dynamic hdenoted] at runs
      obtain ⟨kept, collected, screened⟩ := applicableAmong_screen.2 runs
      exact ⟨kept, ⟨denoted, hdenoted, collected⟩, screened⟩

structure Admits (s : Session) (site : Site) (decl : Decl) (m : Member) (inferred : Substitution)
    (c : Candidate) : Prop where
  infers : s.inferArgs site decl m = .ok (some inferred)
  accepts : s.checkShape site decl m inferred = .ok (.accepted c.substitution)
  applies : c.appliesTo = decl.appliesTo.substitute c.substitution

theorem screenMembers_candidates {decl : Decl} {members : List (MemberId × Member)}
    (h : s.screenMembers site d decl members = .ok part) :
    part.candidates = [] ∨ ∃ c, part.candidates = [c] ∧ c.decl = d ∧
      ∃ m σ, (c.member, m) ∈ members ∧ s.Admits site decl m σ c := by
  induction members generalizing part with
  | nil =>
    cases h
    exact .inl rfl
  | cons member rest ih =>
    have later {part : Screening} (h : s.screenMembers site d decl rest = .ok part) :
        part.candidates = [] ∨ ∃ c, part.candidates = [c] ∧ c.decl = d ∧
          ∃ m σ, (c.member, m) ∈ member :: rest ∧ s.Admits site decl m σ c := by
      rcases ih h with none | ⟨c, one, same, m, σ, among, admits⟩
      · exact .inl none
      · exact .inr ⟨c, one, same, m, σ, List.mem_cons_of_mem _ among, admits⟩
    simp only [screenMembers, bind_eq_ok] at h
    obtain ⟨inferred, hinferred, h⟩ := h
    cases inferred with
    | none => exact later h
    | some substitution =>
      simp only [bind_eq_ok] at h
      obtain ⟨shape, hshape, h⟩ := h
      cases shape with
      | accepted substitution =>
        cases h
        exact .inr ⟨_, rfl, rfl, _, _, List.mem_cons_self, hinferred, hshape, rfl⟩
      | getterCall =>
        simp only [bind_eq_ok, pure_eq_ok] at h
        obtain ⟨others, hothers, rfl⟩ := h
        simpa [Screening.append] using later hothers
      | mismatch =>
        simp only [bind_eq_ok, pure_eq_ok] at h
        obtain ⟨others, hothers, rfl⟩ := h
        simpa [Screening.append] using later hothers

theorem applicableAmong_singleton (h : s.applicableAmong site denoted [d] = .ok kept) :
    kept = [] ∨ kept = [d] ∧ s.declares site [d] = true := by
  simp only [applicableAmong, bind_eq_ok, Table.fetch_eq_ok] at h
  obtain ⟨decl, hdecl, h⟩ := h
  by_cases fitting : decl.hasFittingMember site
  · simp only [fitting, if_true, bind_eq_ok, pure_eq_ok] at h
    obtain ⟨isApplicable, _, _, rfl, rfl⟩ := h
    cases isApplicable <;> simp [declares, hdecl, fitting]
  · exact .inl (Eq.symm (by simpa [fitting] using h))

theorem mem_of_applicableAmong (h : s.applicableAmong site denoted ds = .ok kept) :
    d ∈ kept ↔ d ∈ ds ∧ s.applicableAmong site denoted [d] = .ok [d] := by
  induction ds generalizing kept with
  | nil =>
    cases h
    simp
  | cons e ds ih =>
    rw [applicableAmong_cons] at h
    simp only [bind_eq_ok, pure_eq_ok] at h
    obtain ⟨first, hfirst, others, hothers, rfl⟩ := h
    have here : d ∈ first ↔ d = e ∧ s.applicableAmong site denoted [d] = .ok [d] := by
      constructor
      · intro hd
        rcases applicableAmong_singleton hfirst with rfl | ⟨rfl, _⟩
        · simp at hd
        · obtain rfl := List.mem_singleton.1 hd
          exact ⟨rfl, hfirst⟩
      · rintro ⟨rfl, hd⟩
        rw [hfirst] at hd
        cases hd
        exact List.mem_singleton_self d
    rw [List.mem_append, here, ih hothers, List.mem_cons, or_and_right]

theorem mem_of_applicable (dynamic : site.isDynamic = false)
    (h : s.applicable site visible = .ok kept) :
    d ∈ kept ↔ d ∈ visible ∧ s.applicable site [d] = .ok [d] := by
  have single : [d].eraseDups = [d] := by simp [List.eraseDups_cons]
  simp only [applicable_of_not_dynamic dynamic, bind_eq_ok] at h
  obtain ⟨denoted, hdenoted, collected⟩ := h
  rw [mem_of_applicableAmong collected, List.mem_eraseDups, applicable_of_not_dynamic dynamic,
    single, hdenoted]
  rfl

theorem screen_singleton : s.screen site [d] = s.screenDecl site d := by
  simp [screen]

theorem alone_candidates (h : s.alone site d = .ok part) :
    part.candidates = [] ∨ ∃ c, part.candidates = [c] ∧ c.decl = d := by
  cases dynamic : site.isDynamic with
  | true =>
    rw [alone_of_dynamic dynamic] at h
    cases h
    exact .inl rfl
  | false =>
    have single : [d].eraseDups = [d] := by simp [List.eraseDups_cons]
    simp only [alone, applicable_of_not_dynamic dynamic, single, bind_eq_ok] at h
    obtain ⟨kept, ⟨denoted, _, collected⟩, screened⟩ := h
    rcases applicableAmong_singleton collected with rfl | ⟨rfl, _⟩
    · cases screened
      exact .inl rfl
    · simp only [screen_singleton, screenDecl, bind_eq_ok] at screened
      obtain ⟨decl, _, screened⟩ := screened
      rcases screenMembers_candidates screened with none | ⟨c, one, same, _⟩
      · exact .inl none
      · exact .inr ⟨c, one, same⟩

theorem contributed_decls (h : ds.mapM (s.alone site) = .ok parts) :
    ((contributed parts).map (·.decl)).Sublist ds ∧
      contributed parts = parts.flatMap (·.candidates) := by
  rw [mapM_eq_ok] at h
  induction h with
  | nil => exact ⟨.slnil, rfl⟩
  | cons first _ ih =>
    rcases alone_candidates first with none | ⟨c, one, rfl⟩
    · simpa [contributed, none] using ⟨ih.1.cons _, ih.2⟩
    · simpa [contributed, one] using ih

theorem nodup_eraseDups : (ds : List DeclId) → ds.eraseDups.Nodup
  | [] => by simp
  | d :: ds => by
    rw [List.eraseDups_cons, List.nodup_cons]
    exact ⟨by simp, nodup_eraseDups _⟩
termination_by ds => ds.length
decreasing_by
  have := List.length_filter_le (fun e => !e == d) ds
  simp only [List.length_cons]
  omega

theorem contributed_distinct (h : visible.eraseDups.mapM (s.alone site) = .ok parts) :
    ((contributed parts).map (·.decl)).Nodup :=
  (contributed_decls h).1.nodup (nodup_eraseDups visible)

end Session

end MemberAccess
