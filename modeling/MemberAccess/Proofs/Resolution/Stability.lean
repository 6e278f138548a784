import MemberAccess.Proofs.Resolution.Selection

/-!
The visible declarations count as a set: neither their order nor how often they are listed has an
influence on what an access means, apart from the order in which ambiguous candidates are listed
and the getter that is named.
-/
namespace MemberAccess

/-- Whether two resolutions differ at most in the order of ambiguous candidates or in the getter
    that is named. -/
def Resolution.Agrees : Resolution → Resolution → Prop
  | .failed (.ambiguous span name refs), .failed (.ambiguous span' name' refs') =>
    span = span' ∧ name = name' ∧ refs.Perm refs'
  | .failed (.getterInvoked span name _), .failed (.getterInvoked span' name' _) =>
    span = span' ∧ name = name'
  | r, r' => r = r'

theorem Resolution.Agrees.refl (r : Resolution) : r.Agrees r := by
  rcases r with target | ⟨span, name, reason⟩ | ⟨span, name, refs⟩ | ⟨span, name, decl⟩
  · rfl
  · rfl
  · exact ⟨rfl, rfl, .refl refs⟩
  · exact ⟨rfl, rfl⟩

namespace Session

variable {s : Session} {site : Site} {visible visible' : List DeclId} {d : DeclId}
  {cs cs' : List Candidate} {c w : Candidate} {parts parts' : List Screening} {r r' : Resolution}

section Order

theorem unbeaten_perm (perm : cs.Perm cs') : (s.unbeaten site cs).Perm (s.unbeaten site cs') := by
  have same : s.unbeaten site cs = cs.filter fun c => ∀ other ∈ cs', ¬ s.precedes site other c := by
    unfold unbeaten
    simp only [perm.mem_iff]
  rw [same]
  exact perm.filter _

theorem chosen_agrees (perm : cs.Perm cs') : (s.chosen site cs).Agrees (s.chosen site cs') := by
  have maximal : (s.unbeaten site cs).Perm (s.unbeaten site cs') := unbeaten_perm perm
  unfold chosen
  rcases left : s.unbeaten site cs with _ | ⟨c, _ | ⟨d, rest⟩⟩
  · rw [left, List.nil_perm] at maximal
    rw [maximal]
    exact ⟨rfl, rfl, .nil⟩
  · rw [left, List.singleton_perm] at maximal
    rw [maximal]
    exact .refl _
  · rw [left] at maximal
    -- more than one candidate on the left, so more than one on the right
    rcases right : s.unbeaten site cs' with _ | ⟨c', _ | ⟨d', rest'⟩⟩
    · simpa [right] using maximal.length_eq
    · simpa [right] using maximal.length_eq
    · exact ⟨rfl, rfl, (right ▸ maximal).map Candidate.ref⟩

theorem rejection_agrees {declared : Bool} (perm : parts.Perm parts') :
    (Resolution.failed (rejection site declared parts)).Agrees
      (.failed (rejection site declared parts')) := by
  have getters : (parts.findSome? (·.getterCalls.head?)).isSome =
      (parts'.findSome? (·.getterCalls.head?)).isSome := by
    rw [Bool.eq_iff_iff, List.findSome?_isSome_iff, List.findSome?_isSome_iff]
    simp only [perm.mem_iff]
  have mismatches : parts.any (!·.shapeMismatches.isEmpty) =
      parts'.any (!·.shapeMismatches.isEmpty) := by
    rw [Bool.eq_iff_iff, List.any_eq_true, List.any_eq_true]
    simp only [perm.mem_iff]
  unfold rejection
  split
  · exact .refl _
  · split
    · exact .refl _
    · rw [mismatches]
      cases left : parts.findSome? (·.getterCalls.head?) with
      | none =>
        rw [left, Option.isSome_none, eq_comm, Option.isSome_eq_false_iff,
          Option.isNone_iff_eq_none] at getters
        rw [getters]
        rfl
      | some call =>
        rw [left, Option.isSome_some, eq_comm, Option.isSome_iff_exists] at getters
        obtain ⟨call', right⟩ := getters
        rw [right]
        exact ⟨rfl, rfl⟩

theorem contributed_perm (perm : parts.Perm parts') :
    (contributed parts).Perm (contributed parts') := perm.filterMap _

theorem selection_agrees {declared : Bool} (perm : parts.Perm parts') :
    (s.selection site declared parts).Agrees (s.selection site declared parts') := by
  have candidates := contributed_perm perm
  unfold selection
  by_cases none : contributed parts = []
  · rw [none, List.nil_perm] at candidates
    rw [if_pos none, if_pos candidates]
    exact rejection_agrees perm
  · have some : contributed parts' ≠ [] := by
      intro empty
      rw [empty, List.perm_nil] at candidates
      exact none candidates
    rw [if_neg none, if_neg some]
    exact chosen_agrees candidates

theorem eraseDups_perm (same : ∀ d, d ∈ visible ↔ d ∈ visible') :
    visible.eraseDups.Perm visible'.eraseDups := by
  rw [List.perm_ext_iff_of_nodup (nodup_eraseDups _) (nodup_eraseDups _)]
  intro d
  rw [List.mem_eraseDups, List.mem_eraseDups]
  exact same d

theorem declares_congr (same : ∀ d, d ∈ visible ↔ d ∈ visible') :
    s.declares site visible = s.declares site visible' := by
  rw [Bool.eq_iff_iff]
  simp [declares, same]

theorem Screens.of_perm (screens : s.Screens site visible parts)
    (same : ∀ d, d ∈ visible ↔ d ∈ visible') (perm : parts.Perm parts')
    (contributions : visible'.eraseDups.mapM (s.alone site) = .ok parts') :
    s.Screens site visible' parts' where
  denoted := screens.denoted
  contributions := contributions
  headers trace d hd := screens.headers trace d ((same d).2 hd)
  members trace c hc := screens.members trace c ((contributed_perm perm).mem_iff.2 hc)

end Order

theorem describeWinner_of_choose (h : (s.choose site cs).outcome = .ok r)
    (trace : s.options.trace = true) (winner : s.ranking site cs = .winner w) :
    ∃ text, s.describeWinner site w = .ok text := by
  simp only [choose, Reporting.outcome_bind, except_bind_eq_ok] at h
  obtain ⟨ranked, hranked, h⟩ := h
  rw [rank_eq_ok hranked, winner] at h
  simp only [Reporting.outcome_bind, except_bind_eq_ok] at h
  obtain ⟨_, traced, _⟩ := h
  exact traceWith_eq_ok.1 traced trace

theorem Comparable.of_perm (comparable : s.Comparable site cs) (perm : cs.Perm cs') :
    s.Comparable site cs' := by
  intro a ha b hb
  exact comparable a (perm.mem_iff.2 ha) b (perm.mem_iff.2 hb)

theorem choose_of_perm (h : (s.choose site cs).outcome = .ok r) (nonempty : cs ≠ [])
    (comparable : s.Comparable site cs) (perm : cs.Perm cs') :
    ∃ r', (s.choose site cs').outcome = .ok r' := by
  have some : cs' ≠ [] := by
    intro empty
    rw [empty, List.perm_nil] at perm
    exact nonempty perm
  apply choose_answered some (comparable.of_perm perm)
  intro trace w winner
  rw [ranking_eq_winner_iff] at winner
  have maximal : (s.unbeaten site cs).Perm (s.unbeaten site cs') := unbeaten_perm perm
  rw [winner, List.perm_singleton] at maximal
  exact describeWinner_of_choose h trace (ranking_eq_winner_iff.2 maximal)

theorem resolveAmong_of_perm (same : ∀ d, d ∈ visible ↔ d ∈ visible')
    (h : (s.resolveAmong site visible).outcome = .ok r)
    (contributions : visible.eraseDups.mapM (s.alone site) = .ok parts)
    (comparable : s.Comparable site (contributed parts)) :
    ∃ r', (s.resolveAmong site visible').outcome = .ok r' := by
  cases dynamic : site.isDynamic with
  | true =>
    rw [resolveAmong_of_dynamic dynamic]
    exact ⟨_, rfl⟩
  | false =>
    obtain ⟨parts, screens, concludes⟩ := screens_of_run dynamic h
    rw [screens.contributions] at contributions
    cases contributions
    obtain ⟨parts', hparts', perm⟩ := mapM_perm screens.contributions (eraseDups_perm same)
    have candidates := contributed_perm perm
    suffices ∃ r', s.Concludes site visible' parts' r' by
      obtain ⟨r', concludes'⟩ := this
      exact ⟨r', run_of_screens dynamic (screens.of_perm same perm hparts') concludes'⟩
    unfold Concludes at concludes ⊢
    by_cases none : contributed parts = []
    · rw [none, List.nil_perm] at candidates
      simp [candidates]
    · have some : contributed parts' ≠ [] := by
        intro empty
        rw [empty, List.perm_nil] at candidates
        exact none candidates
      rw [if_neg none] at concludes
      simp only [if_neg some]
      exact choose_of_perm concludes none comparable candidates

theorem resolveAmong_agrees (s : Session) (site : Site) (visible visible' : List DeclId)
    (same : ∀ d, d ∈ visible ↔ d ∈ visible') :
    (∀ r r', (s.resolveAmong site visible).outcome = .ok r →
      (s.resolveAmong site visible').outcome = .ok r' → r.Agrees r') ∧
    (∀ r parts, (s.resolveAmong site visible).outcome = .ok r →
      visible.eraseDups.mapM (s.alone site) = .ok parts →
      s.Comparable site (contributed parts) →
      ∃ r', (s.resolveAmong site visible').outcome = .ok r' ∧ r.Agrees r') := by
  have agrees (r r' : Resolution) (h : (s.resolveAmong site visible).outcome = .ok r)
      (h' : (s.resolveAmong site visible').outcome = .ok r') : r.Agrees r' := by
    obtain ⟨parts, hparts, rfl⟩ := resolveAmong_eq_ok h
    obtain ⟨parts', hparts', rfl⟩ := resolveAmong_eq_ok h'
    obtain ⟨_, again, perm⟩ := mapM_perm hparts (eraseDups_perm same)
    rw [hparts'] at again
    cases again
    rw [declares_congr same]
    exact selection_agrees perm
  refine ⟨agrees, ?_⟩
  intro r parts h contributions comparable
  obtain ⟨r', h'⟩ := resolveAmong_of_perm same h contributions comparable
  exact ⟨r', h', agrees r r' h h'⟩

def twinExtensions : Program :=
  let decls := listExtensions.decls.entries.toList
  { listExtensions with decls := .ofList (decls ++ decls.drop 1) }

theorem twinExtensions_agree :
    let s := twinExtensions.session {}
    let ints : Ty := .interface ⟨10⟩ [.interface ⟨5⟩ []]
    let site : Site := { name := "sum", receiver := .value ints, library := .core }
    let r : Resolution := .failed (.ambiguous .zero "sum" [(⟨1⟩, ⟨0⟩), (⟨3⟩, ⟨0⟩)])
    (s.resolveAmong site [⟨1⟩, ⟨0⟩, ⟨3⟩]).outcome = .ok r ∧
      ∃ r', (s.resolveAmong site [⟨3⟩, ⟨0⟩, ⟨3⟩, ⟨1⟩]).outcome = .ok r' ∧ r.Agrees r' := by
  intro s ints site r
  have h : (s.resolveAmong site [⟨1⟩, ⟨0⟩, ⟨3⟩]).outcome = .ok r := by decide +kernel
  have same (d : DeclId) : d ∈ ([⟨1⟩, ⟨0⟩, ⟨3⟩] : List DeclId) ↔
      d ∈ ([⟨3⟩, ⟨0⟩, ⟨3⟩, ⟨1⟩] : List DeclId) := by
    simp only [List.mem_cons, List.not_mem_nil, or_false]
    grind
  let parts : List Screening :=
    [⟨[listCandidates[1]], [], []⟩, ⟨[listCandidates[0]], [], []⟩,
      ⟨[{ listCandidates[1] with decl := ⟨3⟩ }], [], []⟩]
  have contributions : ([⟨1⟩, ⟨0⟩, ⟨3⟩] : List DeclId).eraseDups.mapM (s.alone site) =
      .ok parts := by
    decide +kernel
  have comparable : s.Comparable site (contributed parts) := by decide +kernel
  exact ⟨h, (resolveAmong_agrees s site _ _ same).2 r parts h contributions comparable⟩

end Session

end MemberAccess
