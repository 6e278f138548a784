import MemberAccess.Proofs.Resolution.Stability

/-!
Declarations that come into view. One without a fitting member is not noticed at all, one without
a candidate does not take part in the choice, and one whose candidate the winner precedes does not
change the winner, whatever the subtype relation is like.
-/
namespace MemberAccess

def Resolution.isRejection : Resolution → Bool
  | .failed (.noMatch ..) | .failed (.getterInvoked ..) => true
  | _ => false

namespace Session

variable {s : Session} {site : Site} {before after ds : List DeclId} {d : DeclId} {decl : Decl}
  {cs cs' : List Candidate} {c w : Candidate} {part : Screening} {parts parts' : List Screening}
  {r r' : Resolution} {denoted : List TypeId} {t : Target}

section Insertion

variable (fresh : d ∉ before ++ after)

include fresh in
theorem eraseDups_insert : ∃ first second, (before ++ after).eraseDups = first ++ second ∧
    (before ++ d :: after).eraseDups = first ++ d :: second := by
  have away : d ∉ before ∧ d ∉ after := by simpa using fresh
  refine ⟨before.eraseDups, (after.removeAll before).eraseDups, List.eraseDups_append, ?_⟩
  have kept : (d :: after).removeAll before = d :: after.removeAll before := by
    simp [List.removeAll, away.1]
  have distinct : (after.removeAll before).filter (fun e => !e == d) = after.removeAll before := by
    rw [List.filter_eq_self]
    intro e he
    have member : e ∈ after := (List.mem_filter.1 he).1
    have other : e ≠ d := fun same => away.2 (same ▸ member)
    simp [other]
  rw [List.eraseDups_append, kept, List.eraseDups_cons, distinct]

theorem applicableAmong_append (first second : List DeclId) :
    s.applicableAmong site denoted (first ++ second) = (do
      let a ← s.applicableAmong site denoted first
      let b ← s.applicableAmong site denoted second
      pure (a ++ b)) := by
  induction first with
  | nil => simp [applicableAmong]
  | cons e first ih =>
    have here : s.applicableAmong site denoted (e :: first) = _ := applicableAmong_cons
    rw [List.cons_append, applicableAmong_cons, ih, here]
    simp only [bind_assoc, pure_bind, List.append_assoc]

theorem applicableAmong_skip (hd : s.program.decls.get? d = some decl)
    (unfitting : decl.hasFittingMember site = false) :
    s.applicableAmong site denoted (d :: ds) = s.applicableAmong site denoted ds := by
  rw [applicableAmong, Table.fetch_eq_ok.2 hd, ok_bind, unfitting]
  simp

include fresh in
theorem applicable_insert (hd : s.program.decls.get? d = some decl)
    (unfitting : decl.hasFittingMember site = false) :
    s.applicable site (before ++ d :: after) = s.applicable site (before ++ after) := by
  obtain ⟨first, second, without, inserted⟩ := eraseDups_insert fresh
  cases dynamic : site.isDynamic with
  | true => simp [applicable_of_dynamic dynamic]
  | false =>
    rw [applicable_of_not_dynamic dynamic, applicable_of_not_dynamic dynamic, without, inserted]
    refine bind_congr fun denoted => ?_
    rw [applicableAmong_append, applicableAmong_append, applicableAmong_skip hd unfitting]

theorem anyDeclares_insert (hd : s.program.decls.get? d = some decl)
    (unfitting : decl.hasFittingMember site = false) :
    s.anyDeclares site (before ++ d :: after) = s.anyDeclares site (before ++ after) := by
  induction before with
  | nil =>
    rw [List.nil_append, anyDeclares, Table.fetch_eq_ok.2 hd, ok_bind, unfitting]
    rfl
  | cons e before ih => simp only [List.cons_append, anyDeclares, ih]

include fresh in
theorem resolveAmong_skip (hd : s.program.decls.get? d = some decl)
    (unfitting : decl.hasFittingMember site = false) :
    s.resolveAmong site (before ++ d :: after) = s.resolveAmong site (before ++ after) := by
  simp only [resolveAmong, noApplicable, applicable_insert fresh hd unfitting,
    anyDeclares_insert hd unfitting]

include fresh in
theorem contributions_insert (hd : s.alone site d = .ok part)
    (h : (before ++ after).eraseDups.mapM (s.alone site) = .ok parts) :
    ∃ first second, parts = first ++ second ∧
      (before ++ d :: after).eraseDups.mapM (s.alone site) = .ok (first ++ part :: second) := by
  obtain ⟨xs, ys, without, inserted⟩ := eraseDups_insert fresh
  rw [without, List.mapM_append] at h
  simp only [bind_eq_ok, pure_eq_ok] at h
  obtain ⟨first, hfirst, second, hsecond, rfl⟩ := h
  refine ⟨first, second, rfl, ?_⟩
  rw [inserted, List.mapM_append]
  simp [hfirst, hd, hsecond]

theorem contributed_insert (first second : List Screening) :
    contributed (first ++ part :: second) =
      contributed first ++ part.candidates.head?.toList ++ contributed second := by
  unfold contributed
  cases h : part.candidates.head? <;> simp [List.filterMap_append, h]

end Insertion

theorem isRejection_rejection {declared : Bool} :
    (Resolution.failed (rejection site declared parts)).isRejection = true := by
  unfold rejection
  split
  · rfl
  · split
    · rfl
    · split <;> rfl

theorem isRejection_chosen : (s.chosen site cs).isRejection = false := by
  unfold chosen
  split <;> rfl

theorem Concludes.isRejection (h : s.Concludes site ds parts r) :
    r.isRejection = (contributed parts).isEmpty := by
  rw [h.eq_selection, selection]
  by_cases none : contributed parts = []
  · rw [if_pos none, isRejection_rejection, none]
    rfl
  · rw [if_neg none, isRejection_chosen, eq_comm, List.isEmpty_eq_false_iff]
    exact none

def Offers (s : Session) (site : Site) (d : DeclId) (c : Candidate) : Prop :=
  ∃ part, s.alone site d = .ok part ∧ part.candidates = [c]

theorem offers_of_contributed (h : ds.mapM (s.alone site) = .ok parts)
    (hc : c ∈ contributed parts) : s.Offers site c.decl c := by
  obtain ⟨part, hpart, head⟩ := List.mem_filterMap.1 hc
  obtain ⟨d, _, alone⟩ := exists_of_mem_mapM h hpart
  rcases alone_candidates alone with none | ⟨c', single, rfl⟩
  · simp [none] at head
  · obtain rfl : c' = c := by simpa [single] using head
    exact ⟨part, alone, single⟩

theorem Offers.unique (h : s.Offers site d c) (h' : s.Offers site d w) : c = w := by
  obtain ⟨part, alone, single⟩ := h
  obtain ⟨part', alone', single'⟩ := h'
  rw [alone] at alone'
  cases alone'
  simpa [single] using single'

theorem unbeaten_of_resolved (h : s.Concludes site ds parts (.resolved t))
    (contributions : ds.eraseDups.mapM (s.alone site) = .ok parts)
    (winner : s.Offers site t.decl w) :
    s.unbeaten site (contributed parts) = [w] ∧ w.target = t := by
  have candidates : contributed parts ≠ [] := by
    intro none
    have := h.isRejection
    simp [none, Resolution.isRejection] at this
  have selected := h.eq_selection
  rw [selection, if_neg candidates, chosen] at selected
  rcases single : s.unbeaten site (contributed parts) with _ | ⟨c, _ | ⟨c', rest⟩⟩
  · simp [single] at selected
  · obtain rfl : t = c.target := by simpa [single] using selected
    have member : c ∈ s.unbeaten site (contributed parts) := by simp [single]
    have offers := offers_of_contributed contributions (mem_unbeaten.1 member).1
    obtain rfl : c = w := offers.unique winner
    exact ⟨rfl, rfl⟩
  · simp [single] at selected

/-- A candidate that the winner precedes is beaten, and it beats nobody who was not beaten
    before. -/
theorem unbeaten_insert {first second : List Candidate}
    (single : s.unbeaten site (first ++ second) = [w]) (below : s.precedes site w c) :
    s.unbeaten site (first ++ c :: second) = [w] := by
  have member : w ∈ s.unbeaten site (first ++ second) := by simp [single]
  have hw := (mem_unbeaten.1 member).1
  have stays (x : Candidate) : (∀ other ∈ first ++ c :: second, ¬ s.precedes site other x) ↔
      (∀ other ∈ first ++ second, ¬ s.precedes site other x) ∧ ¬ s.precedes site c x := by
    constructor
    · intro h
      exact ⟨fun other ho => h other (by simp at ho ⊢; tauto), h c (by simp)⟩
    · rintro ⟨h, hc⟩ other ho
      rw [List.mem_append, List.mem_cons] at ho
      rcases ho with ho | rfl | ho
      · exact h other (List.mem_append_left _ ho)
      · exact hc
      · exact h other (List.mem_append_right _ ho)
  have beaten : ¬ ∀ other ∈ first ++ c :: second, ¬ s.precedes site other c := by
    intro h
    exact h w (by simp at hw ⊢; tauto) below
  have same : ∀ x ∈ first ++ second,
      decide (∀ other ∈ first ++ c :: second, ¬ s.precedes site other x) =
        decide (∀ other ∈ first ++ second, ¬ s.precedes site other x) := by
    intro x hx
    rw [decide_eq_decide, stays]
    constructor
    · exact And.left
    · intro h
      have hx : x ∈ s.unbeaten site (first ++ second) := mem_unbeaten.2 ⟨hx, h⟩
      obtain rfl : x = w := by simpa [single] using hx
      exact ⟨h, precedes_asymm below⟩
  rw [← single]
  unfold unbeaten
  rw [List.filter_append, List.filter_cons_of_neg (by simpa using beaten), ← List.filter_append]
  exact List.filter_congr same

theorem screens_insert {first second : List Screening}
    (screens : s.Screens site (before ++ after) (first ++ second))
    (contributions : (before ++ d :: after).eraseDups.mapM (s.alone site) =
      .ok (first ++ part :: second))
    (header : s.options.trace = true → s.applicable site [d] = .ok [d] →
      ∃ text, s.program.quoteDecl d = .ok text)
    (members : s.options.trace = true →
      ∀ c ∈ part.candidates, ∃ text, s.program.quoteMember c.ref = .ok text) :
    s.Screens site (before ++ d :: after) (first ++ part :: second) := by
  refine ⟨screens.denoted, contributions, ?_, ?_⟩
  · intro trace e he keeps
    rw [List.mem_append, List.mem_cons] at he
    rcases he with he | rfl | he
    · exact screens.headers trace e (List.mem_append_left _ he) keeps
    · exact header trace keeps
    · exact screens.headers trace e (List.mem_append_right _ he) keeps
  · intro trace c hc
    rw [contributed_insert, List.mem_append, List.mem_append] at hc
    have others := screens.members trace c
    rw [contributed, List.filterMap_append, List.mem_append] at others
    rcases hc with (hc | hc) | hc
    · exact others (.inl hc)
    · rw [Option.mem_toList, List.head?_eq_some_iff] at hc
      obtain ⟨rest, same⟩ := hc
      exact members trace c (by simp [same])
    · exact others (.inr hc)

section Insertion

variable (fresh : d ∉ before ++ after)

include fresh

theorem resolveAmong_insert_empty (hd : s.alone site d = .ok part) (none : part.candidates = [])
    (header : s.options.trace = true → s.applicable site [d] = .ok [d] →
      ∃ text, s.program.quoteDecl d = .ok text)
    (h : (s.resolveAmong site (before ++ after)).outcome = .ok r) :
    ∃ r', (s.resolveAmong site (before ++ d :: after)).outcome = .ok r' ∧
      if r.isRejection then r'.isRejection = true else r' = r := by
  cases dynamic : site.isDynamic with
  | true =>
    rw [resolveAmong_of_dynamic dynamic] at h ⊢
    cases h
    exact ⟨_, rfl, rfl⟩
  | false =>
    obtain ⟨parts, screens, concludes⟩ := screens_of_run dynamic h
    obtain ⟨first, second, rfl, contributions⟩ :=
      contributions_insert fresh hd screens.contributions
    have inserted := screens_insert screens contributions header (by simp [none])
    have candidates : contributed (first ++ part :: second) = contributed (first ++ second) := by
      rw [contributed_insert, none]
      simp [contributed]
    have rejected := concludes.isRejection
    by_cases empty : contributed (first ++ second) = []
    · have concludes' : s.Concludes site (before ++ d :: after) (first ++ part :: second)
          (.failed (rejection site (s.declares site (before ++ d :: after))
            (first ++ part :: second))) := by
        rw [Concludes, if_pos (candidates.trans empty)]
      refine ⟨_, run_of_screens dynamic inserted concludes', ?_⟩
      rw [rejected, empty]
      exact isRejection_rejection
    · rw [Concludes, if_neg empty, ← candidates] at concludes
      have concludes' : s.Concludes site (before ++ d :: after) (first ++ part :: second) r := by
        rw [Concludes, if_neg (candidates ▸ empty)]
        exact concludes
      refine ⟨r, run_of_screens dynamic inserted concludes', ?_⟩
      rw [rejected, List.isEmpty_eq_false_iff.2 empty]
      rfl

theorem resolveAmong_insert_beaten (newcomer : s.Offers site d c) (winner : s.Offers site t.decl w)
    (below : s.precedes site w c)
    (h : (s.resolveAmong site (before ++ after)).outcome = .ok (.resolved t)) :
    (∀ r', (s.resolveAmong site (before ++ d :: after)).outcome = .ok r' → r' = .resolved t) ∧
    (∀ parts, (before ++ d :: after).eraseDups.mapM (s.alone site) = .ok parts →
      s.Comparable site (contributed parts) →
      (s.options.trace = true → (∃ text, s.program.quoteDecl d = .ok text) ∧
        ∃ text, s.program.quoteMember c.ref = .ok text) →
      (s.resolveAmong site (before ++ d :: after)).outcome = .ok (.resolved t)) := by
  have dynamic : site.isDynamic = false := by
    by_contra dynamic
    rw [resolveAmong_of_dynamic (by simpa using dynamic)] at h
    cases h
  obtain ⟨parts, screens, concludes⟩ := screens_of_run dynamic h
  obtain ⟨single, target⟩ := unbeaten_of_resolved concludes screens.contributions winner
  obtain ⟨part, hd, hpart⟩ := newcomer
  obtain ⟨first, second, rfl, contributions⟩ := contributions_insert fresh hd screens.contributions
  have candidates : contributed (first ++ part :: second) =
      contributed first ++ c :: contributed second := by
    rw [contributed_insert, hpart]
    simp
  have nonempty : contributed (first ++ part :: second) ≠ [] := by simp [candidates]
  have still : s.unbeaten site (contributed (first ++ part :: second)) = [w] := by
    rw [candidates]
    apply unbeaten_insert _ below
    rw [← single, contributed, contributed, contributed, List.filterMap_append]
  have only (r' : Resolution)
      (h' : (s.resolveAmong site (before ++ d :: after)).outcome = .ok r') : r' = .resolved t := by
    obtain ⟨parts', hparts', rfl⟩ := resolveAmong_eq_ok h'
    rw [contributions] at hparts'
    cases hparts'
    rw [selection, if_neg nonempty, chosen, still, ← target]
  refine ⟨only, ?_⟩
  intro parts' hparts' comparable quoted
  rw [contributions] at hparts'
  cases hparts'
  have inserted := screens_insert screens contributions (fun trace _ => (quoted trace).1)
    (by simpa [hpart] using fun trace => (quoted trace).2)
  obtain ⟨r', chosen⟩ : ∃ r', (s.choose site (contributed (first ++ part :: second))).outcome =
      .ok r' := by
    apply choose_answered nonempty comparable
    intro trace x first
    obtain rfl : w = x := by simpa [still] using ranking_eq_winner_iff.1 first
    rw [Concludes, if_neg (fun none => by simp [none, unbeaten] at single)] at concludes
    exact describeWinner_of_choose concludes trace (ranking_eq_winner_iff.2 single)
  have run := run_of_screens dynamic inserted (by rw [Concludes, if_neg nonempty]; exact chosen)
  rw [only r' run] at run
  exact run

end Insertion

theorem resolveAmong_insert (s : Session) (site : Site) (before after : List DeclId) (d : DeclId)
    (fresh : d ∉ before ++ after) :
    (∀ decl, s.program.decls.get? d = some decl → decl.hasFittingMember site = false →
      s.resolveAmong site (before ++ d :: after) = s.resolveAmong site (before ++ after)) ∧
    (∀ part r, s.alone site d = .ok part → part.candidates = [] →
      (s.options.trace = true → s.applicable site [d] = .ok [d] →
        ∃ text, s.program.quoteDecl d = .ok text) →
      (s.resolveAmong site (before ++ after)).outcome = .ok r →
      ∃ r', (s.resolveAmong site (before ++ d :: after)).outcome = .ok r' ∧
        if r.isRejection then r'.isRejection = true else r' = r) ∧
    (∀ c w t, s.Offers site d c → s.Offers site t.decl w → s.precedes site w c →
      (s.resolveAmong site (before ++ after)).outcome = .ok (.resolved t) →
      (∀ r', (s.resolveAmong site (before ++ d :: after)).outcome = .ok r' → r' = .resolved t) ∧
      (∀ parts, (before ++ d :: after).eraseDups.mapM (s.alone site) = .ok parts →
        s.Comparable site (contributed parts) →
        (s.options.trace = true → (∃ text, s.program.quoteDecl d = .ok text) ∧
          ∃ text, s.program.quoteMember c.ref = .ok text) →
        (s.resolveAmong site (before ++ d :: after)).outcome = .ok (.resolved t))) := by
  refine ⟨?unfitting, ?empty, ?beaten⟩
  case unfitting =>
    intro decl hd unfitting
    exact resolveAmong_skip fresh hd unfitting
  case empty =>
    intro part r hd none header h
    exact resolveAmong_insert_empty fresh hd none header h
  case beaten =>
    intro c w t newcomer winner below h
    exact resolveAmong_insert_beaten fresh newcomer winner below h

/-- The extension on every list comes into view of the one on lists of integers, which precedes
    it by what they apply to when instantiated to bounds. -/
theorem listExtensions_insert :
    let s := listExtensions.session {}
    let ints : Ty := .interface ⟨10⟩ [.interface ⟨5⟩ []]
    let site : Site := { name := "sum", receiver := .value ints, library := .core }
    (s.resolveAmong site [⟨1⟩, ⟨2⟩]).outcome = .ok (.resolved ⟨⟨1⟩, ⟨0⟩, .empty⟩) ∧
      (s.resolveAmong site [⟨1⟩, ⟨0⟩, ⟨2⟩]).outcome = .ok (.resolved ⟨⟨1⟩, ⟨0⟩, .empty⟩) := by
  intro s ints site
  have before : (s.resolveAmong site [⟨1⟩, ⟨2⟩]).outcome = .ok (.resolved ⟨⟨1⟩, ⟨0⟩, .empty⟩) := by
    decide +kernel
  have offers (c : Candidate) (part : Screening) (h : s.alone site c.decl = .ok part)
      (single : part.candidates = [c]) : s.Offers site c.decl c := ⟨part, h, single⟩
  have newcomer := offers listCandidates[0] ⟨[listCandidates[0]], [], []⟩ (by decide +kernel) rfl
  have winner := offers listCandidates[1] ⟨[listCandidates[1]], [], []⟩ (by decide +kernel) rfl
  have inserted := (resolveAmong_insert s site [⟨1⟩] [⟨2⟩] ⟨0⟩ (by decide)).2.2 _ _ _ newcomer
    winner (by decide +kernel) before
  refine ⟨before, inserted.2
    ([1, 0, 2].map fun i => ⟨[listCandidates.getD i listCandidates[0]], [], []⟩)
    (by decide +kernel) (by decide +kernel) (by decide)⟩

end Session

end MemberAccess
