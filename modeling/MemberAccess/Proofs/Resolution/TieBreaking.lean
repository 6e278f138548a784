import MemberAccess.Proofs.Resolution.Ranking

/-!
Ranking with and without tie-breaks. A tie-break adds comparisons to those that the types decide and
takes none back, so the candidates that are unbeaten with it are among those that are unbeaten
without it, and a winner stays the winner.
-/
namespace MemberAccess.Session

variable {s : Session} {site : Site} {a b : Candidate} {cs : List Candidate} {mode : TieBreak}

def withTieBreak (s : Session) (tieBreak : TieBreak) : Session :=
  { s with options := { s.options with tieBreak } }

theorem precedes_of_never (h : (s.withTieBreak .never).precedes site a b) :
    (s.withTieBreak mode).precedes site a b := by
  obtain ⟨distinct, decided⟩ := precedes_iff.1 h
  refine precedes_iff.2 ⟨distinct, decided.imp_right fun compared => ⟨compared.1, .inl ?_⟩⟩
  rcases compared.2 with below | ⟨_, byBounds, _⟩
  · exact below
  · cases byBounds

theorem Comparable.never (answered : (s.withTieBreak mode).Comparable site cs) :
    (s.withTieBreak .never).Comparable site cs := by
  intro a ha b hb
  obtain ⟨o, h⟩ := answered a ha b hb
  unfold compare at h ⊢
  split
  · exact ⟨_, rfl⟩
  split
  · exact ⟨_, rfl⟩
  split
  · exact ⟨_, rfl⟩
  next distinct notFirst notSecond =>
    rw [if_neg distinct, if_neg notFirst, if_neg notSecond] at h
    obtain ⟨forward, backward, answers, _⟩ := compareByType_eq_ok.1 h
    refine ⟨if forward && backward then .incomparable else .ofSubtyping forward backward, ?_⟩
    refine compareByType_eq_ok.2 ⟨forward, backward, answers, ?_⟩
    cases forward <;> cases backward <;> simp [withTieBreak]

theorem unbeaten_sublist_never :
    ((s.withTieBreak mode).unbeaten site cs).Sublist
      ((s.withTieBreak .never).unbeaten site cs) := by
  apply List.monotone_filter_right
  intro c unbeaten
  simp only [decide_eq_true_eq] at unbeaten ⊢
  intro other ho precedes
  exact unbeaten other ho (precedes_of_never precedes)

theorem ranking_eq_ambiguous {maximal : List Candidate}
    (h : s.ranking site cs = .ambiguous maximal) : cs ≠ [] ∧ maximal = s.unbeaten site cs := by
  cases cs with
  | nil => cases h
  | cons c cs =>
    refine ⟨List.cons_ne_nil c cs, ?_⟩
    rw [ranking] at h
    split at h
    · cases h
    · exact (Ranking.ambiguous.inj h).symm

theorem ranking_cases (some : s.unbeaten site cs ≠ []) :
    (∃ w ∈ s.unbeaten site cs, s.ranking site cs = .winner w) ∨
      s.ranking site cs = .ambiguous (s.unbeaten site cs) ∧ 2 ≤ (s.unbeaten site cs).length := by
  cases cs with
  | nil => exact absurd rfl some
  | cons c cs =>
    rw [ranking]
    generalize s.unbeaten site (c :: cs) = maximal at some
    rcases maximal with _ | ⟨m, _ | ⟨n, ms⟩⟩
    · exact absurd rfl some
    · exact .inl ⟨m, List.mem_singleton_self m, rfl⟩
    · exact .inr ⟨rfl, by simp⟩

/-- Breaking ties by bounds keeps a winner, and of several candidates it keeps one or several. -/
theorem rank_byBounds_refines (s : Session) (site : Site) (cs : List Candidate)
    (distinct : (cs.map (·.decl)).Nodup)
    (answered : (s.withTieBreak .byBounds).Comparable site cs)
    (types : s.TransitiveOn (cs.map (·.appliesTo)))
    (bounds : s.TransitiveOn (s.boundedTypes cs)) :
    (∀ w, ((s.withTieBreak .never).rank site cs).outcome = .ok (.winner w) →
      ((s.withTieBreak .byBounds).rank site cs).outcome = .ok (.winner w)) ∧
    ∀ maximal, ((s.withTieBreak .never).rank site cs).outcome = .ok (.ambiguous maximal) →
      (∃ w ∈ maximal, ((s.withTieBreak .byBounds).rank site cs).outcome = .ok (.winner w)) ∨
      ∃ rest, ((s.withTieBreak .byBounds).rank site cs).outcome = .ok (.ambiguous rest) ∧
        rest.Sublist maximal ∧ 2 ≤ rest.length := by
  have fewer := answered.never
  rw [rank_answered answered, rank_answered fewer]
  simp only [Except.ok.injEq]
  constructor
  · intro w winner
    rw [ranking_eq_winner_iff] at winner ⊢
    obtain ⟨hw, first⟩ := (unbeaten_eq_singleton_iff distinct fewer types bounds).1 winner
    refine (unbeaten_eq_singleton_iff distinct answered types bounds).2 ⟨hw, ?_⟩
    intro c hc other
    exact precedes_of_never (first c hc other)
  · intro maximal ambiguous
    obtain ⟨nonempty, rfl⟩ := ranking_eq_ambiguous ambiguous
    have sublist : ((s.withTieBreak .byBounds).unbeaten site cs).Sublist _ := unbeaten_sublist_never
    obtain ⟨c, hc⟩ := List.exists_mem_of_ne_nil _ nonempty
    obtain ⟨m, hm, _⟩ := exists_unbeaten_precedes distinct answered types bounds hc
    rcases ranking_cases (List.ne_nil_of_mem hm) with ⟨w, hw, winner⟩ | ⟨several, two⟩
    · exact .inl ⟨w, sublist.subset hw, winner⟩
    · exact .inr ⟨_, several, sublist, two⟩

/-- The types of the first two extensions on lists are the same, but with its parameter at the bound
    the first one applies to all lists, so the second one wins the tie. -/
theorem listCandidates_refined :
    let s := listExtensions.session {}
    let site : Site := { name := "sum", receiver := .value .dynamic, library := .core }
    let several := listCandidates.take 2
    ((s.withTieBreak .never).rank site listCandidates).outcome = .ok (.ambiguous several) ∧
      listCandidates[1] ∈ several ∧
      ((s.withTieBreak .byBounds).rank site listCandidates).outcome =
        .ok (.winner listCandidates[1]) := by
  intro s site several
  have distinct : (listCandidates.map (·.decl)).Nodup := by decide
  have answered : (s.withTieBreak .byBounds).Comparable site listCandidates := by decide +kernel
  have types : s.TransitiveOn (listCandidates.map (·.appliesTo)) := by decide +kernel
  have bounds : s.TransitiveOn (s.boundedTypes listCandidates) := by decide +kernel
  have ambiguous : ((s.withTieBreak .never).rank site listCandidates).outcome =
      .ok (.ambiguous several) := by decide +kernel
  have winner : ((s.withTieBreak .byBounds).rank site listCandidates).outcome =
      .ok (.winner listCandidates[1]) := by decide +kernel
  refine ⟨ambiguous, ?_, winner⟩
  rcases (rank_byBounds_refines s site listCandidates distinct answered types bounds).2 several
    ambiguous with ⟨w, among, won⟩ | ⟨rest, tied, _⟩
  · obtain rfl : listCandidates[1] = w := by simpa [winner] using won
    exact among
  · simp [winner] at tied

end MemberAccess.Session
