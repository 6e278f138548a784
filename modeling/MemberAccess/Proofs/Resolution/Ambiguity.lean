import MemberAccess.Proofs.Resolution.Selection

/-!
Ambiguous accesses. Their candidates belong to different declarations, but they are only several
ones if there is a candidate that no other one precedes. Subtyping is not transitive among the top
types, so candidates can precede each other in a circle, and then none of them is listed.
-/
namespace MemberAccess.Session

variable {s : Session} {site : Site} {visible : List DeclId} {cs : List Candidate} {span : Span}
  {name : String} {refs : List MemberRef}

theorem refs_of_chosen (h : s.chosen site cs = .failed (.ambiguous span name refs)) :
    refs = (s.unbeaten site cs).map Candidate.ref ∧ (s.unbeaten site cs).length ≠ 1 := by
  rw [chosen] at h
  rcases hmaximal : s.unbeaten site cs with _ | ⟨c, _ | ⟨d, rest⟩⟩
  · simp_all
  · simp [hmaximal] at h
  · simp_all

theorem rejection_ne_ambiguous {declared : Bool} {parts : List Screening} :
    rejection site declared parts ≠ .ambiguous span name refs := by
  unfold rejection
  split
  · simp
  · split
    · simp
    · split <;> simp

theorem ambiguous_eq_ok
    (h : (s.resolveAmong site visible).outcome = .ok (.failed (.ambiguous span name refs))) :
    ∃ parts, visible.eraseDups.mapM (s.alone site) = .ok parts ∧ contributed parts ≠ [] ∧
      refs = (s.unbeaten site (contributed parts)).map Candidate.ref ∧
      (s.unbeaten site (contributed parts)).length ≠ 1 := by
  obtain ⟨parts, hparts, selected⟩ := resolveAmong_eq_ok h
  refine ⟨parts, hparts, ?_⟩
  by_cases none : contributed parts = []
  · rw [selection, if_pos none] at selected
    exact absurd (Resolution.failed.inj selected).symm rejection_ne_ambiguous
  · rw [selection, if_neg none] at selected
    exact ⟨none, refs_of_chosen selected.symm⟩

theorem two_le_unbeaten_iff (several : (s.unbeaten site cs).length ≠ 1) :
    2 ≤ (s.unbeaten site cs).length ↔ ∃ c ∈ cs, ∀ other ∈ cs, ¬ s.precedes site other c := by
  have nonempty : (∃ c ∈ cs, ∀ other ∈ cs, ¬ s.precedes site other c) ↔
      0 < (s.unbeaten site cs).length := by
    simp only [List.length_pos_iff_exists_mem, mem_unbeaten]
  rw [nonempty]
  omega

theorem ambiguous_candidates (s : Session) (site : Site) (visible : List DeclId) (span : Span)
    (name : String) (refs : List MemberRef)
    (h : (s.resolveAmong site visible).outcome = .ok (.failed (.ambiguous span name refs))) :
    (refs.map (·.1)).Nodup ∧
    ∃ parts, visible.eraseDups.mapM (s.alone site) = .ok parts ∧
      (2 ≤ refs.length ↔
        ∃ c ∈ contributed parts, ∀ other ∈ contributed parts, ¬ s.precedes site other c) ∧
      (refs = [] ↔ ∀ c ∈ contributed parts, ∃ other ∈ contributed parts, s.precedes site other c) ∧
      (s.Comparable site (contributed parts) →
        s.TransitiveOn ((contributed parts).map (·.appliesTo)) →
        s.TransitiveOn (s.boundedTypes (contributed parts)) → 2 ≤ refs.length) := by
  obtain ⟨parts, hparts, nonempty, rfl, several⟩ := ambiguous_eq_ok h
  have distinct : ((contributed parts).map (·.decl)).Nodup := contributed_distinct hparts
  have atLeastTwo := two_le_unbeaten_iff several
  refine ⟨?_, parts, hparts, ?_, ?_, fun answered types bounds => ?_⟩
  · rw [List.map_map]
    exact (unbeaten_sublist.map _).nodup distinct
  · rwa [List.length_map]
  · rw [List.map_eq_nil_iff, unbeaten, List.filter_eq_nil_iff]
    simp
  · obtain ⟨c, hc⟩ := List.exists_mem_of_ne_nil _ nonempty
    obtain ⟨m, hm, _⟩ := exists_unbeaten_precedes distinct answered types bounds hc
    rw [List.length_map, atLeastTwo]
    exact ⟨m, mem_unbeaten.1 hm⟩

/-- Extensions on records of three top types. Of these, `dynamic` is only below `Object?`, and
    `Object?` below `FutureOr<Object>?`. -/
def topRecords : Program :=
  let optional : Ty := .nullable .object
  let deferred : Ty := .nullable (.futureOr .object)
  let on (fields : List Ty) : Decl :=
    { binder := none, params := [], library := .core, body := .extension (.record fields)
      members := .singleton { name := "sum", kind := .getter, sig := .getter .dynamic } }
  { Program.core with
    decls := .ofList
      [on [.dynamic, optional, deferred], on [optional, deferred, .dynamic],
        on [deferred, .dynamic, optional]] }

theorem topRecords_ambiguous :
    let s := topRecords.session {}
    let int : Ty := .interface ⟨5⟩ []
    let site : Site :=
      { name := "sum", receiver := .value (.record [int, int, int]), library := .core }
    (s.resolveAmong site [⟨0⟩, ⟨1⟩, ⟨2⟩]).outcome = .ok (.failed (.ambiguous .zero "sum" [])) ∧
      ∃ parts, [⟨0⟩, ⟨1⟩, ⟨2⟩].mapM (s.alone site) = .ok parts ∧
        ∀ c ∈ contributed parts, ∃ other ∈ contributed parts, s.precedes site other c := by
  intro s int site
  have h : (s.resolveAmong site [⟨0⟩, ⟨1⟩, ⟨2⟩]).outcome =
      .ok (.failed (.ambiguous .zero "sum" [])) := by
    decide +kernel
  obtain ⟨_, parts, hparts, _, circle, _⟩ := ambiguous_candidates s site _ _ _ _ h
  exact ⟨h, parts, hparts, circle.1 rfl⟩

end MemberAccess.Session
