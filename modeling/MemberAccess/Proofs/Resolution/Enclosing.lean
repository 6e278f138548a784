import MemberAccess.Proofs.Range.Resolution
import MemberAccess.Proofs.Resolution.Insertion

/-!
Accesses in the body of a declaration. The declaration sees itself even where its library is not
imported, and if it has a candidate for the access, this candidate comes before all others, whatever
the answers about their types are.
-/
namespace MemberAccess

namespace Session

variable {s : Session} {site : Site} {d : DeclId} {c : Candidate} {ds : List DeclId}
  {parts : List Screening} {r : Resolution}

theorem mem_contributed (offers : s.Offers site d c) (hd : d ∈ ds)
    (hparts : ds.eraseDups.mapM (s.alone site) = .ok parts) : c ∈ contributed parts := by
  obtain ⟨part, alone, single⟩ := offers
  have member : part ∈ parts := mem_of_mapM hparts (List.mem_eraseDups.2 hd) alone
  exact List.mem_filterMap.2 ⟨part, member, by rw [single]; rfl⟩

theorem Offers.decl_eq (offers : s.Offers site d c) : c.decl = d := by
  obtain ⟨part, alone, single⟩ := offers
  rcases alone_candidates alone with none | ⟨c', one, same⟩
  · simp [none] at single
  · obtain rfl : c' = c := by simpa [one] using single
    exact same

section Enclosing

variable (inside : site.enclosing = some d) (offers : s.Offers site d c)

include inside offers

theorem unbeaten_of_enclosing (hd : d ∈ ds)
    (hparts : ds.eraseDups.mapM (s.alone site) = .ok parts) :
    s.unbeaten site (contributed parts) = [c] := by
  have distinct := contributed_distinct hparts
  have own : c ∈ contributed parts := mem_contributed offers hd hparts
  refine unbeaten_eq_singleton distinct own fun other ho different => ?_
  -- No question about types is asked: the enclosing declaration comes first.
  refine precedes_iff.2 ⟨fun same => different ?_, .inl (by rw [inside, offers.decl_eq])⟩
  exact List.inj_on_of_nodup_map distinct ho own same.symm

theorem resolveAmong_enclosing (hd : d ∈ ds) (h : (s.resolveAmong site ds).outcome = .ok r) :
    r = .resolved c.target := by
  obtain ⟨parts, hparts, rfl⟩ := resolveAmong_eq_ok h
  have own : c ∈ contributed parts := mem_contributed offers hd hparts
  rw [selection, if_neg (List.ne_nil_of_mem own), chosen,
    unbeaten_of_enclosing inside offers hd hparts]

end Enclosing

/-- An access resolves to the candidate of the declaration whose body it is in, provided that all
    questions on the way are answered, as they are where indices are in range. -/
theorem resolve_enclosing (s : Session) (site : Site) (d : DeclId) (c : Candidate)
    (inside : site.enclosing = some d) (offers : s.Offers site d c) :
    c.decl = d ∧
    (∀ ds, d ∈ ds →
      (∀ r, (s.resolveAmong site ds).outcome = .ok r → r = .resolved c.target) ∧
      (∀ parts, ds.eraseDups.mapM (s.alone site) = .ok parts → s.Answers site ds parts →
        (s.resolveAmong site ds).outcome = .ok (.resolved c.target))) ∧
    (s.scope = s.program.scope →
      (∀ r, (s.resolve site).outcome = .ok r → r = .resolved c.target) ∧
      (∀ ds parts, s.program.visible site = .ok ds →
        ds.eraseDups.mapM (s.alone site) = .ok parts → s.Answers site ds parts →
        (s.resolve site).outcome = .ok (.resolved c.target)) ∧
      (s.oracle = s.program.oracle s.options.limit → s.program.WellFormed →
        s.program.SiteInRange site → (s.resolve site).outcome = .ok (.resolved c.target))) := by
  have among (ds : List DeclId) (hd : d ∈ ds) (r : Resolution)
      (h : (s.resolveAmong site ds).outcome = .ok r) : r = .resolved c.target :=
    resolveAmong_enclosing inside offers hd h
  have answered (ds : List DeclId) (hd : d ∈ ds) (parts : List Screening)
      (hparts : ds.eraseDups.mapM (s.alone site) = .ok parts) (answers : s.Answers site ds parts) :
      (s.resolveAmong site ds).outcome = .ok (.resolved c.target) := by
    obtain ⟨r, hr⟩ := resolveAmong_answered hparts answers
    rw [hr, among ds hd r hr]
  refine ⟨offers.decl_eq, fun ds hd => ⟨among ds hd, answered ds hd⟩, fun library => ?_⟩
  have only (r : Resolution) (h : (s.resolve site).outcome = .ok r) : r = .resolved c.target := by
    rw [resolve, Reporting.outcome_bind, Reporting.outcome_lift, library, except_bind_eq_ok] at h
    obtain ⟨ds, visible, run⟩ := h
    have hd : d ∈ ds := ((Program.visible_eq_ok visible).2 d).2 (.inl inside)
    exact among ds hd r run
  refine ⟨only, ?_, ?_⟩
  · intro ds parts visible hparts answers
    have hd : d ∈ ds := ((Program.visible_eq_ok visible).2 d).2 (.inl inside)
    rw [resolve, Reporting.outcome_bind, Reporting.outcome_lift, library, except_bind_eq_ok]
    exact ⟨ds, visible, answered ds hd parts hparts answers⟩
  · intro typer wf inRange
    obtain ⟨r, hr, _⟩ := wf.resolve s.options inRange
    have concrete : s.program.session s.options = s := by
      rw [Program.session, ← typer, ← library]
    rw [concrete] at hr
    rw [hr, only r hr]

/-- An extension `Wide` on `num` in the library `a`, whose candidate the extension `Narrow` on `int`
    in the core library precedes anywhere else. The library `b` imports nothing. -/
def nestedExtensions : Program :=
  let twice : Table .member Member :=
    .singleton { name := "twice", kind := .getter, sig := .getter (.interface ⟨4⟩ []) }
  { Program.core with
    libraries := Program.siblingLibraries
    decls := .ofList
      [{ binder := some "Wide", params := [], members := twice, library := ⟨1⟩,
         body := .extension (.interface ⟨4⟩ []) },
        { binder := some "Narrow", params := [], members := twice, library := .core,
          body := .extension (.interface ⟨5⟩ []) }] }

theorem nestedExtensions_enclosing :
    let s := nestedExtensions.session { limit := 2, trace := true }
    let outside : Site :=
      { name := "twice", receiver := .value (.interface ⟨5⟩ []), library := ⟨2⟩ }
    let inside : Site := { outside with enclosing := some ⟨0⟩ }
    (s.resolve outside).outcome = .ok (.resolved ⟨⟨1⟩, ⟨0⟩, .empty⟩) ∧
      (s.resolve inside).outcome = .ok (.resolved ⟨⟨0⟩, ⟨0⟩, .empty⟩) := by
  intro s outside inside
  have wf : nestedExtensions.WellFormed := ⟨by decide, by decide, by decide, by decide, by decide⟩
  have inRange : nestedExtensions.SiteInRange inside := ⟨by decide, by decide, by decide⟩
  let wide : Candidate := ⟨⟨0⟩, ⟨0⟩, .empty, .interface ⟨4⟩ []⟩
  have offers : s.Offers inside ⟨0⟩ wide := ⟨⟨[wide], [], []⟩, by decide +kernel, rfl⟩
  have resolved := (resolve_enclosing s inside ⟨0⟩ wide rfl offers).2.2 rfl
  exact ⟨by decide +kernel, resolved.2.2 rfl wf inRange⟩

end Session

end MemberAccess
