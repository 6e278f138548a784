import Mathlib.Data.Finset.Card
import MemberAccess.Program.Core
import MemberAccess.Proofs.Reporting
import MemberAccess.Resolution.Cache

/-!
Runs of a cache. The entry of a span is the first resolution that any operation offers for it,
whatever the operations are and however the program changes between them. Spans do not tell sites
of different libraries apart, so an answer may be that of another site.
-/
namespace MemberAccess

namespace Cache

variable {c : Cache} {s : Session} {site : Site} {span : Span} {r : Resolution} {fault : Fault}
  {ops : List Operation}

/-- What is done to a cache. The program may be another one each time, so each resolution has a
    session of its own. -/
inductive Operation where
  | get (site : Site)
  | resolve (s : Session) (site : Site)
  | commit (site : Site) (r : Resolution)

def Operation.offer? : Operation → Option (Span × Resolution)
  | .get _ => none
  | .resolve s site => (s.resolve site).outcome.toOption.map (site.span, ·)
  | .commit site r => some (site.span, r)

/-- After a fault there is no new cache, so the old one stays. -/
def perform (c : Cache) : Operation → Cache
  | .get _ => c
  | .resolve s site => ((c.resolve s site).outcome.toOption.map Prod.snd).getD c
  | .commit site r => ((c.commit site r).outcome.toOption.map Prod.snd).getD c

def run (ops : List Operation) : Cache := ops.foldl perform .empty

def Contradicts (c : Cache) (site : Site) (r : Resolution) : Prop :=
  ∃ recorded, c.get? site.span = some recorded ∧ recorded ≠ r

instance : Decidable (c.Contradicts site r) :=
  match h : c.get? site.span with
  | none => .isFalse fun ⟨_, found, _⟩ => by simp [h] at found
  | some recorded => decidable_of_iff (recorded ≠ r) (by simp [Contradicts, h])

theorem get?_insert {other : Span} :
    (c.insert other r).get? span = (c.get? span).or ([(other, r)].lookup span) := by
  rw [get?, insert, List.lookup_append, get?]

theorem mem_spans_iff {entries : List (Span × Resolution)} :
    span ∈ entries.map Prod.fst ↔ (entries.lookup span).isSome := by
  rw [← not_iff_not]
  simp

theorem commit_of_none (h : c.get? site.span = none) :
    c.commit site r = ⟨.ok (.ok (), c.insert site.span r), []⟩ := by
  rw [commit, h]
  rfl

theorem commit_of_recorded (h : c.get? site.span = some r) :
    c.commit site r = ⟨.ok (.ok (), c), []⟩ := by
  rw [commit, h]
  exact if_pos rfl

theorem commit_of_contradicts (h : c.Contradicts site r) :
    c.commit site r = ⟨.ok (.error {}, c), [conflict site]⟩ := by
  obtain ⟨recorded, found, differs⟩ := h
  rw [commit, found]
  exact if_neg differs

theorem resolve_of_recorded (h : c.get? site.span = some r) :
    c.resolve s site = ⟨.ok (r, c), []⟩ := by
  rw [resolve, h]
  rfl

/-- The commit cannot fail, since nothing has been recorded since the look-up. -/
theorem resolve_of_none (h : c.get? site.span = none)
    (resolved : (s.resolve site).outcome = .ok r) :
    c.resolve s site = ⟨.ok (r, c.insert site.span r), (s.resolve site).reports⟩ := by
  rw [resolve, h]
  simp only [Reporting.bind_of_ok resolved, commit_of_none h]
  exact congrArg (Reporting.mk _) (List.append_nil _)

theorem resolve_of_fault (h : c.get? site.span = none)
    (faulty : (s.resolve site).outcome = .error fault) :
    c.resolve s site = ⟨.error fault, (s.resolve site).reports⟩ := by
  rw [resolve, h]
  exact Reporting.bind_of_error faulty

theorem perform_eq (op : Operation) : c.perform op =
    match op.offer? with
    | none => c
    | some (span, r) => if c.get? span = none then c.insert span r else c := by
  cases op with
  | get site => rfl
  | resolve s site =>
    cases found : c.get? site.span with
    | some r =>
      have unchanged : c.perform (.resolve s site) = c := by
        rw [perform, resolve_of_recorded found]
        rfl
      rw [unchanged]
      cases h : (s.resolve site).outcome <;> simp [Operation.offer?, h, found, Except.toOption]
    | none =>
      cases h : (s.resolve site).outcome with
      | ok r => simp [perform, resolve_of_none found h, Operation.offer?, h, found, Except.toOption]
      | error fault =>
        simp [perform, resolve_of_fault found h, Operation.offer?, h, Except.toOption]
  | commit site r =>
    simp only [perform, Operation.offer?]
    cases found : c.get? site.span with
    | none => simp [commit_of_none found, Except.toOption]
    | some recorded =>
      by_cases same : recorded = r
      · simp [commit_of_recorded (same ▸ found), Except.toOption]
      · simp [commit_of_contradicts ⟨recorded, found, same⟩, Except.toOption]

theorem get?_perform (op : Operation) :
    (c.perform op).get? span = (c.get? span).or (op.offer?.toList.lookup span) := by
  rw [perform_eq]
  cases op.offer? with
  | none => simp
  | some offer =>
    obtain ⟨offered, r⟩ := offer
    by_cases recorded : c.get? offered = none
    · simp [recorded, get?_insert]
    · simp only [recorded, if_false]
      by_cases same : span = offered
      · obtain ⟨first, found⟩ := Option.ne_none_iff_exists'.1 (same ▸ recorded)
        rw [found, Option.some_or]
      · have different : (span == offered) = false := by simpa using same
        simp [List.lookup_cons, different]

theorem get?_foldl (ops : List Operation) : (ops.foldl perform c).get? span =
    (c.get? span).or ((ops.filterMap Operation.offer?).lookup span) := by
  induction ops generalizing c with
  | nil => simp
  | cons op ops ih =>
    rw [List.foldl_cons, ih, get?_perform, Option.or_assoc]
    cases h : op.offer? with
    | none => simp [h]
    | some offer =>
      obtain ⟨offered, r⟩ := offer
      by_cases same : span == offered <;> simp [h, List.lookup_cons, same]

theorem get?_run : (run ops).get? span = (ops.filterMap Operation.offer?).lookup span := by
  rw [run, get?_foldl]
  rfl

theorem get?_run_append {more : List Operation} (h : (run ops).get? span = some r) :
    (run (ops ++ more)).get? span = some r := by
  rw [run, List.foldl_append, get?_foldl, ← run, h]
  rfl

theorem nodup_perform (op : Operation) (distinct : (c.entries.map Prod.fst).Nodup) :
    ((c.perform op).entries.map Prod.fst).Nodup := by
  rw [perform_eq]
  cases op.offer? with
  | none => exact distinct
  | some offer =>
    obtain ⟨offered, r⟩ := offer
    by_cases recorded : c.get? offered = none
    · have absent : offered ∉ c.entries.map Prod.fst := by
        rw [mem_spans_iff, ← get?, recorded]
        simp
      simp only [recorded, if_true, insert, List.map_append]
      exact List.nodup_append_comm.2 (List.nodup_cons.2 ⟨absent, distinct⟩)
    · simpa [recorded] using distinct

theorem nodup_run : ((run ops).entries.map Prod.fst).Nodup := by
  suffices ∀ c : Cache, (c.entries.map Prod.fst).Nodup →
      ((ops.foldl perform c).entries.map Prod.fst).Nodup from this _ List.nodup_nil
  induction ops with
  | nil => exact fun c distinct => distinct
  | cons op ops ih => exact fun c distinct => ih _ (nodup_perform op distinct)

theorem size_run : (run ops).size =
    ((ops.filterMap Operation.offer?).map Prod.fst).toFinset.card := by
  have same : ((run ops).entries.map Prod.fst).toFinset =
      ((ops.filterMap Operation.offer?).map Prod.fst).toFinset := by
    ext span
    have entry : (run ops).get? span = _ := get?_run
    rw [get?] at entry
    rw [List.mem_toFinset, List.mem_toFinset, mem_spans_iff, mem_spans_iff, entry]
  rw [← same, List.toFinset_card_of_nodup nodup_run, List.length_map, size]

/-- A cache that is only ever appended to: entries, their number, conflicts, and the commits that
    resolutions make. -/
theorem run_append_only (ops : List Operation) :
    let c := run ops
    (∀ span, c.get? span = (ops.filterMap Operation.offer?).lookup span) ∧
    (∀ more span r, c.get? span = some r → (run (ops ++ more)).get? span = some r) ∧
    c.size = ((ops.filterMap Operation.offer?).map Prod.fst).toFinset.card ∧
    (∀ site r, c.commit site r =
      if c.Contradicts site r then ⟨.ok (.error {}, c), [conflict site]⟩
      else ⟨.ok (.ok (), c.perform (.commit site r)), []⟩) ∧
    (∀ site r, c.Contradicts site r →
      c.perform (.commit site r) = c ∧ (conflict site).severity = .bug) ∧
    ∀ s site,
      (∀ r, c.get? site.span = some r → c.resolve s site = ⟨.ok (r, c), []⟩) ∧
      ∀ r, c.get? site.span = none → (s.resolve site).outcome = .ok r →
        (c.commit site r).outcome = .ok (.ok (), c.insert site.span r) ∧
        c.resolve s site = ⟨.ok (r, c.insert site.span r), (s.resolve site).reports⟩ := by
  intro c
  refine ⟨fun _ => get?_run, fun _ _ _ => get?_run_append, size_run, ?commits, ?conflicts,
    fun s site => ⟨fun r found => resolve_of_recorded found, fun r absent resolved => ?resolves⟩⟩
  case commits =>
    intro site r
    by_cases contradicts : c.Contradicts site r
    · rw [if_pos contradicts, commit_of_contradicts contradicts]
    · rw [if_neg contradicts, perform_eq]
      cases found : c.get? site.span with
      | none => simp [commit_of_none found, Operation.offer?, found]
      | some recorded =>
        have same : recorded = r := by
          by_contra differs
          exact contradicts ⟨recorded, found, differs⟩
        simp [commit_of_recorded (same ▸ found), Operation.offer?, found]
  case conflicts =>
    intro site r contradicts
    rw [perform, commit_of_contradicts contradicts]
    exact ⟨rfl, rfl⟩
  case resolves =>
    rw [commit_of_none absent]
    exact ⟨rfl, resolve_of_none absent resolved⟩

def answer (s : Session) (before : List Site) (site : Site) : Except Fault Resolution :=
  ((run (before.map (.resolve s))).resolve s site).outcome.map Prod.fst

/-- What the first of the sites of a span resolves to, apart from faults. -/
def firstAt (s : Session) (span : Span) (sites : List Site) : Option Resolution :=
  sites.findSome? fun site =>
    if site.span = span then (s.resolve site).outcome.toOption else none

theorem firstAt_eq_lookup {sites : List Site} : firstAt s span sites =
    ((sites.map (.resolve s)).filterMap Operation.offer?).lookup span := by
  induction sites with
  | nil => rfl
  | cons site sites ih =>
    rw [firstAt, List.findSome?_cons, ← firstAt, ih, List.map_cons, List.filterMap_cons]
    cases h : (s.resolve site).outcome with
    | error fault => simp [Operation.offer?, h, Except.toOption]
    | ok r =>
      by_cases same : site.span = span
      · simp [Operation.offer?, h, Except.toOption, same]
      · have different : (span == site.span) = false := by simpa using Ne.symm same
        simp [Operation.offer?, h, Except.toOption, same, List.lookup_cons, different]

theorem answer_eq {before : List Site} : answer s before site =
    (firstAt s site.span before).elim (s.resolve site).outcome .ok := by
  rw [firstAt_eq_lookup, ← get?_run, answer]
  cases found : (run (before.map (.resolve s))).get? site.span with
  | some r => simp [resolve_of_recorded found, Except.map]
  | none =>
    cases h : (s.resolve site).outcome with
    | ok r => simp [resolve_of_none found h, Except.map]
    | error fault => simp [resolve_of_fault found h, Except.map]

/-- A call answers what the first call for the span answered, which is what the site resolves to
    unless another site of the span comes before it that resolves to something else. -/
theorem answer_of_first (s : Session) (before : List Site) (site : Site) :
    answer s before site = (firstAt s site.span before).elim (s.resolve site).outcome .ok ∧
    (answer s before site = (s.resolve site).outcome ↔
      ∀ r, firstAt s site.span before = some r → (s.resolve site).outcome = .ok r) ∧
    ((∀ earlier ∈ before, earlier.span = site.span →
      (s.resolve earlier).outcome = (s.resolve site).outcome) →
      answer s before site = (s.resolve site).outcome) := by
  have exact_iff : answer s before site = (s.resolve site).outcome ↔
      ∀ r, firstAt s site.span before = some r → (s.resolve site).outcome = .ok r := by
    rw [answer_eq]
    cases h : firstAt s site.span before with
    | none => simp
    | some first => simp [eq_comm]
  refine ⟨answer_eq, exact_iff, fun agree => exact_iff.2 fun r first => ?_⟩
  obtain ⟨earlier, member, h⟩ := List.exists_of_findSome?_eq_some first
  by_cases same : earlier.span = site.span
  · rw [if_pos same] at h
    rw [← agree earlier member same]
    cases resolved : (s.resolve earlier).outcome <;> simp_all [Except.toOption]
  · rw [if_neg same] at h
    cases h

/-- Two libraries, of which only the first one sees an extension of `Object`. -/
def twoLibraries : Program :=
  let extension : Decl :=
    { binder := some "A", params := [], library := ⟨1⟩, body := .extension .object,
      members := .singleton { name := "foo", kind := .getter } }
  { Program.initial with
    libraries := Program.siblingLibraries
    decls := .ofList [extension] }

theorem twoLibraries_share_spans :
    let s := twoLibraries.session {}
    let a : Site := { name := "foo", receiver := .value .object, library := ⟨1⟩ }
    let b : Site := { name := "foo", receiver := .value .object, library := ⟨2⟩ }
    answer s [] b = .ok (.failed (.noMatch .zero "foo" .undeclared)) ∧
    answer s [a] b = .ok (.resolved ⟨⟨0⟩, ⟨0⟩, .empty⟩) ∧
    answer s [a] b ≠ (s.resolve b).outcome := by
  refine ⟨rfl, rfl, fun transparent => ?_⟩
  have alone : (.ok (.resolved ⟨⟨0⟩, ⟨0⟩, .empty⟩) : Except Fault Resolution) =
      .ok (.failed (.noMatch .zero "foo" .undeclared)) := transparent
  cases alone

theorem twoLibraries_append_only :
    let s := twoLibraries.session {}
    let a : Site := { name := "foo", receiver := .value .object, library := ⟨1⟩ }
    let ops : List Operation := [.get a, .resolve s a]
    let other : Resolution := .failed (.noMatch .zero "foo" .undeclared)
    (run ops).Contradicts a other ∧
    (run ops).commit a other = ⟨.ok (.error {}, run ops), [conflict a]⟩ := by
  intro s a ops other
  have contradicts : (run ops).Contradicts a other :=
    ⟨.resolved ⟨⟨0⟩, ⟨0⟩, .empty⟩, rfl, nofun⟩
  obtain ⟨_, _, _, commits, _⟩ := run_append_only ops
  exact ⟨contradicts, (commits a other).trans (if_pos contradicts)⟩

end Cache

end MemberAccess
