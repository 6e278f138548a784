import Mathlib.Algebra.Order.Floor.Div
import MemberAccess.Proofs.Diagnostic.Buffer
import MemberAccess.Proofs.Range.Resolution
import MemberAccess.Proofs.Reporting
import MemberAccess.Resolution.Batch

/-!
Batches of sites. The workers resolve consecutive parts of a batch, which amounts to the resolution
of one site after the other. Failures do not end a batch, and the only errors that are reported are
the diagnostics of the failures, since resolution itself reports warnings and traces only.
-/
namespace MemberAccess

/-- Whether lists are consecutive parts of a size, of which only the last one may be shorter. -/
structure Splits {α : Type} (size : Nat) (xs : List α) (chunks : List (List α)) : Prop where
  flatten : chunks.flatten = xs
  nonempty : ∀ chunk ∈ chunks, chunk ≠ []
  bounded : ∀ chunk ∈ chunks, chunk.length ≤ size
  full : ∀ chunk ∈ chunks.dropLast, chunk.length = size

section Chunks

variable {α β : Type} {m : Type → Type} [Monad m] [LawfulMonad m] {size workers n k : Nat}
  {xs : List α} {f : α → m β}

theorem chunkSize_eq : chunkSize workers n = max 1 (n ⌈/⌉ workers) := by
  rw [chunkSize, Nat.ceilDiv_eq_add_pred_div]

theorem chunksOf_eq : chunksOf size xs =
    (List.range (xs.length ⌈/⌉ size)).map fun k => (xs.drop (k * size)).take size := by
  rw [chunksOf, Nat.ceilDiv_eq_add_pred_div]

theorem flatten_take_drop (size : Nat) (xs : List α) (n : Nat) :
    ((List.range n).map fun k => (xs.drop (k * size)).take size).flatten = xs.take (n * size) := by
  induction n with
  | zero => simp
  | succ n ih => simp [List.range_succ, ih, Nat.succ_mul, List.take_add]

theorem mul_lt_of_lt_ceilDiv (positive : 0 < size) (h : k < n ⌈/⌉ size) : k * size < n := by
  have := (ceilDiv_le_iff_le_smul positive (b := n) (c := k)).not.1 (Nat.not_le_of_lt h)
  rw [smul_eq_mul, Nat.mul_comm] at this
  exact Nat.lt_of_not_le this

theorem splits_chunksOf (positive : 0 < size) (xs : List α) :
    Splits size xs (chunksOf size xs) := by
  have parts {chunk : List α} {amount : Nat} (h : chunk ∈ (List.range amount).map fun k =>
      (xs.drop (k * size)).take size) : ∃ k < amount, (xs.drop (k * size)).take size = chunk := by
    simpa using h
  rw [chunksOf_eq]
  constructor
  case flatten =>
    rw [flatten_take_drop]
    apply List.take_of_length_le
    rw [Nat.mul_comm]
    exact le_smul_ceilDiv positive
  case nonempty =>
    intro chunk h
    obtain ⟨k, hk, rfl⟩ := parts h
    have begins : k * size < xs.length := mul_lt_of_lt_ceilDiv positive hk
    simp [List.take_eq_nil_iff]
    omega
  case bounded =>
    intro chunk h
    obtain ⟨k, _, rfl⟩ := parts h
    exact List.length_take_le size _
  case full =>
    intro chunk h
    rw [← List.map_dropLast, List.dropLast_eq_take, List.take_range, List.length_range] at h
    obtain ⟨k, hk, rfl⟩ := parts h
    have next : (k + 1) * size < xs.length := mul_lt_of_lt_ceilDiv positive (by omega)
    rw [List.length_take, List.length_drop]
    rw [Nat.succ_mul] at next
    omega

theorem length_chunksOf_le (positive : 0 < workers) (xs : List α) :
    (chunksOf (chunkSize workers xs.length) xs).length ≤ workers := by
  rw [chunksOf_eq, chunkSize_eq, List.length_map, List.length_range,
    ceilDiv_le_iff_le_smul (by simp)]
  calc xs.length ≤ workers * (xs.length ⌈/⌉ workers) := le_smul_ceilDiv positive
    _ ≤ max 1 (xs.length ⌈/⌉ workers) * workers := by
      rw [Nat.mul_comm]
      exact Nat.mul_le_mul_right workers (le_max_right _ _)

theorem mapM_flatten (xss : List (List α)) :
    (do pure (← xss.mapM fun xs => xs.mapM f).flatten) = xss.flatten.mapM f := by
  induction xss with
  | nil => simp
  | cons xs xss ih => simp [List.mapM_append, ← ih]

end Chunks

def Diagnostic.IsMild (d : Diagnostic) : Prop := d.severity.isFailure = false

def Resolution.target? : Resolution → Option Target
  | .resolved target => some target
  | .failed _ => none

theorem Health.eq_of_isTainted {h h' : Health} (same : h.isTainted ↔ h'.isTainted) : h = h' := by
  cases h <;> cases h' <;> simp_all [isTainted]

theorem Diagnostic.severity_withLabels {d : Diagnostic} {spans : List Span} {label : String} :
    (d.withLabels spans label).severity = d.severity := by
  unfold withLabels
  induction spans generalizing d with
  | nil => rfl
  | cons span spans ih => exact ih

theorem Program.severity_explain {P : Program} {f : Failure} {d : Diagnostic}
    (h : P.explain f = .ok d) : d.severity = .error := by
  cases f with
  | noMatch site name reason =>
    cases h
    cases reason <;> rfl
  | ambiguous site name candidates =>
    obtain ⟨_, _, h⟩ := bind_eq_ok.1 h
    obtain ⟨_, _, h⟩ := bind_eq_ok.1 h
    cases h
    exact Diagnostic.severity_withLabels
  | getterInvoked site name decl =>
    obtain ⟨_, _, h⟩ := bind_eq_ok.1 h
    cases h
    rfl

namespace Session

variable {s : Session} {site : Site} {a b c : Candidate} {cs : List Candidate}
  {rs : List Resolution} {health : Health} {d : Diagnostic}

section Reports

theorem isMild_overflowWarning {i : DeclId} {overflow : BoundsOverflow}
    (h : s.overflowWarning i overflow = .ok d) : d.IsMild := by
  obtain ⟨_, _, h⟩ := bind_eq_ok.1 h
  obtain ⟨_, _, h⟩ := bind_eq_ok.1 h
  obtain ⟨_, _, h⟩ := bind_eq_ok.1 h
  cases h
  rfl

theorem boundedType_mild : (s.boundedType c).Reports Diagnostic.IsMild := by
  refine (Reporting.reports_lift _).bind fun bounded _ => ?_
  cases bounded with
  | ok t => exact Reporting.reports_pure _
  | error overflow =>
    refine (Reporting.reports_lift _).bind fun warning h => ?_
    exact (Reporting.reports_report (isMild_overflowWarning h)).bind fun _ _ =>
      Reporting.reports_pure _

theorem breakTie_mild : (s.breakTie a b).Reports Diagnostic.IsMild := by
  refine boundedType_mild.bind fun t _ => boundedType_mild.bind fun u _ => ?_
  split
  · exact (Reporting.reports_lift _).bind fun _ _ => Reporting.reports_pure _
  · exact Reporting.reports_pure _

theorem compare_mild : (s.compare site a b).Reports Diagnostic.IsMild := by
  unfold Session.compare
  split
  · exact Reporting.reports_pure _
  split
  · exact Reporting.reports_pure _
  split
  · exact Reporting.reports_pure _
  refine (Reporting.reports_lift _).bind fun ⟨forward, backward⟩ _ => ?_
  simp only
  split
  · split
    · exact Reporting.reports_pure _
    · exact breakTie_mild
  · exact Reporting.reports_pure _

theorem isMaximal_mild : (s.isMaximal site c cs).Reports Diagnostic.IsMild := by
  induction cs with
  | nil => exact Reporting.reports_pure _
  | cons other others ih =>
    refine compare_mild.bind fun specificity _ => ?_
    split
    · exact Reporting.reports_pure _
    · exact ih

theorem maximality_mild {all : List Candidate} :
    (s.maximality site all cs).Reports Diagnostic.IsMild := by
  induction cs with
  | nil => exact Reporting.reports_pure _
  | cons c cs ih =>
    exact isMaximal_mild.bind fun _ _ => ih.bind fun _ _ => Reporting.reports_pure _

theorem rank_mild : (s.rank site cs).Reports Diagnostic.IsMild := by
  unfold rank
  split
  · exact Reporting.reports_pure _
  · exact Reporting.reports_pure _
  · refine (maximality_mild.bind fun _ _ => Reporting.reports_pure _).bind fun maximal _ => ?_
    split <;> exact Reporting.reports_pure _

theorem traceWith_mild {message : Except Fault String} :
    (s.traceWith site message).Reports Diagnostic.IsMild := by
  unfold traceWith
  split
  · exact (Reporting.reports_lift _).bind fun _ _ => Reporting.reports_report rfl
  · exact Reporting.reports_pure _

theorem choose_mild : (s.choose site cs).Reports Diagnostic.IsMild := by
  refine rank_mild.bind fun ranking _ => ?_
  cases ranking with
  | winner c => exact traceWith_mild.bind fun _ _ => Reporting.reports_pure _
  | none => exact Reporting.reports_pure _
  | ambiguous maximal => exact Reporting.reports_pure _

theorem resolve_mild : (s.resolve site).Reports Diagnostic.IsMild := by
  refine (Reporting.reports_lift _).bind fun visible _ => ?_
  unfold resolveAmong
  split
  · exact Reporting.reports_pure _
  refine (Reporting.reports_lift _).bind fun decls _ => traceWith_mild.bind fun _ _ => ?_
  split
  · exact Reporting.reports_lift _
  refine (Reporting.reports_lift _).bind fun screening _ => traceWith_mild.bind fun _ _ => ?_
  split
  · exact Reporting.reports_pure _
  · exact choose_mild

end Reports

theorem resolveAll_eq (s : Session) (workers : Nat) (sites : List Site) :
    s.resolveAll workers sites = sites.mapM s.resolve := by
  have positive : 0 < chunkSize workers sites.length := by simp [chunkSize_eq]
  have chunks := splits_chunksOf positive sites
  have := Reporting.lawfulMonad
  conv => rhs; rw [← chunks.flatten, ← mapM_flatten]
  rfl

section Failures

def complaint? (s : Session) : Resolution → Option Diagnostic
  | .resolved _ => none
  | .failed f => (s.program.explain f).toOption

def Explained (s : Session) (rs : List Resolution) : Prop :=
  ∀ f, .failed f ∈ rs → ∃ d, s.program.explain f = .ok d

theorem complaint?_eq_some {r : Resolution} :
    s.complaint? r = some d ↔ ∃ f, r = .failed f ∧ s.program.explain f = .ok d := by
  cases r with
  | resolved target => simp [complaint?]
  | failed f => cases h : s.program.explain f <;> simp [complaint?, h, Except.toOption]

theorem explained_cons {r : Resolution} : s.Explained (r :: rs) ↔
    (∀ f, r = .failed f → ∃ d, s.program.explain f = .ok d) ∧ s.Explained rs := by
  simp only [Explained, List.mem_cons, eq_comm (b := r), or_imp, forall_and]

theorem reportFailure_eq {f : Failure} (h : s.program.explain f = .ok d) :
    s.reportFailure f = ⟨.ok {}, [d]⟩ := by
  rw [reportFailure, h]
  rfl

def healthAfter (health : Health) (rs : List Resolution) : Health :=
  if none ∈ rs.map Resolution.target? then health.taint {} else health

theorem healthAfter_cons {r : Resolution} : healthAfter health (r :: rs) =
    healthAfter (if r.target? = none then health.taint {} else health) rs := by
  cases health <;> cases h : r.target? <;> simp [healthAfter, h, Health.taint]

theorem reportEach_resolved {target : Target} : s.reportEach (.resolved target :: rs) health =
    (s.reportEach rs health >>= fun rest => pure ⟨some target :: rest.value, rest.health⟩) := rfl

theorem reportEach_failed {f : Failure} : s.reportEach (.failed f :: rs) health =
    (s.reportFailure f >>= fun _ => s.reportEach rs (health.taint {}) >>= fun rest =>
      pure ⟨none :: rest.value, rest.health⟩) := by
  simp only [reportEach]
  rfl

theorem reportEach_eq (explained : s.Explained rs) : s.reportEach rs health =
    ⟨.ok ⟨rs.map Resolution.target?, healthAfter health rs⟩, rs.filterMap s.complaint?⟩ := by
  induction rs generalizing health with
  | nil => rfl
  | cons r rs ih =>
    obtain ⟨head, tail⟩ := explained_cons.1 explained
    rw [healthAfter_cons]
    cases r with
    | resolved target =>
      rw [reportEach_resolved, ih tail, Reporting.bind_of_ok rfl]
      exact congrArg (Reporting.mk _) (List.append_nil _)
    | failed f =>
      obtain ⟨d, hd⟩ := head f rfl
      have complaint : s.complaint? (.failed f) = some d := complaint?_eq_some.2 ⟨f, rfl, hd⟩
      rw [reportEach_failed, reportFailure_eq hd, ih tail, Reporting.bind_of_ok rfl,
        Reporting.bind_of_ok rfl, List.filterMap_cons_some complaint]
      change Reporting.mk _ (d :: (rs.filterMap s.complaint? ++ [])) = _
      rw [List.append_nil]
      rfl

theorem explained_of_reportEach {outcome : Outcome (List (Option Target))}
    (h : (s.reportEach rs health).outcome = .ok outcome) : s.Explained rs := by
  induction rs generalizing health outcome with
  | nil => nofun
  | cons r rs ih =>
    cases r with
    | resolved target =>
      rw [reportEach_resolved, Reporting.outcome_bind, except_bind_eq_ok] at h
      obtain ⟨rest, hrest, _⟩ := h
      exact explained_cons.2 ⟨nofun, ih hrest⟩
    | failed f =>
      rw [reportEach_failed, Reporting.outcome_bind, except_bind_eq_ok] at h
      obtain ⟨_, reported, h⟩ := h
      rw [Reporting.outcome_bind, except_bind_eq_ok] at h
      obtain ⟨rest, hrest, _⟩ := h
      rw [reportFailure, Reporting.outcome_bind, Reporting.outcome_lift,
        except_bind_eq_ok] at reported
      obtain ⟨d, hd, _⟩ := reported
      refine explained_cons.2 ⟨?_, ih hrest⟩
      rintro _ ⟨⟩
      exact ⟨d, hd⟩

end Failures

def Resolves (s : Session) (sites : List Site) (rs : List Resolution) : Prop :=
  List.Forall₂ (fun site r => (s.resolve site).outcome = .ok r) sites rs

section Batch

variable {workers : Nat} {sites : List Site} {outcome : Outcome (List (Option Target))}

theorem resolveAll_eq_ok :
    (s.resolveAll workers sites).outcome = .ok rs ↔ s.Resolves sites rs := by
  rw [resolveAll_eq, Reporting.outcome_mapM, mapM_eq_ok]
  rfl

theorem reportAll_eq (resolves : s.Resolves sites rs) (explained : s.Explained rs) :
    s.reportAll workers sites =
      ⟨.ok ⟨rs.map Resolution.target?, healthAfter .untainted rs⟩,
        (sites.mapM s.resolve).reports ++ rs.filterMap s.complaint?⟩ := by
  have resolved : (s.resolveAll workers sites).outcome = .ok rs := resolveAll_eq_ok.2 resolves
  rw [reportAll, Reporting.bind_of_ok resolved, reportEach_eq explained, resolveAll_eq]

theorem reportAll_eq_ok : (s.reportAll workers sites).outcome = .ok outcome ↔
    ∃ rs, s.Resolves sites rs ∧ s.Explained rs ∧
      outcome = ⟨rs.map Resolution.target?, healthAfter .untainted rs⟩ := by
  constructor
  · intro h
    have run := h
    rw [reportAll, Reporting.outcome_bind, except_bind_eq_ok] at h
    obtain ⟨rs, hrs, h⟩ := h
    have resolves := resolveAll_eq_ok.1 hrs
    have explained := explained_of_reportEach h
    rw [reportAll_eq resolves explained] at run
    cases run
    exact ⟨rs, resolves, explained, rfl⟩
  · rintro ⟨rs, resolves, explained, rfl⟩
    rw [reportAll_eq resolves explained]

theorem isTainted_healthAfter :
    (healthAfter .untainted rs).isTainted ↔ none ∈ rs.map Resolution.target? := by
  unfold healthAfter
  split <;> simp_all [Health.taint, Health.isTainted]

theorem mem_reports_iff (workers : Nat) (resolves : s.Resolves sites rs)
    (explained : s.Explained rs) :
    d ∈ (s.reportAll workers sites).reports ∧ d.severity.isFailure ↔
      ∃ f, .failed f ∈ rs ∧ s.program.explain f = .ok d := by
  have complaints : d ∈ rs.filterMap s.complaint? ↔
      ∃ f, .failed f ∈ rs ∧ s.program.explain f = .ok d := by
    simp only [List.mem_filterMap, complaint?_eq_some]
    exact ⟨fun ⟨_, hr, f, same, hd⟩ => ⟨f, same ▸ hr, hd⟩, fun ⟨f, hf, hd⟩ => ⟨_, hf, f, rfl, hd⟩⟩
  have mild (h : d ∈ (sites.mapM s.resolve).reports) : d.IsMild :=
    Reporting.reports_mapM (fun _ _ => resolve_mild) d h
  rw [reportAll_eq resolves explained, List.mem_append, complaints]
  constructor
  · rintro ⟨own | reported, failure⟩
    · exact absurd failure (Bool.eq_false_iff.1 (mild own))
    · exact reported
  · rintro ⟨f, hf, hd⟩
    exact ⟨.inr ⟨f, hf, hd⟩, by rw [Program.severity_explain hd]; rfl⟩

end Batch

/-- The workers of a batch do together what one would do alone. Each failure taints the outcome and
    is reported, in whatever order the reports of the workers come in, and no other error is. -/
theorem batch_loses_nothing (s : Session) (workers : Nat) (sites : List Site)
    (positive : 0 < workers) :
    let chunks := chunksOf (chunkSize workers sites.length) sites
    (Splits (max 1 (sites.length ⌈/⌉ workers)) sites chunks ∧ chunks.length ≤ workers) ∧
    s.resolveAll workers sites = sites.mapM s.resolve ∧
    (∀ rs, (s.resolveAll workers sites).outcome = .ok rs ↔ s.Resolves sites rs) ∧
    (∀ outcome, (s.reportAll workers sites).outcome = .ok outcome ↔
      ∃ rs, s.Resolves sites rs ∧ s.Explained rs ∧ outcome.value = rs.map Resolution.target? ∧
        (outcome.health.isTainted ↔ none ∈ outcome.value)) ∧
    (∀ rs reports, s.Resolves sites rs → s.Explained rs →
      reports.Perm (s.reportAll workers sites).reports →
      ∀ d, d ∈ (({} : Reporter).report reports).buffer.diagnostics ∧ d.severity.isFailure ↔
        ∃ f, .failed f ∈ rs ∧ s.program.explain f = .ok d) ∧
    ∀ options, s = s.program.session options → s.program.WellFormed →
      (∀ site ∈ sites, s.program.SiteInRange site) →
      ∃ outcome, (s.reportAll workers sites).outcome = .ok outcome := by
  intro chunks
  have size : 0 < chunkSize workers sites.length := by simp [chunkSize_eq]
  refine ⟨⟨chunkSize_eq ▸ splits_chunksOf size sites, length_chunksOf_le positive sites⟩,
    resolveAll_eq s workers sites, fun rs => resolveAll_eq_ok, fun outcome => ?outcomes,
    fun rs reports resolves explained perm d => ?reports, fun options concrete wf inRange => ?ends⟩
  case outcomes =>
    rw [reportAll_eq_ok]
    constructor
    · rintro ⟨rs, resolves, explained, rfl⟩
      exact ⟨rs, resolves, explained, rfl, isTainted_healthAfter⟩
    · rintro ⟨rs, resolves, explained, value, tainted⟩
      refine ⟨rs, resolves, explained, ?_⟩
      rw [value, ← isTainted_healthAfter] at tainted
      obtain ⟨targets, health⟩ := outcome
      obtain rfl : health = healthAfter .untainted rs := Health.eq_of_isTainted tainted
      rw [← value]
  case reports =>
    rw [← mem_reports_iff workers resolves explained]
    change d ∈ (Buffer.empty.insertAll reports).diagnostics ∧ _ ↔ _
    rw [Buffer.mem_insertAll_empty, perm.mem_iff]
  case ends =>
    have answers : Yields (sites.mapM fun site => (s.resolve site).outcome) fun rs =>
        ∀ r ∈ rs, s.program.ResolutionInRange r := by
      refine yields_mapM fun site hs => ?_
      have answer := wf.resolve options (inRange site hs)
      rwa [← concrete] at answer
    obtain ⟨rs, hrs, holds⟩ := answers
    have explained : s.Explained rs := fun f hf => wf.explain_answered (holds _ hf)
    exact ⟨_, reportAll_eq_ok.2 ⟨rs, mapM_eq_ok.1 hrs, explained, rfl⟩⟩

theorem listExtensions_batch :
    let s := listExtensions.session { trace := true }
    let known : Site :=
      { name := "sum", receiver := .value (.interface ⟨10⟩ [.interface ⟨5⟩ []]), library := .core }
    let unknown : Site := { known with receiver := .value .dynamic }
    let failure : Failure := .noMatch .zero "sum" .dynamicReceiver
    let target : Target := ⟨⟨1⟩, ⟨0⟩, .empty⟩
    let rs : List Resolution := [.failed failure, .resolved target, .failed failure]
    let sites := [unknown, known, unknown]
    s.Resolves sites rs ∧ s.Explained rs ∧
    (s.reportAll 2 sites).outcome = .ok ⟨[none, some target, none], .tainted {}⟩ ∧
    ∀ d, d ∈ (({} : Reporter).report (s.reportAll 2 sites).reports).buffer.diagnostics ∧
      d.severity.isFailure ↔ ∃ f, .failed f ∈ rs ∧ s.program.explain f = .ok d := by
  intro s known unknown failure target rs sites
  have failed : (s.resolve unknown).outcome = .ok (.failed failure) := rfl
  have resolved : (s.resolve known).outcome = .ok (.resolved target) := by decide +kernel
  have resolves : s.Resolves sites rs := .cons failed (.cons resolved (.cons failed .nil))
  have explained : s.Explained rs := by
    intro f hf
    obtain rfl : f = failure := by simpa [rs] using hf
    exact ⟨_, rfl⟩
  obtain ⟨_, _, _, outcomes, reports, _⟩ := batch_loses_nothing s 2 sites (by decide)
  exact ⟨resolves, explained, (outcomes _).2 ⟨rs, resolves, explained, rfl, by decide⟩,
    reports rs _ resolves explained (.refl _)⟩

end Session

end MemberAccess
