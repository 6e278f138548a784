import Mathlib.Data.Set.Finite.List
import Mathlib.Order.WellFounded
import MemberAccess.Program.Core
import MemberAccess.Proofs.Resolution.Specificity
import MemberAccess.Visibility

/-!
Ranking of candidates. A ranking looks for the candidates that no other one precedes. If these
comparisons come to answers it finds exactly them, and if candidates are strictly ordered a single
one of them precedes all others.
-/
namespace MemberAccess.Session

variable {s : Session} {site : Site} {c w : Candidate} {cs others : List Candidate}

def unbeaten (s : Session) (site : Site) (cs : List Candidate) : List Candidate :=
  cs.filter fun c => ∀ other ∈ cs, ¬ s.precedes site other c

@[simp] theorem mem_unbeaten :
    c ∈ s.unbeaten site cs ↔ c ∈ cs ∧ ∀ other ∈ cs, ¬ s.precedes site other c := by
  simp [unbeaten]

theorem unbeaten_sublist : (s.unbeaten site cs).Sublist cs := List.filter_sublist

def ranking (s : Session) (site : Site) : List Candidate → Ranking
  | [] => .none
  | cs@(_ :: _) =>
    match s.unbeaten site cs with
    | [c] => .winner c
    | maximal => .ambiguous maximal

theorem isMaximal_eq_ok {answer : Bool}
    (h : (s.isMaximal site c others).outcome = .ok answer) :
    answer = decide (∀ other ∈ others, ¬ s.precedes site other c) := by
  induction others with
  | nil => simpa [isMaximal, eq_comm] using h
  | cons other others ih =>
    simp only [isMaximal, Reporting.outcome_bind, except_bind_eq_ok] at h
    obtain ⟨o, compared, h⟩ := h
    by_cases less : o = .less
    · subst less
      simp_all [precedes]
    · have here : ¬ s.precedes site other c := by simp [precedes, compared, less]
      have rest := ih (by simpa [less] using h)
      simp [rest, here]

theorem isMaximal_answered
    (answered : ∀ other ∈ others, ∃ o, (s.compare site other c).outcome = .ok o) :
    ∃ answer, (s.isMaximal site c others).outcome = .ok answer := by
  induction others with
  | nil => exact ⟨true, rfl⟩
  | cons other others ih =>
    obtain ⟨o, compared⟩ := answered other (by simp)
    obtain ⟨answer, rest⟩ := ih fun other h => answered other (by simp [h])
    by_cases less : o = .less
    · exact ⟨false, by simp [isMaximal, compared, less]⟩
    · exact ⟨answer, by simp [isMaximal, compared, less, rest]⟩

theorem maximality_eq_ok {all : List Candidate} {flags : List Bool}
    (h : (s.maximality site all cs).outcome = .ok flags) :
    flags = cs.map fun c => decide (∀ other ∈ all, ¬ s.precedes site other c) := by
  induction cs generalizing flags with
  | nil => simpa [maximality, eq_comm] using h
  | cons c cs ih =>
    simp only [maximality, Reporting.outcome_bind, except_bind_eq_ok, Reporting.outcome_pure,
      Except.ok.injEq] at h
    obtain ⟨first, hfirst, rest, hrest, rfl⟩ := h
    rw [List.map_cons, ← isMaximal_eq_ok hfirst, ← ih hrest]

theorem maximality_answered {all : List Candidate}
    (answered : ∀ c ∈ cs, ∀ other ∈ all, ∃ o, (s.compare site other c).outcome = .ok o) :
    ∃ flags, (s.maximality site all cs).outcome = .ok flags := by
  induction cs with
  | nil => exact ⟨[], rfl⟩
  | cons c cs ih =>
    obtain ⟨first, hfirst⟩ := isMaximal_answered (answered c (by simp))
    obtain ⟨rest, hrest⟩ := ih fun c h => answered c (by simp [h])
    exact ⟨first :: rest, by simp [maximality, hfirst, hrest]⟩

theorem map_filter_zip_flags (cs : List Candidate) (keep : Candidate → Bool) :
    ((cs.zip (cs.map keep)).filter (·.2)).map (·.1) = cs.filter keep := by
  induction cs with
  | nil => rfl
  | cons c cs ih => cases h : keep c <;> simp [h, ih]

theorem maximal_eq_ok {maximal : List Candidate}
    (h : (s.maximal site cs).outcome = .ok maximal) : maximal = s.unbeaten site cs := by
  simp only [Session.maximal, Reporting.outcome_bind, except_bind_eq_ok, Reporting.outcome_pure,
    Except.ok.injEq] at h
  obtain ⟨flags, hflags, rfl⟩ := h
  rw [maximality_eq_ok hflags, map_filter_zip_flags]
  rfl

theorem maximal_answered (answered : s.Comparable site cs) :
    (s.maximal site cs).outcome = .ok (s.unbeaten site cs) := by
  obtain ⟨flags, hflags⟩ := maximality_answered fun c hc other ho => answered other ho c hc
  have h : (s.maximal site cs).outcome = .ok (((cs.zip flags).filter (·.2)).map (·.1)) := by
    simp [Session.maximal, hflags]
  rw [h, maximal_eq_ok h]

theorem ranking_singleton : s.ranking site [c] = .winner c := by
  simp [ranking, unbeaten, precedes_irrefl]

theorem mem_of_ranking_winner (h : s.ranking site cs = .winner c) : c ∈ cs := by
  cases cs with
  | nil => cases h
  | cons first rest =>
    rw [ranking] at h
    cases single : s.unbeaten site (first :: rest) with
    | nil => simp [single] at h
    | cons m ms =>
      cases ms with
      | nil =>
        obtain rfl : m = c := by simpa [single] using h
        exact (mem_unbeaten.1 (single ▸ List.mem_singleton_self m)).1
      | cons n ns => simp [single] at h

theorem ranking_eq_winner_iff :
    s.ranking site cs = .winner w ↔ s.unbeaten site cs = [w] := by
  rcases cs with _ | ⟨c, cs⟩
  · simp [ranking, unbeaten]
  · rw [ranking]
    rcases s.unbeaten site (c :: cs) with _ | ⟨m, _ | ⟨n, ms⟩⟩ <;> simp

theorem ranking_ne_none (nonempty : cs ≠ []) : s.ranking site cs ≠ .none := by
  obtain ⟨first, rest, rfl⟩ := List.exists_cons_of_ne_nil nonempty
  rw [ranking]
  split <;> simp

theorem rank_eq_ok {r : Ranking} (h : (s.rank site cs).outcome = .ok r) :
    r = s.ranking site cs := by
  rcases cs with _ | ⟨c, _ | ⟨d, cs⟩⟩
  · simpa [rank, ranking, eq_comm] using h
  · simpa [rank, ranking_singleton, eq_comm] using h
  · simp only [rank, Reporting.outcome_bind, except_bind_eq_ok] at h
    obtain ⟨maximal, hmaximal, h⟩ := h
    rw [ranking, ← maximal_eq_ok hmaximal]
    rcases maximal with _ | ⟨m, _ | ⟨n, ms⟩⟩ <;> simpa [eq_comm] using h

theorem rank_answered (answered : s.Comparable site cs) :
    (s.rank site cs).outcome = .ok (s.ranking site cs) := by
  rcases cs with _ | ⟨c, _ | ⟨d, cs⟩⟩
  · rfl
  · rw [ranking_singleton]
    rfl
  · simp only [rank, Reporting.outcome_bind, maximal_answered answered]
    rw [ranking]
    generalize s.unbeaten site (c :: d :: cs) = maximal
    rcases maximal with _ | ⟨m, _ | ⟨n, ms⟩⟩ <;> rfl

/-- A candidate that precedes all others is the only unbeaten one, whether specificity is an order
    or not. -/
theorem unbeaten_eq_singleton (distinct : (cs.map (·.decl)).Nodup) (hw : w ∈ cs)
    (first : ∀ c ∈ cs, c ≠ w → s.precedes site w c) : s.unbeaten site cs = [w] := by
  have only : ∀ c ∈ s.unbeaten site cs, c = w := by
    intro c hc
    by_contra other
    exact (mem_unbeaten.1 hc).2 w hw (first c (mem_unbeaten.1 hc).1 other)
  have member : w ∈ s.unbeaten site cs := by
    refine mem_unbeaten.2 ⟨hw, ?_⟩
    intro other ho h
    by_cases same : other = w
    · exact precedes_irrefl (same ▸ h)
    · exact precedes_asymm h (first other ho same)
  have nodup : (s.unbeaten site cs).Nodup := unbeaten_sublist.nodup distinct.of_map
  refine List.perm_singleton.1 ((List.perm_ext_iff_of_nodup nodup (List.nodup_singleton w)).2 ?_)
  intro c
  rw [List.mem_singleton]
  exact ⟨only c, fun same => same ▸ member⟩

section Order

variable (distinct : (cs.map (·.decl)).Nodup) (answered : s.Comparable site cs)
  (types : s.TransitiveOn (cs.map (·.appliesTo))) (bounds : s.TransitiveOn (s.boundedTypes cs))
include distinct answered types bounds

/-- A strict order on finitely many candidates has a maximally specific one below each of them. -/
theorem exists_unbeaten_precedes (hc : c ∈ cs) :
    ∃ m ∈ s.unbeaten site cs, m = c ∨ s.precedes site m c := by
  let before (a b : { c // c ∈ cs }) : Prop := s.precedes site a b
  have trans {a b c : Candidate} :=
    precedes_trans types bounds (a := a) (b := b) (c := c) distinct answered
  have : Finite { c // c ∈ cs } := cs.finite_toSet
  have : IsTrans _ before := ⟨fun a b c => trans a.2 b.2 c.2⟩
  have : Std.Irrefl before := ⟨fun _ => precedes_irrefl⟩
  obtain ⟨⟨m, hm⟩, below, least⟩ := (Finite.wellFounded_of_trans_of_irrefl before).has_min
    { m | m.1 = c ∨ s.precedes site m c } ⟨⟨c, hc⟩, .inl rfl⟩
  refine ⟨m, mem_unbeaten.2 ⟨hm, fun other ho h => ?_⟩, below⟩
  rcases below with rfl | below
  · exact least ⟨other, ho⟩ (.inr h) h
  · exact least ⟨other, ho⟩ (.inr (trans ho hm hc h below)) h

theorem unbeaten_eq_singleton_iff :
    s.unbeaten site cs = [w] ↔ w ∈ cs ∧ ∀ c ∈ cs, c ≠ w → s.precedes site w c := by
  constructor
  · intro single
    have member : w ∈ s.unbeaten site cs := by simp [single]
    refine ⟨(mem_unbeaten.1 member).1, ?_⟩
    intro c hc other
    obtain ⟨m, hm, below⟩ := exists_unbeaten_precedes distinct answered types bounds hc
    obtain rfl : m = w := by simpa [single] using hm
    exact below.resolve_left (Ne.symm other)
  · rintro ⟨hw, first⟩
    exact unbeaten_eq_singleton distinct hw first

end Order

theorem unbeaten_pairwise_incomparable (distinct : (cs.map (·.decl)).Nodup)
    (answered : s.Comparable site cs) :
    (s.unbeaten site cs).Pairwise fun a b => (s.compare site a b).outcome = .ok .incomparable := by
  apply (unbeaten_sublist.nodup distinct.of_map).pairwise_of_forall_ne
  intro a ha b hb _
  obtain ⟨ha, firstA⟩ := mem_unbeaten.1 ha
  obtain ⟨hb, firstB⟩ := mem_unbeaten.1 hb
  obtain ⟨o, ho⟩ := answered a ha b hb
  exact incomparable_of_not_precedes ho (firstB a ha) (firstA b hb)

theorem specificity_strict_order (s : Session) (site : Site) (cs : List Candidate)
    (distinct : (cs.map (·.decl)).Nodup) :
    (∀ a ∈ cs, ∀ b ∈ cs, ∀ o,
      (s.compare site a b).outcome = .ok o ↔ (s.compare site b a).outcome = .ok o.reverse) ∧
    (s.Comparable site cs → s.TransitiveOn (cs.map (·.appliesTo)) →
      s.TransitiveOn (s.boundedTypes cs) →
      (∀ a ∈ cs, ¬ s.precedes site a a) ∧
      (∀ a ∈ cs, ∀ b ∈ cs, ∀ c ∈ cs,
        s.precedes site a b → s.precedes site b c → s.precedes site a c) ∧
      (cs ≠ [] →
        (∀ w, (s.rank site cs).outcome = .ok (.winner w) ↔
          w ∈ cs ∧ ∀ c ∈ cs, c ≠ w → s.precedes site w c) ∧
        ((¬ ∃ w ∈ cs, ∀ c ∈ cs, c ≠ w → s.precedes site w c) →
          ∃ maximal, (s.rank site cs).outcome = .ok (.ambiguous maximal) ∧
            2 ≤ maximal.length ∧ maximal.Sublist cs ∧
            maximal.Pairwise fun a b => (s.compare site a b).outcome = .ok .incomparable))) := by
  refine ⟨fun _ _ _ _ _ => compare_swap, ?_⟩
  intro answered types bounds
  have trans {a b c : Candidate} (ha : a ∈ cs) (hb : b ∈ cs) (hc : c ∈ cs) :=
    precedes_trans types bounds distinct answered ha hb hc
  refine ⟨fun _ _ => precedes_irrefl, fun a ha b hb c hc => trans ha hb hc, ?_⟩
  intro nonempty
  obtain ⟨first, rest, rfl⟩ := List.exists_cons_of_ne_nil nonempty
  have single {w} := unbeaten_eq_singleton_iff (w := w) distinct answered types bounds
  rw [rank_answered answered, ranking]
  constructor
  · intro w
    rw [← single]
    cases h : s.unbeaten site (first :: rest) with
    | nil => simp
    | cons m ms => cases ms <;> simp [eq_comm]
  · intro noWinner
    obtain ⟨m, hm, _⟩ := exists_unbeaten_precedes distinct answered types bounds List.mem_cons_self
    have sublist : (s.unbeaten site (first :: rest)).Sublist (first :: rest) := unbeaten_sublist
    have incomparable := unbeaten_pairwise_incomparable distinct answered
    cases h : s.unbeaten site (first :: rest) with
    | nil => simp [h] at hm
    | cons m ms =>
      cases ms with
      | nil => exact absurd ⟨m, single.1 h⟩ noWinner
      | cons n ns =>
        rw [h] at sublist incomparable
        exact ⟨_, rfl, by simp, sublist, incomparable⟩

/-- Extensions on `List<T>`, on `List<int>` and on `Iterable<num>` with a getter each. -/
def listExtensions : Program :=
  let sum : Table .member Member :=
    .singleton { name := "sum", kind := .getter, sig := .getter (.interface ⟨4⟩ []) }
  { Program.genericCore with
    decls := .ofList
      [{ binder := some "Any", params := [⟨4⟩], members := sum, library := .core,
         body := .extension (.interface ⟨10⟩ [.param ⟨4⟩]) },
        { binder := some "Ints", params := [], members := sum, library := .core,
          body := .extension (.interface ⟨10⟩ [.interface ⟨5⟩ []]) },
        { binder := some "Nums", params := [], members := sum, library := .core,
          body := .extension (.interface ⟨9⟩ [.interface ⟨4⟩ []]) }] }

def listCandidates : List Candidate :=
  let ints : Ty := .interface ⟨10⟩ [.interface ⟨5⟩ []]
  [⟨⟨0⟩, ⟨0⟩, .ofList [(⟨4⟩, .interface ⟨5⟩ [])], ints⟩, ⟨⟨1⟩, ⟨0⟩, .empty, ints⟩,
    ⟨⟨2⟩, ⟨0⟩, .empty, .interface ⟨9⟩ [.interface ⟨4⟩ []]⟩]

theorem listCandidates_winner :
    let s := listExtensions.session {}
    let site : Site := { name := "sum", receiver := .value .dynamic, library := .core }
    (listCandidates.map (·.decl)).Nodup ∧ s.Comparable site listCandidates ∧
      s.TransitiveOn (listCandidates.map (·.appliesTo)) ∧
      s.TransitiveOn (s.boundedTypes listCandidates) ∧
      (s.rank site listCandidates).outcome = .ok (.winner listCandidates[1]) := by
  intro s site
  have distinct : (listCandidates.map (·.decl)).Nodup := by decide
  have types : s.TransitiveOn (listCandidates.map (·.appliesTo)) := by decide +kernel
  have bounds : s.TransitiveOn (s.boundedTypes listCandidates) := by decide +kernel
  have answered : s.Comparable site listCandidates := by decide +kernel
  refine ⟨distinct, answered, types, bounds, ?_⟩
  have order := (specificity_strict_order s site listCandidates distinct).2 answered types bounds
  refine ((order.2.2 (by decide)).1 _).2 ⟨by decide, ?_⟩
  decide +kernel

end MemberAccess.Session
