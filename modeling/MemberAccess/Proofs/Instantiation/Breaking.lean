import Mathlib.Data.Fintype.Card
import MemberAccess.Proofs.Graph.Components
import MemberAccess.Proofs.Instantiation.Composition
import MemberAccess.Proofs.Renaming.Instantiation

/-!
Bounds without cycles. The cycles that are broken are the strongly connected components of the
dependencies, one after the other, so that what is left can be ranked.
-/
namespace MemberAccess

open Relation

namespace Substitution

variable {vars : List ParamId} {f : ParamId → Ty} {p : ParamId} {t : Ty} {s : Substitution}
  {es : List (ParamId × Ty)}

theorem get?_insertAll_of_unique (present : ∃ e ∈ es, e.1 = p)
    (unique : ∀ e ∈ es, e.1 = p → e.2 = t) : (s.insertAll es).get? p = some t := by
  induction es generalizing s with
  | nil => simp at present
  | cons e es ih =>
    obtain ⟨first, unique⟩ := List.forall_mem_cons.1 unique
    by_cases later : ∃ e ∈ es, e.1 = p
    · exact ih later unique
    · have own : e.1 = p := ((List.exists_mem_cons_iff ..).1 present).resolve_right later
      have last : (s.insertAll (e :: es)).get? p = (s.insert e.1 e.2).get? p :=
        get?_insertAll_of_absent fun e he same => later ⟨e, he, same⟩
      rw [last, get?_insert, if_pos own.symm, first own]

theorem get?_ofList_map :
    (ofList (vars.map fun p => (p, f p))).get? p = if p ∈ vars then some (f p) else none := by
  split
  · next own =>
    apply get?_insertAll_of_unique
    · exact ⟨(p, f p), List.mem_map.2 ⟨p, own, rfl⟩, rfl⟩
    · rintro e member rfl
      obtain ⟨_, _, rfl⟩ := List.mem_map.1 member
      rfl
  · next outside =>
    apply get?_insertAll_of_absent
    rintro e member rfl
    obtain ⟨_, own, rfl⟩ := List.mem_map.1 member
    exact outside own

def HasDomain (s : Substitution) (vars : List ParamId) : Prop := ∀ p, (s.get? p).isSome ↔ p ∈ vars

theorem HasDomain.get?_eq_none (domain : s.HasDomain vars) (outside : p ∉ vars) :
    s.get? p = none :=
  Option.not_isSome_iff_eq_none.1 (mt (domain p).1 outside)

theorem HasDomain.mapTypes {f : Ty → Ty} (domain : s.HasDomain vars) :
    (s.mapTypes f).HasDomain vars := by
  intro p
  rw [get?_mapTypes, Option.isSome_map]
  exact domain p

theorem hasDomain_ofList : (ofList (vars.map fun p => (p, f p))).HasDomain vars := by
  intro p
  rw [get?_ofList_map]
  split <;> simp_all

end Substitution

theorem Ty.substitute_of_mem {s : Substitution} {p : ParamId} {t u : Ty}
    (value : s.get? p = some u) : t.substitute s = t.replace s.get? := by
  rw [substitute, if_neg]
  intro empty
  rw [Substitution.isEmpty_iff.1 empty] at value
  cases value

namespace Bounds

variable {vars : List ParamId} {B : ParamId → Ty} {cycles : List (List ParamId)} {p q : ParamId}
  {t u : Ty}

def Depends (vars : List ParamId) (B : ParamId → Ty) (p q : ParamId) : Prop :=
  p ∈ vars ∧ q ∈ vars ∧ q ∈ (B p).params

def OnCycle (vars : List ParamId) (B : ParamId → Ty) (p q : ParamId) : Prop :=
  TransGen (Depends vars B) p q ∧ TransGen (Depends vars B) q p

open Classical in
/-- The bound of a parameter, with `dynamic` for all that are on a cycle with the parameter. -/
noncomputable def brokenBound (vars : List ParamId) (B : ParamId → Ty) (p : ParamId) : Ty :=
  if OnCycle vars B p p then
    (B p).replace fun q => if OnCycle vars B p q then some .dynamic else none
  else B p

section Cycles

theorem leads_iff :
    (dependencies (vars.map fun p => (p, B p)) vars).Leads p q ↔ Depends vars B p q := by
  simp only [Graph.Leads, dependencies, Depends, List.map_map, List.mem_map, Function.comp_apply,
    Prod.mk.injEq]
  constructor
  · rintro ⟨⟨_, ⟨_, own, rfl, rfl⟩, successor⟩, _⟩
    rw [List.mem_filter, decide_eq_true_eq] at successor
    exact ⟨own, successor.2, successor.1⟩
  · rintro ⟨own, other, mentioned⟩
    exact ⟨⟨_, ⟨p, own, rfl, rfl⟩, List.mem_filter.2 ⟨mentioned, by simpa using other⟩⟩,
      q, other, rfl⟩

theorem uniform_dependencies : (dependencies (vars.map fun p => (p, B p)) vars).Uniform := by
  intro p xs ys first second
  simp only [dependencies, List.map_map, List.mem_map, Function.comp_apply, Prod.mk.injEq]
    at first second
  obtain ⟨_, _, rfl, rfl⟩ := first
  obtain ⟨_, _, rfl, rfl⟩ := second
  rfl

theorem exists_cycle_iff :
    (∃ c ∈ (dependencies (vars.map fun p => (p, B p)) vars).cycles, p ∈ c ∧ q ∈ c) ↔
      OnCycle vars B p q := by
  have same : (dependencies (vars.map fun p => (p, B p)) vars).Leads = Depends vars B := by
    funext p q
    exact propext leads_iff
  unfold OnCycle
  rw [← same]
  constructor
  · rintro ⟨c, found, hp, hq⟩
    exact ⟨Graph.leads_of_mem_cycles found hp hq, Graph.leads_of_mem_cycles found hq hp⟩
  · rintro ⟨there, back⟩
    exact Graph.exists_mem_cycles uniform_dependencies there back

theorem breakCycle_map {c : List ParamId} {f : ParamId → Ty} :
    breakCycle (vars.map fun p => (p, f p)) c = vars.map fun p =>
      (p, if p ∈ c then (f p).replace fun q => if q ∈ c then some .dynamic else none else f p) := by
  rw [breakCycle, List.map_map]
  refine List.map_congr_left fun p _ => ?_
  simp only [Function.comp_apply]
  split
  · next own =>
    have value : (Substitution.ofList (c.map fun p => (p, Ty.dynamic))).get? p = some .dynamic := by
      rw [Substitution.get?_ofList_map, if_pos own]
    rw [Ty.substitute_of_mem value]
    congr 2
    funext q
    exact Substitution.get?_ofList_map
  · rfl

open Classical in
/-- Breaking cycles one after the other breaks all of them at once. -/
theorem foldl_breakCycle_map : cycles.foldl breakCycle (vars.map fun p => (p, B p)) =
    vars.map fun p => (p, if ∃ c ∈ cycles, p ∈ c ∧ p ∈ c then
      (B p).replace fun q => if ∃ c ∈ cycles, p ∈ c ∧ q ∈ c then some .dynamic else none
      else B p) := by
  induction cycles generalizing B with
  | nil => simp
  | cons c cycles ih =>
    rw [List.foldl_cons, breakCycle_map, ih]
    refine List.map_congr_left fun p _ => ?_
    simp only [List.exists_mem_cons_iff]
    by_cases own : p ∈ c
    · by_cases again : ∃ c ∈ cycles, p ∈ c ∧ p ∈ c
      · simp only [own, again, if_true, true_and, or_true, Ty.replace_replace]
        congr 2
        funext q
        by_cases other : q ∈ c <;> simp [Ty.followedBy, Ty.replace, other]
      · simp only [and_self, not_exists, not_and] at again
        have alone (q : ParamId) : ¬ ∃ c ∈ cycles, p ∈ c ∧ q ∈ c := by
          rintro ⟨c, listed, hp, _⟩
          exact again c listed hp
        simp only [own, alone, if_true, if_false, true_and, or_false]
    · simp only [own, false_and, false_or, if_false]

noncomputable def start (vars : List ParamId) (B : ParamId → Ty) : Substitution :=
  .ofList (vars.map fun p => (p, brokenBound vars B p))

theorem ofList_acyclic :
    Substitution.ofList (acyclic vars (vars.map fun p => (p, B p))) = start vars B := by
  classical
  simp only [acyclic, foldl_breakCycle_map, exists_cycle_iff]
  rfl

theorem hasDomain_start : (start vars B).HasDomain vars := Substitution.hasDomain_ofList

theorem get?_start : (start vars B).get? p = some t ↔ p ∈ vars ∧ t = brokenBound vars B p := by
  rw [start, Substitution.get?_ofList_map]
  split <;> simp_all [eq_comm]

end Cycles

section Ranks

theorem OnCycle.self (h : OnCycle vars B p q) : OnCycle vars B p p :=
  ⟨h.1.trans h.2, h.1.trans h.2⟩

theorem depends_brokenBound (h : Depends vars (brokenBound vars B) p q) :
    Depends vars B p q ∧ ¬ OnCycle vars B p q := by
  obtain ⟨own, other, mentioned⟩ := h
  unfold brokenBound at mentioned
  split at mentioned
  · rcases Ty.mem_params_replace mentioned with ⟨mentioned, kept⟩ | ⟨r, _, u, value, left⟩
    · refine ⟨⟨own, other, mentioned⟩, fun onCycle => ?_⟩
      simp [onCycle] at kept
    · split at value
      · cases value
        simp [Ty.params, Ty.parts, Ty.param?] at left
      · cases value
  · next free => exact ⟨⟨own, other, mentioned⟩, fun onCycle => free onCycle.self⟩

theorem acyclic_brokenBound : ¬ TransGen (Depends vars (brokenBound vars B)) p p := by
  intro loop
  obtain ⟨q, first, rest⟩ := TransGen.head'_iff.1 loop
  obtain ⟨depends, apart⟩ := depends_brokenBound first
  rcases reflTransGen_iff_eq_or_transGen.1 rest with rfl | back
  · exact apart ⟨.single depends, .single depends⟩
  · exact apart ⟨.single depends, TransGen.mono (fun _ _ h => (depends_brokenBound h).1) _ _ back⟩

open Classical in
/-- How many parameters are reached from one. -/
noncomputable def reach (vars : List ParamId) (B : ParamId → Ty) (p : ParamId) : Nat :=
  (vars.toFinset.filter fun q => TransGen (Depends vars B) p q).card

theorem reach_lt (acyclic : ∀ p, ¬ TransGen (Depends vars B) p p) (h : Depends vars B p q) :
    reach vars B q < reach vars B p := by
  classical
  apply Finset.card_lt_card
  refine Finset.ssubset_iff_subset_ne.2 ⟨fun r hr => ?_, fun same => ?_⟩
  · obtain ⟨own, path⟩ := Finset.mem_filter.1 hr
    exact Finset.mem_filter.2 ⟨own, .head h path⟩
  · have member : q ∈ vars.toFinset.filter fun r => TransGen (Depends vars B) p r :=
      Finset.mem_filter.2 ⟨List.mem_toFinset.2 h.2.1, .single h⟩
    rw [← same] at member
    exact acyclic q (Finset.mem_filter.1 member).2

theorem reach_lt_card (acyclic : ∀ p, ¬ TransGen (Depends vars B) p p) (own : p ∈ vars) :
    reach vars B p < vars.toFinset.card := by
  classical
  apply Finset.card_lt_card
  refine Finset.ssubset_iff_subset_ne.2 ⟨Finset.filter_subset _ _, fun same => ?_⟩
  have member : p ∈ vars.toFinset := List.mem_toFinset.2 own
  rw [← same] at member
  exact acyclic p (Finset.mem_filter.1 member).2

end Ranks

end Bounds

end MemberAccess
