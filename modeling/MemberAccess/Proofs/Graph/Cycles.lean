import Mathlib.Data.List.Nodup
import Mathlib.Data.List.Range
import MemberAccess.Proofs.Graph.Components

/-!
The cycles of a graph with distinct nodes. They are the classes of nodes that reach each other, each
of them once, in the order of the graph.
-/
namespace MemberAccess.Graph

open Relation

variable {α : Type} [DecidableEq α] {g : Graph α} {ps : List Nat} {p q : Nat} {a b : α}
  {c c' xs : List α}

/-- Whether two nodes reach each other by at least one step. -/
def Mutual (g : Graph α) (a b : α) : Prop := TransGen g.Leads a b ∧ TransGen g.Leads b a

omit [DecidableEq α] in
theorem Uniform.of_nodup (distinct : (g.map (·.1)).Nodup) : g.Uniform := by
  intro a xs ys first second
  have same := List.inj_on_of_nodup_map distinct first second rfl
  exact (Prod.mk.inj same).2

omit [DecidableEq α] in
theorem position_unique (distinct : (g.map (·.1)).Nodup) {xs ys : List α}
    (hp : g[p]? = some (a, xs)) (hq : g[q]? = some (a, ys)) : p = q := by
  have inRange : p < (g.map (·.1)).length := by
    rw [List.length_map]
    exact (List.getElem?_eq_some_iff.1 hp).1
  refine (List.getElem?_inj inRange distinct).1 ?_
  rw [List.getElem?_map, List.getElem?_map, hp, hq]
  rfl

theorem cycle_unique (distinct : (g.map (·.1)).Nodup) (hc : c ∈ g.cycles) (hc' : c' ∈ g.cycles)
    (ha : a ∈ c) (ha' : a ∈ c') : c = c' := by
  obtain ⟨p, _, _, _, _, rfl⟩ := mem_cycles.1 hc
  obtain ⟨p', _, _, _, _, rfl⟩ := mem_cycles.1 hc'
  obtain ⟨q, hq, _, found⟩ := exists_mem_component ha
  obtain ⟨q', hq', _, found'⟩ := exists_mem_component ha'
  obtain rfl := position_unique distinct found found'
  rw [← component_eq (mem_component.1 hq).2, ← component_eq (mem_component.1 hq').2]

theorem mem_cycle_iff (distinct : (g.map (·.1)).Nodup) (hc : c ∈ g.cycles) (ha : a ∈ c) :
    b ∈ c ↔ g.Mutual a b := by
  constructor
  · intro hb
    exact ⟨leads_of_mem_cycles hc ha hb, leads_of_mem_cycles hc hb ha⟩
  · rintro ⟨there, back⟩
    obtain ⟨c', hc', ha', hb'⟩ := exists_mem_cycles (.of_nodup distinct) there back
    exact cycle_unique distinct hc hc' ha ha' ▸ hb'

omit [DecidableEq α] in
theorem names_sublist (sublist : ps.Sublist (List.range g.length)) :
    (ps.filterMap fun q => g[q]?.map (·.1)).Sublist (g.map (·.1)) := by
  have all : ((List.range g.length).filterMap fun q => g[q]?.map (·.1)) = g.map (·.1) := by
    clear sublist
    induction g with
    | nil => rfl
    | cons node g ih =>
      simp only [List.length_cons, List.range_succ_eq_map, List.filterMap_cons, List.filterMap_map,
        Function.comp_def, Nat.succ_eq_add_one, List.getElem?_cons_succ, List.map_cons, ih,
        List.getElem?_cons_zero, Option.map_some]
  exact all ▸ sublist.filterMap _

theorem head?_of_first (first : (g.component p).head? = some p) (found : g[p]? = some (a, xs)) :
    ((g.component p).filterMap fun q => g[q]?.map (·.1)).head? = some a := by
  obtain ⟨rest, members⟩ := List.head?_eq_some_iff.1 first
  simp [members, found]

theorem firsts_sublist : (g.cyclePositions.map (·.headD 0)).Sublist (List.range g.length) := by
  have increasing : (g.cyclePositions.map (·.headD 0)).Pairwise (· < ·) :=
    List.pairwise_map.2 pairwise_cyclePositions
  have subset : g.cyclePositions.map (·.headD 0) ⊆ List.range g.length := by
    intro q hq
    obtain ⟨ps, hps, rfl⟩ := List.mem_map.1 hq
    obtain ⟨p, node, found, first, _, rfl⟩ := mem_cyclePositions.1 hps
    rw [List.headD_eq_head?_getD, first, List.mem_range]
    exact (List.getElem?_eq_some_iff.1 found).1
  exact List.sublist_of_subperm_of_pairwise (increasing.nodup.subperm subset)
    increasing List.pairwise_lt_range

theorem heads_sublist : (g.cycles.filterMap (·.head?)).Sublist (g.map (·.1)) := by
  have heads : g.cycles.filterMap (·.head?) =
      (g.cyclePositions.map (·.headD 0)).filterMap fun q => g[q]?.map (·.1) := by
    rw [cycles, List.filterMap_map, List.filterMap_map]
    apply List.filterMap_congr
    intro ps hps
    obtain ⟨p, ⟨a, xs⟩, found, first, _, rfl⟩ := mem_cyclePositions.1 hps
    simp [head?_of_first first found, List.headD_eq_head?_getD, first, found]
  exact heads ▸ names_sublist firsts_sublist

theorem cycles_correct (distinct : (g.map (·.1)).Nodup) :
    (∀ c ∈ g.cycles, ∃ a, g.Mutual a a ∧ ∀ b, b ∈ c ↔ g.Mutual a b) ∧
    (∀ a, g.Mutual a a → ∃ c ∈ g.cycles, ∀ b, b ∈ c ↔ g.Mutual a b) ∧
    g.cycles.Pairwise List.Disjoint ∧
    (∀ c ∈ g.cycles, c.Sublist (g.map (·.1))) ∧
    (g.cycles.filterMap (·.head?)).Sublist (g.map (·.1)) := by
  refine ⟨?_, ?_, ?_, ?_, heads_sublist⟩
  · intro c hc
    obtain ⟨p, ⟨a, xs⟩, found, first, _, rfl⟩ := mem_cycles.1 hc
    have ha := List.mem_of_head? (head?_of_first first found)
    have own (b : α) := mem_cycle_iff (b := b) distinct hc ha
    exact ⟨a, (own a).1 ha, own⟩
  · rintro a ⟨there, back⟩
    obtain ⟨c, hc, ha, _⟩ := exists_mem_cycles (.of_nodup distinct) there back
    exact ⟨c, hc, fun b => mem_cycle_iff distinct hc ha⟩
  · have firsts := List.pairwise_filterMap.1 (heads_sublist.nodup distinct)
    refine firsts.imp_of_mem ?_
    intro c c' hc hc' different a ha ha'
    obtain rfl := cycle_unique distinct hc hc' ha ha'
    obtain ⟨p, ⟨b, xs⟩, found, first, _, rfl⟩ := mem_cycles.1 hc
    have head := head?_of_first first found
    exact different b head b head rfl
  · intro c hc
    obtain ⟨p, _, _, _, _, rfl⟩ := mem_cycles.1 hc
    exact names_sublist component_sublist

/-- Two nodes that lead to each other, one of them twice, and a node that leads to itself and to
    what is no node. -/
def mixed : Graph Char := [('a', ['b']), ('b', ['c', 'c']), ('c', ['b']), ('x', ['x', 'z'])]

theorem mixed_cycles : mixed.cycles = [['b', 'c'], ['x']] ∧ mixed.Mutual 'b' 'c' ∧
    mixed.Mutual 'x' 'x' ∧ ¬ mixed.Mutual 'a' 'a' := by
  have cycles : mixed.cycles = [['b', 'c'], ['x']] := by decide
  obtain ⟨sound, complete, _⟩ := cycles_correct (g := mixed) (by decide)
  rw [cycles] at sound complete
  refine ⟨cycles, ?_, ?_, ?_⟩
  · obtain ⟨a, _, own⟩ := sound ['b', 'c'] (by simp)
    have b := (own 'b').1 (by simp)
    have c := (own 'c').1 (by simp)
    exact ⟨b.2.trans c.1, c.2.trans b.1⟩
  · obtain ⟨a, _, own⟩ := sound ['x'] (by simp)
    have x := (own 'x').1 (by simp)
    exact ⟨x.2.trans x.1, x.2.trans x.1⟩
  · intro around
    obtain ⟨c, hc, own⟩ := complete 'a' around
    have member : 'a' ∈ c := (own 'a').2 around
    simp only [List.mem_cons, List.not_mem_nil, or_false] at hc
    rcases hc with rfl | rfl <;> simp at member

end MemberAccess.Graph
