import MemberAccess.Graph.Cycles
import MemberAccess.Proofs.Graph.Search

/-!
Edges between the positions of a graph, which are the edges that the search for its components
follows.
-/
namespace MemberAccess.Graph

open Relation

variable {α : Type} [DecidableEq α] {g : Graph α} {p q : Nat} {a : α}

def Edge (g : Graph α) (p q : Nat) : Prop :=
  ∃ node, g[p]? = some node ∧ ∃ a ∈ node.2, g.position? a = some q

section Positions

theorem position?_eq_some (h : g.position? a = some q) : ∃ next, g[q]? = some (a, next) := by
  rw [position?, Option.map_eq_some_iff] at h
  obtain ⟨back, found, rfl⟩ := h
  rw [List.idxOf?, List.findIdx?_eq_some_iff_getElem] at found
  obtain ⟨inRange, same, _⟩ := found
  have less : back < g.length := by simpa using inRange
  have named : (g.map (·.1))[g.length - 1 - back]? = some a := by
    have reversed : (g.map (·.1)).reverse[back]? = some a := by
      rw [List.getElem?_eq_getElem inRange]
      simpa using same
    rw [List.getElem?_reverse (by simpa using less)] at reversed
    simpa using reversed
  rw [List.getElem?_map, Option.map_eq_some_iff] at named
  obtain ⟨⟨_, next⟩, found, rfl⟩ := named
  exact ⟨next, found⟩

theorem exists_position (h : a ∈ g.map (·.1)) : ∃ q, g.position? a = some q := by
  have found : ((g.map (·.1)).reverse.idxOf? a).isSome := by
    rw [List.isSome_idxOf?]
    exact List.mem_reverse.2 h
  obtain ⟨back, found⟩ := Option.isSome_iff_exists.1 found
  exact ⟨_, by rw [position?, found]; rfl⟩

theorem Edge.lt_length (h : g.Edge p q) : p < g.length ∧ q < g.length := by
  obtain ⟨node, source, a, _, target⟩ := h
  obtain ⟨next, target⟩ := position?_eq_some target
  exact ⟨(List.getElem?_eq_some_iff.1 source).1, (List.getElem?_eq_some_iff.1 target).1⟩

end Positions

section Targets

theorem edge_targets : Search.Edge g.targets = g.Edge := by
  funext p q
  rw [Search.Edge, Edge, targets, List.getD_eq_getElem?_getD, List.getElem?_map]
  cases g[p]? with
  | none => simp
  | some node => simp [List.mem_filterMap]

@[simp] theorem length_targets : g.targets.length = g.length := List.length_map _

theorem reaches_targets_iff :
    Search.Reaches g.targets p q ↔ q = p ∨ TransGen g.Edge p q := by
  rw [Search.Reaches, edge_targets, reflTransGen_iff_eq_or_transGen]

theorem lt_length_of_edge_targets (h : Search.Edge g.targets p q) : q < g.targets.length := by
  rw [edge_targets] at h
  simpa using h.lt_length.2

theorem components_targets (g : Graph α) :
    (∀ c ∈ (Search.all g.targets).components,
      Search.IsComponent g.targets c ∧ ∀ p ∈ c, p < g.length) ∧
    ∀ p < g.length, ∃ c ∈ (Search.all g.targets).components, p ∈ c := by
  obtain ⟨components, _, all⟩ := Search.components_all fun p q h => g.lt_length_of_edge_targets h
  rw [length_targets] at components all
  exact ⟨components, all⟩

end Targets

end MemberAccess.Graph
