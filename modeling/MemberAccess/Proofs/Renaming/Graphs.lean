import Mathlib.Data.List.Basic
import Mathlib.Data.Set.Function
import MemberAccess.Graph.Cycles

/-!
Graphs whose nodes are renamed. Nodes are told apart by their positions only, so the cycles of a
renamed graph are the renamed cycles.
-/
namespace MemberAccess.Graph

variable {α β : Type} [DecidableEq α] [DecidableEq β] {g : Graph α} {f : α → β} {nodes xs : List α}
  {a : α} {cycle : List α}

def rename (f : α → β) (g : Graph α) : Graph β := g.map fun node => (f node.1, node.2.map f)

def Within (nodes : List α) (g : Graph α) : Prop := ∀ node ∈ g, node.1 ∈ nodes ∧ node.2 ⊆ nodes

theorem idxOf?_map (injective : Set.InjOn f {x | x ∈ nodes}) (hxs : xs ⊆ nodes) (ha : a ∈ nodes) :
    (xs.map f).idxOf? (f a) = xs.idxOf? a := by
  induction xs with
  | nil => rfl
  | cons x xs ih =>
    obtain ⟨hx, hxs⟩ := List.cons_subset.1 hxs
    have same : (f x == f a) = (x == a) := by
      rw [Bool.eq_iff_iff, beq_iff_eq, beq_iff_eq, injective.eq_iff hx ha]
    rw [List.map_cons, List.idxOf?_cons, List.idxOf?_cons, same, ih hxs]

section

variable (injective : Set.InjOn f {x | x ∈ nodes}) (within : g.Within nodes)

include injective within

theorem position?_rename (ha : a ∈ nodes) : (g.rename f).position? (f a) = g.position? a := by
  have names : (g.rename f).map (·.1) = (g.map (·.1)).map f := by
    simp only [rename, List.map_map, Function.comp_def]
  have subset : (g.map (·.1)).reverse ⊆ nodes := by
    intro x hx
    obtain ⟨node, member, rfl⟩ := List.mem_map.1 (List.mem_reverse.1 hx)
    exact (within node member).1
  have length : (g.rename f).length = g.length := List.length_map _
  rw [position?, position?, names, ← List.map_reverse, idxOf?_map injective subset ha, length]

theorem targets_rename : (g.rename f).targets = g.targets := by
  rw [targets, targets]
  conv_lhs => arg 2; rw [rename]
  rw [List.map_map]
  apply List.map_congr_left
  intro node member
  rw [Function.comp_apply, List.filterMap_map]
  apply List.filterMap_congr
  intro a ha
  exact position?_rename injective within ((within node member).2 ha)

theorem isCyclic_rename : (g.rename f).isCyclic = g.isCyclic := by
  have loops (p : Nat) : ((g.rename f)[p]?.any fun node => node.1 ∈ node.2) =
      g[p]?.any fun node => node.1 ∈ node.2 := by
    rw [rename, List.getElem?_map, Option.any_map]
    cases found : g[p]? with
    | none => rfl
    | some node =>
      obtain ⟨hnode, hnext⟩ := within node (List.mem_of_getElem? found)
      simp only [Option.any_some, decide_eq_decide]
      constructor
      · intro h
        obtain ⟨other, hother, same⟩ := List.mem_map.1 h
        exact injective (hnext hother) hnode same ▸ hother
      · exact List.mem_map_of_mem
  funext component
  simp only [isCyclic, loops]

theorem cycles_rename : (g.rename f).cycles = g.cycles.map (List.map f) := by
  have positions : (g.rename f).cyclePositions = g.cyclePositions := by
    rw [cyclePositions, cyclePositions, targets_rename injective within,
      isCyclic_rename injective within]
  rw [cycles, cycles, positions, List.map_map]
  apply List.map_congr_left
  intro cycle _
  rw [Function.comp_apply, List.map_filterMap]
  apply List.filterMap_congr
  intro q _
  simp only [rename, List.getElem?_map, Option.map_map, Function.comp_def]

end

theorem mem_of_mem_cycles (within : g.Within nodes) (hcycle : cycle ∈ g.cycles) :
    cycle ⊆ nodes := by
  intro a ha
  obtain ⟨_, _, rfl⟩ := List.mem_map.1 hcycle
  obtain ⟨q, _, named⟩ := List.mem_filterMap.1 ha
  obtain ⟨found, member, rfl⟩ := Option.map_eq_some_iff.1 named
  exact (within found (List.mem_of_getElem? member)).1

end MemberAccess.Graph
