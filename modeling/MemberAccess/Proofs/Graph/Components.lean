import Mathlib.Data.List.Sort
import MemberAccess.Proofs.Graph.Edges
import MemberAccess.Proofs.Sorted

/-!
Cycles as strongly connected components. Two nodes are on one cycle if and only if they reach each
other, as long as a node that is listed repeatedly has the same successors everywhere.
-/
namespace MemberAccess.Graph

open Relation

variable {α : Type} [DecidableEq α] {g : Graph α} {ps : List Nat} {p q r x : Nat} {a b : α}
  {c : List α}

def Leads (g : Graph α) (a b : α) : Prop :=
  (∃ next, (a, next) ∈ g ∧ b ∈ next) ∧ b ∈ g.map (·.1)

def Uniform (g : Graph α) : Prop := ∀ a xs ys, (a, xs) ∈ g → (a, ys) ∈ g → xs = ys

def Together (g : Graph α) (p q : Nat) : Prop :=
  q = p ∨ TransGen g.Edge p q ∧ TransGen g.Edge q p

theorem Together.symm (h : g.Together p q) : g.Together q p := by
  rcases h with rfl | ⟨there, back⟩
  · exact .inl rfl
  · exact .inr ⟨back, there⟩

theorem Together.trans (first : g.Together p q) (second : g.Together q r) : g.Together p r := by
  rcases first with rfl | ⟨there, back⟩
  · exact second
  · rcases second with rfl | ⟨further, again⟩
    · exact .inr ⟨there, back⟩
    · exact .inr ⟨there.trans further, again.trans back⟩

open Classical in
noncomputable def component (g : Graph α) (p : Nat) : List Nat :=
  (List.range g.length).filter fun q => g.Together p q

theorem mem_component : q ∈ g.component p ↔ q < g.length ∧ g.Together p q := by
  simp [component]

theorem component_sublist : (g.component p).Sublist (List.range g.length) := List.filter_sublist

theorem pairwise_component : (g.component p).Pairwise (· < ·) :=
  List.pairwise_lt_range.sublist component_sublist

theorem component_eq (h : g.Together p q) : g.component q = g.component p :=
  List.filter_congr fun _ _ => decide_eq_decide.2 ⟨h.trans, h.symm.trans⟩

theorem together_iff_reaches :
    g.Together p q ↔ Search.Reaches g.targets p q ∧ Search.Reaches g.targets q p := by
  rw [reaches_targets_iff, reaches_targets_iff, Together, eq_comm (a := p)]
  tauto

section Searched

variable (found : ps ∈ (Search.all g.targets).components)

include found

theorem mem_iff_mem_component (hp : p ∈ ps) : q ∈ ps ↔ q ∈ g.component p := by
  obtain ⟨component, inRange⟩ := (components_targets g).1 ps found
  rw [mem_component, together_iff_reaches, ← component.mem_iff p hp q]
  exact ⟨fun hq => ⟨inRange q hq, hq⟩, And.right⟩

theorem perm_component (hp : p ∈ ps) : ps.Perm (g.component p) :=
  (List.perm_ext_iff_of_nodup ((components_targets g).1 ps found).1.nodup
    (List.nodup_range.sublist component_sublist)).2 fun _ => mem_iff_mem_component found hp

theorem sorted_component (hp : p ∈ ps) : Sorted.insertAll compare ps [] = g.component p := by
  have increasing : (Sorted.insertAll compare ps []).Pairwise (· < ·) :=
    Sorted.pairwise_insertAll (f := id) .nil
  refine increasing.eq_of_mem_iff pairwise_component fun q => ?_
  rw [← mem_iff_mem_component found hp, Sorted.mem_insertAll_iff]
  · simp
  · intro x _ y _ same
    exact Nat.compare_eq_eq.1 same

theorem isCyclic_iff {node : α × List α} (hp : p ∈ ps) (node_eq : g[p]? = some node) :
    g.isCyclic ps ↔ 1 < (g.component p).length ∨ node.1 ∈ node.2 := by
  have length := (perm_component found hp).length_eq
  rw [isCyclic, Bool.or_eq_true, decide_eq_true_eq, length]
  refine or_congr_right' fun notSeveral => ?_
  have positive := List.length_pos_of_mem hp
  obtain ⟨x, rfl⟩ := List.length_eq_one_iff.1 (by omega : ps.length = 1)
  obtain rfl := List.mem_singleton.1 hp
  simp [node_eq]

theorem exists_first : ∃ p ∈ ps, p < g.length ∧ Sorted.insertAll compare ps [] = g.component p ∧
    (g.component p).head? = some p := by
  obtain ⟨x, hx⟩ := List.exists_mem_of_ne_nil ps ((components_targets g).1 ps found).1.nonempty
  have own : x ∈ g.component x := (mem_iff_mem_component found hx).1 hx
  obtain ⟨p, first⟩ : ∃ p, (g.component x).head? = some p :=
    ⟨_, List.head?_eq_some_head (List.ne_nil_of_mem own)⟩
  have member := List.mem_of_head? first
  have hp := (mem_iff_mem_component found hx).2 member
  have same : g.component p = g.component x := component_eq (mem_component.1 member).2
  exact ⟨p, hp, (mem_component.1 member).1, sorted_component found hp, same ▸ first⟩

end Searched

theorem mem_cyclePositions : ps ∈ g.cyclePositions ↔ ∃ p node, g[p]? = some node ∧
    (g.component p).head? = some p ∧ (1 < (g.component p).length ∨ node.1 ∈ node.2) ∧
    ps = g.component p := by
  rw [cyclePositions, Sorted.mem_insertAll_iff]
  · simp only [List.mem_map, List.mem_filter, List.not_mem_nil, or_false]
    constructor
    · rintro ⟨qs, ⟨found, cyclic⟩, rfl⟩
      obtain ⟨p, hp, inRange, sorted, first⟩ := exists_first found
      have node_eq := List.getElem?_eq_getElem inRange
      exact ⟨p, g[p], node_eq, first, (isCyclic_iff found hp node_eq).1 cyclic, sorted⟩
    · rintro ⟨p, node, node_eq, _, edge, rfl⟩
      have inRange := (List.getElem?_eq_some_iff.1 node_eq).1
      obtain ⟨qs, found, hp⟩ := (components_targets g).2 p inRange
      exact ⟨qs, ⟨found, (isCyclic_iff found hp node_eq).2 edge⟩, sorted_component found hp⟩
  · -- Cycles that start with the same position are the same component.
    simp only [List.mem_map, List.mem_filter, List.not_mem_nil, or_false]
    rintro _ ⟨qs, ⟨found, _⟩, rfl⟩ _ ⟨rs, ⟨found', _⟩, rfl⟩ same
    obtain ⟨p, _, _, sorted, first⟩ := exists_first found
    obtain ⟨p', _, _, sorted', first'⟩ := exists_first found'
    have heads : p = p' := by
      simpa [sorted, sorted', List.headD_eq_head?_getD, first, first'] using
        Nat.compare_eq_eq.1 same
    rw [sorted, sorted', heads]

theorem pairwise_cyclePositions :
    g.cyclePositions.Pairwise fun ps qs => ps.headD 0 < qs.headD 0 :=
  Sorted.pairwise_insertAll .nil

theorem mem_cycles : c ∈ g.cycles ↔ ∃ p node, g[p]? = some node ∧
    (g.component p).head? = some p ∧ (1 < (g.component p).length ∨ node.1 ∈ node.2) ∧
    c = (g.component p).filterMap fun q => g[q]?.map (·.1) := by
  simp only [cycles, List.mem_map, mem_cyclePositions]
  constructor
  · rintro ⟨_, ⟨p, node, found, first, edge, rfl⟩, rfl⟩
    exact ⟨p, node, found, first, edge, rfl⟩
  · rintro ⟨p, node, found, first, edge, rfl⟩
    exact ⟨_, ⟨p, node, found, first, edge, rfl⟩, rfl⟩

section Nodes

theorem Edge.leads (h : g.Edge p q) : ∃ a xs b ys, g[p]? = some (a, xs) ∧ g[q]? = some (b, ys) ∧
    g.Leads a b := by
  obtain ⟨⟨a, xs⟩, source, b, successor, target⟩ := h
  obtain ⟨ys, target⟩ := position?_eq_some target
  refine ⟨a, xs, b, ys, source, target, ⟨xs, List.mem_of_getElem? source, successor⟩, ?_⟩
  exact List.mem_map_of_mem (List.mem_of_getElem? target)

theorem leads_of_transGen {xs ys : List α} (h : TransGen g.Edge p q) (hp : g[p]? = some (a, xs))
    (hq : g[q]? = some (b, ys)) : TransGen g.Leads a b := by
  induction h generalizing b ys with
  | single edge =>
    obtain ⟨_, _, _, _, source, target, leads⟩ := edge.leads
    rw [hp] at source
    rw [hq] at target
    cases source
    cases target
    exact .single leads
  | tail _ edge ih =>
    obtain ⟨_, _, _, _, source, target, leads⟩ := edge.leads
    rw [hq] at target
    cases target
    exact (ih source).tail leads

omit [DecidableEq α] in
theorem exists_mem_component {members : List Nat}
    (ha : a ∈ members.filterMap fun q => g[q]?.map (·.1)) :
    ∃ q ∈ members, ∃ xs, g[q]? = some (a, xs) := by
  obtain ⟨q, hq, named⟩ := List.mem_filterMap.1 ha
  obtain ⟨⟨_, xs⟩, found, rfl⟩ := Option.map_eq_some_iff.1 named
  exact ⟨q, hq, xs, found⟩

theorem transGen_of_several (several : 1 < (g.component p).length)
    (hq : q ∈ g.component p) : TransGen g.Edge q q := by
  have other : ∃ x ∈ g.component p, x ≠ q := by
    have distinct : (g.component p).Nodup := pairwise_component.imp Nat.ne_of_lt
    rcases members : g.component p with _ | ⟨x, _ | ⟨y, rest⟩⟩
    · simp [members] at several
    · simp [members] at several
    · have different : x ≠ y := by
        rw [members] at distinct
        exact fun same => (List.nodup_cons.1 distinct).1 (same ▸ List.mem_cons_self)
      by_cases same : x = q
      · exact ⟨y, by simp, fun h => different (same.trans h.symm)⟩
      · exact ⟨x, by simp, same⟩
  obtain ⟨x, hx, different⟩ := other
  have together : g.Together q x := (mem_component.1 hq).2.symm.trans (mem_component.1 hx).2
  obtain ⟨there, back⟩ := together.resolve_left different
  exact there.trans back

theorem edge_of_alone (alone : ∀ x ∈ g.component p, x = p) (loop : TransGen g.Edge p p) :
    g.Edge p p := by
  obtain ⟨x, edge, rest⟩ := TransGen.head'_iff.1 loop
  rcases reflTransGen_iff_eq_or_transGen.1 rest with rfl | back
  · exact edge
  · have member : x ∈ g.component p :=
      mem_component.2 ⟨edge.lt_length.2, .inr ⟨.single edge, back⟩⟩
    obtain rfl := alone x member
    exact edge

theorem Edge.loop {xs : List α} (h : g.Edge p p) (found : g[p]? = some (a, xs)) : a ∈ xs := by
  obtain ⟨node, source, b, successor, target⟩ := h
  obtain ⟨ys, target⟩ := position?_eq_some target
  rw [found] at source target
  cases source
  cases target
  exact successor

theorem leads_of_mem_cycles (hc : c ∈ g.cycles) (ha : a ∈ c) (hb : b ∈ c) :
    TransGen g.Leads a b := by
  obtain ⟨p, node, hp, first, edge, rfl⟩ := mem_cycles.1 hc
  obtain ⟨q, hq, xs, foundA⟩ := exists_mem_component ha
  obtain ⟨r, hr, ys, foundB⟩ := exists_mem_component hb
  have together : g.Together q r := (mem_component.1 hq).2.symm.trans (mem_component.1 hr).2
  rcases together with rfl | ⟨there, _⟩
  · by_cases several : 1 < (g.component p).length
    · exact leads_of_transGen (transGen_of_several several hq) foundA foundB
    · have loop := edge.resolve_left several
      have single : g.component p = [p] := by
        cases members : g.component p with
        | nil => simp [members] at first
        | cons x rest => simp_all
      obtain rfl : r = p := by simpa [single] using hq
      rw [foundA] at hp foundB
      cases hp
      cases foundB
      have listed := List.mem_of_getElem? foundA
      exact .single ⟨⟨xs, listed, loop⟩, List.mem_map_of_mem listed⟩
  · exact leads_of_transGen there foundA foundB

theorem Leads.edge (uniform : g.Uniform) (h : g.Leads a b) (hp : g.position? a = some p)
    (hq : g.position? b = some q) : g.Edge p q := by
  obtain ⟨⟨xs, listed, successor⟩, _⟩ := h
  obtain ⟨ys, found⟩ := position?_eq_some hp
  obtain rfl := uniform a xs ys listed (List.mem_of_getElem? found)
  exact ⟨_, found, b, successor, hq⟩

theorem transGen_of_leads (uniform : g.Uniform) (h : TransGen g.Leads a b)
    (hp : g.position? a = some p) (hq : g.position? b = some q) : TransGen g.Edge p q := by
  induction h generalizing q with
  | single leads => exact .single (leads.edge uniform hp hq)
  | tail before leads ih =>
    obtain ⟨xs, listed, _⟩ := leads.1
    obtain ⟨r, hr⟩ := exists_position (List.mem_map_of_mem (f := (·.1)) listed)
    exact (ih hr).tail (leads.edge uniform hr hq)

theorem exists_position_of_leads (h : TransGen g.Leads a b) : ∃ q, g.position? b = some q := by
  cases h with
  | single leads => exact exists_position leads.2
  | tail _ leads => exact exists_position leads.2

theorem exists_mem_cycles (uniform : g.Uniform) (there : TransGen g.Leads a b)
    (back : TransGen g.Leads b a) : ∃ c ∈ g.cycles, a ∈ c ∧ b ∈ c := by
  obtain ⟨p, hp⟩ := exists_position_of_leads back
  obtain ⟨q, hq⟩ := exists_position_of_leads there
  have forth : TransGen g.Edge p q := transGen_of_leads uniform there hp hq
  have around : TransGen g.Edge q p := transGen_of_leads uniform back hq hp
  obtain ⟨xs, foundA⟩ := position?_eq_some hp
  obtain ⟨ys, foundB⟩ := position?_eq_some hq
  have memberP : p ∈ g.component p :=
    mem_component.2 ⟨(List.getElem?_eq_some_iff.1 foundA).1, .inl rfl⟩
  have memberQ : q ∈ g.component p :=
    mem_component.2 ⟨(List.getElem?_eq_some_iff.1 foundB).1, .inr ⟨forth, around⟩⟩
  obtain ⟨r, rest, members⟩ := List.exists_cons_of_ne_nil (List.ne_nil_of_mem memberP)
  obtain ⟨inRange, toFirst⟩ := mem_component.1 (members ▸ List.mem_cons_self (l := rest))
  have same : g.component r = g.component p := component_eq toFirst
  refine ⟨_, mem_cycles.2 ⟨r, g[r], List.getElem?_eq_getElem inRange, ?_, ?_, rfl⟩, ?_, ?_⟩
  · rw [same, members, List.head?_cons]
  · rw [same]
    by_cases several : 1 < (g.component p).length
    · exact .inl several
    · have alone (x : Nat) (hx : x ∈ g.component p) : x = r := by
        simp_all
      obtain rfl := alone p memberP
      exact .inr ((edge_of_alone alone (forth.trans around)).loop (List.getElem?_eq_getElem _))
  · rw [same]
    exact List.mem_filterMap.2 ⟨p, memberP, by rw [foundA]; rfl⟩
  · rw [same]
    exact List.mem_filterMap.2 ⟨q, memberQ, by rw [foundB]; rfl⟩

end Nodes

end MemberAccess.Graph
