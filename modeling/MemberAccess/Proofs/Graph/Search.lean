import Mathlib.Data.List.Nodup
import Mathlib.Data.List.Perm.Subperm
import Mathlib.Logic.Relation
import MemberAccess.Graph.Search

/-!
Correctness of the depth-first search. Some positions form a path: they are being searched, and lead
to all that has come to the stack after them. What is on the stack leads back to the path, so that a
position without edges to earlier ones ends its component. Components are complete when they leave
the stack, since no edge leads out of them but into other ones.
-/
namespace MemberAccess.Search

open Relation

variable {targets : List (List Nat)} {path qs extra above below c : List Nat}
  {s s₁ s₂ : Search} {p q r low low₁ low₂ fuel : Nat}

def Edge (targets : List (List Nat)) (p q : Nat) : Prop := q ∈ targets.getD p []

abbrev Reaches (targets : List (List Nat)) : Nat → Nat → Prop := ReflTransGen (Edge targets)

def Visited (s : Search) (p : Nat) : Prop := p ∈ s.indices.map (·.1)

def Done (s : Search) (p : Nat) : Prop := ∃ c ∈ s.components, p ∈ c

def index (s : Search) (p : Nat) : Nat := (s.index? p).getD 0

structure IsComponent (targets : List (List Nat)) (c : List Nat) : Prop where
  nonempty : c ≠ []
  nodup : c.Nodup
  mem_iff : ∀ p ∈ c, ∀ q, q ∈ c ↔ Reaches targets p q ∧ Reaches targets q p

/-- What holds of the state while the positions of a path are being searched. -/
structure Inv (targets : List (List Nat)) (path : List Nat) (s : Search) : Prop where
  distinct : (s.indices.map (·.1)).Nodup
  inRange : ∀ p, s.Visited p → p < targets.length
  index_lt : ∀ p, s.Visited p → s.index p < s.indices.length
  nodup : s.stack.Nodup
  visited_iff : ∀ p, s.Visited p ↔ p ∈ s.stack ∨ s.Done p
  apart : ∀ p ∈ s.stack, ¬ s.Done p
  stacked : path ⊆ s.stack
  searched : ∀ p q, s.Visited p → p ∉ path → Edge targets p q → s.Visited q
  closed : ∀ p q, s.Done p → Edge targets p q → s.Done q
  components : ∀ c ∈ s.components, IsComponent targets c
  disjoint : s.components.Pairwise List.Disjoint
  /-- The path leads to what has come to the stack later. -/
  down : ∀ x ∈ path, ∀ p ∈ s.stack, s.index x ≤ s.index p → Reaches targets x p
  /-- What is on the stack leads to what has come to the path before. -/
  up : ∀ p ∈ s.stack, ∃ x ∈ path, s.index x ≤ s.index p ∧ Reaches targets p x

/-- A later state, with more positions on the stack. -/
structure Extends (s s₁ : Search) (extra : List Nat) : Prop where
  stack : s₁.stack = extra ++ s.stack
  length_le : s.indices.length ≤ s₁.indices.length
  visited : ∀ p, s.Visited p → s₁.Visited p
  index_eq : ∀ p, s.Visited p → s₁.index p = s.index p
  fresh : ∀ p ∈ extra, s.indices.length ≤ s₁.index p

section Steps

theorem index?_eq_none : s.index? p = none ↔ ¬ s.Visited p := by
  simp only [index?, Visited, List.lookup_eq_none_iff, List.mem_map]
  grind

theorem index?_eq_some (h : s.Visited p) : s.index? p = some (s.index p) := by
  have found : s.index? p ≠ none := fun none => index?_eq_none.1 none h
  obtain ⟨i, hi⟩ := Option.ne_none_iff_exists'.1 found
  rw [index, hi]
  rfl

@[simp] theorem visited_enter : (s.enter p).Visited q ↔ q = p ∨ s.Visited q := by
  simp [Visited, enter]

@[simp] theorem index_enter_self : (s.enter p).index p = s.indices.length := by
  simp [index, index?, enter]

theorem index_enter (new : ¬ s.Visited p) (h : s.Visited q) : (s.enter p).index q = s.index q := by
  have other : (q == p) = false := beq_eq_false_iff_ne.2 fun same => new (same ▸ h)
  simp only [index, index?, enter, List.lookup_cons, other]

@[simp] theorem stack_enter : (s.enter p).stack = p :: s.stack := rfl

@[simp] theorem length_enter : (s.enter p).indices.length = s.indices.length + 1 := rfl

@[simp] theorem done_enter : (s.enter p).Done q ↔ s.Done q := Iff.rfl

theorem leave_eq (stack : s.stack = above ++ p :: below) (fresh : p ∉ above) :
    s.leave p = { s with stack := below, components := (above ++ [p]) :: s.components } := by
  have pass : ∀ q ∈ above, decide (q ≠ p) = true := by
    intro q hq
    simpa using fun same : q = p => fresh (same ▸ hq)
  rw [leave, stack, List.takeWhile_append_of_pos pass, List.dropWhile_append_of_pos pass]
  simp

end Steps

theorem Inv.visited_of_mem (inv : Inv targets path s) (h : p ∈ s.stack) : s.Visited p :=
  (inv.visited_iff p).2 (.inl h)

theorem Inv.done_of_reaches (inv : Inv targets path s) (done : s.Done p)
    (reaches : Reaches targets p q) : s.Done q := by
  induction reaches with
  | refl => exact done
  | tail _ edge ih => exact inv.closed _ _ ih edge

theorem Inv.enter (inv : Inv targets path s) (hp : p < targets.length) (new : ¬ s.Visited p)
    (reached : ∀ x ∈ path, Reaches targets x p) : Inv targets (p :: path) (s.enter p) where
  distinct := List.nodup_cons.2 ⟨new, inv.distinct⟩
  inRange q hq := by
    rcases visited_enter.1 hq with rfl | hq
    · exact hp
    · exact inv.inRange q hq
  index_lt q hq := by
    rcases visited_enter.1 hq with rfl | hq
    · simp
    · rw [index_enter new hq, length_enter]
      exact Nat.lt_succ_of_lt (inv.index_lt q hq)
  nodup := List.nodup_cons.2 ⟨fun h => new (inv.visited_of_mem h), inv.nodup⟩
  visited_iff q := by simp [inv.visited_iff, or_assoc]
  apart q hq done := by
    rcases List.mem_cons.1 hq with rfl | hq
    · exact new ((inv.visited_iff q).2 (.inr done))
    · exact inv.apart q hq done
  stacked := List.cons_subset_cons p inv.stacked
  searched q r hq notPath edge := by
    obtain ⟨other, notPath⟩ := not_or.1 (mt List.mem_cons.2 notPath)
    have visited := (visited_enter.1 hq).resolve_left other
    exact visited_enter.2 (.inr (inv.searched q r visited notPath edge))
  closed := inv.closed
  components := inv.components
  disjoint := inv.disjoint
  down x hx q hq le := by
    rcases List.mem_cons.1 hx with rfl | onPath <;> rcases List.mem_cons.1 hq with rfl | onStack
    · exact .refl
    · -- What was on the stack before has a smaller index.
      have visited := inv.visited_of_mem onStack
      rw [index_enter_self, index_enter new visited] at le
      exact absurd (inv.index_lt q visited) (Nat.not_lt.2 le)
    · exact reached x onPath
    · rw [index_enter new (inv.visited_of_mem (inv.stacked onPath)),
        index_enter new (inv.visited_of_mem onStack)] at le
      exact inv.down x onPath q onStack le
  up q hq := by
    rcases List.mem_cons.1 hq with rfl | hq
    · exact ⟨q, List.mem_cons_self, Nat.le_refl _, .refl⟩
    · obtain ⟨x, hx, le, reaches⟩ := inv.up q hq
      refine ⟨x, List.mem_cons_of_mem _ hx, ?_, reaches⟩
      rwa [index_enter new (inv.visited_of_mem (inv.stacked hx)),
        index_enter new (inv.visited_of_mem hq)]

theorem extends_enter (new : ¬ s.Visited p) : Extends s (s.enter p) [p] where
  stack := rfl
  length_le := Nat.le_succ _
  visited _ h := visited_enter.2 (.inr h)
  index_eq _ h := index_enter new h
  fresh := by simp

theorem Extends.refl : Extends s s [] where
  stack := rfl
  length_le := Nat.le_refl _
  visited _ h := h
  index_eq _ _ := rfl
  fresh := by simp

theorem Extends.mem_of_extra (later : Extends s s₁ extra) (h : p ∈ extra) : p ∈ s₁.stack :=
  later.stack ▸ List.mem_append_left _ h

theorem Extends.mem_of_mem (later : Extends s s₁ extra) (h : p ∈ s.stack) : p ∈ s₁.stack :=
  later.stack ▸ List.mem_append_right _ h

theorem Extends.disjoint (later : Extends s s₁ extra) (inv₁ : Inv targets path s₁) :
    extra.Disjoint s.stack :=
  List.disjoint_of_nodup_append (later.stack ▸ inv₁.nodup)

theorem Extends.trans (first : Extends s s₁ above) (second : Extends s₁ s₂ extra)
    (inv : Inv targets path s₁) : Extends s s₂ (extra ++ above) where
  stack := by rw [second.stack, first.stack, List.append_assoc]
  length_le := Nat.le_trans first.length_le second.length_le
  visited p h := second.visited p (first.visited p h)
  index_eq p h := (second.index_eq p (first.visited p h)).trans (first.index_eq p h)
  fresh p hp := by
    rcases List.mem_append.1 hp with hp | hp
    · exact Nat.le_trans first.length_le (second.fresh p hp)
    · rw [second.index_eq p (inv.visited_of_mem (first.mem_of_extra hp))]
      exact first.fresh p hp

/-- What following edges to some positions does, from a state and a low link to later ones. -/
structure Follows (targets : List (List Nat)) (path qs : List Nat) (low : Nat) (s : Search)
    (low₁ : Nat) (s₁ : Search) (extra : List Nat) : Prop where
  inv : Inv targets path s₁
  later : Extends s s₁ extra
  low_le : low₁ ≤ low
  /-- The low link is the index of a position on the stack that is reached. -/
  back : low₁ = low ∨ ∃ z ∈ s.stack, s.index z = low₁ ∧ ∃ q ∈ qs, Reaches targets q z
  /-- No edge from what came to the stack leads back further than the low link. -/
  crossing : ∀ q ∈ extra, ∀ r ∈ s.stack, Edge targets q r → low₁ ≤ s.index r
  stacked : ∀ q ∈ qs, q ∈ s.stack → low₁ ≤ s.index q
  visited : ∀ q ∈ qs, s₁.Visited q

theorem Follows.nil (inv : Inv targets path s) : Follows targets path [] low s low s [] where
  inv := inv
  later := .refl
  low_le := Nat.le_refl _
  back := .inl rfl
  crossing := by simp
  stacked := by simp
  visited := by simp

theorem Follows.cons (inv : Inv targets path s) (bound : low < s.indices.length)
    (first : Follows targets path [q] low s low₁ s₁ above)
    (rest : Follows targets path qs low₁ s₁ low₂ s₂ extra) :
    Follows targets path (q :: qs) low s low₂ s₂ (extra ++ above) where
  inv := rest.inv
  later := first.later.trans rest.later first.inv
  low_le := Nat.le_trans rest.low_le first.low_le
  back := by
    rcases rest.back with same | ⟨z, hz, index, r, hr, reaches⟩
    · rcases first.back with unchanged | ⟨z, hz, index, r, hr, reaches⟩
      · exact .inl (same.trans unchanged)
      · obtain rfl := List.mem_singleton.1 hr
        exact .inr ⟨z, hz, index.trans same.symm, r, List.mem_cons_self, reaches⟩
    · rw [first.later.stack] at hz
      rcases List.mem_append.1 hz with hz | hz
      · -- What came to the stack later has an index above all low links.
        have later := first.later.fresh z hz
        have small := Nat.le_trans rest.low_le first.low_le
        omega
      · rw [first.later.index_eq z (inv.visited_of_mem hz)] at index
        exact .inr ⟨z, hz, index, r, List.mem_cons_of_mem _ hr, reaches⟩
  crossing p hp r hr edge := by
    rcases List.mem_append.1 hp with hp | hp
    · rw [← first.later.index_eq r (inv.visited_of_mem hr)]
      exact rest.crossing p hp r (first.later.mem_of_mem hr) edge
    · exact Nat.le_trans rest.low_le (first.crossing p hp r hr edge)
  stacked p hp onStack := by
    rcases List.mem_cons.1 hp with rfl | hp
    · exact Nat.le_trans rest.low_le (first.stacked p (by simp) onStack)
    · rw [← first.later.index_eq p (inv.visited_of_mem onStack)]
      exact rest.stacked p hp (first.later.mem_of_mem onStack)
  visited p hp := by
    rcases List.mem_cons.1 hp with rfl | hp
    · exact rest.later.visited p (first.visited p (by simp))
    · exact rest.visited p hp

/-- What the search from a new position does. -/
structure Connects (targets : List (List Nat)) (path : List Nat) (p : Nat) (s : Search)
    (low : Nat) (s₁ : Search) (extra : List Nat) : Prop where
  inv : Inv targets path s₁
  later : Extends s s₁ extra
  back : low = s.indices.length ∨ ∃ z ∈ s.stack, s.index z = low ∧ Reaches targets p z
  crossing : ∀ q ∈ extra, ∀ r ∈ s.stack, Edge targets q r → low ≤ s.index r
  visited : s₁.Visited p

def Searches (targets : List (List Nat)) (path : List Nat) (length : Nat)
    (connect : Nat → Search → Nat × Search) : Prop :=
  ∀ p s, Inv targets path s → length ≤ s.indices.length → p < targets.length → ¬ s.Visited p →
    (∀ x ∈ path, Reaches targets x p) →
      ∃ extra, Connects targets path p s (connect p s).1 (connect p s).2 extra

section Follow

variable {connect : Nat → Search → Nat × Search} {length : Nat}

theorem follow_spec (searches : Searches targets path length connect) (inv : Inv targets path s)
    (progress : length ≤ s.indices.length) (bound : low < s.indices.length)
    (hq : q < targets.length) (reached : ∀ x ∈ path, Reaches targets x q) :
    ∃ extra, Follows targets path [q] low s (follow connect (low, s) q).1
      (follow connect (low, s) q).2 extra := by
  by_cases visited : s.Visited q
  · refine ⟨[], ?_⟩
    by_cases onStack : q ∈ s.stack
    · simp only [follow, index?_eq_some visited, onStack, if_true]
      refine ⟨inv, .refl, Nat.min_le_left _ _, ?_, by simp, ?_, ?_⟩
      · rcases Nat.le_total low (s.index q) with le | le
        · exact .inl (Nat.min_eq_left le)
        · exact .inr ⟨q, onStack, (Nat.min_eq_right le).symm, q, by simp, .refl⟩
      · intro r hr _
        obtain rfl := List.mem_singleton.1 hr
        exact Nat.min_le_right _ _
      · simpa using visited
    · simp only [follow, index?_eq_some visited, onStack, if_false]
      refine ⟨inv, .refl, Nat.le_refl _, .inl rfl, by simp, ?_, by simpa using visited⟩
      intro r hr stacked
      obtain rfl := List.mem_singleton.1 hr
      exact absurd stacked onStack
  · obtain ⟨extra, spec⟩ := searches q s inv progress hq visited reached
    refine ⟨extra, ?_⟩
    simp only [follow, index?_eq_none.2 visited]
    refine ⟨spec.inv, spec.later, Nat.min_le_left _ _, ?_, ?_, ?_, by simpa using spec.visited⟩
    · rcases Nat.le_total low (connect q s).1 with le | le
      · exact .inl (Nat.min_eq_left le)
      · rw [Nat.min_eq_right le]
        rcases spec.back with own | ⟨z, hz, index, reaches⟩
        · omega
        · exact .inr ⟨z, hz, index, q, by simp, reaches⟩
    · intro p hp r hr edge
      exact Nat.le_trans (Nat.min_le_right _ _) (spec.crossing p hp r hr edge)
    · intro r hr stacked
      obtain rfl := List.mem_singleton.1 hr
      exact absurd (inv.visited_of_mem stacked) visited

theorem foldl_follow_spec (searches : Searches targets path length connect)
    (inv : Inv targets path s) (progress : length ≤ s.indices.length)
    (bound : low < s.indices.length) (inRange : ∀ q ∈ qs, q < targets.length)
    (reached : ∀ q ∈ qs, ∀ x ∈ path, Reaches targets x q) :
    ∃ extra, Follows targets path qs low s (qs.foldl (follow connect) (low, s)).1
      (qs.foldl (follow connect) (low, s)).2 extra := by
  induction qs generalizing s low with
  | nil => exact ⟨[], .nil inv⟩
  | cons q qs ih =>
    obtain ⟨above, first⟩ := follow_spec searches inv progress bound (inRange q (by simp))
      (reached q (by simp))
    have grown := first.later.length_le
    obtain ⟨extra, rest⟩ := ih first.inv (Nat.le_trans progress grown)
      (Nat.lt_of_le_of_lt first.low_le (Nat.lt_of_lt_of_le bound grown))
      (fun q hq => inRange q (by simp [hq])) (fun q hq => reached q (by simp [hq]))
    exact ⟨extra ++ above, first.cons inv bound rest⟩

end Follow

section Finish

/-! The end of the search from a position, once the edges from it have been followed. -/

variable (inv : Inv targets path s) (inv₁ : Inv targets (p :: path) s₁)
  (later : Extends s s₁ (extra ++ [p])) (followed : ∀ r, Edge targets p r → s₁.Visited r)

include inv₁ followed in
theorem searched_of_followed (hq : s₁.Visited q) (notPath : q ∉ path)
    (edge : Edge targets q r) : s₁.Visited r := by
  by_cases same : q = p
  · exact followed r (same ▸ edge)
  · exact inv₁.searched q r hq (by simp [same, notPath]) edge

include inv inv₁ later followed

theorem Inv.of_back {z : Nat} (hz : z ∈ s.stack) (reaches : Reaches targets p z) :
    Inv targets path s₁ :=
  { inv₁ with
    stacked := List.subset_of_cons_subset inv₁.stacked
    searched := fun _ _ => searched_of_followed inv₁ followed
    down := fun x hx => inv₁.down x (List.mem_cons_of_mem _ hx)
    up := by
      intro q hq
      obtain ⟨x, hx, le, toPath⟩ := inv₁.up q hq
      rcases List.mem_cons.1 hx with rfl | hx
      · obtain ⟨y, hy, below, further⟩ := inv.up z hz
        have own := later.index_eq y (inv.visited_of_mem (inv.stacked hy))
        have small := inv.index_lt z (inv.visited_of_mem hz)
        have large := later.fresh x (by simp)
        exact ⟨y, hy, by omega, (toPath.trans reaches).trans further⟩
      · exact ⟨x, hx, le, toPath⟩ }

section NoWayBack

variable (noWayBack : ∀ q ∈ extra ++ [p], ∀ r ∈ s.stack, ¬ Edge targets q r)
  (first : s₁.index p ≤ s.indices.length)

include noWayBack

theorem stays_step (hq : q ∈ extra ++ [p]) (edge : Edge targets q r) :
    r ∈ extra ++ [p] ∨ s₁.Done r := by
  have before := inv₁.visited_of_mem (later.mem_of_extra hq)
  have notPath : q ∉ path := fun h => later.disjoint inv₁ hq (inv.stacked h)
  have visited := searched_of_followed inv₁ followed before notPath edge
  refine ((inv₁.visited_iff r).1 visited).imp_left fun stacked => ?_
  rw [later.stack] at stacked
  exact (List.mem_append.1 stacked).resolve_right fun h => noWayBack q hq r h edge

theorem stays (hq : q ∈ extra ++ [p]) (reaches : Reaches targets q r) :
    r ∈ extra ++ [p] ∨ s₁.Done r := by
  induction reaches with
  | refl => exact .inl hq
  | tail _ edge ih =>
    rcases ih with inside | done
    · exact stays_step inv inv₁ later followed noWayBack inside edge
    · exact .inr (inv₁.closed _ _ done edge)

theorem reaches_first (hq : q ∈ extra ++ [p]) : Reaches targets q p := by
  obtain ⟨x, hx, _, reaches⟩ := inv₁.up q (later.mem_of_extra hq)
  rcases List.mem_cons.1 hx with rfl | onPath
  · exact reaches
  · -- The rest of the path is below, and from here nothing below is reached.
    have below := inv.stacked onPath
    rcases stays inv inv₁ later followed noWayBack hq reaches with inside | done
    · exact absurd below (later.disjoint inv₁ inside)
    · exact absurd done (inv₁.apart x (later.mem_of_mem below))

include first

theorem isComponent : IsComponent targets (extra ++ [p]) := by
  have toFirst {q : Nat} (hq : q ∈ extra ++ [p]) : Reaches targets q p :=
    reaches_first inv inv₁ later followed noWayBack hq
  have fromFirst {q : Nat} (hq : q ∈ extra ++ [p]) : Reaches targets p q :=
    inv₁.down p List.mem_cons_self q (later.mem_of_extra hq)
      (Nat.le_trans first (later.fresh q hq))
  refine ⟨by simp, (List.nodup_append.1 (later.stack ▸ inv₁.nodup)).1, ?_⟩
  intro q hq r
  constructor
  · intro hr
    exact ⟨(toFirst hq).trans (fromFirst hr), (toFirst hr).trans (fromFirst hq)⟩
  · rintro ⟨there, back⟩
    refine (stays inv inv₁ later followed noWayBack hq there).resolve_right fun done => ?_
    exact inv₁.apart q (later.mem_of_extra hq) (inv₁.done_of_reaches done back)

theorem leave_spec : Inv targets path (s₁.leave p) ∧ Extends s (s₁.leave p) [] := by
  have stack : s₁.stack = extra ++ p :: s.stack := by simp [later.stack]
  have nodup := stack ▸ inv₁.nodup
  have fresh : p ∉ extra := fun h => (List.disjoint_of_nodup_append nodup) h (by simp)
  have searched {q r : Nat} (hq : s₁.Visited q) (notPath : q ∉ path) (edge : Edge targets q r) :=
    searched_of_followed inv₁ followed hq notPath edge
  rw [leave_eq stack fresh]
  set left : Search := { s₁ with stack := s.stack, components := (extra ++ [p]) :: s₁.components }
  have done (q : Nat) : left.Done q ↔ q ∈ extra ++ [p] ∨ s₁.Done q := by simp [left, Done]
  constructor
  · exact
    { distinct := inv₁.distinct
      inRange := inv₁.inRange
      index_lt := inv₁.index_lt
      nodup := inv.nodup
      visited_iff := by
        intro q
        have old := inv₁.visited_iff q
        rw [later.stack, List.mem_append, or_comm (a := q ∈ extra ++ [p]), or_assoc] at old
        rw [done]
        exact old
      apart := by
        intro q hq h
        rcases (done q).1 h with inside | before
        · exact later.disjoint inv₁ inside hq
        · exact inv₁.apart q (later.mem_of_mem hq) before
      stacked := inv.stacked
      searched := by
        intro q r hq notPath edge
        exact searched hq notPath edge
      closed := by
        intro q r h edge
        rcases (done q).1 h with inside | before
        · exact (done r).2 (stays_step inv inv₁ later followed noWayBack inside edge)
        · exact (done r).2 (.inr (inv₁.closed q r before edge))
      components := List.forall_mem_cons.2
        ⟨isComponent inv inv₁ later followed noWayBack first, inv₁.components⟩
      disjoint := by
        refine List.pairwise_cons.2 ⟨fun c hc q inside hq => ?_, inv₁.disjoint⟩
        exact inv₁.apart q (later.mem_of_extra inside) ⟨c, hc, hq⟩
      down := by
        intro x hx q hq le
        exact inv₁.down x (List.mem_cons_of_mem _ hx) q (later.mem_of_mem hq) le
      up := by
        intro q hq
        obtain ⟨x, hx, le, reaches⟩ := inv.up q hq
        refine ⟨x, hx, ?_, reaches⟩
        change s₁.index x ≤ s₁.index q
        rwa [later.index_eq x (inv.visited_of_mem (inv.stacked hx)),
          later.index_eq q (inv.visited_of_mem hq)] }
  · exact ⟨rfl, later.length_le, later.visited, later.index_eq, by simp⟩

end NoWayBack

end Finish

/-- Once all edges from a new position have been followed, its low link tells whether it is the
    first of its component. -/
theorem connects_of_follows (inv : Inv targets path s) (new : ¬ s.Visited p)
    (entered : Inv targets (p :: path) (s.enter p))
    (spec : Follows targets (p :: path) (targets.getD p []) s.indices.length (s.enter p)
      low s₁ extra) :
    ∃ extra, Connects targets path p s low
      (if low = s.indices.length then s₁.leave p else s₁) extra := by
  have later := (extends_enter new).trans spec.later entered
  have visited : s₁.Visited p := spec.later.visited p (visited_enter.2 (.inl rfl))
  have crossing : ∀ q ∈ extra ++ [p], ∀ r ∈ s.stack, Edge targets q r → low ≤ s.index r := by
    intro q hq r hr edge
    rw [← index_enter new (inv.visited_of_mem hr)]
    rcases List.mem_append.1 hq with hq | hq
    · exact spec.crossing q hq r (List.mem_cons_of_mem p hr) edge
    · obtain rfl := List.mem_singleton.1 hq
      exact spec.stacked r edge (List.mem_cons_of_mem _ hr)
  split
  · next root =>
    have noWayBack : ∀ q ∈ extra ++ [p], ∀ r ∈ s.stack, ¬ Edge targets q r := by
      intro q hq r hr edge
      have small := inv.index_lt r (inv.visited_of_mem hr)
      have := crossing q hq r hr edge
      omega
    have first : s₁.index p ≤ s.indices.length :=
      Nat.le_of_eq ((spec.later.index_eq p (visited_enter.2 (.inl rfl))).trans index_enter_self)
    obtain ⟨left, final⟩ := leave_spec inv spec.inv later spec.visited noWayBack first
    exact ⟨[], left, final, .inl root, by simp, visited⟩
  · next notRoot =>
    obtain ⟨z, hz, index, q, hq, reaches⟩ := spec.back.resolve_left notRoot
    have hz : z ∈ s.stack := by
      refine (List.mem_cons.1 hz).resolve_left ?_
      rintro rfl
      exact notRoot (index.symm.trans index_enter_self)
    have reaches : Reaches targets p z := .head hq reaches
    rw [index_enter new (inv.visited_of_mem hz)] at index
    exact ⟨extra ++ [p], inv.of_back spec.inv later spec.visited hz reaches, later,
      .inr ⟨z, hz, index, reaches⟩, crossing, visited⟩

theorem Inv.length_lt (inv : Inv targets path s) (hp : p < targets.length) (new : ¬ s.Visited p) :
    s.indices.length < targets.length := by
  have nodup : (p :: s.indices.map (·.1)).Nodup := List.nodup_cons.2 ⟨new, inv.distinct⟩
  have subset : p :: s.indices.map (·.1) ⊆ List.range targets.length := by
    intro q hq
    rw [List.mem_range]
    rcases List.mem_cons.1 hq with rfl | hq
    · exact hp
    · exact inv.inRange q hq
  simpa [Nat.succ_le_iff] using (nodup.subperm subset).length_le

section Search

variable (valid : ∀ p q, Edge targets p q → q < targets.length)

include valid

/-- The fuel is enough for the positions that the search has not come to. -/
theorem connect_spec {length : Nat} (enough : targets.length ≤ fuel + length) :
    Searches targets path length (connect targets fuel) := by
  induction fuel generalizing path length with
  | zero =>
    intro p s inv progress hp new _
    have := inv.length_lt hp new
    omega
  | succ fuel ih =>
    intro p s inv progress hp new reached
    have entered := inv.enter hp new reached
    have inner : Searches targets (p :: path) (s.indices.length + 1) (connect targets fuel) :=
      ih (by omega)
    have toTargets : ∀ q ∈ targets.getD p [], ∀ x ∈ p :: path, Reaches targets x q := by
      intro q hq x hx
      rcases List.mem_cons.1 hx with rfl | hx
      · exact .single hq
      · exact (reached x hx).tail hq
    obtain ⟨extra, spec⟩ := foldl_follow_spec inner entered (Nat.le_refl _)
      (Nat.lt_succ_self s.indices.length) (valid p) toTargets
    exact connects_of_follows inv new entered spec

theorem visit_spec (inv : Inv targets [] s) (hp : p < targets.length) :
    Inv targets [] (visit targets s p) ∧ (visit targets s p).Visited p ∧
      ∀ q, s.Visited q → (visit targets s p).Visited q := by
  rw [visit]
  by_cases visited : s.Visited p
  · simpa [index?_eq_some visited] using ⟨inv, visited⟩
  · simp only [index?_eq_none.2 visited, Option.isSome_none, Bool.false_eq_true, if_false]
    obtain ⟨_, spec⟩ := connect_spec valid (Nat.le_refl _) p s inv (Nat.zero_le _) hp visited nofun
    exact ⟨spec.inv, spec.visited, spec.later.visited⟩

theorem foldl_visit_spec (inv : Inv targets [] s) (inRange : ∀ q ∈ qs, q < targets.length) :
    Inv targets [] (qs.foldl (visit targets) s) ∧
      ∀ q, s.Visited q ∨ q ∈ qs → (qs.foldl (visit targets) s).Visited q := by
  induction qs generalizing s with
  | nil => simpa using inv
  | cons q qs ih =>
    obtain ⟨next, own, kept⟩ := visit_spec valid inv (inRange q (by simp))
    obtain ⟨final, all⟩ := ih next fun q hq => inRange q (by simp [hq])
    refine ⟨final, fun r hr => all r ?_⟩
    rcases hr with before | hr
    · exact .inl (kept r before)
    · rcases List.mem_cons.1 hr with rfl | hr
      · exact .inl own
      · exact .inr hr

omit valid in
theorem inv_initial : Inv targets [] {} := by
  constructor <;> simp [Visited, Done]

theorem components_all :
    (∀ c ∈ (all targets).components, IsComponent targets c ∧ ∀ p ∈ c, p < targets.length) ∧
    (all targets).components.Pairwise List.Disjoint ∧
    ∀ p < targets.length, ∃ c ∈ (all targets).components, p ∈ c := by
  obtain ⟨inv, visited⟩ := foldl_visit_spec valid inv_initial fun p => List.mem_range.1
  refine ⟨fun c hc => ⟨inv.components c hc, fun p hp => ?_⟩, inv.disjoint, fun p hp => ?_⟩
  · exact inv.inRange p ((inv.visited_iff p).2 (.inr ⟨c, hc, hp⟩))
  · rcases (inv.visited_iff p).1 (visited p (.inr (List.mem_range.2 hp))) with stacked | done
    · -- Nothing is left on the stack once the path has come to its end.
      obtain ⟨x, hx, _⟩ := inv.up p stacked
      cases hx
    · exact done

end Search

end MemberAccess.Search
