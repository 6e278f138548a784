import Mathlib.Order.Lattice.Nat
import MemberAccess.Proofs.Typing.Inheritance

/-!
The walk through the supertypes goes breadth first. It comes to each declaration that is above the
first one, the nearest first, and ends even where arguments grow from one supertype to the next,
since only declarations are marked as visited.
-/
namespace MemberAccess.Program

variable {P : Program} {l : Nat} {i j : Instance} {d : TypeDecl} {e s : TypeId}
  {visited : List TypeId} {waiting near far rest found : List Instance}

def InterfaceSupers (P : Program) : Prop :=
  ∀ e d, P.types.get? e = some d → ∀ t ∈ d.supers, (Instance.ofType? t).isSome

instance : Decidable P.InterfaceSupers := by unfold InterfaceSupers; infer_instance

def DirectSuper (P : Program) (d e : TypeId) : Prop :=
  ∃ decl, P.types.get? d = some decl ∧
    ((∃ as, .interface e as ∈ decl.supers) ∨ decl.extendsObject d ∧ e = .object)

inductive Ancestor (P : Program) (s : TypeId) : Nat → TypeId → Prop
  | refl : Ancestor P s 0 s
  | super {n : Nat} {d e : TypeId} : Ancestor P s n d → P.DirectSuper d e → Ancestor P s (n + 1) e

noncomputable def distance (P : Program) (d e : TypeId) : Nat := sInf {n | P.Ancestor d n e}

/-- What a list of supertypes is like that are found breadth first. -/
structure BreadthFirst (P : Program) (i : Instance) (found : List Instance) : Prop where
  first : found.head? = some i
  once : (found.map (·.decl)).Nodup
  all : ∀ e, e ∈ found.map (·.decl) ↔ ∃ n, P.Ancestor i.decl n e
  nearest : found.Pairwise fun j k => P.distance i.decl j.decl ≤ P.distance i.decl k.decl
  parent : ∀ before j after, found = before ++ j :: after → before ≠ [] →
    ∃ k ∈ before, P.Extends k j

section Declarations

theorem DirectSuper.extends (h : P.DirectSuper i.decl e) : ∃ j, P.Extends i j ∧ j.decl = e := by
  obtain ⟨d, hd, ⟨as, declared⟩ | ⟨root, rfl⟩⟩ := h
  · obtain ⟨bs, substituted⟩ : ∃ bs,
        (Ty.interface e as).substitute (d.bindings i.args) = .interface e bs := by
      unfold Ty.substitute
      split
      · exact ⟨as, rfl⟩
      · exact ⟨_, rfl⟩
    exact ⟨⟨e, bs⟩, ⟨d, hd, mem_directSupers.2 (.inl ⟨_, declared, substituted⟩)⟩, rfl⟩
  · exact ⟨⟨.object, []⟩, ⟨d, hd, mem_directSupers.2 (.inr ⟨root, rfl⟩)⟩, rfl⟩

variable (interfaces : P.InterfaceSupers)

include interfaces

theorem directSuper_of_extends (h : P.Extends i j) : P.DirectSuper i.decl j.decl := by
  obtain ⟨d, hd, hj⟩ := h
  refine ⟨d, hd, ?_⟩
  rcases mem_directSupers.1 hj with ⟨t, ht, substituted⟩ | ⟨root, rfl⟩
  · obtain ⟨k, hk⟩ := Option.isSome_iff_exists.1 (interfaces _ d hd t ht)
    obtain rfl := ofType?_eq_some.1 hk
    exact .inl ⟨k.args, substitute_type substituted ▸ ht⟩
  · exact .inr ⟨root, rfl⟩

theorem ancestor_of_reaches (h : P.Reaches i j) : ∃ n, P.Ancestor i.decl n j.decl := by
  induction h with
  | refl => exact ⟨0, .refl⟩
  | tail _ last ih =>
    obtain ⟨n, before⟩ := ih
    exact ⟨n + 1, before.super (directSuper_of_extends interfaces last)⟩

theorem Walk.mem_iff_ancestor (walk : P.Walk [] [i] found) :
    e ∈ found.map (·.decl) ↔ ∃ n, P.Ancestor i.decl n e := by
  obtain ⟨sound, covers, closed⟩ := walk.visits
  constructor
  · intro listed
    obtain ⟨j, hj, rfl⟩ := List.mem_map.1 listed
    exact ancestor_of_reaches interfaces (by simpa using sound j hj)
  · rintro ⟨n, reached⟩
    induction reached with
    | refl => simpa using covers i (by simp)
    | super _ last ih =>
      obtain ⟨k, hk, rfl⟩ := List.mem_map.1 ih
      obtain ⟨j, super, rfl⟩ := last.extends
      simpa using closed k hk j super

end Declarations

/-- What waits is a rest of one level, and then the part of the next one that is known already. -/
structure Frontier (P : Program) (s : TypeId) (l : Nat) (visited : List TypeId)
    (near far : List Instance) : Prop where
  below : ∀ m < l, ∀ e, P.Ancestor s m e → e ∈ visited
  level : ∀ e, P.Ancestor s l e → e ∈ visited ∨ ∃ j ∈ near, j.decl = e
  next : ∀ d ∈ visited, ∀ e, P.DirectSuper d e → e ∈ visited ∨ ∃ j ∈ near ++ far, j.decl = e
  near : ∀ j ∈ near, P.Ancestor s l j.decl
  far : ∀ j ∈ far, P.Ancestor s (l + 1) j.decl

namespace Frontier

theorem start (i : Instance) : P.Frontier i.decl 0 [] [i] [] where
  below _ h := absurd h (Nat.not_lt_zero _)
  level e h := by
    cases h
    exact .inr ⟨i, List.mem_cons_self, rfl⟩
  next := by simp
  near j hj := by
    obtain rfl := List.mem_singleton.1 hj
    exact .refl
  far := by simp

theorem skip (frontier : P.Frontier s l visited near far) :
    P.Frontier s l visited (near.dropWhile (·.decl ∈ visited)) far where
  below := frontier.below
  level e h := by
    rcases frontier.level e h with h | ⟨j, hj, rfl⟩
    · exact .inl h
    · exact (skip_visited visited near j hj).imp_right fun kept => ⟨j, kept, rfl⟩
  next d hd e h := by
    rcases frontier.next d hd e h with h | ⟨j, hj, rfl⟩
    · exact .inl h
    · rcases List.mem_append.1 hj with hj | hj
      · refine (skip_visited visited near j hj).imp_right fun kept => ⟨j, ?_, rfl⟩
        exact List.mem_append_left _ kept
      · exact .inr ⟨j, List.mem_append_right _ hj, rfl⟩
  near j hj := frontier.near j (List.dropWhile_subset _ hj)
  far := frontier.far

theorem advance (frontier : P.Frontier s l visited [] far) :
    P.Frontier s (l + 1) visited far [] where
  below m hm e h := by
    rcases Nat.lt_succ_iff_lt_or_eq.1 hm with hm | rfl
    · exact frontier.below m hm e h
    · simpa using frontier.level e h
  level e h := by
    cases h with
    | @super _ d _ before last =>
      have known : d ∈ visited := by simpa using frontier.level d before
      simpa using frontier.next d known e last
  next := by simpa using frontier.next
  near := frontier.far
  far := by simp

theorem head (frontier : P.Frontier s l visited near far)
    (next : (near ++ far).dropWhile (·.decl ∈ visited) = i :: rest) :
    ∃ l near far, P.Frontier s l visited (i :: near) far ∧ rest = near ++ far := by
  have skipped := frontier.skip
  rw [List.dropWhile_append] at next
  cases left : near.dropWhile (·.decl ∈ visited) with
  | nil =>
    rw [left] at next skipped
    have skipped := skipped.advance.skip
    rw [show far.dropWhile _ = i :: rest from next] at skipped
    exact ⟨l + 1, rest, [], skipped, (List.append_nil rest).symm⟩
  | cons j near =>
    rw [left] at next skipped
    cases next
    exact ⟨l, near, far, skipped, rfl⟩

theorem visit (interfaces : P.InterfaceSupers) (frontier : P.Frontier s l visited (i :: near) far)
    (hd : P.types.get? i.decl = some d) :
    P.Frontier s l (i.decl :: visited) near (far ++ d.directSupers i) where
  below m hm e h := List.mem_cons_of_mem _ (frontier.below m hm e h)
  level e h := by
    rcases frontier.level e h with h | ⟨j, hj, rfl⟩
    · exact .inl (List.mem_cons_of_mem _ h)
    · rcases List.mem_cons.1 hj with rfl | hj
      · exact .inl List.mem_cons_self
      · exact .inr ⟨j, hj, rfl⟩
  next f hf e h := by
    rcases List.mem_cons.1 hf with rfl | hf
    · obtain ⟨j, ⟨d', hd', hj⟩, rfl⟩ := h.extends
      rw [hd] at hd'
      cases hd'
      exact .inr ⟨j, by simp [hj], rfl⟩
    · rcases frontier.next f hf e h with h | ⟨j, hj, rfl⟩
      · exact .inl (List.mem_cons_of_mem _ h)
      · rcases List.mem_cons.1 hj with rfl | hj
        · exact .inl List.mem_cons_self
        · exact .inr ⟨j, by rw [← List.append_assoc]; exact List.mem_append_left _ hj, rfl⟩
  near j hj := frontier.near j (List.mem_cons_of_mem _ hj)
  far j hj := by
    rcases List.mem_append.1 hj with hj | hj
    · exact frontier.far j hj
    · have super : P.DirectSuper i.decl j.decl :=
        directSuper_of_extends interfaces ⟨d, hd, hj⟩
      exact (frontier.near i List.mem_cons_self).super super

end Frontier

theorem Walk.nearest (interfaces : P.InterfaceSupers) (walk : P.Walk visited waiting found)
    (queue : waiting = near ++ far) (frontier : P.Frontier s l visited near far) :
    found.Pairwise fun j k =>
      ∀ n, P.Ancestor s n k.decl → ∃ m ≤ n, P.Ancestor s m j.decl := by
  induction walk generalizing l near far with
  | done _ => exact .nil
  | @step visited waiting rest found i d next hd walk ih =>
    subst queue
    obtain ⟨l, near, far, frontier, rfl⟩ := frontier.head next
    refine List.pairwise_cons.2 ⟨fun j hj n reached => ⟨l, ?_, frontier.near i (by simp)⟩, ?_⟩
    · -- All levels below `l` have been visited, so `j` is not on any of them.
      have unvisited : j.decl ∉ visited := fun visited =>
        walk.distinct.2 j hj (List.mem_cons_of_mem _ visited)
      exact not_lt.1 fun early => unvisited (frontier.below n early _ reached)
    · exact ih (List.append_assoc _ _ _) (frontier.visit interfaces hd)

theorem Walk.parent (walk : P.Walk visited waiting found) :
    ∀ before j after, found = before ++ j :: after →
      j ∈ waiting ∨ ∃ k ∈ before, P.Extends k j := by
  induction walk with
  | done _ => simp
  | @step visited waiting rest found i d next hd _ ih =>
    intro before j after split
    obtain ⟨hi, hrest⟩ := mem_waiting_of_next next
    cases before with
    | nil =>
      cases split
      exact .inl hi
    | cons k before =>
      obtain ⟨rfl, tail⟩ := List.cons.inj split
      rcases ih before j after tail with hj | ⟨k, hk, super⟩
      · rcases List.mem_append.1 hj with hj | hj
        · exact .inl (hrest j hj)
        · exact .inr ⟨i, List.mem_cons_self, d, hd, hj⟩
      · exact .inr ⟨k, List.mem_cons_of_mem _ hk, super⟩

theorem Walk.declared (walk : P.Walk visited waiting found) :
    ∀ j ∈ found, ∃ d, P.types.get? j.decl = some d := by
  induction walk with
  | done _ => simp
  | @step _ _ _ _ _ d _ hd _ ih => exact List.forall_mem_cons.2 ⟨⟨d, hd⟩, ih⟩

theorem Walk.head (walk : P.Walk [] [i] found) : ∃ later, found = i :: later := by
  cases walk with
  | done next => simp at next
  | step next _ _ =>
    obtain ⟨rfl, _⟩ := List.cons.inj (next : [i] = _)
    exact ⟨_, rfl⟩

theorem distance_le {f : TypeId} {n : Nat} (reached : P.Ancestor s n f)
    (sooner : ∀ n, P.Ancestor s n f → ∃ m ≤ n, P.Ancestor s m e) :
    P.distance s e ≤ P.distance s f := by
  obtain ⟨m, small, h⟩ := sooner _ (Nat.sInf_mem (s := {n | P.Ancestor s n f}) ⟨n, reached⟩)
  exact (Nat.sInf_le h).trans small

theorem Walk.breadthFirst (interfaces : P.InterfaceSupers) (walk : P.Walk [] [i] found) :
    P.BreadthFirst i found where
  first := by
    obtain ⟨later, rfl⟩ := walk.head
    rfl
  once := walk.distinct.1
  all _ := walk.mem_iff_ancestor interfaces
  nearest := by
    refine (walk.nearest interfaces rfl (.start i)).imp_of_mem fun _ hk sooner => ?_
    obtain ⟨n, reached⟩ := (walk.mem_iff_ancestor interfaces).1 (List.mem_map_of_mem hk)
    exact distance_le reached sooner
  parent before j after split later := by
    rcases walk.parent before j after split with hj | parent
    · obtain rfl := List.mem_singleton.1 hj
      obtain ⟨rest, start⟩ := walk.head
      obtain ⟨k, before, rfl⟩ := List.exists_cons_of_ne_nil later
      obtain ⟨rfl, _⟩ := List.cons.inj (start.symm.trans split)
      have distinct := walk.distinct.1
      rw [split] at distinct
      simp at distinct
    · exact parent

/-- The supertypes are found breadth first, unless one of them is not declared. -/
theorem supertypes_breadth_first (interfaces : P.InterfaceSupers) (i : Instance) :
    ((∀ n e, P.Ancestor i.decl n e → ∃ d, P.types.get? e = some d) →
      ∃ found, P.supertypes i = .ok found ∧ P.BreadthFirst i found) ∧
    ∀ n e, P.Ancestor i.decl n e → P.types.get? e = none →
      ∃ m f, P.Ancestor i.decl m f ∧ P.types.get? f = none ∧
        P.supertypes i = .error (.outOfRange P.types.size f.val) := by
  refine ⟨fun declared => ?_, fun n e reached undeclared => ?_⟩
  · rcases P.supertypes_cases i with ⟨found, hfound, walk⟩ | ⟨j, reaches, undeclared, _⟩
    · exact ⟨found, hfound, walk.breadthFirst interfaces⟩
    · obtain ⟨n, reached⟩ := ancestor_of_reaches interfaces reaches
      obtain ⟨d, hd⟩ := declared n j.decl reached
      rw [undeclared] at hd
      cases hd
  · rcases P.supertypes_cases i with ⟨found, hfound, walk⟩ | ⟨j, reaches, undeclared, fault⟩
    · obtain ⟨j, hj, rfl⟩ := List.mem_map.1 ((walk.mem_iff_ancestor interfaces).2 ⟨n, reached⟩)
      obtain ⟨d, hd⟩ := walk.declared j hj
      rw [undeclared] at hd
      cases hd
    · obtain ⟨m, reached⟩ := ancestor_of_reaches interfaces reaches
      exact ⟨m, j.decl, reached, undeclared, fault⟩

/-- `A<T> extends A<A<T>>`, `B extends C` and `C extends B, A<B>, D`. -/
def growing : Program :=
  { initial with
    types := .ofList
      [coreClass "Object" [] [],
        coreClass "Null" [] [],
        coreClass "Future" [⟨0⟩] [],
        coreClass "A" [⟨1⟩] [.interface ⟨3⟩ [.interface ⟨3⟩ [.param ⟨1⟩]]],
        coreClass "B" [] [.interface ⟨5⟩ []],
        coreClass "C" [] [.interface ⟨4⟩ [], .interface ⟨3⟩ [.interface ⟨4⟩ []], .interface ⟨6⟩ []],
        coreClass "D" [] []]
    params := .ofList [⟨"T", none⟩, ⟨"T", none⟩] }

theorem growing_ends :
    growing.InterfaceSupers ∧ ∃ found, growing.supertypes ⟨⟨4⟩, []⟩ = .ok found ∧
      found = [⟨⟨4⟩, []⟩, ⟨⟨5⟩, []⟩, ⟨⟨3⟩, [.interface ⟨4⟩ []]⟩, ⟨⟨6⟩, []⟩, ⟨.object, []⟩] ∧
      growing.BreadthFirst ⟨⟨4⟩, []⟩ found := by
  have interfaces : growing.InterfaceSupers := by decide
  have walked : growing.supertypes ⟨⟨4⟩, []⟩ =
      .ok [⟨⟨4⟩, []⟩, ⟨⟨5⟩, []⟩, ⟨⟨3⟩, [.interface ⟨4⟩ []]⟩, ⟨⟨6⟩, []⟩, ⟨.object, []⟩] := by decide
  obtain ⟨whole, dangling⟩ := supertypes_breadth_first interfaces ⟨⟨4⟩, []⟩
  obtain ⟨found, hfound, breadthFirst⟩ := whole fun n e reached => by
    refine Option.ne_none_iff_exists'.1 fun undeclared => ?_
    obtain ⟨_, _, _, _, fault⟩ := dangling n e reached undeclared
    rw [walked] at fault
    cases fault
  refine ⟨interfaces, found, hfound, ?_, breadthFirst⟩
  rw [walked] at hfound
  exact (Except.ok.inj hfound).symm

end MemberAccess.Program
