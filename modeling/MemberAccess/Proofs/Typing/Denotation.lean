import MemberAccess.Program.Core
import MemberAccess.Proofs.Outcomes
import MemberAccess.Typing.Denotation
import MemberAccess.Typing.Supertypes

/-!
What context types denote. The walk to the declaration that a context type denotes and the walk to
the arguments of the declaration lead to the same interface type, through the same layers around
it. The walk to the arguments gives up one layer earlier.
-/
namespace MemberAccess.Program

/-- The first type is the second one in a layer that both walks pass. -/
inductive Layer (P : Program) : Ty → Ty → Prop
  | nullable : Layer P (.nullable t) t
  | futureOr : Layer P (.futureOr t) t
  | promoted : Layer P (.promoted p t) t
  | param : P.params.get? p = some q → q.bound = some t → Layer P (.param p) t

/-- A context type is an interface type in so many layers. -/
inductive Wraps (P : Program) : Nat → Ty → Instance → Prop
  | here : Wraps P 0 (.interface d as) ⟨d, as⟩
  | layer : P.Layer t u → Wraps P n u i → Wraps P (n + 1) t i

variable {P : Program} {n m limit : Nat} {t u v : Ty} {i j : Instance} {d target : TypeId}
  {as : List Ty}

theorem Layer.unique (first : P.Layer t u) (second : P.Layer t v) : u = v := by
  cases first with
  | nullable | futureOr | promoted =>
    cases second
    rfl
  | param found bound =>
    cases second with
    | param found' bound' =>
      rw [found] at found'
      cases found'
      rw [bound] at bound'
      exact Option.some.inj bound'

theorem Wraps.unique (first : P.Wraps n t i) (second : P.Wraps m t j) : n = m ∧ i = j := by
  induction first generalizing m with
  | here =>
    cases second with
    | here => exact ⟨rfl, rfl⟩
    | layer outer => cases outer
  | layer outer inner ih =>
    cases second with
    | here => cases outer
    | layer outer' inner' =>
      cases outer.unique outer'
      obtain ⟨depth, same⟩ := ih inner'
      exact ⟨congrArg Nat.succ depth, same⟩

/-- Both walks, up to what they do with the interface type that they find. -/
def unwrap (P : Program) : Nat → Ty → Except Fault (Option Instance)
  | 0, _ => pure none
  | n + 1, t =>
    match t with
    | .interface d as => pure (some ⟨d, as⟩)
    | .nullable t | .futureOr t | .promoted _ t => P.unwrap n t
    | .param p => do
      match (← P.params.fetch p).bound with
      | some bound => P.unwrap n bound
      | none => pure none
    | _ => pure none

theorem denote_eq_unwrap : P.denote n t = (P.unwrap n t).map (Option.map Instance.decl) := by
  induction n generalizing t with
  | zero => rfl
  | succ n ih =>
    cases t with
    | nullable | futureOr | promoted => exact ih
    | param p =>
      rw [denote, unwrap]
      cases P.params.fetch p with
      | error fault => rfl
      | ok q =>
        rw [ok_bind, ok_bind]
        cases q.bound with
        | none => rfl
        | some bound => exact ih
    | _ => rfl

def Instance.argsOf? (target : TypeId) (i : Instance) : Option (List Ty) :=
  if i.decl = target then some i.args else none

theorem denotedArgs_eq_unwrap :
    P.denotedArgs? target n t = (P.unwrap n t).map (·.bind (Instance.argsOf? target)) := by
  induction n generalizing t with
  | zero => rfl
  | succ n ih =>
    cases t with
    | nullable | futureOr | promoted => exact ih
    | param p =>
      rw [denotedArgs?, unwrap]
      cases P.params.fetch p with
      | error fault => rfl
      | ok q =>
        rw [ok_bind, ok_bind]
        cases q.bound with
        | none => rfl
        | some bound => exact ih
    | _ => rfl

theorem unwrap_layer (h : P.Layer t u) : P.unwrap (n + 1) t = P.unwrap n u := by
  cases h with
  | nullable | futureOr | promoted => rfl
  | param found bound => rw [unwrap, Table.fetch_eq_ok.2 found, ok_bind, bound]

theorem unwrap_succ (h : P.unwrap (n + 1) t = .ok (some i)) :
    t = i.type ∨ ∃ u, P.Layer t u ∧ P.unwrap n u = .ok (some i) := by
  cases t with
  | interface d as =>
    cases h
    exact .inl rfl
  | nullable u => exact .inr ⟨u, .nullable, h⟩
  | futureOr u => exact .inr ⟨u, .futureOr, h⟩
  | promoted p u => exact .inr ⟨u, .promoted, h⟩
  | param p =>
    rw [unwrap, bind_eq_ok] at h
    obtain ⟨q, found, h⟩ := h
    cases bound : q.bound with
    | none => simp [bound] at h
    | some u =>
      rw [bound] at h
      exact .inr ⟨u, .param (Table.fetch_eq_ok.1 found) bound, h⟩
  | _ => cases h

theorem unwrap_eq_some : P.unwrap n t = .ok (some i) ↔ ∃ k < n, P.Wraps k t i := by
  induction n generalizing t with
  | zero => simp [unwrap]
  | succ n ih =>
    constructor
    · intro h
      rcases unwrap_succ h with rfl | ⟨u, outer, inner⟩
      · exact ⟨0, by omega, .here⟩
      · obtain ⟨k, small, wraps⟩ := ih.1 inner
        exact ⟨k + 1, by omega, .layer outer wraps⟩
    · intro h
      obtain ⟨k, small, wraps⟩ := h
      cases wraps with
      | here => rfl
      | layer outer inner =>
        rw [unwrap_layer outer]
        exact ih.2 ⟨_, by omega, inner⟩

theorem denoted_eq_some : P.denoted limit t = .ok (some d) ↔
    ∃ k ≤ limit, ∃ as, P.Wraps k t ⟨d, as⟩ := by
  rw [denoted, denote_eq_unwrap, except_map_eq_ok]
  constructor
  · intro h
    obtain ⟨found, unwrapped, same⟩ := h
    obtain ⟨i, rfl, rfl⟩ := Option.map_eq_some_iff.1 same
    obtain ⟨k, small, wraps⟩ := unwrap_eq_some.1 unwrapped
    exact ⟨k, by omega, i.args, wraps⟩
  · intro h
    obtain ⟨k, small, as, wraps⟩ := h
    exact ⟨some ⟨d, as⟩, unwrap_eq_some.2 ⟨k, by omega, wraps⟩, rfl⟩

theorem denotedArgs_eq_some : P.denotedArgs? target n t = .ok (some as) ↔
    ∃ k < n, P.Wraps k t ⟨target, as⟩ := by
  rw [denotedArgs_eq_unwrap, except_map_eq_ok]
  constructor
  · intro h
    obtain ⟨found, unwrapped, same⟩ := h
    obtain ⟨i, rfl, args⟩ := Option.bind_eq_some_iff.1 same
    obtain ⟨rfl, rfl⟩ : i.decl = target ∧ i.args = as := by simpa [Instance.argsOf?] using args
    exact unwrap_eq_some.1 unwrapped
  · intro h
    exact ⟨some ⟨target, as⟩, unwrap_eq_some.2 h, by simp [Instance.argsOf?]⟩

/-- The arguments that a context type denotes are those of the one interface type in it, which is an
    instance of the declaration that the context type denotes. They are found just where the
    declaration is, apart from interface types in as many layers as the limit allows. -/
theorem denotedArgs_iff (P : Program) (limit : Nat) (t : Ty) (target : TypeId) :
    (∀ as, P.denotedArgs? target limit t = .ok (some as) ↔
      ∃ k < limit, P.Wraps k t ⟨target, as⟩ ∧
        ∀ m i, P.Wraps m t i → m = k ∧ i = ⟨target, as⟩) ∧
    (P.denoted limit t = .ok (some target) ↔
      ∃ as, P.denotedArgs? target (limit + 1) t = .ok (some as)) ∧
    ((∃ as, P.denotedArgs? target limit t = .ok (some as)) ↔
      P.denoted limit t = .ok (some target) ∧ ¬ ∃ i, P.Wraps limit t i) := by
  refine ⟨fun as => ?_, ?_, ?_⟩
  · rw [denotedArgs_eq_some]
    refine exists_congr fun k => and_congr_right fun _ => ?_
    exact ⟨fun wraps => ⟨wraps, fun m i other => other.unique wraps⟩, And.left⟩
  · simp only [denoted_eq_some, denotedArgs_eq_some, Nat.lt_succ_iff]
    exact ⟨fun ⟨k, small, as, wraps⟩ => ⟨as, k, small, wraps⟩,
      fun ⟨as, k, small, wraps⟩ => ⟨k, small, as, wraps⟩⟩
  · simp only [denoted_eq_some, denotedArgs_eq_some]
    constructor
    · intro h
      obtain ⟨as, k, small, wraps⟩ := h
      refine ⟨⟨k, by omega, as, wraps⟩, ?_⟩
      intro deeper
      obtain ⟨i, deep⟩ := deeper
      have depth := (deep.unique wraps).1
      omega
    · intro h
      obtain ⟨⟨k, small, as, wraps⟩, shallow⟩ := h
      have different : k ≠ limit := by
        intro same
        exact shallow ⟨_, same ▸ wraps⟩
      exact ⟨as, k, by omega, wraps⟩

theorem optionalList_without_arguments :
    let int : Ty := .interface ⟨5⟩ []
    let list : Ty := .nullable (.interface ⟨10⟩ [int])
    core.denoted 1 list = .ok (some ⟨10⟩) ∧ core.denotedArgs? ⟨10⟩ 2 list = .ok (some [int]) ∧
      ¬ ∃ as, core.denotedArgs? ⟨10⟩ 1 list = .ok (some as) := by
  intro int list
  have wraps : core.Wraps 1 list ⟨⟨10⟩, [int]⟩ := .layer .nullable .here
  have walks := denotedArgs_iff core 1 list ⟨10⟩
  refine ⟨by decide +kernel, ((denotedArgs_iff core 2 list ⟨10⟩).1 _).2 ?_, ?_⟩
  · exact ⟨1, by omega, wraps, fun m i other => other.unique wraps⟩
  · intro found
    exact (walks.2.2.1 found).2 ⟨_, wraps⟩

end MemberAccess.Program
