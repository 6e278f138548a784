import Mathlib.Data.List.Forall2
import MemberAccess.Reporting
import MemberAccess.Table

/-!
Computations that end in a value. Each step of a computation that succeeds succeeds itself, and the
values of the steps determine the value of the whole. To look up an entry of a table succeeds just
where there is one.
-/
namespace MemberAccess

variable {α β : Type}

instance [DecidableEq α] : DecidableEq (Except Fault α)
  | .ok a, .ok b => decidable_of_iff (a = b) (by simp)
  | .error e, .error f => decidable_of_iff (e = f) (by simp)
  | .ok _, .error _ | .error _, .ok _ => .isFalse (by simp)

instance (x : Except Fault α) : Decidable (∃ a, x = .ok a) :=
  match x with
  | .ok a => .isTrue ⟨a, rfl⟩
  | .error _ => .isFalse (by simp)

@[simp] theorem pure_eq_ok {a b : α} : (pure a : Except Fault α) = .ok b ↔ a = b := by
  simp [pure, Except.pure]

@[simp] theorem bind_eq_ok {x : Except Fault α} {f : α → Except Fault β} {b : β} :
    x >>= f = .ok b ↔ ∃ a, x = .ok a ∧ f a = .ok b := by
  cases x <;> simp [bind, Except.bind]

@[simp] theorem except_bind_eq_ok {x : Except Fault α} {f : α → Except Fault β} {b : β} :
    x.bind f = .ok b ↔ ∃ a, x = .ok a ∧ f a = .ok b := bind_eq_ok

theorem except_map_eq_ok {ε : Type} {x : Except ε α} {f : α → β} {b : β} :
    x.map f = .ok b ↔ ∃ a, x = .ok a ∧ f a = b := by
  cases x <;> simp [Except.map]

theorem ok_bind {a : α} {f : α → Except Fault β} : (Except.ok a >>= f) = f a := rfl

theorem guard_eq_ok {x y : Except Fault Bool} :
    (do if ← x then y else pure false) = .ok true ↔ x = .ok true ∧ y = .ok true := by
  simp only [bind_eq_ok]
  constructor
  · rintro ⟨answer, hx, h⟩
    cases answer with
    | true => exact ⟨hx, h⟩
    | false => simp at h
  · rintro ⟨hx, hy⟩
    exact ⟨true, hx, hy⟩

theorem choice_eq_ok {x y : Except Fault Bool} :
    (do if ← x then pure true else y) = .ok true ↔
      x = .ok true ∨ x = .ok false ∧ y = .ok true := by
  simp only [bind_eq_ok]
  constructor
  · rintro ⟨answer, hx, h⟩
    cases answer with
    | true => exact .inl hx
    | false => exact .inr ⟨hx, h⟩
  · rintro (hx | ⟨hx, hy⟩)
    · exact ⟨true, hx, rfl⟩
    · exact ⟨false, hx, hy⟩

theorem choice_ne_false {x y : Except Fault Bool} (h : x ≠ .ok false ∨ y ≠ .ok false) :
    (do if ← x then pure true else y) ≠ .ok false := by
  rcases x with fault | _ | _
  · rintro ⟨⟩
  · exact h.resolve_left fun denied => denied rfl
  · rintro ⟨⟩

theorem guard_ne_false {x y : Except Fault Bool} (hx : x ≠ .ok false) (hy : y ≠ .ok false) :
    (do if ← x then y else pure false) ≠ .ok false := by
  rcases x with fault | _ | _
  · rintro ⟨⟩
  · exact absurd rfl hx
  · exact hy

/-- Whether a computation comes to a value, and one with a property. -/
def Yields (x : Except Fault α) (φ : α → Prop) : Prop := ∃ a, x = .ok a ∧ φ a

theorem yields_pure {φ : α → Prop} {a : α} (h : φ a) : Yields (pure a) φ := ⟨a, rfl, h⟩

theorem Yields.bind {x : Except Fault α} {f : α → Except Fault β} {φ : α → Prop} {ψ : β → Prop}
    (hx : Yields x φ) (hf : ∀ a, φ a → Yields (f a) ψ) : Yields (x >>= f) ψ := by
  obtain ⟨a, rfl, ha⟩ := hx
  exact hf a ha

theorem Yields.exists {x : Except Fault α} {φ : α → Prop} (h : Yields x φ) : ∃ a, x = .ok a := by
  obtain ⟨a, hx, _⟩ := h
  exact ⟨a, hx⟩

theorem exists_branch_eq_ok {x y z : Except Fault Bool} (hx : ∃ a, x = .ok a)
    (hy : ∃ a, y = .ok a) (hz : ∃ a, z = .ok a) :
    ∃ a, (do if ← x then y else z) = .ok a := by
  obtain ⟨answer, rfl⟩ := hx
  cases answer with
  | true => exact hy
  | false => exact hz

theorem mapM_eq_ok {f : α → Except Fault β} {xs : List α} {ys : List β} :
    xs.mapM f = .ok ys ↔ List.Forall₂ (fun x y => f x = .ok y) xs ys := by
  induction xs generalizing ys with
  | nil => cases ys <;> simp
  | cons x xs ih =>
    simp only [List.mapM_cons, bind_eq_ok, pure_eq_ok, ih]
    constructor
    · rintro ⟨y, hy, rest, hrest, rfl⟩
      exact .cons hy hrest
    · intro h
      cases h with
      | cons hy hrest => exact ⟨_, hy, _, hrest, rfl⟩

theorem exists_eq_ok_of_mapM {f : α → Except Fault β} {xs : List α} {ys : List β} {x : α}
    (h : xs.mapM f = .ok ys) (hx : x ∈ xs) : ∃ y, f x = .ok y := by
  rw [mapM_eq_ok] at h
  induction h with
  | nil => cases hx
  | cons first _ ih =>
    rcases List.mem_cons.1 hx with rfl | hx
    · exact ⟨_, first⟩
    · exact ih hx

theorem exists_of_mem_mapM {f : α → Except Fault β} {xs : List α} {ys : List β} {y : β}
    (h : xs.mapM f = .ok ys) (hy : y ∈ ys) : ∃ x ∈ xs, f x = .ok y := by
  rw [mapM_eq_ok] at h
  induction h with
  | nil => cases hy
  | cons first _ ih =>
    rcases List.mem_cons.1 hy with rfl | hy
    · exact ⟨_, List.mem_cons_self, first⟩
    · obtain ⟨x, hx, h⟩ := ih hy
      exact ⟨x, List.mem_cons_of_mem _ hx, h⟩

theorem mem_of_mapM {f : α → Except Fault β} {xs : List α} {ys : List β} {x : α} {y : β}
    (h : xs.mapM f = .ok ys) (hx : x ∈ xs) (hy : f x = .ok y) : y ∈ ys := by
  rw [mapM_eq_ok] at h
  induction h with
  | nil => cases hx
  | cons first _ ih =>
    rcases List.mem_cons.1 hx with rfl | hx
    · rw [hy] at first
      cases first
      exact List.mem_cons_self
    · exact List.mem_cons_of_mem _ (ih hx)

theorem exists_mapM_eq_ok {f : α → Except Fault β} {xs : List α}
    (h : ∀ x ∈ xs, ∃ y, f x = .ok y) : ∃ ys, xs.mapM f = .ok ys := by
  induction xs with
  | nil => exact ⟨[], rfl⟩
  | cons x xs ih =>
    obtain ⟨y, hy⟩ := h x (by simp)
    obtain ⟨ys, hys⟩ := ih fun x hx => h x (by simp [hx])
    exact ⟨y :: ys, by simp [hy, hys]⟩

theorem yields_mapM {f : α → Except Fault β} {xs : List α} {φ : β → Prop}
    (h : ∀ x ∈ xs, Yields (f x) φ) : Yields (xs.mapM f) fun ys => ∀ y ∈ ys, φ y := by
  obtain ⟨ys, hys⟩ := exists_mapM_eq_ok fun x hx => (h x hx).exists
  refine ⟨ys, hys, fun y hy => ?_⟩
  obtain ⟨x, hx, hxy⟩ := exists_of_mem_mapM hys hy
  obtain ⟨y', hxy', holds⟩ := h x hx
  rw [hxy] at hxy'
  cases hxy'
  exact holds

theorem mapM_perm {f : α → Except Fault β} {xs xs' : List α} {ys : List β}
    (h : xs.mapM f = .ok ys) (perm : xs.Perm xs') :
    ∃ ys', xs'.mapM f = .ok ys' ∧ ys.Perm ys' := by
  induction perm generalizing ys with
  | nil => exact ⟨ys, h, .refl ys⟩
  | cons x _ ih =>
    simp only [List.mapM_cons, bind_eq_ok, pure_eq_ok] at h
    obtain ⟨y, hy, rest, hrest, rfl⟩ := h
    obtain ⟨rest', hrest', perm⟩ := ih hrest
    exact ⟨y :: rest', by simp [hy, hrest'], perm.cons y⟩
  | swap x x' xs =>
    simp only [List.mapM_cons, bind_eq_ok, pure_eq_ok] at h
    obtain ⟨y', hy', _, ⟨y, hy, rest, hrest, rfl⟩, rfl⟩ := h
    exact ⟨y :: y' :: rest, by simp [hy, hy', hrest], .swap y y' rest⟩
  | trans _ _ ih ih' =>
    obtain ⟨ys', hys', perm⟩ := ih h
    obtain ⟨ys'', hys'', perm'⟩ := ih' hys'
    exact ⟨ys'', hys'', perm.trans perm'⟩

theorem allM_eq_true {f : α → Except Fault Bool} {xs : List α} :
    xs.allM f = .ok true ↔ ∀ x ∈ xs, f x = .ok true := by
  induction xs with
  | nil => simp [List.allM]
  | cons x xs ih =>
    simp only [List.allM, bind_eq_ok, List.forall_mem_cons, ← ih]
    constructor
    · rintro ⟨first, hfirst, rest⟩
      cases first <;> simp_all
    · rintro ⟨first, rest⟩
      exact ⟨true, first, rest⟩

theorem allM_map {f : α → Except Fault Bool} {g : β → Except Fault Bool} {k : α → β} {xs : List α}
    (h : ∀ x ∈ xs, g (k x) = f x) : (xs.map k).allM g = xs.allM f := by
  induction xs with
  | nil => rfl
  | cons x xs ih =>
    obtain ⟨head, tail⟩ := List.forall_mem_cons.1 h
    rw [List.map_cons, List.allM, List.allM, head, ih tail]

theorem exists_allM_eq_ok {f : α → Except Fault Bool} {xs : List α}
    (h : ∀ x ∈ xs, ∃ b, f x = .ok b) : ∃ b, xs.allM f = .ok b := by
  induction xs with
  | nil => exact ⟨true, rfl⟩
  | cons x xs ih =>
    obtain ⟨first, hfirst⟩ := h x (by simp)
    obtain ⟨rest, hrest⟩ := ih fun x hx => h x (by simp [hx])
    cases first <;> simp [List.allM, hfirst, hrest]

/-- Whether two computations both come to values, which are related, or both come to none. -/
inductive Parallel {ε ε' : Type} (R : α → β → Prop) : Except ε α → Except ε' β → Prop where
  | ok {a : α} {b : β} (h : R a b) : Parallel R (.ok a) (.ok b)
  | error {e : ε} {e' : ε'} : Parallel R (.error e) (.error e')

namespace Parallel

variable {γ δ ε ε' : Type} {R : α → β → Prop} {S : γ → δ → Prop}

theorem left {a : α} {y : Except ε' β} (h : Parallel R (.ok a : Except ε α) y) :
    ∃ b, y = .ok b ∧ R a b := by
  cases h with
  | ok h => exact ⟨_, rfl, h⟩

theorem right {x : Except ε α} {b : β} (h : Parallel R x (.ok b : Except ε' β)) :
    ∃ a, x = .ok a ∧ R a b := by
  cases h with
  | ok h => exact ⟨_, rfl, h⟩

theorem bind {x : Except ε α} {y : Except ε' β} {f : α → Except ε γ} {g : β → Except ε' δ}
    (h : Parallel R x y) (hf : ∀ a b, R a b → Parallel S (f a) (g b)) :
    Parallel S (x >>= f) (y >>= g) := by
  cases h with
  | ok h => exact hf _ _ h
  | error => exact .error

theorem map {x : Except ε α} {y : Except ε' β} {f : α → γ} {g : β → δ} (h : Parallel R x y)
    (hf : ∀ a b, R a b → S (f a) (g b)) : Parallel S (x.map f) (y.map g) := by
  cases h with
  | ok h => exact .ok (hf _ _ h)
  | error => exact .error

theorem imp {x : Except ε α} {y : Except ε' β} {S : α → β → Prop} (h : Parallel R x y)
    (hS : ∀ a b, R a b → S a b) : Parallel S x y := by
  cases h with
  | ok h => exact .ok (hS _ _ h)
  | error => exact .error

theorem same (x : Except ε α) : Parallel (fun a b => x = .ok a ∧ a = b) x x := by
  cases x with
  | ok a => exact .ok ⟨rfl, rfl⟩
  | error e => exact .error

theorem mapM {f : α → Except ε γ} {g : β → Except ε' δ} {k : α → β} {F : γ → δ}
    {φ : α → γ → Prop} {xs : List α}
    (h : ∀ x ∈ xs, Parallel (fun y z => z = F y ∧ φ x y) (f x) (g (k x))) :
    Parallel (fun ys zs => zs = ys.map F ∧ List.Forall₂ φ xs ys) (xs.mapM f)
      ((xs.map k).mapM g) := by
  induction xs with
  | nil => exact .ok ⟨rfl, .nil⟩
  | cons x xs ih =>
    obtain ⟨head, tail⟩ := List.forall_mem_cons.1 h
    rw [List.map_cons, List.mapM_cons, List.mapM_cons]
    apply head.bind
    rintro y _ ⟨rfl, first⟩
    apply (ih tail).bind
    rintro ys _ ⟨rfl, rest⟩
    exact .ok ⟨rfl, .cons first rest⟩

end Parallel

namespace Table

variable {k : Kind} {table table' : Table k α} {i : Index k} {x : α} {φ : Index k → α → Prop}

theorem fetch_eq_ok : table.fetch i = .ok x ↔ table.get? i = some x := by
  cases h : table.get? i <;> simp [fetch, h]

theorem of_insert (h : table.insert x = .ok (i, table')) :
    i = ⟨table.size⟩ ∧ table'.entries = table.entries.push x := by
  unfold insert at h
  split at h
  · cases h
    exact ⟨rfl, rfl⟩
  · cases h

theorem mem_toList : (i, x) ∈ table.toList ↔ table.get? i = some x := by
  obtain ⟨n⟩ := i
  simp only [toList, indices, get?, size, List.mem_iff_getElem?, List.getElem?_zip_eq_some,
    List.getElem?_map, Option.map_eq_some_iff, Index.mk.injEq, Array.getElem?_toList]
  constructor
  · rintro ⟨m, ⟨l, hl, rfl⟩, h⟩
    obtain ⟨_, rfl⟩ := List.getElem?_eq_some_iff.1 hl
    simpa using h
  · intro h
    obtain ⟨hn, _⟩ := Array.getElem?_eq_some_iff.1 h
    exact ⟨n, ⟨n, List.getElem?_range hn, rfl⟩, h⟩

theorem forall_mem_toList :
    (∀ e ∈ table.toList, φ e.1 e.2) ↔ ∀ i x, table.get? i = some x → φ i x := by
  rw [Prod.forall]
  simp only [mem_toList]

theorem isSome_of_mem_indices (h : i ∈ table.indices) : (table.get? i).isSome := by
  obtain ⟨n, hn, rfl⟩ := List.mem_map.1 h
  simpa [get?, size] using List.mem_range.1 hn

instance [∀ i x, Decidable (φ i x)] : Decidable (∀ i x, table.get? i = some x → φ i x) :=
  decidable_of_iff _ forall_mem_toList

end Table

end MemberAccess
