import MemberAccess.Proofs.Matching.Replacement
import MemberAccess.Proofs.Renaming.Substitution

/-!
Replacements one after the other. They amount to a single one, the parameters that are left come
from the type or from what is put into it, and types in normal form stay in normal form.
-/
namespace MemberAccess.Ty

variable {t u : Ty} {p q : ParamId} {f g : ParamId → Option Ty} {vars : List ParamId}
  {φ : ParamId → Prop}

def followedBy (f g : ParamId → Option Ty) (p : ParamId) : Option Ty :=
  (f p).elim (g p) fun u => some (u.replace g)

theorem replace_orNull : t.orNull.replace f = (t.replace f).orNull := by
  cases t with
  | nullable t =>
    rw [orNull, replace]
    cases t.replace f <;> rfl
  | _ => rfl

theorem replace_replace : (t.replace f).replace g = t.replace (followedBy f g) := by
  induction t using induct with
  | unknown | dynamic | void | never => rfl
  | interface d as ih =>
    simp only [replace, replaceAll_eq_map, List.map_map]
    exact congrArg _ (List.map_congr_left ih)
  | nullable t ih => rw [replace, replace_orNull, ih, replace]
  | futureOr t ih => rw [replace, replace, ih, replace]
  | param p => cases value : f p <;> simp [replace, followedBy, value]
  | promoted p bound ih => cases value : f p <;> simp [replace, followedBy, value, ih]
  | func ps r ihParams ihResult =>
    simp only [replace, replaceAll_eq_map, List.map_map, ihResult]
    exact congrArg (func · _) (List.map_congr_left ihParams)
  | record fs ih =>
    simp only [replace, replaceAll_eq_map, List.map_map]
    exact congrArg _ (List.map_congr_left ih)

theorem replace_congr (same : ∀ p ∈ t.params, f p = g p) : t.replace f = t.replace g := by
  have free : (t.replace f).Free [] := free_iff.2 fun _ _ => List.not_mem_nil
  have unnamed := rename_replace (ρ := id) (τ := id) (f := f) (g := g) (t := t)
    (fun p hp u value => by rw [rename_id, id, ← same p hp, value])
    (fun p hp absent _ => ⟨by rw [id, ← same p hp, absent], rfl⟩) free
  rw [rename_id, rename_id] at unnamed
  exact unnamed.symm

section Parameters

theorem headed_params : Headed fun part => ∀ p ∈ part.param?, φ p where
  plain t _ h := by simp [h]
  interface d as bs _ h := h
  promoted p t := .rfl

theorem forall_mem_params_replace
    (h : ∀ p ∈ t.params, (f p).elim (φ p) fun u => ∀ q ∈ u.params, φ q) :
    ∀ q ∈ (t.replace f).params, φ q := by
  refine forall_mem_params.2 (headed_params.rebuilds.every_replace_of_kept fun part hpart => ?_)
  show (part.param?.bind f).elim ((∀ p ∈ part.param?, φ p) ∨ _) _
  cases named : part.param? with
  | none => simp
  | some p =>
    have own := forall_mem_params.1 h part hpart p named
    cases value : f p with
    | none =>
      simp only [Option.bind_some, value, Option.elim_none]
      exact .inl (by simpa [value] using own)
    | some u => simpa [named, value, forall_mem_params] using own

theorem mem_params_replace (h : q ∈ (t.replace f).params) :
    q ∈ t.params ∧ f q = none ∨ ∃ p ∈ t.params, ∃ u, f p = some u ∧ q ∈ u.params := by
  revert q
  apply forall_mem_params_replace
  intro p hp
  cases value : f p with
  | none => exact .inl ⟨hp, rfl⟩
  | some u => exact fun q hq => .inr ⟨p, hp, u, value, hq⟩

end Parameters

section NormalForm

def hasIdleMark : Ty → Bool
  | .nullable .unknown | .nullable .dynamic | .nullable .void | .nullable (.nullable _) => true
  | _ => false

/-- Whether all question marks say something. -/
def InNormalForm (t : Ty) : Prop := t.Every fun part => ¬ part.hasIdleMark

instance : Decidable t.InNormalForm := inferInstanceAs (Decidable (t.Every _))

theorem InNormalForm.normal (h : t.InNormalForm) : t.normal = t := by
  induction t using induct with
  | unknown | dynamic | void | never | param => rfl
  | interface d as ih =>
    rw [normal_interface, map_eq_self fun a ha => ih a ha ((every_interface.1 h).2 a ha)]
  | nullable t ih =>
    obtain ⟨head, inner⟩ := every_nullable.1 h
    rw [normal_nullable, ih inner]
    cases t <;> first | rfl | exact absurd rfl head
  | futureOr t ih => rw [normal_futureOr, ih (every_futureOr.1 h).2]
  | promoted p bound ih =>
    have inner : bound.normal = bound := ih (every_promoted.1 h).2
    rw [Ty.normal] at inner ⊢
    rw [replace, inner]
    rfl
  | func ps r ihParams ihResult =>
    obtain ⟨_, params, result⟩ := every_func.1 h
    rw [normal_func, map_eq_self fun p hp => ihParams p hp (params p hp), ihResult result]
  | record fs ih =>
    rw [normal_record, map_eq_self fun g hg => ih g hg ((every_record.1 h).2 g hg)]

theorem InNormalForm.orNull (h : t.InNormalForm) : t.orNull.InNormalForm := by
  cases t with
  | unknown | dynamic | void | nullable => exact h
  | _ => exact every_nullable.2 ⟨nofun, h⟩

theorem rebuilds_normal : Rebuilds fun part => ¬ part.hasIdleMark where
  orNull _ := InNormalForm.orNull
  interface _ _ _ _ h := h
  futureOr _ _ h := h
  promoted _ _ _ h := h
  func _ _ _ _ h := h
  record _ _ h := h

theorem inNormalForm_replace (values : ∀ p u, f p = some u → u.InNormalForm) :
    (t.replace f).InNormalForm := by
  refine rebuilds_normal.every_replace_of_kept fun part hpart => ?_
  show (part.param?.bind f).elim (¬ part.hasIdleMark ∨ _) InNormalForm
  cases value : part.param?.bind f with
  | none => cases part <;> simp [hasIdleMark]
  | some u =>
    obtain ⟨p, _, value⟩ := Option.bind_eq_some_iff.1 value
    exact values p u value

theorem InNormalForm.replace_of_free (h : t.InNormalForm) (free : t.Free vars)
    (outside : ∀ p, p ∉ vars → f p = none) : t.replace f = t :=
  (Ty.replace_of_free outside free).trans h.normal

theorem InNormalForm.substitute_eq {s : Substitution} (h : t.InNormalForm) :
    t.substitute s = t.replace s.get? := by
  unfold substitute
  split
  · next empty =>
    have none : s.get? = fun _ => none := funext (Substitution.isEmpty_iff.1 empty)
    rw [none]
    exact h.normal.symm
  · rfl

theorem InNormalForm.substitute_congr {s r : Substitution} (h : t.InNormalForm)
    (same : ∀ p ∈ t.params, s.get? p = r.get? p) : t.substitute s = t.substitute r := by
  rw [h.substitute_eq, h.substitute_eq, replace_congr same]

end NormalForm

end MemberAccess.Ty
