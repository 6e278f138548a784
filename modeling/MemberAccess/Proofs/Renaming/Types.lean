import Mathlib.Data.Set.Function
import MemberAccess.Proofs.Matching.Pattern

/-!
Renaming of the type parameters in types. What a renamed type becomes under a substitution is the
renamed result of a substitution, if the two substitutions agree at the parameters that matter.
-/
namespace MemberAccess

theorem eraseDups_map {α β : Type} [DecidableEq α] [DecidableEq β] {f : α → β} : (xs : List α) →
    Set.InjOn f {x | x ∈ xs} → (xs.map f).eraseDups = xs.eraseDups.map f
  | [], _ => rfl
  | x :: xs, injective => by
    have others : (xs.map f).filter (fun y => !y == f x) = (xs.filter fun y => !y == x).map f := by
      rw [List.filter_map]
      congr 1
      apply List.filter_congr
      intro y hy
      have same : f y = f x ↔ y = x :=
        injective.eq_iff (List.mem_cons_of_mem x hy) List.mem_cons_self
      simp only [Function.comp_apply, Bool.not_inj_iff, beq_eq_beq, same]
    have kept : ∀ y ∈ xs.filter fun y => !y == x, y ∈ x :: xs := fun y hy =>
      List.mem_cons_of_mem x (List.mem_filter.1 hy).1
    rw [List.map_cons, List.eraseDups_cons, List.eraseDups_cons, List.map_cons, others,
      eraseDups_map _ (injective.mono kept)]
termination_by xs => xs.length
decreasing_by
  have := List.length_filter_le (fun y => !y == x) xs
  simp only [List.length_cons]
  omega

namespace Ty

mutual
def rename (ρ : ParamId → ParamId) : Ty → Ty
  | .interface d as => .interface d (renameAll ρ as)
  | .nullable t => .nullable (rename ρ t)
  | .futureOr t => .futureOr (rename ρ t)
  | .param p => .param (ρ p)
  | .promoted p bound => .promoted (ρ p) (rename ρ bound)
  | .func ps r => .func (renameAll ρ ps) (rename ρ r)
  | .record fs => .record (renameAll ρ fs)
  | .unknown => .unknown
  | .dynamic => .dynamic
  | .void => .void
  | .never => .never

def renameAll (ρ : ParamId → ParamId) : List Ty → List Ty
  | [] => []
  | t :: ts => rename ρ t :: renameAll ρ ts
end

variable {ρ τ : ParamId → ParamId} {ps vars : List ParamId} {t : Ty} {p q : ParamId}
  {f g : ParamId → Option Ty} {φ : ParamId → Prop}

theorem renameAll_eq_map (ts : List Ty) : renameAll ρ ts = ts.map (rename ρ) := by
  induction ts <;> simp_all [renameAll]

theorem forall_mem_params : (∀ p ∈ t.params, φ p) ↔ t.Every fun part => ∀ p ∈ part.param?, φ p := by
  simp only [mem_params, Every, Option.mem_def]
  grind

theorem free_iff : t.Free vars ↔ ∀ p ∈ t.params, p ∉ vars := forall_mem_params.symm

theorem Free.mono (free : t.Free vars) (subset : ps ⊆ vars) : t.Free ps :=
  free_iff.2 fun p hp own => free_iff.1 free p hp (subset own)

theorem headed_free : Headed fun part => ∀ p ∈ part.param?, p ∉ vars where
  plain t _ h := by simp [h]
  interface d as bs _ h := h
  promoted p t := .rfl

theorem rename_congr (h : ∀ p ∈ t.params, ρ p = τ p) : t.rename ρ = t.rename τ := by
  rw [forall_mem_params] at h
  induction t using induct with
  | unknown | dynamic | void | never => rfl
  | interface d as ih =>
    have args := (every_interface.1 h).2
    rw [rename, rename, renameAll_eq_map, renameAll_eq_map]
    exact congrArg _ (List.map_congr_left fun a ha => ih a ha (args a ha))
  | nullable t ih => rw [rename, rename, ih (every_nullable.1 h).2]
  | futureOr t ih => rw [rename, rename, ih (every_futureOr.1 h).2]
  | param p => rw [rename, rename, h.self p rfl]
  | promoted p bound ih =>
    obtain ⟨own, inner⟩ := every_promoted.1 h
    rw [rename, rename, own p rfl, ih inner]
  | func ps r ihParams ihResult =>
    obtain ⟨_, params, result⟩ := every_func.1 h
    rw [rename, rename, renameAll_eq_map, renameAll_eq_map, ihResult result]
    exact congrArg (func · _) (List.map_congr_left fun p hp => ihParams p hp (params p hp))
  | record fs ih =>
    have fields := (every_record.1 h).2
    rw [rename, rename, renameAll_eq_map, renameAll_eq_map]
    exact congrArg _ (List.map_congr_left fun f hf => ih f hf (fields f hf))

@[simp] theorem rename_id : t.rename id = t := by
  induction t using induct with
  | interface d as ih => rw [rename, renameAll_eq_map, map_eq_self ih]
  | func ps r ihParams ihResult => rw [rename, renameAll_eq_map, map_eq_self ihParams, ihResult]
  | record fs ih => rw [rename, renameAll_eq_map, map_eq_self ih]
  | _ => simp_all [rename]

theorem rename_eq_self (h : ∀ p ∈ t.params, ρ p = p) : t.rename ρ = t :=
  (rename_congr h).trans rename_id

theorem rename_orNull : t.orNull.rename ρ = (t.rename ρ).orNull := by
  cases t <;> rfl

theorem param?_rename : (t.rename ρ).param? = t.param?.map ρ := by
  cases t <;> rfl

theorem parts_rename : (t.rename ρ).parts = t.parts.map (rename ρ) := by
  have lists (ts : List Ty) (h : ∀ t ∈ ts, (t.rename ρ).parts = t.parts.map (rename ρ)) :
      partsAll (ts.map (rename ρ)) = (partsAll ts).map (rename ρ) := by
    rw [partsAll_eq_flatMap, partsAll_eq_flatMap, List.flatMap_map, List.map_flatMap]
    exact List.flatMap_congr h
  induction t using induct with
  | interface d as ih => simp only [rename, renameAll_eq_map, parts, lists as ih, List.map_cons]
  | func ps r ihParams ihResult =>
    simp only [rename, renameAll_eq_map, parts, lists ps ihParams, ihResult, List.map_cons,
      List.map_append]
  | record fs ih => simp only [rename, renameAll_eq_map, parts, lists fs ih, List.map_cons]
  | _ => simp_all [rename, parts]

theorem mem_params_rename : q ∈ (t.rename ρ).params ↔ ∃ p ∈ t.params, ρ p = q := by
  simp only [mem_params, parts_rename, List.mem_map]
  constructor
  · rintro ⟨_, ⟨part, hpart, rfl⟩, h⟩
    rw [param?_rename, Option.map_eq_some_iff] at h
    obtain ⟨p, hp, same⟩ := h
    exact ⟨p, ⟨part, hpart, hp⟩, same⟩
  · rintro ⟨p, ⟨part, hpart, hp⟩, rfl⟩
    exact ⟨part.rename ρ, ⟨part, hpart, rfl⟩, by rw [param?_rename, hp, Option.map_some]⟩

theorem params_rename (injective : Set.InjOn ρ {p | p ∈ t.params}) :
    (t.rename ρ).params = t.params.map ρ := by
  have occurrences : (t.rename ρ).parts.filterMap param? = (t.parts.filterMap param?).map ρ := by
    rw [parts_rename, List.filterMap_map, List.map_filterMap]
    exact List.filterMap_congr fun part _ => param?_rename
  rw [params, params, occurrences]
  apply eraseDups_map
  simpa only [params, List.mem_eraseDups] using injective

/-- Only the parameters that are left over when others are replaced have to be renamed alike. The
    bound of a promotion is given up together with its parameter, so that not all that occur in it
    are left over. -/
theorem rename_replace
    (replaced : ∀ p ∈ t.params, ∀ u, f p = some u → g (ρ p) = some (u.rename τ))
    (kept : ∀ p ∈ t.params, f p = none → p ∉ vars → g (ρ p) = none ∧ τ p = ρ p)
    (free : (t.replace f).Free vars) : (t.rename ρ).replace g = (t.replace f).rename τ := by
  rw [forall_mem_params] at replaced kept
  induction t using induct with
  | unknown | dynamic | void | never => rfl
  | interface d as ih =>
    have replaced := (every_interface.1 replaced).2
    have kept := (every_interface.1 kept).2
    simp only [replace, replaceAll_eq_map] at free
    have free := List.forall_mem_map.1 (every_interface.1 free).2
    simp only [rename, renameAll_eq_map, replace, replaceAll_eq_map, List.map_map]
    congr 1
    exact List.map_congr_left fun a ha => ih a ha (replaced a ha) (kept a ha) (free a ha)
  | nullable t ih =>
    have free := headed_free.every_orNull.1 free
    simp only [rename, replace, rename_orNull,
      ih (every_nullable.1 replaced).2 (every_nullable.1 kept).2 free]
  | futureOr t ih =>
    simp only [rename, replace,
      ih (every_futureOr.1 replaced).2 (every_futureOr.1 kept).2 (free_futureOr.1 free)]
  | param p =>
    rw [rename, replace, replace]
    cases value : f p with
    | none =>
      rw [replace, value] at free
      obtain ⟨absent, same⟩ := kept.self p rfl value (free.self p rfl)
      rw [absent, Option.getD_none, Option.getD_none, rename, same]
    | some u => rw [replaced.self p rfl u value, Option.getD_some, Option.getD_some]
  | promoted p bound ih =>
    rw [rename, replace, replace]
    cases value : f p with
    | none =>
      rw [replace, value] at free
      obtain ⟨own, inner⟩ := every_promoted.1 free
      obtain ⟨absent, same⟩ := kept.self p rfl value (own p rfl)
      have ih := ih (every_promoted.1 replaced).2 (every_promoted.1 kept).2 inner
      rw [absent, Option.getD_none, Option.getD_none, rename, same, ih]
    | some u => rw [replaced.self p rfl u value, Option.getD_some, Option.getD_some]
  | func ps r ihParams ihResult =>
    obtain ⟨_, replacedParams, replacedResult⟩ := every_func.1 replaced
    obtain ⟨_, keptParams, keptResult⟩ := every_func.1 kept
    simp only [replace, replaceAll_eq_map] at free
    obtain ⟨_, freeParams, freeResult⟩ := every_func.1 free
    have freeParams := List.forall_mem_map.1 freeParams
    simp only [rename, renameAll_eq_map, replace, replaceAll_eq_map, List.map_map,
      ihResult replacedResult keptResult freeResult]
    congr 1
    exact List.map_congr_left fun p hp =>
      ihParams p hp (replacedParams p hp) (keptParams p hp) (freeParams p hp)
  | record fs ih =>
    have replaced := (every_record.1 replaced).2
    have kept := (every_record.1 kept).2
    simp only [replace, replaceAll_eq_map] at free
    have free := List.forall_mem_map.1 (every_record.1 free).2
    simp only [rename, renameAll_eq_map, replace, replaceAll_eq_map, List.map_map]
    congr 1
    exact List.map_congr_left fun h hh => ih h hh (replaced h hh) (kept h hh) (free h hh)

end Ty

def renameOnly (ρ : ParamId → ParamId) (vars : List ParamId) (p : ParamId) : ParamId :=
  if p ∈ vars then ρ p else p

theorem map_renameOnly {ρ : ParamId → ParamId} {vars : List ParamId} :
    vars.map (renameOnly ρ vars) = vars.map ρ := List.map_congr_left fun _ hp => if_pos hp

structure Refreshes (ρ : ParamId → ParamId) (ps : List ParamId) : Prop where
  fixed : ∀ p, p ∉ ps → ρ p = p
  injective : Set.InjOn ρ {p | p ∈ ps}
  fresh : ∀ p ∈ ps, ρ p ∉ ps

namespace Refreshes

variable {ρ : ParamId → ParamId} {ps qs : List ParamId} {t : Ty} {p q : ParamId}
  (refreshes : Refreshes ρ ps)

include refreshes

theorem not_mem_map (hp : p ∈ ps) : p ∉ ps.map ρ := by
  intro h
  obtain ⟨q, hq, rfl⟩ := List.mem_map.1 h
  exact refreshes.fresh q hq hp

theorem mem_map (hp : p ∉ ps.map ρ) : ρ p ∈ ps.map ρ ↔ p ∈ ps := by
  constructor
  · intro h
    by_contra outside
    rw [refreshes.fixed p outside] at h
    exact hp h
  · exact List.mem_map_of_mem

theorem injOn : Set.InjOn ρ {p | p ∉ ps.map ρ} := by
  intro p hp q hq same
  by_cases own : p ∈ ps
  · have other : q ∈ ps := (refreshes.mem_map hq).1 (same ▸ List.mem_map_of_mem own)
    exact refreshes.injective own other same
  · have other : q ∉ ps := fun h => own ((refreshes.mem_map hp).1 (same ▸ List.mem_map_of_mem h))
    rwa [refreshes.fixed p own, refreshes.fixed q other] at same

theorem rename_of_free (free : t.Free ps) : t.rename ρ = t :=
  Ty.rename_eq_self fun p hp => refreshes.fixed p (Ty.free_iff.1 free p hp)

theorem free_rename (free : t.Free (ps.map ρ)) : (t.rename ρ).Free (ps.map ρ) ↔ t.Free ps := by
  simp only [Ty.free_iff, Ty.mem_params_rename]
  rw [Ty.free_iff] at free
  constructor
  · intro h p hp own
    exact h (ρ p) ⟨p, hp, rfl⟩ (List.mem_map_of_mem own)
  · rintro h q ⟨p, hp, rfl⟩ renamed
    exact h p hp ((refreshes.mem_map (free p hp)).1 renamed)

theorem restrict (subset : qs ⊆ ps) : Refreshes (renameOnly ρ qs) qs where
  fixed p hp := if_neg hp
  injective p hp q hq same := by
    have own : p ∈ qs := hp
    have other : q ∈ qs := hq
    simp only [renameOnly, own, other, if_true] at same
    exact refreshes.injective (subset hp) (subset hq) same
  fresh p hp := by
    rw [renameOnly, if_pos hp]
    intro h
    exact refreshes.fresh p (subset hp) (subset h)

end Refreshes

end MemberAccess
