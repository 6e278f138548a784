import MemberAccess.Proofs.Typing.Answers
import MemberAccess.Proofs.Typing.Rules

/-!
Patterns. The widest instance of a pattern has `dynamic` for the variables in covariant positions
and `Never` for those in the position of a parameter of a function, so it is above all other
instances.
-/
namespace MemberAccess

open Unification

namespace Ty

variable {vars : List ParamId} {width : Nat} {t u : Ty} {p : ParamId} {d : TypeId} {ts : List Ty}

/-- Whether a type mentions none of the variables. -/
def Free (vars : List ParamId) (t : Ty) : Prop :=
  t.Every fun part => ∀ p ∈ part.param?, p ∉ vars

theorem mem_params : p ∈ t.params ↔ ∃ part ∈ t.parts, part.param? = some p := by
  rw [params, List.mem_eraseDups, List.mem_filterMap]

theorem mentionsAny_iff : t.mentionsAny vars = true ↔ ¬ t.Free vars := by
  simp only [mentionsAny, List.any_eq_true, decide_eq_true_eq, mem_params, Free, Every,
    Option.mem_def]
  grind

theorem not_mentionsAny_iff : ¬ t.mentionsAny vars = true ↔ t.Free vars := by
  rw [mentionsAny_iff, not_not]

instance : Decidable (t.Free vars) := decidable_of_iff _ not_mentionsAny_iff

@[simp] theorem free_nullable : (nullable t).Free vars ↔ t.Free vars := by
  simp [Free, param?]

@[simp] theorem free_futureOr : (futureOr t).Free vars ↔ t.Free vars := by
  simp [Free, param?]

/-- Unions around a variable. They have an instance above each type. -/
def opens (vars : List ParamId) : Ty → Bool
  | .param p => p ∈ vars
  | .nullable t | .futureOr t => opens vars t
  | _ => false

/-- Whether each of the types of parameters is a variable or mentions none. Functions with other
    ones match no function. -/
def solvable (vars : List ParamId) (ps : List Ty) : Bool :=
  ps.all fun p => !p.mentionsAny vars || (varOf? vars p).isSome

def lowest (vars : List ParamId) : Ty → Ty
  | .param p => if p ∈ vars then .never else .param p
  | t => t

mutual
/-- The widest instance. A record of some width stands for what no function matches. -/
def widest (vars : List ParamId) (width : Nat) : Ty → Ty
  | .param p => if p ∈ vars then .dynamic else .param p
  | .interface d as => .interface d (widestAll vars width as)
  | .nullable t => .nullable (widest vars width t)
  | .futureOr t => .futureOr (widest vars width t)
  | .func ps r =>
    if solvable vars ps then .func (ps.map (lowest vars)) (widest vars width r)
    else .record (List.replicate width .never)
  | .record fs => .record (widestAll vars width fs)
  | t => t

def widestAll (vars : List ParamId) (width : Nat) : List Ty → List Ty
  | [] => []
  | t :: ts => widest vars width t :: widestAll vars width ts
end

theorem widestAll_eq_map (ts : List Ty) :
    widestAll vars width ts = ts.map (widest vars width) := by
  induction ts <;> simp_all [widestAll]

theorem solvable_iff :
    solvable vars ts ↔ ∀ t ∈ ts, t.Free vars ∨ ∃ p ∈ vars, t = .param p := by
  simp only [solvable, List.all_eq_true, Bool.or_eq_true, Bool.not_eq_true']
  refine forall₂_congr fun t _ => or_congr ?_ ?_
  · rw [← not_mentionsAny_iff, Bool.not_eq_true]
  · simp only [Option.isSome_iff_exists, Program.Closed.varOf?_eq_some]
    grind

theorem lowest_of_free (free : t.Free vars) : t.lowest vars = t := by
  cases t with
  | param p =>
    have outside : p ∉ vars := every_param.1 free p rfl
    simp [lowest, outside]
  | _ => rfl

theorem declaration?_widest : (t.widest vars width).declaration? = t.declaration? := by
  cases t with
  | param | func =>
    rw [widest]
    split <;> rfl
  | _ => rfl

theorem map_eq_self {f : Ty → Ty} (h : ∀ t ∈ ts, f t = t) : ts.map f = ts :=
  (List.map_congr_left h).trans (List.map_id ts)

theorem widest_of_free (free : t.Free vars) : t.widest vars width = t := by
  induction t using induct with
  | unknown | dynamic | void | never | promoted => rfl
  | interface d as ih =>
    have args := (every_interface.1 free).2
    have same : as.map (widest vars width) = as := map_eq_self fun a ha => ih a ha (args a ha)
    rw [widest, widestAll_eq_map, same]
  | nullable t ih => rw [widest, ih (every_nullable.1 free).2]
  | futureOr t ih => rw [widest, ih (every_futureOr.1 free).2]
  | param p =>
    have outside : p ∉ vars := every_param.1 free p rfl
    simp [widest, outside]
  | func ps r _ ihResult =>
    obtain ⟨_, params, result⟩ := every_func.1 free
    have same : ps.map (lowest vars) = ps :=
      map_eq_self fun a ha => lowest_of_free (params a ha)
    have solvable : solvable vars ps := solvable_iff.2 fun p hp => .inl (params p hp)
    rw [widest, if_pos solvable, same, ihResult result]
  | record fs ih =>
    have fields := (every_record.1 free).2
    have same : fs.map (widest vars width) = fs := map_eq_self fun f hf => ih f hf (fields f hf)
    rw [widest, widestAll_eq_map, same]

section Tops

theorem objectLike_widest (h : (t.widest vars width).objectLike) : t.objectLike := by
  induction t using induct with
  | futureOr t ih => exact ih h
  | param p =>
    rw [widest] at h
    split at h <;> cases h
  | func ps r =>
    rw [widest] at h
    split at h <;> cases h
  | _ => exact h

theorem topLike_widest (h : (t.widest vars width).topLike) : t.topLike ∨ t.opens vars := by
  induction t using induct with
  | nullable t ih =>
    rw [widest, topLike, Bool.or_eq_true] at h
    rcases h with h | h
    · exact .inl (by simp [topLike, objectLike_widest h])
    · exact (ih h).imp_left fun h => by simp [topLike, h]
  | futureOr t ih => exact ih h
  | param p =>
    rw [widest] at h
    split at h
    · next own => exact .inr (by simpa [opens] using own)
    · cases h
  | func ps r =>
    rw [widest] at h
    split at h <;> cases h
  | _ => exact .inl h

theorem isTop_widest (h : t.isTop ∨ t.opens vars) : (t.widest vars width).isTop := by
  induction t using induct with
  | nullable t ih =>
    rw [widest, isTop, Bool.or_eq_true]
    rcases h with h | h
    · rw [isTop, Bool.or_eq_true] at h
      refine h.imp (fun root => ?_) fun h => ih (.inl h)
      cases t with
      | interface => exact root
      | _ => cases root
    · exact .inr (ih (.inr h))
  | futureOr t ih => exact ih h
  | param p =>
    have own : p ∈ vars := by simpa [isTop, opens] using h
    simp [widest, own, isTop]
  | dynamic | void => rfl
  | _ => simp [isTop, opens] at h

theorem isHiddenTop_widest (clear : ¬ t.isHiddenTop) (known : t ≠ .unknown) :
    ¬ (t.widest vars width).isHiddenTop := by
  intro hidden
  simp only [isHiddenTop, Bool.and_eq_true, Bool.not_eq_true'] at hidden
  obtain ⟨⟨topLike, notTop⟩, _⟩ := hidden
  have isTop : (t.widest vars width).isTop := by
    refine isTop_widest ((topLike_widest topLike).imp_left fun topLike => ?_)
    simpa [isHiddenTop, topLike, known] using clear
  simp [isTop] at notTop

theorem clear_lowest {s : Bool} (clear : Clear s t) : Clear s (t.lowest vars) := by
  cases t with
  | param p =>
    rw [lowest]
    split <;> simp [Clear, isHiddenTop, topLike]
  | _ => exact clear

/-- Only what opens for all types becomes a top type, and then the check recognizes it. -/
theorem clear_widest (clear : Clear true t) : Clear true (t.widest vars width) := by
  induction t using induct with
  | unknown | dynamic | void | never | promoted => exact clear
  | interface d as ih =>
    have clear := (everyAt_interface.1 clear).2
    rw [widest, widestAll_eq_map]
    refine everyAt_interface.2 ⟨fun _ => by simp [isHiddenTop, topLike], ?_⟩
    exact List.forall_mem_map.2 fun a ha => ih a ha (clear a ha)
  | nullable t ih =>
    have own : ¬ (t.nullable.widest vars width).isHiddenTop :=
      isHiddenTop_widest clear.self (by simp)
    exact everyAt_nullable.2 ⟨fun _ => own, ih (everyAt_nullable.1 clear).2⟩
  | futureOr t ih =>
    have own : ¬ (t.futureOr.widest vars width).isHiddenTop :=
      isHiddenTop_widest clear.self (by simp)
    exact everyAt_futureOr.2 ⟨fun _ => own, ih (everyAt_futureOr.1 clear).2⟩
  | param p =>
    rw [widest]
    split <;> simp [Clear, isHiddenTop, topLike, isTop]
  | func ps r _ ih =>
    obtain ⟨_, params, result⟩ := everyAt_func.1 clear
    rw [widest]
    split
    · refine everyAt_func.2 ⟨fun _ => by simp [isHiddenTop, topLike], ?_, ih result⟩
      exact List.forall_mem_map.2 fun p hp => clear_lowest (params p hp)
    · simp [Clear, isHiddenTop, topLike]
  | record fs ih =>
    have clear := (everyAt_record.1 clear).2
    rw [widest, widestAll_eq_map]
    refine everyAt_record.2 ⟨fun _ => by simp [isHiddenTop, topLike], ?_⟩
    exact List.forall_mem_map.2 fun f hf => ih f hf (clear f hf)

end Tops

end Ty

namespace Program

variable {P : Program} {vars : List ParamId} {width : Nat} {t : Ty}

theorem valid_lowest (valid : P.Valid t) : P.Valid (t.lowest vars) := by
  cases t with
  | param p =>
    rw [Ty.lowest]
    split
    · simp [Valid, hasHead]
    · exact valid
  | _ => exact valid

theorem valid_widest (valid : P.Valid t) : P.Valid (t.widest vars width) := by
  induction t using Ty.induct with
  | unknown | dynamic | void | never | promoted => exact valid
  | interface d as ih =>
    obtain ⟨arity, valid⟩ := valid_interface.1 valid
    rw [Ty.widest, Ty.widestAll_eq_map]
    exact valid_interface.2 ⟨by simpa using arity,
      List.forall_mem_map.2 fun a ha => ih a ha (valid a ha)⟩
  | nullable t ih => exact valid_nullable.2 (ih (valid_nullable.1 valid))
  | futureOr t ih => exact valid_futureOr.2 (ih (valid_futureOr.1 valid))
  | param p =>
    rw [Ty.widest]
    split
    · simp [Valid, hasHead]
    · exact valid
  | func ps r _ ih =>
    obtain ⟨params, result⟩ := valid_func.1 valid
    rw [Ty.widest]
    split
    · exact valid_func.2 ⟨List.forall_mem_map.2 fun p hp => valid_lowest (params p hp), ih result⟩
    · simp [Valid, hasHead]
  | record fs ih =>
    have valid := valid_record.1 valid
    rw [Ty.widest, Ty.widestAll_eq_map]
    exact valid_record.2 (List.forall_mem_map.2 fun f hf => ih f hf (valid f hf))

theorem Fits.widest (fits : P.Fits true t) : P.Fits true (t.widest vars width) :=
  ⟨valid_widest fits.valid, Ty.clear_widest fits.clear⟩

end Program

end MemberAccess
