import MemberAccess.Proofs.Instantiation.Equations
import MemberAccess.Proofs.Matching.Applicability
import MemberAccess.Proofs.Matching.Invariants
import MemberAccess.Proofs.Substitution.Composition

/-!
Normal forms in answers. Equality of types is that of their structure, so no operation may put a
question mark around a type that has one already, or around one that accepts null by itself. None
does: where declared bounds and supertypes are in normal form, types in normal form lead to types in
normal form only.
-/
namespace MemberAccess

open Unification Program Bounds

def Substitution.InNormalForm (s : Substitution) : Prop := ∀ t ∈ s.types, t.InNormalForm

instance (s : Substitution) : Decidable s.InNormalForm :=
  inferInstanceAs (Decidable (∀ t ∈ s.types, t.InNormalForm))

variable {P : Program} {s r σ fixed : Substitution} {t u v pattern concrete : Ty} {p : ParamId}
  {i : Instance} {found : List Instance} {ps vars : List ParamId} {n limit : Nat}

theorem Ty.InNormalForm.substitute (ht : t.InNormalForm)
    (values : ∀ p u, s.get? p = some u → u.InNormalForm) : (t.substitute s).InNormalForm :=
  rebuilds_normal.every_substitute ht values

namespace Substitution

theorem inNormalForm_iff : s.InNormalForm ↔ ∀ p t, s.get? p = some t → t.InNormalForm := by
  simp only [InNormalForm, types, List.forall_mem_map, get?_eq_some, Prod.forall]

theorem InNormalForm.insert (hs : s.InNormalForm) (ht : t.InNormalForm) :
    (s.insert p t).InNormalForm := by
  rw [inNormalForm_iff] at hs ⊢
  intro q u value
  rw [get?_insert] at value
  split at value
  · cases value
    exact ht
  · exact hs q u value

theorem InNormalForm.compose (hs : s.InNormalForm) (hr : r.InNormalForm) :
    (s.compose r).InNormalForm := by
  rw [inNormalForm_iff] at hs hr ⊢
  intro p t value
  rw [get?_compose] at value
  cases first : s.get? p with
  | none =>
    rw [first] at value
    exact hr p t value
  | some u =>
    rw [first] at value
    cases value
    exact (hs p u first).substitute hr

end Substitution

namespace Bounds

theorem normal_converge (normal : ∀ p u, s.get? p = some u → u.InNormalForm)
    (run : converge vars n s = .ok σ) : ∀ p u, σ.get? p = some u → u.InNormalForm := by
  fun_induction converge vars n s with
  | case1 n s closed =>
    cases run
    exact normal
  | case2 s p opened => cases run
  | case3 n s p opened ih =>
    refine ih (fun p u value => ?_) run
    rw [Substitution.get?_mapTypes] at value
    obtain ⟨t, found, rfl⟩ := Option.map_eq_some_iff.1 value
    exact (normal p t found).substitute normal

end Bounds

namespace Program

/-- A program whose declared bounds and supertypes are in normal form. -/
structure Normalized (P : Program) : Prop where
  bounds : ∀ p q t, P.params.get? p = some q → q.bound = some t → t.InNormalForm
  supers : ∀ e d, P.types.get? e = some d → ∀ t ∈ d.supers, t.InNormalForm

namespace Normalized

variable (normalized : P.Normalized)

include normalized

theorem persistent : P.Persistent fun part => ¬ part.hasIdleMark where
  toRebuilds := Ty.rebuilds_normal
  object := by decide
  bounds p q hq _ t bound := normalized.bounds p q t hq bound
  supers := normalized.supers

theorem supertypes (hi : ∀ a ∈ i.args, a.InNormalForm) (h : P.supertypes i = .ok found) :
    ∀ j ∈ found, ∀ a ∈ j.args, a.InNormalForm := by
  have start : i.type.InNormalForm := Ty.every_interface.2 ⟨nofun, hi⟩
  intro j hj
  exact (Ty.every_interface.1 (normalized.persistent.every_supertypes start h j hj)).2

theorem bindLower (hc : concrete.InNormalForm) :
    Preserves Substitution.InNormalForm (P.bindLower limit p concrete) := by
  intro s s' hs h
  unfold Program.bindLower at h
  cases value : s.get? p with
  | none =>
    rw [value] at h
    cases h
    exact hs.insert hc
  | some lower =>
    rw [value] at h
    obtain ⟨bound, merged, h⟩ := bind_eq_ok.1 h
    cases h
    have hlower := Substitution.inNormalForm_iff.1 hs p lower value
    exact hs.insert (normalized.persistent.every_upperBound hlower hc merged)

/-- The types of a solution are merged from parts of the concrete type, so those of the pattern do
    not matter. -/
theorem unify (hc : concrete.InNormalForm)
    (h : P.unify limit pattern concrete vars = .ok (some s)) : s.InNormalForm := by
  obtain ⟨run, _⟩ := unify_eq_some.1 h
  refine normalized.persistent.matchType_preserves (fun p _ c hc => ?_) hc .empty s ?_ run
  · exact normalized.bindLower hc
  · exact nofun

theorem instantiateParams (hfixed : fixed.InNormalForm)
    (h : P.instantiateParams limit ps fixed = .ok (.ok σ)) : σ.InNormalForm := by
  rw [Substitution.inNormalForm_iff] at hfixed ⊢
  rw [instantiateParams_eq] at h
  obtain ⟨_, declared, h⟩ := bind_eq_ok.1 h
  obtain ⟨_, rfl⟩ := mapM_declaredBound.1 declared
  obtain ⟨r, run, rfl⟩ := except_map_eq_ok.1 (pure_eq_ok.1 h)
  rw [ofList_acyclic] at run
  have first (p : ParamId) (u : Ty)
      (value : (start (openParams ps fixed) (P.givenBound fixed)).get? p = some u) :
      u.InNormalForm := by
    obtain ⟨_, rfl⟩ := get?_start.1 value
    exact normal_brokenBound (normal_givenBound normalized.bounds hfixed)
  intro p t value
  rw [get?_insertAll_fixed] at value
  split at value
  · exact hfixed p t value
  · exact normal_converge first run p t value

theorem instantiateDecl {d : DeclId} {decl : Decl} (hd : P.decls.get? d = some decl)
    (applies : decl.appliesTo.InNormalForm) (h : P.instantiateDecl limit d = .ok (.ok t)) :
    t.InNormalForm := by
  unfold Program.instantiateDecl at h
  rw [Table.fetch_eq_ok.2 hd, ok_bind] at h
  obtain ⟨bounded, instantiated, h⟩ := bind_eq_ok.1 h
  obtain ⟨σ, rfl, rfl⟩ := except_map_eq_ok.1 (pure_eq_ok.1 h)
  have empty : Substitution.empty.InNormalForm := nofun
  have values := normalized.instantiateParams empty instantiated
  exact applies.substitute (Substitution.inNormalForm_iff.1 values)

end Normalized

/-- All types in the answers of the operations on types are in normal form if those they are asked
    about are. Declarations need not exist for that, nor do types need the right number of
    arguments. -/
theorem operations_keep_normal_form (P : Program) (normalized : P.Normalized) :
    (∀ (t : Ty) (s : Substitution), t.InNormalForm → s.InNormalForm →
      (t.substitute s).InNormalForm) ∧
    (∀ s r : Substitution, s.InNormalForm → r.InNormalForm → (s.compose r).InNormalForm) ∧
    (∀ i found, (∀ a ∈ i.args, a.InNormalForm) → P.supertypes i = .ok found →
      ∀ j ∈ found, ∀ a ∈ j.args, a.InNormalForm) ∧
    (∀ n t u v, t.InNormalForm → u.InNormalForm → P.upperBound n t u = .ok v →
      v.InNormalForm) ∧
    (∀ limit pattern concrete vars s, concrete.InNormalForm →
      P.unify limit pattern concrete vars = .ok (some s) → s.InNormalForm) ∧
    (∀ limit params fixed s, fixed.InNormalForm →
      P.instantiateParams limit params fixed = .ok (.ok s) → s.InNormalForm) ∧
    ∀ limit d decl t, P.decls.get? d = some decl → decl.appliesTo.InNormalForm →
      P.instantiateDecl limit d = .ok (.ok t) → t.InNormalForm :=
  ⟨fun _ _ ht hs => ht.substitute (Substitution.inNormalForm_iff.1 hs),
    fun _ _ => Substitution.InNormalForm.compose,
    fun _ _ => normalized.supertypes,
    fun _ _ _ _ => normalized.persistent.every_upperBound,
    fun _ _ _ _ _ => normalized.unify,
    fun _ _ _ _ => normalized.instantiateParams,
    fun _ _ _ _ => normalized.instantiateDecl⟩

/-- A class `Row<R>` that implements `Iterable<R?>`, a parameter `S extends Row<R?>` and an
    extension with the parameters `S` and `R` on `S?`. -/
def nullableRows : Program :=
  let r : Ty := .nullable (.param ⟨4⟩)
  { core with
    types := .ofList (core.types.entries.toList ++ [coreClass "Row" [⟨4⟩] [.interface ⟨9⟩ [r]]])
    params := .ofList (core.params.entries.toList ++
      [⟨"R", none⟩, ⟨"S", some (.interface ⟨11⟩ [r])⟩])
    decls := .ofList
      [{ binder := some "Rows", params := [⟨5⟩, ⟨4⟩], library := .core,
         body := .extension (.nullable (.param ⟨5⟩)) }] }

/-- Each of these answers would have two question marks in a row if it were just put together. -/
theorem nullableRows_normal :
    let int : Ty := .nullable (.interface ⟨5⟩ [])
    let pairs : Ty := .record [.param ⟨4⟩, .param ⟨4⟩]
    let found : List Instance := [⟨⟨11⟩, [int]⟩, ⟨⟨9⟩, [int]⟩, ⟨.object, []⟩]
    let s := Substitution.ofList [(⟨4⟩, int)]
    let t : Ty := .nullable (.interface ⟨11⟩ [.nullable .object])
    nullableRows.Normalized ∧
      (nullableRows.supertypes ⟨⟨11⟩, [int]⟩ = .ok found ∧
        ∀ j ∈ found, ∀ a ∈ j.args, a.InNormalForm) ∧
      (nullableRows.unify 2 pairs (.record [int, .null]) [⟨4⟩] = .ok (some s) ∧ s.InNormalForm) ∧
      nullableRows.instantiateDecl 1 ⟨0⟩ = .ok (.ok t) ∧ t.InNormalForm := by
  intro int pairs found s t
  have bounds : ∀ p q, nullableRows.params.get? p = some q → ∀ t ∈ q.bound, t.InNormalForm := by
    decide
  have normalized : nullableRows.Normalized := ⟨fun p q t hq => bounds p q hq t, by decide⟩
  have walked : nullableRows.supertypes ⟨⟨11⟩, [int]⟩ = .ok found := by decide +kernel
  have unified : nullableRows.unify 2 pairs (.record [int, .null]) [⟨4⟩] = .ok (some s) := by
    decide +kernel
  have instantiated : nullableRows.instantiateDecl 1 ⟨0⟩ = .ok (.ok t) := by decide +kernel
  obtain ⟨_, _, supertypes, _, unify, _, instantiateDecl⟩ :=
    operations_keep_normal_form nullableRows normalized
  exact ⟨normalized, ⟨walked, supertypes _ _ (by decide) walked⟩,
    ⟨unified, unify _ _ _ _ _ (by decide) unified⟩,
    instantiated, instantiateDecl _ _ _ _ rfl (by decide) instantiated⟩

end Program

end MemberAccess
