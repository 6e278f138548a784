import Mathlib.Data.List.Sort
import MemberAccess.Proofs.Renaming.Types

/-!
Substitutions for renamed parameters. A substitution mirrors another one if it assigns to the new
name of a parameter what the other one assigns to the parameter, up to a renaming of the types.
-/
namespace MemberAccess

namespace Substitution

variable {es : List (ParamId × Ty)} {s r : Substitution} {p : ParamId} {t : Ty}

theorem get?_eq_some : s.get? p = some t ↔ (p, t) ∈ s.entries := by
  refine ⟨mem_of_get?, fun member => ?_⟩
  have sorted := s.sorted
  unfold get?
  generalize s.entries = es at member sorted
  induction es with
  | nil => cases member
  | cons e es ih =>
    obtain ⟨below, tail⟩ := List.pairwise_cons.1 sorted
    rcases List.mem_cons.1 member with rfl | member
    · simp
    · have different : p ≠ e.1 := by
        intro same
        have less : e.1.val < p.val := below _ member
        rw [same] at less
        omega
      rw [List.lookup_cons, beq_eq_false_iff_ne.2 different]
      exact ih member tail

theorem ext_get? (h : ∀ p, s.get? p = r.get? p) : s = r := by
  have irrefl : Std.Irrefl fun a b : ParamId × Ty => a.1.val < b.1.val := ⟨fun _ => Nat.lt_irrefl _⟩
  have antisymm : Std.Antisymm fun a b : ParamId × Ty => a.1.val < b.1.val :=
    ⟨fun _ _ less greater => absurd greater (Nat.lt_asymm less)⟩
  have entries : s.entries = r.entries := s.sorted.eq_of_mem_iff r.sorted fun e => by
    rw [← get?_eq_some, ← get?_eq_some, h]
  cases s
  cases r
  simp_all

theorem isEmpty_iff : s.isEmpty = true ↔ ∀ p, s.get? p = none := by
  rw [isEmpty, List.isEmpty_iff, List.eq_nil_iff_forall_not_mem]
  constructor
  · intro empty p
    apply Option.eq_none_iff_forall_ne_some.2
    intro t value
    exact empty _ (get?_eq_some.1 value)
  · intro absent e member
    have value := get?_eq_some.2 member
    rw [absent] at value
    cases value

theorem get?_mapTypes {f : Ty → Ty} : (s.mapTypes f).get? p = (s.get? p).map f := by
  apply Option.ext
  intro u
  simp only [get?_eq_some, Option.map_eq_some_iff, mapTypes, List.mem_map]
  constructor
  · rintro ⟨⟨q, t⟩, member, same⟩
    cases same
    exact ⟨t, member, rfl⟩
  · rintro ⟨t, member, rfl⟩
    exact ⟨(p, t), member, rfl⟩

theorem get?_insertAll_of_absent (absent : ∀ e ∈ es, e.1 ≠ p) :
    (s.insertAll es).get? p = s.get? p := by
  induction es generalizing s with
  | nil => rfl
  | cons e es ih =>
    obtain ⟨different, absent⟩ := List.forall_mem_cons.1 absent
    have rest : ((s.insert e.1 e.2).insertAll es).get? p = (s.insert e.1 e.2).get? p := ih absent
    rw [get?_insert, if_neg (Ne.symm different)] at rest
    exact rest

theorem get?_insertAll_of_sorted (sorted : es.Pairwise fun a b => a.1.val < b.1.val)
    (member : (p, t) ∈ es) : (s.insertAll es).get? p = some t := by
  induction es generalizing s with
  | nil => cases member
  | cons e es ih =>
    obtain ⟨below, tail⟩ := List.pairwise_cons.1 sorted
    rcases List.mem_cons.1 member with rfl | member
    · have absent : ∀ e ∈ es, e.1 ≠ p := by
        intro e he same
        have less : p.val < e.1.val := below e he
        rw [same] at less
        omega
      have last : ((s.insert p t).insertAll es).get? p = (s.insert p t).get? p :=
        get?_insertAll_of_absent absent
      rw [get?_insert, if_pos rfl] at last
      exact last
    · exact ih tail member

theorem ofList_entries : ofList s.entries = s := by
  apply ext_get?
  intro p
  cases value : s.get? p with
  | some t => exact get?_insertAll_of_sorted s.sorted (get?_eq_some.1 value)
  | none =>
    apply get?_insertAll_of_absent
    intro e member same
    have present := get?_eq_some.2 member
    rw [same, value] at present
    cases present

theorem isSome_get?_insertAll :
    ((s.insertAll es).get? p).isSome ↔ (∃ e ∈ es, e.1 = p) ∨ (s.get? p).isSome := by
  induction es generalizing s with
  | nil => simp [insertAll]
  | cons e es ih =>
    have step : s.insertAll (e :: es) = (s.insert e.1 e.2).insertAll es := rfl
    rw [step, ih, get?_insert, List.exists_mem_cons_iff]
    by_cases same : p = e.1
    · simp [same]
    · simp [same, Ne.symm same]

theorem isSome_get?_insertAll_zip {ps : List ParamId} {ts : List Ty}
    (arity : ts.length = ps.length) :
    ((s.insertAll (ps.zip ts)).get? p).isSome ↔ p ∈ ps ∨ (s.get? p).isSome := by
  have keys : (ps.zip ts).map Prod.fst = ps := List.map_fst_zip arity.ge
  rw [isSome_get?_insertAll, ← List.mem_map, keys]

def renameKeys (s : Substitution) (ρ : ParamId → ParamId) : Substitution :=
  ofList (s.entries.map fun e => (ρ e.1, e.2))

end Substitution

/-- Whether what a substitution assigns to the new names of parameters is what another one assigns
    to the parameters, after a renaming of its types. -/
structure Mirrors (ρ τ : ParamId → ParamId) (ps : List ParamId) (s r : Substitution) : Prop where
  outside : ∀ p, p ∉ ps → s.get? p = none
  outside_renamed : ∀ p, p ∉ ps.map ρ → r.get? p = none
  renamed : ∀ p ∈ ps, r.get? (ρ p) = (s.get? p).map (Ty.rename τ)

variable {ρ τ : ParamId → ParamId} {ps qs vars : List ParamId} {s r r' : Substitution}
  {p : ParamId} {t u : Ty} {es : List (ParamId × Ty)}

namespace Mirrors

theorem empty : Mirrors ρ τ ps .empty .empty :=
  ⟨fun _ _ => rfl, fun _ _ => rfl, fun _ _ => rfl⟩

theorem mem (mirrors : Mirrors ρ τ ps s r) (value : s.get? p = some u) : p ∈ ps := by
  by_contra outside
  rw [mirrors.outside p outside] at value
  cases value

theorem assigned (mirrors : Mirrors ρ τ ps s r) (value : s.get? p = some u) :
    r.get? (ρ p) = some (u.rename τ) := by
  rw [mirrors.renamed p (mirrors.mem value), value, Option.map_some]

theorem exists_assigned (mirrors : Mirrors ρ τ ps s r) (value : r.get? p = some u) :
    ∃ q ∈ ps, ρ q = p ∧ ∃ t, s.get? q = some t ∧ t.rename τ = u := by
  have own : p ∈ ps.map ρ := by
    by_contra outside
    rw [mirrors.outside_renamed p outside] at value
    cases value
  obtain ⟨q, hq, rfl⟩ := List.mem_map.1 own
  rw [mirrors.renamed q hq, Option.map_eq_some_iff] at value
  exact ⟨q, hq, rfl, value⟩

theorem insert (mirrors : Mirrors ρ τ ps s r) (injective : Set.InjOn ρ {p | p ∈ ps}) (hp : p ∈ ps)
    (hu : u = t.rename τ) : Mirrors ρ τ ps (s.insert p t) (r.insert (ρ p) u) where
  outside q hq := by
    have different : q ≠ p := fun same => hq (same ▸ hp)
    rw [Substitution.get?_insert, if_neg different, mirrors.outside q hq]
  outside_renamed q hq := by
    have different : q ≠ ρ p := fun same => hq (same ▸ List.mem_map_of_mem hp)
    rw [Substitution.get?_insert, if_neg different, mirrors.outside_renamed q hq]
  renamed q hq := by
    rw [Substitution.get?_insert, Substitution.get?_insert]
    by_cases same : q = p
    · rw [if_pos same, if_pos (congrArg ρ same), Option.map_some, hu]
    · have different : ρ q ≠ ρ p := fun h => same (injective hq hp h)
      rw [if_neg same, if_neg different, mirrors.renamed q hq]

theorem insertAll (mirrors : Mirrors ρ τ ps s r) (injective : Set.InjOn ρ {p | p ∈ ps})
    (keys : ∀ e ∈ es, e.1 ∈ ps) :
    Mirrors ρ τ ps (s.insertAll es) (r.insertAll (es.map fun e => (ρ e.1, e.2.rename τ))) := by
  induction es generalizing s r with
  | nil => exact mirrors
  | cons e es ih =>
    obtain ⟨hp, keys⟩ := List.forall_mem_cons.1 keys
    exact ih (mirrors.insert injective hp rfl) keys

theorem ofList (injective : Set.InjOn ρ {p | p ∈ ps}) (keys : ∀ e ∈ es, e.1 ∈ ps) :
    Mirrors ρ τ ps (.ofList es) (.ofList (es.map fun e => (ρ e.1, e.2.rename τ))) :=
  empty.insertAll injective keys

theorem get?_eq_none (mirrors : Mirrors ρ τ ps s r) (hp : p ∈ ps) :
    r.get? (ρ p) = none ↔ s.get? p = none := by
  rw [mirrors.renamed p hp, Option.map_eq_none_iff]

theorem isEmpty_eq (mirrors : Mirrors ρ τ ps s r) : r.isEmpty = s.isEmpty := by
  rw [Bool.eq_iff_iff, Substitution.isEmpty_iff, Substitution.isEmpty_iff]
  constructor
  · intro absent p
    by_cases hp : p ∈ ps
    · exact (mirrors.get?_eq_none hp).1 (absent _)
    · exact mirrors.outside p hp
  · intro absent q
    by_cases hq : q ∈ ps.map ρ
    · obtain ⟨p, hp, rfl⟩ := List.mem_map.1 hq
      exact (mirrors.get?_eq_none hp).2 (absent p)
    · exact mirrors.outside_renamed q hq

theorem unique (first : Mirrors ρ τ ps s r) (second : Mirrors ρ τ ps s r') : r = r' := by
  apply Substitution.ext_get?
  intro q
  by_cases hq : q ∈ ps.map ρ
  · obtain ⟨p, hp, rfl⟩ := List.mem_map.1 hq
    rw [first.renamed p hp, second.renamed p hp]
  · rw [first.outside_renamed q hq, second.outside_renamed q hq]

theorem eq_renameKeys (mirrors : Mirrors ρ id ps s r) (injective : Set.InjOn ρ {p | p ∈ ps}) :
    r = s.renameKeys ρ := by
  have keys : ∀ e ∈ s.entries, e.1 ∈ ps := fun e member =>
    mirrors.mem (Substitution.get?_eq_some.2 member)
  have image := Mirrors.ofList (τ := id) injective keys
  rw [Substitution.ofList_entries] at image
  simp only [Ty.rename_id] at image
  exact mirrors.unique image

theorem mono (mirrors : Mirrors ρ τ ps s r) (injective : Set.InjOn ρ {p | p ∈ qs})
    (subset : ps ⊆ qs) : Mirrors ρ τ qs s r where
  outside p hp := mirrors.outside p fun h => hp (subset h)
  outside_renamed p hp := mirrors.outside_renamed p fun h => hp (List.map_subset ρ subset h)
  renamed p hp := by
    by_cases own : p ∈ ps
    · exact mirrors.renamed p own
    · have fresh : ρ p ∉ ps.map ρ := by
        intro h
        obtain ⟨q, hq, same⟩ := List.mem_map.1 h
        exact own (injective (subset hq) hp same ▸ hq)
      rw [mirrors.outside p own, mirrors.outside_renamed _ fresh, Option.map_none]

end Mirrors

namespace Ty

theorem rename_substitute (vars : List ParamId) (empty : r.isEmpty = s.isEmpty)
    (replaced : ∀ p ∈ t.params, ∀ u, s.get? p = some u → r.get? (ρ p) = some (u.rename τ))
    (kept : ∀ p ∈ t.params, s.get? p = none → p ∉ vars → r.get? (ρ p) = none ∧ τ p = ρ p)
    (free : (t.substitute s).Free vars) :
    (t.rename ρ).substitute r = (t.substitute s).rename τ := by
  unfold substitute at free ⊢
  rw [empty]
  split
  · next isEmpty =>
    rw [if_pos isEmpty] at free
    apply rename_congr
    intro p hp
    have absent := Substitution.isEmpty_iff.1 isEmpty p
    exact (kept p hp absent (free_iff.1 free p hp)).2.symm
  · next nonempty =>
    rw [if_neg nonempty] at free
    exact rename_replace replaced kept free

end Ty

end MemberAccess
