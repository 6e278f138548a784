import Mathlib.Data.List.Nodup
import Mathlib.Data.List.Perm.Subperm
import Mathlib.Data.List.TakeWhile
import Mathlib.Logic.Relation
import MemberAccess.Proofs.Outcomes
import MemberAccess.Proofs.Typing.Substitution

/-!
The supertype hierarchy of a program. The walk through it visits one instance of each declaration
that can be reached; if no two instances of one declaration can be reached, it visits all of them.
-/
namespace MemberAccess.Program

variable {P : Program} {t : Ty} {d : TypeDecl} {i j k : Instance} {e : TypeId} {xs : List Ty}

def arity? (P : Program) (d : TypeId) : Option Nat := (P.types.get? d).map (·.params.length)

def hasHead (P : Program) : Ty → Bool
  | .interface d as => P.arity? d = some as.length
  | .param p | .promoted p _ => (P.params.get? p).isSome
  | _ => true

/-- Whether a type refers to entries only, with as many arguments as they take. -/
def Valid (P : Program) (t : Ty) : Prop := t.Every (P.hasHead ·)

instance : Decidable (P.Valid t) := inferInstanceAs (Decidable (t.Every _))

def Extends (P : Program) (i j : Instance) : Prop :=
  ∃ d, P.types.get? i.decl = some d ∧ j ∈ d.directSupers i

def Reaches (P : Program) : Instance → Instance → Prop := Relation.ReflTransGen P.Extends

/-- Whether a declared supertype has the parameters in covariant positions only. -/
structure Template (P : Program) (d : TypeDecl) (i : Instance) : Prop where
  valid : P.Valid i.type
  clear : i.type.Clear false
  covariant : i.type.EveryAt false fun part => ∀ p ∈ part.param?, p ∉ d.params
  promoted : i.type.Every fun part => part.isPromoted → ∀ p ∈ part.param?, p ∈ d.params
  notNull : i.decl ≠ .null

/-- A program whose types are well-formed, and in which a type has no two supertypes that are
    instances of one declaration. -/
structure Coherent (P : Program) : Prop where
  object : ∃ d, P.types.get? TypeId.object = some d ∧ d.params = [] ∧ d.supers = []
  null : ∃ d, P.types.get? TypeId.null = some d ∧ d.params = [] ∧ d.supers = []
  future : ∃ d, P.types.get? TypeId.future = some d ∧ d.params.length = 1 ∧ d.supers = [] ∧
    d.kind ≠ .viewKind
  supers : ∀ e d, P.types.get? e = some d → ∀ i : Instance, i.type ∈ d.supers → P.Template d i
  bounds : ∀ p q bound, P.params.get? p = some q → q.bound = some bound →
    P.Valid bound ∧ bound.Clear false
  unique : ∀ i j k, P.Valid i.type → P.Reaches i j → P.Reaches i k → j.decl = k.decl → j = k

theorem valid_interface : P.Valid (.interface e xs) ↔
    P.arity? e = some xs.length ∧ ∀ x ∈ xs, P.Valid x := by
  simp [Valid, hasHead]

@[simp] theorem valid_nullable : P.Valid (.nullable t) ↔ P.Valid t := by
  simp [Valid, hasHead]

@[simp] theorem valid_futureOr : P.Valid (.futureOr t) ↔ P.Valid t := by
  simp [Valid, hasHead]

theorem valid_promoted {p : ParamId} :
    P.Valid (.promoted p t) ↔ P.Valid (.param p) ∧ P.Valid t := by
  simp [Valid, hasHead]

@[simp] theorem valid_func {ps : List Ty} :
    P.Valid (.func ps t) ↔ (∀ p ∈ ps, P.Valid p) ∧ P.Valid t := by
  simp [Valid, hasHead]

@[simp] theorem valid_record : P.Valid (.record xs) ↔ ∀ x ∈ xs, P.Valid x := by
  simp [Valid, hasHead]

theorem headed_hasHead : Ty.Headed (P.hasHead ·) where
  plain t := by cases t <;> simp [hasHead, Ty.declaration?, Ty.param?]
  interface _ _ _ hlength := by simp [hasHead, hlength]
  promoted _ _ := by simp [hasHead]

theorem valid_orNull : P.Valid t.orNull ↔ P.Valid t := headed_hasHead.every_orNull

theorem valid_replace {f : ParamId → Option Ty} (valid : P.Valid t)
    (values : ∀ p u, f p = some u → P.Valid u) : P.Valid (t.replace f) :=
  headed_hasHead.every_replace valid values

theorem arity?_eq_some {n : Nat} :
    P.arity? e = some n ↔ ∃ d, P.types.get? e = some d ∧ d.params.length = n :=
  Option.map_eq_some_iff

theorem length_params_of_arity {n : Nat} (arity : P.arity? e = some n)
    (hd : P.types.get? e = some d) : d.params.length = n := by
  obtain ⟨_, hd', hlength⟩ := arity?_eq_some.1 arity
  rw [hd] at hd'
  cases hd'
  exact hlength

theorem length_params (valid : P.Valid i.type) (hd : P.types.get? i.decl = some d) :
    d.params.length = i.args.length :=
  length_params_of_arity (valid_interface.1 valid).1 hd

theorem valid_substitute (hlength : d.params.length = xs.length) (valid : P.Valid t)
    (args : ∀ x ∈ xs, P.Valid x) : P.Valid (t.substitute (d.bindings xs)) := by
  rw [TypeDecl.substitute_bindings hlength]
  split
  · exact valid
  · exact valid_replace valid fun p u h => args u (TypeDecl.mem_of_bindings h).2

theorem ofType?_eq_some : Instance.ofType? t = some j ↔ t = j.type := by
  obtain ⟨e, xs⟩ := j
  cases t <;> simp [Instance.ofType?, Instance.type]

theorem mem_directSupers : j ∈ d.directSupers i ↔
    (∃ t ∈ d.supers, t.substitute (d.bindings i.args) = j.type) ∨
      d.extendsObject i.decl = true ∧ j = ⟨.object, []⟩ := by
  cases h : d.extendsObject i.decl <;>
    simp [TypeDecl.directSupers, h, List.mem_filterMap, ofType?_eq_some]

theorem substitute_param {p : ParamId} (ht : t.param? = some p)
    (hlength : d.params.length = xs.length) :
    t.substitute (d.bindings xs) =
      ((d.bindings xs).get? p).getD (t.substitute (d.bindings xs)) := by
  rw [TypeDecl.substitute_bindings hlength]
  cases value : (d.bindings xs).get? p with
  | none => rfl
  | some u =>
    have nonempty : d.params ≠ [] := List.ne_nil_of_mem (TypeDecl.mem_of_bindings value).1
    cases t <;> simp_all [Ty.param?, Ty.replace]

theorem Coherent.param_not_super (coherent : P.Coherent) {p : ParamId}
    (hd : P.types.get? e = some d) (ht : t ∈ d.supers) (hp : t.param? = some p) :
    p ∉ d.params := by
  intro own
  let plain : Instance := ⟨e, d.params.map fun _ => .dynamic⟩
  let nested : Instance := ⟨e, d.params.map fun _ => plain.type⟩
  have arity : P.arity? e = some d.params.length := arity?_eq_some.2 ⟨d, hd, rfl⟩
  have valid : P.Valid nested.type := by
    simp [nested, plain, Instance.type, arity, Valid, hasHead]
  have super : P.Extends nested plain := by
    refine ⟨d, hd, mem_directSupers.2 (.inl ⟨t, ht, ?_⟩)⟩
    have hlength : d.params.length = nested.args.length := by simp [nested]
    rw [substitute_param hp hlength]
    obtain ⟨u, value⟩ := Option.isSome_iff_exists.1 (TypeDecl.isSome_bindings hlength own)
    obtain ⟨_, _, rfl⟩ := List.mem_map.1 (TypeDecl.mem_of_bindings value).2
    rw [value, Option.getD_some]
  have same : nested = plain := coherent.unique _ _ _ valid .refl (.single super) rfl
  have args : nested.args = plain.args := by rw [same]
  have := List.map_inj_left.1 args p own
  simp [plain, Instance.type] at this

theorem replace_eq_interface {f : ParamId → Option Ty} (h : t.replace f = .interface e xs) :
    (∃ p, t.param? = some p ∧ f p = some (.interface e xs)) ∨ ∃ ts, t = .interface e ts := by
  cases t with
  | interface d ts =>
    cases h
    exact .inr ⟨ts, rfl⟩
  | nullable u => cases hu : u.replace f <;> simp [Ty.replace, hu, Ty.orNull] at h
  | param p => cases value : f p <;> simp_all [Ty.replace, Ty.param?]
  | promoted p bound => cases value : f p <;> simp_all [Ty.replace, Ty.param?]
  | _ => simp [Ty.replace] at h

theorem Coherent.directSupers_cases (coherent : P.Coherent)
    (hlength : d.params.length = i.args.length) (hd : P.types.get? i.decl = some d)
    (hj : j ∈ d.directSupers i) :
    (∃ k : Instance, k.type ∈ d.supers ∧ k.decl = j.decl ∧
      k.type.substitute (d.bindings i.args) = j.type) ∨
    d.extendsObject i.decl = true ∧ j = ⟨TypeId.object, []⟩ := by
  rcases mem_directSupers.1 hj with ⟨t, ht, substituted⟩ | object
  · rw [TypeDecl.substitute_bindings hlength] at substituted
    split at substituted
    · next closed =>
      refine .inl ⟨j, substituted ▸ ht, rfl, ?_⟩
      rw [TypeDecl.substitute_bindings hlength, if_pos closed]
    · next generic =>
      rcases replace_eq_interface substituted with ⟨p, headed, value⟩ | ⟨ts, rfl⟩
      · exact absurd (TypeDecl.mem_of_bindings value).1 (coherent.param_not_super hd ht headed)
      · refine .inl ⟨⟨j.decl, ts⟩, ht, rfl, ?_⟩
        rwa [TypeDecl.substitute_bindings hlength, if_neg generic]
  · exact .inr object

theorem Coherent.valid_object (coherent : P.Coherent) : P.Valid Ty.object := by
  obtain ⟨d, hd, hparams, _⟩ := coherent.object
  exact valid_interface.2 ⟨arity?_eq_some.2 ⟨d, hd, by simp [hparams]⟩, by simp⟩

theorem Coherent.valid_of_extends (coherent : P.Coherent) (valid : P.Valid i.type)
    (h : P.Extends i j) : P.Valid j.type := by
  obtain ⟨d, hd, hj⟩ := h
  rcases coherent.directSupers_cases (length_params valid hd) hd hj with
    ⟨k, hk, _, substituted⟩ | ⟨_, rfl⟩
  · rw [← substituted]
    exact valid_substitute (length_params valid hd) (coherent.supers _ d hd k hk).valid
      (valid_interface.1 valid).2
  · exact coherent.valid_object

/-- Instances that are declared, and whose supertypes are such instances again. -/
structure Region (P : Program) (Q : Instance → Prop) : Prop where
  declared : ∀ i, Q i → ∃ d, P.types.get? i.decl = some d
  supers : ∀ i j, Q i → P.Extends i j → Q j

theorem Region.reaches {Q : Instance → Prop} (region : P.Region Q) (hi : Q i)
    (h : P.Reaches i j) : Q j := by
  induction h with
  | refl => exact hi
  | tail _ last ih => exact region.supers _ _ ih last

theorem Coherent.region (coherent : P.Coherent) : P.Region fun i => P.Valid i.type where
  declared i valid := by
    obtain ⟨d, hd, _⟩ := arity?_eq_some.1 (valid_interface.1 valid).1
    exact ⟨d, hd⟩
  supers _ _ valid := coherent.valid_of_extends valid

theorem Coherent.clear_of_extends (coherent : P.Coherent) (valid : P.Valid i.type)
    (clear : i.type.Clear false) (h : P.Extends i j) : j.type.Clear false := by
  obtain ⟨d, hd, hj⟩ := h
  rcases coherent.directSupers_cases (length_params valid hd) hd hj with
    ⟨k, hk, _, substituted⟩ | ⟨_, rfl⟩
  · have template := coherent.supers _ d hd k hk
    rw [← substituted, TypeDecl.substitute_bindings (length_params valid hd)]
    split
    · exact template.clear
    · exact Ty.clear_replace template.clear
        (fun part h p hp => TypeDecl.bindings_eq_none (template.covariant part h p hp))
        fun p u h => (Ty.everyAt_interface.1 clear).2 u (TypeDecl.mem_of_bindings h).2
  · simp [Instance.type, Ty.Clear]

theorem Coherent.valid_of_reaches (coherent : P.Coherent) (valid : P.Valid i.type)
    (h : P.Reaches i j) : P.Valid j.type := coherent.region.reaches valid h

theorem Coherent.clear_of_reaches (coherent : P.Coherent) (valid : P.Valid i.type)
    (clear : i.type.Clear false) (h : P.Reaches i j) : j.type.Clear false := by
  induction h with
  | refl => exact clear
  | tail first last ih =>
    exact coherent.clear_of_extends (coherent.valid_of_reaches valid first) ih last

theorem Coherent.extends_null (coherent : P.Coherent) (hi : i.decl = .null) : ¬ P.Extends i j := by
  rintro ⟨d, hd, hj⟩
  obtain ⟨_, hd', _, supers⟩ := coherent.null
  rw [hi, hd'] at hd
  cases hd
  simp [mem_directSupers, supers, TypeDecl.extendsObject, hi] at hj

theorem Coherent.extends_object (coherent : P.Coherent) (hi : i.decl = .object) :
    ¬ P.Extends i j := by
  rintro ⟨d, hd, hj⟩
  obtain ⟨_, hd', _, supers⟩ := coherent.object
  rw [hi, hd'] at hd
  cases hd
  simp [mem_directSupers, supers, TypeDecl.extendsObject, hi] at hj

theorem reaches_eq (h : P.Reaches i j) (last : ∀ k, ¬ P.Extends i k) : j = i := by
  rcases h.cases_head with same | ⟨k, first, _⟩
  · exact same.symm
  · exact absurd first (last k)

theorem Coherent.future_object (coherent : P.Coherent) (t : Ty) :
    P.Reaches ⟨TypeId.future, [t]⟩ ⟨TypeId.object, []⟩ := by
  obtain ⟨d, hd, _, supers, kind⟩ := coherent.future
  refine .single ⟨d, hd, mem_directSupers.2 (.inr ⟨?_, rfl⟩)⟩
  simp [TypeDecl.extendsObject, supers, kind, TypeId.future, TypeId.object, TypeId.null]

theorem Coherent.null_of_reaches (coherent : P.Coherent) (valid : P.Valid i.type)
    (h : P.Reaches i j) (hj : j.decl = .null) : i = j := by
  rcases h.cases_tail with same | ⟨k, first, ⟨d, hd, last⟩⟩
  · exact same.symm
  · have hlength := length_params (coherent.valid_of_reaches valid first) hd
    rcases coherent.directSupers_cases hlength hd last with
      ⟨l, hl, same, _⟩ | ⟨_, rfl⟩
    · exact absurd (same.trans hj) (coherent.supers _ d hd l hl).notNull
    · cases hj

structure Visits (P : Program) (visited : List TypeId) (waiting found : List Instance) :
    Prop where
  sound : ∀ j ∈ found, ∃ i ∈ waiting, P.Reaches i j
  covers : ∀ i ∈ waiting, i.decl ∈ visited ∨ ∃ j ∈ found, j.decl = i.decl
  closed : ∀ i ∈ found, ∀ j, P.Extends i j → j.decl ∈ visited ∨ ∃ k ∈ found, k.decl = j.decl

theorem lt_size_of_get? (hd : P.types.get? e = some d) : e.val < P.types.size := by
  rw [Table.get?, Array.getElem?_eq_some_iff] at hd
  exact hd.1

theorem skip_visited (visited : List TypeId) (waiting : List Instance) :
    ∀ i ∈ waiting, i.decl ∈ visited ∨ i ∈ waiting.dropWhile (·.decl ∈ visited) := by
  intro i hi
  rw [← waiting.takeWhile_append_dropWhile (p := fun i : Instance => i.decl ∈ visited),
    List.mem_append] at hi
  exact hi.imp_left fun h => by simpa using List.mem_takeWhile_imp h

section Walk

variable {n : Nat} {visited : List TypeId} {waiting rest found : List Instance}
  {ψ : Instance → Prop}

/-- A walk that goes on until all instances that are waiting have been visited. -/
inductive Walk (P : Program) : List TypeId → List Instance → List Instance → Prop
  | done {visited : List TypeId} {waiting : List Instance} :
    waiting.dropWhile (·.decl ∈ visited) = [] → Walk P visited waiting []
  | step {visited : List TypeId} {waiting rest found : List Instance} {i : Instance}
    {d : TypeDecl} : waiting.dropWhile (·.decl ∈ visited) = i :: rest →
    P.types.get? i.decl = some d →
    Walk P (i.decl :: visited) (rest ++ d.directSupers i) found →
    Walk P visited waiting (i :: found)

theorem not_visited_of_next (next : waiting.dropWhile (·.decl ∈ visited) = i :: rest) :
    i.decl ∉ visited := by
  simpa [next] using List.head?_dropWhile_not (fun i : Instance => i.decl ∈ visited) waiting

theorem mem_waiting_of_next (next : waiting.dropWhile (·.decl ∈ visited) = i :: rest) :
    i ∈ waiting ∧ ∀ j ∈ rest, j ∈ waiting :=
  List.cons_subset.1 (next ▸ List.dropWhile_subset _)

theorem length_visited_le (distinct : visited.Nodup) (range : ∀ e ∈ visited, e.val < P.types.size) :
    visited.length ≤ P.types.size := by
  have indices : (visited.map (·.val)).Nodup :=
    List.Nodup.map (fun a b h => by cases a; cases b; simp_all) distinct
  have within : visited.map (·.val) ⊆ List.range P.types.size := by
    simpa [List.subset_def] using range
  simpa using (indices.subperm within).length_le

/-- No declaration is visited twice, so there is a step left for each one that is not visited:
    only at a declaration that does not exist can the walk end too early. -/
theorem visit_cases (visited : List TypeId) (waiting : List Instance)
    (steps : n + visited.length = P.types.size + 1) (distinct : visited.Nodup)
    (range : ∀ e ∈ visited, e.val < P.types.size) :
    (∃ found, P.visit n visited waiting = .ok found ∧ P.Walk visited waiting found) ∨
      ∃ i ∈ waiting, ∃ j, P.Reaches i j ∧ P.types.get? j.decl = none ∧
        P.visit n visited waiting = .error (.outOfRange P.types.size j.decl.val) := by
  induction n generalizing visited waiting with
  | zero =>
    -- More declarations would have been visited than there are.
    have := length_visited_le distinct range
    omega
  | succ n ih =>
    rw [visit]
    cases next : waiting.dropWhile (·.decl ∈ visited) with
    | nil => exact .inl ⟨[], rfl, .done next⟩
    | cons i rest =>
      obtain ⟨hi, hrest⟩ := mem_waiting_of_next next
      cases hd : P.types.get? i.decl with
      | none =>
        refine .inr ⟨i, hi, i, .refl, hd, ?_⟩
        simp only [Table.fetch, hd]
        rfl
      | some d =>
        simp only [Table.fetch_eq_ok.2 hd, ok_bind]
        rcases ih (i.decl :: visited) (rest ++ d.directSupers i)
            (by simp only [List.length_cons]; omega)
            (List.nodup_cons.2 ⟨not_visited_of_next next, distinct⟩)
            (List.forall_mem_cons.2 ⟨lt_size_of_get? hd, range⟩) with
          ⟨found, visits, walk⟩ | ⟨k, hk, j, reaches, undeclared, fault⟩
        · exact .inl ⟨i :: found, by rw [visits]; rfl, .step next hd walk⟩
        · have reached : ∃ w ∈ waiting, P.Reaches w j := by
            rcases List.mem_append.1 hk with hk | hk
            · exact ⟨k, hrest k hk, reaches⟩
            · exact ⟨i, hi, .head ⟨d, hd, hk⟩ reaches⟩
          obtain ⟨w, hw, reaches⟩ := reached
          exact .inr ⟨w, hw, j, reaches, undeclared, by rw [fault]; rfl⟩

theorem supertypes_cases (P : Program) (i : Instance) :
    (∃ found, P.supertypes i = .ok found ∧ P.Walk [] [i] found) ∨
      ∃ j, P.Reaches i j ∧ P.types.get? j.decl = none ∧
        P.supertypes i = .error (.outOfRange P.types.size j.decl.val) := by
  refine (P.visit_cases [] [i] rfl .nil (by simp)).imp_right ?_
  rintro ⟨w, hw, j, fault⟩
  obtain rfl := List.mem_singleton.1 hw
  exact ⟨j, fault⟩

theorem walk_of_supertypes (h : P.supertypes i = .ok found) : P.Walk [] [i] found := by
  rcases P.supertypes_cases i with ⟨found', h', walk⟩ | ⟨_, _, _, fault⟩
  · rw [h'] at h
    cases h
    exact walk
  · rw [fault] at h
    cases h

namespace Walk

theorem keeps (extended : ∀ i j, ψ i → P.Extends i j → ψ j) (walk : P.Walk visited waiting found)
    (start : ∀ i ∈ waiting, ψ i) : ∀ j ∈ found, ψ j := by
  induction walk with
  | done _ => simp
  | @step _ _ _ _ i d next hd _ ih =>
    obtain ⟨hi, hrest⟩ := mem_waiting_of_next next
    refine List.forall_mem_cons.2 ⟨start i hi, ih ?_⟩
    exact List.forall_mem_append.2 ⟨fun j hj => start j (hrest j hj),
      fun j hj => extended i j (start i hi) ⟨d, hd, hj⟩⟩

theorem distinct (walk : P.Walk visited waiting found) :
    (found.map (·.decl)).Nodup ∧ ∀ i ∈ found, i.decl ∉ visited := by
  induction walk with
  | done _ => simp
  | step next _ _ ih =>
    obtain ⟨distinct, unvisited⟩ := ih
    refine ⟨List.nodup_cons.2 ⟨fun again => ?_, distinct⟩,
      List.forall_mem_cons.2 ⟨not_visited_of_next next, ?_⟩⟩
    · obtain ⟨j, hj, same⟩ := List.mem_map.1 again
      exact unvisited j hj (by simp [same])
    · exact fun j hj own => unvisited j hj (List.mem_cons_of_mem _ own)

theorem visits (walk : P.Walk visited waiting found) : P.Visits visited waiting found := by
  induction walk with
  | @done visited waiting next =>
    refine ⟨by simp, fun i hi => .inl ?_, by simp⟩
    simpa [next] using skip_visited visited waiting i hi
  | @step visited waiting rest found i d next hd _ ih =>
    obtain ⟨sound, covers, closed⟩ := ih
    obtain ⟨hi, hrest⟩ := mem_waiting_of_next next
    have widen (e : TypeId) (h : e ∈ i.decl :: visited ∨ ∃ k ∈ found, k.decl = e) :
        e ∈ visited ∨ ∃ k ∈ i :: found, k.decl = e := by
      rcases h with h | ⟨k, hk, same⟩
      · rcases List.mem_cons.1 h with rfl | h
        · exact .inr ⟨i, List.mem_cons_self, rfl⟩
        · exact .inl h
      · exact .inr ⟨k, List.mem_cons_of_mem _ hk, same⟩
    refine ⟨fun j hj => ?_, fun j hj => ?_, fun j hj k super => ?_⟩
    · rcases List.mem_cons.1 hj with rfl | hj
      · exact ⟨j, hi, .refl⟩
      · obtain ⟨w, hw, reaches⟩ := sound j hj
        rcases List.mem_append.1 hw with hw | hw
        · exact ⟨w, hrest w hw, reaches⟩
        · exact ⟨i, hi, .head ⟨d, hd, hw⟩ reaches⟩
    · rcases skip_visited visited waiting j hj with h | h
      · exact .inl h
      · rw [next] at h
        rcases List.mem_cons.1 h with rfl | h
        · exact .inr ⟨j, List.mem_cons_self, rfl⟩
        · exact widen _ (covers j (List.mem_append_left _ h))
    · rcases List.mem_cons.1 hj with rfl | hj
      · obtain ⟨_, hd', hk⟩ := super
        rw [hd] at hd'
        cases hd'
        exact widen _ (covers k (List.mem_append_right _ hk))
      · exact widen _ (closed j hj k super)

end Walk

end Walk

namespace Region

variable {Q : Instance → Prop} (region : P.Region Q)

include region

section Unique

variable (hi : Q i)
  (unique : ∀ j k, P.Reaches i j → P.Reaches i k → j.decl = k.decl → j = k)

include hi unique

/-- The walk finds exactly the supertypes if no two of them are instances of one declaration. -/
theorem supertypes_eq_ok :
    ∃ found, P.supertypes i = .ok found ∧ ∀ j, j ∈ found ↔ P.Reaches i j := by
  obtain ⟨found, hfound, walk⟩ := (P.supertypes_cases i).resolve_right <| by
    rintro ⟨j, reaches, undeclared, _⟩
    obtain ⟨d, hd⟩ := region.declared j (region.reaches hi reaches)
    rw [undeclared] at hd
    cases hd
  obtain ⟨sound, covers, closed⟩ := walk.visits
  refine ⟨found, hfound, fun j => ⟨fun hj => by simpa using sound j hj, fun h => ?_⟩⟩
  have only (j k : Instance) (hk : k ∈ found) (hj : P.Reaches i j) (same : k.decl = j.decl) :
      j ∈ found := by
    have reached : P.Reaches i k := by simpa using sound k hk
    rwa [← unique k j reached hj same]
  induction h with
  | refl =>
    obtain ⟨k, hk, same⟩ := (covers i (by simp)).resolve_left (by simp)
    exact only i k hk .refl same
  | tail before last ih =>
    obtain ⟨k, hk, same⟩ := (closed _ ih _ last).resolve_left (by simp)
    exact only _ k hk (before.tail last) same

theorem superArgs_eq_ok (e : TypeId) :
    ∃ args, P.superArgs? i e = .ok args ∧ ∀ xs, args = some xs ↔ P.Reaches i ⟨e, xs⟩ := by
  obtain ⟨found, hfound, all⟩ := region.supertypes_eq_ok hi unique
  refine ⟨(found.find? (·.decl = e)).map (·.args), by simp [superArgs?, hfound], ?_⟩
  intro xs
  rw [Option.map_eq_some_iff]
  constructor
  · rintro ⟨j, hj, rfl⟩
    obtain rfl : j.decl = e := by simpa using List.find?_some hj
    exact (all j).1 (List.mem_of_find?_eq_some hj)
  · intro reaches
    cases first : found.find? (·.decl = e) with
    | none => simpa using List.find?_eq_none.1 first _ ((all _).2 reaches)
    | some j =>
      have same : j.decl = e := by simpa using List.find?_some first
      have reached := (all j).1 (List.mem_of_find?_eq_some first)
      exact ⟨j, rfl, by rw [unique j _ reached reaches same]⟩

end Unique

end Region

theorem Coherent.supertypes_eq_ok (coherent : P.Coherent) (valid : P.Valid i.type) :
    ∃ found, P.supertypes i = .ok found ∧ ∀ j, j ∈ found ↔ P.Reaches i j :=
  coherent.region.supertypes_eq_ok valid fun j k => coherent.unique i j k valid

theorem Coherent.superArgs_eq_ok (coherent : P.Coherent) (valid : P.Valid i.type) (e : TypeId) :
    ∃ args, P.superArgs? i e = .ok args ∧ ∀ xs, args = some xs ↔ P.Reaches i ⟨e, xs⟩ :=
  coherent.region.superArgs_eq_ok valid (fun j k => coherent.unique i j k valid) e

end MemberAccess.Program
