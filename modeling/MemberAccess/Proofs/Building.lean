import Mathlib.Logic.Relation
import MemberAccess.Program.Core
import MemberAccess.Proofs.Outcomes
import MemberAccess.Typing.Supertypes

/-!
Programs as they are built, one declaration after the other. No step takes back a type declaration,
so that `Object`, `Null` and `Future` are in every program as they are in the initial one, whatever
else is declared and whether or not that is in range.
-/
namespace MemberAccess

theorem Table.get?_of_insert {k : Kind} {α : Type} {t t' : Table k α} {i j : Index k} {x y : α}
    (h : t.insert x = .ok (i, t')) (hj : t.get? j = some y) : t'.get? j = some y := by
  obtain ⟨inside, same⟩ := Array.getElem?_eq_some_iff.1 hj
  have later : j.val < t.entries.size + 1 := by omega
  simp [get?, (of_insert h).2, Array.getElem_push, inside, same, later]

namespace Program

inductive Builds : Program → Program → Prop
  | addLibrary (name : String) : P.addLibrary name = .ok (l, Q) → Builds P Q
  | addImport (l : LibraryId) (i : Import) : P.addImport l i = .ok Q → Builds P Q
  | addParam (q : TypeParam) : P.addParam q = .ok (p, Q) → Builds P Q
  | setBound (p : ParamId) (t : Ty) : P.setBound p t = .ok Q → Builds P Q
  | addType (d : TypeDecl) : P.addType d = .ok (e, Q) → Builds P Q
  | addDecl (d : Decl) : P.addDecl d = .ok (i, Q) → Builds P Q
  | addClass (name : String) (ps : List ParamId) (supers : List Ty) (l : LibraryId) :
      P.addClass name ps supers l = .ok (e, i, Q) → Builds P Q
  | addView (name : String) (ps : List ParamId) (t : Ty) (exposure : Exposure) (l : LibraryId) :
      P.addView name ps t exposure l = .ok (e, i, Q) → Builds P Q
  | addExtension (binder : Option String) (ps : List ParamId) (t : Ty) (l : LibraryId) :
      P.addExtension binder ps t l = .ok (i, Q) → Builds P Q
  | addMember (i : DeclId) (m : Member) : P.addMember i m = .ok (j, Q) → Builds P Q

/-- Whether a program is built from the initial one. -/
def Built (P : Program) : Prop := Relation.ReflTransGen Builds initial P

variable {P Q : Program} {e f : TypeId} {d : DeclId} {decl decl' : TypeDecl} {body : Decl}
  {as : List Ty}

theorem addDecl_types (h : P.addDecl body = .ok (d, Q)) : Q.types = P.types := by
  obtain ⟨_, _, h⟩ := bind_eq_ok.1 h
  cases h
  rfl

theorem addType_types (h : P.addType decl' = .ok (f, Q)) (he : P.types.get? e = some decl) :
    Q.types.get? e = some decl := by
  obtain ⟨_, inserted, h⟩ := bind_eq_ok.1 h
  cases h
  exact Table.get?_of_insert inserted he

theorem Builds.get?_types (h : Builds P Q) (he : P.types.get? e = some decl) :
    Q.types.get? e = some decl := by
  cases h with
  | addLibrary _ h | addImport _ _ h | addParam _ h | setBound _ _ h =>
    obtain ⟨_, _, h⟩ := bind_eq_ok.1 h
    cases h
    exact he
  | addType _ h => exact addType_types h he
  | addDecl _ h | addExtension _ _ _ _ h => rwa [addDecl_types h]
  | addClass _ _ _ _ h | addView _ _ _ _ _ h =>
    obtain ⟨_, added, h⟩ := bind_eq_ok.1 h
    obtain ⟨_, declared, h⟩ := bind_eq_ok.1 h
    cases h
    rw [addDecl_types declared]
    exact addType_types added he
  | addMember _ _ h =>
    obtain ⟨_, _, h⟩ := bind_eq_ok.1 h
    obtain ⟨_, _, h⟩ := bind_eq_ok.1 h
    obtain ⟨_, _, h⟩ := bind_eq_ok.1 h
    cases h
    exact he

namespace Built

variable (built : P.Built)

include built

theorem get?_types (he : initial.types.get? e = some decl) : P.types.get? e = some decl := by
  induction built with
  | refl => exact he
  | tail _ step ih => exact step.get?_types ih

theorem object : P.types.get? TypeId.object = some (coreClass "Object" [] []) :=
  built.get?_types rfl

theorem null : P.types.get? TypeId.null = some (coreClass "Null" [] []) :=
  built.get?_types rfl

theorem future : P.types.get? TypeId.future = some (coreClass "Future" [⟨0⟩] []) :=
  built.get?_types rfl

end Built

theorem visit_of_root (he : P.types.get? e = some decl) (supers : decl.supers = [])
    (root : decl.extendsObject e = false) {visited : List TypeId} (fresh : e ∉ visited) (n : Nat) :
    P.visit (n + 1) visited [⟨e, as⟩] = .ok [⟨e, as⟩] := by
  have last : P.visit n (e :: visited) [] = .ok [] := by cases n <;> rfl
  simp [visit, fresh, Table.fetch_eq_ok.2 he, TypeDecl.directSupers, supers, root, last, ok_bind]

namespace Built

variable (built : P.Built)

include built

theorem supertypes_null : P.supertypes ⟨.null, as⟩ = .ok [⟨.null, as⟩] :=
  visit_of_root built.null rfl rfl List.not_mem_nil _

theorem supertypes_future : P.supertypes ⟨.future, as⟩ = .ok [⟨.future, as⟩, ⟨.object, []⟩] := by
  obtain ⟨inside, _⟩ := Array.getElem?_eq_some_iff.1 built.object
  obtain ⟨n, hn⟩ : ∃ n, P.types.size = n + 1 := ⟨P.types.size - 1, by
    have : 0 < P.types.size := inside
    omega⟩
  have last : P.visit (n + 1) [.future] [⟨.object, []⟩] = .ok [⟨.object, []⟩] :=
    visit_of_root built.object rfl rfl (by decide) n
  have direct : (coreClass "Future" [⟨0⟩] []).directSupers ⟨.future, as⟩ = [⟨.object, []⟩] := rfl
  rw [supertypes, hn, visit]
  simp [Table.fetch_eq_ok.2 built.future, direct, last, ok_bind]

end Built

theorem built_core : core.Built := by
  let num : Ty := .interface ⟨4⟩ []
  refine .head (.addParam ⟨"T", none⟩ rfl) ?_
  refine .head (.addType (coreClass "Comparable" [⟨1⟩] []) rfl) ?_
  refine .head (.addType (coreClass "num" [] [.interface ⟨3⟩ [num]]) rfl) ?_
  refine .head (.addType (coreClass "int" [] [num]) rfl) ?_
  refine .head (.addType (coreClass "double" [] [num]) rfl) ?_
  refine .head (.addType (coreClass "String" [] [.interface ⟨3⟩ [.interface ⟨7⟩ []]]) rfl) ?_
  refine .head (.addType (coreClass "bool" [] []) rfl) ?_
  refine .head (.addParam ⟨"E", none⟩ rfl) ?_
  refine .head (.addType (coreClass "Iterable" [⟨2⟩] []) rfl) ?_
  refine .head (.addParam ⟨"E", none⟩ rfl) ?_
  refine .head (.addType (coreClass "List" [⟨3⟩] [.interface ⟨9⟩ [.param ⟨3⟩]]) rfl) ?_
  exact .refl

end Program

end MemberAccess
