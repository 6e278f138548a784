import MemberAccess.Proofs.Display.Items
import MemberAccess.Proofs.Range.Display

/-!
The text of a type as items. A type is shown as the items it consists of, and where no two things in
scope share a name, its items are all that a text can be read as. So types have the same text if and
only if they have the same items.
-/
namespace MemberAccess

open Display

def Ty.isFunction : Ty → Bool
  | .func .. => true
  | _ => false

namespace Program

variable (P : Program)

def typeWord (d : TypeId) : List Char := ((P.types.get? d).elim "" (·.name)).toList

def paramWord (p : ParamId) : List Char := ((P.params.get? p).elim "" (·.name)).toList

mutual
def items : Ty → List Item
  | .unknown => [.word "_".toList]
  | .dynamic => [.word "dynamic".toList]
  | .void => [.word "void".toList]
  | .never => [.word "Never".toList]
  | .interface d as => .word (P.typeWord d) :: arguments (texts as)
  | .nullable t =>
    if t.isFunction then [grouping (charsOf (items t)), .questionMark]
    else items t ++ [.questionMark]
  | .futureOr t => .word "FutureOr".toList :: arguments [charsOf (items t)]
  | .param p => [.word (P.paramWord p)]
  | .promoted p bound => .word (P.paramWord p) :: .ampersand :: items bound
  | .func ps r => items r ++ [signature (texts ps)]
  | .record fs => [fields (texts fs)]

def texts : List Ty → List (List Char)
  | [] => []
  | t :: ts => charsOf (items t) :: texts ts
end

variable {P} {t u : Ty} {ts : List Ty}

theorem items_nullable (plain : t.isFunction = false) :
    P.items (.nullable t) = P.items t ++ [.questionMark] := by
  rw [items, plain]
  rfl

theorem items_nullable_func (ps : List Ty) (r : Ty) :
    P.items (.nullable (.func ps r)) =
      [grouping (charsOf (P.items (.func ps r))), .questionMark] := by
  rw [items]
  rfl

theorem items_record (fs : List Ty) : P.items (.record fs) = [fields (P.texts fs)] := by
  rw [items]

theorem texts_eq_map : P.texts ts = ts.map fun t => charsOf (P.items t) := by
  induction ts <;> simp_all [texts]

theorem showTypes_eq (each : ∀ t ∈ ts, P.showType t = .ok (String.ofList (charsOf (P.items t)))) :
    P.showTypes ts = .ok ((P.texts ts).map String.ofList) := by
  induction ts with
  | nil => rfl
  | cons t ts ih =>
    obtain ⟨head, tail⟩ := List.forall_mem_cons.1 each
    rw [showTypes, head, ih tail]
    rfl

theorem showTypeName_eq {d : TypeId} (h : (P.types.get? d).isSome) :
    P.showTypeName d = .ok (String.ofList (P.typeWord d)) := by
  obtain ⟨decl, hd⟩ := Option.isSome_iff_exists.1 h
  simp [showTypeName, typeWord, Table.fetch_eq_ok.2 hd, hd]

theorem showParam_eq {p : ParamId} (h : (P.params.get? p).isSome) :
    P.showParam p = .ok (String.ofList (P.paramWord p)) := by
  obtain ⟨param, hp⟩ := Option.isSome_iff_exists.1 h
  simp [showParam, paramWord, Table.fetch_eq_ok.2 hp, hp]

theorem showType_eq (h : P.InRange t) :
    P.showType t = .ok (String.ofList (charsOf (P.items t))) := by
  induction t using Ty.induct with
  | unknown | dynamic | void | never => simp [showType, items]
  | interface d as ih =>
    obtain ⟨head, args⟩ := Ty.every_interface.1 h
    rw [showType, showTypeName_eq head, showTypes_eq fun a mem => ih a mem (args a mem)]
    refine congrArg Except.ok (String.toList_inj.1 ?_)
    simp [items, toList_angled]
  | nullable t ih =>
    rw [showType, ih (Ty.every_nullable.1 h).2]
    refine congrArg Except.ok (String.toList_inj.1 ?_)
    cases t <;> simp [questionMark, items, Ty.isFunction, chars_grouping]
  | futureOr t ih =>
    rw [showType, ih (Ty.every_futureOr.1 h).2]
    refine congrArg Except.ok (String.toList_inj.1 ?_)
    simp [items, charsOf_arguments]
  | param p => simp [showType, showParam_eq h.self, items]
  | promoted p bound ih =>
    obtain ⟨head, inRange⟩ := Ty.every_promoted.1 h
    rw [showType, showParam_eq head, ih inRange]
    refine congrArg Except.ok (String.toList_inj.1 ?_)
    simp [items]
  | func ps r ihParams ihResult =>
    obtain ⟨_, params, result⟩ := Ty.every_func.1 h
    rw [showType, ihResult result, showTypes_eq fun a mem => ihParams a mem (params a mem)]
    refine congrArg Except.ok (String.toList_inj.1 ?_)
    simp [items, toList_commas, chars_signature]
  | record fs ih =>
    obtain ⟨_, fields⟩ := Ty.every_record.1 h
    rw [showType, showTypes_eq fun f mem => ih f mem (fields f mem)]
    refine congrArg Except.ok (String.toList_inj.1 ?_)
    simp [items, toList_fieldList]

/-! ### Names -/

inductive Head where
  | builtIn (name : String)
  | type (d : TypeId)
  | param (p : ParamId)

def builtInNames : List String := ["_", "dynamic", "void", "Never", "FutureOr"]

variable (P) in
def typeNames : List String := P.types.entries.toList.map (·.name)

variable (P) in
def paramNames : List String := P.params.entries.toList.map (·.name)

variable (P) in
/-- Every name has one meaning, and is a word. Identifiers contain none of the characters that
    delimit words. The name `Function` is no exception, since a parenthesis never follows a word. -/
structure NamesApart : Prop where
  distinct : (builtInNames ++ (P.typeNames ++ P.paramNames)).Nodup
  words : ∀ name ∈ P.typeNames ++ P.paramNames, IsWord name.toList

namespace Head

variable (P) in
def word : Head → List Char
  | .builtIn name => name.toList
  | .type d => P.typeWord d
  | .param p => P.paramWord p

variable (P) in
def Listed (name : String) : Head → Prop
  | .builtIn own => own = name ∧ name ∈ builtInNames
  | .type d => P.typeNames[d.val]? = some name
  | .param p => P.paramNames[p.val]? = some name

variable (P) in
def Known : Head → Prop
  | .builtIn name => name ∈ builtInNames
  | .type d => (P.types.get? d).isSome
  | .param p => (P.params.get? p).isSome

variable {h k : Head}

theorem known_builtIn {name : String} : (builtIn name).Known P ↔ name ∈ builtInNames := .rfl

theorem Known.listed (known : h.Known P) : ∃ name, h.Listed P name ∧ h.word P = name.toList := by
  cases h with
  | builtIn name => exact ⟨name, ⟨rfl, known⟩, rfl⟩
  | type d =>
    obtain ⟨decl, hd⟩ := Option.isSome_iff_exists.1 known
    refine ⟨decl.name, ?_, by simp [word, typeWord, hd]⟩
    rw [Table.get?] at hd
    simp [Listed, typeNames, hd]
  | param p =>
    obtain ⟨param, hp⟩ := Option.isSome_iff_exists.1 known
    refine ⟨param.name, ?_, by simp [word, paramWord, hp]⟩
    rw [Table.get?] at hp
    simp [Listed, paramNames, hp]

end Head

namespace NamesApart

variable (names : P.NamesApart) {h k : Head}
include names

theorem isWord (known : h.Known P) : IsWord (h.word P) := by
  obtain ⟨name, listed, word⟩ := known.listed
  rw [word]
  cases h with
  | builtIn =>
    have each : ∀ name ∈ builtInNames, IsWord name.toList := by decide
    exact each name listed.2
  | type d => exact names.words name (List.mem_append_left _ (List.mem_of_getElem? listed))
  | param p => exact names.words name (List.mem_append_right _ (List.mem_of_getElem? listed))

theorem word_inj (known : h.Known P) (known' : k.Known P) (same : h.word P = k.word P) : h = k := by
  obtain ⟨name, listed, word⟩ := known.listed
  obtain ⟨name', listed', word'⟩ := known'.listed
  obtain rfl : name = name' := String.toList_inj.1 (word.symm.trans (same.trans word'))
  obtain ⟨-, declared, builtIn⟩ := List.nodup_append.1 names.distinct
  obtain ⟨types, params, apart⟩ := List.nodup_append.1 declared
  have typeName {d : TypeId} (listed : P.typeNames[d.val]? = some name) : name ∈ P.typeNames :=
    List.mem_of_getElem? listed
  have paramName {p : ParamId} (listed : P.paramNames[p.val]? = some name) : name ∈ P.paramNames :=
    List.mem_of_getElem? listed
  cases h with
  | builtIn =>
    cases k with
    | builtIn => rw [listed.1, listed'.1]
    | type =>
      exact absurd rfl (builtIn name listed.2 name (List.mem_append_left _ (typeName listed')))
    | param =>
      exact absurd rfl (builtIn name listed.2 name (List.mem_append_right _ (paramName listed')))
  | type d =>
    cases k with
    | builtIn =>
      exact absurd rfl (builtIn name listed'.2 name (List.mem_append_left _ (typeName listed)))
    | type e =>
      obtain ⟨bound, _⟩ := List.getElem?_eq_some_iff.1 listed
      have index := (List.getElem?_inj bound types).1 (listed.trans listed'.symm)
      cases d; cases e; simp_all
    | param => exact absurd rfl (apart name (typeName listed) name (paramName listed'))
  | param p =>
    cases k with
    | builtIn =>
      exact absurd rfl (builtIn name listed'.2 name (List.mem_append_right _ (paramName listed)))
    | type => exact absurd rfl (apart name (typeName listed') name (paramName listed))
    | param q =>
      obtain ⟨bound, _⟩ := List.getElem?_eq_some_iff.1 listed
      have index := (List.getElem?_inj bound params).1 (listed.trans listed'.symm)
      cases p; cases q; simp_all

theorem readable_items (inRange : P.InRange t) : Readable (P.items t) := by
  have isPart {as : List Ty} (each : ∀ a ∈ as, Readable (P.items a)) :
      ∀ part ∈ P.texts as, IsPart part := by
    rw [texts_eq_map]
    exact List.forall_mem_map.2 fun a mem => (each a mem).isPart
  have builtIn (name : String) (listed : name ∈ builtInNames) : IsWord name.toList :=
    names.isWord (Head.known_builtIn.2 listed)
  induction t using Ty.induct with
  | unknown | dynamic | void | never => exact .word (builtIn _ (by decide))
  | interface d as ih =>
    obtain ⟨head, args⟩ := Ty.every_interface.1 inRange
    have word : IsWord (P.typeWord d) := names.isWord (show (Head.type d).Known P from head)
    exact .applied word (isPart fun a mem => ih a mem (args a mem))
  | nullable t ih =>
    have inner := ih (Ty.every_nullable.1 inRange).2
    rw [items]
    split
    · exact (Readable.grouping inner.isPart).concat trivial rfl
    · exact inner.concat trivial rfl
  | futureOr t ih =>
    have inner := ih (Ty.every_futureOr.1 inRange).2
    exact .applied (builtIn _ (by decide)) (List.forall_mem_singleton.2 inner.isPart)
  | param p =>
    exact .word (names.isWord (show (Head.param p).Known P from inRange.self))
  | promoted p bound ih =>
    obtain ⟨head, inner⟩ := Ty.every_promoted.1 inRange
    have word : IsWord (P.paramWord p) := names.isWord (show (Head.param p).Known P from head)
    exact .promoted word (ih inner)
  | func ps r ihParams ihResult =>
    obtain ⟨_, params, result⟩ := Ty.every_func.1 inRange
    exact (ihResult result).concat (isPart fun a mem => ihParams a mem (params a mem)) rfl
  | record fs ih =>
    obtain ⟨_, fields⟩ := Ty.every_record.1 inRange
    exact .singleton (isPart fun f mem => ih f mem (fields f mem))

/-- Types have the same text just if they have the same items. -/
theorem showType_eq_showType (ht : P.InRange t) (hu : P.InRange u) :
    P.showType t = P.showType u ↔ P.items t = P.items u := by
  rw [showType_eq ht, showType_eq hu, Except.ok.injEq, String.ofList_inj]
  exact ⟨(names.readable_items ht).inj (names.readable_items hu), congrArg charsOf⟩

end NamesApart

end Program

end MemberAccess
