import MemberAccess.Proofs.Display.Reading

/-!
Which types have the same items. Parentheses are put around a function type within a question mark,
but not around a promotion, whose type extends over all question marks and signatures that follow.
The items leave open where among them a promotion stands, and nothing else.
-/
namespace MemberAccess

open Display Program

namespace Ty

/-- Whether types differ at most in where promotions stand among question marks and signatures. -/
inductive Regrouped : Ty → Ty → Prop where
  | refl (t : Ty) : Regrouped t t
  | symm {t u : Ty} : Regrouped t u → Regrouped u t
  | trans {t u v : Ty} : Regrouped t u → Regrouped u v → Regrouped t v
  | questionMark (p : ParamId) {t : Ty} (plain : t.isFunction = false) :
    Regrouped (.nullable (.promoted p t)) (.promoted p (.nullable t))
  | signature (p : ParamId) (ps : List Ty) (r : Ty) :
    Regrouped (.func ps (.promoted p r)) (.promoted p (.func ps r))
  | interface (d : TypeId) {as bs : List Ty} (length : as.length = bs.length)
    (each : ∀ pair ∈ as.zip bs, Regrouped pair.1 pair.2) :
    Regrouped (.interface d as) (.interface d bs)
  | nullable {t u : Ty} (kind : t.isFunction = u.isFunction) :
    Regrouped t u → Regrouped (.nullable t) (.nullable u)
  | futureOr {t u : Ty} : Regrouped t u → Regrouped (.futureOr t) (.futureOr u)
  | promoted (p : ParamId) {t u : Ty} :
    Regrouped t u → Regrouped (.promoted p t) (.promoted p u)
  | func {ps qs : List Ty} {r s : Ty} (length : ps.length = qs.length)
    (each : ∀ pair ∈ ps.zip qs, Regrouped pair.1 pair.2) :
    Regrouped r s → Regrouped (.func ps r) (.func qs s)
  | record {fs gs : List Ty} (length : fs.length = gs.length)
    (each : ∀ pair ∈ fs.zip gs, Regrouped pair.1 pair.2) :
    Regrouped (.record fs) (.record gs)

/-- Whether no question mark or signature extends the type that promotions lead to. A function type
    in parentheses counts as such a type together with its question mark. -/
def isBare : Ty → Bool
  | .promoted _ bound => bound.isBare
  | .nullable t => t.isFunction
  | .func .. => false
  | _ => true

theorem isPromoted_iff {t : Ty} : t.isPromoted ↔ ∃ p bound, t = .promoted p bound := by
  cases t <;> simp [isPromoted]

end Ty

theorem map_eq_map_of_zip {α β : Type} {f : α → β} {as bs : List α}
    (length : as.length = bs.length) (each : ∀ pair ∈ as.zip bs, f pair.1 = f pair.2) :
    as.map f = bs.map f := by
  induction as generalizing bs with
  | nil => rw [List.length_eq_zero_iff.1 length.symm]
  | cons a as ih =>
    cases bs with
    | nil => simp at length
    | cons b bs =>
      obtain ⟨head, tail⟩ := List.forall_mem_cons.1 each
      exact congrArg₂ List.cons head (ih (Nat.succ.inj length) tail)

namespace Program

variable {P : Program} {t u : Ty}

theorem items_eq_of_regrouped (regrouped : t.Regrouped u) : P.items t = P.items u := by
  have texts_eq {as bs : List Ty} (length : as.length = bs.length)
      (each : ∀ pair ∈ as.zip bs, P.items pair.1 = P.items pair.2) : P.texts as = P.texts bs := by
    rw [texts_eq_map, texts_eq_map]
    exact map_eq_map_of_zip length fun pair mem => congrArg charsOf (each pair mem)
  induction regrouped with
  | refl t => rfl
  | symm _ ih => exact ih.symm
  | trans _ _ first second => exact first.trans second
  | @questionMark p t plain =>
    have promoted : (Ty.promoted p t).isFunction = false := rfl
    rw [items_nullable promoted, items, items, items_nullable plain]
    rfl
  | signature p ps r => simp [items]
  | interface d length _ ih => rw [items, items, texts_eq length ih]
  | nullable kind _ ih => rw [items, items, kind, ih]
  | futureOr _ ih => rw [items, items, ih]
  | promoted p _ ih => rw [items, items, ih]
  | func length _ _ each ih => rw [items, items, texts_eq length each, ih]
  | record length _ ih => rw [items, items, texts_eq length ih]

theorem items_ne_nil : P.items t ≠ [] := by
  cases t with
  | nullable t => rw [items]; split <;> simp
  | _ => simp [items]

theorem getLast?_items_promoted (p : ParamId) :
    (P.items (.promoted p t)).getLast? = (P.items t).getLast? := by
  obtain ⟨item, items, eq⟩ := List.exists_cons_of_ne_nil (items_ne_nil (P := P) (t := t))
  simp [Program.items, eq]

theorem getLast?_items_nullable : (P.items (.nullable t)).getLast? = some .questionMark := by
  rw [items]
  split <;> simp

theorem getLast?_items_func (ps : List Ty) (r : Ty) :
    (P.items (.func ps r)).getLast? = some (signature (P.texts ps)) :=
  List.getLast?_concat

theorem getLast?_arguments (cs : List Char) (parts : List (List Char)) :
    (Item.word cs :: arguments parts).getLast? =
      some (if parts.isEmpty then .word cs else .group .angle parts false) := by
  rw [arguments]
  split <;> rfl

theorem fields_ne_grouping (parts : List (List Char)) (part : List Char) :
    fields parts ≠ grouping part := by
  intro same
  obtain ⟨-, rfl, comma⟩ := Item.group.inj same
  cases comma

theorem getLast?_items_ne_grouping (part : List Char) :
    (P.items t).getLast? ≠ some (grouping part) := by
  induction t using Ty.induct with
  | unknown | dynamic | void | never | param => simp [items, grouping]
  | interface | futureOr =>
    rw [items, getLast?_arguments]
    split <;> simp [grouping]
  | nullable => simp [getLast?_items_nullable, grouping]
  | promoted p bound ih => rwa [getLast?_items_promoted]
  | func ps r => simp [getLast?_items_func, signature, grouping]
  | record fs =>
    rw [items_record, List.getLast?_singleton, ne_eq, Option.some.injEq]
    exact fields_ne_grouping _ part

theorem getLast?_items_ne_signature (bare : t.isBare) (parts : List (List Char)) :
    (P.items t).getLast? ≠ some (signature parts) := by
  induction t using Ty.induct with
  | unknown | dynamic | void | never | param => simp [items, signature]
  | interface | futureOr =>
    rw [items, getLast?_arguments]
    split <;> simp [signature]
  | nullable => simp [getLast?_items_nullable, signature]
  | promoted p bound ih => rw [getLast?_items_promoted]; exact ih bare
  | func => cases bare
  | record fs => simp [items, fields, signature]

theorem grouping_of_items_eq_concat {l : List Item} (bare : t.isBare)
    (same : P.items t = l ++ [.questionMark]) : ∃ part, l.getLast? = some (grouping part) := by
  induction t using Ty.induct generalizing l with
  | unknown | dynamic | void | never | param =>
    have last := congrArg List.getLast? same
    simp [items] at last
  | interface | futureOr =>
    have last := congrArg List.getLast? same
    rw [items, getLast?_arguments] at last
    split at last <;> simp at last
  | nullable t ih =>
    have kind : t.isFunction = true := bare
    rw [items, if_pos kind, ← List.singleton_append] at same
    obtain ⟨rfl, -⟩ := List.append_inj' same rfl
    exact ⟨_, rfl⟩
  | promoted p bound ih =>
    obtain _ | ⟨_, _ | ⟨_, l⟩⟩ := l
    · simp [items] at same
    · simp [items, items_ne_nil] at same
    · have inner := (List.cons.inj (List.cons.inj same).2).2
      obtain ⟨part, last⟩ := ih bare inner
      exact ⟨part, by simp [List.getLast?_cons, last]⟩
  | func => cases bare
  | record fs =>
    have last := congrArg List.getLast? same
    simp [items, fields] at last

variable (P) in
/-- How a type can be regrouped so that no promotion is outside of its last question mark or
    signature, if it has any. -/
inductive Shape (t : Ty) : Prop where
  | marked (u : Ty) (plain : u.isFunction = false) (inRange : P.InRange (.nullable u))
    (smaller : sizeOf (Ty.nullable u) ≤ sizeOf t) (regrouped : t.Regrouped (.nullable u))
  | function (ps : List Ty) (r : Ty) (inRange : P.InRange (.func ps r))
    (smaller : sizeOf (Ty.func ps r) ≤ sizeOf t) (regrouped : t.Regrouped (.func ps r))
  | bare (bare : t.isBare)

theorem shape (inRange : P.InRange t) : P.Shape t := by
  induction t using Ty.induct with
  | unknown | dynamic | void | never | interface | futureOr | param | record => exact .bare rfl
  | nullable t =>
    cases plain : t.isFunction with
    | true => exact .bare plain
    | false => exact .marked t plain inRange le_rfl (.refl _)
  | func ps r => exact .function ps r inRange le_rfl (.refl _)
  | promoted p bound ih =>
    obtain ⟨head, inner⟩ := Ty.every_promoted.1 inRange
    cases ih inner with
    | marked u plain inRange smaller regrouped =>
      refine .marked (.promoted p u) rfl ?_ ?_ (.trans (.promoted p regrouped) ?_)
      · exact Ty.every_nullable.2 ⟨rfl, Ty.every_promoted.2 ⟨head, (Ty.every_nullable.1 inRange).2⟩⟩
      · simp only [Ty.nullable.sizeOf_spec, Ty.promoted.sizeOf_spec] at smaller ⊢
        omega
      · exact .symm (.questionMark p plain)
    | function ps r inRange smaller regrouped =>
      obtain ⟨_, params, result⟩ := Ty.every_func.1 inRange
      refine .function ps (.promoted p r) ?_ ?_ (.trans (.promoted p regrouped) ?_)
      · exact Ty.every_func.2 ⟨rfl, params, Ty.every_promoted.2 ⟨head, result⟩⟩
      · simp only [Ty.func.sizeOf_spec, Ty.promoted.sizeOf_spec] at smaller ⊢
        omega
      · exact .symm (.signature p ps r)
    | bare bare => exact .bare bare

def named? : Ty → Option (Head × List Ty)
  | .unknown => some (.builtIn "_", [])
  | .dynamic => some (.builtIn "dynamic", [])
  | .void => some (.builtIn "void", [])
  | .never => some (.builtIn "Never", [])
  | .futureOr t => some (.builtIn "FutureOr", [t])
  | .interface d as => some (.type d, as)
  | .param p => some (.param p, [])
  | _ => none

section Named

variable {h : Head} {as bs : List Ty}

theorem items_eq_of_named (named : named? t = some (h, as)) :
    P.items t = .word (h.word P) :: arguments (P.texts as) := by
  cases t <;> simp [named?] at named <;> obtain ⟨rfl, rfl⟩ := named <;> rfl

theorem known_of_named (inRange : P.InRange t) (named : named? t = some (h, as)) :
    h.Known P ∧ ∀ a ∈ as, P.InRange a ∧ sizeOf a < sizeOf t := by
  cases t <;> simp only [named?, Option.some.injEq, Prod.mk.injEq, reduceCtorEq] at named <;>
    obtain ⟨rfl, rfl⟩ := named
  case interface d as =>
    obtain ⟨head, args⟩ := Ty.every_interface.1 inRange
    refine ⟨head, fun a mem => ⟨args a mem, ?_⟩⟩
    have less := List.sizeOf_lt_of_mem mem
    simp only [Ty.interface.sizeOf_spec]
    omega
  case futureOr t =>
    refine ⟨Head.known_builtIn.2 (by decide), List.forall_mem_singleton.2 ?_⟩
    exact ⟨(Ty.every_futureOr.1 inRange).2, by simp⟩
  case param p => exact ⟨inRange.self, by simp⟩
  all_goals exact ⟨Head.known_builtIn.2 (by decide), by simp⟩

theorem regrouped_of_named (first : named? t = some (h, as)) (second : named? u = some (h, bs))
    (length : as.length = bs.length) (each : ∀ pair ∈ as.zip bs, pair.1.Regrouped pair.2) :
    t.Regrouped u := by
  cases t <;> simp only [named?, Option.some.injEq, Prod.mk.injEq, reduceCtorEq] at first <;>
    obtain ⟨rfl, rfl⟩ := first <;> cases u <;>
    simp only [named?, Option.some.injEq, Prod.mk.injEq, reduceCtorEq, false_and,
      Head.builtIn.injEq, Head.type.injEq, Head.param.injEq, String.reduceEq, true_and] at second
  case interface.interface =>
    obtain ⟨rfl, rfl⟩ := second
    exact .interface _ length each
  case futureOr.futureOr =>
    subst second
    exact .futureOr (each _ List.mem_cons_self)
  case param.param =>
    obtain ⟨rfl, rfl⟩ := second
    exact .refl _
  all_goals exact .refl _

end Named

theorem bare_cases (bare : t.isBare) (unpromoted : t.isPromoted = false) :
    (∃ h as, named? t = some (h, as)) ∨ (∃ ps r, t = .nullable (.func ps r)) ∨
      ∃ fs, t = .record fs := by
  cases t with
  | promoted => cases unpromoted
  | func => cases bare
  | nullable t =>
    cases t with
    | func ps r => exact .inr (.inl ⟨ps, r, rfl⟩)
    | _ => cases bare
  | record fs => exact .inr (.inr ⟨fs, rfl⟩)
  | _ => exact .inl ⟨_, _, rfl⟩

theorem zip_of_texts_eq {as bs : List Ty} (same : P.texts as = P.texts bs) :
    as.length = bs.length ∧
      ∀ pair ∈ as.zip bs, charsOf (P.items pair.1) = charsOf (P.items pair.2) := by
  induction as generalizing bs with
  | nil =>
    cases bs with
    | nil => exact ⟨rfl, nofun⟩
    | cons => cases same
  | cons a as ih =>
    cases bs with
    | nil => cases same
    | cons b bs =>
      obtain ⟨head, tail⟩ := List.cons.inj same
      obtain ⟨length, each⟩ := ih tail
      exact ⟨congrArg (· + 1) length, List.forall_mem_cons.2 ⟨head, each⟩⟩

theorem items_nullable_ne_func {ps : List Ty} {r : Ty} :
    P.items (.nullable t) ≠ P.items (.func ps r) := by
  intro same
  have last := congrArg List.getLast? same
  rw [getLast?_items_nullable, getLast?_items_func] at last
  cases last

theorem items_ne_nullable (bare : t.isBare) (plain : u.isFunction = false) :
    P.items t ≠ P.items (.nullable u) := by
  intro same
  rw [items_nullable plain] at same
  obtain ⟨part, last⟩ := grouping_of_items_eq_concat bare same
  exact getLast?_items_ne_grouping part last

theorem items_ne_func {ps : List Ty} {r : Ty} (bare : t.isBare) :
    P.items t ≠ P.items (.func ps r) := by
  intro same
  have last := congrArg List.getLast? same
  rw [getLast?_items_func] at last
  exact getLast?_items_ne_signature bare _ last

theorem items_ne_promoted (bare : t.isBare) (unpromoted : t.isPromoted = false) (item : Item)
    (l : List Item) : P.items t ≠ item :: .ampersand :: l := by
  obtain ⟨h, as, named⟩ | ⟨ps, r, rfl⟩ | ⟨fs, rfl⟩ := bare_cases bare unpromoted
  · rw [items_eq_of_named named, arguments]
    split <;> simp
  · simp [items_nullable_func]
  · simp [items]

theorem arguments_inj {parts parts' : List (List Char)}
    (same : arguments parts = arguments parts') : parts = parts' := by
  unfold arguments at same
  split at same <;> split at same <;> simp_all

def SettledBelow (P : Program) (size : Nat) : Prop :=
  ∀ t u, sizeOf t < size → P.InRange t → P.InRange u → P.items t = P.items u → t.Regrouped u

namespace NamesApart

variable (names : P.NamesApart) {size : Nat} {as bs : List Ty}
include names

theorem regrouped_pairs (settled : P.SettledBelow size)
    (first : ∀ a ∈ as, P.InRange a ∧ sizeOf a < size) (second : ∀ b ∈ bs, P.InRange b)
    (same : P.texts as = P.texts bs) :
    as.length = bs.length ∧ ∀ pair ∈ as.zip bs, pair.1.Regrouped pair.2 := by
  obtain ⟨length, each⟩ := zip_of_texts_eq same
  refine ⟨length, fun pair mem => ?_⟩
  obtain ⟨inFirst, inSecond⟩ := List.of_mem_zip mem
  obtain ⟨inRange, less⟩ := first _ inFirst
  have inRange' := second _ inSecond
  exact settled _ _ less inRange inRange'
    ((names.readable_items inRange).inj (names.readable_items inRange') (each pair mem))

theorem regrouped_of_unpromoted (settled : P.SettledBelow (sizeOf t)) (ht : P.InRange t)
    (hu : P.InRange u) (bare : t.isBare) (bare' : u.isBare) (unpromoted : t.isPromoted = false)
    (unpromoted' : u.isPromoted = false) (same : P.items t = P.items u) : t.Regrouped u := by
  obtain ⟨h, as, named⟩ | ⟨ps, r, rfl⟩ | ⟨fs, rfl⟩ := bare_cases bare unpromoted <;>
    obtain ⟨k, bs, named'⟩ | ⟨qs, s, rfl⟩ | ⟨gs, rfl⟩ := bare_cases bare' unpromoted'
  · rw [items_eq_of_named named, items_eq_of_named named'] at same
    obtain ⟨word, args⟩ := List.cons.inj same
    obtain ⟨known, first⟩ := known_of_named ht named
    obtain ⟨known', second⟩ := known_of_named hu named'
    obtain rfl := names.word_inj known known' (Item.word.inj word)
    obtain ⟨length, each⟩ := names.regrouped_pairs settled first (fun b mem => (second b mem).1)
      (arguments_inj args)
    exact regrouped_of_named named named' length each
  · simp [items_eq_of_named named, items_nullable_func, grouping] at same
  · simp [items_eq_of_named named, items_record, fields] at same
  · simp [items_eq_of_named named', items_nullable_func, grouping] at same
  · have inner := (Ty.every_nullable.1 ht).2
    have inner' := (Ty.every_nullable.1 hu).2
    rw [items_nullable_func, items_nullable_func] at same
    have text := (List.cons.inj (Item.group.inj (List.cons.inj same).1).2.1).1
    have items := (names.readable_items inner).inj (names.readable_items inner') text
    exact .nullable rfl (settled _ _ (by simp) inner inner' items)
  · simp [items_nullable_func, items_record] at same
  · simp [items_eq_of_named named', items_record, fields] at same
  · simp [items_nullable_func, items_record] at same
  · have first := (Ty.every_record.1 ht).2
    have second := (Ty.every_record.1 hu).2
    have less (f : Ty) (mem : f ∈ fs) : sizeOf f < sizeOf (Ty.record fs) := by
      have := List.sizeOf_lt_of_mem mem
      simp only [Ty.record.sizeOf_spec]
      omega
    rw [items, items] at same
    have texts := (Item.group.inj (List.cons.inj same).1).2.1
    obtain ⟨length, each⟩ :=
      names.regrouped_pairs settled (fun f mem => ⟨first f mem, less f mem⟩) second texts
    exact .record length each

theorem regrouped_of_bare (settled : P.SettledBelow (sizeOf t)) (ht : P.InRange t)
    (hu : P.InRange u) (bare : t.isBare) (bare' : u.isBare) (same : P.items t = P.items u) :
    t.Regrouped u := by
  cases promoted : t.isPromoted with
  | false =>
    cases promoted' : u.isPromoted with
    | false => exact names.regrouped_of_unpromoted settled ht hu bare bare' promoted promoted' same
    | true =>
      obtain ⟨q, c, rfl⟩ := Ty.isPromoted_iff.1 promoted'
      exact absurd same (items_ne_promoted bare promoted _ _)
  | true =>
    obtain ⟨p, b, rfl⟩ := Ty.isPromoted_iff.1 promoted
    cases promoted' : u.isPromoted with
    | false => exact absurd same.symm (items_ne_promoted bare' promoted' _ _)
    | true =>
      obtain ⟨q, c, rfl⟩ := Ty.isPromoted_iff.1 promoted'
      obtain ⟨first, inner⟩ := Ty.every_promoted.1 ht
      obtain ⟨second, inner'⟩ := Ty.every_promoted.1 hu
      obtain ⟨word, items⟩ := List.cons.inj same
      obtain ⟨⟩ := names.word_inj (h := .param p) (k := .param q) first second (Item.word.inj word)
      have less : sizeOf b < sizeOf (Ty.promoted p b) := by
        rw [Ty.promoted.sizeOf_spec]
        omega
      exact .promoted p (settled b c less inner inner' (List.cons.inj items).2)

theorem regrouped_of_items_eq (ht : P.InRange t) (hu : P.InRange u)
    (same : P.items t = P.items u) : t.Regrouped u := by
  induction size : sizeOf t using Nat.strong_induction_on generalizing t u with
  | _ size ih
  subst size
  have settled : P.SettledBelow (sizeOf t) := fun a b less ha hb same => ih _ less ha hb same rfl
  cases shape ht with
  | marked v plain inRange smaller regrouped =>
    rw [items_eq_of_regrouped regrouped] at same
    cases shape hu with
    | marked w plain' inRange' smaller' regrouped' =>
      rw [items_eq_of_regrouped regrouped', items_nullable plain, items_nullable plain'] at same
      rw [Ty.nullable.sizeOf_spec] at smaller
      have inner := settled v w (by omega) (Ty.every_nullable.1 inRange).2
        (Ty.every_nullable.1 inRange').2 (List.append_cancel_right same)
      exact regrouped.trans (.trans (.nullable (plain.trans plain'.symm) inner) regrouped'.symm)
    | function qs s inRange' smaller' regrouped' =>
      exact absurd (same.trans (items_eq_of_regrouped regrouped')) items_nullable_ne_func
    | bare bare => exact absurd same.symm (items_ne_nullable bare plain)
  | function ps r inRange smaller regrouped =>
    rw [items_eq_of_regrouped regrouped] at same
    cases shape hu with
    | marked w plain' inRange' smaller' regrouped' =>
      exact absurd ((items_eq_of_regrouped regrouped').symm.trans same.symm) items_nullable_ne_func
    | function qs s inRange' smaller' regrouped' =>
      rw [items_eq_of_regrouped regrouped', items, items] at same
      obtain ⟨results, last⟩ := List.append_inj' same rfl
      obtain ⟨-, first, result⟩ := Ty.every_func.1 inRange
      obtain ⟨-, second, result'⟩ := Ty.every_func.1 inRange'
      simp only [Ty.func.sizeOf_spec] at smaller
      have less (a : Ty) (mem : a ∈ ps) : sizeOf a < sizeOf t := by
        have := List.sizeOf_lt_of_mem mem
        omega
      obtain ⟨length, each⟩ := names.regrouped_pairs settled
        (fun a mem => ⟨first a mem, less a mem⟩) second (Item.group.inj (List.cons.inj last).1).2.1
      have inner := settled r s (by omega) result result' results
      exact regrouped.trans (.trans (.func length each inner) regrouped'.symm)
    | bare bare => exact absurd same.symm (items_ne_func bare)
  | bare bare =>
    cases shape hu with
    | marked w plain' inRange' smaller' regrouped' =>
      exact absurd (same.trans (items_eq_of_regrouped regrouped')) (items_ne_nullable bare plain')
    | function qs s inRange' smaller' regrouped' =>
      exact absurd (same.trans (items_eq_of_regrouped regrouped')) (items_ne_func bare)
    | bare bare' => exact names.regrouped_of_bare settled ht hu bare bare' same

end NamesApart

end Program

/-! ### Types without any choice -/

namespace Ty

/-- Whether a promotion is followed by a question mark or a signature that is not its own. -/
def extendsPromotion : Ty → Bool
  | .nullable t | .func _ t => t.isPromoted
  | _ => false

def Separate (t : Ty) : Prop := t.Every fun part => ¬ part.extendsPromotion

instance (t : Ty) : Decidable t.Separate := inferInstanceAs (Decidable (t.Every _))

def markInward : Ty → Ty
  | .promoted p bound => .promoted p (markInward bound)
  | t => .nullable t

def signInward (ps : List Ty) : Ty → Ty
  | .promoted p bound => .promoted p (signInward ps bound)
  | t => .func ps t

mutual
/-- The type with its promotions as far outside as possible. -/
def outward : Ty → Ty
  | .interface d as => .interface d (outwardAll as)
  | .nullable t => markInward (outward t)
  | .futureOr t => .futureOr (outward t)
  | .promoted p bound => .promoted p (outward bound)
  | .func ps r => signInward (outwardAll ps) (outward r)
  | .record fs => .record (outwardAll fs)
  | .unknown => .unknown
  | .dynamic => .dynamic
  | .void => .void
  | .never => .never
  | .param p => .param p

def outwardAll : List Ty → List Ty
  | [] => []
  | t :: ts => outward t :: outwardAll ts
end

variable {t u : Ty}

theorem outwardAll_eq_map (ts : List Ty) : outwardAll ts = ts.map outward := by
  induction ts <;> simp_all [outwardAll]

theorem Regrouped.outward_eq (regrouped : t.Regrouped u) : t.outward = u.outward := by
  have all {as bs : List Ty} (length : as.length = bs.length)
      (each : ∀ pair ∈ as.zip bs, pair.1.outward = pair.2.outward) :
      outwardAll as = outwardAll bs := by
    rw [outwardAll_eq_map, outwardAll_eq_map]
    exact map_eq_map_of_zip length each
  induction regrouped with
  | refl t => rfl
  | symm _ ih => exact ih.symm
  | trans _ _ first second => exact first.trans second
  | questionMark | signature => rfl
  | interface d length _ ih => rw [outward, outward, all length ih]
  | nullable _ _ ih => rw [outward, outward, ih]
  | futureOr _ ih => rw [outward, outward, ih]
  | promoted p _ ih => rw [outward, outward, ih]
  | func length _ _ each ih => rw [outward, outward, all length each, ih]
  | record length _ ih => rw [outward, outward, all length ih]

theorem Separate.outward_eq (separate : t.Separate) : t.outward = t := by
  have all {ts : List Ty} (each : ∀ t ∈ ts, t.outward = t) : outwardAll ts = ts := by
    rw [outwardAll_eq_map, List.map_congr_left each, List.map_id']
  induction t using Ty.induct with
  | unknown | dynamic | void | never | param => rfl
  | interface d as ih =>
    rw [outward, all fun a mem => ih a mem ((every_interface.1 separate).2 a mem)]
  | nullable t ih =>
    obtain ⟨head, inner⟩ := every_nullable.1 separate
    rw [outward, ih inner]
    cases t with
    | promoted => exact absurd rfl head
    | _ => rfl
  | futureOr t ih => rw [outward, ih (every_futureOr.1 separate).2]
  | promoted p bound ih => rw [outward, ih (every_promoted.1 separate).2]
  | func ps r ihParams ihResult =>
    obtain ⟨head, params, result⟩ := every_func.1 separate
    rw [outward, all fun a mem => ihParams a mem (params a mem), ihResult result]
    cases r with
    | promoted => exact absurd rfl head
    | _ => rfl
  | record fs ih => rw [outward, all fun f mem => ih f mem ((every_record.1 separate).2 f mem)]

end Ty

namespace Program

variable {P : Program} {t u : Ty}

/-- Types in range have texts. Two of them are the same just if the types differ at most in the
    grouping of their promotions. So no two types in which nothing extends a promotion have the same
    text. -/
theorem showType_eq_iff_regrouped (names : P.NamesApart) (ht : P.InRange t) (hu : P.InRange u) :
    ∃ first second, P.showType t = .ok first ∧ P.showType u = .ok second ∧
      (first = second ↔ t.Regrouped u) ∧ (t.Separate → u.Separate → first = second → t = u) := by
  obtain ⟨first, shown⟩ := showType_answered ht
  obtain ⟨second, shown'⟩ := showType_answered hu
  have regrouped : first = second ↔ t.Regrouped u := by
    rw [← Except.ok.injEq, ← shown, ← shown', names.showType_eq_showType ht hu]
    exact ⟨names.regrouped_of_items_eq ht hu, items_eq_of_regrouped⟩
  refine ⟨first, second, shown, shown', regrouped, fun separate separate' same => ?_⟩
  have outward := (regrouped.1 same).outward_eq
  rwa [separate.outward_eq, separate'.outward_eq] at outward

/-- The same text stands for a promoted type that accepts null, and for a parameter that is promoted
    to one. Without promotions the parentheses tell the like apart. -/
theorem promotedObject_regrouped :
    initial.showType (.nullable (.promoted ⟨0⟩ .object)) = .ok "T & Object?" ∧
      initial.showType (.promoted ⟨0⟩ (.nullable .object)) = .ok "T & Object?" ∧
      Ty.nullable (.promoted ⟨0⟩ .object) ≠ .promoted ⟨0⟩ (.nullable .object) ∧
      (Ty.nullable (.promoted ⟨0⟩ .object)).Regrouped (.promoted ⟨0⟩ (.nullable .object)) ∧
      initial.showType (.nullable (.func [] .object)) ≠
        initial.showType (.func [] (.nullable .object)) := by
  have names : initial.NamesApart := ⟨by decide, by decide⟩
  have shown : initial.showType (.nullable (.promoted ⟨0⟩ .object)) = .ok "T & Object?" := by
    decide
  have shown' : initial.showType (.promoted ⟨0⟩ (.nullable .object)) = .ok "T & Object?" := by
    decide
  refine ⟨shown, shown', by decide, ?_, ?_⟩
  · obtain ⟨first, second, eq, eq', regrouped, -⟩ := showType_eq_iff_regrouped names
      (t := .nullable (.promoted ⟨0⟩ .object)) (u := .promoted ⟨0⟩ (.nullable .object)) (by decide)
      (by decide)
    exact regrouped.1 (Except.ok.inj (eq.symm.trans (shown.trans (shown'.symm.trans eq'))))
  · obtain ⟨first, second, eq, eq', -, separate⟩ := showType_eq_iff_regrouped names
      (t := .nullable (.func [] .object)) (u := .func [] (.nullable .object)) (by decide)
      (by decide)
    intro same
    have texts := Except.ok.inj (eq.symm.trans (same.trans eq'))
    exact absurd (separate (by decide) (by decide) texts) (by decide)

end Program

end MemberAccess
