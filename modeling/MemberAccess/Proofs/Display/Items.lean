import Mathlib.Data.List.Chain
import MemberAccess.Display

/-!
Quoted types as sequences of items: words, signs and groups in brackets. The items can be read back
from their text. A word ends at the first character that no name contains, and a part of a group at
the first comma or closing bracket that is not within brackets of its own.
-/
namespace MemberAccess.Display

inductive Opening where
  | angle | paren
  | function
  deriving DecidableEq

namespace Opening

def chars : Opening → List Char
  | .angle => ['<']
  | .paren => ['(']
  | .function => [' ', 'F', 'u', 'n', 'c', 't', 'i', 'o', 'n', '(']

def closing : Opening → Char
  | .angle => '>'
  | .paren | .function => ')'

end Opening

inductive Item where
  | word (chars : List Char)
  | questionMark
  | ampersand
  | group (opening : Opening) (parts : List (List Char)) (comma : Bool)

def row (parts : List (List Char)) : List Char := [',', ' '].intercalate parts

@[simp] theorem row_singleton (part : List Char) : row [part] = part := List.intercalate_singleton

def ending (opening : Opening) (comma : Bool) : List Char :=
  (if comma then [','] else []) ++ [opening.closing]

namespace Item

def chars : Item → List Char
  | .word cs => cs
  | .questionMark => ['?']
  | .ampersand => [' ', '&', ' ']
  | .group opening parts comma => opening.chars ++ row parts ++ ending opening comma

@[simp] theorem chars_word (cs : List Char) : (word cs).chars = cs := rfl

@[simp] theorem chars_questionMark : questionMark.chars = ['?'] := rfl

@[simp] theorem chars_ampersand : ampersand.chars = [' ', '&', ' '] := rfl

def isWord : Item → Bool
  | .word _ => true
  | _ => false

end Item

/-! ### Parts of groups -/

def afterPart : Nat → List Char → List Char
  | _, [] => []
  | depth, c :: cs =>
    if c = '(' ∨ c = '<' then afterPart (depth + 1) cs
    else if c = ')' ∨ c = '>' then
      match depth with
      | 0 => c :: cs
      | depth + 1 => afterPart depth cs
    else if c = ',' ∧ depth = 0 then c :: cs
    else afterPart depth cs

/-- No part ends in the text, if it is within so many brackets at least. -/
def Passes (least : Nat) (cs : List Char) : Prop :=
  ∀ depth, least ≤ depth → ∀ rest, afterPart depth (cs ++ rest) = afterPart depth rest

namespace Passes

variable {least more : Nat} {cs ds : List Char}

theorem nil : Passes least [] := fun _ _ _ => rfl

theorem append (first : Passes least cs) (second : Passes least ds) : Passes least (cs ++ ds) :=
  fun depth le rest => by rw [List.append_assoc, first depth le, second depth le]

theorem mono (le : least ≤ more) (passes : Passes least cs) : Passes more cs :=
  fun depth enough => passes depth (le.trans enough)

theorem plain (none : ∀ c ∈ cs, c ∉ ['(', '<', ')', '>', ',']) : Passes least cs := by
  intro depth _ rest
  induction cs with
  | nil => rfl
  | cons c cs ih =>
    obtain ⟨head, tail⟩ := List.forall_mem_cons.1 none
    simp only [List.mem_cons, List.not_mem_nil, or_false, not_or] at head
    simp [afterPart, head, ih tail]

theorem comma : Passes 1 [','] := by
  intro depth le rest
  have inside : depth ≠ 0 := by omega
  simp [afterPart, inside]

theorem bracket {opening closing : Char} (opens : opening = '(' ∨ opening = '<')
    (closes : closing = ')' ∨ closing = '>') (inner : Passes 1 cs) :
    Passes 0 (opening :: cs ++ [closing]) := by
  intro depth _ rest
  have opened (tail : List Char) :
      afterPart depth (opening :: tail) = afterPart (depth + 1) tail := by
    simp [afterPart, opens]
  have closed : afterPart (depth + 1) (closing :: rest) = afterPart depth rest := by
    obtain rfl | rfl := closes <;> simp [afterPart]
  rw [List.cons_append, List.cons_append, List.append_assoc, opened, inner (depth + 1) (by omega),
    List.singleton_append, closed]

theorem row {parts : List (List Char)} (each : ∀ part ∈ parts, Passes 0 part) :
    Passes 1 (row parts) := by
  induction parts with
  | nil => exact nil
  | cons part parts ih =>
    obtain ⟨head, tail⟩ := List.forall_mem_cons.1 each
    cases parts with
    | nil => simpa [Display.row] using head.mono (by omega)
    | cons next parts =>
      rw [Display.row, List.intercalate_cons_cons]
      have space : Passes 1 [' '] := plain (by simp)
      exact ((head.mono (by omega)).append (comma.append space)).append (ih tail)

end Passes

structure IsPart (cs : List Char) : Prop where
  nonempty : cs ≠ []
  passes : Passes 0 cs

def following : List (List Char) → List Char → List Char
  | [], rest => rest
  | part :: parts, rest => ',' :: ' ' :: (row (part :: parts) ++ rest)

theorem row_cons_append (part : List Char) (parts : List (List Char)) (rest : List Char) :
    row (part :: parts) ++ rest = part ++ following parts rest := by
  cases parts <;> simp [row, following]

section Ending

variable {opening opening' : Opening} {comma comma' : Bool} {rest rest' : List Char}

theorem afterPart_ending :
    afterPart 0 (ending opening comma ++ rest) = ending opening comma ++ rest := by
  cases opening <;> cases comma <;> simp [ending, Opening.closing, afterPart]

theorem afterPart_following (parts : List (List Char)) :
    afterPart 0 (following parts (ending opening comma ++ rest)) =
      following parts (ending opening comma ++ rest) := by
  cases parts with
  | nil => exact afterPart_ending
  | cons part parts => simp [following, afterPart]

theorem ending_ne_following {part : List Char} {parts : List (List Char)} :
    ending opening comma ++ rest ≠ following (part :: parts) rest' := by
  cases opening <;> cases comma <;> simp [ending, Opening.closing, following]

theorem ending_ne_row {part : List Char} {parts : List (List Char)} (isPart : IsPart part) :
    ending opening comma ++ rest ≠ row (part :: parts) ++ (ending opening' comma' ++ rest') := by
  intro same
  rw [row_cons_append] at same
  have ends := congrArg (afterPart 0) same
  rw [afterPart_ending, isPart.passes 0 (by omega), afterPart_following] at ends
  exact isPart.nonempty (List.append_left_eq_self.1 (same.symm.trans ends))

/-- The parts of a group can be read off. -/
theorem row_inj {parts parts' : List (List Char)} (each : ∀ part ∈ parts, IsPart part)
    (each' : ∀ part ∈ parts', IsPart part)
    (same : row parts ++ (ending opening comma ++ rest) =
      row parts' ++ (ending opening' comma' ++ rest')) :
    parts = parts' ∧ ending opening comma ++ rest = ending opening' comma' ++ rest' := by
  induction parts generalizing parts' with
  | nil =>
    cases parts' with
    | nil => exact ⟨rfl, same⟩
    | cons part' parts' => exact absurd same (ending_ne_row (List.forall_mem_cons.1 each').1)
  | cons part parts ih =>
    obtain ⟨head, tail⟩ := List.forall_mem_cons.1 each
    cases parts' with
    | nil => exact absurd same.symm (ending_ne_row head)
    | cons part' parts' =>
      obtain ⟨head', tail'⟩ := List.forall_mem_cons.1 each'
      rw [row_cons_append, row_cons_append] at same
      have follow := congrArg (afterPart 0) same
      rw [head.passes 0 (by omega), head'.passes 0 (by omega), afterPart_following,
        afterPart_following] at follow
      rw [follow] at same
      obtain rfl := List.append_cancel_right same
      cases parts with
      | nil =>
        cases parts' with
        | nil => exact ⟨rfl, follow⟩
        | cons => exact absurd follow ending_ne_following
      | cons =>
        cases parts' with
        | nil => exact absurd follow.symm ending_ne_following
        | cons =>
          have rows := (List.cons.inj (List.cons.inj follow).2).2
          exact (ih tail tail' rows).imp_left (congrArg _)

theorem ending_inj (same : ending opening comma ++ rest = ending opening comma' ++ rest') :
    comma = comma' ∧ rest = rest' := by
  cases opening <;> cases comma <;> cases comma' <;> simp_all [ending, Opening.closing]

end Ending

/-! ### Items -/

def isDelimiter (c : Char) : Bool := c ∈ [' ', '<', '>', '(', ')', ',', '?']

structure IsWord (cs : List Char) : Prop where
  nonempty : cs ≠ []
  undelimited : ∀ c ∈ cs, ¬ isDelimiter c

theorem isWord_iff {cs : List Char} : IsWord cs ↔ cs ≠ [] ∧ cs.all (!isDelimiter ·) := by
  rw [List.all_eq_true]
  exact ⟨fun h => ⟨h.nonempty, by simpa using h.undelimited⟩, fun h => ⟨h.1, by simpa using h.2⟩⟩

instance : DecidablePred IsWord := fun _ => decidable_of_iff _ isWord_iff.symm

def Delimited (text : List Char) : Prop := ∀ c ∈ text.head?, isDelimiter c

theorem takeWhile_word {cs rest : List Char} (word : IsWord cs) (delimited : Delimited rest) :
    (cs ++ rest).takeWhile (!isDelimiter ·) = cs := by
  have stop : rest.takeWhile (!isDelimiter ·) = [] := by
    cases rest with
    | nil => rfl
    | cons c rest => simp [delimited c rfl]
  rw [List.takeWhile_append_of_pos (by simpa using word.undelimited), stop, List.append_nil]

theorem word_inj {cs cs' rest rest' : List Char} (word : IsWord cs) (word' : IsWord cs')
    (delimited : Delimited rest) (delimited' : Delimited rest')
    (same : cs ++ rest = cs' ++ rest') : cs = cs' ∧ rest = rest' := by
  have words := congrArg (List.takeWhile (!isDelimiter ·)) same
  rw [takeWhile_word word delimited, takeWhile_word word' delimited'] at words
  subst words
  exact ⟨rfl, List.append_cancel_left same⟩

theorem word_ne_delimited {cs rest text : List Char} (word : IsWord cs)
    (delimited : Delimited text) : cs ++ rest ≠ text := by
  rintro rfl
  obtain ⟨c, cs, rfl⟩ := List.exists_cons_of_ne_nil word.nonempty
  exact word.undelimited c List.mem_cons_self (delimited c rfl)

namespace Item

def Legible : Item → Prop
  | .word cs => IsWord cs
  | .group _ parts _ => ∀ part ∈ parts, IsPart part
  | .questionMark | .ampersand => True

theorem delimited_chars {item : Item} (sign : item.isWord = false) (rest : List Char) :
    Delimited (item.chars ++ rest) := by
  cases item with
  | word => cases sign
  | questionMark => rintro c ⟨⟩; rfl
  | ampersand => rintro c ⟨⟩; rfl
  | group opening => cases opening <;> rintro c ⟨⟩ <;> rfl

theorem word_ne_sign (item : Item) {cs rest rest' : List Char} (word : IsWord cs)
    (sign : item.isWord = false) : cs ++ rest ≠ item.chars ++ rest' :=
  word_ne_delimited word (delimited_chars sign rest')

theorem chars_inj {item item' : Item} {rest rest' : List Char} (legible : item.Legible)
    (legible' : item'.Legible) (delimited : item.isWord → Delimited rest)
    (delimited' : item'.isWord → Delimited rest')
    (same : item.chars ++ rest = item'.chars ++ rest') : item = item' ∧ rest = rest' := by
  cases item with
  | word cs =>
    cases item' with
    | word cs' =>
      obtain ⟨rfl, follow⟩ := word_inj legible legible' (delimited rfl) (delimited' rfl) same
      exact ⟨rfl, follow⟩
    | _ => exact absurd same (word_ne_sign _ legible rfl)
  | questionMark =>
    cases item' with
    | word => exact absurd same.symm (word_ne_sign _ legible' rfl)
    | questionMark => exact ⟨rfl, (List.cons.inj same).2⟩
    | ampersand => simp [chars] at same
    | group opening' => cases opening' <;> simp [chars, Opening.chars] at same
  | ampersand =>
    cases item' with
    | word => exact absurd same.symm (word_ne_sign _ legible' rfl)
    | questionMark => simp [chars] at same
    | ampersand => exact ⟨rfl, List.append_cancel_left same⟩
    | group opening' => cases opening' <;> simp [chars, Opening.chars] at same
  | group opening parts comma =>
    cases item' with
    | word => exact absurd same.symm (word_ne_sign _ legible' rfl)
    | questionMark | ampersand => cases opening <;> simp [chars, Opening.chars] at same
    | group opening' parts' comma' =>
      have openings : opening = opening' := by
        cases opening <;> cases opening' <;> simp_all [chars, Opening.chars]
      subst openings
      simp only [chars, List.append_assoc, List.append_cancel_left_eq] at same
      obtain ⟨rfl, ends⟩ := row_inj legible legible' same
      obtain ⟨rfl, follow⟩ := ending_inj ends
      exact ⟨rfl, follow⟩

end Item

def Spaced : List Item → Prop := List.IsChain fun a b => a.isWord → b.isWord = false

def charsOf (items : List Item) : List Char := items.flatMap Item.chars

@[simp] theorem charsOf_nil : charsOf [] = [] := rfl

@[simp] theorem charsOf_cons (item : Item) (items : List Item) :
    charsOf (item :: items) = item.chars ++ charsOf items := rfl

@[simp] theorem charsOf_append (items more : List Item) :
    charsOf (items ++ more) = charsOf items ++ charsOf more := List.flatMap_append

theorem delimited_charsOf {item : Item} {items : List Item} (spaced : Spaced (item :: items))
    (isWord : item.isWord) : Delimited (charsOf items) := by
  cases items with
  | nil => rintro c ⟨⟩
  | cons next items =>
    exact Item.delimited_chars ((List.isChain_cons_cons.1 spaced).1 isWord) _

theorem chars_ne_nil {item : Item} (legible : item.Legible) : item.chars ≠ [] := by
  cases item with
  | word => exact legible.nonempty
  | questionMark | ampersand => exact List.cons_ne_nil _ _
  | group opening => cases opening <;> simp [Item.chars, Opening.chars]

theorem charsOf_inj {items items' : List Item} (legible : ∀ i ∈ items, i.Legible)
    (legible' : ∀ i ∈ items', i.Legible) (spaced : Spaced items) (spaced' : Spaced items')
    (same : charsOf items = charsOf items') : items = items' := by
  induction items generalizing items' with
  | nil =>
    cases items' with
    | nil => rfl
    | cons item' items' =>
      have head := chars_ne_nil (List.forall_mem_cons.1 legible').1
      exact absurd (List.append_eq_nil_iff.1 same.symm).1 head
  | cons item items ih =>
    obtain ⟨head, tail⟩ := List.forall_mem_cons.1 legible
    cases items' with
    | nil => exact absurd (List.append_eq_nil_iff.1 same).1 (chars_ne_nil head)
    | cons item' items' =>
      obtain ⟨head', tail'⟩ := List.forall_mem_cons.1 legible'
      obtain ⟨rfl, follow⟩ := Item.chars_inj head head' (delimited_charsOf spaced)
        (delimited_charsOf spaced') same
      rw [ih tail tail' spaced.tail spaced'.tail follow]

theorem Item.passes_chars {item : Item} (legible : item.Legible) : Passes 0 item.chars := by
  cases item with
  | word cs =>
    refine .plain fun c mem sign => legible.undelimited c mem ?_
    simp only [List.mem_cons, List.not_mem_nil, or_false] at sign
    obtain rfl | rfl | rfl | rfl | rfl := sign <;> rfl
  | questionMark | ampersand => exact .plain (by simp)
  | group opening parts comma =>
    have comma : Passes 1 (if comma then [','] else []) := by
      cases comma
      · exact .nil
      · exact .comma
    have inner := (Passes.row fun part mem => (legible part mem).passes).append comma
    cases opening with
    | angle =>
      simpa [chars, Opening.chars, ending, Opening.closing] using
        inner.bracket (.inr rfl) (.inr rfl)
    | paren =>
      simpa [chars, Opening.chars, ending, Opening.closing] using
        inner.bracket (.inl rfl) (.inl rfl)
    | function =>
      have name : Passes 0 [' ', 'F', 'u', 'n', 'c', 't', 'i', 'o', 'n'] := .plain (by simp)
      simpa [chars, Opening.chars, ending, Opening.closing] using
        name.append (inner.bracket (.inl rfl) (.inl rfl))

theorem passes_charsOf {items : List Item} (legible : ∀ i ∈ items, i.Legible) :
    Passes 0 (charsOf items) := by
  induction items with
  | nil => exact .nil
  | cons item items ih =>
    obtain ⟨head, tail⟩ := List.forall_mem_cons.1 legible
    exact (Item.passes_chars head).append (ih tail)

def arguments (parts : List (List Char)) : List Item :=
  if parts.isEmpty then [] else [.group .angle parts false]

def fields (parts : List (List Char)) : Item := .group .paren parts (parts.length = 1)

def signature (parts : List (List Char)) : Item := .group .function parts false

def grouping (part : List Char) : Item := .group .paren [part] false

theorem toList_commas (parts : List (List Char)) :
    (commas (parts.map String.ofList)).toList = row parts := by
  simp [commas, row, String.toList_intercalate, Function.comp_def]

theorem toList_angled (parts : List (List Char)) :
    (angled (parts.map String.ofList)).toList = charsOf (arguments parts) := by
  cases parts with
  | nil => rfl
  | cons part parts =>
    have inner := toList_commas (part :: parts)
    simp_all [angled, arguments, Item.chars, Opening.chars, ending, Opening.closing]

theorem toList_fieldList (parts : List (List Char)) :
    (fieldList (parts.map String.ofList)).toList = (fields parts).chars := by
  have inner := toList_commas parts
  match parts with
  | [] => rfl
  | [part] => simp [fieldList, fields, Item.chars, Opening.chars, ending, Opening.closing]
  | first :: second :: parts =>
    simp_all [fieldList, fields, Item.chars, Opening.chars, ending, Opening.closing]

theorem charsOf_arguments (part : List Char) :
    charsOf (arguments [part]) = '<' :: part ++ ['>'] := by
  simp [arguments, Item.chars, Opening.chars, ending, Opening.closing]

theorem chars_signature (parts : List (List Char)) :
    (signature parts).chars = " Function(".toList ++ row parts ++ [')'] := rfl

theorem chars_grouping (part : List Char) : (grouping part).chars = '(' :: part ++ [')'] := by
  simp [grouping, Item.chars, Opening.chars, ending, Opening.closing]

/-- Sequences of items that can be read back from their text. -/
structure Readable (items : List Item) : Prop where
  nonempty : items ≠ []
  legible : ∀ i ∈ items, i.Legible
  spaced : Spaced items

namespace Readable

variable {items items' : List Item} {parts : List (List Char)} {cs : List Char}

theorem inj (readable : Readable items) (readable' : Readable items')
    (same : charsOf items = charsOf items') : items = items' :=
  charsOf_inj readable.legible readable'.legible readable.spaced readable'.spaced same

theorem isPart (readable : Readable items) : IsPart (charsOf items) where
  nonempty empty := by
    obtain ⟨item, items, rfl⟩ := List.exists_cons_of_ne_nil readable.nonempty
    have legible := readable.legible item List.mem_cons_self
    exact chars_ne_nil legible (List.append_eq_nil_iff.1 empty).1
  passes := passes_charsOf readable.legible

theorem singleton {item : Item} (legible : item.Legible) : Readable [item] where
  nonempty := List.cons_ne_nil _ _
  legible := List.forall_mem_singleton.2 legible
  spaced := .singleton _

theorem concat {sign : Item} (readable : Readable items) (legible : sign.Legible)
    (isSign : sign.isWord = false) : Readable (items ++ [sign]) where
  nonempty := List.concat_ne_nil _ _
  legible := List.forall_mem_append.2 ⟨readable.legible, List.forall_mem_singleton.2 legible⟩
  spaced := by
    refine List.isChain_append.2 ⟨readable.spaced, .singleton _, ?_⟩
    rintro item _ _ ⟨⟩ _
    exact isSign

theorem word (isWord : IsWord cs) : Readable [.word cs] := singleton isWord

theorem applied (isWord : IsWord cs) (each : ∀ part ∈ parts, IsPart part) :
    Readable (.word cs :: arguments parts) := by
  have legible : (Item.group .angle parts false).Legible := each
  rw [arguments]
  split
  · exact word isWord
  · exact (word isWord).concat legible rfl

theorem grouping {part : List Char} (isPart : IsPart part) : Readable [grouping part] :=
  singleton (List.forall_mem_singleton.2 isPart)

theorem promoted (word : IsWord cs) (readable : Readable items) :
    Readable (.word cs :: .ampersand :: items) where
  nonempty := List.cons_ne_nil _ _
  legible := List.forall_mem_cons.2 ⟨word, List.forall_mem_cons.2 ⟨trivial, readable.legible⟩⟩
  spaced := by
    refine List.isChain_cons_cons.2 ⟨fun _ => rfl, List.isChain_cons.2 ⟨?_, readable.spaced⟩⟩
    rintro item _ ⟨⟩

end Readable

end MemberAccess.Display
