import MemberAccess.Proofs.Paint.Looks

/-!
A terminal that reads character by character. It takes an escape sequence as an order to change its
state, and shows every other character in the state that it is in. What a painter makes of strokes
is shown in the styles of its stack.
-/
namespace MemberAccess.Paint

variable {τ σ ε α κ γ : Type}

theorem uncolored_eq (canvas : Canvas τ σ) (strokes : List (Stroke τ σ)) :
    canvas.written.map (fun piece => (.text piece.1 : Mark τ ε)) ++ uncolored strokes =
      (strokes.foldl Canvas.apply canvas).written.map fun piece => .text piece.1 := by
  induction strokes generalizing canvas with
  | nil => exact List.append_nil _
  | cons stroke strokes ih =>
    rw [List.foldl_cons, ← ih]
    cases stroke <;> simp [uncolored, Canvas.apply]

inductive Reading where
  | text
  | started
  | parameters (params : List Char)

structure Terminal (α κ γ : Type) where
  reading : Reading := .text
  screen : Screen Char α κ γ := {}

/-- The digits and the characters that may stand between numbers. -/
def IsParameter (c : Char) : Prop := '0' ≤ c ∧ c ≤ '?'

instance : DecidablePred IsParameter :=
  fun c => inferInstanceAs (Decidable ('0' ≤ c ∧ c ≤ '?'))

theorem IsParameter.of_isDigit {c : Char} (digit : c.isDigit) : IsParameter c := by
  obtain ⟨zero, nine⟩ : '0'.val ≤ c.val ∧ c.val ≤ '9'.val := by
    simpa only [Char.isDigit, Bool.and_eq_true, decide_eq_true_eq] using digit
  exact ⟨zero, UInt32.le_trans nine (by decide)⟩

/-- Whether escape sequences are written in the form of orders to change the style, which mean the
    right change. -/
def WellWritten [ToString ε] (order : List Char → Option (Change α κ γ)) (read : ε → Change α κ γ) :
    Prop :=
  ∀ e : ε, ∃ params, (toString e).toList = '\x1b' :: '[' :: (params ++ ['m']) ∧
    (∀ c ∈ params, IsParameter c) ∧ order params = some (read e)

namespace Terminal

variable [DecidableEq α] [DecidableEq κ] {order : List Char → Option (Change α κ γ)}
  {read : ε → Change α κ γ} {screen : Screen Char α κ γ}

/-- A sequence that is no order to change the style is not shown either. -/
def feed (order : List Char → Option (Change α κ γ)) (t : Terminal α κ γ) (c : Char) :
    Terminal α κ γ :=
  match t.reading with
  | .text =>
    if c = '\x1b' then { t with reading := .started }
    else { t with screen := t.screen.receive id (.text c) }
  | .started => { t with reading := if c = '[' then .parameters [] else .text }
  | .parameters params =>
    if IsParameter c then { t with reading := .parameters (params ++ [c]) }
    else if c = 'm' then
      ⟨.text, (order params).elim t.screen fun change => t.screen.receive id (.escape change)⟩
    else { t with reading := .text }

def display (order : List Char → Option (Change α κ γ)) (text : String) : Terminal α κ γ :=
  text.toList.foldl (feed order) {}

def text (t : Terminal α κ γ) : String := String.ofList (t.screen.shown.map Prod.fst)

theorem foldl_feed_parameters (chars params : List Char) (valid : ∀ c ∈ chars, IsParameter c) :
    chars.foldl (feed order) ⟨.parameters params, screen⟩ =
      ⟨.parameters (params ++ chars), screen⟩ := by
  induction chars generalizing params with
  | nil => simp
  | cons c chars ih =>
    obtain ⟨head, tail⟩ := List.forall_mem_cons.1 valid
    have step : feed order ⟨.parameters params, screen⟩ c = ⟨.parameters (params ++ [c]), screen⟩ :=
      if_pos head
    rw [List.foldl_cons, step, ih _ tail, List.append_assoc, List.singleton_append]

theorem foldl_feed_escape [ToString ε] (wellWritten : WellWritten order read) (e : ε) :
    (toString e).toList.foldl (feed order) ⟨.text, screen⟩ =
      ⟨.text, screen.receive read (.escape e)⟩ := by
  obtain ⟨params, chars, valid, meaning⟩ := wellWritten e
  have opened : feed order (feed order ⟨.text, screen⟩ '\x1b') '[' = ⟨.parameters [], screen⟩ := rfl
  have closed : feed order ⟨.parameters params, screen⟩ 'm' =
      ⟨.text, screen.receive read (.escape e)⟩ := by
    have final : ¬ IsParameter 'm' := by decide
    simp [feed, final, meaning, Screen.receive]
  rw [chars, List.foldl_cons, List.foldl_cons, opened, List.foldl_append,
    foldl_feed_parameters params [] valid, List.nil_append, List.foldl_cons, closed, List.foldl_nil]

end Terminal

def Screen.spread (screen : Screen String α κ γ) : Screen Char α κ γ where
  shown := screen.shown.flatMap fun piece => piece.1.toList.map (·, piece.2)
  style := screen.style

def Unescaped (text : String) : Prop := '\x1b' ∉ text.toList

instance : DecidablePred Unescaped :=
  fun text => inferInstanceAs (Decidable ('\x1b' ∉ text.toList))

namespace Unescaped

variable {a b : String}

theorem append (first : Unescaped a) (second : Unescaped b) : Unescaped (a ++ b) := by
  rw [Unescaped, String.toList_append]
  exact List.not_mem_append first second

theorem join {texts : List String} (each : ∀ t ∈ texts, Unescaped t) :
    Unescaped (String.join texts) := by
  rw [Unescaped, String.toList_join, List.mem_flatMap]
  rintro ⟨t, mem, escape⟩
  exact each t mem escape

theorem number (n : Nat) : Unescaped (toString n) := by
  rw [Unescaped, Nat.toString_eq_ofList_toDigits, String.toList_ofList]
  intro mem
  exact absurd (Nat.isDigit_of_mem_toDigits (by decide) (by decide) mem) (by decide)

end Unescaped

def Mark.EscapeFree : Mark String ε → Prop
  | .text t => Unescaped t
  | .escape _ => True

def Stroke.EscapeFree : Stroke String σ → Prop
  | .write t => Unescaped t
  | .set _ | .unset => True

theorem escapeFree_of_paintFrom [Rendering σ ε] {styles : List σ} {strokes : List (Stroke String σ)}
    (escapeFree : ∀ s ∈ strokes, s.EscapeFree) : ∀ m ∈ paintFrom styles strokes, m.EscapeFree := by
  induction strokes generalizing styles with
  | nil => simp [paintFrom]
  | cons stroke strokes ih =>
    obtain ⟨head, tail⟩ := List.forall_mem_cons.1 escapeFree
    cases stroke with
    | write text => exact List.forall_mem_cons.2 ⟨head, ih tail⟩
    | set _ | unset =>
      refine List.forall_mem_append.2 ⟨?_, ih tail⟩
      exact List.forall_mem_map.2 fun _ _ => trivial

namespace Terminal

variable [DecidableEq α] [DecidableEq κ] {order : List Char → Option (Change α κ γ)}
  {look : σ → Look α κ γ} {read : ε → Change α κ γ}

theorem foldl_feed_text (chars : List Char) (escapeFree : '\x1b' ∉ chars)
    (screen : Screen Char α κ γ) :
    chars.foldl (feed order) ⟨.text, screen⟩ =
      ⟨.text, { screen with shown := screen.shown ++ chars.map (·, screen.style) }⟩ := by
  induction chars generalizing screen with
  | nil => simp
  | cons c chars ih =>
    obtain ⟨head, tail⟩ := List.ne_and_not_mem_of_not_mem_cons escapeFree
    have step : feed order ⟨.text, screen⟩ c = ⟨.text, screen.receive id (.text c)⟩ :=
      if_neg (Ne.symm head)
    rw [List.foldl_cons, step, ih tail]
    simp [Screen.receive]

variable [ToString ε] (wellWritten : WellWritten order read)
include wellWritten

theorem foldl_feed_mark (mark : Mark String ε) (escapeFree : mark.EscapeFree)
    (screen : Screen String α κ γ) :
    mark.string.toList.foldl (feed order) ⟨.text, screen.spread⟩ =
      ⟨.text, (screen.receive read mark).spread⟩ := by
  cases mark with
  | text text =>
    rw [Mark.string, foldl_feed_text _ escapeFree]
    simp [Screen.receive, Screen.spread]
  | escape e => exact foldl_feed_escape wellWritten e

theorem foldl_feed_marks (marks : List (Mark String ε)) (escapeFree : ∀ m ∈ marks, m.EscapeFree)
    (screen : Screen String α κ γ) :
    (String.join (marks.map Mark.string)).toList.foldl (feed order) ⟨.text, screen.spread⟩ =
      ⟨.text, (marks.foldl (Screen.receive read) screen).spread⟩ := by
  induction marks generalizing screen with
  | nil => rfl
  | cons m marks ih =>
    obtain ⟨head, tail⟩ := List.forall_mem_cons.1 escapeFree
    rw [List.map_cons, String.join_cons, String.toList_append, List.foldl_append,
      foldl_feed_mark wellWritten m head, ih tail, List.foldl_cons]

theorem display_strokes [Rendering σ ε] (faithful : Faithful look read)
    {strokes : List (Stroke String σ)} (escapeFree : ∀ s ∈ strokes, s.EscapeFree) :
    display order (paintText .always strokes) =
      ⟨.text, ((strokes.foldl Canvas.apply {}).onScreen look).spread⟩ := by
  rw [← foldl_receive_paintFrom faithful]
  exact foldl_feed_marks wellWritten _ (escapeFree_of_paintFrom escapeFree) {}

end Terminal

/-- Strokes that put the styles back as they were, and write no escape character of their own. -/
structure Tidy (strokes : List (Stroke String)) : Prop where
  restores : ∀ canvas : Canvas String Style,
    (strokes.foldl Canvas.apply canvas).styles = canvas.styles
  escapeFree : ∀ s ∈ strokes, s.EscapeFree

namespace Tidy

theorem nil : Tidy [] where
  restores _ := rfl
  escapeFree := by simp

theorem append {strokes more : List (Stroke String)} (first : Tidy strokes) (second : Tidy more) :
    Tidy (strokes ++ more) where
  restores canvas := by rw [List.foldl_append, second.restores, first.restores]
  escapeFree := List.forall_mem_append.2 ⟨first.escapeFree, second.escapeFree⟩

theorem flatMap {α : Type} {items : List α} {strokes : α → List (Stroke String)}
    (each : ∀ a ∈ items, Tidy (strokes a)) : Tidy (items.flatMap strokes) := by
  induction items with
  | nil => exact nil
  | cons a items ih =>
    obtain ⟨head, tail⟩ := List.forall_mem_cons.1 each
    exact head.append (ih tail)

theorem write {text : String} (unescaped : Unescaped text) : Tidy [.write text] where
  restores _ := rfl
  escapeFree := List.forall_mem_singleton.2 unescaped

theorem styled {style : Style} {text : String} (unescaped : Unescaped text) :
    Tidy (styled style text) where
  restores _ := rfl
  escapeFree := by simpa [Paint.styled, Stroke.EscapeFree] using unescaped

end Tidy

/-- Colored output of tidy strokes differs from the uncolored one in nothing but styles, and ends
    with no style set. -/
theorem Tidy.display_paintText [DecidableEq α] [DecidableEq κ] [Rendering Style ε] [ToString ε]
    {order : List Char → Option (Change α κ γ)} {look : Style → Look α κ γ}
    {read : ε → Change α κ γ} {strokes : List (Stroke String)} (tidy : Tidy strokes)
    (wellWritten : WellWritten order read) (faithful : Faithful look read) :
    (Terminal.display order (paintText .always strokes)).text = paintText .never strokes ∧
      (Terminal.display order (paintText .always strokes)).screen.style = .plain ∧
      (Terminal.display order (paintText .always strokes)).reading = .text := by
  have styles : (strokes.foldl Canvas.apply {}).styles = [] := tidy.restores {}
  have texts : paint .never strokes =
      (strokes.foldl Canvas.apply {}).written.map fun piece => Mark.text piece.1 :=
    uncolored_eq {} strokes
  rw [Terminal.display_strokes wellWritten faithful tidy.escapeFree]
  refine ⟨?_, ?_, rfl⟩
  · rw [paintText, texts, ← String.toList_inj]
    simp [Terminal.text, Screen.spread, Canvas.onScreen, Mark.string, List.map_flatMap,
      List.flatMap_map, Function.comp_def]
  · exact congrArg (fun styles => Look.ofStack (styles.map look)) styles

/-! ### The escape sequences at hand -/

def Hue.ofNumber? : Nat → Option Hue
  | 0 => some .black
  | 1 => some .red
  | 2 => some .green
  | 3 => some .yellow
  | 4 => some .blue
  | 5 => some .magenta
  | 6 => some .cyan
  | 7 => some .white
  | _ => none

namespace Escape

def ofNumber? (n : Nat) : Option Escape :=
  match n / 10 with
  | 0 =>
    match n with
    | 0 => some .reset
    | 1 => some (.effect .bold)
    | 2 => some (.effect .dimmed)
    | 3 => some (.effect .italic)
    | 4 => some (.effect .underline)
    | _ => none
  | 3 => (Hue.ofNumber? (n % 10)).map fun hue => .foreground ⟨hue, false⟩
  | 4 => (Hue.ofNumber? (n % 10)).map fun hue => .background ⟨hue, false⟩
  | 9 => (Hue.ofNumber? (n % 10)).map fun hue => .foreground ⟨hue, true⟩
  | 10 => (Hue.ofNumber? (n % 10)).map fun hue => .background ⟨hue, true⟩
  | _ => none

theorem ofNumber?_number (e : Escape) : ofNumber? e.number = some e := by
  rcases e with _ | effect | ⟨hue, bright⟩ | ⟨hue, bright⟩
  · rfl
  · cases effect <;> rfl
  · cases hue <;> cases bright <;> rfl
  · cases hue <;> cases bright <;> rfl

/-- What parameters order, which is nothing unless they are a single number. -/
def order (params : List Char) : Option (Change Effect Ground Color) :=
  if params.all Char.isDigit then (ofNumber? (Nat.ofDigitChars 10 params 0)).map change else none

theorem wellWritten : WellWritten order change := by
  intro e
  have digits : ∀ c ∈ Nat.toDigits 10 e.number, c.isDigit :=
    fun c mem => Nat.isDigit_of_mem_toDigits (by decide) (by decide) mem
  refine ⟨Nat.toDigits 10 e.number, by simp [toString, text],
    fun c mem => .of_isDigit (digits c mem), ?_⟩
  rw [order, if_pos (List.all_eq_true.2 digits), Nat.ofDigitChars_ten_toDigits, ofNumber?_number,
    Option.map_some]

end Escape

end MemberAccess.Paint
