import MemberAccess.Paint.Style

/-!
Painted text. Strokes write text, set a style on top of those in effect, and unset the last one.
A terminal cannot undo a single style, so unsetting resets everything and sets the remaining
styles again.
-/
namespace MemberAccess.Paint

/-- Styles of any sort, as far as a painter knows them: by the escape sequences that set a style,
    and by those that reset the terminal after it. -/
class Rendering (σ : Type) (ε : outParam Type) where
  escapes : σ → List ε
  resetEscapes : σ → List ε

instance : Rendering Style Escape where
  escapes := Style.escapes
  resetEscapes := Style.resetEscapes

inductive Stroke (τ : Type) (σ : Type := Style) where
  | write (text : τ)
  | set (style : σ)
  | unset

inductive Mark (τ : Type) (ε : Type := Escape) where
  | text (text : τ)
  | escape (escape : ε)

inductive ColorChoice where
  | never | auto | always
  deriving DecidableEq

/-- No terminal is at the other end of a string, so there are colors only where they are asked
    for. -/
def ColorChoice.colored : ColorChoice → Bool
  | .always => true
  | .never | .auto => false

/-- Set the styles in effect anew, the oldest of which is the last of the list. -/
def replay [Rendering σ ε] (styles : List σ) : List ε := styles.reverse.flatMap Rendering.escapes

def unsetEscapes [Rendering σ ε] : List σ → List ε
  | [] => []
  | top :: below => Rendering.resetEscapes top ++ replay below

def paintFrom [Rendering σ ε] (styles : List σ) : List (Stroke τ σ) → List (Mark τ ε)
  | [] => []
  | .write text :: strokes => .text text :: paintFrom styles strokes
  | .set style :: strokes =>
    (Rendering.escapes style).map .escape ++ paintFrom (style :: styles) strokes
  | .unset :: strokes => (unsetEscapes styles).map .escape ++ paintFrom styles.tail strokes

def uncolored : List (Stroke τ σ) → List (Mark τ ε)
  | [] => []
  | .write text :: strokes => .text text :: uncolored strokes
  | _ :: strokes => uncolored strokes

def paint [Rendering σ ε] (choice : ColorChoice) (strokes : List (Stroke τ σ)) : List (Mark τ ε) :=
  if choice.colored then paintFrom [] strokes else uncolored strokes

def Mark.string [ToString ε] : Mark String ε → String
  | .text t => t
  | .escape e => toString e

def paintText [Rendering σ ε] [ToString ε] (choice : ColorChoice)
    (strokes : List (Stroke String σ)) : String :=
  String.join ((paint choice strokes).map Mark.string)

def styled (style : Style) (text : String) : List (Stroke String) :=
  [.set style, .write text, .unset]

end MemberAccess.Paint
