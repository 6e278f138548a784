/-!
Styles of terminal text and the escape sequences that switch them on.
-/
namespace MemberAccess.Paint

inductive Hue where
  | black | red | green | yellow | blue | magenta | cyan | white
  deriving DecidableEq

def Hue.number : Hue → Nat
  | .black => 0
  | .red => 1
  | .green => 2
  | .yellow => 3
  | .blue => 4
  | .magenta => 5
  | .cyan => 6
  | .white => 7

structure Color where
  hue : Hue
  bright : Bool := false
  deriving DecidableEq

inductive Effect where
  | bold | dimmed | italic | underline
  deriving DecidableEq

def Effect.number : Effect → Nat
  | .bold => 1
  | .dimmed => 2
  | .italic => 3
  | .underline => 4

structure Style where
  bold : Bool := false
  dimmed : Bool := false
  italic : Bool := false
  underline : Bool := false
  foreground : Option Color := none
  background : Option Color := none
  deriving DecidableEq

inductive Escape where
  | reset
  | effect (e : Effect)
  | foreground (c : Color)
  | background (c : Color)
  deriving DecidableEq

namespace Escape

def number : Escape → Nat
  | .reset => 0
  | .effect e => e.number
  | .foreground c => (if c.bright then 90 else 30) + c.hue.number
  | .background c => (if c.bright then 100 else 40) + c.hue.number

def text (e : Escape) : String := "\x1b[" ++ toString e.number ++ "m"

instance : ToString Escape := ⟨text⟩

end Escape

namespace Style

def plain : Style := {}

def ofForeground (c : Color) : Style := { foreground := some c }

def ofBackground (c : Color) : Style := { background := some c }

def withEffect (s : Style) : Effect → Style
  | .bold => { s with bold := true }
  | .dimmed => { s with dimmed := true }
  | .italic => { s with italic := true }
  | .underline => { s with underline := true }

def ofEffects (es : List Effect) : Style := es.foldl withEffect plain

def has (s : Style) : Effect → Bool
  | .bold => s.bold
  | .dimmed => s.dimmed
  | .italic => s.italic
  | .underline => s.underline

def escapes (s : Style) : List Escape :=
  ([Effect.bold, .dimmed, .italic, .underline].filter s.has).map .effect
    ++ s.foreground.toList.map .foreground ++ s.background.toList.map .background

def resetEscapes (s : Style) : List Escape := if s = plain then [] else [.reset]

end Style

end MemberAccess.Paint
