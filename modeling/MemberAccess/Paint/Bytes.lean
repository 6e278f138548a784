import MemberAccess.Paint.Painter
import MemberAccess.Text.Utf8

/-!
Painting of raw bytes, which need not form a text.
-/
namespace MemberAccess.Paint

def Mark.bytes [ToString ε] : Mark (List UInt8) ε → List UInt8
  | .text t => t
  | .escape e => Utf8.encode (toString e)

def paintBytes [Rendering σ ε] [ToString ε] (choice : ColorChoice)
    (strokes : List (Stroke (List UInt8) σ)) : Except Utf8.Malformed String :=
  Utf8.decode ((paint choice strokes).flatMap Mark.bytes)

end MemberAccess.Paint
