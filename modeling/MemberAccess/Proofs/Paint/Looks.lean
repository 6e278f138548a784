import MemberAccess.Paint.Painter

/-!
What a terminal makes of painted text. An escape sequence is an order to change its state: to switch
an effect on, to put one color in place of another, or to clear all. The styles may be of any sort,
as long as each one is rendered as the changes that it consists of. Then the terminal is always in
the state of the painter's stack: the styles on it, the newer on top of the older.
-/
namespace MemberAccess.Paint

variable {τ σ ε α κ γ : Type}

inductive Change (α κ γ : Type) where
  | reset
  | effect (e : α)
  | color (kind : κ) (c : γ)

@[ext]
structure Look (α κ γ : Type) where
  effects : α → Bool
  colors : κ → Option γ

namespace Look

def plain : Look α κ γ := ⟨fun _ => false, fun _ => none⟩

def after [DecidableEq α] [DecidableEq κ] (look : Look α κ γ) : Change α κ γ → Look α κ γ
  | .reset => plain
  | .effect e => { look with effects := fun other => other = e || look.effects other }
  | .color kind c =>
    { look with colors := fun other => if other = kind then some c else look.colors other }

/-- One look on top of another: it adds its effects, and its colors hide those below. -/
def overlay (below top : Look α κ γ) : Look α κ γ where
  effects e := below.effects e || top.effects e
  colors kind := (top.colors kind).or (below.colors kind)

/-- The look of a stack, the newest part of which comes first. -/
def ofStack : List (Look α κ γ) → Look α κ γ
  | [] => plain
  | top :: below => (ofStack below).overlay top

end Look

def Change.IsOf (look : Look α κ γ) : Change α κ γ → Prop
  | .reset => False
  | .effect e => look.effects e
  | .color kind c => look.colors kind = some c

namespace Look

variable (look below top : Look α κ γ)

@[simp] theorem overlay_plain : look.overlay plain = look := by
  simp [overlay, plain]

@[simp] theorem plain_overlay : plain.overlay look = look := by
  simp [overlay, plain]

theorem overlay_assoc : (look.overlay below).overlay top = look.overlay (below.overlay top) := by
  simp [overlay, Bool.or_assoc, Option.or_assoc]

variable {look below top}

theorem overlay_eq_left (seen : ∀ change : Change α κ γ, change.IsOf top → change.IsOf below) :
    below.overlay top = below := by
  ext1
  · funext e
    have effect : top.effects e = true → below.effects e = true := seen (.effect e)
    exact Bool.or_eq_left_iff_imp.2 effect
  · funext kind
    cases given : top.colors kind with
    | none => simp [overlay, given]
    | some c =>
      have color : below.colors kind = some c := seen (.color kind c) given
      simp [overlay, given, color]

variable [DecidableEq α] [DecidableEq κ]
variable {changes : List (Change α κ γ)} {change other : Change α κ γ}

theorem overlay_after (part : change.IsOf top) :
    (look.after change).overlay top = look.overlay top := by
  cases change with
  | reset => exact part.elim
  | effect e =>
    have on : top.effects e = true := part
    ext1
    · funext d
      by_cases same : d = e <;> simp [overlay, after, same, on]
    · rfl
  | color kind c =>
    have given : top.colors kind = some c := part
    ext1
    · rfl
    · funext k
      by_cases same : k = kind <;> simp [overlay, after, same, given]

theorem isOf_after (part : change.IsOf top) : change.IsOf (look.after change) := by
  cases change with
  | reset => exact part.elim
  | effect e => simp [Change.IsOf, after]
  | color kind c => simp [Change.IsOf, after]

/-- One look has no two colors of a kind, so none of its changes undoes another. -/
theorem isOf_after_other (part : change.IsOf top) (otherPart : other.IsOf top)
    (seen : change.IsOf look) : change.IsOf (look.after other) := by
  cases other with
  | reset => exact otherPart.elim
  | effect e =>
    cases change with
    | reset => exact part.elim
    | effect d => exact Bool.or_eq_true_iff.2 (.inr seen)
    | color kind c => exact seen
  | color kind c =>
    cases change with
    | reset => exact part.elim
    | effect d => exact seen
    | color k d =>
      by_cases same : k = kind
      · subst same
        have colors : some d = some c := part.symm.trans otherPart
        simpa [Change.IsOf, after] using colors.symm
      · simpa [Change.IsOf, after, same] using seen

theorem overlay_foldl_after (parts : ∀ change ∈ changes, change.IsOf top) :
    (changes.foldl after look).overlay top = look.overlay top := by
  induction changes generalizing look with
  | nil => rfl
  | cons change changes ih =>
    obtain ⟨part, parts⟩ := List.forall_mem_cons.1 parts
    rw [List.foldl_cons, ih parts, overlay_after part]

theorem isOf_foldl_after (parts : ∀ change ∈ changes, change.IsOf top) (part : change.IsOf top)
    (seen : change ∈ changes ∨ change.IsOf look) : change.IsOf (changes.foldl after look) := by
  induction changes generalizing look with
  | nil => simpa using seen
  | cons first changes ih =>
    obtain ⟨firstPart, parts⟩ := List.forall_mem_cons.1 parts
    -- Once the change has been made it stays: the others are parts of the same look.
    refine ih parts ?_
    obtain mem | seen := seen
    · obtain rfl | mem := List.mem_cons.1 mem
      · exact .inr (isOf_after part)
      · exact .inl mem
    · exact .inr (isOf_after_other part firstPart seen)

/-- The changes that a look consists of lay it on top, whatever their order is and however often
    each of them is made. -/
theorem foldl_after (parts : ∀ change, change ∈ changes ↔ change.IsOf top) :
    changes.foldl after look = look.overlay top := by
  have sound : ∀ change ∈ changes, change.IsOf top := fun change => (parts change).1
  have complete : (changes.foldl after look).overlay top = changes.foldl after look :=
    overlay_eq_left fun change part => isOf_foldl_after sound part (.inl ((parts change).2 part))
  rw [← complete, overlay_foldl_after sound]

end Look

/-- Each style is rendered as the changes that its look consists of. It is reset by the one that
    clears all, unless it is plain and has nothing to clear. -/
structure Faithful [Rendering σ ε] (look : σ → Look α κ γ) (read : ε → Change α κ γ) : Prop where
  escapes : ∀ style change,
    change ∈ (Rendering.escapes style).map read ↔ change.IsOf (look style)
  reset_plain : ∀ style : σ, look style = .plain → Rendering.resetEscapes style = []
  reset_styled : ∀ style, look style ≠ .plain → (Rendering.resetEscapes style).map read = [.reset]

/-- What a terminal shows, each text in the state that it came in, and the state of what comes
    next. -/
structure Screen (τ α κ γ : Type) where
  shown : List (τ × Look α κ γ) := []
  style : Look α κ γ := .plain

/-- What strokes are about: each text with the styles that are on the stack when it is written, and
    the styles that are on it now. -/
structure Canvas (τ σ : Type) where
  written : List (τ × List σ) := []
  styles : List σ := []

namespace Canvas

def apply (canvas : Canvas τ σ) : Stroke τ σ → Canvas τ σ
  | .write text => { canvas with written := canvas.written ++ [(text, canvas.styles)] }
  | .set style => { canvas with styles := style :: canvas.styles }
  | .unset => { canvas with styles := canvas.styles.tail }

def onScreen (look : σ → Look α κ γ) (canvas : Canvas τ σ) : Screen τ α κ γ where
  shown := canvas.written.map fun piece => (piece.1, .ofStack (piece.2.map look))
  style := .ofStack (canvas.styles.map look)

end Canvas

section

variable [DecidableEq α] [DecidableEq κ] {look : σ → Look α κ γ} {read : ε → Change α κ γ}

def Screen.receive (read : ε → Change α κ γ) (screen : Screen τ α κ γ) :
    Mark τ ε → Screen τ α κ γ
  | .text text => { screen with shown := screen.shown ++ [(text, screen.style)] }
  | .escape e => { screen with style := screen.style.after (read e) }

theorem Screen.foldl_receive_escapes (screen : Screen τ α κ γ) (escapes : List ε) :
    (escapes.map Mark.escape).foldl (receive read) screen =
      { screen with style := (escapes.map read).foldl Look.after screen.style } := by
  induction escapes generalizing screen with
  | nil => rfl
  | cons e escapes ih => exact ih _

variable [Rendering σ ε] (faithful : Faithful look read)
include faithful

namespace Faithful

theorem foldl_after_replay (state : Look α κ γ) (styles : List σ) :
    ((replay styles).map read).foldl Look.after state =
      state.overlay (.ofStack (styles.map look)) := by
  induction styles with
  | nil => exact state.overlay_plain.symm
  | cons top below ih =>
    have last : replay (top :: below) = replay below ++ Rendering.escapes top := by simp [replay]
    rw [last, List.map_append, List.foldl_append, ih, Look.foldl_after (faithful.escapes top),
      List.map_cons, Look.ofStack, Look.overlay_assoc]

/-- To unset a style takes back just this one. A plain style is not reset, but the styles below it
    are in effect already, and to set them again makes no difference. -/
theorem foldl_after_unset (styles : List σ) :
    ((unsetEscapes styles).map read).foldl Look.after (.ofStack (styles.map look)) =
      .ofStack (styles.tail.map look) := by
  cases styles with
  | nil => rfl
  | cons top below =>
    rw [unsetEscapes, List.map_append, List.foldl_append, faithful.foldl_after_replay,
      List.tail_cons]
    by_cases plain : look top = .plain
    · rw [faithful.reset_plain top plain, List.map_cons, plain, Look.ofStack, Look.overlay_plain]
      exact Look.overlay_eq_left fun _ part => part
    · rw [faithful.reset_styled top plain]
      exact Look.plain_overlay _

end Faithful

theorem foldl_receive_paintFrom (canvas : Canvas τ σ) (strokes : List (Stroke τ σ)) :
    (paintFrom canvas.styles strokes).foldl (Screen.receive read) (canvas.onScreen look) =
      (strokes.foldl Canvas.apply canvas).onScreen look := by
  induction strokes generalizing canvas with
  | nil => rfl
  | cons stroke strokes ih =>
    rw [List.foldl_cons, ← ih]
    cases stroke with
    | write text => simp [paintFrom, Screen.receive, Canvas.onScreen, Canvas.apply]
    | set style =>
      rw [paintFrom, List.foldl_append, Screen.foldl_receive_escapes, Canvas.onScreen,
        Look.foldl_after (faithful.escapes style)]
      rfl
    | unset =>
      rw [paintFrom, List.foldl_append, Screen.foldl_receive_escapes, Canvas.onScreen,
        faithful.foldl_after_unset]
      rfl

/-- A terminal in its default state that receives what a painter emits shows every text in the
    styles that are on the stack when it is written, and ends in those that are left on it. -/
theorem shown_in_stacked_styles (strokes : List (Stroke τ σ)) :
    ((paintFrom [] strokes).foldl (Screen.receive read) {}).shown =
        (strokes.foldl Canvas.apply {}).written.map
          (fun piece => (piece.1, .ofStack (piece.2.map look))) ∧
      ((paintFrom [] strokes).foldl (Screen.receive read) {}).style =
        .ofStack ((strokes.foldl Canvas.apply {}).styles.map look) := by
  have run := foldl_receive_paintFrom faithful {} strokes
  exact ⟨congrArg Screen.shown run, congrArg Screen.style run⟩

end

/-! ### The styles at hand -/

inductive Ground where
  | foreground | background
  deriving DecidableEq

def Escape.change : Escape → Change Effect Ground Color
  | .reset => .reset
  | .effect e => .effect e
  | .foreground c => .color .foreground c
  | .background c => .color .background c

namespace Style

def look (s : Style) : Look Effect Ground Color where
  effects := s.has
  colors
    | .foreground => s.foreground
    | .background => s.background

theorem look_injective {s t : Style} (same : s.look = t.look) : s = t := by
  have effects (e : Effect) : s.has e = t.has e := congrFun (congrArg Look.effects same) e
  have colors (g : Ground) : s.look.colors g = t.look.colors g :=
    congrFun (congrArg Look.colors same) g
  cases s
  cases t
  rw [mk.injEq]
  exact ⟨effects .bold, effects .dimmed, effects .italic, effects .underline, colors .foreground,
    colors .background⟩

theorem look_plain : plain.look = .plain := by
  ext1
  · funext e
    cases e <;> rfl
  · funext g
    cases g <;> rfl

theorem faithful : Faithful look Escape.change where
  escapes s change := by
    cases change with
    | reset => simp [Rendering.escapes, escapes, Escape.change, Change.IsOf]
    | effect e =>
      cases e <;> simp [Rendering.escapes, escapes, Escape.change, Change.IsOf, look, has]
    | color g c =>
      cases g <;> simp [Rendering.escapes, escapes, Escape.change, Change.IsOf, look]
  reset_plain s plain := if_pos (look_injective (plain.trans look_plain.symm))
  reset_styled s styled := by
    have notPlain : s ≠ plain := fun plain => styled (plain ▸ look_plain)
    simp [Rendering.resetEscapes, resetEscapes, notPlain, Escape.change]

def boldRed : Style := { bold := true, foreground := some ⟨.red, false⟩ }

def boldGreen : Style := { boldRed with foreground := some ⟨.green, true⟩ }

/-- A color over another one, a plain style in between, and an unset too many at either end. -/
def overlapping : List (Stroke String) :=
  [.unset, .write "a", .set boldRed, .set (.ofForeground ⟨.green, true⟩), .write "b", .set .plain,
    .write "c", .unset, .write "d", .unset, .write "e", .unset, .unset, .write "f"]

theorem overlapping_shown :
    Faithful look Escape.change ∧
      ((paintFrom [] overlapping).foldl (Screen.receive Escape.change) {}).shown =
        [("a", .plain), ("b", boldGreen.look), ("c", boldGreen.look), ("d", boldGreen.look),
          ("e", boldRed.look), ("f", .plain)] ∧
      ((paintFrom [] overlapping).foldl (Screen.receive Escape.change) {}).style = .plain := by
  obtain ⟨shown, style⟩ := shown_in_stacked_styles faithful overlapping
  have mixed : boldRed.look.overlay (ofForeground ⟨.green, true⟩).look = boldGreen.look := by
    ext1
    · funext e
      cases e <;> rfl
    · funext g
      cases g <;> rfl
  refine ⟨faithful, shown.trans ?_, style⟩
  simp [overlapping, Canvas.apply, Look.ofStack, look_plain, mixed]

end Style

end MemberAccess.Paint
