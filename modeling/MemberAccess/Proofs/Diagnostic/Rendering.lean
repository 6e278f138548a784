import MemberAccess.Diagnostic.Render
import MemberAccess.Proofs.Paint.Terminal

/-!
Diagnostics as a terminal shows them. All strokes of a diagnostic are tidy, so colors make no
difference to its text.
-/
namespace MemberAccess

open Paint

theorem Text.mem_of_mem_splitChars {separator c : Char} {chars part : List Char}
    (isPart : part ∈ splitChars separator chars) (mem : c ∈ part) : c ∈ chars := by
  induction chars generalizing part with
  | nil => simp_all [splitChars]
  | cons d chars ih =>
    rw [splitChars] at isPart
    split at isPart
    · obtain rfl | isPart := List.mem_cons.1 isPart
      · exact absurd mem List.not_mem_nil
      · exact List.mem_cons_of_mem d (ih isPart mem)
    · split at isPart
      · next none => simp_all
      · next first rest parts =>
        obtain rfl | isPart := List.mem_cons.1 isPart
        · obtain rfl | mem := List.mem_cons.1 mem
          · exact List.mem_cons_self
          · exact List.mem_cons_of_mem d (ih (parts ▸ List.mem_cons_self) mem)
        · exact List.mem_cons_of_mem d (ih (parts ▸ List.mem_cons_of_mem first isPart) mem)

theorem Text.unescaped_of_mem_split {separator : Char} {text part : String}
    (unescaped : Unescaped text) (isPart : part ∈ split separator text) : Unescaped part := by
  obtain ⟨chars, mem, rfl⟩ := List.mem_map.1 isPart
  rw [Unescaped, String.toList_ofList]
  exact fun escape => unescaped (mem_of_mem_splitChars mem escape)

theorem Severity.unescaped_name (s : Severity) : Unescaped s.name := by
  cases s <;> decide

theorem NoteKind.unescaped_name (k : NoteKind) : Unescaped k.name := by
  cases k <;> decide

theorem Code.unescaped_text (c : Code) : Unescaped c.text := by
  cases c with
  | error code => exact .append (by decide) (.number _)
  | lint code => cases code <;> decide

theorem Span.unescaped_text (s : Span) : Unescaped s.text :=
  .append (.append (.number _) (by decide)) (.number _)

theorem Note.unescaped_body (n : Note) (unescaped : Unescaped n.message) : Unescaped n.body := by
  have parts : ∀ line ∈ Text.split '\n' n.message, Unescaped line :=
    fun _ => Text.unescaped_of_mem_split unescaped
  have indent (count : Nat) : Unescaped (String.ofList (List.replicate count ' ')) := by
    simp [Unescaped]
  rw [body]
  split
  · decide
  · next first rest split =>
    rw [split, List.forall_mem_cons] at parts
    refine .append parts.1 (.join (List.forall_mem_map.2 fun line mem => ?_))
    exact .append (.append (by decide) (indent _)) (parts.2 line (List.mem_filter.1 mem).1)

theorem Highlight.tidy_strokes (h : Highlight) (labels : ∀ label ∈ h.label, Unescaped label)
    (isFirst : Bool) (severity : Severity) : Tidy (h.strokes isFirst severity) := by
  have framed : Unescaped (frame isFirst) := by cases isFirst <;> decide
  have line : Unescaped h.role.line := by cases h.role <;> decide
  have label : Tidy (h.labelStrokes severity) := by
    rw [labelStrokes]
    split
    · exact .nil
    · next label given =>
      exact ((Tidy.styled (.append (by decide) line)).append (.write (by decide))).append
        (.styled (labels label given))
  exact (((Tidy.write (by decide)).append (.styled framed)).append
    (.write (.append (by decide) h.span.unescaped_text))).append label

theorem Note.tidy_strokes (n : Note) (unescaped : Unescaped n.message) : Tidy n.strokes :=
  ((Tidy.write (by decide)).append (.styled n.kind.unescaped_name)).append
    (.write (.append (by decide) (n.unescaped_body unescaped)))

namespace Diagnostic

structure EscapeFree (d : Diagnostic) : Prop where
  message : ∀ message ∈ d.message, Unescaped message
  labels : ∀ h ∈ d.highlights, ∀ label ∈ h.label, Unescaped label
  notes : ∀ n ∈ d.notes, Unescaped n.message

variable {ε α κ γ : Type} (d : Diagnostic) (escapeFree : d.EscapeFree)
include escapeFree

theorem tidy_headerStrokes : Tidy d.headerStrokes := by
  refine .append (.append (.styled d.severity.unescaped_name) ?_) ?_
  · split
    · exact .nil
    · exact .styled (.append (.append (by decide) (Code.unescaped_text _)) (by decide))
  · split
    · exact .nil
    · next message given =>
      exact .append (.write (by decide)) (.styled (escapeFree.message message given))

theorem tidy_highlightStrokes : Tidy (highlightStrokes d.severity d.highlights) := by
  have labels := escapeFree.labels
  cases highlights : d.highlights with
  | nil => exact .nil
  | cons h hs =>
    rw [highlights, List.forall_mem_cons] at labels
    exact (h.tidy_strokes labels.1 true _).append
      (.flatMap fun other mem => other.tidy_strokes (labels.2 other mem) false _)

theorem tidy_strokes : Tidy d.strokes :=
  ((d.tidy_headerStrokes escapeFree).append (d.tidy_highlightStrokes escapeFree)).append
    (.flatMap fun n mem => n.tidy_strokes (escapeFree.notes n mem))

/-- A terminal shows the colored text of a diagnostic as the uncolored one, and is left with no
    style set and no escape sequence open, however styles are rendered and written. -/
theorem display_render [DecidableEq α] [DecidableEq κ] [Rendering Style ε] [ToString ε]
    {order : List Char → Option (Change α κ γ)} {look : Style → Look α κ γ}
    {read : ε → Change α κ γ} (wellWritten : WellWritten order read)
    (faithful : Faithful look read) :
    (Terminal.display order (d.render .always)).text = d.render .never ∧
      (Terminal.display order (d.render .always)).screen.style = .plain ∧
      (Terminal.display order (d.render .always)).reading = .text := by
  rw [render, render]
  exact (d.tidy_strokes escapeFree).display_paintText wellWritten faithful

omit escapeFree

def unknownMember : Diagnostic where
  severity := .error
  code := some (.error .e003)
  message := some "no member `f`"
  highlights :=
    [⟨⟨3, 8, by omega⟩, .primary, none⟩, ⟨⟨3, 8, by omega⟩, .secondary, some "an `int`"⟩]
  notes := [⟨.note, "visible\nby import"⟩, ⟨.help, ""⟩]

theorem unknownMember_display :
    unknownMember.EscapeFree ∧ WellWritten Escape.order Escape.change ∧
      Faithful Style.look Escape.change ∧
      (Terminal.display Escape.order (unknownMember.render .always)).text =
        unknownMember.render .never ∧
      (Terminal.display Escape.order (unknownMember.render .always)).screen.style = .plain ∧
      (Terminal.display Escape.order (unknownMember.render .always)).reading = .text :=
  have escapeFree : unknownMember.EscapeFree := ⟨by decide, by decide, by decide⟩
  ⟨escapeFree, Escape.wellWritten, Style.faithful,
    unknownMember.display_render escapeFree Escape.wellWritten Style.faithful⟩

example : unknownMember.render .never =
    "error[E003]: no member `f`\n  ┌─ 3..8\n  ├─ 3..8 ─ an `int`\n" ++
      " note: visible\n       by import\n help: " := by
  decide

end Diagnostic

end MemberAccess
