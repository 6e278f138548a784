import Mathlib.Data.Finset.Card
import MemberAccess.Diagnostic.Buffer
import MemberAccess.Proofs.Sorted

/-!
Buffers of diagnostics. The order of diagnostics is built up from those of their parts. It is total,
and it tells any two of them apart, so that a buffer only depends on which diagnostics have been
reported.
-/
namespace MemberAccess

open Std

theorem compareOn_eq_iff {α β : Type} [Ord β] [LawfulEqOrd β] {f : α → β} {a b : α} :
    compareOn f a b = .eq ↔ f a = f b := LawfulEqOrd.compare_eq_iff_eq

section Parts

theorem Severity.rank_injective : Function.Injective Severity.rank := by
  intro a b h
  cases a <;> cases b <;> simp_all [Severity.rank]

theorem Role.rank_injective : Function.Injective Role.rank := by
  intro a b h
  cases a <;> cases b <;> simp_all [Role.rank]

theorem NoteKind.rank_injective : Function.Injective NoteKind.rank := by
  intro a b h
  cases a <;> cases b <;> simp_all [NoteKind.rank]

theorem ErrorCode.number_injective : Function.Injective ErrorCode.number := by
  intro a b h
  cases a <;> cases b <;> simp_all [ErrorCode.number]

theorem LintCode.number_injective : Function.Injective LintCode.number := by
  intro a b h
  cases a <;> cases b <;> simp_all [LintCode.number]

theorem Code.key_injective : Function.Injective Code.key := by
  intro a b h
  cases a <;> cases b <;> simp_all [Code.key]
  · exact ErrorCode.number_injective h
  · exact LintCode.number_injective h

end Parts

instance : TransOrd Span := by
  change TransCmp (compareLex (compareOn Span.start) (compareOn Span.stop))
  infer_instance

instance : LawfulEqOrd Span where
  eq_of_compare {a b} h := by
    change compareLex (compareOn Span.start) (compareOn Span.stop) a b = .eq at h
    obtain ⟨start, stop⟩ := compareLex_eq_eq.1 h
    rw [compareOn_eq_iff] at start stop
    cases a
    cases b
    simp_all

instance : TransOrd Code := by
  change TransCmp (compareLex _ _)
  infer_instance

instance : LawfulEqOrd Code where
  eq_of_compare {a b} h := by
    obtain ⟨first, second⟩ := compareLex_eq_eq.1 h
    rw [compareOn_eq_iff] at first second
    exact Code.key_injective (Prod.ext first second)

instance : TransOrd Highlight := by
  change TransCmp (compareLex _ _)
  infer_instance

instance : LawfulEqOrd Highlight where
  eq_of_compare {a b} h := by
    obtain ⟨span, h⟩ := compareLex_eq_eq.1 h
    obtain ⟨role, label⟩ := compareLex_eq_eq.1 h
    rw [compareOn_eq_iff] at span role label
    cases a
    cases b
    simp_all [Role.rank_injective.eq_iff]

instance : TransOrd Note := by
  change TransCmp (compareLex _ _)
  infer_instance

instance : LawfulEqOrd Note where
  eq_of_compare {a b} h := by
    obtain ⟨kind, message⟩ := compareLex_eq_eq.1 h
    rw [compareOn_eq_iff] at kind message
    cases a
    cases b
    simp_all [NoteKind.rank_injective.eq_iff]

instance : TransOrd Diagnostic := by
  change TransCmp (compareLex _ _)
  infer_instance

instance : LawfulEqOrd Diagnostic where
  eq_of_compare {a b} h := by
    obtain ⟨highlights, h⟩ := compareLex_eq_eq.1 h
    obtain ⟨notes, h⟩ := compareLex_eq_eq.1 h
    obtain ⟨code, h⟩ := compareLex_eq_eq.1 h
    obtain ⟨message, severity⟩ := compareLex_eq_eq.1 h
    rw [compareOn_eq_iff] at highlights notes code message severity
    cases a
    cases b
    simp_all [Severity.rank_injective.eq_iff]

namespace Buffer

variable {ds es : List Diagnostic} {d : Diagnostic}

theorem diagnostics_insertAll (b : Buffer) (ds : List Diagnostic) :
    (b.insertAll ds).diagnostics = Sorted.insertAll compare ds b.diagnostics := by
  induction ds generalizing b with
  | nil => rfl
  | cons d ds ih => exact ih (b.insert d)

theorem insertAll_empty (ds : List Diagnostic) :
    empty.insertAll ds = ⟨Sorted.insertAll compare ds []⟩ :=
  congrArg mk (diagnostics_insertAll empty ds)

theorem mem_insertAll_empty : d ∈ (empty.insertAll ds).diagnostics ↔ d ∈ ds := by
  rw [insertAll_empty]
  exact Sorted.mem_insertAll_nil

/-- A buffer holds what has been reported, each diagnostic once and in increasing order, whatever
    the order of the reports was. -/
theorem insertAll_order_independent (ds es : List Diagnostic) :
    (empty.insertAll ds = empty.insertAll es ↔ ∀ d, d ∈ ds ↔ d ∈ es) ∧
      (empty.insertAll ds).diagnostics.Pairwise (fun d e => compare d e = .lt) ∧
      (∀ d, d ∈ (empty.insertAll ds).diagnostics ↔ d ∈ ds) ∧
      ∀ severity, (empty.insertAll ds).count severity =
        (ds.toFinset.filter (·.severity = severity)).card := by
  have increasing : (empty.insertAll ds).diagnostics.Pairwise fun d e => compare d e = .lt := by
    rw [insertAll_empty]
    exact Sorted.increasing_insertAll .nil
  refine ⟨?_, increasing, fun d => mem_insertAll_empty, fun severity => ?_⟩
  · rw [insertAll_empty, insertAll_empty, mk.injEq]
    exact Sorted.insertAll_nil_eq_iff
  · have distinct := (Sorted.nodup_of_increasing increasing).filter (·.severity = severity)
    rw [count, List.countP_eq_length_filter, ← List.toFinset_card_of_nodup distinct]
    congr 1
    ext d
    simp [mem_insertAll_empty]

end Buffer

end MemberAccess
