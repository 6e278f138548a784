import MemberAccess.Program.Core
import MemberAccess.Proofs.Range.WellFormed
import MemberAccess.Proofs.Typing.Monotonicity

/-!
The recursion limit as far as it can be observed. To raise the limit, or to start at a smaller
depth, adds subtypes and takes none away, and the same goes for the types that admit null and for
those that do not.
-/
namespace MemberAccess.Program

variable {P : Program} {limit limit' depth depth' : Nat}

/-- How many levels a derivation may have that starts at some depth. -/
def levels (limit depth : Nat) : Nat := limit + 1 - depth

theorem isSubtype_eq_levels (a b : Ty) :
    P.isSubtype limit a b = P.subtype (levels limit 0) a b := rfl

theorem levels_mono (wider : limit ≤ limit') (sooner : depth' ≤ depth) :
    levels limit depth ≤ levels limit' depth' := by
  unfold levels
  omega

/-- What holds at some limit holds at every greater one. That a type is a subtype may be left open
    there by an index out of range, but it is not denied. -/
theorem limit_loses_only (P : Program) (limit limit' depth depth' : Nat) (wider : limit ≤ limit')
    (sooner : depth' ≤ depth) :
    (∀ a b, P.subtype (levels limit depth) a b = .ok true →
      P.subtype (levels limit' depth') a b ≠ .ok false ∧
        (P.WellFormed → P.InRange a → P.InRange b →
          P.subtype (levels limit' depth') a b = .ok true)) ∧
    (∀ t : Ty, t.admitsNull (levels limit depth) = true →
      t.admitsNull (levels limit' depth') = true) ∧
    ∀ t, P.isNonNull (levels limit depth) t = .ok true →
      P.isNonNull (levels limit' depth') t ≠ .ok false ∧
        (P.WellFormed → P.InRange t → P.isNonNull (levels limit' depth') t = .ok true) := by
  have deeper : levels limit depth ≤ levels limit' depth' := levels_mono wider sooner
  refine ⟨?subtypes, ?null, ?nonNull⟩
  case subtypes =>
    intro a b found
    refine ⟨subtype_upholds deeper found, ?_⟩
    intro wf ha hb
    exact wf.closed.subtype_mono ha hb deeper found
  case null =>
    intro t found
    exact admitsNull_mono found deeper
  case nonNull =>
    intro t found
    refine ⟨isNonNull_upholds deeper found, ?_⟩
    intro wf ht
    exact wf.closed.isNonNull_mono ht deeper found

/-- Parameters `X extends Y`, `Y extends int` and `L extends List<L>`. -/
def chainedBounds : Program :=
  { core with
    params := .ofList
      [⟨"T", none⟩, ⟨"T", none⟩, ⟨"E", none⟩, ⟨"E", none⟩,
        ⟨"X", some (.param ⟨5⟩)⟩, ⟨"Y", some (.interface ⟨5⟩ [])⟩,
        ⟨"L", some (.interface ⟨10⟩ [.param ⟨6⟩])⟩] }

theorem chainedBounds_found :
    let left : Ty := .futureOr (.param ⟨4⟩)
    let right : Ty := .futureOr (.interface ⟨4⟩ [])
    chainedBounds.subtype (levels 4 0) left right = .ok false ∧
      chainedBounds.subtype (levels 6 1) left right = .ok true ∧
      chainedBounds.subtype (levels 64 0) left right = .ok true ∧
      chainedBounds.isNonNull (levels 64 0) (.param ⟨6⟩) = .ok true := by
  intro left right
  have wf : chainedBounds.WellFormed := ⟨rfl, rfl, by decide, by decide, by decide⟩
  have found : chainedBounds.subtype (levels 6 1) left right = .ok true := by decide +kernel
  have nonNull : chainedBounds.isNonNull (levels 6 1) (.param ⟨6⟩) = .ok true := by decide +kernel
  have raised := limit_loses_only chainedBounds 6 64 1 0 (by decide) (by decide)
  refine ⟨by decide +kernel, found, ?_, ?_⟩
  · exact (raised.1 left right found).2 wf (by decide) (by decide)
  · exact (raised.2.2 _ nonNull).2 wf (by decide)

end MemberAccess.Program
