import Mathlib.Data.List.Basic
import MemberAccess.Sorted

/-!
Insertion into sorted lists. An element that is inserted is a member unless an equal one is there
before, and lists that are strictly increasing stay so. Under an order that takes only equal
elements for equal, a list that is filled by insertions depends on the set of its elements only.
-/
namespace MemberAccess.Sorted

variable {α : Type} {cmp : α → α → Ordering} {f : α → Nat} {x y : α} {xs set : List α}

theorem mem_of_mem_insert (h : y ∈ insert cmp x set) : y = x ∨ y ∈ set := by
  induction set with
  | nil => simpa [insert] using h
  | cons z set ih =>
    unfold insert at h
    split at h
    · simpa using h
    · exact .inr h
    · rcases List.mem_cons.1 h with rfl | h
      · simp
      · exact (ih h).imp_right (List.mem_cons_of_mem z)

theorem mem_insert_of_mem (h : y ∈ set) : y ∈ insert cmp x set := by
  induction set with
  | nil => cases h
  | cons z set ih =>
    unfold insert
    split
    · exact List.mem_cons_of_mem x h
    · exact h
    · rcases List.mem_cons.1 h with rfl | h
      · exact List.mem_cons_self
      · exact List.mem_cons_of_mem z (ih h)

theorem mem_insert_self (law : ∀ y ∈ set, cmp x y = .eq → x = y) : x ∈ insert cmp x set := by
  induction set with
  | nil => exact List.mem_singleton_self x
  | cons y ys ih =>
    unfold insert
    split
    · exact List.mem_cons_self
    · next same => exact law y List.mem_cons_self same ▸ List.mem_cons_self
    · exact List.mem_cons_of_mem y (ih fun z hz => law z (List.mem_cons_of_mem y hz))

theorem mem_insertAll (h : y ∈ insertAll cmp xs set) : y ∈ xs ∨ y ∈ set := by
  induction xs generalizing set with
  | nil => exact .inr h
  | cons x xs ih =>
    rcases ih h with h | h
    · exact .inl (List.mem_cons_of_mem x h)
    · exact (mem_of_mem_insert h).imp_left (by simp +contextual)

theorem mem_insertAll_iff
    (law : ∀ x ∈ xs, ∀ y, y ∈ xs ∨ y ∈ set → cmp x y = .eq → x = y) :
    y ∈ insertAll cmp xs set ↔ y ∈ xs ∨ y ∈ set := by
  refine ⟨mem_insertAll, fun h => ?_⟩
  induction xs generalizing set with
  | nil => exact h.resolve_left List.not_mem_nil
  | cons x xs ih =>
    refine ih (fun z hz w hw => law z (List.mem_cons_of_mem x hz) w ?_) ?_
    · rcases hw with hw | hw
      · exact .inl (List.mem_cons_of_mem x hw)
      · exact (mem_of_mem_insert hw).imp_left (by simp +contextual)
    · rcases h with h | h
      · rcases List.mem_cons.1 h with rfl | h
        · exact .inr (mem_insert_self fun z hz => law y List.mem_cons_self z (.inr hz))
        · exact .inl h
      · exact .inr (mem_insert_of_mem h)

section Increasing

variable [Std.TransCmp cmp]

theorem increasing_insert (h : set.Pairwise (cmp · · = .lt)) :
    (insert cmp x set).Pairwise (cmp · · = .lt) := by
  induction set with
  | nil => exact List.pairwise_singleton _ x
  | cons y ys ih =>
    obtain ⟨first, rest⟩ := List.pairwise_cons.1 h
    unfold insert
    split
    · next less =>
      refine List.pairwise_cons.2 ⟨fun z hz => ?_, h⟩
      rcases List.mem_cons.1 hz with rfl | hz
      · exact less
      · exact Std.TransCmp.lt_trans less (first z hz)
    · exact h
    · next greater =>
      refine List.pairwise_cons.2 ⟨fun z hz => ?_, ih rest⟩
      rcases mem_of_mem_insert hz with rfl | hz
      · exact Std.OrientedCmp.lt_of_gt greater
      · exact first z hz

theorem increasing_insertAll (h : set.Pairwise (cmp · · = .lt)) :
    (insertAll cmp xs set).Pairwise (cmp · · = .lt) := by
  induction xs generalizing set with
  | nil => exact h
  | cons x xs ih => exact ih (increasing_insert h)

theorem nodup_of_increasing (h : set.Pairwise (cmp · · = .lt)) : set.Nodup := by
  refine h.imp fun {x y} less same => ?_
  have equal : cmp y y = .eq := Std.ReflCmp.compare_self
  rw [same, equal] at less
  cases less

theorem eq_of_increasing {ys : List α} (hxs : xs.Pairwise (cmp · · = .lt))
    (hys : ys.Pairwise (cmp · · = .lt)) (same : ∀ x, x ∈ xs ↔ x ∈ ys) : xs = ys := by
  have perm : xs.Perm ys :=
    (List.perm_ext_iff_of_nodup (nodup_of_increasing hxs) (nodup_of_increasing hys)).2 same
  refine perm.eq_of_pairwise (fun x y _ _ less greater => ?_) hxs hys
  have swapped : cmp y x = (cmp x y).swap := Std.OrientedCmp.eq_swap
  rw [swapped, less] at greater
  cases greater

end Increasing

theorem pairwise_insertAll (h : set.Pairwise (f · < f ·)) :
    (insertAll (compareOn f) xs set).Pairwise (f · < f ·) := by
  have less (x y : α) : f x < f y ↔ compareOn f x y = .lt := Nat.compare_eq_lt.symm
  simp only [less] at h ⊢
  exact increasing_insertAll h

section Lawful

variable [Std.LawfulEqCmp cmp]

theorem mem_insertAll_nil : y ∈ insertAll cmp xs [] ↔ y ∈ xs := by
  rw [mem_insertAll_iff fun _ _ _ _ => Std.LawfulEqCmp.eq_of_compare, or_iff_left List.not_mem_nil]

theorem insertAll_nil_eq_iff [Std.TransCmp cmp] {ys : List α} :
    insertAll cmp xs [] = insertAll cmp ys [] ↔ ∀ x, x ∈ xs ↔ x ∈ ys := by
  refine ⟨fun same x => ?_, fun same => ?_⟩
  · have member : x ∈ insertAll cmp xs [] ↔ x ∈ xs := mem_insertAll_nil
    rw [← member, same, mem_insertAll_nil]
  · refine eq_of_increasing (increasing_insertAll .nil) (increasing_insertAll .nil) fun x => ?_
    rw [mem_insertAll_nil, mem_insertAll_nil, same]

end Lawful

end MemberAccess.Sorted
