import MemberAccess.Program.Core
import MemberAccess.Proofs.Comparison.Classes
import MemberAccess.Proofs.Resolution.Specificity
import MemberAccess.Visibility

/-!
Extensions on the classes of a hierarchy, as candidates. Without type parameters, instantiation to
bounds gives the same types again and never breaks a tie: up to the enclosing declaration,
candidates are ordered by inheritance and by their question marks.
-/
namespace MemberAccess

namespace Program

variable {P : Program} {classes : TypeId → Prop} {limit : Nat}

def ClassType (classes : TypeId → Prop) (t : Ty) : Prop :=
  ∃ c q, classes c ∧ t = .marked q c.plain

theorem ClassType.class_of_marked {t : Ty} {c : TypeId} {q : Bool} (h : ClassType classes t)
    (same : t = .marked q c.plain) : classes c := by
  obtain ⟨d, r, hd, rfl⟩ := h
  exact (marked_plain_inj same).2 ▸ hd

structure ClassCandidate (P : Program) (classes : TypeId → Prop) (a : Candidate) : Prop where
  onClass : ClassType classes a.appliesTo
  declared : ∃ d, P.decls.get? a.decl = some d ∧ d.params = [] ∧ d.body = .extension a.appliesTo

theorem ClassCandidate.instantiateDecl {a : Candidate} (h : P.ClassCandidate classes a) :
    P.instantiateDecl limit a.decl = .ok (.ok a.appliesTo) := by
  obtain ⟨d, hd, params, body⟩ := h.declared
  have fetched : P.decls.fetch a.decl = .ok d := by simp [Table.fetch, hd]
  have bounds : P.instantiateParams limit [] .empty = .ok (.ok .empty) := by cases limit <;> rfl
  simp only [Program.instantiateDecl, fetched, ok_bind, params, bounds, Decl.appliesTo, body]
  rfl

end Program

open Program

namespace Session

variable {P : Program} {classes : TypeId → Prop} {options : Options} {site : Site}
  {a b : Candidate} {cs : List Candidate} {ts : List Ty} {c d : TypeId} {q r : Bool}

theorem compareByType_classes (ha : P.ClassCandidate classes a) (hb : P.ClassCandidate classes b)
    {forward backward : Bool}
    (there : (P.session options).oracle.isSubtype a.appliesTo b.appliesTo = .ok forward)
    (back : (P.session options).oracle.isSubtype b.appliesTo a.appliesTo = .ok backward) :
    ((P.session options).compareByType a b).outcome = .ok (.ofSubtyping forward backward) := by
  refine compareByType_eq_ok.2 ⟨forward, backward, compareTypes_eq_ok.2 ⟨there, back⟩, ?_⟩
  by_cases both : forward && backward
  · obtain ⟨rfl, rfl⟩ : forward = true ∧ backward = true := by simpa using both
    simp only [Bool.and_self, if_true]
    split
    · exact breakTie_eq_ok.2 ⟨some a.appliesTo, some b.appliesTo,
        boundedType_eq_some.2 ha.instantiateDecl, boundedType_eq_some.2 hb.instantiateDecl,
        true, true, compareTypes_eq_ok.2 ⟨there, back⟩, rfl⟩
    · rfl
  · rw [if_neg both]

section ClassHierarchy

variable (hierarchy : P.ClassHierarchy classes) (enough : 2 ≤ options.limit)

include hierarchy enough

theorem isSubtype_classType {t u : Ty} (ht : ClassType classes t) (hu : ClassType classes u) :
    ∃ answer, (P.session options).oracle.isSubtype t u = .ok answer := by
  obtain ⟨c, q, hc, rfl⟩ := ht
  obtain ⟨d, r, hd, rfl⟩ := hu
  obtain ⟨answer, found, _⟩ := hierarchy.isSubtype_marked (q := q) (r := r) hc hd enough
  exact ⟨answer, found⟩

theorem isSubtype_marked_iff (hc : classes c) (hd : classes d) :
    (P.session options).oracle.isSubtype (.marked q c.plain) (.marked r d.plain) = .ok true ↔
      P.Inherits c d ∧ (q = true → r = true) := by
  obtain ⟨answer, found, iff⟩ := hierarchy.isSubtype_marked (q := q) (r := r) hc hd enough
  change P.isSubtype options.limit _ _ = .ok true ↔ _
  rw [found, ← iff, Except.ok.injEq]

theorem transitiveOn_classTypes (all : ∀ t ∈ ts, ClassType classes t) :
    (P.session options).TransitiveOn ts := by
  intro t ht u hu v hv first second
  obtain ⟨c, q, hc, rfl⟩ := all t ht
  obtain ⟨d, r, hd, rfl⟩ := all u hu
  obtain ⟨e, o, he, rfl⟩ := all v hv
  obtain ⟨up, kept⟩ := (isSubtype_marked_iff hierarchy enough hc hd).1 first
  obtain ⟨up', kept'⟩ := (isSubtype_marked_iff hierarchy enough hd he).1 second
  exact (isSubtype_marked_iff hierarchy enough hc he).2
    ⟨up.trans up', fun mark => kept' (kept mark)⟩

theorem comparable_classes (plain : ∀ a ∈ cs, P.ClassCandidate classes a) :
    (P.session options).Comparable site cs := by
  intro a ha b hb
  obtain ⟨forward, there⟩ :=
    isSubtype_classType hierarchy enough (plain a ha).onClass (plain b hb).onClass
  obtain ⟨backward, back⟩ :=
    isSubtype_classType hierarchy enough (plain b hb).onClass (plain a ha).onClass
  have byType := compareByType_classes (plain a ha) (plain b hb) there back
  rw [compare]
  split
  · exact ⟨_, rfl⟩
  split
  · exact ⟨_, rfl⟩
  split
  · exact ⟨_, rfl⟩
  · exact ⟨_, byType⟩

/-- How candidates compare when neither is the enclosing declaration, be they one or two. -/
theorem compare_marked (plain : ∀ a ∈ cs, P.ClassCandidate classes a)
    (distinct : (cs.map (·.decl)).Nodup) (ha : a ∈ cs) (hb : b ∈ cs)
    (notA : site.enclosing ≠ some a.decl) (notB : site.enclosing ≠ some b.decl)
    (ta : a.appliesTo = .marked q c.plain) (tb : b.appliesTo = .marked r d.plain) :
    ∃ forward backward,
      ((P.session options).compare site a b).outcome = .ok (.ofSubtyping forward backward) ∧
      (forward = true ↔ P.Inherits c d ∧ (q = true → r = true)) ∧
      (backward = true ↔ P.Inherits d c ∧ (r = true → q = true)) := by
  have hc := (plain a ha).onClass.class_of_marked ta
  have hd := (plain b hb).onClass.class_of_marked tb
  obtain ⟨forward, there, up⟩ := hierarchy.isSubtype_marked (q := q) (r := r) hc hd enough
  obtain ⟨backward, back, down⟩ := hierarchy.isSubtype_marked (q := r) (r := q) hd hc enough
  refine ⟨forward, backward, ?_, up, down⟩
  by_cases same : a.decl = b.decl
  · obtain rfl := List.inj_on_of_nodup_map distinct ha hb same
    obtain ⟨rfl, rfl⟩ := marked_plain_inj (ta.symm.trans tb)
    obtain rfl : forward = true := up.2 ⟨.refl, id⟩
    obtain rfl : backward = true := down.2 ⟨.refl, id⟩
    simp [compare, Specificity.ofSubtyping]
  · rw [compare, if_neg same, if_neg notA, if_neg notB]
    exact compareByType_classes (plain a ha) (plain b hb) (ta ▸ tb ▸ there) (ta ▸ tb ▸ back)

theorem classes_specificity (plain : ∀ a ∈ cs, P.ClassCandidate classes a)
    (distinct : (cs.map (·.decl)).Nodup) :
    let s := P.session options
    let others := cs.filter fun a => site.enclosing ≠ some a.decl
    s.Comparable site cs ∧
    (∀ a ∈ cs, ¬ s.precedes site a a) ∧
    (∀ a ∈ cs, ∀ b ∈ cs, ∀ c ∈ cs,
      s.precedes site a b → s.precedes site b c → s.precedes site a c) ∧
    (∀ a ∈ others, ∀ b ∈ others, ∀ c : TypeId,
      a.appliesTo = c.plain → b.appliesTo = .nullable c.plain → s.precedes site a b) ∧
    (∀ a ∈ others, ∀ b ∈ others, ∀ a' ∈ others, ∀ b' ∈ others, ∀ c d : TypeId,
      a.appliesTo = c.plain → b.appliesTo = d.plain →
      a'.appliesTo = .nullable c.plain → b'.appliesTo = .nullable d.plain →
      (s.compare site a' b').outcome = (s.compare site a b).outcome) ∧
    (∀ a ∈ others, ∀ b ∈ others, ∀ c d : TypeId,
      a.appliesTo = .nullable c.plain → b.appliesTo = d.plain →
      ¬ P.Inherits c d → ¬ P.Inherits d c → (s.compare site a b).outcome = .ok .incomparable) := by
  intro s others
  have answered : s.Comparable site cs := comparable_classes hierarchy enough plain
  have types : s.TransitiveOn (cs.map (·.appliesTo)) := by
    refine transitiveOn_classTypes hierarchy enough ?_
    intro t ht
    obtain ⟨a, ha, rfl⟩ := List.mem_map.1 ht
    exact (plain a ha).onClass
  have bounds : s.TransitiveOn (s.boundedTypes cs) := by
    refine transitiveOn_classTypes hierarchy enough ?_
    intro t ht
    obtain ⟨a, ha, h⟩ := mem_boundedTypes_iff.1 ht
    obtain rfl : a.appliesTo = t := by
      simpa using (plain a ha).instantiateDecl.symm.trans h
    exact (plain a ha).onClass
  have compared {q r : Bool} {a b : Candidate} {c d : TypeId} (ha : a ∈ others) (hb : b ∈ others)
      (ta : a.appliesTo = .marked q c.plain) (tb : b.appliesTo = .marked r d.plain) :=
    compare_marked hierarchy enough plain distinct (List.mem_of_mem_filter ha)
      (List.mem_of_mem_filter hb) (by simpa using List.of_mem_filter ha)
      (by simpa using List.of_mem_filter hb) ta tb
  refine ⟨answered, fun _ _ => precedes_irrefl, fun a ha b hb c hc =>
    precedes_trans types bounds distinct answered ha hb hc, ?_, ?_, ?_⟩
  · intro a ha b hb c ta tb
    obtain ⟨forward, backward, h, up, down⟩ := compared (q := false) (r := true) ha hb ta tb
    obtain rfl : forward = true := up.2 ⟨.refl, fun _ => rfl⟩
    obtain rfl : backward = false := Bool.eq_false_iff.2 fun back => nomatch (down.1 back).2 rfl
    exact h
  · intro a ha b hb a' ha' b' hb' c d ta tb ta' tb'
    obtain ⟨forward, backward, h, up, down⟩ := compared (q := false) (r := false) ha hb ta tb
    obtain ⟨forward', backward', h', up', down'⟩ := compared (q := true) (r := true) ha' hb' ta' tb'
    obtain rfl : forward' = forward := by grind
    obtain rfl : backward' = backward := by grind
    exact h'.trans h.symm
  · intro a ha b hb c d ta tb notUp notDown
    obtain ⟨forward, backward, h, up, down⟩ := compared (q := true) (r := false) ha hb ta tb
    obtain rfl : forward = false := Bool.eq_false_iff.2 fun there => notUp (up.1 there).1
    obtain rfl : backward = false := Bool.eq_false_iff.2 fun back => notDown (down.1 back).1
    exact h

end ClassHierarchy

/-- A class with two subclasses and an enum below both, and extensions on all of them. -/
def diamond : Program :=
  let getter : Table .member Member :=
    .singleton { name := "size", kind := .getter, sig := .getter (.interface ⟨5⟩ []) }
  let extension (t : Ty) : Decl :=
    { binder := none, params := [], members := getter, library := .core, body := .extension t }
  { Program.core with
    types := .ofList (Program.core.types.entries.toList ++
      [⟨"Shape", .classKind, [], [], .core⟩,
        ⟨"Filled", .classKind, [], [.interface ⟨11⟩ []], .core⟩,
        ⟨"Framed", .mixinKind, [], [.interface ⟨11⟩ []], .core⟩,
        ⟨"Tile", .enumKind, [], [.interface ⟨12⟩ [], .interface ⟨13⟩ []], .core⟩])
    decls := .ofList ([⟨11⟩, ⟨12⟩, ⟨13⟩, ⟨14⟩].flatMap fun c : TypeId =>
      [extension c.plain, extension (.nullable c.plain)]) }

def diamondClasses : List TypeId := [.object, ⟨11⟩, ⟨12⟩, ⟨13⟩, ⟨14⟩]

def diamondCandidates : List Candidate :=
  diamond.decls.toList.map fun d => ⟨d.1, ⟨0⟩, .empty, d.2.appliesTo⟩

theorem diamond_hierarchy : diamond.ClassHierarchy (· ∈ diamondClasses) := by
  refine .of_rank (·.val) (by decide) (by decide) fun c hc => ?_
  have entry : ∃ d ∈ diamond.types.get? c, d.params = [] ∧ d.kind ≠ .viewKind ∧
      (∀ t ∈ d.supers, ∃ e ∈ diamondClasses, e.val < c.val ∧ t = e.plain) ∧
      (c ≠ .object → TypeId.object.val < c.val) := by
    revert c
    decide
  simpa using entry

theorem diamondCandidates_plain :
    ∀ a ∈ diamondCandidates, diamond.ClassCandidate (· ∈ diamondClasses) a := by
  intro a ha
  have entry : (∃ c ∈ diamondClasses, ∃ q, a.appliesTo = .marked q c.plain) ∧
      ∃ d ∈ diamond.decls.get? a.decl, d.params = [] ∧ d.body = .extension a.appliesTo := by
    revert a
    decide
  obtain ⟨⟨c, hc, q, same⟩, declared⟩ := entry
  exact ⟨⟨c, q, hc, same⟩, declared⟩

/-- `Filled` is more specific than `Filled?`, and `Filled?` has nothing to do with `Framed`. -/
theorem diamond_specificity :
    let s := diamond.session {}
    let site : Site :=
      { name := "size", receiver := .value .dynamic, library := .core, enclosing := some ⟨0⟩ }
    ∃ filled ∈ diamondCandidates, ∃ orNull ∈ diamondCandidates, ∃ framed ∈ diamondCandidates,
      filled.appliesTo = .interface ⟨12⟩ [] ∧ orNull.appliesTo = .nullable (.interface ⟨12⟩ []) ∧
      framed.appliesTo = .interface ⟨13⟩ [] ∧ s.precedes site filled orNull ∧
      (s.compare site orNull framed).outcome = .ok .incomparable := by
  intro s site
  have unrelated {c d : TypeId} (hc : c ∈ diamondClasses)
      (none : diamond.superArgs? ⟨c, []⟩ d = .ok none) : ¬ diamond.Inherits c d := by
    rcases diamond_hierarchy.superArgs_class hc d with ⟨found, _⟩ | ⟨_, not⟩
    · cases none.symm.trans found
    · exact not
  obtain ⟨_, _, _, less, _, incomparable⟩ := @classes_specificity diamond _ {} site
    diamondCandidates diamond_hierarchy (by decide) diamondCandidates_plain (by decide)
  have filled : ⟨⟨2⟩, ⟨0⟩, .empty, .interface ⟨12⟩ []⟩ ∈ diamondCandidates := by decide
  have orNull : ⟨⟨3⟩, ⟨0⟩, .empty, .nullable (.interface ⟨12⟩ [])⟩ ∈ diamondCandidates := by decide
  have framed : ⟨⟨4⟩, ⟨0⟩, .empty, .interface ⟨13⟩ []⟩ ∈ diamondCandidates := by decide
  refine ⟨_, filled, _, orNull, _, framed, rfl, rfl, rfl, ?_, ?_⟩
  · exact less _ (by simp [filled, site]) _ (by simp [orNull, site]) ⟨12⟩ rfl rfl
  · exact incomparable _ (by simp [orNull, site]) _ (by simp [framed, site]) ⟨12⟩ ⟨13⟩ rfl rfl
      (unrelated (by decide) (by decide)) (unrelated (by decide) (by decide))

end Session

end MemberAccess
