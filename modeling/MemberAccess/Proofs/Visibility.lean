import MemberAccess.Proofs.Outcomes
import MemberAccess.Proofs.Sorted
import MemberAccess.Visibility

/-!
Visibility through imports. Which declarations are visible depends on the imports of the library of
the site only, and these make declarations visible independently of each other: a further import
adds what it admits and hides nothing that another one shows.
-/
namespace MemberAccess

/-- What a clause admits. Without a name, a declaration is neither shown nor hidden by any list. -/
def Clause.Admits : Clause → Option String → Prop
  | .all, _ => True
  | .showing names, binder => ∃ name ∈ names, binder = some name
  | .hiding names, binder => ∀ name ∈ names, binder ≠ some name

theorem Clause.admits_iff {c : Clause} {binder : Option String} :
    c.admits binder = true ↔ c.Admits binder := by
  match c with
  | .all => simp [admits, Admits]
  | .showing names => cases binder <;> simp [admits, Admits]
  | .hiding names =>
    cases binder with
    | none => simp [admits, Admits]
    | some name =>
      simp only [admits, Admits, decide_eq_true_eq, ne_eq, Option.some.injEq]
      exact ⟨fun absent _ member same => absent (same ▸ member), fun h member => h name member rfl⟩

def Import.Shows (i : Import) (decl : Decl) : Prop :=
  i.library = decl.library ∧ i.clause.Admits decl.binder

namespace Table

variable {k : Kind} {α : Type} {t t' : Table k α} {i j : Index k} {x y : α} {f : α → α}

theorem mem_indices : i ∈ t.indices ↔ (t.get? i).isSome := by
  refine ⟨isSome_of_mem_indices, fun h => ?_⟩
  obtain ⟨n⟩ := i
  simpa [indices, get?, size] using h

theorem pairwise_indices (t : Table k α) : t.indices.Pairwise (·.val < ·.val) :=
  List.pairwise_map.2 List.pairwise_lt_range

theorem of_modify (h : t.modify i f = .ok t') :
    ∃ x, t.get? i = some x ∧ t'.entries = t.entries.setIfInBounds i.val (f x) := by
  simp only [modify, set, bind_eq_ok, pure_eq_ok, fetch_eq_ok] at h
  obtain ⟨x, hx, _, _, rfl⟩ := h
  exact ⟨x, hx, rfl⟩

theorem get?_of_modify (h : t.modify i f = .ok t') (hx : t.get? i = some x) :
    t'.get? i = some (f x) := by
  obtain ⟨_, hx', entries⟩ := of_modify h
  rw [hx] at hx'
  cases hx'
  obtain ⟨inside, _⟩ := Array.getElem?_eq_some_iff.1 hx
  rw [get?, entries]
  exact Array.getElem?_setIfInBounds_self_of_lt inside

theorem fetch_of_modify (h : t.modify i f = .ok t') (other : j ≠ i) : t'.fetch j = t.fetch j := by
  obtain ⟨x, _, entries⟩ := of_modify h
  have apart : i.val ≠ j.val := fun same => other (by cases i; cases j; simp_all)
  simp [fetch, get?, size, entries, Array.getElem?_setIfInBounds_ne apart]

end Table

namespace Program

variable {P Q : Program} {site : Site} {library : LibraryId} {l : Library} {i : Import}
  {d : DeclId} {decl : Decl} {ds found : List DeclId} {b : Bool}

/-- Whether a declaration is visible without an import. -/
def IsNear (library : LibraryId) (decl : Decl) : Prop :=
  decl.library = library ∨ decl.library = .core

def Sees (P : Program) (library : LibraryId) (d : DeclId) : Prop :=
  ∃ decl, P.decls.get? d = some decl ∧
    (IsNear library decl ∨ ∃ l, P.libraries.get? library = some l ∧ ∃ i ∈ l.imports, i.Shows decl)

theorem imports_eq_ok (decl : Decl) (hl : P.libraries.get? library = some l) :
    ∃ b, P.imports library decl = .ok b ∧ (b = true ↔ ∃ i ∈ l.imports, i.Shows decl) := by
  refine ⟨_, by rw [imports, Table.fetch_eq_ok.2 hl]; rfl, ?_⟩
  simp [Import.Shows, Clause.admits_iff]

theorem isVisibleIn_of_near (hd : P.decls.get? d = some decl) (near : IsNear library decl) :
    P.isVisibleIn library d = .ok true := by
  rw [isVisibleIn, Table.fetch_eq_ok.2 hd, ok_bind]
  exact if_pos near

theorem isVisibleIn_of_far (hd : P.decls.get? d = some decl) (far : ¬ IsNear library decl) :
    P.isVisibleIn library d = P.imports library decl := by
  rw [isVisibleIn, Table.fetch_eq_ok.2 hd, ok_bind]
  exact if_neg far

theorem isVisibleIn_eq_true_iff (h : P.isVisibleIn library d = .ok b) :
    b = true ↔ P.Sees library d := by
  obtain ⟨decl, hd, _⟩ := bind_eq_ok.1 h
  rw [Table.fetch_eq_ok] at hd
  have sees : P.Sees library d ↔ IsNear library decl ∨
      ∃ l, P.libraries.get? library = some l ∧ ∃ i ∈ l.imports, i.Shows decl := by
    simp [Sees, hd]
  rw [sees]
  by_cases near : IsNear library decl
  · rw [isVisibleIn_of_near hd near] at h
    cases h
    simp [near]
  · rw [isVisibleIn_of_far hd near] at h
    obtain ⟨l, hl, _⟩ := bind_eq_ok.1 h
    rw [Table.fetch_eq_ok] at hl
    obtain ⟨b', answer, shows⟩ := imports_eq_ok decl hl
    rw [h] at answer
    cases answer
    simp [near, hl, shows]

theorem isVisibleIn_answered (hd : P.decls.get? d = some decl) :
    (∃ b, P.isVisibleIn library d = .ok b) ↔
      (P.libraries.get? library).isSome ∨ IsNear library decl := by
  by_cases near : IsNear library decl
  · simp [near, isVisibleIn_of_near hd near]
  · rw [isVisibleIn_of_far hd near]
    cases hl : P.libraries.get? library with
    | none => simp [imports, Table.fetch, hl, near, bind, Except.bind]
    | some l =>
      obtain ⟨b, answer, _⟩ := imports_eq_ok decl hl
      simp [answer]

theorem visibleAmong_eq_ok (h : P.visibleAmong library ds = .ok found) :
    found.Sublist ds ∧ ∀ d, d ∈ found ↔ d ∈ ds ∧ P.Sees library d := by
  induction ds generalizing found with
  | nil =>
    cases h
    simp
  | cons d ds ih =>
    obtain ⟨b, answer, h⟩ := bind_eq_ok.1 h
    obtain ⟨others, hothers, h⟩ := bind_eq_ok.1 h
    obtain ⟨sublist, members⟩ := ih hothers
    have sees := isVisibleIn_eq_true_iff answer
    cases h
    cases b with
    | true =>
      refine ⟨sublist.cons_cons d, fun e => ?_⟩
      have own : P.Sees library d := sees.1 rfl
      simp only [if_true, List.mem_cons, members]
      grind
    | false =>
      refine ⟨sublist.cons d, fun e => ?_⟩
      have hidden : ¬ P.Sees library d := fun own => Bool.false_ne_true (sees.2 own)
      simp only [Bool.false_eq_true, if_false, List.mem_cons, members]
      grind

theorem visibleAmong_answered : (∃ found, P.visibleAmong library ds = .ok found) ↔
    ∀ d ∈ ds, ∃ b, P.isVisibleIn library d = .ok b := by
  induction ds with
  | nil => exact iff_of_true ⟨[], rfl⟩ (by simp)
  | cons d ds ih =>
    rw [List.forall_mem_cons, ← ih]
    constructor
    · rintro ⟨_, h⟩
      obtain ⟨b, answer, h⟩ := bind_eq_ok.1 h
      obtain ⟨others, hothers, _⟩ := bind_eq_ok.1 h
      exact ⟨⟨b, answer⟩, others, hothers⟩
    · rintro ⟨⟨b, answer⟩, others, hothers⟩
      exact ⟨_, by rw [visibleAmong, answer, ok_bind, hothers]; rfl⟩

theorem visible_eq_ok (h : P.visible site = .ok ds) :
    ds.Pairwise (·.val < ·.val) ∧
      ∀ d, d ∈ ds ↔ site.enclosing = some d ∨ P.Sees site.library d := by
  obtain ⟨inLibrary, among, h⟩ := bind_eq_ok.1 h
  obtain ⟨sublist, members⟩ := visibleAmong_eq_ok among
  cases h
  refine ⟨Sorted.pairwise_insertAll ((Table.pairwise_indices _).sublist sublist), fun d => ?_⟩
  have law (d e : DeclId) (same : compareOn (·.val) d e = .eq) : d = e := by
    cases d
    cases e
    simpa [compareOn, Nat.compare_eq_eq] using same
  rw [Sorted.mem_insertAll_iff fun d _ e _ => law d e, Option.mem_toList, members,
    Table.mem_indices]
  have declared (sees : P.Sees site.library d) : (P.decls.get? d).isSome := by
    obtain ⟨decl, hd, _⟩ := sees
    simp [hd]
  exact or_congr_right (and_iff_right_of_imp declared)

theorem visible_answered : (∃ ds, P.visible site = .ok ds) ↔
    (P.libraries.get? site.library).isSome ∨
      ∀ d decl, P.decls.get? d = some decl → IsNear site.library decl := by
  have among : (∃ ds, P.visible site = .ok ds) ↔
      ∃ found, P.visibleAmong site.library P.decls.indices = .ok found := by
    constructor
    · rintro ⟨_, h⟩
      obtain ⟨found, hfound, _⟩ := bind_eq_ok.1 h
      exact ⟨found, hfound⟩
    · rintro ⟨found, hfound⟩
      exact ⟨_, by rw [visible, hfound]; rfl⟩
  rw [among, visibleAmong_answered]
  constructor
  · intro answers
    by_cases inside : (P.libraries.get? site.library).isSome
    · exact .inl inside
    · refine .inr fun d decl hd => ?_
      have answer := answers d (Table.mem_indices.2 (by simp [hd]))
      exact ((isVisibleIn_answered hd).1 answer).resolve_left inside
  · intro h d hd
    obtain ⟨decl, hdecl⟩ := Option.isSome_iff_exists.1 (Table.mem_indices.1 hd)
    exact (isVisibleIn_answered hdecl).2 (h.imp_right fun near => near d decl hdecl)

theorem visibleAmong_congr (decls : Q.decls = P.decls)
    (same : Q.libraries.fetch library = P.libraries.fetch library) :
    Q.visibleAmong library ds = P.visibleAmong library ds := by
  have single (d : DeclId) : Q.isVisibleIn library d = P.isVisibleIn library d := by
    simp only [isVisibleIn, imports, decls, same]
  induction ds with
  | nil => rfl
  | cons d ds ih => rw [visibleAmong, visibleAmong, single, ih]

theorem addImport_eq_ok (h : P.addImport library i = .ok Q) :
    Q.decls = P.decls ∧
      P.libraries.modify library (fun l => { l with imports := l.imports ++ [i] }) =
        .ok Q.libraries := by
  obtain ⟨libraries, modified, h⟩ := bind_eq_ok.1 h
  cases h
  exact ⟨rfl, modified⟩

theorem sees_addImport (h : P.addImport library i = .ok Q) :
    Q.Sees library d ↔ P.Sees library d ∨ ∃ decl, P.decls.get? d = some decl ∧ i.Shows decl := by
  obtain ⟨decls, modified⟩ := addImport_eq_ok h
  obtain ⟨l, hl, _⟩ := Table.of_modify modified
  have extended := Table.get?_of_modify modified hl
  simp only [Sees, decls, hl, extended, Option.some.injEq, exists_eq_left', List.mem_append,
    List.mem_singleton]
  grind

/-- Declarations are visible in their own library, everywhere if they are in the core library, and
    where an import admits them. A further import adds to what is visible in the library it is
    made in. -/
theorem visible_through_imports (P : Program) (site : Site) :
    ((∃ ds, P.visible site = .ok ds) ↔ (P.libraries.get? site.library).isSome ∨
      ∀ d decl, P.decls.get? d = some decl → IsNear site.library decl) ∧
    (∀ ds, P.visible site = .ok ds → ds.Pairwise (·.val < ·.val) ∧
      ∀ d, d ∈ ds ↔ site.enclosing = some d ∨ P.Sees site.library d) ∧
    ∀ library target clause Q, P.addImport library ⟨target, clause⟩ = .ok Q →
      (site.library ≠ library → Q.visible site = P.visible site) ∧
      (site.library = library → ∃ ds ds', P.visible site = .ok ds ∧ Q.visible site = .ok ds' ∧
        ds ⊆ ds' ∧ ∀ d, d ∈ ds' ↔ d ∈ ds ∨ ∃ decl, P.decls.get? d = some decl ∧
          decl.library = target ∧ clause.Admits decl.binder) := by
  refine ⟨visible_answered, fun ds => visible_eq_ok, ?_⟩
  intro library target clause Q added
  obtain ⟨decls, modified⟩ := addImport_eq_ok added
  refine ⟨fun other => ?_, ?_⟩
  · rw [visible, visible, decls, visibleAmong_congr decls (Table.fetch_of_modify modified other)]
  · rintro rfl
    obtain ⟨l, hl, _⟩ := Table.of_modify modified
    have extended := Table.get?_of_modify modified hl
    obtain ⟨ds, hds⟩ := visible_answered.2 (.inl (Option.isSome_iff_exists.2 ⟨l, hl⟩))
    obtain ⟨ds', hds'⟩ := visible_answered.2 (.inl (Option.isSome_iff_exists.2 ⟨_, extended⟩))
    have members (d : DeclId) : d ∈ ds' ↔ d ∈ ds ∨ ∃ decl, P.decls.get? d = some decl ∧
        decl.library = target ∧ clause.Admits decl.binder := by
      rw [(visible_eq_ok hds').2, (visible_eq_ok hds).2, sees_addImport added, or_assoc]
      simp only [Import.Shows, eq_comm]
    exact ⟨ds, ds', hds, hds', fun d hd => (members d).2 (.inl hd), members⟩

def hiddenDigits : Program :=
  let digits : Decl :=
    { binder := some "Digits", params := [], library := ⟨2⟩, body := .extension .object }
  { initial with
    libraries := .ofList
      [⟨"dart:core", []⟩, ⟨"a", [⟨⟨2⟩, .hiding ["Digits"]⟩]⟩, ⟨"b", []⟩]
    decls := .ofList [digits, { digits with binder := none }] }

/-- Another import that shows the named one adds it to what was visible before. -/
theorem hiddenDigits_shown :
    let site : Site := { name := "digits", receiver := .value .object, library := ⟨1⟩ }
    let shown : Clause := .showing ["Digits"]
    ∃ Q, hiddenDigits.addImport ⟨1⟩ ⟨⟨2⟩, shown⟩ = .ok Q ∧
      hiddenDigits.visible site = .ok [⟨1⟩] ∧ Q.visible site = .ok [⟨0⟩, ⟨1⟩] ∧
      ∀ d : DeclId, d ∈ ([⟨0⟩, ⟨1⟩] : List DeclId) ↔ d ∈ ([⟨1⟩] : List DeclId) ∨
        ∃ decl, hiddenDigits.decls.get? d = some decl ∧ decl.library = ⟨2⟩ ∧
          shown.Admits decl.binder := by
  intro site shown
  obtain ⟨Q, added⟩ : ∃ Q, hiddenDigits.addImport ⟨1⟩ ⟨⟨2⟩, shown⟩ = .ok Q := ⟨_, rfl⟩
  have before : hiddenDigits.visible site = .ok [⟨1⟩] := rfl
  have after : Q.visible site = .ok [⟨0⟩, ⟨1⟩] := by
    cases added
    rfl
  have imports := (visible_through_imports hiddenDigits site).2.2 ⟨1⟩ ⟨2⟩ shown Q added
  obtain ⟨ds, ds', hds, hds', _, members⟩ := imports.2 rfl
  rw [before] at hds
  rw [after] at hds'
  cases hds
  cases hds'
  exact ⟨Q, added, before, after, members⟩

end Program

end MemberAccess
