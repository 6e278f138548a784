import MemberAccess.Proofs.Renaming.Inference
import MemberAccess.Proofs.Resolution.Candidates

/-!
Screening of a declaration whose parameters are renamed. It contributes the same candidate for the
same member, even to accesses inside of the declaration itself, whose types mention its parameters.
-/
namespace MemberAccess

open Program

variable {P : Program} {options : Options} {site : Site} {decl : Decl} {m : Member}
  {sig : Signature} {ρ : ParamId → ParamId} {ps : List ParamId} {d d' : DeclId} {s : Session}
  {σ σ' : Substitution} {t source : Ty} {part : Screening} {members : List (MemberId × Member)}

def Candidate.rename (ρ : ParamId → ParamId) (d : DeclId) (c : Candidate) : Candidate :=
  { c with decl := d, substitution := c.substitution.renameKeys ρ }

inductive Shape.Corresponds (R : Substitution → Substitution → Prop) : Shape → Shape → Prop where
  | accepted {s r : Substitution} (h : R s r) : Corresponds R (.accepted s) (.accepted r)
  | getterCall : Corresponds R .getterCall .getterCall
  | mismatch : Corresponds R .mismatch .mismatch

theorem Decl.fittingMembers_rename : (decl.rename ρ).fittingMembers site =
    (decl.fittingMembers site).map (Prod.map id (Member.rename ρ)) := by
  have entries : (decl.rename ρ).members.toList =
      decl.members.toList.map (Prod.map id (Member.rename ρ)) := by
    simp only [rename, Table.toList, Table.indices, Table.size, Array.size_map, Array.toList_map,
      List.zip_map_right]
  rw [fittingMembers, fittingMembers, membersNamed, membersNamed, entries, List.filter_map,
    List.filter_map]
  rfl

namespace Session

section Members

variable (refreshes : Refreshes ρ ps) (replays : Replays ρ ps σ σ') (avoids : sig.Avoids (ps.map ρ))
  (own : ∀ p ∈ sig.params, p ∉ ps)

include refreshes own

/-- The parameters of a member are not those of its declaration, so they keep their names. -/
theorem sigParams_rename : (sig.rename ρ).params = sig.params :=
  (List.map_congr_left fun p hp => refreshes.fixed p (own p hp)).trans (List.map_id _)

include replays

theorem acceptsType_rename (free : t.Free (ps.map ρ)) :
    s.acceptsType (sig.rename ρ) σ' source (t.rename ρ) = s.acceptsType sig σ source t := by
  rw [acceptsType, acceptsType, placeholders, sigParams_rename refreshes own,
    replays.substitute refreshes free]
  rfl

include avoids

theorem acceptsNamed_rename (passed : List String) (args : List (String × Argument)) :
    s.acceptsNamed (sig.rename ρ) σ' passed args = s.acceptsNamed sig σ passed args := by
  induction args generalizing passed with
  | nil =>
    simp only [acceptsNamed, Signature.rename, List.all_map]
    rfl
  | cons arg rest ih =>
    obtain ⟨name, arg⟩ := arg
    have named : (sig.rename ρ).named? name =
        (sig.named? name).map fun p => { p with type := p.type.rename ρ } := by
      simp only [Signature.named?, Signature.rename, List.find?_map]
      rfl
    rw [acceptsNamed, acceptsNamed, named]
    cases found : sig.named? name with
    | none => rfl
    | some p =>
      have free := avoids.named p (List.mem_of_find?_eq_some found)
      simp only [Option.map_some, acceptsType_rename refreshes replays own free, ih]

theorem acceptsPositional_rename (args : List Argument) :
    (args.zip (sig.rename ρ).positional).allM (fun (arg, target) =>
        s.acceptsType (sig.rename ρ) σ' arg.type target) =
      (args.zip sig.positional).allM fun (arg, target) =>
        s.acceptsType sig σ arg.type target := by
  have renamed : (sig.rename ρ).positional = sig.positional.map (Ty.rename ρ) := rfl
  rw [renamed, List.zip_map_right]
  apply allM_map
  intro x hx
  exact acceptsType_rename refreshes replays own (avoids.positional _ (List.of_mem_zip hx).2)

theorem acceptsArguments_rename (a : Arguments) :
    s.acceptsArguments (sig.rename ρ) σ' a = s.acceptsArguments sig σ a := by
  have length : (sig.rename ρ).positional.length = sig.positional.length := List.length_map _
  have required : (sig.rename ρ).required = sig.required := rfl
  simp only [acceptsArguments, acceptsPositional_rename refreshes replays avoids own, length,
    required, acceptsNamed_rename refreshes replays avoids own]

end Members

section Declarations

variable (refreshes : Refreshes ρ decl.params) (replays : Replays ρ decl.params σ σ')
  (avoids : m.sig.Avoids (decl.params.map ρ)) (own : ∀ p ∈ m.sig.params, p ∉ decl.params)

include refreshes replays avoids own

omit own in
theorem passTypes_rename (types : Option (List Ty)) :
    Option.Rel (Replays ρ decl.params) (passTypes decl m types σ)
      (passTypes (decl.rename ρ) (m.rename ρ) types σ') := by
  have params : (m.rename ρ).sig.params = m.sig.params.map ρ := rfl
  have arity : (decl.rename ρ).params.length = decl.params.length := List.length_map _
  have kind : (m.rename ρ).kind = m.kind := rfl
  unfold passTypes
  cases types with
  | none => exact .some replays
  | some types =>
    simp only [kind, arity, params, List.length_map]
    split
    · split
      · exact .some replays
      · exact .none
    · split
      · have known : ∀ e ∈ m.sig.params.zip types, e.1 ∉ decl.params.map ρ := fun e he =>
          avoids.params e.1 (List.of_mem_zip he).1
        have inserted := replays.insertAll refreshes known
        rw [List.zip_map_left]
        exact .some inserted
      · exact .none

theorem checkShape_rename :
    Parallel (Shape.Corresponds (Replays ρ decl.params)) (s.checkShape site decl m σ)
      (s.checkShape site (decl.rename ρ) (m.rename ρ) σ') := by
  have kind : (m.rename ρ).kind = m.kind := rfl
  have sig : (m.rename ρ).sig = m.sig.rename ρ := rfl
  unfold checkShape
  cases site.form with
  | get => exact .ok (.accepted replays)
  | set value =>
    have positional : (m.sig.rename ρ).positional = m.sig.positional.map (Ty.rename ρ) := rfl
    simp only [sig, positional]
    cases targets : m.sig.positional with
    | nil => exact .ok .mismatch
    | cons target rest =>
      have free := avoids.positional target (by rw [targets]; exact List.mem_cons_self)
      simp only [List.map_cons, acceptsType_rename refreshes replays own free]
      apply (Parallel.same _).bind
      rintro answer _ ⟨_, rfl⟩
      cases answer with
      | true => exact .ok (.accepted replays)
      | false => exact .ok .mismatch
  | call a =>
    simp only [kind, sig]
    split
    · exact .ok .getterCall
    · have passed := passTypes_rename refreshes replays avoids a.types
      generalize passTypes decl m a.types σ = passedTypes at passed
      generalize passTypes (decl.rename ρ) (m.rename ρ) a.types σ' = passedTypes' at passed
      cases passed with
      | none => exact .ok .mismatch
      | some replays =>
        simp only [acceptsArguments_rename refreshes replays avoids own]
        apply (Parallel.same _).bind
        rintro answer _ ⟨_, rfl⟩
        cases answer with
        | true => exact .ok (.accepted replays)
        | false => exact .ok .mismatch

end Declarations

def Contributes (s : Session) (site : Site) (d : DeclId) (c : Candidate) : Prop :=
  ∃ part, s.screen site [d] = .ok part ∧ part.candidates = [c]

theorem screenMembers_of_not_inferred
    (none : ∀ m σ, s.inferArgs site decl m ≠ .ok (some σ))
    (h : s.screenMembers site d decl members = .ok part) : part.candidates = [] := by
  induction members generalizing part with
  | nil =>
    cases h
    rfl
  | cons member rest ih =>
    simp only [screenMembers, bind_eq_ok] at h
    obtain ⟨inferred, hinferred, h⟩ := h
    cases inferred with
    | none => exact ih h
    | some σ => exact absurd hinferred (none _ σ)

theorem screenMembers_rename (renames : P.Renames ρ decl) (replays : Replays ρ decl.params σ σ')
    (inferred : ∀ m, s.inferArgs site decl m = .ok (some σ))
    (inferred' : ∀ m, s.inferArgs site (decl.rename ρ) m = .ok (some σ'))
    (members_avoid : ∀ x ∈ members, x.2.sig.Avoids (decl.params.map ρ))
    (own : ∀ x ∈ members, ∀ p ∈ x.2.sig.params, p ∉ decl.params) :
    Parallel (fun a b => b.candidates = a.candidates.map (Candidate.rename ρ d'))
      (s.screenMembers site d decl members)
      (s.screenMembers site d' (decl.rename ρ) (members.map (Prod.map id (Member.rename ρ)))) := by
  have refreshes := renames.refreshes
  induction members with
  | nil => exact .ok rfl
  | cons member rest ih =>
    obtain ⟨avoids, restAvoids⟩ := List.forall_mem_cons.1 members_avoid
    obtain ⟨ownHere, restOwn⟩ := List.forall_mem_cons.1 own
    have ih := ih restAvoids restOwn
    rw [List.map_cons, screenMembers, screenMembers, inferred, inferred', ok_bind, ok_bind]
    apply (checkShape_rename refreshes replays avoids ownHere).bind
    intro shape shape' corresponds
    cases corresponds with
    | accepted replays =>
      refine .ok ?_
      simp only [List.map_cons, List.map_nil, Candidate.rename, Decl.appliesTo_rename,
        replays.substitute refreshes renames.unmentioned.appliesTo,
        ← replays.eq_renameKeys refreshes]
      rfl
    | getterCall =>
      apply ih.bind
      intro a b same
      refine .ok ?_
      simpa [Screening.append] using same
    | mismatch =>
      apply ih.bind
      intro a b same
      refine .ok ?_
      simpa [Screening.append] using same

end Session

namespace Program

open Session

theorem contributes_of_screen {c : Candidate} (h : s.screen site [d] = .ok part) :
    s.Contributes site d c ↔ part.candidates = [c] := by
  simp [Contributes, h]

theorem contributes_iff (hd : P.decls.get? d = some decl) {c : Candidate} :
    (P.session options).Contributes site d c ↔ ∃ part,
      (P.session options).screenMembers site d decl (decl.fittingMembers site) = .ok part ∧
        part.candidates = [c] := by
  have fetched : (P.session options).program.decls.fetch d = .ok decl := Table.fetch_eq_ok.2 hd
  rw [Contributes, screen_singleton, screenDecl, fetched, ok_bind]

theorem not_contributes (hd : P.decls.get? d = some decl)
    (none : ∀ m σ, (P.session options).inferArgs site decl m ≠ .ok (some σ)) (c : Candidate) :
    ¬ (P.session options).Contributes site d c := by
  rw [contributes_iff hd]
  rintro ⟨part, screened, one⟩
  rw [screenMembers_of_not_inferred none screened] at one
  cases one

def Hygienic (P : Program) (options : Options) (site : Site) (ρ : ParamId → ParamId)
    (d d' : DeclId) : Prop :=
  ∀ c', (P.session options).Contributes site d' c' ↔
    ∃ c, (P.session options).Contributes site d c ∧ c' = c.rename ρ d'

/-- A declaration whose parameters get new names contributes the same candidates, even where the
    type at hand mentions the parameters, as long as none of its members takes one of them as a
    parameter of its own, and no bound of a parameter that is left open mentions a parameter whose
    solution mentions one that is left open. -/
theorem hygienic_of_uncaptured (P : Program) (options : Options) (site : Site) (t : Ty)
    (ρ : ParamId → ParamId) (d d' : DeclId) (decl : Decl) (isValue : site.receiver = .value t)
    (hd : P.decls.get? d = some decl) (hd' : P.decls.get? d' = some (decl.rename ρ))
    (renames : P.Renames ρ decl) (unmentioned : t.Free (decl.params.map ρ))
    (own : ∀ i m, decl.members.get? i = some m → ∀ p ∈ m.sig.params, p ∉ decl.params)
    (uncaptured : ∀ solved,
      P.unify options.limit decl.appliesTo t decl.params = .ok (some solved) →
        P.Uncaptured decl.params solved) : P.Hygienic options site ρ d d' := by
  intro c'
  by_cases infers : ∃ m σ, (P.session options).inferArgs site decl m = .ok (some σ)
  · obtain ⟨m, σ, here⟩ := infers
    obtain ⟨σ', inferred', replays⟩ := inferArgs_rename renames isValue unmentioned uncaptured here
    have inferred (m' : Member) : (P.session options).inferArgs site decl m' = .ok (some σ) :=
      (inferArgs_eq_some isValue).2 ((inferArgs_eq_some isValue).1 here)
    have fitting (x : MemberId × Member) (hx : x ∈ decl.fittingMembers site) :
        decl.members.get? x.1 = some x.2 := Decl.mem_of_mem_fittingMembers hx
    have runs : Parallel (fun a b => b.candidates = a.candidates.map (Candidate.rename ρ d'))
        ((P.session options).screenMembers site d decl (decl.fittingMembers site))
        ((P.session options).screenMembers site d' (decl.rename ρ)
          ((decl.rename ρ).fittingMembers site)) := by
      rw [Decl.fittingMembers_rename]
      exact screenMembers_rename renames replays inferred inferred'
        (fun x hx => renames.unmentioned.members x.1 x.2 (fitting x hx))
        fun x hx => own x.1 x.2 (fitting x hx)
    rw [contributes_iff hd']
    constructor
    · rintro ⟨part', screened', one'⟩
      rw [screened'] at runs
      obtain ⟨part, screened, same⟩ := runs.right
      rw [one', eq_comm, List.map_eq_singleton_iff] at same
      obtain ⟨c, one, rfl⟩ := same
      exact ⟨c, (contributes_iff hd).2 ⟨part, screened, one⟩, rfl⟩
    · rintro ⟨c, contributes, rfl⟩
      obtain ⟨part, screened, one⟩ := (contributes_iff hd).1 contributes
      rw [screened] at runs
      obtain ⟨part', screened', same⟩ := runs.left
      exact ⟨part', screened', by rw [same, one, List.map_singleton]⟩
  · have none (m : Member) (σ : Substitution) :
        (P.session options).inferArgs site decl m ≠ .ok (some σ) := fun h => infers ⟨m, σ, h⟩
    have none' (m : Member) (σ' : Substitution) :
        (P.session options).inferArgs site (decl.rename ρ) m ≠ .ok (some σ') := by
      intro h
      obtain ⟨σ, inferred, _⟩ := inferArgs_of_rename renames isValue unmentioned uncaptured h
      exact none m σ (inferred m)
    constructor
    · intro contributes
      exact absurd contributes (not_contributes hd' none' c')
    · rintro ⟨c, contributes, _⟩
      exact absurd contributes (not_contributes hd none c)

def renewed (ps : List ParamId) : ParamId → ParamId := renameOnly (fun p => ⟨p.val + 3⟩) ps

/-- An extension with a bound that mentions the parameter it is on, one with a method that takes the
    parameter of the extension again, and both with new names for their parameters. -/
def renamedExtensions : Program :=
  let pair : Decl :=
    { binder := some "Pair", params := [⟨4⟩, ⟨5⟩], library := .core,
      body := .extension (.param ⟨4⟩), members := .singleton { name := "foo", kind := .getter } }
  let single : Decl :=
    { binder := some "Single", params := [⟨6⟩], library := .core, body := .extension (.param ⟨6⟩),
      members := .singleton { name := "foo", kind := .method, sig :=
        { params := [⟨6⟩], positional := [.param ⟨6⟩], required := 1 } } }
  { core with
    params := .ofList (core.params.entries.toList ++
      [⟨"T", none⟩, ⟨"U", some (.interface ⟨10⟩ [.param ⟨4⟩])⟩, ⟨"S", none⟩,
        ⟨"T", none⟩, ⟨"U", some (.interface ⟨10⟩ [.param ⟨7⟩])⟩, ⟨"S", none⟩])
    decls := .ofList [pair, pair.rename (renewed pair.params), single,
      single.rename (renewed single.params)] }

theorem refreshes_renewed {ps : List ParamId} (fresh : ∀ p ∈ ps, (⟨p.val + 3⟩ : ParamId) ∉ ps) :
    Refreshes (renewed ps) ps where
  fixed p hp := if_neg hp
  injective p hp q hq same := by
    have own : p ∈ ps := hp
    have other : q ∈ ps := hq
    simp only [renewed, renameOnly, own, other, if_true, Index.mk.injEq, Nat.add_right_cancel_iff]
      at same
    cases p
    cases q
    exact congrArg Index.mk same
  fresh p hp := by
    rw [renewed, renameOnly, if_pos hp]
    exact fresh p hp

theorem renamedExtensions_renames (original : d = ⟨0⟩ ∨ d = ⟨2⟩)
    (hd : renamedExtensions.decls.get? d = some decl) :
    renamedExtensions.Renames (renewed decl.params) decl := by
  rcases original with rfl | rfl
  · cases hd
    exact ⟨refreshes_renewed (by decide), by unfold CopiesBounds; decide, ⟨by decide, by decide⟩,
      ⟨by decide, by decide⟩⟩
  · cases hd
    exact ⟨refreshes_renewed (by decide), by unfold CopiesBounds; decide, ⟨by decide, by decide⟩,
      ⟨by decide, by decide⟩⟩

theorem renamedExtensions_hygienic :
    let site : Site := { name := "foo", receiver := .value (.param ⟨4⟩), library := .core }
    let list : Ty := .interface ⟨10⟩ [.param ⟨4⟩]
    (renamedExtensions.session {}).Contributes site ⟨0⟩
        ⟨⟨0⟩, ⟨0⟩, .ofList [(⟨4⟩, .param ⟨4⟩), (⟨5⟩, list)], .param ⟨4⟩⟩ ∧
      renamedExtensions.Hygienic {} site (renewed [⟨4⟩, ⟨5⟩]) ⟨0⟩ ⟨1⟩ := by
  intro site list
  have screened : (renamedExtensions.session {}).screen site [⟨0⟩] = .ok { candidates :=
      [⟨⟨0⟩, ⟨0⟩, .ofList [(⟨4⟩, .param ⟨4⟩), (⟨5⟩, list)], .param ⟨4⟩⟩] } := by decide +kernel
  have unified : renamedExtensions.unify 64 (.param ⟨4⟩) (.param ⟨4⟩) [⟨4⟩, ⟨5⟩] =
      .ok (some (.ofList [(⟨4⟩, .param ⟨4⟩)])) := by decide +kernel
  have uncaptured (solved : Substitution)
      (h : renamedExtensions.unify 64 (.param ⟨4⟩) (.param ⟨4⟩) [⟨4⟩, ⟨5⟩] = .ok (some solved)) :
      renamedExtensions.Uncaptured [⟨4⟩, ⟨5⟩] solved := by
    rw [unified] at h
    cases h
    exact uncaptured_of_free (by decide)
  exact ⟨(contributes_of_screen screened).2 rfl,
    hygienic_of_uncaptured renamedExtensions {} site (.param ⟨4⟩) _ ⟨0⟩ ⟨1⟩ _ rfl rfl rfl
      (renamedExtensions_renames (.inl rfl) rfl) (by decide) (by decide) uncaptured⟩

/-- The receiver's type is a parameter that is left open, so that its bound mentions itself once the
    solution is put into it; or it is a parameter that a member takes again, so that the member
    accepts any argument. Neither happens to new names. -/
theorem renaming_captured :
    let site (t : Ty) (form : Form) : Site :=
      { name := "foo", receiver := .value t, form, library := .core }
    let copied (d d' : DeclId) (ps : List ParamId) (t : Ty) : Prop :=
      ∃ decl, renamedExtensions.decls.get? d = some decl ∧ decl.params = ps ∧
        renamedExtensions.decls.get? d' = some (decl.rename (renewed ps)) ∧
        renamedExtensions.Renames (renewed ps) decl ∧ t.Free (ps.map (renewed ps))
    let int : Argument := { type := .interface ⟨5⟩ [] }
    (copied ⟨0⟩ ⟨1⟩ [⟨4⟩, ⟨5⟩] (.param ⟨5⟩) ∧
      ¬ renamedExtensions.Hygienic {} (site (.param ⟨5⟩) .get) (renewed [⟨4⟩, ⟨5⟩]) ⟨0⟩ ⟨1⟩) ∧
    (copied ⟨2⟩ ⟨3⟩ [⟨6⟩] (.param ⟨6⟩) ∧
      ¬ renamedExtensions.Hygienic {} (site (.param ⟨6⟩) (.call { positional := [int] }))
        (renewed [⟨6⟩]) ⟨2⟩ ⟨3⟩) := by
  intro site copied int
  refine ⟨⟨?_, ?_⟩, ⟨?_, ?_⟩⟩
  · exact ⟨_, rfl, rfl, rfl, renamedExtensions_renames (.inl rfl) rfl, by decide⟩
  · intro hygienic
    have captured : (renamedExtensions.session {}).screen (site (.param ⟨5⟩) .get) [⟨0⟩] =
        .ok { candidates := [⟨⟨0⟩, ⟨0⟩, .ofList [(⟨4⟩, .param ⟨5⟩),
          (⟨5⟩, .interface ⟨10⟩ [.dynamic])], .param ⟨5⟩⟩] } := by decide +kernel
    have known : (renamedExtensions.session {}).screen (site (.param ⟨5⟩) .get) [⟨1⟩] =
        .ok { candidates := [⟨⟨1⟩, ⟨0⟩, .ofList [(⟨7⟩, .param ⟨5⟩),
          (⟨8⟩, .interface ⟨10⟩ [.param ⟨5⟩])], .param ⟨5⟩⟩] } := by decide +kernel
    have renamed := (hygienic _).2 ⟨_, (contributes_of_screen captured).2 rfl, rfl⟩
    have same := (contributes_of_screen known).1 renamed
    revert same
    decide
  · exact ⟨_, rfl, rfl, rfl, renamedExtensions_renames (.inr rfl) rfl, by decide⟩
  · intro hygienic
    have captured : (renamedExtensions.session {}).screen
        (site (.param ⟨6⟩) (.call { positional := [int] })) [⟨2⟩] =
        .ok { candidates := [⟨⟨2⟩, ⟨0⟩, .ofList [(⟨6⟩, .param ⟨6⟩)], .param ⟨6⟩⟩] } := by
      decide +kernel
    have known : (renamedExtensions.session {}).screen
        (site (.param ⟨6⟩) (.call { positional := [int] })) [⟨3⟩] =
        .ok { shapeMismatches := [(⟨3⟩, ⟨0⟩)] } := by decide +kernel
    have renamed := (hygienic _).2 ⟨_, (contributes_of_screen captured).2 rfl, rfl⟩
    have same := (contributes_of_screen known).1 renamed
    cases same

end Program

end MemberAccess
