import MemberAccess.Proofs.Instantiation.Placeholders
import MemberAccess.Proofs.Resolution.Candidates
import MemberAccess.Proofs.Typing.Denotation
import MemberAccess.Visibility

/-!
The type arguments of shorthand constructors. They are passed explicitly, or else they are those of
the context, or else they come from instantiation to bounds, and none of them has a placeholder,
however much of the context or of what is passed is known in part only.
-/
namespace MemberAccess

open Program

/-- What an access gives for the parameters of a declaration: the type arguments of a call, or if
    there are none, those of the interface type that is in the context, which has to be an instance
    of the type that the declaration belongs to. -/
inductive Program.Gives (P : Program) (limit : Nat) (site : Site) (decl : Decl) :
    ParamId → Ty → Prop
  | passed : site.form.typeArguments = some ts → (p, t) ∈ decl.params.zip ts →
      Gives P limit site decl p t
  | context : site.form.typeArguments = none → decl.body.target? = some target → k < limit →
      P.Wraps k site.context ⟨target, as⟩ → (p, t) ∈ decl.params.zip as →
      Gives P limit site decl p t

variable {P : Program} {s : Session} {options : Options} {site : Site} {decl : Decl} {m : Member}
  {types : Option (List Ty)} {ps : List ParamId} {ts : List Ty} {es : List (ParamId × Ty)}
  {given σ σ' : Substitution} {p : ParamId} {t expected : Ty} {operand : Option Ty}

namespace Substitution

theorem get?_ofList_iff (distinct : (es.map (·.1)).Nodup) :
    (ofList es).get? p = some t ↔ (p, t) ∈ es := by
  constructor
  · intro value
    exact (mem_of_insertAll value).resolve_right (by simp)
  · intro member
    apply get?_insertAll_of_unique ⟨(p, t), member, rfl⟩
    intro e he same
    exact congrArg Prod.snd (List.inj_on_of_nodup_map distinct he member same)

theorem nodup_fst_zip (distinct : ps.Nodup) : ((ps.zip ts).map (·.1)).Nodup := by
  rw [List.zip_eq_zip_take_min, List.map_fst_zip (by simp)]
  exact distinct.sublist (List.take_sublist _ _)

theorem get?_ofList_known (distinct : ps.Nodup) :
    (ofList ((ps.zip ts).filter fun e => !e.2.hasUnknown)).get? p = some t ↔
      (p, t) ∈ ps.zip ts ∧ t.Known := by
  have sublist : ((ps.zip ts).filter fun e => !e.2.hasUnknown).Sublist (ps.zip ts) :=
    List.filter_sublist
  have filtered := (nodup_fst_zip distinct).sublist (sublist.map (·.1))
  rw [get?_ofList_iff filtered, List.mem_filter, Bool.not_eq_true', Ty.hasUnknown_eq_false]

end Substitution

namespace Session

theorem passTypes_constructor (kind : m.kind = .constructor) :
    passTypes decl m types σ = some σ' ↔
      σ' = σ ∧ ∀ ts, types = some ts → ts.length = decl.params.length := by
  cases types with
  | none => simp [passTypes, eq_comm]
  | some ts => simp [passTypes, kind, eq_comm, and_comm]

def givenArgs (s : Session) (site : Site) (d : Decl) : Except Fault (Option (List Ty)) :=
  match site.form.typeArguments, d.body.target? with
  | some ts, _ => pure (some ts)
  | none, some target => s.program.denotedArgs? target s.options.limit site.context
  | none, none => pure none

theorem givenArgs_of_passed (passed : site.form.typeArguments = some ts) :
    s.givenArgs site decl = .ok (some ts) := by
  rw [givenArgs, passed]
  rfl

theorem givenArgs_of_absent (absent : site.form.typeArguments = none) :
    s.givenArgs site decl = decl.body.target?.elim (pure none) fun target =>
      s.program.denotedArgs? target s.options.limit site.context := by
  rw [givenArgs, absent]
  cases decl.body.target? <;> rfl

theorem mem_zip_givenArgs {args : Option (List Ty)} (h : s.givenArgs site decl = .ok args) :
    (p, t) ∈ decl.params.zip (args.getD []) ↔ s.program.Gives s.options.limit site decl p t := by
  constructor
  · intro member
    cases passed : site.form.typeArguments with
    | some ts =>
      rw [givenArgs_of_passed passed] at h
      cases h
      exact .passed passed member
    | none =>
      rw [givenArgs_of_absent passed] at h
      cases target : decl.body.target? with
      | none =>
        rw [target] at h
        cases h
        simp at member
      | some e =>
        rw [target] at h
        cases args with
        | none => simp at member
        | some as =>
          obtain ⟨k, shallow, wraps⟩ := denotedArgs_eq_some.1 h
          exact .context passed target shallow wraps member
  · intro gives
    cases gives with
    | passed passed member =>
      rw [givenArgs_of_passed passed] at h
      cases h
      exact member
    | context absent target shallow wraps member =>
      rw [givenArgs_of_absent absent, target, Option.elim_some,
        denotedArgs_eq_some.2 ⟨_, shallow, wraps⟩] at h
      cases h
      exact member

theorem constructorArgs_eq
    (arity : ∀ ts, site.form.typeArguments = some ts → ts.length = decl.params.length) :
    s.constructorArgs site decl = s.givenArgs site decl >>= fun args =>
      pure (.ofList ((decl.params.zip (args.getD [])).filter fun e => !e.2.hasUnknown)) := by
  unfold constructorArgs givenArgs
  cases form : site.form with
  | call a =>
    obtain ⟨types, _, _⟩ := a
    cases types with
    | none => cases decl.body.target? <;> rfl
    | some ts =>
      rw [form] at arity
      simp [Form.typeArguments, arity ts rfl]
  | _ => cases decl.body.target? <;> rfl

theorem get?_constructorArgs (distinct : decl.params.Nodup)
    (arity : ∀ ts, site.form.typeArguments = some ts → ts.length = decl.params.length)
    (h : s.constructorArgs site decl = .ok given) :
    given.get? p = some t ↔ s.program.Gives s.options.limit site decl p t ∧ t.Known := by
  rw [constructorArgs_eq arity] at h
  obtain ⟨args, found, h⟩ := bind_eq_ok.1 h
  obtain rfl := pure_eq_ok.1 h
  rw [Substitution.get?_ofList_known distinct, mem_zip_givenArgs found]

theorem completeArgs_of_shorthand (isShorthand : site.isShorthand = true)
    (h : s.completeArgs site decl given = .ok (some σ)) :
    s.oracle.instantiateParams decl.params given = .ok (.ok σ) := by
  obtain ⟨completed, instantiated, h⟩ := bind_eq_ok.1 h
  rw [isShorthand] at h
  cases completed with
  | error => cases h
  | ok σ' =>
    simp only [if_true, pure_bind] at h
    obtain ⟨respected, _, h⟩ := bind_eq_ok.1 h
    cases respected <;> cases h
    exact instantiated

theorem inferArgs_constructor (shorthand : site.receiver = .shorthand expected operand)
    (kind : m.kind = .constructor) (h : s.inferArgs site decl m = .ok (some σ)) :
    ∃ given, s.constructorArgs site decl = .ok given ∧
      s.oracle.instantiateParams decl.params given = .ok (.ok σ) := by
  have isShorthand : site.isShorthand = true := by rw [Site.isShorthand, shorthand]
  unfold inferArgs at h
  rw [shorthand] at h
  simp only [kind, if_true] at h
  obtain ⟨given, found, h⟩ := bind_eq_ok.1 h
  exact ⟨given, found, completeArgs_of_shorthand isShorthand h⟩

/-- A candidate that is a constructor has types for just the parameters of its declaration, and
    none of them has a placeholder. It has what the access gives without placeholders, and the rest
    comes from instantiation to bounds. -/
theorem screen_constructor_arguments (P : Program) (options : Options) (site : Site) (expected : Ty)
    (operand : Option Ty) (ds : List DeclId) (screening : Screening)
    (shorthand : site.receiver = .shorthand expected operand)
    (screened : (P.session options).screen site ds = .ok screening) :
    ∀ c ∈ screening.candidates, ∃ decl m, P.decls.get? c.decl = some decl ∧
      decl.members.get? c.member = some m ∧ (m.kind = .constructor → decl.params.Nodup →
        (∀ p ∈ decl.params, ∀ q ∈ P.params.get? p, ∀ b ∈ q.bound, b.Known) →
        c.substitution.HasDomain decl.params ∧ c.substitution.Known ∧
        (∀ ts, site.form.typeArguments = some ts → ts.length = decl.params.length) ∧
        (∀ p t, P.Gives options.limit site decl p t → t.Known →
          c.substitution.get? p = some t) ∧
        ∃ given, (∀ p t, given.get? p = some t ↔
            P.Gives options.limit site decl p t ∧ t.Known) ∧
          P.instantiateParams options.limit decl.params given = .ok (.ok c.substitution)) := by
  intro c candidate
  obtain ⟨decl, m, σ, hdecl, fitting, admits⟩ := admits_of_screen screened candidate
  refine ⟨decl, m, hdecl, Decl.mem_of_mem_fittingMembers fitting, fun kind distinct bounds => ?_⟩
  obtain ⟨same, arity⟩ := (passTypes_constructor kind).1 (passTypes_of_accepted admits.accepts)
  rw [same]
  obtain ⟨given, found, instantiated⟩ := inferArgs_constructor shorthand kind admits.infers
  have gives (p : ParamId) (t : Ty) :
      given.get? p = some t ↔ P.Gives options.limit site decl p t ∧ t.Known :=
    get?_constructorArgs distinct arity found
  have known : given.Known := fun p t value => ((gives p t).1 value).2
  obtain ⟨domain, keeps⟩ := instantiateParams_covers instantiated
  refine ⟨domain, instantiateParams_known bounds known instantiated, arity, ?_, given, gives,
    instantiated⟩
  intro p t given known
  have own : p ∈ decl.params := by
    cases given with
    | passed _ member | context _ _ _ _ member => exact (List.of_mem_zip member).1
  exact keeps p own t ((gives p t).2 ⟨given, known⟩)

end Session

namespace Program

/-- A class `Index<K, V extends List<K>>` with a constructor that takes a key. -/
def indexClass : Decl :=
  { binder := some "Index", params := [⟨4⟩, ⟨5⟩], library := .core, body := .shorthand ⟨11⟩,
    members := .singleton { name := "new", kind := .constructor, sig :=
      { positional := [.param ⟨4⟩], required := 1 } } }

def indexProgram : Program :=
  { core with
    types := .ofList (core.types.entries.toList ++ [coreClass "Index" [⟨4⟩, ⟨5⟩] []])
    params := .ofList (core.params.entries.toList ++
      [⟨"K", none⟩, ⟨"V", some (.interface ⟨10⟩ [.param ⟨4⟩])⟩])
    decls := .ofList [indexClass] }

/-- In the context `Index<int, List<_>>?`, `K` is `int` and `V` is left to its bound. -/
theorem indexProgram_constructs :
    let s := indexProgram.session {}
    let int : Ty := .interface ⟨5⟩ []
    let list (t : Ty) : Ty := .interface ⟨10⟩ [t]
    let index (k v : Ty) : Ty := .interface ⟨11⟩ [k, v]
    let site : Site :=
      { name := "new", receiver := .shorthand (.nullable (index int (list .unknown))) none,
        form := .call { positional := [{ type := int }] }, library := .core }
    let σ : Substitution := .ofList [(⟨4⟩, int), (⟨5⟩, list int)]
    s.screen site [⟨0⟩] = .ok { candidates := [⟨⟨0⟩, ⟨0⟩, σ, index int (list int)⟩] } ∧
      indexClass.params.Nodup ∧
      (∀ p ∈ indexClass.params, ∀ q ∈ indexProgram.params.get? p, ∀ b ∈ q.bound, b.Known) ∧
      σ.HasDomain indexClass.params ∧ σ.Known ∧
      indexProgram.Gives 64 site indexClass ⟨4⟩ int ∧ σ.get? ⟨4⟩ = some int ∧
      ∃ given, (∀ p t, given.get? p = some t ↔
          indexProgram.Gives 64 site indexClass p t ∧ t.Known) ∧
        indexProgram.instantiateParams 64 indexClass.params given = .ok (.ok σ) := by
  intro s int list index site σ
  have screened : s.screen site [⟨0⟩] =
      .ok { candidates := [⟨⟨0⟩, ⟨0⟩, σ, index int (list int)⟩] } := by
    decide +kernel
  have distinct : indexClass.params.Nodup := by decide
  have bounds : ∀ p ∈ indexClass.params, ∀ q ∈ indexProgram.params.get? p, ∀ b ∈ q.bound,
      b.Known := by decide
  have key : indexProgram.Gives 64 site indexClass ⟨4⟩ int :=
    .context rfl rfl (by decide) (.layer .nullable .here) (by decide)
  obtain ⟨decl, m, hdecl, hm, sound⟩ := Session.screen_constructor_arguments indexProgram {} site
    _ _ _ _ rfl screened _ (List.mem_singleton_self _)
  cases hdecl
  cases hm
  obtain ⟨domain, known, _, keeps, instantiated⟩ := sound rfl distinct bounds
  exact ⟨screened, distinct, bounds, domain, known, key, keeps _ _ key (by decide), instantiated⟩

end Program

end MemberAccess
