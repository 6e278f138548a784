import MemberAccess.Proofs.Outcomes

/-!
Computations that report on their way. What they report is strung together in the order of their
steps, however the steps are grouped, and has the properties that the reports of each step have.
-/
namespace MemberAccess.Reporting

variable {α β : Type} {x : Reporting α} {f : α → Reporting β} {a : α} {fault : Fault}
  {φ : Diagnostic → Prop}

theorem bind_of_ok (h : x.outcome = .ok a) :
    x >>= f = ⟨(f a).outcome, x.reports ++ (f a).reports⟩ := by
  change x.andThen f = _
  rw [andThen, h]

theorem bind_of_error (h : x.outcome = .error fault) : x >>= f = ⟨.error fault, x.reports⟩ := by
  change x.andThen f = _
  rw [andThen, h]

theorem lawfulMonad : LawfulMonad Reporting := by
  refine .mk' _ ?identity ?left ?assoc
  case identity =>
    intro α x
    change x.andThen (fun a => succeed a) = x
    obtain ⟨outcome | a, reports⟩ := x
    · rfl
    · exact congrArg (mk _) (List.append_nil _)
  case left => exact fun a f => rfl
  case assoc =>
    intro α β γ x f g
    cases hx : x.outcome with
    | error fault =>
      rw [bind_of_error hx, bind_of_error hx]
      exact bind_of_error rfl
    | ok a =>
      rw [bind_of_ok hx, bind_of_ok hx]
      cases hf : (f a).outcome with
      | error fault =>
        rw [bind_of_error hf]
        exact bind_of_error rfl
      | ok b =>
        rw [bind_of_ok hf, bind_of_ok rfl]
        exact congrArg (mk _) (List.append_assoc _ _ _)

@[simp] theorem outcome_mapM {xs : List α} :
    (xs.mapM f).outcome = xs.mapM fun x => (f x).outcome := by
  induction xs with
  | nil => rfl
  | cons x xs ih =>
    have := lawfulMonad
    rw [List.mapM_cons, List.mapM_cons, outcome_bind]
    simp only [outcome_bind, outcome_pure, ih]
    rfl

def Reports (x : Reporting α) (φ : Diagnostic → Prop) : Prop := ∀ d ∈ x.reports, φ d

theorem reports_pure (a : α) : (pure a : Reporting α).Reports φ := List.forall_mem_nil _

theorem reports_lift (x : Except Fault α) : (liftM x : Reporting α).Reports φ :=
  List.forall_mem_nil _

theorem reports_report {d : Diagnostic} (h : φ d) : (report d).Reports φ :=
  List.forall_mem_singleton.2 h

theorem Reports.bind (hx : x.Reports φ) (hf : ∀ a, x.outcome = .ok a → (f a).Reports φ) :
    (x >>= f).Reports φ := by
  unfold Reports
  cases h : x.outcome with
  | error fault =>
    rw [bind_of_error h]
    exact hx
  | ok a =>
    rw [bind_of_ok h]
    exact List.forall_mem_append.2 ⟨hx, hf a h⟩

theorem reports_mapM {xs : List α} (h : ∀ x ∈ xs, (f x).Reports φ) : (xs.mapM f).Reports φ := by
  induction xs with
  | nil => exact reports_pure []
  | cons x xs ih =>
    have := lawfulMonad
    obtain ⟨head, tail⟩ := List.forall_mem_cons.1 h
    rw [List.mapM_cons]
    exact head.bind fun y _ => (ih tail).bind fun ys _ => reports_pure (y :: ys)

end MemberAccess.Reporting
