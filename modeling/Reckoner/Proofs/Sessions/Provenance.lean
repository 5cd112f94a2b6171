import Reckoner.Proofs.Failing
import Reckoner.Proofs.Sessions.Process

/-!
# Where stored functions come from

A session begins with the built-in functions and stores those that committed texts define. So after
every run of events, each stored function was defined by a text that was committed to its session
(`Process.definedBy_after`), and its body has the shape of an expression. A text is refused exactly
if it cannot be parsed, or its expression fails, or its value cannot be shown
(`Session.result_error_iff`).
-/

namespace Reckoner

/-- The text is the definition of the function. -/
def Text.Defines (text name : Text) (params : List Text) (body : Expr) : Prop :=
  ∃ rounding, Stmt.parse text (Token.scan rounding text) =
    .ok (.functionAssignment name params body)

theorem Text.Defines.fits {text name : Text} {params : List Text} {body : Expr}
    (h : text.Defines name params body) : body.fits .expr = true := by
  obtain ⟨rounding, hparse⟩ := h
  have hfits : (Stmt.functionAssignment name params body).fits = true :=
    (parse_ok_iff.mp hparse).fits
  simp only [Stmt.fits, Bool.and_eq_true] at hfits
  exact hfits.2

/-! ## Environments -/

namespace Environment

/-- Each stored function is defined by one of the texts. -/
def DefinedBy (texts : Text → Prop) (env : Environment) : Prop :=
  ∀ name params body, env.function? name = some (.user params body) →
    ∃ text, texts text ∧ text.Defines name params body

variable {texts : Text → Prop} {env : Environment}

theorem DefinedBy.mono {more : Text → Prop} (h : env.DefinedBy texts)
    (hmore : ∀ text, texts text → more text) : env.DefinedBy more := by
  intro name params body hfunction
  obtain ⟨text, htext, hdefines⟩ := h name params body hfunction
  exact ⟨text, hmore text htext, hdefines⟩

theorem DefinedBy.bodiesFit (h : env.DefinedBy texts) : env.BodiesFit := by
  intro name params body hfunction
  obtain ⟨text, -, hdefines⟩ := h name params body hfunction
  exact hdefines.fits

theorem DefinedBy.set (h : env.DefinedBy texts) {name : Text} {member : Member}
    (hmember : ∀ params body, member = .function (.user params body) →
      ∃ text, texts text ∧ text.Defines name params body) :
    (env.set name member).DefinedBy texts := by
  intro other params body hfunction
  unfold function? at hfunction
  rw [find?_set] at hfunction
  by_cases hother : other = name
  · subst hother
    apply hmember
    rw [if_pos rfl] at hfunction
    cases member with
    | value value => cases hfunction
    | function function =>
      cases hfunction
      rfl
  · rw [if_neg hother] at hfunction
    exact h other params body hfunction

theorem definedBy_withBuiltins (texts : Text → Prop) : withBuiltins.DefinedBy texts := by
  refine List.foldlRecOn Builtin.all _ ?_ ?_
  · intro name params body hfunction
    cases hfunction
  · intro env h b _
    exact h.set nofun

theorem DefinedBy.keep (h : env.DefinedBy texts) {text : Text} (htext : texts text)
    {rounding : Rounding} {stmt : Stmt}
    (hparse : Stmt.parse text (Token.scan rounding text) = .ok stmt) (value : Decimal) :
    (env.keep (stmt.binding? value)).DefinedBy texts := by
  cases stmt with
  | expression expr => exact h
  | variableAssignment name value => exact h.set nofun
  | functionAssignment name params body =>
    apply h.set
    intro params' body' hmember
    cases hmember
    exact ⟨text, htext, rounding, hparse⟩
  | foreign node => exact h

end Environment

theorem Session.definedBy_kept {s : Session} {texts : Text → Prop} (h : s.env.DefinedBy texts)
    {text : Text} (htext : texts text) (ctx : Context) : (s.kept text ctx).DefinedBy texts := by
  unfold kept outcome
  cases hparse : Stmt.parse text (Token.scan ctx.rounding text) with
  | error failure => exact h
  | ok stmt =>
    simp only
    cases (stmt.outcome s.scope ctx).1 with
    | error failure => exact h
    | ok value => exact h.keep htext hparse value

/-! ## Runs of events -/

namespace Process

theorem step_request {p : Process} {number : Nat} {session : Session}
    (h : p.sessions[number]? = some session) (request : Request) :
    p.step (.request number request) =
      (some (Desk.handle ⟨session, p.shared⟩ request).1,
        ⟨p.sessions.set number (Desk.handle ⟨session, p.shared⟩ request).2.session,
          (Desk.handle ⟨session, p.shared⟩ request).2.shared⟩) := by
  simp only [step, h]

/-- The text was committed to the session. -/
def Committed (events : List Event) (number : Nat) (text : Text) : Prop :=
  .request number (.commit text) ∈ events

/-- Each session stores nothing but functions that texts committed to it define. -/
def DefinedBy (events : List Event) (p : Process) : Prop :=
  ∀ (number : Nat) (session : Session), p.sessions[number]? = some session →
    session.env.DefinedBy (Committed events number)

variable {p : Process} {past : List Event}

theorem DefinedBy.later (h : p.DefinedBy past) (event : Event) : p.DefinedBy (past ++ [event]) := by
  intro number session hsession
  exact (h number session hsession).mono fun text => List.mem_append_left _

theorem DefinedBy.handle (h : p.DefinedBy past) {number : Nat} {session : Session}
    (hsession : p.sessions[number]? = some session) (request : Request) :
    (Desk.handle ⟨session, p.shared⟩ request).2.session.env.DefinedBy
      (Committed (past ++ [.request number request]) number) := by
  have hbefore := h.later (.request number request) number session hsession
  cases request with
  | preview text =>
    rw [(Desk.handle_preview _ text).2.1]
    exact hbefore
  | commit text =>
    rw [(Desk.handle_commit _ text).2.1, Session.committed_env]
    exact Session.definedBy_kept hbefore (List.mem_append_right _ (List.mem_singleton_self _)) _

theorem DefinedBy.step (h : p.DefinedBy past) (event : Event) :
    (p.step event).2.DefinedBy (past ++ [event]) := by
  cases event with
  | start settings =>
    intro number session hsession
    have happend : (p.sessions ++ [(Desk.start settings p.shared).session])[number]? =
      some session := hsession
    by_cases hold : number < p.sessions.length
    · rw [List.getElem?_append_left hold] at happend
      exact h.later _ number session happend
    · rw [List.getElem?_append_right (Nat.le_of_not_lt hold)] at happend
      have hnew := List.mem_singleton.mp (List.mem_of_getElem? happend)
      rw [hnew]
      exact Environment.definedBy_withBuiltins _
  | request number request =>
    cases hsession : p.sessions[number]? with
    | none =>
      have hsame : (p.step (.request number request)).2 = p := by simp only [Process.step, hsession]
      rw [hsame]
      exact h.later _
    | some session =>
      rw [step_request hsession request]
      intro other session' hother
      rw [List.getElem?_set] at hother
      by_cases hnumber : number = other
      · subst hnumber
        have hlength : number < p.sessions.length := (List.getElem?_eq_some_iff.mp hsession).1
        rw [if_pos rfl, if_pos hlength] at hother
        cases hother
        exact h.handle hsession request
      · rw [if_neg hnumber] at hother
        exact h.later _ other session' hother

theorem DefinedBy.after (h : p.DefinedBy past) (events : List Event) :
    (p.after events).DefinedBy (past ++ events) := by
  induction events generalizing p past with
  | nil =>
    rw [List.append_nil]
    exact h
  | cons event rest ih =>
    rw [List.append_cons]
    exact ih (h.step event)

/-- **Stored functions come from committed texts.** -/
theorem definedBy_after (events : List Event) : (initial.after events).DefinedBy events := by
  have hinitial : initial.DefinedBy [] := by
    intro number session hsession
    cases hsession
  exact hinitial.after events

end Process

/-! ## Refused texts -/

/-- The text comes to this failure, in the body of the stored function `home`, or by itself if there
is none. -/
inductive Session.FailsIn (s : Session) (text : Text) (ctx : Context) :
    Option Text → Failure → Prop where
  | parsing {failure : Failure}
      (fails : Stmt.parse text (Token.scan ctx.rounding text) = .error failure) :
      FailsIn s text ctx none failure
  | evaluating {stmt : Stmt} {e : Expr} {home : Option Text} {failure : Failure}
      (parsed : Stmt.parse text (Token.scan ctx.rounding text) = .ok stmt)
      (evaluated : stmt.evaluated? = some e) (fails : e.Fails s.scope ctx .empty 0 home failure) :
      FailsIn s text ctx home failure
  | showing {stmt : Stmt} {value : Decimal} {failure : Failure}
      (evaluated : (s.outcome text ctx).1 = .ok (stmt, value))
      (fails : s.format value = .error failure) : FailsIn s text ctx none failure

theorem Stmt.fails_of_outcome {scope : Scope} {ctx : Context} {stmt : Stmt} {failure : Failure}
    (hfits : stmt.fits = true) (h : (stmt.outcome scope ctx).1 = .error failure) :
    ∃ e home, stmt.evaluated? = some e ∧ e.Fails scope ctx .empty 0 home failure := by
  have htop (e : Expr) (he : (evalTop scope ctx e).1 = .error failure) :
      ∃ home, e.Fails scope ctx .empty 0 home failure := by
    have hvalue := (e.eval_settles scope ⟨ctx, []⟩).result
    exact Expr.fails_of_error (hvalue.symm.trans he)
  cases stmt with
  | expression expr =>
    obtain ⟨home, hfails⟩ := htop expr h
    exact ⟨expr, home, rfl, hfails⟩
  | variableAssignment name value =>
    obtain ⟨home, hfails⟩ := htop value h
    exact ⟨value, home, rfl, hfails⟩
  | functionAssignment name params body => cases h
  | foreign node => cases hfits

theorem Stmt.outcome_of_fails {scope : Scope} {ctx : Context} {stmt : Stmt} {e : Expr}
    {home : Option Text} {failure : Failure} (h : stmt.evaluated? = some e)
    (hfails : e.Fails scope ctx .empty 0 home failure) :
    (stmt.outcome scope ctx).1 = .error failure := by
  have htop : (evalTop scope ctx e).1 = .error failure :=
    (e.eval_settles scope ⟨ctx, []⟩).result.trans hfails.error
  rcases evaluated?_cases h with rfl | ⟨name, rfl⟩
  · exact htop
  · exact htop

/-- **A text fails exactly for these reasons.** -/
theorem Session.result_error_iff {s : Session} {text : Text} {ctx : Context} {failure : Failure} :
    s.result text ctx = .error failure ↔ ∃ home, s.FailsIn text ctx home failure := by
  constructor
  · intro h
    cases hparse : Stmt.parse text (Token.scan ctx.rounding text) with
    | error f =>
      rw [result, outcome, hparse] at h
      cases h
      exact ⟨none, .parsing hparse⟩
    | ok stmt =>
      cases houtcome : (stmt.outcome s.scope ctx).1 with
      | error f =>
        simp only [result, outcome, hparse, houtcome] at h
        cases h
        obtain ⟨e, home, hexpr, hfails⟩ :=
          Stmt.fails_of_outcome (parse_ok_iff.mp hparse).fits houtcome
        exact ⟨home, .evaluating hparse hexpr hfails⟩
      | ok value =>
        have hok : (s.outcome text ctx).1 = .ok (stmt, value) := by
          simp only [outcome, hparse, houtcome]
          rfl
        rw [result, hok] at h
        cases hformat : s.format value with
        | error f =>
          simp only [Except.bind, hformat] at h
          cases h
          exact ⟨none, .showing hok hformat⟩
        | ok output =>
          simp only [Except.bind, hformat] at h
          cases h
  · rintro ⟨home, h⟩
    cases h with
    | parsing fails =>
      rw [result, outcome, fails]
      rfl
    | evaluating parsed evaluated fails =>
      simp only [result, outcome, parsed, Stmt.outcome_of_fails evaluated fails]
      rfl
    | showing evaluated fails =>
      rw [result, evaluated]
      simp only [Except.bind, fails]
      rfl

/-- A refused request, with the failure behind the refusal. -/
theorem Process.result_of_step {p : Process} {number : Nat} {session : Session} {request : Request}
    {refusal : Refusal} (hsession : p.sessions[number]? = some session)
    (h : (p.step (.request number request)).1 = some (.error refusal)) :
    ∃ failure, session.result request.text p.shared.context = .error failure ∧
      refusal = .ofFailure failure := by
  have hresult : (session.result request.text p.shared.context).mapError .ofFailure =
      .error refusal := by
    rw [step_request hsession request, Option.some_inj] at h
    exact (Desk.handle_result _ request).symm.trans h
  cases hfailure : session.result request.text p.shared.context with
  | ok answer =>
    rw [hfailure] at hresult
    cases hresult
  | error failure =>
    rw [hfailure] at hresult
    cases hresult
    exact ⟨failure, rfl, rfl⟩

end Reckoner
