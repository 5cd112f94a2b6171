import Reckoner.Proofs.Misfit
import Reckoner.Proofs.Sessions.Context
import Reckoner.Session

/-!
# What a text comes to

A text has an outcome in a session and a context: a statement with its value, or a failure, and the
context afterwards. Previewing and committing show the same outcome and leave the same context
(`preview_eq`, `commit_eq`). They differ in what is kept: a commit keeps the binding of an
assignment, also if its value cannot be shown, and the value as the last result if it can.
-/

namespace Reckoner

namespace Stmt

/-- The value of a statement, and the context afterwards. -/
def outcome (scope : Scope) (ctx : Context) : Stmt → Except Failure Decimal × Context
  | expression expr => evalTop scope ctx expr
  | variableAssignment _ value => evalTop scope ctx value
  | functionAssignment .. => (.ok definitionValue, ctx)
  | foreign node => (.error (.defect (.unhandledNode node)), ctx)

/-- The expression that a statement evaluates. -/
def evaluated? : Stmt → Option Expr
  | expression expr => some expr
  | variableAssignment _ value => some value
  | _ => none

/-- What a statement of some value binds. -/
def binding? (value : Decimal) : Stmt → Option (Text × Member)
  | variableAssignment name _ => some (name, .value value)
  | functionAssignment name params body => some (name, .function (.user params body))
  | _ => none

theorem evaluated?_cases {stmt : Stmt} {e : Expr} (h : stmt.evaluated? = some e) :
    stmt = .expression e ∨ ∃ name, stmt = .variableAssignment name e := by
  cases stmt with
  | expression expr =>
    cases h
    exact .inl rfl
  | variableAssignment name value =>
    cases h
    exact .inr ⟨name, rfl⟩
  | functionAssignment name params body => cases h
  | foreign node => cases h

end Stmt

/-- The environment with one more binding, if there is one. -/
def Environment.keep (env : Environment) (binding : Option (Text × Member)) : Environment :=
  binding.elim env fun bound => env.set bound.1 bound.2

theorem Stmt.evaluate_eq (scope : Scope) (persist : Bool) (ctx : Context) (stmt : Stmt) :
    stmt.evaluate scope persist ctx = ((stmt.outcome scope ctx).1.map fun value =>
      (value, if persist then scope.env.keep (stmt.binding? value) else scope.env),
      (stmt.outcome scope ctx).2) := by
  cases stmt with
  | expression expr =>
    simp only [evaluate, outcome, binding?, Environment.keep, Option.elim, ite_self]
  | variableAssignment name value => rfl
  | functionAssignment name params body => rfl
  | foreign node => rfl

theorem Stmt.outcome_leaves (scope : Scope) (ctx : Context) (stmt : Stmt) :
    ctx.Leaves (stmt.outcome scope ctx).1 (stmt.outcome scope ctx).2 := by
  cases stmt with
  | expression expr => exact evalTop_leaves scope ctx expr
  | variableAssignment name value => exact evalTop_leaves scope ctx value
  | functionAssignment name params body => exact .ok ctx _
  | foreign node => exact .same fun _ => nofun

theorem parse_ne_sineLimit (rounding : Rounding) (text : Text) (pos : Int) :
    Stmt.parse text (Token.scan rounding text) ≠ .error (.fault .sineLimit pos) := by
  intro h
  rw [Token.scan_eq] at h
  rcases parse_error_cases (fun _ => Token.kind_of_mem_beforeEnd) rfl h with
    ⟨fault, k, t, hm, hfault, -⟩ | ⟨-, fault, pos, hcode, hfault⟩
  · cases hfault
    cases hm
  · cases hfault
    exact absurd hcode (by decide)

namespace Session

variable (s : Session) (text : Text) (ctx : Context) (shared : Shared)

/-- The statement of a text with its value, and the context afterwards. -/
def outcome : Except Failure (Stmt × Decimal) × Context :=
  match Stmt.parse text (Token.scan ctx.rounding text) with
  | .error failure => (.error failure, ctx)
  | .ok stmt =>
    ((stmt.outcome s.scope ctx).1.bind fun value => .ok (stmt, value),
      (stmt.outcome s.scope ctx).2)

/-- The outcome as it is shown. -/
def result : Except Failure Answer :=
  (s.outcome text ctx).1.bind fun (stmt, value) =>
    (s.format value).map fun output => ⟨value, output, stmt⟩

/-- The environment with what the text binds. -/
def kept : Environment :=
  match (s.outcome text ctx).1 with
  | .error _ => s.env
  | .ok (stmt, value) => s.env.keep (stmt.binding? value)

/-- The session that has kept what a commit keeps. -/
def committed : Session :=
  match s.result text ctx with
  | .error _ => { s with env := s.kept text ctx }
  | .ok answer => { s with env := s.kept text ctx, last := answer.value }

theorem run_eq (persist : Bool) : s.run persist text shared =
    (s.result text shared.context, if persist then s.kept text shared.context else s.env,
      { shared with context := (s.outcome text shared.context).2 }) := by
  simp only [run, result, kept, outcome, parse, tokens]
  cases Stmt.parse text (Token.scan shared.context.rounding text) with
  | error failure => cases persist <;> rfl
  | ok stmt =>
    simp only [Stmt.evaluate_eq]
    cases (stmt.outcome s.scope shared.context).1 with
    | error failure => cases persist <;> rfl
    | ok value => rfl

theorem committed_env : (s.committed text ctx).env = s.kept text ctx := by
  unfold committed
  split <;> rfl

theorem report_context (result : Except Failure Answer) :
    (report text result shared).context = shared.context := by
  unfold report
  split <;> rfl

theorem preview_eq : (s.preview text shared).1 =
      (s.result text shared.context).mapError .ofFailure ∧
    (s.preview text shared).2.context = (s.outcome text shared.context).2 := by
  simp only [preview, run_eq, report_context, and_self]

theorem commit_eq : (s.commit text shared).1 =
      (s.result text shared.context).mapError .ofFailure ∧
    (s.commit text shared).2.1 = s.committed text shared.context ∧
    (s.commit text shared).2.2.context = (s.outcome text shared.context).2 := by
  simp only [commit, run_eq, committed, if_true]
  cases s.result text shared.context with
  | error failure => exact ⟨rfl, rfl, report_context ..⟩
  | ok answer => exact ⟨rfl, rfl, rfl⟩

theorem outcome_leaves : ctx.Leaves (s.outcome text ctx).1 (s.outcome text ctx).2 := by
  unfold outcome
  split
  · rename_i failure h
    refine .same fun pos heq => ?_
    rw [Except.error.inj heq] at h
    exact parse_ne_sineLimit _ _ _ h
  · rename_i stmt h
    exact (stmt.outcome_leaves s.scope ctx).andThen fun _ _ => nofun

theorem format_ne_sineLimit (value : Decimal) (pos : Int) :
    s.format value ≠ .error (.fault .sineLimit pos) := by
  intro h
  unfold format at h
  cases hd : value.display (displayPrecision s.settings.displayDigits) <;> rw [hd] at h <;> cases h

theorem result_leaves : ctx.Leaves (s.result text ctx) (s.outcome text ctx).2 := by
  refine (s.outcome_leaves text ctx).andThen fun outcome pos h => ?_
  cases hf : s.format outcome.2 with
  | error failure =>
    simp only [hf] at h
    exact s.format_ne_sineLimit _ pos (by rw [hf, Except.error.inj h])
  | ok output =>
    simp only [hf] at h
    cases h

end Session
end Reckoner
