import Reckoner.Decimal.Display
import Reckoner.Evaluation
import Reckoner.Expr.Parse
import Reckoner.Log
import Reckoner.Settings
import Reckoner.Token.Scan

/-!
Sessions: an environment, the last result and the settings, shared by every statement that is
submitted. The arithmetic context and the log are shared by all sessions.
-/

namespace Reckoner

/-- What all sessions have in common. -/
structure Shared where
  context : Context
  log : Log

def Shared.initial : Shared := ⟨.standard, .off⟩

def Shared.write (shared : Shared) (level : Log.Level) (message : Text) : Shared :=
  { shared with log := shared.log.write level [message] }

structure Session where
  settings : Settings
  env : Environment
  last : Decimal

structure Answer where
  value : Decimal
  output : Text
  statement : Stmt

structure Refusal where
  code : Text
  message : Text
  pos : Int

def Refusal.ofFailure : Failure → Refusal
  | .fault fault pos => ⟨fault.code, fault.message, pos⟩
  | .defect defect => ⟨"INTERNAL", defect.message, 0⟩

namespace Session

/-- A new session. Settings that ask for debug output switch the log on for good. -/
def start (settings : Settings) (shared : Shared) : Session × Shared :=
  (⟨settings, .withBuiltins, .zero⟩,
    if settings.debug then { shared with log := { shared.log with enabled := true } } else shared)

def tokens (shared : Shared) (input : Text) : List Token := Token.scan shared.context.rounding input

def parse (shared : Shared) (input : Text) : Except Failure Stmt :=
  Stmt.parse input (tokens shared input)

def scope (s : Session) : Scope := ⟨s.env, s.last, s.settings.maxCallDepth⟩

/-- A value as the settings show it. -/
def format (s : Session) (value : Decimal) : Except Failure Text :=
  (value.display (displayPrecision s.settings.displayDigits)).mapError
    (.defect ∘ .invalidDigits)

/-- Evaluates a text. An assignment stays stored even if its value cannot be shown. -/
def run (s : Session) (persist : Bool) (input : Text) (shared : Shared) :
    Except Failure Answer × Environment × Shared :=
  match parse shared input with
  | .error failure => (.error failure, s.env, shared)
  | .ok statement =>
    let (result, context) := statement.evaluate s.scope persist shared.context
    let shared := { shared with context := context }
    match result with
    | .error failure => (.error failure, s.env, shared)
    | .ok (value, env) =>
      ((s.format value).map fun output => ⟨value, output, statement⟩, env, shared)

/-- A defect is logged, a fault is not. -/
def report (input : Text) (result : Except Failure Answer) (shared : Shared) : Shared :=
  match result with
  | .error (.defect defect) =>
    shared.write .warning
      (("unexpected failure for " : Text) ++ Json.quote input ++ (": " : Text) ++ defect.message)
  | _ => shared

/-- Evaluates without touching the environment or the last result. -/
def preview (s : Session) (input : Text) (shared : Shared) : Except Refusal Answer × Shared :=
  let (result, _, shared) := s.run false input shared
  (result.mapError .ofFailure, report input result shared)

/-- Evaluates, keeps any assignment, and keeps the value as the last result. -/
def commit (s : Session) (input : Text) (shared : Shared) :
    Except Refusal Answer × Session × Shared :=
  let (result, env, shared) := s.run true input shared
  let shared := report input result shared
  let line := ("commit " : Text) ++ Json.quote input
  match result.mapError .ofFailure with
  | .ok answer =>
    (.ok answer, { s with env := env, last := answer.value },
      shared.write .info (line ++ (" = " : Text) ++ answer.output))
  | .error refusal =>
    (.error refusal, { s with env := env },
      shared.write .error (line ++ (" failed: " : Text) ++ refusal.message))

def complete (s : Session) (start : Text) : List (Text × Member) := s.env.search start

end Session
end Reckoner
