import Reckoner.Text

/-!
The debug log: lines of several parts, each with a mark and a coloured level in front. Nothing
is written while it is off.
-/

namespace Reckoner

inductive Log.Level where
  | info
  | warning
  | error
deriving DecidableEq

/-- The level in its colour. -/
def Log.Level.label : Log.Level → Text
  | info => "\x1b[36mINFO\x1b[0m"
  | warning => "\x1b[33mWARN\x1b[0m"
  | error => "\x1b[31mERROR\x1b[0m"

structure Log where
  enabled : Bool
  lines : List (List Text)
deriving DecidableEq

namespace Log

def off : Log := ⟨false, []⟩

def mark : Text := "\x1b[35m[DEBUG]\x1b[0m"

def write (log : Log) (level : Level) (parts : List Text) : Log :=
  if log.enabled then { log with lines := log.lines ++ [mark :: level.label :: parts] } else log

/-- The lines are taken out, and logging goes on as before. -/
def drain (log : Log) : List (List Text) × Log := (log.lines, { log with lines := [] })

end Log
end Reckoner
