import Reckoner.App

/-!
The calculator on a terminal, a line at a time: each line of input is typed into the editor and
committed, and the answer or the complaint is printed. Debug lines go to the error stream.
-/

namespace Reckoner

/-- What the environment of the process says about the settings. -/
def Settings.fromProcess : IO Settings := do
  let read (name : Text) : IO (Text × Option Text) := do
    return (name, (← IO.getEnv name.toString).map Text.ofString)
  let given ← [digitsName, depthName, debugName].mapM read
  return load fun name => (given.lookup name).join

namespace App

/-- A line as it would be typed: its text, then the enter key. A completion list that the text
has opened is closed first. -/
def enterLine (app : App) (line : Text) : Option App := do
  let app ← app.press { input := line }
  let app := { app with editor := { app.editor with completion := none } }
  app.press { enter := true }

/-- The output of a committed line, or the message for one that was refused. -/
def reply (before after : App) : Text :=
  if before.transcript.length < after.transcript.length then
    (after.transcript.getLast?.map fun e => ("= " : Text) ++ e.output).getD []
  else
    match after.status with
    | .error message => message
    | _ => View.hint

/-- A refused line is taken back, so that the next one starts afresh. -/
def discardLine (app : App) : App :=
  if app.editor.input.isEmpty then app
  else { app with editor := { app.editor with input := [], cursor := 0 }, status := .blank }

partial def interact (input output error : IO.FS.Stream) (app : App) : IO Unit := do
  output.putStr "> "
  output.flush
  let line ← input.getLine
  if line.isEmpty then return
  let text := (Text.ofString line).filter (· != Text.unit '\n')
  match app.enterLine text with
  | none => return
  | some next => do
    let (lines, log) := next.shared.log.drain
    for parts in lines do
      error.putStrLn (Text.join " " parts).toString
    output.putStrLn (reply app next).toString
    interact input output error
      (discardLine { next with shared := { next.shared with log := log } })

end App
end Reckoner

def main : IO Unit := do
  let app := Reckoner.App.start (← Reckoner.Settings.fromProcess)
  let output ← IO.getStdout
  output.putStrLn
    (Reckoner.View.title ++ (" " : Reckoner.Text) ++ app.session.settings.summary).toString
  app.interact (← IO.getStdin) output (← IO.getStderr)
