import Reckoner.Session
import Reckoner.View

/-!
The interactive calculator: a session, an editor, and the transcript of what was committed.

The status line previews the line being edited. It is worked out again only when that line or
the transcript has changed.
-/

namespace Reckoner

/-- A key as a terminal reports it: some text, and which special keys are down. -/
structure KeyPress where
  input : Text := []
  escape : Bool := false
  tab : Bool := false
  enter : Bool := false
  up : Bool := false
  down : Bool := false
  left : Bool := false
  right : Bool := false
  backspace : Bool := false
  delete : Bool := false
  ctrl : Bool := false
  alt : Bool := false

/-- What a key asks for. -/
inductive Command where
  | exit
  | enter
  | edit (edit : Edit)
  | ignore

/-- Text that is not empty and has nothing but printable ASCII in it. -/
def Text.isPrintable (t : Text) : Bool := !t.isEmpty && t.all fun u => 0x20 ≤ u && u ≤ 0x7E

/-- The first special key counts. Terminals often report backspace as delete. -/
def KeyPress.command (key : KeyPress) : Command :=
  if key.escape then .exit
  else if key.tab then .edit .accept
  else if key.enter then .enter
  else if key.up then .edit .up
  else if key.down then .edit .down
  else if key.left then .edit (.move (-1))
  else if key.right then .edit (.move 1)
  else if key.backspace || key.delete then .edit .deleteBackward
  else if !key.ctrl && !key.alt && key.input.isPrintable then .edit (.insert key.input)
  else .ignore

structure App where
  session : Session
  shared : Shared
  editor : Editor
  transcript : List Entry
  /-- The number of the entry that comes next. -/
  nextId : Nat
  status : Status

namespace App

def start (settings : Settings) : App :=
  let (session, shared) := Session.start settings .initial
  ⟨session, shared, .initial, [], 1, .blank⟩

def completer (app : App) : Completer := fun start => (app.session.complete start).map (·.1)

/-- Previews the line being edited. -/
def refresh (app : App) : App :=
  if app.editor.input.allBlank then { app with status := .blank }
  else
    let (result, shared) := app.session.preview app.editor.input app.shared
    let status :=
      match result with
      | .ok answer => .result answer.output
      | .error refusal => .error refusal.message
    { app with shared := shared, status := status }

def edit (app : App) (e : Edit) : App :=
  let editor := app.editor.apply app.completer e
  let next := { app with editor := editor }
  if editor.input = app.editor.input then next else next.refresh

/-- Commits the line. Only a successful one is recorded. -/
def commit (app : App) : App :=
  let input := app.editor.input
  let (result, session, shared) := app.session.commit input app.shared
  let app := { app with session := session, shared := shared }
  match result with
  | .ok answer =>
    let entry := ⟨app.nextId, input, Session.tokens shared input, answer.output⟩
    refresh { app with
      editor := app.editor.submit
      transcript := app.transcript ++ [entry]
      nextId := app.nextId + 1 }
  | .error _ => app

/-- The enter key accepts a completion while a list is open, and commits a line that is not
blank otherwise. -/
def enter (app : App) : App :=
  if app.editor.completion.isSome then app.edit .accept
  else if app.editor.input.allBlank then app
  else app.commit

/-- The calculator after a key, or nothing once it has been left. -/
def press (app : App) (key : KeyPress) : Option App :=
  match key.command with
  | .exit => none
  | .enter => some app.enter
  | .edit e => some (app.edit e)
  | .ignore => some app

def view (app : App) : View :=
  .box { column := true }
    ([.permanent (app.transcript.map View.entry),
      View.header app.session.settings,
      View.status app.status,
      View.input app.editor (Session.tokens app.shared app.editor.input)] ++
        (app.editor.completion.map View.completion).toList)

end App
end Reckoner
