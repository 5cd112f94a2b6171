import Reckoner.Identifier

/-!
The line editor: a line with a cursor, the history of submitted lines, and a list of
completions for the identifier before the cursor while it is open.
-/

namespace Reckoner

/-- Completions on offer, and which one is selected. -/
structure Completion where
  items : List Text
  index : Int
deriving DecidableEq

structure Editor where
  input : Text
  cursor : Int
  history : List Text
  /-- The line shown; the length of the history while a fresh line is edited. -/
  historyIndex : Int
  completion : Option Completion
deriving DecidableEq

/-- The names on offer for the beginning of one. -/
abbrev Completer := Text → List Text

/-- The item at an index that may lie outside of the list. -/
def itemAt? (items : List Text) (index : Int) : Option Text :=
  if index < 0 then none else items[index.toNat]?

namespace Completion

def selected? (c : Completion) : Option Text := itemAt? c.items c.index

def up (c : Completion) : Completion := { c with index := max 0 (c.index - 1) }

def down (c : Completion) : Completion := { c with index := min (c.items.length - 1) (c.index + 1) }

/-- An open list with its first item selected, unless nothing is on offer. -/
def offer? (items : List Text) : Option Completion :=
  if items.isEmpty then none else some ⟨items, 0⟩

end Completion

namespace Editor

def initial : Editor := ⟨[], 0, [], 0, none⟩

def identifier? (e : Editor) : Option Span := e.input.identifierSpan e.cursor

/-- Offers completions for the identifier before the cursor. -/
def offering (complete : Completer) (e : Editor) : Editor :=
  let items :=
    match e.identifier? with
    | some span => complete (e.input.slice span.start span.stop)
    | none => []
  { e with completion := Completion.offer? items }

def insert (complete : Completer) (text : Text) (e : Editor) : Editor :=
  offering complete
    { e with
      input := e.input.before e.cursor ++ text ++ e.input.after e.cursor
      cursor := e.cursor + text.length }

/-- Deletes the unit before the cursor, if there is one. -/
def deleteBackward? (complete : Completer) (e : Editor) : Option Editor :=
  if e.cursor = 0 then none
  else
    some <| offering complete
      { e with
        input := e.input.before (e.cursor - 1) ++ e.input.after e.cursor
        cursor := e.cursor - 1 }

/-- Moves the cursor, not beyond the ends of the line. -/
def move (delta : Int) (e : Editor) : Editor :=
  { e with cursor := max 0 (min (e.input.length : Int) (e.cursor + delta)) }

/-- Shows a line of the history, an empty one outside of it. -/
def showLine (index : Int) (e : Editor) : Editor :=
  let input := (itemAt? e.history index).getD []
  { e with historyIndex := index, input := input, cursor := input.length }

/-- Selects the item above in an open list, else recalls the line before. -/
def up? (e : Editor) : Option Editor :=
  match e.completion with
  | some c => some { e with completion := some c.up }
  | none => if e.historyIndex = 0 then none else some (e.showLine (e.historyIndex - 1))

/-- Selects the item below in an open list, else recalls the line after. -/
def down? (e : Editor) : Option Editor :=
  match e.completion with
  | some c => some { e with completion := some c.down }
  | none =>
    if (e.history.length : Int) ≤ e.historyIndex then none
    else some (e.showLine (e.historyIndex + 1))

/-- Replaces the identifier before the cursor by the selected item, and closes the list. -/
def accept (e : Editor) : Editor :=
  match e.completion.bind Completion.selected?, e.identifier? with
  | some choice, some span =>
    { e with
      input := e.input.before span.start ++ choice ++ e.input.after span.stop
      cursor := span.start + choice.length
      completion := none }
  | _, _ => { e with completion := none }

/-- Appends the line to the history and starts a fresh one. -/
def submit (e : Editor) : Editor :=
  ⟨[], 0, e.history ++ [e.input], e.history.length + 1, none⟩

end Editor

inductive Edit where
  | insert (text : Text)
  | deleteBackward
  | move (delta : Int)
  | up
  | down
  | accept
  | submit

namespace Editor

/-- The editor after an edit, or nothing if the edit does not apply. -/
def change? (complete : Completer) (e : Editor) : Edit → Option Editor
  | .insert text => some (e.insert complete text)
  | .deleteBackward => e.deleteBackward? complete
  | .move delta => some (e.move delta)
  | .up => e.up?
  | .down => e.down?
  | .accept => some e.accept
  | .submit => some e.submit

def apply (complete : Completer) (e : Editor) (edit : Edit) : Editor :=
  (e.change? complete edit).getD e

end Editor
end Reckoner
