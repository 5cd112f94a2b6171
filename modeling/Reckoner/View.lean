import Reckoner.Editor
import Reckoner.Highlight
import Reckoner.Settings

/-!
What is on the screen: boxes and styled text, as a tree.
-/

namespace Reckoner

inductive Border where
  | round
  | single
deriving DecidableEq

structure BoxStyle where
  column : Bool := false
  border : Option (Border × Color) := none
  spaceBetween : Bool := false
  paddingX : Option Nat := none
  marginTop : Option Nat := none
  height : Option Nat := none
  width : Option Nat := none

structure TextStyle where
  color : Option Color := none
  backgroundColor : Option Color := none
  bold : Bool := false
  dim : Bool := false
  inverse : Bool := false

/-- A `permanent` part stays on the screen above everything that changes. -/
inductive View where
  | box (style : BoxStyle) (children : List View)
  | text (style : TextStyle) (children : List View)
  | permanent (children : List View)
  | plain (text : Text)

/-- A committed line and what it gave. -/
structure Entry where
  id : Nat
  input : Text
  tokens : List Token
  output : Text

/-- What is known about the line being edited. -/
inductive Status where
  | blank
  | result (output : Text)
  | error (message : Text)
deriving DecidableEq

namespace View

def line (input : Text) (tokens : List Token) (cursor : Option Int) : View :=
  .text {} ((StyledRun.ofLine input tokens cursor).map fun run =>
    .text { color := run.color, inverse := run.inverse } [.plain run.text])

def entry (e : Entry) : View :=
  .box { column := true, marginTop := some 1 }
    [line e.input e.tokens none,
      .text {} [.plain "= ", .text { color := some .red } [.plain e.output]]]

def title : Text := "Tally"

def header (settings : Settings) : View :=
  .box { border := some (.round, .green), paddingX := some 1, spaceBetween := true }
    [.text { bold := true, color := some .green } [.plain title],
      .text { dim := true } [.plain settings.summary]]

def hint : Text := "Enter: evaluate | Tab: complete | Up/Down: history | Esc: exit"

def status (s : Status) : View :=
  let content :=
    match s with
    | .result output =>
      .text {} [.plain "Current result ", .text { color := some .red } [.plain output]]
    | .error message => .text { color := some .yellow } [.plain message]
    | .blank => .text { dim := true } [.plain hint]
  .box { paddingX := some 1, height := some 1 } [content]

def input (e : Editor) (tokens : List Token) : View :=
  .box { border := some (.single, .gray), paddingX := some 1 }
    [.text { color := some .green, bold := true } [.plain "> "],
      line e.input tokens (some e.cursor)]

/-- The rows of a completion list that are shown at a time. -/
def maxVisible : Nat := 6

/-- The first item shown, so that the selected one is among those shown. -/
def firstVisible (c : Completion) : Nat := (c.index - maxVisible + 1).toNat

def completion (c : Completion) : View :=
  let first := firstVisible c
  let visible := (c.items.drop first).take maxVisible
  .box { column := true, paddingX := some 2, width := some 34 }
    (visible.zipIdx.map fun (name, offset) =>
      .text { backgroundColor := if (first + offset : Int) = c.index then some .gray else none }
        [.plain name])

end View
end Reckoner
