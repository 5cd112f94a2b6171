import Reckoner.Token

/-!
Colours of tokens, and a line cut into runs of equal style.
-/

namespace Reckoner

inductive Color where
  | cyan
  | magenta
  | blue
  | red
  | gray
  | green
  | yellow
deriving DecidableEq

def Color.name : Color → Text
  | cyan => "cyan"
  | magenta => "magenta"
  | blue => "blue"
  | red => "red"
  | gray => "gray"
  | green => "green"
  | yellow => "yellow"

/-- The colour of a token. A name in front of a parenthesis is a function's. -/
def Token.color (t : Token) (next : Option Token) : Option Color :=
  match t.kind with
  | .plus => some .cyan
  | .minus => some .cyan
  | .star => some .cyan
  | .slash => some .cyan
  | .caret => some .cyan
  | .number _ => some .magenta
  | .identifier => some (if next.map (·.kind) = some .leftParen then .blue else .red)
  | .leftParen => some .gray
  | .rightParen => some .gray
  | _ => none

/-- Each token with its colour. -/
def Token.colored : List Token → List (Token × Option Color)
  | [] => []
  | t :: rest => (t, t.color rest.head?) :: colored rest

def Token.covers (t : Token) (offset : Nat) : Bool := t.start ≤ offset && (offset : Int) < t.stop

structure StyledRun where
  text : Text
  color : Option Color
  inverse : Bool
deriving DecidableEq

namespace StyledRun

/-- Gives the units of a token its colour, as far as the line goes. -/
def paint (colors : List (Option Color)) (entry : Token × Option Color) : List (Option Color) :=
  let first := entry.1.start.toNat
  let behind := (min entry.1.stop colors.length).toNat
  (List.range' first (behind - first)).foldl (fun colors offset => colors.set offset entry.2) colors

/-- The colours of the units of a line. A token paints over the tokens in front of it. -/
def colors (length : Nat) (tokens : List (Token × Option Color)) : List (Option Color) :=
  tokens.foldl paint (List.replicate length none)

/-- The units of a line, each as a run of its own, with a space for a cursor at the end. The space
has no colour. -/
def cells (input : Text) (colors : List (Option Color)) (cursor : Option Int) : List StyledRun :=
  let text := if cursor = some (input.length : Int) then input ++ [Text.unit ' '] else input
  text.zipIdx.map fun (u, offset) =>
    ⟨[u], colors[offset]?.join, cursor = some (offset : Int)⟩

/-- A line that is being cut: the runs that are finished, and the one that may still grow. -/
structure Cut where
  runs : List StyledRun
  current : Option StyledRun

/-- Adds a unit to the current run if the two have one style. Otherwise the current run is
finished, and the unit begins another one. -/
def Cut.add (cut : Cut) (cell : StyledRun) : Cut :=
  match cut.current with
  | none => { cut with current := some cell }
  | some current =>
    if current.color = cell.color ∧ current.inverse = cell.inverse then
      { cut with current := some { current with text := current.text ++ cell.text } }
    else ⟨cut.runs ++ [current], some cell⟩

def Cut.finish (cut : Cut) : List StyledRun := cut.runs ++ cut.current.toList

/-- Runs of equal style. The unit under the cursor is inverted, and a space is added for a
cursor at the end. -/
def ofLine (input : Text) (tokens : List Token) (cursor : Option Int) : List StyledRun :=
  let painted := colors input.length (Token.colored tokens)
  ((cells input painted cursor).foldl Cut.add ⟨[], none⟩).finish

end StyledRun
end Reckoner
