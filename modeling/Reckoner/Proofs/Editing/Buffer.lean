import Mathlib.Data.List.Induction
import Mathlib.Logic.Function.Iterate
import Reckoner.Proofs.Editing.WellFormed

/-!
# The line as two stacks

A cursor cuts the line in two, and typing only touches the ends that meet at the cursor. A buffer of
two stacks says so without an offset: text goes onto the first stack and is taken off it again, and
the cursor moves by carrying units over from one stack to the other, one at a time. The editor has
one text and an offset into it. It holds a buffer (`Editor.Holds`), and every stroke keeps the two
together (`Editor.Holds.apply`).

The main result is `editor_simulates_buffer`.
-/

namespace Reckoner

/-- The text before a cursor and the text behind it. -/
structure Buffer where
  before : Text
  behind : Text
deriving DecidableEq

/-- The edits of the line itself. -/
inductive Stroke where
  | insert (text : Text)
  | deleteBackward
  | move (delta : Int)

def Stroke.edit : Stroke → Edit
  | insert text => .insert text
  | deleteBackward => .deleteBackward
  | move delta => .move delta

namespace Buffer

def text (b : Buffer) : Text := b.before ++ b.behind

def insert (inserted : Text) (b : Buffer) : Buffer := { b with before := b.before ++ inserted }

def deleteBackward (b : Buffer) : Buffer := { b with before := b.before.dropLast }

/-- Carries the last unit before the cursor over to the other side, if there is one. -/
def left (b : Buffer) : Buffer :=
  match b.before.getLast? with
  | some u => ⟨b.before.dropLast, u :: b.behind⟩
  | none => b

/-- Carries the first unit behind the cursor over to the other side, if there is one. -/
def right (b : Buffer) : Buffer :=
  match b.behind with
  | u :: behind => ⟨b.before ++ [u], behind⟩
  | [] => b

/-- So many units to the right, or to the left if there are less than none. -/
def move (b : Buffer) : Int → Buffer
  | .ofNat n => right^[n] b
  | .negSucc n => left^[n + 1] b

def apply (b : Buffer) : Stroke → Buffer
  | .insert text => b.insert text
  | .deleteBackward => b.deleteBackward
  | .move delta => b.move delta

/-- The buffer after some strokes. -/
def after (b : Buffer) (strokes : List Stroke) : Buffer := strokes.foldl apply b

/-! ## Moving keeps the text -/

theorem left_spec (b : Buffer) :
    b.left.text = b.text ∧ b.left.before.length = b.before.length - 1 := by
  obtain ⟨before, behind⟩ := b
  cases before using List.reverseRecOn with
  | nil => exact ⟨rfl, rfl⟩
  | append_singleton before u => simp [left, text]

theorem right_spec (b : Buffer) :
    b.right.text = b.text ∧ b.right.before.length = min b.text.length (b.before.length + 1) := by
  obtain ⟨before, behind⟩ := b
  cases behind with
  | nil => simp [right, text]
  | cons u behind => simp [right, text]

theorem left_iterate (n : Nat) (b : Buffer) :
    (left^[n] b).text = b.text ∧ (left^[n] b).before.length = b.before.length - n := by
  induction n generalizing b with
  | zero => exact ⟨rfl, rfl⟩
  | succ n ih =>
    obtain ⟨sameText, shorter⟩ := b.left_spec
    obtain ⟨kept, moved⟩ := ih b.left
    refine ⟨kept.trans sameText, ?_⟩
    rw [Function.iterate_succ_apply, moved, shorter]
    omega

theorem right_iterate (n : Nat) (b : Buffer) :
    (right^[n] b).text = b.text ∧
      (right^[n] b).before.length = min b.text.length (b.before.length + n) := by
  induction n generalizing b with
  | zero =>
    have inside : b.before.length ≤ b.text.length := by simp [text]
    exact ⟨rfl, (Nat.min_eq_right inside).symm⟩
  | succ n ih =>
    obtain ⟨sameText, longer⟩ := b.right_spec
    obtain ⟨kept, moved⟩ := ih b.right
    refine ⟨kept.trans sameText, ?_⟩
    rw [Function.iterate_succ_apply, moved, longer, sameText]
    omega

/-- **Carrying units over stops at the ends.** -/
theorem move_spec (b : Buffer) (delta : Int) :
    (b.move delta).text = b.text ∧ ((b.move delta).before.length : Int) =
      max 0 (min (b.text.length : Int) (b.before.length + delta)) := by
  have inside : b.before.length ≤ b.text.length := by simp [text]
  cases delta with
  | ofNat n =>
    obtain ⟨kept, moved⟩ := right_iterate n b
    refine ⟨kept, ?_⟩
    simp only [move, moved, Int.ofNat_eq_natCast]
    omega
  | negSucc n =>
    obtain ⟨kept, moved⟩ := left_iterate (n + 1) b
    refine ⟨kept, ?_⟩
    simp only [move, moved, Int.negSucc_eq]
    omega

/-- What is put in comes out again, one unit for each deletion. -/
theorem after_insert_delete (b : Buffer) (inserted : Text) :
    b.after (.insert inserted :: List.replicate inserted.length .deleteBackward) = b := by
  induction inserted using List.reverseRecOn with
  | nil => simp [after, apply, insert]
  | append_singleton inserted u ih =>
    have shorter : (b.insert (inserted ++ [u])).deleteBackward = b.insert inserted := by
      simp [insert, deleteBackward, ← List.append_assoc]
    simp only [after, List.foldl_cons, apply, List.length_append, List.length_singleton,
      List.replicate_succ, shorter] at ih ⊢
    exact ih

end Buffer

namespace Editor

/-- The line is the text of the buffer, with the cursor where its two sides meet. -/
structure Holds (e : Editor) (b : Buffer) : Prop where
  input : e.input = b.text
  cursor : e.cursor = b.before.length

variable {complete : Completer} {e : Editor} {b : Buffer}

theorem exists_holds (hinside : 0 ≤ e.cursor ∧ e.cursor ≤ e.input.length) :
    ∃ b : Buffer, e.Holds b := by
  refine ⟨⟨e.input.take e.cursor.toNat, e.input.drop e.cursor.toNat⟩, ?_, ?_⟩
  · exact (List.take_append_drop _ _).symm
  · simp only [List.length_take]
    omega

theorem Holds.unique {other : Buffer} (h : e.Holds b) (hother : e.Holds other) : other = b := by
  have sameText : other.before ++ other.behind = b.before ++ b.behind :=
    hother.input.symm.trans h.input
  have sameLength : other.before.length = b.before.length := by
    have sameCursor := hother.cursor.symm.trans h.cursor
    omega
  obtain ⟨hbefore, hbehind⟩ := List.append_inj sameText sameLength
  cases other
  cases b
  simp only at hbefore hbehind
  simp only [hbefore, hbehind]

/-! ## One stroke -/

theorem Holds.insert (h : e.Holds b) (complete : Completer) (text : Text) :
    (e.insert complete text).Holds (b.insert text) := by
  constructor
  · simp only [Editor.insert, offering, h.input, h.cursor, Buffer.text, Buffer.insert,
      Text.before_append, Text.after_append]
  · simp only [Editor.insert, offering, h.cursor, Buffer.insert, List.length_append]
    omega

theorem Holds.deleteBackward (h : e.Holds b) (complete : Completer) :
    ((e.deleteBackward? complete).getD e).Holds b.deleteBackward := by
  obtain ⟨before, behind⟩ := b
  have input : e.input = before ++ behind := h.input
  have cursor : e.cursor = before.length := h.cursor
  cases before using List.reverseRecOn with
  | nil =>
    have stays : e.deleteBackward? complete = none := if_pos cursor
    simp only [stays, Option.getD_none]
    exact h
  | append_singleton before u =>
    have shorter : e.cursor - 1 = before.length := by
      simp only [cursor, List.length_append, List.length_singleton]
      omega
    have moves : e.cursor ≠ 0 := by omega
    have kept : e.input.before (e.cursor - 1) = before := by
      simp only [shorter, input, List.append_assoc, Text.before_append]
    have rest : e.input.after e.cursor = behind := by
      simp only [cursor, input, Text.after_append]
    simp only [Editor.deleteBackward?, if_neg moves, Option.getD_some, Buffer.deleteBackward,
      List.dropLast_concat]
    constructor
    · simp only [offering, kept, rest, Buffer.text]
    · exact shorter

theorem Holds.move (h : e.Holds b) (delta : Int) : (e.move delta).Holds (b.move delta) := by
  obtain ⟨kept, moved⟩ := b.move_spec delta
  constructor
  · exact h.input.trans kept.symm
  · simp only [Editor.move, moved, h.input, h.cursor]

/-- **Every stroke keeps editor and buffer together.** -/
theorem Holds.apply (h : e.Holds b) (complete : Completer) (stroke : Stroke) :
    (e.apply complete stroke.edit).Holds (b.apply stroke) := by
  cases stroke with
  | insert text => exact h.insert complete text
  | deleteBackward => exact h.deleteBackward complete
  | move delta => exact h.move delta

theorem Holds.after (h : e.Holds b) (complete : Completer) (strokes : List Stroke) :
    (e.after complete (strokes.map Stroke.edit)).Holds (b.after strokes) := by
  induction strokes generalizing e b with
  | nil => exact h
  | cons stroke rest ih => exact ih (h.apply complete stroke)

/-- A stroke leaves the history alone, and which line of it is shown. -/
theorem history_stroke (e : Editor) (complete : Completer) (stroke : Stroke) :
    (e.apply complete stroke.edit).history = e.history ∧
      (e.apply complete stroke.edit).historyIndex = e.historyIndex := by
  cases stroke with
  | insert text => exact ⟨rfl, rfl⟩
  | deleteBackward =>
    simp only [apply, Stroke.edit, change?, deleteBackward?]
    split <;> exact ⟨rfl, rfl⟩
  | move delta => exact ⟨rfl, rfl⟩

theorem history_strokes (e : Editor) (complete : Completer) (strokes : List Stroke) :
    (e.after complete (strokes.map Stroke.edit)).history = e.history ∧
      (e.after complete (strokes.map Stroke.edit)).historyIndex = e.historyIndex := by
  induction strokes generalizing e with
  | nil => exact ⟨rfl, rfl⟩
  | cons stroke rest ih =>
    obtain ⟨sameHistory, sameIndex⟩ := e.history_stroke complete stroke
    obtain ⟨history, index⟩ := ih (e.apply complete stroke.edit)
    exact ⟨history.trans sameHistory, index.trans sameIndex⟩

end Editor

/-- **The line editor is a buffer of two stacks.** With the cursor inside the line there is just one
way to cut the line in two at the cursor. After any strokes the line and the cursor are those of the
buffer after the same strokes, whatever names are on offer, and history and place in it are what
they were. So deleting as often as the inserted text has units brings back line and cursor. -/
theorem editor_simulates_buffer (complete : Completer) (e : Editor)
    (hinside : 0 ≤ e.cursor ∧ e.cursor ≤ e.input.length) :
    (∃! b : Buffer, e.input = b.before ++ b.behind ∧ e.cursor = b.before.length) ∧
    (∀ b : Buffer, e.input = b.before ++ b.behind ∧ e.cursor = b.before.length →
      ∀ strokes : List Stroke,
        let typed := e.after complete (strokes.map Stroke.edit)
        typed.input = (b.after strokes).before ++ (b.after strokes).behind ∧
        typed.cursor = (b.after strokes).before.length ∧
        typed.history = e.history ∧ typed.historyIndex = e.historyIndex) ∧
    ∀ text : Text,
      let typed := e.after complete (.insert text :: List.replicate text.length .deleteBackward)
      typed.input = e.input ∧ typed.cursor = e.cursor := by
  obtain ⟨b, hb⟩ := Editor.exists_holds hinside
  refine ⟨⟨b, ⟨hb.input, hb.cursor⟩, fun other h => hb.unique ⟨h.1, h.2⟩⟩, ?_, ?_⟩
  · intro b hcut strokes
    have holds : e.Holds b := ⟨hcut.1, hcut.2⟩
    have run := holds.after complete strokes
    exact ⟨run.input, run.cursor, e.history_strokes complete strokes⟩
  · intro text
    have run := hb.after complete (.insert text :: List.replicate text.length .deleteBackward)
    simp only [Buffer.after_insert_delete, List.map_cons, List.map_replicate] at run
    exact ⟨run.input.trans hb.input.symm, run.cursor.trans hb.cursor.symm⟩

/-- Moving back by more than there is stops at the beginning, where there is nothing to delete. -/
theorem editor_simulates_buffer_at_ends :
    let e : Editor := ⟨"13", 1, ["2*s"], 0, none⟩
    let strokes : List Stroke :=
      [.insert "2", .move (-7), .deleteBackward, .move 9, .deleteBackward]
    (0 ≤ e.cursor ∧ e.cursor ≤ e.input.length) ∧
    (⟨"1", "3"⟩ : Buffer).after strokes = ⟨"12", []⟩ ∧
    (e.after (fun _ => ["sin"]) (strokes.map Stroke.edit)).input = "12" ∧
    (e.after (fun _ => ["sin"]) (strokes.map Stroke.edit)).cursor = 2 ∧
    (e.after (fun _ => ["sin"]) [.insert "x+", .deleteBackward, .deleteBackward]).input = "13" := by
  intro e strokes
  have hinside : 0 ≤ e.cursor ∧ e.cursor ≤ e.input.length := by decide
  have hafter : (⟨"1", "3"⟩ : Buffer).after strokes = ⟨"12", []⟩ := by decide
  obtain ⟨-, htyped, hback⟩ := editor_simulates_buffer (fun _ => ["sin"]) e hinside
  obtain ⟨hinput, hcursor, -⟩ := htyped ⟨"1", "3"⟩ (by decide) strokes
  simp only [hafter, List.append_nil] at hinput hcursor
  exact ⟨hinside, hafter, hinput, hcursor, (hback "x+").1⟩

end Reckoner
