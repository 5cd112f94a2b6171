import Mathlib.Data.List.Induction
import Reckoner.Proofs.Editing.WellFormed

/-!
# What an open list is about

Names are offered when something is inserted or deleted, for the identifier that is before the
cursor then. From there on a list stays open over edits that keep the line (`open_apply_cases`), and
moving the cursor is one of them. So an open list is about the identifier at the place where the
line was last typed in (`offers_for_typed_identifier`). That is the identifier before the cursor as
long as the cursor stays there, but not if it has been moved (`moved_cursor_keeps_list`).
-/

namespace Reckoner

/-- The edit puts text into the line or takes some out of it. -/
def Edit.isTyping : Edit → Bool
  | .insert _ => true
  | .deleteBackward => true
  | _ => false

namespace Editor

variable {complete : Completer} {e : Editor}

/-- The items are what is on offer for the identifier before the cursor. -/
def Offers (complete : Completer) (e : Editor) (items : List Text) : Prop :=
  ∃ span, e.identifier? = some span ∧ items = complete (e.input.slice span.start span.stop)

theorem offers_of_offering {c : Completion} (h : (e.offering complete).completion = some c) :
    (e.offering complete).Offers complete c.items := by
  cases hspan : e.identifier? with
  | none =>
    simp only [offering, hspan] at h
    cases h
  | some span =>
    simp only [offering, hspan] at h
    exact ⟨span, hspan, (Completion.offer?_eq_some h).1⟩

/-- The list was open with the same items, the line is as it was, and so is the cursor unless it was
the one thing that moved. -/
structure Keeps (e next : Editor) (edit : Edit) (items : List Text) : Prop where
  items : ∃ c, e.completion = some c ∧ c.items = items
  input : next.input = e.input
  cursor : (∀ delta, edit ≠ .move delta) → next.cursor = e.cursor

theorem Keeps.of_none {edit : Edit} {c : Completion} (hnone : e.change? complete edit = none)
    (h : (e.apply complete edit).completion = some c) :
    e.Keeps (e.apply complete edit) edit c.items := by
  have happly : e.apply complete edit = e := by rw [apply, hnone, Option.getD_none]
  rw [happly] at h ⊢
  exact ⟨⟨c, h, rfl⟩, rfl, fun _ => rfl⟩

/-- A list stays closed over edits that do not type. -/
theorem closed_apply {edit : Edit} (hedit : edit.isTyping = false) (h : e.completion = none) :
    (e.apply complete edit).completion = none := by
  unfold apply
  cases edit with
  | insert text => cases hedit
  | deleteBackward => cases hedit
  | move delta => exact h
  | up =>
    simp only [change?, up?, h]
    split <;> exact h
  | down =>
    simp only [change?, down?, h]
    split <;> exact h
  | accept =>
    simp only [change?, accept]
    split <;> rfl
  | submit => rfl

/-- **A list that is open behind an edit** was either offered by that edit, for the identifier
before the cursor, or kept by it. -/
theorem open_apply_cases {edit : Edit} {c : Completion}
    (h : (e.apply complete edit).completion = some c) :
    edit.isTyping = true ∧ (e.apply complete edit).Offers complete c.items ∨
      e.Keeps (e.apply complete edit) edit c.items := by
  have hopen (hedit : edit.isTyping = false) : ∃ old, e.completion = some old := by
    apply Option.ne_none_iff_exists'.mp
    intro hclosed
    rw [closed_apply hedit hclosed] at h
    cases h
  cases edit with
  | insert text => exact .inl ⟨rfl, offers_of_offering h⟩
  | deleteBackward =>
    by_cases hstart : e.cursor = 0
    · exact .inr (.of_none (if_pos hstart) h)
    · have hnext : e.change? complete .deleteBackward = some _ := if_neg hstart
      rw [apply, hnext, Option.getD_some] at h ⊢
      exact .inl ⟨rfl, offers_of_offering h⟩
  | move delta => exact .inr ⟨⟨c, h, rfl⟩, rfl, fun hmove => absurd rfl (hmove delta)⟩
  | up =>
    obtain ⟨old, hold⟩ := hopen rfl
    have hnext : e.apply complete .up = { e with completion := some old.up } := by
      simp only [apply, change?, up?, hold, Option.getD_some]
    rw [hnext] at h ⊢
    cases h
    exact .inr ⟨⟨old, hold, rfl⟩, rfl, fun _ => rfl⟩
  | down =>
    obtain ⟨old, hold⟩ := hopen rfl
    have hnext : e.apply complete .down = { e with completion := some old.down } := by
      simp only [apply, change?, down?, hold, Option.getD_some]
    rw [hnext] at h ⊢
    cases h
    exact .inr ⟨⟨old, hold, rfl⟩, rfl, fun _ => rfl⟩
  | accept =>
    have hclosed : e.accept.completion = none := by
      unfold accept
      split <;> rfl
    have hopened : none = some c := hclosed.symm.trans h
    cases hopened
  | submit => cases h

/-! ## Runs -/

theorem after_concat (e : Editor) (complete : Completer) (edits : List Edit) (edit : Edit) :
    e.after complete (edits ++ [edit]) = (e.after complete edits).apply complete edit :=
  List.foldl_append

/-- The edit that opened the list, and what has come since. -/
structure Opened (complete : Completer) (start : Editor) (edits : List Edit) (items : List Text)
    (earlier : List Edit) (edit : Edit) (later : List Edit) : Prop where
  split : edits = earlier ++ edit :: later
  typing : edit.isTyping = true
  offers : (start.after complete (earlier ++ [edit])).Offers complete items
  input : (start.after complete edits).input = (start.after complete (earlier ++ [edit])).input
  cursor : (∀ delta, .move delta ∉ later) →
    (start.after complete edits).cursor = (start.after complete (earlier ++ [edit])).cursor

/-- **Every open list was opened by typing**, and the line has not changed since. -/
theorem opened_of_open {start : Editor} (hstart : start.completion = none) (edits : List Edit)
    {c : Completion} (h : (start.after complete edits).completion = some c) :
    ∃ earlier edit later, Opened complete start edits c.items earlier edit later := by
  induction edits using List.reverseRecOn generalizing c with
  | nil =>
    have hopened : none = some c := hstart.symm.trans h
    cases hopened
  | append_singleton edits last ih =>
    rw [after_concat] at h
    rcases open_apply_cases h with ⟨htyping, hoffers⟩ | ⟨⟨old, hold, hitems⟩, hinput, hcursor⟩
    · refine ⟨edits, last, [], rfl, htyping, ?_, rfl, fun _ => rfl⟩
      rw [after_concat]
      exact hoffers
    · obtain ⟨earlier, edit, later, hopened⟩ := ih hold
      rw [hitems] at hopened
      refine ⟨earlier, edit, later ++ [last], ?_, hopened.typing, hopened.offers, ?_, ?_⟩
      · rw [hopened.split, List.append_assoc, List.cons_append]
      · rw [after_concat, hinput]
        exact hopened.input
      · intro hmoves
        rw [after_concat, hcursor]
        · apply hopened.cursor
          intro delta hmove
          exact hmoves delta (List.mem_append_left _ hmove)
        · rintro delta rfl
          exact hmoves delta (List.mem_append_right _ (List.mem_singleton_self _))

end Editor

/-- **An open list is about the identifier where the line was last typed in.** Whenever a list is
open after some edits, there is an edit among them that typed, and left the cursor behind an
identifier, such that the items are what the completer has for that identifier, and the line has not
changed since. If the cursor has not been moved since, it is where it was. And if it is there, that
is the identifier before the cursor, and accepting puts one of the names that were offered for it
into its place. -/
theorem offers_for_typed_identifier (complete : Completer) (edits : List Edit) {c : Completion} :
    let e := Editor.initial.after complete edits
    e.completion = some c →
    ∃ earlier edit later span, edits = earlier ++ edit :: later ∧ edit.isTyping = true ∧
      let typed := Editor.initial.after complete (earlier ++ [edit])
      e.input = typed.input ∧ typed.identifier? = some span ∧ (span.stop : Int) = typed.cursor ∧
      c.items = complete (e.input.slice span.start span.stop) ∧
      ((∀ delta, .move delta ∉ later) → e.cursor = typed.cursor) ∧
      (e.cursor = typed.cursor → e.identifier? = some span ∧
        ∃ name ∈ complete (e.input.slice span.start span.stop),
          (e.apply complete .accept).input =
            e.input.before span.start ++ name ++ e.input.after span.stop) := by
  intro e hopen
  obtain ⟨earlier, edit, later, hopened⟩ := Editor.opened_of_open rfl edits hopen
  obtain ⟨span, hspan, hitems⟩ := hopened.offers
  rw [← hopened.input] at hitems
  refine ⟨earlier, edit, later, span, hopened.split, hopened.typing, hopened.input, hspan,
    (Text.identifierSpan_bounds hspan).2.1, hitems, hopened.cursor, ?_⟩
  intro hcursor
  have hidentifier : e.identifier? = some span := by
    have hline : e.input = (Editor.initial.after complete (earlier ++ [edit])).input :=
      hopened.input
    rw [Editor.identifier?, hcursor, hline]
    exact hspan
  have hlist : c.WellFormed :=
    (Editor.WellFormed.initial.after complete edits).completion c hopen
  obtain ⟨above, name, below, hnames, -, hselected⟩ := hlist.split
  refine ⟨hidentifier, name, ?_, ?_⟩
  · rw [← hitems, hnames]
    exact List.mem_append_right _ List.mem_cons_self
  · exact congrArg Editor.input (Editor.accept_of_some hopen hselected hidentifier)

/-- The cursor goes to another identifier and back before the second name is accepted. -/
theorem offers_for_typed_identifier_returning :
    let names : List Text := ["sin", "sqrt", "sum", "x"]
    let complete : Completer := fun start => names.filter start.isPrefixOf
    let e := Editor.initial.after complete [.insert "x+s", .move (-2), .down, .move 2]
    e.completion = some ⟨["sin", "sqrt", "sum"], 1⟩ ∧
    ∃ span, e.identifier? = some span ∧
      ∃ name ∈ complete (e.input.slice span.start span.stop),
        (e.apply complete .accept).input =
          e.input.before span.start ++ name ++ e.input.after span.stop := by
  intro names complete e
  have hopen : e.completion = some ⟨["sin", "sqrt", "sum"], 1⟩ := by decide
  obtain ⟨earlier, edit, later, span, hsplit, htyping, -, -, -, -, -, hback⟩ :=
    offers_for_typed_identifier complete [.insert "x+s", .move (-2), .down, .move 2] hopen
  -- The insertion is the only edit that types.
  obtain ⟨rfl, rfl⟩ : earlier = [] ∧ edit = .insert "x+s" := by
    cases earlier with
    | nil =>
      cases hsplit
      exact ⟨rfl, rfl⟩
    | cons first rest =>
      have hmem : edit ∈ [.move (-2), .down, .move 2] := by
        rw [(List.cons.inj hsplit).2]
        exact List.mem_append_right _ List.mem_cons_self
      simp only [List.mem_cons, List.not_mem_nil, or_false] at hmem
      rcases hmem with rfl | rfl | rfl <;> cases htyping
  exact ⟨hopen, span, hback rfl⟩

/-- A moved cursor keeps the list, although there may be no identifier before it, or another one.
Then accepting replaces an identifier by a name that was not offered for it. -/
theorem moved_cursor_keeps_list :
    let complete : Completer := fun start => (["sin"] : List Text).filter start.isPrefixOf
    let front := Editor.initial.after complete [.insert "s", .move (-1)]
    let other := Editor.initial.after complete [.insert "y+s", .move (-2)]
    front.completion = some ⟨["sin"], 0⟩ ∧ front.identifier? = none ∧
    other.completion = some ⟨["sin"], 0⟩ ∧ other.identifier? = some ⟨0, 1⟩ ∧
    complete (other.input.slice 0 1) = [] ∧
    (other.apply complete .accept).input = "sin+s" := by
  decide

end Reckoner
