import Reckoner.View

/-!
# Edits keep the editor well formed

After any edits the cursor is inside the line, the line shown is one of the history or the fresh one
behind it, and an open list has its selection among its items (`Editor.WellFormed`). The history
changes by a submission only. With the selection among the items, the rows on the screen are a
stretch of the items with just the selected one marked (`View.completion_rows`).

The main result is `editing_keeps_bounds`.
-/

namespace Reckoner

/-! ## Identifiers -/

namespace Text

theorem leftmostLetter_lt {front : Text} {offset start : Nat} (hlength : front.length ≤ offset)
    (h : leftmostLetter front offset = some start) : start < offset := by
  induction front generalizing offset with
  | nil => cases h
  | cons u front ih =>
    rw [List.length_cons] at hlength
    unfold leftmostLetter at h
    split at h
    · rcases Option.or_eq_some_iff.mp h with hbefore | ⟨-, hhere⟩
      · have hlt := ih (by omega) hbefore
        omega
      · split at hhere
        · cases hhere
          omega
        · cases hhere
    · cases h

/-- An identifier in front of an offset ends there and is not empty. -/
theorem identifierSpan_bounds {t : Text} {offset : Int} {span : Span}
    (h : t.identifierSpan offset = some span) :
    span.start < span.stop ∧ (span.stop : Int) = offset ∧ span.stop ≤ t.length := by
  unfold identifierSpan at h
  split at h
  · rename_i hinside
    obtain ⟨start, hstart, rfl⟩ := Option.map_eq_some_iff.mp h
    have hlt : start < offset.toNat := by
      apply leftmostLetter_lt _ hstart
      rw [List.length_reverse]
      exact List.length_take_le _ _
    refine ⟨hlt, ?_, ?_⟩
    · simp only
      omega
    · simp only
      omega
  · cases h

end Text

/-! ## Well-formed editors -/

/-- The selection is one of the items. -/
structure Completion.WellFormed (c : Completion) : Prop where
  nonneg : 0 ≤ c.index
  lt : c.index < c.items.length

namespace Completion

variable {c : Completion}

theorem WellFormed.items_ne_nil (h : c.WellFormed) : c.items ≠ [] := by
  intro hempty
  have hlt := h.lt
  have hnonneg := h.nonneg
  rw [hempty, List.length_nil] at hlt
  omega

theorem WellFormed.up (h : c.WellFormed) : c.up.WellFormed := by
  have hnonneg := h.nonneg
  have hlt := h.lt
  constructor
  · exact Int.le_max_left _ _
  · simp only [Completion.up]
    omega

theorem WellFormed.down (h : c.WellFormed) : c.down.WellFormed := by
  have hnonneg := h.nonneg
  have hlt := h.lt
  constructor
  · simp only [Completion.down]
    omega
  · simp only [Completion.down]
    omega

theorem offer?_eq_some {items : List Text} (h : offer? items = some c) :
    c.items = items ∧ c.WellFormed := by
  unfold offer? at h
  split at h
  · cases h
  · rename_i hempty
    cases h
    refine ⟨rfl, Int.le_refl 0, Int.ofNat_lt.mpr (List.length_pos_iff.mpr ?_)⟩
    rintro rfl
    exact hempty rfl

/-- The items above the selected one, the selected one, and the items below it. -/
theorem WellFormed.split (h : c.WellFormed) : ∃ above name below,
    c.items = above ++ name :: below ∧ c.index = above.length ∧ c.selected? = some name := by
  obtain ⟨hnonneg, hlt⟩ := h
  have hinside : c.index.toNat < c.items.length := by omega
  have hitems : c.items = c.items.take c.index.toNat ++
      c.items[c.index.toNat] :: c.items.drop (c.index.toNat + 1) := by
    rw [← List.drop_eq_getElem_cons hinside, List.take_append_drop]
  refine ⟨_, _, _, hitems, ?_, ?_⟩
  · rw [List.length_take]
    omega
  · rw [selected?, itemAt?, if_neg (by omega)]
    exact List.getElem?_eq_getElem hinside

end Completion

namespace Editor

/-- The editor after some edits. -/
def after (complete : Completer) (e : Editor) (edits : List Edit) : Editor :=
  edits.foldl (apply complete) e

structure WellFormed (e : Editor) : Prop where
  cursor : 0 ≤ e.cursor ∧ e.cursor ≤ e.input.length
  historyIndex : 0 ≤ e.historyIndex ∧ e.historyIndex ≤ e.history.length
  completion : ∀ c ∈ e.completion, c.WellFormed

variable {complete : Completer} {e : Editor}

theorem WellFormed.initial : initial.WellFormed :=
  ⟨by decide, by decide, nofun⟩

/-- The line in front of the cursor and behind it. -/
theorem WellFormed.halves (h : e.WellFormed) :
    ∃ front back, e.input = front ++ back ∧ e.cursor = front.length := by
  obtain ⟨hlow, hhigh⟩ := h.cursor
  refine ⟨e.input.take e.cursor.toNat, e.input.drop e.cursor.toNat, ?_, ?_⟩
  · exact (List.take_append_drop _ _).symm
  · rw [List.length_take]
    omega

/-! ## One edit -/

theorem WellFormed.offering (h : e.WellFormed) (complete : Completer) :
    (e.offering complete).WellFormed :=
  ⟨h.cursor, h.historyIndex, fun _ hc => (Completion.offer?_eq_some hc).2⟩

theorem WellFormed.insert (h : e.WellFormed) (complete : Completer) (text : Text) :
    (e.insert complete text).WellFormed := by
  obtain ⟨front, back, hinput, hcursor⟩ := h.halves
  apply WellFormed.offering
  refine ⟨?_, h.historyIndex, h.completion⟩
  simp only [hinput, hcursor, Text.before_append, Text.after_append, List.length_append]
  omega

theorem WellFormed.deleteBackward? {next : Editor} (h : e.WellFormed)
    (hnext : e.deleteBackward? complete = some next) : next.WellFormed := by
  unfold Editor.deleteBackward? at hnext
  split at hnext
  · cases hnext
  · rename_i hcursor
    cases hnext
    obtain ⟨front, back, hinput, hlength⟩ := h.halves
    obtain ⟨kept, last, rfl⟩ : ∃ kept last, front = kept ++ [last] := by
      refine ⟨front.dropLast, front.getLast ?_, (List.dropLast_concat_getLast _).symm⟩
      rintro rfl
      exact hcursor hlength
    have hkept : e.cursor - 1 = kept.length := by
      rw [hlength, List.length_append, List.length_singleton]
      omega
    have hfront : e.input.before (e.cursor - 1) = kept := by
      rw [hkept, hinput, List.append_assoc, Text.before_append]
    have hback : e.input.after e.cursor = back := by
      rw [hlength, hinput, Text.after_append]
    apply WellFormed.offering
    refine ⟨?_, h.historyIndex, h.completion⟩
    simp only [hfront, hback, List.length_append]
    omega

theorem WellFormed.move (h : e.WellFormed) (delta : Int) : (e.move delta).WellFormed := by
  refine ⟨?_, h.historyIndex, h.completion⟩
  simp only [Editor.move]
  omega

theorem WellFormed.showLine (h : e.WellFormed) {index : Int} (hlow : 0 ≤ index)
    (hhigh : index ≤ e.history.length) : (e.showLine index).WellFormed :=
  ⟨⟨Int.natCast_nonneg _, Int.le_refl _⟩, ⟨hlow, hhigh⟩, h.completion⟩

theorem WellFormed.up? {next : Editor} (h : e.WellFormed) (hnext : e.up? = some next) :
    next.WellFormed := by
  unfold Editor.up? at hnext
  cases hopen : e.completion with
  | some c =>
    rw [hopen] at hnext
    cases hnext
    refine ⟨h.cursor, h.historyIndex, ?_⟩
    rintro _ ⟨⟩
    exact (h.completion c hopen).up
  | none =>
    rw [hopen] at hnext
    simp only at hnext
    split at hnext
    · cases hnext
    · cases hnext
      obtain ⟨hlow, hhigh⟩ := h.historyIndex
      apply h.showLine <;> omega

theorem WellFormed.down? {next : Editor} (h : e.WellFormed) (hnext : e.down? = some next) :
    next.WellFormed := by
  unfold Editor.down? at hnext
  cases hopen : e.completion with
  | some c =>
    rw [hopen] at hnext
    cases hnext
    refine ⟨h.cursor, h.historyIndex, ?_⟩
    rintro _ ⟨⟩
    exact (h.completion c hopen).down
  | none =>
    rw [hopen] at hnext
    simp only at hnext
    split at hnext
    · cases hnext
    · cases hnext
      obtain ⟨hlow, hhigh⟩ := h.historyIndex
      apply h.showLine <;> omega

/-- What accepting makes of the line, if there is an item to accept and an identifier before the
cursor. -/
theorem accept_of_some {c : Completion} {choice : Text} {span : Span}
    (hopen : e.completion = some c) (hchoice : c.selected? = some choice)
    (hspan : e.identifier? = some span) :
    e.accept = { e with
      input := e.input.before span.start ++ choice ++ e.input.after span.stop
      cursor := span.start + choice.length
      completion := none } := by
  have hbind : e.completion.bind Completion.selected? = some choice := by
    rw [hopen]
    exact hchoice
  simp only [accept, hbind, hspan]

theorem accept_of_none (h : e.identifier? = none) : e.accept = { e with completion := none } := by
  unfold accept
  rw [h]
  split
  · rename_i hspan
    cases hspan
  · rfl

theorem WellFormed.accept (h : e.WellFormed) : e.accept.WellFormed := by
  have hclosed : Editor.WellFormed { e with completion := none } :=
    ⟨h.cursor, h.historyIndex, nofun⟩
  cases hspan : e.identifier? with
  | none =>
    rw [accept_of_none hspan]
    exact hclosed
  | some span =>
    unfold Editor.accept
    rw [hspan]
    split
    · rename_i choice span' _ heq
      cases heq
      obtain ⟨hlt, hstop, hlength⟩ := Text.identifierSpan_bounds hspan
      have hfront : (e.input.before span.start).length = span.start := by
        have hsplit := Text.before_append (e.input.take span.start) (e.input.drop span.start)
        rw [List.take_append_drop, List.length_take_of_le (by omega)] at hsplit
        rw [hsplit, List.length_take_of_le (by omega)]
      refine ⟨?_, h.historyIndex, nofun⟩
      simp only [List.length_append, hfront]
      omega
    · exact hclosed

theorem WellFormed.submit (e : Editor) : e.submit.WellFormed := by
  refine ⟨by simp [Editor.submit], ?_, nofun⟩
  simp only [Editor.submit, List.length_append, List.length_singleton]
  omega

theorem WellFormed.change? {next : Editor} (h : e.WellFormed) (edit : Edit)
    (hnext : e.change? complete edit = some next) : next.WellFormed := by
  cases edit with
  | insert text =>
    cases hnext
    exact h.insert complete text
  | deleteBackward => exact h.deleteBackward? hnext
  | move delta =>
    cases hnext
    exact h.move delta
  | up => exact h.up? hnext
  | down => exact h.down? hnext
  | accept =>
    cases hnext
    exact h.accept
  | submit =>
    cases hnext
    exact .submit e

/-- **Every edit keeps the editor well formed.** -/
theorem WellFormed.apply (h : e.WellFormed) (complete : Completer) (edit : Edit) :
    (e.apply complete edit).WellFormed := by
  unfold Editor.apply
  cases hnext : e.change? complete edit with
  | none => exact h
  | some next => exact h.change? edit hnext

theorem WellFormed.after (h : e.WellFormed) (complete : Completer) (edits : List Edit) :
    (e.after complete edits).WellFormed := by
  induction edits generalizing e with
  | nil => exact h
  | cons edit rest ih => exact ih (h.apply complete edit)

/-! ## The history -/

theorem history_apply_submit (e : Editor) (complete : Completer) :
    (e.apply complete .submit).history = e.history ++ [e.input] := rfl

theorem history_apply {edit : Edit} (e : Editor) (complete : Completer) (h : edit ≠ .submit) :
    (e.apply complete edit).history = e.history := by
  unfold apply
  cases edit with
  | insert text => rfl
  | deleteBackward =>
    simp only [change?, deleteBackward?]
    split <;> rfl
  | move delta => rfl
  | up =>
    simp only [change?, up?]
    split
    · rfl
    · split <;> rfl
  | down =>
    simp only [change?, down?]
    split
    · rfl
    · split <;> rfl
  | accept =>
    simp only [change?, accept]
    split <;> rfl
  | submit => exact absurd rfl h

theorem history_prefix (e : Editor) (complete : Completer) (edits : List Edit) :
    e.history <+: (e.after complete edits).history := by
  induction edits generalizing e with
  | nil => exact List.prefix_refl _
  | cons edit rest ih =>
    refine List.IsPrefix.trans ?_ (ih (e.apply complete edit))
    by_cases hsubmit : edit = .submit
    · subst hsubmit
      exact List.prefix_append _ _
    · simp only [history_apply e complete hsubmit, List.prefix_refl]

end Editor

/-! ## The rows on the screen -/

namespace View

/-- A row of a list of names, marked if it is the selected one. -/
def row (name : Text) (selected : Bool) : View :=
  .text { backgroundColor := if selected then some .gray else none } [.plain name]

/-- Rows of which none is at the marked place. -/
theorem rows_unmarked {names : List Text} {first : Nat} (marked : Nat → Bool)
    (h : ∀ i, first ≤ i → i < first + names.length → marked i = false) :
    (names.zipIdx first).map (fun entry => row entry.1 (marked entry.2)) =
      names.map (row · false) := by
  have hplain : (names.zipIdx first).map (fun entry => row entry.1 (marked entry.2)) =
      (names.zipIdx first).map (fun entry => row entry.1 false) := by
    apply List.map_congr_left
    intro entry hentry
    rw [h entry.2 (List.le_snd_of_mem_zipIdx hentry) (List.snd_lt_add_of_mem_zipIdx hentry)]
  calc _ = ((names.zipIdx first).map Prod.fst).map (row · false) := by
        rw [hplain, List.map_map]
        rfl
    _ = names.map (row · false) := by rw [List.zipIdx_map_fst]

theorem rows_marked {before behind : List Text} {name : Text} (marked : Nat → Bool)
    (h : ∀ i, marked i = true ↔ i = before.length) :
    (before ++ name :: behind).zipIdx.map (fun entry => row entry.1 (marked entry.2)) =
      before.map (row · false) ++ row name true :: behind.map (row · false) := by
  have hother (i : Nat) (hi : i ≠ before.length) : marked i = false :=
    Bool.eq_false_iff.mpr fun hmarked => hi ((h i).mp hmarked)
  rw [List.zipIdx_append, List.map_append, List.zipIdx_cons, List.map_cons, Nat.zero_add]
  congr 1
  · apply rows_unmarked
    intro i _ hi
    exact hother i (by omega)
  · congr 1
    · rw [(h _).mpr rfl]
    · apply rows_unmarked
      intro i hi _
      exact hother i (by omega)

/-- **The rows of an open list** are a stretch of its items that has the selected one in it, which
is the only one marked. -/
theorem completion_rows {c : Completion} (h : c.WellFormed) :
    ∃ above before name behind below, c.items = above ++ (before ++ name :: behind) ++ below ∧
      (before ++ name :: behind).length ≤ maxVisible ∧ c.selected? = some name ∧
      completion c = .box { column := true, paddingX := some 2, width := some 34 }
        (before.map (row · false) ++ row name true :: behind.map (row · false)) := by
  obtain ⟨above, name, below, hitems, hindex, hselected⟩ := h.split
  have hsix : maxVisible = 6 := rfl
  have hfirst : firstVisible c = above.length - 5 := by
    simp only [firstVisible, hindex, hsix]
    omega
  -- The selected item is the last one shown, unless the list is at its top.
  have hshown : (c.items.drop (firstVisible c)).take maxVisible =
      above.drop (firstVisible c) ++
        name :: below.take (maxVisible - 1 - (above.length - firstVisible c)) := by
    have hroom : maxVisible - (above.drop (firstVisible c)).length =
        maxVisible - 1 - (above.length - firstVisible c) + 1 := by
      rw [List.length_drop]
      omega
    rw [hitems, List.drop_append_of_le_length (by omega), List.take_append, hroom,
      List.take_succ_cons, List.take_of_length_le (by rw [List.length_drop]; omega)]
  refine ⟨above.take (firstVisible c), above.drop (firstVisible c), name,
    below.take (maxVisible - 1 - (above.length - firstVisible c)),
    below.drop (maxVisible - 1 - (above.length - firstVisible c)), ?_, ?_, hselected, ?_⟩
  · rw [hitems, List.append_assoc, List.append_assoc, List.cons_append, List.take_append_drop,
      ← List.append_assoc, List.take_append_drop]
  · rw [← hshown]
    exact List.length_take_le _ _
  · rw [← rows_marked fun offset => (firstVisible c + offset : Int) = c.index]
    · rw [← hshown]
      simp only [completion, row, decide_eq_true_eq]
    · intro i
      rw [decide_eq_true_eq, List.length_drop, hindex]
      omega

end View

/-- **Edits keep the editor in bounds, and the screen shows what would be accepted.** After any
edits the cursor is inside the line and the line shown is inside the history or just behind it. The
history grows by the line when it is submitted, and by nothing else. An open list has its selection
among its items. Its rows on the screen are at most six of the items in a row, one of them marked,
and that is the name which accepting puts in the place of the identifier before the cursor. -/
theorem editing_keeps_bounds (complete : Completer) (edits : List Edit) :
    let e := Editor.initial.after complete edits
    (0 ≤ e.cursor ∧ e.cursor ≤ e.input.length) ∧
    (0 ≤ e.historyIndex ∧ e.historyIndex ≤ e.history.length) ∧
    (e.apply complete .submit).history = e.history ++ [e.input] ∧
    (∀ edit, edit ≠ .submit → (e.apply complete edit).history = e.history) ∧
    (∀ more, e.history <+: (e.after complete more).history) ∧
    ∀ c, e.completion = some c →
      c.items ≠ [] ∧ 0 ≤ c.index ∧ c.index < c.items.length ∧
      ∃ above before name behind below,
        c.items = above ++ (before ++ name :: behind) ++ below ∧
        (before ++ name :: behind).length ≤ 6 ∧ c.selected? = some name ∧
        View.completion c = .box { column := true, paddingX := some 2, width := some 34 }
          (before.map (View.row · false) ++ View.row name true :: behind.map (View.row · false)) ∧
        (∀ span, e.identifier? = some span → (e.apply complete .accept).input =
          e.input.before span.start ++ name ++ e.input.after span.stop) ∧
        (e.identifier? = none → (e.apply complete .accept).input = e.input) := by
  intro e
  have hwell : e.WellFormed := Editor.WellFormed.initial.after complete edits
  refine ⟨hwell.cursor, hwell.historyIndex, e.history_apply_submit complete,
    fun edit => e.history_apply complete, e.history_prefix complete, ?_⟩
  intro c hopen
  have hlist := hwell.completion c hopen
  obtain ⟨above, before, name, behind, below, hitems, hlength, hselected, hrows⟩ :=
    View.completion_rows hlist
  refine ⟨hlist.items_ne_nil, hlist.nonneg, hlist.lt, above, before, name, behind, below, hitems,
    hlength, hselected, hrows, ?_, ?_⟩
  · intro span hspan
    exact congrArg Editor.input (Editor.accept_of_some hopen hselected hspan)
  · intro hspan
    have hline : e.accept.input = e.input := by rw [Editor.accept_of_none hspan]
    exact hline

/-- With the seventh of eight items selected, the first one is not on the screen any more. -/
theorem editing_keeps_bounds_scrolled :
    let names : List Text := ["sec", "sin", "sort", "sqrt", "sub", "sum", "swap", "sync"]
    let e := Editor.initial.after (fun _ => names)
      [.insert "2*s", .down, .down, .down, .down, .down, .down]
    e.completion = some ⟨names, 6⟩ ∧
    ∃ above before name behind below, names = above ++ (before ++ name :: behind) ++ below ∧
      (before ++ name :: behind).length ≤ 6 ∧
      View.completion ⟨names, 6⟩ = .box { column := true, paddingX := some 2, width := some 34 }
        (before.map (View.row · false) ++ View.row name true :: behind.map (View.row · false)) ∧
      (e.apply (fun _ => names) .accept).input = e.input.before 2 ++ name ++ e.input.after 3 := by
  intro names e
  have hopen : e.completion = some ⟨names, 6⟩ := by decide
  have hspan : e.identifier? = some ⟨2, 3⟩ := by decide
  obtain ⟨-, -, -, -, -, hlist⟩ := editing_keeps_bounds (fun _ => names)
    [.insert "2*s", .down, .down, .down, .down, .down, .down]
  obtain ⟨-, -, -, above, before, name, behind, below, hitems, hlength, -, hrows, haccept, -⟩ :=
    hlist _ hopen
  exact ⟨hopen, above, before, name, behind, below, hitems, hlength, hrows, haccept _ hspan⟩

end Reckoner
