import Mathlib.Data.List.Chain
import Reckoner.Highlight

/-!
# Lines cut into runs

A line is painted token by token, each over those in front of it, which leaves every unit with the
colour of the last token that covers it (`StyledRun.getElem?_colors`). Then its units are gathered
one by one into a run that grows as long as the style stays, which joins neighbours of equal style
(`StyledRun.finish_foldl`). Joining loses nothing: taken apart again, the runs are the units that
were joined (`StyledRun.units_merge`), and no two neighbours of equal style remain
(`StyledRun.merge_apart`). So what is to be said about a line is said about its units, one by one:
which token paints a unit (`Token.Paints`) and which unit the cursor is on. An inverse run has only
units that the cursor is on, and that is one (`runs_partition_line`).
-/

namespace Reckoner

/-! ## Painting -/

namespace StyledRun

/-- The colour at an offset: that of the last token that covers it. -/
def colorAt (tokens : List (Token × Option Color)) (offset : Nat) : Option Color :=
  (tokens.reverse.find? fun entry => entry.1.covers offset).bind (·.2)

theorem getElem?_foldl_set (offsets : List Nat) (colors : List (Option Color))
    (color : Option Color) (i : Nat) :
    (offsets.foldl (fun colors offset => colors.set offset color) colors)[i]? =
      colors[i]?.map fun old => if i ∈ offsets then color else old := by
  induction offsets generalizing colors with
  | nil => simp
  | cons offset rest ih =>
    simp only [List.foldl_cons, ih, List.getElem?_set, List.mem_cons]
    by_cases here : offset = i
    · subst here
      by_cases inside : offset < colors.length <;> simp [inside]
    · simp [here, Ne.symm here]

/-- One token gives its colour to what it covers, and leaves the rest alone. -/
theorem getElem?_paint (colors : List (Option Color)) (entry : Token × Option Color) (i : Nat) :
    (paint colors entry)[i]? =
      colors[i]?.map fun old => if entry.1.covers i then entry.2 else old := by
  simp only [paint, getElem?_foldl_set]
  by_cases inside : i < colors.length
  · have covered : i ∈ List.range' entry.1.start.toNat
        ((min entry.1.stop colors.length).toNat - entry.1.start.toNat) ↔
        entry.1.covers i = true := by
      simp only [List.mem_range'_1, Token.covers, Bool.and_eq_true, decide_eq_true_eq]
      omega
    simp only [covered]
  · simp only [List.getElem?_eq_none (Nat.le_of_not_lt inside), Option.map_none]

/-- Tokens one after the other leave the colour of the last one that covers a unit. -/
theorem getElem?_foldl_paint (entries : List (Token × Option Color)) (colors : List (Option Color))
    (i : Nat) : (entries.foldl paint colors)[i]? = colors[i]?.map fun old =>
      (entries.reverse.find? fun entry => entry.1.covers i).elim old (·.2) := by
  induction entries generalizing colors with
  | nil => simp
  | cons entry rest ih =>
    simp only [List.foldl_cons, ih, getElem?_paint, Option.map_map, List.reverse_cons,
      List.find?_append]
    congr 1
    funext old
    cases rest.reverse.find? fun entry => entry.1.covers i with
    | some later => rfl
    | none => cases covered : entry.1.covers i <;> simp [covered]

/-- **Painting leaves every unit of the line with its colour.** -/
theorem getElem?_colors (length : Nat) (entries : List (Token × Option Color)) (i : Nat) :
    (colors length entries)[i]? = if i < length then some (colorAt entries i) else none := by
  simp only [colors, getElem?_foldl_paint, List.getElem?_replicate, colorAt]
  split
  · cases entries.reverse.find? fun entry => entry.1.covers i <;> rfl
  · rfl

end StyledRun

namespace Token

/-- The last of the tokens that cover an offset gives it the colour that it has in front of its
successor. An offset that no token covers has none. -/
inductive Paints (tokens : List Token) (offset : Nat) : Option Color → Prop where
  | bare (uncovered : ∀ t ∈ tokens, t.covers offset = false) : Paints tokens offset none
  | last {before after : List Token} {t : Token} (split : tokens = before ++ t :: after)
      (covers : t.covers offset = true) (uncovered : ∀ later ∈ after, later.covers offset = false) :
      Paints tokens offset (t.color after.head?)

theorem Paints.cons {rest : List Token} {offset : Nat} {color : Option Color}
    (h : Paints rest offset color) (t : Token)
    (hcovered : ∃ later ∈ rest, later.covers offset = true) : Paints (t :: rest) offset color := by
  cases h with
  | bare uncovered =>
    obtain ⟨later, hlater, hcovers⟩ := hcovered
    simp [uncovered later hlater] at hcovers
  | last split covers uncovered =>
    subst split
    exact .last (List.cons_append ..).symm covers uncovered

theorem map_fst_colored (tokens : List Token) : (colored tokens).map Prod.fst = tokens := by
  induction tokens with
  | nil => rfl
  | cons t rest ih => simp [colored, ih]

/-- Tokens behind it paint over a token. -/
theorem colorAt_cons (t : Token) (rest : List Token) (offset : Nat) :
    StyledRun.colorAt (colored (t :: rest)) offset =
      if ∃ later ∈ rest, later.covers offset = true then StyledRun.colorAt (colored rest) offset
      else if t.covers offset then t.color rest.head? else none := by
  have hcovered : (∃ later ∈ rest, later.covers offset = true) ↔
      ∃ entry ∈ (colored rest).reverse, entry.1.covers offset = true := by
    have hmem : ∀ later, later ∈ rest ↔ ∃ entry ∈ colored rest, entry.1 = later := by
      intro later
      simp only [← List.mem_map, map_fst_colored]
    simp only [hmem, List.mem_reverse]
    grind
  simp only [hcovered, StyledRun.colorAt, colored, List.reverse_cons, List.find?_append]
  cases hfind : (colored rest).reverse.find? fun entry => entry.1.covers offset with
  | some entry =>
    have hentry : ∃ entry ∈ (colored rest).reverse, entry.1.covers offset = true :=
      ⟨entry, List.mem_of_find?_eq_some hfind, (List.find?_eq_some_iff_append.mp hfind).1⟩
    simp only [if_pos hentry, Option.some_or]
  | none =>
    have hnone : ¬ ∃ entry ∈ (colored rest).reverse, entry.1.covers offset = true := by
      simpa using hfind
    simp only [if_neg hnone, Option.none_or, List.find?_cons]
    cases t.covers offset <;> rfl

/-- The colour at an offset is the one that is painted there. -/
theorem paints_colorAt (tokens : List Token) (offset : Nat) :
    Paints tokens offset (StyledRun.colorAt (colored tokens) offset) := by
  induction tokens with
  | nil => exact .bare (by simp)
  | cons t rest ih =>
    simp only [colorAt_cons]
    by_cases hlater : ∃ later ∈ rest, later.covers offset = true
    · simp only [if_pos hlater]
      exact ih.cons t hlater
    · have huncovered : ∀ later ∈ rest, later.covers offset = false := by simpa using hlater
      simp only [if_neg hlater]
      by_cases hcovers : t.covers offset = true
      · simp only [if_pos hcovers]
        exact .last (List.nil_append _).symm hcovers huncovered
      · simp only [if_neg hcovers]
        exact .bare (List.forall_mem_cons.mpr ⟨by simpa using hcovers, huncovered⟩)

end Token

/-! ## Joining -/

namespace StyledRun

/-- The units of a run, each as a run of its own. -/
def units (run : StyledRun) : List StyledRun := run.text.map fun u => ⟨[u], run.color, run.inverse⟩

/-- The runs differ in colour, or one of them is inverse and the other is not. -/
def Apart (run next : StyledRun) : Prop := run.color ≠ next.color ∨ run.inverse ≠ next.inverse

/-- Joins neighbours of equal style. -/
def merge : List StyledRun → List StyledRun
  | [] => []
  | run :: rest =>
    match merge rest with
    | [] => [run]
    | next :: others =>
      if run.color = next.color ∧ run.inverse = next.inverse then
        { next with text := run.text ++ next.text } :: others
      else run :: next :: others

/-- The first of the joined runs has the style of the first run. -/
theorem merge_cons (run : StyledRun) (rest : List StyledRun) :
    ∃ text others, merge (run :: rest) = { run with text := text } :: others := by
  simp only [merge]
  cases merge rest with
  | nil => exact ⟨run.text, [], rfl⟩
  | cons next others =>
    simp only
    split
    · rename_i same
      exact ⟨run.text ++ next.text, others, by simp only [same]⟩
    · exact ⟨run.text, next :: others, rfl⟩

variable {run next : StyledRun}

theorem merge_of_apart (h : ¬ (run.color = next.color ∧ run.inverse = next.inverse))
    (rest : List StyledRun) : merge (run :: next :: rest) = run :: merge (next :: rest) := by
  obtain ⟨text, others, hnext⟩ := merge_cons next rest
  rw [merge, hnext]
  exact if_neg h

/-- Two runs of one style may be joined in advance. -/
theorem merge_of_same (h : run.color = next.color ∧ run.inverse = next.inverse)
    (rest : List StyledRun) :
    merge ({ run with text := run.text ++ next.text } :: rest) = merge (run :: next :: rest) := by
  obtain ⟨text, color, inverse⟩ := run
  obtain ⟨text', color', inverse'⟩ := next
  obtain ⟨rfl, rfl⟩ := h
  simp only [merge]
  cases merge rest with
  | nil => simp
  | cons behind others =>
    by_cases same : color = behind.color ∧ inverse = behind.inverse <;> simp [same]

/-- **Gathering units into a run that grows joins neighbours of equal style.** -/
theorem finish_foldl (cells runs : List StyledRun) (current : StyledRun) :
    (cells.foldl Cut.add ⟨runs, some current⟩).finish = runs ++ merge (current :: cells) := by
  induction cells generalizing runs current with
  | nil => rfl
  | cons cell rest ih =>
    simp only [List.foldl_cons, Cut.add]
    split
    · rename_i same
      rw [ih, merge_of_same same]
    · rename_i apart
      rw [ih, merge_of_apart apart, List.append_assoc, List.singleton_append]

theorem ofLine_eq_merge (input : Text) (tokens : List Token) (cursor : Option Int) :
    ofLine input tokens cursor =
      merge (cells input (colors input.length (Token.colored tokens)) cursor) := by
  simp only [ofLine]
  cases cells input (colors input.length (Token.colored tokens)) cursor with
  | nil => rfl
  | cons cell rest => exact finish_foldl rest [] cell

theorem units_merge (runs : List StyledRun) : (merge runs).flatMap units = runs.flatMap units := by
  induction runs with
  | nil => rfl
  | cons run rest ih =>
    simp only [merge, List.flatMap_cons, ← ih]
    cases merge rest with
    | nil => simp
    | cons next others =>
      simp only
      split
      · rename_i hsame
        simp [units, hsame]
      · simp

theorem merge_ne_nil {runs : List StyledRun} (h : ∀ run ∈ runs, run.text ≠ []) :
    ∀ run ∈ merge runs, run.text ≠ [] := by
  induction runs with
  | nil => simp [merge]
  | cons run rest ih =>
    simp only [List.forall_mem_cons] at h
    have hrest := ih h.2
    simp only [merge]
    cases hmerge : merge rest with
    | nil => simpa using h.1
    | cons next others =>
      simp only [hmerge, List.forall_mem_cons] at hrest
      simp only
      split
      · simpa [h.1] using hrest.2
      · simpa [h.1] using hrest

theorem merge_apart (runs : List StyledRun) : (merge runs).IsChain Apart := by
  induction runs with
  | nil => simp [merge]
  | cons run rest ih =>
    simp only [merge]
    cases hmerge : merge rest with
    | nil => simp
    | cons next others =>
      simp only [hmerge] at ih
      simp only
      split
      · -- Only the text of the front run has changed.
        cases others with
        | nil => simp
        | cons behind others => simpa [Apart] using ih
      · rename_i hstyle
        simp only [List.isChain_cons_cons, ih, and_true]
        exact not_and_or.mp hstyle

variable {runs before after : List StyledRun} {run : StyledRun}

/-- Inside a run every unit has its style. -/
theorem getElem?_units {i : Nat} (h : runs = before ++ run :: after) (hi : i < run.text.length) :
    ∃ u, (runs.flatMap units)[(before.flatMap text).length + i]? =
      some ⟨[u], run.color, run.inverse⟩ := by
  have hlength : (before.flatMap text).length = (before.flatMap units).length := by
    simp [List.length_flatMap, units]
  subst h
  have hunits : i < run.units.length := by simpa [units] using hi
  simp only [List.flatMap_append, List.flatMap_cons, hlength,
    List.getElem?_append_right (Nat.le_add_right _ _), Nat.add_sub_cancel_left,
    List.getElem?_append_left hunits]
  simp [units, hi]

end StyledRun

/-! ## Lines -/

section
variable {input : Text} {tokens : List Token} {cursor : Option Int}

namespace StyledRun

/-- The text of a line, with a space for a cursor at its end. -/
def shown (input : Text) (cursor : Option Int) : Text :=
  if cursor = some (input.length : Int) then input ++ [Text.unit ' '] else input

theorem getElem?_cells (entries : List (Token × Option Color)) (i : Nat) :
    (cells input (colors input.length entries) cursor)[i]? = (shown input cursor)[i]?.map fun u =>
      ⟨[u], if i < input.length then colorAt entries i else none, cursor = some (i : Int)⟩ := by
  have painted : (colors input.length entries)[i]?.join =
      if i < input.length then colorAt entries i else none := by
    rw [getElem?_colors]
    split <;> rfl
  simp [cells, shown, List.getElem?_map, List.getElem?_zipIdx, Function.comp_def, painted]

theorem units_ofLine : (ofLine input tokens cursor).flatMap units =
    cells input (colors input.length (Token.colored tokens)) cursor := by
  simp only [ofLine_eq_merge, units_merge, cells, List.flatMap_map, units,
    List.map_cons, List.map_nil]
  exact List.map_eq_flatMap.symm

/-- What a unit of the shown text looks like. -/
theorem units_getElem? (tokens : List Token) {i : Nat} {u : UInt16}
    (h : (shown input cursor)[i]? = some u) :
    ((ofLine input tokens cursor).flatMap units)[i]? = some
      ⟨[u], if i < input.length then colorAt (Token.colored tokens) i else none,
        cursor = some (i : Int)⟩ := by
  simp only [units_ofLine, getElem?_cells, h, Option.map_some]

theorem text_units (runs : List StyledRun) :
    (runs.flatMap units).flatMap text = runs.flatMap text := by
  have hrun : ∀ run : StyledRun, run.units.flatMap text = run.text := by
    intro run
    simp [units, List.flatMap_map]
  simp only [List.flatMap_assoc, hrun]

theorem text_ofLine : (ofLine input tokens cursor).flatMap text = shown input cursor := by
  simp only [← text_units (ofLine input tokens cursor), units_ofLine, cells, List.flatMap_map]
  simp only [← List.map_eq_flatMap]
  exact List.zipIdx_map_fst 0 _

theorem ofLine_ne_nil : ∀ run ∈ ofLine input tokens cursor, run.text ≠ [] := by
  rw [ofLine_eq_merge]
  apply merge_ne_nil
  intro run hrun
  simp only [cells, List.mem_map] at hrun
  obtain ⟨_, _, rfl⟩ := hrun
  simp

theorem length_pos_of_mem (h : run ∈ ofLine input tokens cursor) : 0 < run.text.length :=
  List.length_pos_iff.mpr (ofLine_ne_nil run h)

/-- Every unit of an inverse run is under the cursor. -/
theorem cursor_of_inverse {i : Nat} (h : ofLine input tokens cursor = before ++ run :: after)
    (hinverse : run.inverse = true) (hi : i < run.text.length) :
    cursor = some (((before.flatMap text).length + i : Nat) : Int) := by
  obtain ⟨u, hu⟩ := getElem?_units h hi
  simp only [units_ofLine, getElem?_cells, Option.map_eq_some_iff] at hu
  obtain ⟨v, -, hcell⟩ := hu
  simpa [hinverse] using congrArg inverse hcell

theorem position_unique {before' after' : List StyledRun} {run' : StyledRun}
    (h : ofLine input tokens cursor = before ++ run :: after) (hinverse : run.inverse = true)
    (h' : ofLine input tokens cursor = before' ++ run' :: after')
    (hinverse' : run'.inverse = true) :
    (before.flatMap text).length = (before'.flatMap text).length := by
  have hrun : run ∈ ofLine input tokens cursor := by simp [h]
  have hrun' : run' ∈ ofLine input tokens cursor := by simp [h']
  have hcursor := cursor_of_inverse h hinverse (length_pos_of_mem hrun)
  have hcursor' := cursor_of_inverse h' hinverse' (length_pos_of_mem hrun')
  simp only [hcursor, Option.some.injEq] at hcursor'
  omega

/-- So an inverse run is one unit, and there is no other. -/
theorem inverse_unique (h : ofLine input tokens cursor = before ++ run :: after)
    (hinverse : run.inverse = true) : run.text.length = 1 ∧
      cursor = some ((before.flatMap text).length : Int) ∧
      ∀ other ∈ before ++ after, other.inverse = false := by
  have hlength : ∀ other ∈ before ++ run :: after, 0 < other.text.length := by
    intro other hother
    exact length_pos_of_mem (h ▸ hother)
  have hrun := hlength run (by simp)
  have hcursor := cursor_of_inverse h hinverse hrun
  simp only [List.mem_append, or_imp, forall_and]
  refine ⟨?_, by simpa using hcursor, ?_, ?_⟩
  · by_contra hlong
    have hsecond := cursor_of_inverse h hinverse (i := 1) (by omega)
    simp only [hcursor, Option.some.injEq] at hsecond
    omega
  · intro other hother
    by_contra hboth
    obtain ⟨front, back, rfl⟩ := List.append_of_mem hother
    have hsplit : ofLine input tokens cursor = front ++ other :: (back ++ run :: after) := by
      simpa using h
    have hsame := position_unique h hinverse hsplit (by simpa using hboth)
    have hother := hlength other (by simp)
    simp only [List.flatMap_append, List.flatMap_cons, List.length_append] at hsame
    omega
  · intro other hother
    by_contra hboth
    obtain ⟨front, back, rfl⟩ := List.append_of_mem hother
    have hsplit : ofLine input tokens cursor = (before ++ run :: front) ++ other :: back := by
      simpa using h
    have hsame := position_unique h hinverse hsplit (by simpa using hboth)
    simp only [List.flatMap_append, List.flatMap_cons, List.length_append] at hsame
    omega

theorem position_le (h : ofLine input tokens cursor = before ++ run :: after)
    (hinverse : run.inverse = true) : (before.flatMap text).length ≤ input.length := by
  have htext : ((ofLine input tokens cursor).flatMap text).length = (shown input cursor).length :=
    congrArg List.length text_ofLine
  have hshown : (shown input cursor).length ≤ input.length + 1 := by
    unfold shown
    split <;> simp
  simp only [h, List.flatMap_append, List.flatMap_cons, List.length_append,
    (inverse_unique h hinverse).1] at htext
  omega

/-- The unit at the cursor is in some run, which is inverse. -/
theorem exists_inverse {i : Nat} (hi : i ≤ input.length) (hcursor : cursor = some (i : Int)) :
    ∃ run ∈ ofLine input tokens cursor, run.inverse = true := by
  have hshown : i < (shown input cursor).length := by
    unfold shown
    split
    · simp only [List.length_append, List.length_singleton]
      omega
    · rename_i hend
      have hne : i ≠ input.length := by
        intro hlength
        exact hend (hlength ▸ hcursor)
      omega
  have hunit := units_getElem? tokens (List.getElem?_eq_getElem hshown)
  obtain ⟨run, hrun, hmem⟩ := List.mem_flatMap.mp (List.mem_of_getElem? hunit)
  refine ⟨run, hrun, ?_⟩
  simp only [units, List.mem_map] at hmem
  obtain ⟨u, -, hcell⟩ := hmem
  simpa [hcursor] using congrArg inverse hcell

end StyledRun

/-- **Runs are an exact, minimal and correctly coloured partition of a line.** For every line, every
list of tokens, whatever they cover, and every cursor: the texts of the runs are the line, with a
space behind it if the cursor is at its end. No run is empty and neighbours differ in style. Each
unit of the line has the colour that the last token paints which covers it, and the space has none.
There is an inverse run exactly if the cursor is in the line or at its end; it is the unit at the
cursor, and no other run is inverse. -/
theorem runs_partition_line (input : Text) (tokens : List Token) (cursor : Option Int) :
    let runs := StyledRun.ofLine input tokens cursor
    let units := runs.flatMap StyledRun.units
    (runs.flatMap StyledRun.text =
      if cursor = some (input.length : Int) then input ++ [Text.unit ' '] else input) ∧
    (∀ run ∈ runs, run.text ≠ []) ∧
    runs.IsChain StyledRun.Apart ∧
    (∀ (offset : Nat) (u : UInt16), input[offset]? = some u →
      ∃ color, Token.Paints tokens offset color ∧
        units[offset]? = some ⟨[u], color, cursor = some (offset : Int)⟩) ∧
    (cursor = some (input.length : Int) →
      units[input.length]? = some ⟨[Text.unit ' '], none, true⟩) ∧
    ((∃ run ∈ runs, run.inverse = true) ↔ ∃ c, cursor = some c ∧ 0 ≤ c ∧ c ≤ input.length) ∧
    ∀ before run after, runs = before ++ run :: after → run.inverse = true →
      run.text.length = 1 ∧ cursor = some ((before.flatMap StyledRun.text).length : Int) ∧
      ∀ other ∈ before ++ after, other.inverse = false := by
  intro runs units
  have happart : runs.IsChain StyledRun.Apart := by
    simp only [runs, StyledRun.ofLine_eq_merge, StyledRun.merge_apart]
  refine ⟨StyledRun.text_ofLine, StyledRun.ofLine_ne_nil, happart, ?_, ?_, ?_, ?_⟩
  · intro offset u hu
    have hoffset : offset < input.length := (List.getElem?_eq_some_iff.mp hu).1
    have hshown : (StyledRun.shown input cursor)[offset]? = some u := by
      unfold StyledRun.shown
      split
      · simp [List.getElem?_append_left hoffset, hu]
      · exact hu
    have hunit := StyledRun.units_getElem? tokens hshown
    simp only [if_pos hoffset] at hunit
    exact ⟨_, Token.paints_colorAt tokens offset, hunit⟩
  · intro hcursor
    have hshown : (StyledRun.shown input cursor)[input.length]? = some (Text.unit ' ') := by
      simp [StyledRun.shown, hcursor]
    have hunit := StyledRun.units_getElem? tokens hshown
    simp only [Nat.lt_irrefl, if_false, decide_eq_true hcursor] at hunit
    exact hunit
  · constructor
    · rintro ⟨run, hrun, hinverse⟩
      obtain ⟨before, after, hsplit⟩ := List.append_of_mem hrun
      have hle := StyledRun.position_le hsplit hinverse
      exact ⟨_, (StyledRun.inverse_unique hsplit hinverse).2.1, by omega, by omega⟩
    · rintro ⟨c, hcursor, hnonneg, hle⟩
      obtain ⟨i, rfl⟩ := Int.eq_ofNat_of_zero_le hnonneg
      exact StyledRun.exists_inverse (by omega) hcursor
  · intro before run after hsplit hinverse
    exact StyledRun.inverse_unique hsplit hinverse

/-- A number within a name paints over it, and the name reaches beyond the line. The cursor is at
the end. -/
theorem runs_partition_line_overlapping :
    let tokens : List Token := [⟨.identifier, 0, 9⟩, ⟨.number none, 1, 2⟩]
    let runs := StyledRun.ofLine "ab" tokens (some 2)
    runs = [⟨"a", some .red, false⟩, ⟨"b", some .magenta, false⟩, ⟨" ", none, true⟩] ∧
      Token.Paints tokens 1 (some .magenta) ∧
      ∀ other ∈ [(⟨"a", some .red, false⟩ : StyledRun), ⟨"b", some .magenta, false⟩],
        other.inverse = false := by
  intro tokens runs
  have hruns : runs =
      [⟨"a", some .red, false⟩, ⟨"b", some .magenta, false⟩, ⟨" ", none, true⟩] := rfl
  obtain ⟨-, -, -, hpainted, -, -, hinverse⟩ := runs_partition_line "ab" tokens (some 2)
  obtain ⟨color, hpaints, hunit⟩ := hpainted 1 (Text.unit 'b') rfl
  obtain rfl : some Color.magenta = color := congrArg StyledRun.color (Option.some.inj hunit)
  obtain ⟨-, -, hothers⟩ := hinverse [_, _] _ [] hruns rfl
  exact ⟨hruns, hpaints, hothers⟩

end

end Reckoner
