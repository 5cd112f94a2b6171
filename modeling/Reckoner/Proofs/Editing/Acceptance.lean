import Reckoner.Proofs.Boundaries
import Reckoner.Proofs.Editing.WellFormed
import Reckoner.Proofs.Identifiers
import Reckoner.Proofs.Sessions.Fold

/-!
# Accepting a name swaps one token

An identifier before the cursor begins at a place that no token straddles
(`Token.not_straddles_start`). What is in front of such a place is scanned the same way with any
name behind it, and where the identifier begins depends only on what is in front of it as well
(`Text.isLeast_starts_iff`). So accepting a name puts it in place of the identifier, for the scan as
for the editor (`accept_swaps_identifier`).
-/

namespace Reckoner

/-! ## Looking back over a name -/

namespace Text

variable {front word back : Text} {p : UInt16 → Bool}

theorem has_front {i : Nat} (hi : i < front.length) : (front ++ back).Has i p ↔ front.Has i p := by
  unfold Has
  rw [List.getElem?_append_left hi]

theorem has_word {k : Nat} (hk : k < word.length) :
    (front ++ (word ++ back)).Has (front.length + k) p ↔ word.Has k p := by
  unfold Has
  rw [getElem?_between (Nat.le_add_right _ _) (by rw [List.length_append]; omega),
    Nat.add_sub_cancel_left]

theorem isName_iff : word.isName = true ↔
    0 < word.length ∧ word.Has 0 isLetter ∧ ∀ k < word.length, word.Has k isAlphanumeric := by
  cases word with
  | nil => exact iff_of_false Bool.false_ne_true fun h => absurd h.1 (Nat.lt_irrefl 0)
  | cons first others =>
    simp only [isName, Bool.and_eq_true, List.all_eq_true]
    constructor
    · rintro ⟨hletter, hothers⟩
      refine ⟨Nat.succ_pos _, ⟨first, rfl, hletter⟩, ?_⟩
      intro k hk
      refine ⟨(first :: others)[k], List.getElem?_eq_getElem hk, ?_⟩
      rcases List.mem_cons.mp (List.getElem_mem hk) with heq | hmem
      · rw [heq]
        exact Bool.or_eq_true_iff.mpr (.inl hletter)
      · exact hothers _ hmem
    · rintro ⟨-, hletter, hall⟩
      refine ⟨hletter.of_some rfl, ?_⟩
      intro u hu
      obtain ⟨k, hk, rfl⟩ := List.getElem_of_mem hu
      exact (hall (k + 1) (Nat.succ_lt_succ hk)).of_some (List.getElem?_eq_getElem hk)

/-- An identifier is a name with nothing in front of it that would belong to it. -/
theorem isLeast_starts_iff :
    IsLeast ((front ++ (word ++ back)).identifierStarts (front.length + word.length)) front.length ↔
      word.isName = true ∧ front.identifierStarts front.length = ∅ := by
  have hword : front.length ∈
      (front ++ (word ++ back)).identifierStarts (front.length + word.length) ↔
      word.isName = true := by
    rw [isName_iff]
    constructor
    · rintro ⟨hlt, hletter, hrun⟩
      have hpos : 0 < word.length := by omega
      refine ⟨hpos, (has_word hpos).mp hletter, ?_⟩
      intro k hk
      exact (has_word hk).mp (hrun _ (Nat.le_add_right _ _) (by omega))
    · rintro ⟨hpos, hletter, hrun⟩
      refine ⟨by omega, (has_word hpos).mpr hletter, ?_⟩
      intro j hlow hhigh
      obtain ⟨k, rfl⟩ := Nat.exists_eq_add_of_le hlow
      exact (has_word (by omega)).mpr (hrun k (by omega))
  rw [IsLeast, hword]
  refine and_congr_right fun hname => ?_
  obtain ⟨-, -, hrun⟩ := hword.mpr hname
  constructor
  · intro hleast
    refine Set.eq_empty_of_forall_notMem ?_
    rintro i ⟨hi, hletter, hfront⟩
    refine absurd (hleast ⟨by omega, (has_front hi).mpr hletter, ?_⟩) (Nat.not_le.mpr hi)
    intro j hlow hhigh
    by_cases hj : j < front.length
    · exact (has_front hj).mpr (hfront j hlow hj)
    · exact hrun j (Nat.not_lt.mp hj) hhigh
  · rintro hempty i ⟨-, hletter, hall⟩
    refine Nat.not_lt.mp fun hi => ?_
    have hmem : i ∈ front.identifierStarts front.length := by
      refine ⟨hi, (has_front hi).mp hletter, ?_⟩
      intro j hlow hj
      exact (has_front hj).mp (hall j hlow (by omega))
    rw [hempty] at hmem
    cases hmem

end Text

/-! ## Scanning up to a name -/

namespace Token

variable {rounding : Rounding} {front word choice : Text}

/-- The place where a token begins is straddled by none. -/
theorem not_straddles_start {t : Text} {start last : Nat} {kind : Kind}
    (h : ⟨kind, start, last⟩ ∈ beforeEnd (scan rounding t)) :
    ∀ token ∈ scan rounding t, ¬ token.Straddles start := by
  have hscanned := beforeEnd_scanned rounding t
  have hspan := (hscanned.spans _ h).2.1
  have hincreasing := hscanned.increasing
  intro token htoken hstraddles
  rw [scan_eq] at htoken
  obtain ⟨hlow, hhigh⟩ := hstraddles
  rcases List.mem_append.mp htoken with htoken | hend
  · obtain ⟨earlier, later, hsplit⟩ := List.append_of_mem h
    rw [hsplit] at htoken hincreasing
    obtain ⟨-, hlater, hearlier⟩ := List.pairwise_append.mp hincreasing
    rcases List.mem_append.mp htoken with htoken | htoken
    · have hstop := hearlier token htoken _ List.mem_cons_self
      simp only at hstop
      omega
    · rcases List.mem_cons.mp htoken with rfl | htoken
      · exact absurd hlow (Int.lt_irrefl _)
      · have hstart := (List.pairwise_cons.mp hlater).1 token htoken
        simp only at hstart hspan
        omega
  · cases List.mem_singleton.mp hend
    simp only at hlow hhigh
    omega

theorem quiet_of_isName (hword : word.isName = true) (hchoice : choice.isName = true) :
    Quiet word choice := by
  intro u hu
  cases choice with
  | nil => cases hu
  | cons first others =>
    cases hu
    cases word with
    | nil => cases hword
    | cons letter rest =>
      have hletter := (Bool.and_eq_true_iff.mp hchoice).1
      have hletter' := (Bool.and_eq_true_iff.mp hword).1
      have halphanumeric : Text.isAlphanumeric u = true := Bool.or_eq_true_iff.mpr (.inl hletter)
      refine ⟨Text.isDigit_of_isLetter hletter, ?_, ?_, ?_⟩
      · rintro rfl
        exact absurd hletter (by decide)
      · refine Bool.eq_false_iff.mpr fun hlow => ?_
        have hfirst : 0xDC00 ≤ u := of_decide_eq_true (Bool.and_eq_true_iff.mp hlow).1
        exact absurd (UInt16.le_trans hfirst (Text.le_of_isAlphanumeric halphanumeric)) (by decide)
      · exact fun _ => ⟨letter, rfl, Bool.or_eq_true_iff.mpr (.inl hletter')⟩

/-- A name alone is one identifier. -/
theorem scanFrom_name (rounding : Rounding) (offset : Nat) (h : word.isName = true) :
    scanFrom rounding offset word = [⟨.identifier, offset, (offset + word.length : Nat)⟩,
      ⟨.endOfText, (offset + word.length : Nat), (offset + word.length : Nat)⟩] := by
  cases word with
  | nil => cases h
  | cons first others =>
    obtain ⟨hletter, hothers⟩ := Bool.and_eq_true_iff.mp h
    have hspace : first ≠ Text.unit ' ' := by
      rintro rfl
      exact absurd hletter (by decide)
    have hlexeme : lexeme rounding first others = (.identifier, others.length) := by
      rw [lexeme, Text.isDigit_of_isLetter hletter, if_neg Bool.false_ne_true, if_pos hletter,
        List.takeWhile_eq_self_iff.mpr (List.all_eq_true.mp hothers)]
    have hlength : offset + 1 + others.length = offset + (first :: others).length := by
      rw [List.length_cons]
      omega
    rw [scanFrom_cons _ _ _ hspace, hlexeme]
    simp only [List.drop_length, hlength]
    rw [scanFrom]

/-- **The tokens in front of a name at the end of the text are the same with any other name in its
place**, if nothing in front of it would belong to it. -/
theorem scan_swap (rounding : Rounding) (hfront : front.identifierStarts front.length = ∅)
    (hword : word.isName = true) (hchoice : choice.isName = true) : ∃ body,
      scan rounding (front ++ word) = body ++ scanFrom rounding front.length word ∧
      scan rounding (front ++ choice) = body ++ scanFrom rounding front.length choice := by
  have hleast := (@Text.isLeast_starts_iff front word []).mpr ⟨hword, hfront⟩
  rw [List.append_nil] at hleast
  obtain ⟨last, hmem, -⟩ := exists_identifier_of_isLeast rounding hleast
  have hclear : ∀ token ∈ scanFrom rounding 0 (front ++ word),
      ¬ token.Straddles (0 + front.length) := by
    rw [Nat.zero_add]
    exact not_straddles_start hmem
  obtain ⟨body, -, hback, hother⟩ := scanFrom_append rounding (quiet_of_isName hword hchoice) hclear
  rw [Nat.zero_add] at hback hother
  exact ⟨body, hback, hother⟩

end Token

/-! ## Accepting -/

/-- The text around the identifier in front of an offset. -/
theorem Text.split_identifierSpan {t : Text} {offset : Int} {span : Span}
    (h : t.identifierSpan offset = some span) : ∃ front word back : Text,
      t = front ++ (word ++ back) ∧ front.length = span.start ∧
      front.length + word.length = span.stop ∧ (span.stop : Int) = offset ∧
      word.isName = true ∧ front.identifierStarts front.length = ∅ := by
  obtain ⟨hlt, hstop, hle⟩ := identifierSpan_bounds h
  rw [← hstop, identifierSpan_eq_some_iff hle] at h
  have hfront : (t.take span.start).length = span.start := List.length_take_of_le (by omega)
  have hword : ((t.drop span.start).take (span.stop - span.start)).length =
      span.stop - span.start := by
    apply List.length_take_of_le
    rw [List.length_drop]
    omega
  have htext : t = t.take span.start ++ ((t.drop span.start).take (span.stop - span.start) ++
      (t.drop span.start).drop (span.stop - span.start)) := by
    rw [List.take_append_drop, List.take_append_drop]
  generalize t.take span.start = front at hfront htext
  generalize (t.drop span.start).take (span.stop - span.start) = word at hword htext
  generalize (t.drop span.start).drop (span.stop - span.start) = back at htext
  have hlength : front.length + word.length = span.stop := by omega
  obtain ⟨-, hleast⟩ := h
  rw [htext, ← hlength, ← hfront, isLeast_starts_iff] at hleast
  exact ⟨front, word, back, htext, hfront, hlength, hstop, hleast⟩

/-- **Accepting a name swaps one token.** It takes the place of the identifier before the cursor,
the cursor goes behind it, the list is closed and the history stays as it is. What is before the
cursor then is an identifier again, namely the name, and up to there the tokens are the same as
before, but for that one and the end of the text. -/
theorem accept_swaps_identifier (rounding : Rounding) {e : Editor} {c : Completion} {choice : Text}
    {span : Span} (hspan : e.identifier? = some span) (hopen : e.completion = some c)
    (hchoice : c.selected? = some choice) (hname : choice.isName = true) :
    (span.stop : Int) = e.cursor ∧
    e.accept = ⟨e.input.take span.start ++ choice ++ e.input.drop span.stop,
      span.start + choice.length, e.history, e.historyIndex, none⟩ ∧
    e.accept.identifier? = some ⟨span.start, span.start + choice.length⟩ ∧
    e.accept.input.slice span.start e.accept.cursor = choice ∧
    ∃ body,
      Token.scan rounding (e.input.before e.cursor) = body ++
        [⟨.identifier, span.start, e.cursor⟩, ⟨.endOfText, e.cursor, e.cursor⟩] ∧
      Token.scan rounding (e.accept.input.before e.accept.cursor) = body ++
        [⟨.identifier, span.start, e.accept.cursor⟩,
          ⟨.endOfText, e.accept.cursor, e.accept.cursor⟩] := by
  obtain ⟨front, word, back, htext, hstart, hstop, hcursor, hword, hfront⟩ :=
    Text.split_identifierSpan hspan
  have hlength : (front ++ word).length = span.stop := by rw [List.length_append, hstop]
  have htext' : e.input = (front ++ word) ++ back := by rw [htext, List.append_assoc]
  have haccept : e.accept = ⟨front ++ choice ++ back, span.start + choice.length, e.history,
      e.historyIndex, none⟩ := by
    have hbefore : e.input.before span.start = front := by
      rw [htext, ← hstart]
      exact Text.before_append front _
    have hafter : e.input.after span.stop = back := by
      rw [htext', ← hlength]
      exact Text.after_append _ back
    rw [Editor.accept_of_some hopen hchoice hspan, hbefore, hafter]
  have htake : e.input.take span.start = front := by rw [htext, ← hstart, List.take_left]
  have hdrop : e.input.drop span.stop = back := by rw [htext', ← hlength, List.drop_left]
  obtain ⟨body, hscan, hscan'⟩ := Token.scan_swap rounding hfront hword hname
  rw [Token.scanFrom_name rounding _ hword, hstop, hstart] at hscan
  rw [Token.scanFrom_name rounding _ hname, hstart] at hscan'
  have hcursor' : (span.start : Int) + choice.length = (front ++ choice).length := by
    rw [List.length_append, hstart]
    rfl
  rw [haccept, htake, hdrop]
  refine ⟨hcursor, rfl, ?_, ?_, body, ?_, ?_⟩
  · -- Whatever was in front of the identifier does not belong to the name either.
    have hinside : front.length + choice.length ≤ (front ++ (choice ++ back)).length := by
      rw [← List.append_assoc, ← List.length_append]
      exact (List.prefix_append (front ++ choice) back).length_le
    rw [Editor.identifier?, List.append_assoc, ← hstart]
    exact (Text.identifierSpan_eq_some_iff hinside).mpr
      ⟨rfl, Text.isLeast_starts_iff.mpr ⟨hname, hfront⟩⟩
  · rw [List.append_assoc, ← hstart]
    exact Text.slice_between front choice back
  · rw [← hcursor, htext', ← hlength, Text.before_append, hlength]
    exact hscan
  · rw [hcursor', Text.before_append, hscan', ← hcursor']
    rfl

/-- Up to the cursor, `1.5ab2` is a number and a part of the name `ab2c`. -/
theorem accept_swaps_identifier_inside :
    let e : Editor := ⟨"1.5ab2c*x", 6, ["x=1"], 0, some ⟨["abs", "abort9"], 1⟩⟩
    e.identifier? = some ⟨3, 6⟩ ∧
    e.accept = ⟨"1.5abort9c*x", 9, ["x=1"], 0, none⟩ ∧
    e.accept.identifier? = some ⟨3, 9⟩ ∧
    ∃ body, Token.scan .halfEven "1.5ab2" = body ++ [⟨.identifier, 3, 6⟩, ⟨.endOfText, 6, 6⟩] ∧
      Token.scan .halfEven "1.5abort9" = body ++ [⟨.identifier, 3, 9⟩, ⟨.endOfText, 9, 9⟩] := by
  intro e
  have hspan : e.identifier? = some ⟨3, 6⟩ := by decide
  obtain ⟨-, haccept, hidentifier, -, hscan⟩ :=
    accept_swaps_identifier .halfEven hspan rfl rfl (by decide)
  rw [haccept] at hidentifier hscan
  exact ⟨hspan, haccept, hidentifier, hscan⟩

end Reckoner
