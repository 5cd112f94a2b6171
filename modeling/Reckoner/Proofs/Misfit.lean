import Reckoner.Proofs.Parsing.Statement
import Reckoner.Proofs.Scanning

/-!
# Errors point at the first impossible token

The parser stops at the first token that no sentence has where it stands: what was read before it
can be continued (`HasRead.viable`), and if it could be read, it would have been (`Sentence.read`).
The sides of an equation are checked once both are read, so the one other failure comes behind a
whole `expr = expr`.
-/

namespace Reckoner

variable {source : Text} {ts tokens : List Token} {failure : Failure}

/-- Token number `k` is the first that no sentence has where it stands. The end token stands where
a sentence would end. -/
structure FirstImpossible (source : Text) (tokens : List Token) (k : Nat) (t : Token) : Prop where
  stands : tokens[k]? = some t
  before : Viable source (tokens.take k)
  token : t.kind ≠ .endOfText → ¬ Viable source (tokens.take (k + 1))
  atEnd : t.kind = .endOfText → ∀ target value, ¬ Sentence source (tokens.take k) target value

/-- The tokens begin with an equation whose left side cannot be assigned. -/
def BeginsUnassignable (source : Text) (tokens : List Token) : Prop :=
  ∃ left equal right rest target value, tokens = left ++ equal :: right ++ rest ∧
    Derives source .expr left target ∧ equal.kind = .equal ∧ Derives source .expr right value ∧
    target.isAssignable = false

theorem Fault.code_of_isMisfit {fault : Fault} (h : fault.isMisfit = true) :
    fault.code = ("UNEXPECTED_TOKEN" : Text) ∨ fault.code = ("UNCLOSED_PAREN" : Text) ∨
      fault.code = ("TRAILING_INPUT" : Text) := by
  cases fault with
  | expectedExpression => exact .inl rfl
  | unclosedGroup => exact .inr (.inl rfl)
  | unclosedArguments => exact .inr (.inl rfl)
  | trailingInput => exact .inr (.inr rfl)
  | _ => cases h

theorem BeginsUnassignable.append (h : BeginsUnassignable source ts) (more : List Token) :
    BeginsUnassignable source (ts ++ more) := by
  obtain ⟨left, equal, right, rest, target, value, rfl, hrest⟩ := h
  exact ⟨left, equal, right, rest ++ more, target, value, by simp, hrest⟩

/-- What makes a step fail: the token, or an equation that was read before it. -/
theorem HasRead.step_error {s : ParseState} {t : Token} (h : HasRead source ts s)
    (hs : s.step source t = .error failure) :
    (∃ fault, fault.isMisfit = true ∧ failure = .fault fault t.start) ∨
      ∃ target value, Sentence source ts (some target) value ∧
        Stmt.assignment target value = .error failure := by
  cases h with
  | @left _ stack focus read =>
    have ho := step_outcome (s := ⟨none, stack, focus⟩) (t := t) read
    rw [hs] at ho
    cases ho with
    | misfit fault hm => exact .inl ⟨fault, hm, rfl⟩
    | unassignable assigned => cases assigned
  | @right _ _ _ target stack focus left equal read =>
    have ho := step_outcome (s := ⟨some target, stack, focus⟩) (t := t) read
    rw [hs] at ho
    cases ho with
    | misfit fault hm => exact .inl ⟨fault, hm, rfl⟩
    | unassignable assigned right ha =>
      cases assigned
      exact .inr ⟨target, _, .equation left equal right, ha⟩

/-- Tokens that can be continued to a sentence can be read. -/
theorem Viable.steps (h : Viable source ts) :
    ∃ s, ParseState.initial.steps source ts = .ok s := by
  obtain ⟨rest, target, value, hsent⟩ := h
  obtain ⟨last, hread, -⟩ := hsent.read
  obtain ⟨s, hs, -⟩ := ParseState.steps_split hread
  exact ⟨s, hs⟩

theorem not_viable_of_step_error {s : ParseState} {t : Token}
    (hs : ParseState.initial.steps source ts = .ok s) (ht : s.step source t = .error failure) :
    ¬ Viable source (ts ++ [t]) := by
  intro hv
  obtain ⟨last, hlast⟩ := hv.steps
  rw [ParseState.steps_append hs] at hlast
  obtain ⟨next, hnext, -⟩ := ParseState.steps_cons_ok hlast
  rw [ht] at hnext
  cases hnext

theorem BeginsUnassignable.of_assignment_error {target value : Expr}
    (hsent : Sentence source ts (some target) value)
    (ha : Stmt.assignment target value = .error failure) :
    BeginsUnassignable source ts ∧ ∃ fault pos,
      fault.code = ("INVALID_ASSIGNMENT" : Text) ∧ failure = .fault fault pos := by
  cases hsent with
  | equation left equal right =>
    obtain ⟨hno, fault, pos, hfault, rfl⟩ := assignment_error left ha
    refine ⟨⟨_, _, _, [], target, value, by simp, left, equal, right, hno⟩, fault, pos, ?_, rfl⟩
    rcases hfault with rfl | rfl <;> rfl

/-- The sides of a sentence fit together, whether or not the left one can be assigned. -/
theorem Sentence.ofSides_ne_misfit {target : Option Expr} {value : Expr} {fault : Fault} {pos : Int}
    (h : Sentence source ts target value) (hm : fault.isMisfit = true) :
    Stmt.ofSides target value ≠ .error (.fault fault pos) := by
  intro herror
  cases h with
  | expression => cases herror
  | equation left equal right =>
    obtain ⟨-, other, pos, hother, heq⟩ := assignment_error left herror
    cases heq
    rcases hother with rfl | rfl <;> cases hm

/-- The two ways to fail, on any tokens in front of an end token. -/
theorem parse_error_cases {t : Token} {after : List Token} (hts : ∀ u ∈ ts, u.kind ≠ .endOfText)
    (ht : t.kind = .endOfText) (h : Stmt.parse source (ts ++ t :: after) = .error failure) :
    (∃ fault k u, fault.isMisfit = true ∧ failure = .fault fault u.start ∧
      FirstImpossible source (ts ++ t :: after) k u) ∨
    (BeginsUnassignable source ts ∧ ∃ fault pos, fault.code = ("INVALID_ASSIGNMENT" : Text) ∧
      failure = .fault fault pos) := by
  have hfront : Token.beforeEnd (ts ++ t :: after) = ts := by
    rw [Token.beforeEnd, List.takeWhile_append_of_pos (by simpa using hts)]
    simp [ht]
  have hpos : Token.endPosition source (ts ++ t :: after) = t.start := by
    rw [Token.endPosition, List.dropWhile_append_of_pos (by simpa using hts)]
    simp [ht]
  rw [Stmt.parse, ParseState.run_eq, hfront, hpos] at h
  cases hs : ParseState.initial.steps source ts with
  | error f =>
    rw [hs] at h
    cases h
    obtain ⟨before, u, rest, s, rfl, hread, hu⟩ := ParseState.steps_error hs
    have hr : HasRead source before s := (HasRead.initial source).steps hread
    rcases hr.step_error hu with ⟨fault, hm, rfl⟩ | ⟨target, value, hsent, ha⟩
    · refine .inl ⟨fault, before.length, u, hm, rfl, by simp, ?_, fun _ => ?_, fun hend => ?_⟩
      · simpa using hr.viable
      · have htake : (before ++ u :: rest ++ t :: after).take (before.length + 1) =
            before ++ [u] := by
          simp [List.take_append, List.take_of_length_le]
        rw [htake]
        exact not_viable_of_step_error hread hu
      · exact absurd hend (hts u (by simp))
    · obtain ⟨hbegins, hfault⟩ := BeginsUnassignable.of_assignment_error hsent ha
      exact .inr ⟨hbegins.append (u :: rest), hfault⟩
  | ok last =>
    rw [hs] at h
    have hstop : last.stop source t.start = .error failure := h
    have hr : HasRead source ts last := (HasRead.initial source).steps hs
    rcases hr.stop with ⟨fault, hm, hf⟩ | ⟨target, value, hsent, hf⟩
    · rw [hf] at hstop
      cases hstop
      refine .inl ⟨fault, ts.length, t, hm, rfl, by simp, by simpa using hr.viable,
        fun hn => absurd ht hn, fun _ target value hsent => ?_⟩
      -- A sentence would have led to this very state, and stopping there would have been no misfit.
      rw [List.take_left] at hsent
      obtain ⟨s, hread, hsides⟩ := hsent.read
      have hsame : last = s := Except.ok.inj (hs.symm.trans hread)
      exact hsent.ofSides_ne_misfit hm (by rw [← hsides t.start, ← hsame, hf])
    · rw [hf] at hstop
      cases target with
      | none => cases hstop
      | some target => exact .inr (BeginsUnassignable.of_assignment_error hsent hstop)

/-- **Errors point at the first impossible token.** Parsing the scan of a text fails in two ways.
A misfit is reported at the start of the first token that no sentence has where it stands, and so
inside the text or at its end. Everything in front of that token can still be continued. All else
is an assignment, refused behind a whole equation. -/
theorem parse_error_first_impossible {rounding : Rounding} {text : Text} {failure : Failure}
    (h : Stmt.parse text (Token.scan rounding text) = .error failure) :
    ∃ fault pos, failure = .fault fault pos ∧
      (((fault.code = ("UNEXPECTED_TOKEN" : Text) ∨ fault.code = ("UNCLOSED_PAREN" : Text) ∨
          fault.code = ("TRAILING_INPUT" : Text)) ∧
        ∃ k t, FirstImpossible text (Token.scan rounding text) k t ∧ pos = t.start ∧
          0 ≤ pos ∧ pos ≤ text.length) ∨
      (fault.code = ("INVALID_ASSIGNMENT" : Text) ∧
        BeginsUnassignable text (Token.scan rounding text))) := by
  have hscan := Token.scan_eq rounding text
  rw [hscan] at h
  have hcases := parse_error_cases (fun _ => Token.kind_of_mem_beforeEnd) rfl h
  rw [← hscan] at hcases
  rcases hcases with ⟨fault, k, t, hm, rfl, hfirst⟩ | ⟨hbegins, fault, pos, hcode, rfl⟩
  · have hstart := Token.scan_start (List.mem_of_getElem? hfirst.stands)
    exact ⟨fault, t.start, rfl, .inl ⟨Fault.code_of_isMisfit hm, k, t, hfirst, rfl, hstart⟩⟩
  · refine ⟨fault, pos, rfl, .inr ⟨hcode, ?_⟩⟩
    rw [hscan]
    exact hbegins.append _

/-- No sentence has an equal sign inside the arguments of a call. -/
theorem parse_error_equal_in_arguments :
    Stmt.parse ("f(1=2" : Text) (Token.scan .halfEven ("f(1=2" : Text)) =
        .error (.fault .unclosedArguments 3) ∧
      ∃ k t, FirstImpossible "f(1=2" (Token.scan .halfEven ("f(1=2" : Text)) k t ∧ t.start = 3 := by
  have hscan : Token.scan .halfEven ("f(1=2" : Text) = [⟨.identifier, 0, 1⟩, ⟨.leftParen, 1, 2⟩,
      ⟨.number (some .one), 2, 3⟩, ⟨.equal, 3, 4⟩, ⟨.number (some (.ofNat 2)), 4, 5⟩,
      ⟨.endOfText, 5, 5⟩] := by decide +kernel
  have herror : Stmt.parse ("f(1=2" : Text) (Token.scan .halfEven ("f(1=2" : Text)) =
      .error (.fault .unclosedArguments 3) := by
    rw [hscan]
    rfl
  refine ⟨herror, ?_⟩
  obtain ⟨fault, pos, hfault, hcases⟩ := parse_error_first_impossible herror
  cases hfault
  rcases hcases with ⟨-, k, t, hfirst, hpos, -⟩ | ⟨hcode, -⟩
  · exact ⟨k, t, hfirst, hpos.symm⟩
  · exact absurd hcode (by decide)

end Reckoner
