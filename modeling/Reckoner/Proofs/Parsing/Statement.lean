import Reckoner.Proofs.Parsing.State

/-!
# Statements

The tokens in front of the end are a sentence, `expr` or `expr = expr`, exactly if the parser gets
to the end without a misfit (`Sentence.read`, `HasRead.stop`). What the sides of an equation are is
looked at last: only a name or a call of names can be assigned, which makes the sentence a statement
of the grammar (`derivesStmt_iff`). Main result: `parse_ok_iff`.
-/

namespace Reckoner

variable {source : Text} {ts us tokens : List Token} {stack : List Pending} {e : Expr} {p : Phrase}

/-- The statement of an expression, or of the two sides of an equation. -/
def Stmt.ofSides (target : Option Expr) (value : Expr) : Except Failure Stmt :=
  match target with
  | none => .ok (.expression value)
  | some target => Stmt.assignment target value

/-! ## Reading to the end -/

theorem stop_conclude {s : ParseState} (ho : s.operand? source = some e) (pos : Int) :
    s.stop source pos = s.conclude pos (reduce Chain.sum.level s.stack e) := by
  cases hf : s.focus with
  | operand => simp [ParseState.operand?, hf] at ho
  | name name =>
    simp only [ParseState.operand?, hf, Option.some.injEq] at ho
    simp only [ParseState.stop, hf, ho]
    rfl
  | finished operand =>
    simp only [ParseState.operand?, hf, Option.some.injEq] at ho
    simp only [ParseState.stop, hf, ho]
    rfl

theorem conclude_bottom (s : ParseState) (pos : Int) (e : Expr) :
    s.conclude pos ([], e) = Stmt.ofSides s.target e := by
  cases ht : s.target <;> simp only [ParseState.conclude, Stmt.ofSides, ht]

theorem Behind.stop {s : ParseState} {target : Option Expr}
    (h : ParseState.Behind source s target [] .expr e) (pos : Int) :
    s.stop source pos = Stmt.ofSides target e := by
  obtain ⟨rfl, operand, ho, hr⟩ := h
  rw [stop_conclude ho, hr Chain.sum.level (Nat.le_refl _)]
  exact conclude_bottom s pos e

/-- Behind a sentence the parser holds the trees of its sides, and nothing is open. -/
theorem Sentence.behind {target : Option Expr} (h : Sentence source ts target e) :
    ∃ s, ParseState.initial.steps source ts = .ok s ∧
      ParseState.Behind source s target [] .expr e := by
  cases h with
  | expression expr => exact ParseState.read_derivation expr none [] (.refl _)
  | @equation ts us equal target _ left assigned right =>
    obtain ⟨s, hread, hb⟩ := ParseState.read_derivation left none [] (.refl _)
    obtain ⟨s', hrest, hb'⟩ := ParseState.read_derivation right (some target) [] (.refl _)
    have hread : ParseState.initial.steps source ts = .ok s := hread
    refine ⟨s', ?_, hb'⟩
    rw [ParseState.steps_append hread, ParseState.steps_cons (hb.assign assigned), hrest]

/-- A sentence is read to its end, and gives the statement of its sides. -/
theorem Sentence.read {target : Option Expr} (h : Sentence source ts target e) :
    ∃ s, ParseState.initial.steps source ts = .ok s ∧
      ∀ pos, s.stop source pos = Stmt.ofSides target e := by
  obtain ⟨s, hread, hb⟩ := h.behind
  exact ⟨s, hread, Behind.stop hb⟩

/-- Once an expression is all that is left in front, nothing is open or the last thing is. -/
theorem Stacked.open_cases (h : Stacked source ts stack)
    (hs : Phrase.expr.Serves (awaited stack)) :
    (ts = [] ∧ stack = []) ∨ (∃ opening rest, stack = .group opening :: rest) ∨
      ∃ name before rest, stack = .arguments name before :: rest := by
  cases h with
  | bottom => exact .inl ⟨rfl, rfl⟩
  | @operator c _ _ _ _ left _ _ _ mark =>
    rw [awaited, (Pending.binary_of_operator left mark).2] at hs
    cases c <;> exact absurd hs.1 (by decide)
  | @sign b => cases b <;> exact absurd hs.1 (by simp [awaited, Pending.awaited, Phrase.level])
  | group => exact .inr (.inl ⟨_, _, rfl⟩)
  | call => exact .inr (.inr ⟨_, _, _, rfl⟩)
  | argument => exact .inr (.inr ⟨_, _, _, rfl⟩)

theorem Focused.stop {s : ParseState} (h : Focused source ts s.stack s.focus) :
    (∃ fault, fault.isMisfit = true ∧ ∀ pos, s.stop source pos = .error (.fault fault pos)) ∨
      ∃ e, Derives source .expr ts e ∧ ∀ pos, s.stop source pos = Stmt.ofSides s.target e := by
  cases ho : s.operand? source with
  | none =>
    refine .inl ⟨.expectedExpression, rfl, fun pos => ?_⟩
    cases hf : s.focus <;> simp [ParseState.operand?, hf] at ho
    simp only [ParseState.stop, hf]
  | some operand =>
    obtain ⟨vs, ws, rfl, hst, hd⟩ := h.operand_read ho
    obtain ⟨vs', ws', heq, hst', hd', hs⟩ := hst.reduce_chain .sum hd
    have hstop := fun pos => stop_conclude ho pos
    generalize reduce Chain.sum.level s.stack operand = r at hst' hd' hs hstop
    obtain ⟨rest, e⟩ := r
    rcases hst'.open_cases hs with ⟨rfl, rfl⟩ | ⟨opening, rest, rfl⟩ | ⟨name, before, rest, rfl⟩
    · refine .inr ⟨e, by rw [heq]; exact hd', fun pos => ?_⟩
      rw [hstop, conclude_bottom]
    · exact .inl ⟨.unclosedGroup, rfl, hstop⟩
    · exact .inl ⟨.unclosedArguments, rfl, hstop⟩

/-- At the end of the tokens either something is missing, or they were a sentence. -/
theorem HasRead.stop {s : ParseState} (h : HasRead source ts s) :
    (∃ fault, fault.isMisfit = true ∧ ∀ pos, s.stop source pos = .error (.fault fault pos)) ∨
      ∃ target e, Sentence source ts target e ∧
        ∀ pos, s.stop source pos = Stmt.ofSides target e := by
  cases h with
  | @left _ stack focus read =>
    rcases Focused.stop (s := ⟨none, stack, focus⟩) read with h | ⟨e, he, hstop⟩
    · exact .inl h
    · exact .inr ⟨none, e, .expression he, hstop⟩
  | @right _ _ _ target stack focus left assigned read =>
    rcases Focused.stop (s := ⟨some target, stack, focus⟩) read with h | ⟨e, he, hstop⟩
    · exact .inl h
    · exact .inr ⟨some target, e, .equation left assigned he, hstop⟩

/-- The parser returns the statement of the one sentence in front of the end. -/
theorem parse_ok_iff_sentence {stmt : Stmt} :
    Stmt.parse source tokens = .ok stmt ↔ ∃ target e,
      Sentence source (Token.beforeEnd tokens) target e ∧ Stmt.ofSides target e = .ok stmt := by
  rw [Stmt.parse, ParseState.run_eq]
  constructor
  · intro h
    cases hs : ParseState.initial.steps source (Token.beforeEnd tokens) with
    | error failure => rw [hs] at h; cases h
    | ok last =>
      rw [hs] at h
      have hstop : last.stop source (Token.endPosition source tokens) = .ok stmt := h
      rcases ((HasRead.initial source).steps hs).stop with ⟨fault, _, hf⟩ | ⟨target, e, hsent, hf⟩
      · rw [hf] at hstop; cases hstop
      · exact ⟨target, e, hsent, by rw [← hf, hstop]⟩
  · rintro ⟨target, e, hsent, hstmt⟩
    obtain ⟨s, hread, hstop⟩ := hsent.read
    rw [hread, ← hstmt]
    exact hstop _

/-! ## What can be assigned -/

def Expr.isName : Expr → Bool
  | .var _ _ => true
  | _ => false

/-- A bare name, or a call of bare names. -/
def Expr.isAssignable : Expr → Bool
  | .var _ _ => true
  | .call _ args _ => args.all Expr.isName
  | _ => false

theorem parameter_ok {name : Text} (h : e.parameter = .ok name) : ∃ pos, e = .var name pos := by
  have no_name {e : Expr} : (do throw (.fault .invalidParameter (← e.position)) :
      Except Failure Text) ≠ .ok name := by
    intro hc
    cases hp : e.position <;> rw [hp] at hc <;> cases hc
  cases e with
  | var => cases h; exact ⟨_, rfl⟩
  | _ => exact absurd h no_name

theorem parameter_error {failure : Failure} (hd : Derives source p ts e)
    (h : e.parameter = .error failure) :
    e.isName = false ∧ ∃ pos, failure = .fault .invalidParameter pos := by
  obtain ⟨t, rest, -, hpos⟩ := hd.position
  cases e with
  | var => cases h
  | _ =>
    simp only [Expr.parameter, hpos] at h
    cases h
    exact ⟨rfl, _, rfl⟩

theorem mapM_parameter_cons (e : Expr) (args : List Expr) :
    (e :: args).mapM Expr.parameter = e.parameter.bind fun name =>
      (args.mapM Expr.parameter).bind fun names => .ok (name :: names) :=
  List.mapM_cons

theorem mapM_parameter_ok {args : List Expr} {params : List Text}
    (h : (e :: args).mapM Expr.parameter = .ok params) :
    ∃ name names, e.parameter = .ok name ∧ args.mapM Expr.parameter = .ok names ∧
      params = name :: names := by
  rw [mapM_parameter_cons] at h
  cases hn : e.parameter with
  | error failure => rw [hn] at h; cases h
  | ok name =>
    rw [hn] at h
    cases hns : args.mapM Expr.parameter with
    | error failure => rw [hns] at h; cases h
    | ok names => rw [hns] at h; cases h; exact ⟨name, names, rfl, rfl, rfl⟩

theorem mapM_parameter_error {args : List Expr} {failure : Failure}
    (hd : ∀ e ∈ args, ∃ ts, Derives source .expr ts e)
    (h : args.mapM Expr.parameter = .error failure) :
    args.all Expr.isName = false ∧ ∃ pos, failure = .fault .invalidParameter pos := by
  induction args with
  | nil => cases h
  | cons e args ih =>
    rw [mapM_parameter_cons] at h
    obtain ⟨ts, he⟩ := hd e List.mem_cons_self
    cases hn : e.parameter with
    | error f =>
      rw [hn] at h
      cases h
      obtain ⟨hname, hf⟩ := parameter_error he hn
      exact ⟨by simp [hname], hf⟩
    | ok name =>
      rw [hn] at h
      cases hns : args.mapM Expr.parameter with
      | ok names => rw [hns] at h; cases h
      | error f =>
        rw [hns] at h
        cases h
        obtain ⟨hall, hf⟩ := ih (fun e he => hd e (List.mem_cons_of_mem _ he)) hns
        exact ⟨by simp [hall], hf⟩

theorem assignment_ok {target value : Expr} {stmt : Stmt}
    (h : Stmt.assignment target value = .ok stmt) :
    (∃ name pos, target = .var name pos ∧ stmt = .variableAssignment name value) ∨
      ∃ name args pos params, target = .call name args pos ∧
        args.mapM Expr.parameter = .ok params ∧ stmt = .functionAssignment name params value := by
  have no_target {e : Expr} : (do throw (.fault .invalidTarget (← e.position)) :
      Except Failure Stmt) ≠ .ok stmt := by
    intro hc
    cases hp : e.position <;> rw [hp] at hc <;> cases hc
  cases target with
  | var => cases h; exact .inl ⟨_, _, rfl, rfl⟩
  | call name args pos =>
    cases hp : args.mapM Expr.parameter with
    | error failure => simp only [Stmt.assignment, hp] at h; cases h
    | ok params =>
      simp only [Stmt.assignment, hp] at h
      cases h
      exact .inr ⟨name, args, pos, params, rfl, hp, rfl⟩
  | _ => exact absurd h no_target

/-- A side that cannot be assigned is no name and no call of names. -/
theorem assignment_error {target value : Expr} {failure : Failure}
    (hd : Derives source .expr ts target) (h : Stmt.assignment target value = .error failure) :
    target.isAssignable = false ∧ ∃ fault pos,
      (fault = .invalidTarget ∨ fault = .invalidParameter) ∧ failure = .fault fault pos := by
  obtain ⟨t, rest, -, hpos⟩ := hd.position
  cases target with
  | var => cases h
  | call name args pos =>
    have hargs : ∀ e ∈ args, ∃ ts, Derives source .expr ts e := by
      cases hd.primary_of (by simp) (by simp) with
      | call turns _ _ first _ nexts _ =>
        intro e he
        rcases List.mem_cons.mp he with rfl | he
        · exact ⟨_, first⟩
        · obtain ⟨turn, hturn, rfl⟩ := List.mem_map.mp he
          exact ⟨_, nexts turn hturn⟩
    cases hp : args.mapM Expr.parameter with
    | ok params => simp only [Stmt.assignment, hp] at h; cases h
    | error f =>
      simp only [Stmt.assignment, hp] at h
      cases h
      obtain ⟨hall, pos, hf⟩ := mapM_parameter_error hargs hp
      exact ⟨hall, .invalidParameter, pos, .inr rfl, hf⟩
  | _ =>
    simp only [Stmt.assignment, hpos] at h
    cases h
    exact ⟨rfl, .invalidTarget, t.start, .inl rfl, rfl⟩

/-- The parameters of a function are read from one token each. -/
theorem params_of_turns {turns : List Turn} {params : List Text}
    (commas : ∀ turn ∈ turns, turn.mark.kind = .comma)
    (nexts : ∀ turn ∈ turns, Derives source .expr turn.tokens turn.tree)
    (h : (turns.map Turn.tree).mapM Expr.parameter = .ok params) :
    ∃ others : List (Token × Token), (∀ other ∈ others, other.1.kind = .comma) ∧
      (∀ other ∈ others, other.2.kind = .identifier) ∧
      Turn.spell turns = (others.flatMap fun other => [other.1, other.2]) ∧
      params = others.map fun other => other.2.name source := by
  induction turns generalizing params with
  | nil => cases h; exact ⟨[], by simp, by simp, rfl, rfl⟩
  | cons turn turns ih =>
    obtain ⟨name, names, hname, hnames, rfl⟩ := mapM_parameter_ok h
    obtain ⟨others, hc, hp, hspell, rfl⟩ := ih (fun t ht => commas t (List.mem_cons_of_mem _ ht))
      (fun t ht => nexts t (List.mem_cons_of_mem _ ht)) hnames
    obtain ⟨pos, htree⟩ := parameter_ok hname
    have hturn := nexts turn List.mem_cons_self
    rw [htree] at hturn
    obtain ⟨t, kind, htokens, rfl, -⟩ := hturn.tokens_of_var
    exact ⟨(turn.mark, t) :: others,
      List.forall_mem_cons.mpr ⟨commas turn List.mem_cons_self, hc⟩,
      List.forall_mem_cons.mpr ⟨kind, hp⟩, by simp [htokens, hspell], rfl⟩

theorem mapM_parameter_params (others : List (Token × Token)) :
    (others.map fun other => Expr.var (other.2.name source) other.2.start).mapM Expr.parameter =
      .ok (others.map fun other => other.2.name source) := by
  induction others with
  | nil => rfl
  | cons other others ih => rw [List.map_cons, mapM_parameter_cons, ih]; rfl

/-- The turns of a call that stand for the parameters of a function. -/
def Turn.params (source : Text) (others : List (Token × Token)) : List Turn :=
  others.map fun other => ⟨other.1, [other.2], .var (other.2.name source) other.2.start⟩

theorem spell_params (others : List (Token × Token)) :
    Turn.spell (Turn.params source others) = others.flatMap fun other => [other.1, other.2] := by
  induction others with
  | nil => rfl
  | cons other others ih =>
    rw [Turn.params, List.map_cons, Turn.spell_cons, List.flatMap_cons, ← ih]
    rfl

/-- The statements of the grammar are the sentences whose left side can be assigned. -/
theorem derivesStmt_iff {stmt : Stmt} :
    DerivesStmt source ts stmt ↔ ∃ target e,
      Sentence source ts target e ∧ Stmt.ofSides target e = .ok stmt := by
  constructor
  · intro h
    cases h with
    | expression expr => exact ⟨none, _, .expression expr, rfl⟩
    | variableAssignment kind assigned value =>
      have hname : Derives source .expr _ _ := (Derives.name kind).serve (Phrase.primary_serves _)
      exact ⟨_, _, .equation hname assigned value, rfl⟩
    | @functionAssignment name opening param closing equal others ts e kind opened first commas
        params closed assigned body =>
      have hcall := (Derives.call (Turn.params source others) kind opened
        ((Derives.name first).serve (Phrase.primary_serves .expr))
        (List.forall_mem_map.mpr commas)
        (List.forall_mem_map.mpr fun other ho =>
          (Derives.name (params other ho)).serve (Phrase.primary_serves .expr))
        closed).serve (Phrase.primary_serves .expr)
      refine ⟨_, e, by simpa [spell_params] using Sentence.equation hcall assigned body, ?_⟩
      simp only [Stmt.ofSides, Stmt.assignment, mapM_parameter_cons, Turn.params, List.map_map,
        Function.comp_def, mapM_parameter_params]
      rfl
  · rintro ⟨target, e, hsent, hstmt⟩
    cases hsent with
    | expression expr => cases hstmt; exact .expression expr
    | equation left assigned right =>
      rcases assignment_ok hstmt with ⟨name, pos, rfl, rfl⟩ |
        ⟨name, args, pos, params, rfl, hp, rfl⟩
      · obtain ⟨t, kind, rfl, rfl, -⟩ := left.tokens_of_var
        exact .variableAssignment kind assigned right
      · cases left.primary_of (by simp) (by simp) with
        | call turns kind opened first commas nexts closed =>
          obtain ⟨name, names, hname, hnames, rfl⟩ := mapM_parameter_ok hp
          obtain ⟨others, hc, hids, hspell, rfl⟩ := params_of_turns commas nexts hnames
          obtain ⟨pos, rfl⟩ := parameter_ok hname
          obtain ⟨param, hparam, rfl, rfl, -⟩ := first.tokens_of_var
          have h := DerivesStmt.functionAssignment kind opened hparam hc hids closed assigned right
          simpa [hspell] using h

/-- Tokens derive one statement at most, with one tree. -/
theorem DerivesStmt.unique {stmt other : Stmt} (h : DerivesStmt source ts stmt)
    (h' : DerivesStmt source ts other) : stmt = other := by
  obtain ⟨target, e, hsent, hstmt⟩ := derivesStmt_iff.mp h
  obtain ⟨target', e', hsent', hstmt'⟩ := derivesStmt_iff.mp h'
  obtain ⟨s, hread, hstop⟩ := hsent.read
  obtain ⟨s', hread', hstop'⟩ := hsent'.read
  have hs : s = s' := Except.ok.inj (hread.symm.trans hread')
  have hok : Except.ok stmt = (.ok other : Except Failure Stmt) := by
    rw [← hstmt, ← hstmt', ← hstop 0, ← hstop' 0, hs]
  exact Except.ok.inj hok

/-- **The parser accepts exactly the statements of the grammar, and returns their trees.** -/
theorem parse_ok_iff {stmt : Stmt} :
    Stmt.parse source tokens = .ok stmt ↔ DerivesStmt source (Token.beforeEnd tokens) stmt := by
  rw [parse_ok_iff_sentence, derivesStmt_iff]

end Reckoner
