import Reckoner.Proofs.Parsing.Statement

/-!
# Parsing by descent

The grammar read as a program: one procedure for each nonterminal, which calls the others and moves
a position along the tokens. Nothing in its text says that the calls come to an end, so they are
only allowed to be nested to some depth, beyond which there is no outcome. They do come to an end: a
call has always taken a token before it comes back to a procedure that is waiting already
(`Call.rank`), and no procedure moves over an end token, so a depth in proportion to the tokens is
enough, and a larger one makes no difference (`Descent.parse_of_le`). Where the procedures end they
agree with the parser that keeps a stack (`Descent.agrees`): one that is called where its phrase is
awaited leaves that parser behind the tree it returns, or fails as it does.

The main result is `parsing_ends`.
-/

namespace Reckoner

/-- A position in the tokens, and all that were looked at on the way, the last one first. -/
structure Place where
  pos : Nat
  looked : List Nat

/-- A procedure that starts in some place. It has no outcome if its calls are nested too deeply. -/
abbrev Procedure := ExceptT Failure (StateT Place Option)

namespace Procedure

variable {α β : Type} {m : Procedure α} {f : α → Procedure β} {place : Place}

theorem bind_of_ok {value : α} {next : Place} (h : m place = some (.ok value, next)) :
    (m >>= f) place = f value next := by
  simp only [bind, ExceptT.bind, ExceptT.mk, ExceptT.bindCont, StateT.bind, h]
  rfl

theorem bind_of_error {failure : Failure} {next : Place}
    (h : m place = some (.error failure, next)) :
    (m >>= f) place = some (.error failure, next) := by
  simp only [bind, ExceptT.bind, ExceptT.mk, ExceptT.bindCont, StateT.bind, h]
  rfl

/-- The procedure ends, and what it returns or fails with is as described. -/
inductive Ends (m : Procedure α) (place : Place) (returns : α → Place → Prop)
    (fails : Failure → Place → Prop) : Prop where
  | ok {value : α} {next : Place} (outcome : m place = some (.ok value, next))
      (described : returns value next) : Ends m place returns fails
  | error {failure : Failure} {next : Place} (outcome : m place = some (.error failure, next))
      (described : fails failure next) : Ends m place returns fails

variable {returns : α → Place → Prop} {fails : Failure → Place → Prop}
  {returns' : β → Place → Prop} {fails' : Failure → Place → Prop}

theorem Ends.bind (h : m.Ends place returns fails)
    (goesOn : ∀ value next, returns value next → (f value).Ends next returns' fails')
    (stops : ∀ failure next, fails failure next → fails' failure next) :
    (m >>= f).Ends place returns' fails' := by
  cases h with
  | ok outcome described =>
    cases goesOn _ _ described with
    | ok rest described => exact .ok ((bind_of_ok outcome).trans rest) described
    | error rest described => exact .error ((bind_of_ok outcome).trans rest) described
  | error outcome described => exact .error (bind_of_error outcome) (stops _ _ described)

/-- What always returns the same is out of the way. -/
theorem Ends.after {value : α} {next : Place} (h : m place = some (.ok value, next))
    (rest : (f value).Ends next returns' fails') : (m >>= f).Ends place returns' fails' := by
  cases rest with
  | ok rest described => exact .ok ((bind_of_ok h).trans rest) described
  | error rest described => exact .error ((bind_of_ok h).trans rest) described

theorem Ends.mono {returns' : α → Place → Prop} (h : m.Ends place returns fails)
    (hreturns : ∀ value next, returns value next → returns' value next)
    (hfails : ∀ failure next, fails failure next → fails' failure next) :
    m.Ends place returns' fails' := by
  cases h with
  | ok outcome described => exact .ok outcome (hreturns _ _ described)
  | error outcome described => exact .error outcome (hfails _ _ described)

/-- Wherever the first procedure ends, so does the second one, in the same way. -/
def Extends (m m' : Procedure α) : Prop :=
  ∀ place outcome, m place = some outcome → m' place = some outcome

theorem Extends.refl (m : Procedure α) : m.Extends m := fun _ _ ends => ends

theorem Extends.bind {m' : Procedure α} {f' : α → Procedure β} (first : m.Extends m')
    (rest : ∀ value, (f value).Extends (f' value)) : (m >>= f).Extends (m' >>= f') := by
  intro place outcome ends
  cases before : m place with
  | none =>
    have endless : (m >>= f) place = none := by
      simp only [Bind.bind, ExceptT.bind, ExceptT.mk, StateT.bind, before, Option.bind_none]
    cases endless.symm.trans ends
  | some result =>
    obtain ⟨result, next⟩ := result
    cases result with
    | ok value =>
      rw [bind_of_ok before] at ends
      rw [bind_of_ok (first _ _ before)]
      exact rest value next outcome ends
    | error failure =>
      rw [bind_of_error before] at ends
      rw [bind_of_error (first _ _ before), ends]

end Procedure

/-- What is parsed: tokens, and the source that names are read from. -/
structure Descent where
  source : Text
  tokens : List Token

namespace Descent

/-- The token at a position. Behind the last one there is the end of the source. -/
def tokenAt (d : Descent) (pos : Nat) : Token :=
  d.tokens.getD pos ⟨.endOfText, d.source.length, d.source.length⟩

def peek (d : Descent) : Procedure Token := do
  let place ← get
  set { place with looked := place.pos :: place.looked }
  return d.tokenAt place.pos

/-- Takes a token, unless it is an end token. -/
def advance (d : Descent) : Procedure Token := do
  let t ← d.peek
  if t.kind ≠ .endOfText then modify fun place => { place with pos := place.pos + 1 }
  return t

/-- Takes a token if it is of one of the kinds. -/
def accept (d : Descent) (kinds : List Token.Kind) : Procedure (Option Token) := do
  let t ← d.peek
  if t.kind ∈ kinds then return some (← d.advance) else return none

def close (d : Descent) (fault : Fault) : Procedure Unit := do
  if (← d.accept [.rightParen]).isNone then throw (.fault fault (← d.peek).start)

/-- The procedures: a phrase; the turns of a repetition behind what has been folded so far; and what
comes behind the arguments of a call so far. -/
inductive Call where
  | phrase (p : Phrase)
  | turns (c : Chain) (left : Expr)
  | arguments (name : Token) (args : List Expr)

/-- Calls one of the procedures, with calls nested at most to a depth. -/
def run (d : Descent) : Nat → Call → Procedure Expr
  | 0, _ => fun _ => none
  | depth + 1, .phrase (.chain c) => do
    let first ← d.run depth (.phrase c.first)
    d.run depth (.turns c first)
  | depth + 1, .turns c left => do
    match ← d.accept c.operators with
    | some operator =>
      let right ← d.run depth (.phrase c.next)
      d.run depth (.turns c (.binary left operator right))
    | none => return left
  | depth + 1, .phrase (.signs inExponent) => do
    match ← d.accept [.minus, .plus] with
    | some operator => return .unary operator (← d.run depth (.phrase (.signs inExponent)))
    | none => d.run depth (.phrase (.unsigned inExponent))
  | depth + 1, .phrase .primary => do
    let t ← d.peek
    match t.kind with
    | .number (some value) =>
      let _ ← d.advance
      return .literal value t.start
    | .leftParen =>
      let _ ← d.advance
      let inner ← d.run depth (.phrase .expr)
      d.close .unclosedGroup
      return .grouping inner t.start
    | .identifier =>
      let _ ← d.advance
      match ← d.accept [.leftParen] with
      | some _ =>
        let first ← d.run depth (.phrase .expr)
        d.run depth (.arguments t [first])
      | none => return .var (t.name d.source) t.start
    | _ => throw (.fault .expectedExpression t.start)
  | depth + 1, .arguments name args => do
    match ← d.accept [.comma] with
    | some _ =>
      let next ← d.run depth (.phrase .expr)
      d.run depth (.arguments name (args ++ [next]))
    | none =>
      d.close .unclosedArguments
      return .call (name.name d.source) args name.start

def statement (d : Descent) (depth : Nat) : Procedure Stmt := do
  let target ← d.run depth (.phrase .expr)
  match ← d.accept [.equal] with
  | some _ =>
    let value ← d.run depth (.phrase .expr)
    ofExcept (Stmt.assignment target value)
  | none => return .expression target

def parse (d : Descent) (depth : Nat) : Procedure Stmt := do
  let stmt ← d.statement depth
  let t ← d.peek
  if t.kind ≠ .endOfText then throw (.fault .trailingInput t.start)
  return stmt

/-! ## Depth -/

theorem run_succ (d : Descent) (depth : Nat) (call : Call) :
    (d.run depth call).Extends (d.run (depth + 1) call) := by
  induction depth generalizing call with
  | zero =>
    intro place outcome ends
    cases ends
  | succ depth ih =>
    match call with
    | .phrase (.chain c) => exact (ih _).bind fun _ => ih _
    | .turns c left =>
      refine .bind (.refl _) fun operator => ?_
      cases operator with
      | some operator => exact (ih _).bind fun _ => ih _
      | none => exact .refl _
    | .phrase (.signs inExponent) =>
      refine .bind (.refl _) fun operator => ?_
      cases operator with
      | some operator => exact (ih _).bind fun _ => .refl _
      | none => exact ih _
    | .phrase .primary =>
      refine .bind (.refl _) fun t => ?_
      split
      · exact .refl _
      · exact .bind (.refl _) fun _ => (ih _).bind fun _ => .refl _
      · refine .bind (.refl _) fun _ => .bind (.refl _) fun opened => ?_
        cases opened with
        | some opened => exact (ih _).bind fun _ => ih _
        | none => exact .refl _
      · exact .refl _
    | .arguments name args =>
      refine .bind (.refl _) fun comma => ?_
      cases comma with
      | some comma => exact (ih _).bind fun _ => ih _
      | none => exact .refl _

/-- Calls that may be nested more deeply change nothing. -/
theorem run_of_le {depth depth' : Nat} (d : Descent) (call : Call) (h : depth ≤ depth') :
    (d.run depth call).Extends (d.run depth' call) := by
  induction h with
  | refl => exact .refl _
  | step _ ih =>
    intro place outcome ends
    exact d.run_succ _ call place outcome (ih place outcome ends)

theorem parse_of_le {depth depth' : Nat} (d : Descent) (h : depth ≤ depth') :
    (d.parse depth).Extends (d.parse depth') := by
  refine .bind ?_ fun _ => .refl _
  refine .bind (d.run_of_le _ h) fun target => .bind (.refl _) fun equal => ?_
  cases equal with
  | some equal => exact .bind (d.run_of_le _ h) fun _ => .refl _
  | none => exact .refl _

/-! ## Places -/

/-- How many tokens there are in front of the end. -/
def limit (d : Descent) : Nat := (Token.beforeEnd d.tokens).length

/-- The position is not beyond the end, and has only ever increased. -/
structure Sound (d : Descent) (place : Place) : Prop where
  inside : place.pos ≤ d.limit
  increased : place.looked.Pairwise (· ≥ ·)
  passed : ∀ i ∈ place.looked, i ≤ place.pos

variable {d : Descent} {place : Place} {pos : Nat}

/-- The first end token stands where the tokens in front of it end. -/
theorem getElem?_beforeEnd (tokens : List Token) :
    (∀ pos < (Token.beforeEnd tokens).length, ∃ t, tokens[pos]? = some t ∧ t.kind ≠ .endOfText) ∧
      ∀ t, tokens[(Token.beforeEnd tokens).length]? = some t → t.kind = .endOfText := by
  induction tokens with
  | nil => simp [Token.beforeEnd]
  | cons u tokens ih =>
    by_cases hu : u.kind = .endOfText
    · simp [Token.beforeEnd, hu]
    · rw [Token.beforeEnd_cons hu]
      constructor
      · intro pos inside
        cases pos with
        | zero => exact ⟨u, rfl, hu⟩
        | succ pos => exact ih.1 pos (Nat.lt_of_succ_lt_succ inside)
      · simpa using ih.2

theorem tokenAt_eq (d : Descent) (pos : Nat) : d.tokenAt pos =
    d.tokens[pos]?.getD ⟨.endOfText, d.source.length, d.source.length⟩ :=
  List.getD_eq_getElem?_getD

theorem kind_tokenAt_iff (h : pos ≤ d.limit) :
    (d.tokenAt pos).kind ≠ .endOfText ↔ pos < d.limit := by
  obtain ⟨inFront, atLimit⟩ := getElem?_beforeEnd d.tokens
  constructor
  · intro taken
    refine Nat.lt_of_le_of_ne h fun same => taken ?_
    subst same
    cases stands : d.tokens[d.limit]? with
    | none => simp only [tokenAt_eq, stands, Option.getD_none]
    | some t => simpa only [tokenAt_eq, stands, Option.getD_some] using atLimit t stands
  · intro inside
    obtain ⟨t, stands, kind⟩ := inFront pos inside
    simpa only [tokenAt_eq, stands, Option.getD_some] using kind

/-! ## The parser with a stack -/

/-- The parser with a stack, from a state and a position on. -/
def resume (d : Descent) (s : ParseState) (pos : Nat) : Except Failure Stmt :=
  s.run d.source (d.tokens.drop pos)

variable {s s' : ParseState}

theorem drop_tokenAt (taken : (d.tokenAt pos).kind ≠ .endOfText) :
    d.tokens.drop pos = d.tokenAt pos :: d.tokens.drop (pos + 1) := by
  cases stands : d.tokens[pos]? with
  | none => simp [tokenAt_eq, stands] at taken
  | some t =>
    obtain ⟨inside, rfl⟩ := List.getElem?_eq_some_iff.mp stands
    simp only [tokenAt_eq, stands, Option.getD_some, List.drop_eq_getElem_cons inside]

theorem resume_step (taken : (d.tokenAt pos).kind ≠ .endOfText)
    (h : s.step d.source (d.tokenAt pos) = .ok s') : d.resume s pos = d.resume s' (pos + 1) := by
  simp only [resume, drop_tokenAt taken, ParseState.run, if_neg taken, h]

theorem resume_fails {failure : Failure} (taken : (d.tokenAt pos).kind ≠ .endOfText)
    (h : s.step d.source (d.tokenAt pos) = .error failure) : d.resume s pos = .error failure := by
  simp only [resume, drop_tokenAt taken, ParseState.run, if_neg taken, h]

theorem resume_stop (ended : (d.tokenAt pos).kind = .endOfText) :
    d.resume s pos = s.stop d.source (d.tokenAt pos).start := by
  cases stands : d.tokens[pos]? with
  | none =>
    have beyond := List.getElem?_eq_none_iff.mp stands
    simp only [resume, tokenAt_eq, stands, Option.getD_none, List.drop_of_length_le beyond,
      ParseState.run]
  | some t =>
    obtain ⟨inside, rfl⟩ := List.getElem?_eq_some_iff.mp stands
    simp only [tokenAt_eq, stands, Option.getD_some] at ended ⊢
    simp only [resume, List.drop_eq_getElem_cons inside, ParseState.run, if_pos ended]

/-! ## Taking tokens -/

/-- A token has been taken, and the parser with a stack has made the step that goes with it. -/
structure Took (d : Descent) (place : Place) (s s' : ParseState) (next : Place) : Prop where
  moved : next.pos = place.pos + 1
  sound : d.Sound next
  resumed : d.resume s place.pos = d.resume s' next.pos

theorem Sound.peek (h : d.Sound place) :
    ∃ next, d.peek place = some (.ok (d.tokenAt place.pos), next) ∧ next.pos = place.pos ∧
      d.Sound next := by
  refine ⟨{ place with looked := place.pos :: place.looked }, rfl, rfl, h.inside, ?_, ?_⟩
  · exact List.pairwise_cons.mpr ⟨h.passed, h.increased⟩
  · exact List.forall_mem_cons.mpr ⟨Nat.le_refl _, h.passed⟩

theorem Sound.advance (h : d.Sound place) (taken : (d.tokenAt place.pos).kind ≠ .endOfText)
    (step : s.step d.source (d.tokenAt place.pos) = .ok s') :
    ∃ next, d.advance place = some (.ok (d.tokenAt place.pos), next) ∧ d.Took place s s' next := by
  obtain ⟨mid, looks, same, sound⟩ := h.peek
  have inside := (kind_tokenAt_iff h.inside).mp taken
  refine ⟨{ mid with pos := mid.pos + 1 }, ?_, ?_, ⟨?_, sound.increased, ?_⟩, ?_⟩
  · rw [Descent.advance, Procedure.bind_of_ok looks, if_pos taken]
    rfl
  · simp only [same]
  · simp only [same]
    omega
  · intro i hi
    exact Nat.le_succ_of_le (sound.passed i hi)
  · simp only [same]
    exact resume_step taken step

theorem Sound.accept {kinds : List Token.Kind} (h : d.Sound place)
    (taken : (d.tokenAt place.pos).kind ∈ kinds) (noEnd : .endOfText ∉ kinds)
    (step : s.step d.source (d.tokenAt place.pos) = .ok s') :
    ∃ next, d.accept kinds place = some (.ok (some (d.tokenAt place.pos)), next) ∧
      d.Took place s s' next := by
  obtain ⟨mid, looks, same, sound⟩ := h.peek
  have notEnd : (d.tokenAt place.pos).kind ≠ .endOfText := fun ended => noEnd (ended ▸ taken)
  rw [← same] at notEnd step
  obtain ⟨next, takes, took⟩ := sound.advance notEnd step
  rw [same] at takes
  refine ⟨next, ?_, same ▸ took.moved, took.sound, same ▸ took.resumed⟩
  rw [Descent.accept, Procedure.bind_of_ok looks, if_pos taken, Procedure.bind_of_ok takes]
  rfl

theorem Sound.decline {kinds : List Token.Kind} (h : d.Sound place)
    (other : (d.tokenAt place.pos).kind ∉ kinds) :
    ∃ next, d.accept kinds place = some (.ok none, next) ∧ next.pos = place.pos ∧ d.Sound next := by
  obtain ⟨mid, looks, same, sound⟩ := h.peek
  refine ⟨mid, ?_, same, sound⟩
  rw [Descent.accept, Procedure.bind_of_ok looks, if_neg other]
  rfl

theorem Sound.close (h : d.Sound place) (fault : Fault)
    (closed : (d.tokenAt place.pos).kind = .rightParen)
    (step : s.step d.source (d.tokenAt place.pos) = .ok s') :
    ∃ next, d.close fault place = some (.ok (), next) ∧ d.Took place s s' next := by
  obtain ⟨next, takes, took⟩ := h.accept (List.mem_singleton.mpr closed) (by simp) step
  refine ⟨next, ?_, took⟩
  rw [Descent.close, Procedure.bind_of_ok takes]
  rfl

theorem Sound.unclosed (h : d.Sound place) (fault : Fault)
    (other : (d.tokenAt place.pos).kind ≠ .rightParen) :
    ∃ next, d.close fault place =
        some (.error (.fault fault (d.tokenAt place.pos).start), next) ∧ d.Sound next := by
  obtain ⟨mid, declines, same, sound⟩ := h.decline (mt List.mem_singleton.mp other)
  obtain ⟨next, looks, _, soundNext⟩ := sound.peek
  rw [same] at looks
  refine ⟨next, ?_, soundNext⟩
  rw [Descent.close, Procedure.bind_of_ok declines, if_pos (by rfl), Procedure.bind_of_ok looks]
  rfl

/-! ## Agreement -/

/-- The parser with a stack is behind a tree, and what stands at the position does not go on with
it: a name is not called, and an operator binds more loosely than the bound. -/
structure Reached (d : Descent) (s : ParseState) (target : Option Expr) (stack : List Pending)
    (p : Phrase) (e : Expr) (pos bound : Nat) : Prop where
  behind : ParseState.Behind d.source s target stack p e
  uncalled : ∀ name, s.focus = .name name → (d.tokenAt pos).kind ≠ .leftParen
  looser : ∀ c : Chain, (d.tokenAt pos).kind ∈ c.operators → c.level < bound

variable {target : Option Expr} {stack : List Pending} {p q : Phrase} {e : Expr} {bound : Nat}

theorem Reached.loosen {bound' : Nat} (h : d.Reached s target stack p e pos bound)
    (level : q.level ≤ p.level) (bounds : ∀ c : Chain, c.level < bound → c.level < bound') :
    d.Reached s target stack q e pos bound' :=
  ⟨h.behind.loosen level, h.uncalled, fun c hc => bounds c (h.looser c hc)⟩

theorem Reached.complete {bound' : Nat} {pending : Pending}
    (h : d.Reached s target (pending :: stack) p e pos bound) (level : q.level ≤ p.level)
    (takesIn : q.level ≤ pending.level)
    (bounds : ∀ c : Chain, c.level < bound → c.level < bound') :
    d.Reached s target stack q (pending.complete e) pos bound' :=
  ⟨h.behind.complete level takesIn, h.uncalled, fun c hc => bounds c (h.looser c hc)⟩

/-- Behind a primary every operator is loose enough. -/
theorem Reached.finished (d : Descent) (target : Option Expr) (stack : List Pending) (e : Expr)
    (pos : Nat) :
    d.Reached ⟨target, stack, .finished e⟩ target stack .primary e pos Phrase.primary.level := by
  refine ⟨⟨rfl, e, rfl, fun _ _ => rfl⟩, ?_, fun c _ => by cases c <;> decide⟩
  intro name focus
  cases focus

theorem Reached.name (target : Option Expr) (stack : List Pending) (t : Token)
    (uncalled : (d.tokenAt pos).kind ≠ .leftParen) :
    d.Reached ⟨target, stack, .name t⟩ target stack .primary (.var (t.name d.source) t.start) pos
      Phrase.primary.level :=
  ⟨⟨rfl, _, rfl, fun _ _ => rfl⟩, fun _ _ => uncalled, fun c _ => by cases c <;> decide⟩

theorem Reached.reduced (h : d.Reached s target stack .expr e pos 1)
    (serves : Phrase.expr.Serves (awaited stack)) :
    ∃ operand, s.operand? d.source = some operand ∧
      reduce Chain.sum.level s.stack operand = (stack, e) := by
  obtain ⟨_, operand, ho, hr⟩ := h.behind
  exact ⟨operand, ho, (hr 1 (Nat.le_refl _)).trans (reduce_of_serves (c := .sum) serves e)⟩

theorem Reached.resume_conclude (h : d.Reached s target stack .expr e pos 1)
    (serves : Phrase.expr.Serves (awaited stack)) (ended : (d.tokenAt pos).kind = .endOfText) :
    d.resume s pos = s.conclude (d.tokenAt pos).start (stack, e) := by
  obtain ⟨operand, ho, reduced⟩ := h.reduced serves
  rw [resume_stop ended, stop_conclude ho, reduced]

/-- No operator is loose enough to stand behind a whole expression. -/
theorem Reached.step_close (h : d.Reached s target stack .expr e pos 1)
    (serves : Phrase.expr.Serves (awaited stack)) :
    s.step d.source (d.tokenAt pos) = s.close d.source (d.tokenAt pos) (stack, e) := by
  obtain ⟨operand, ho, reduced⟩ := h.reduced serves
  rw [ParseState.step_follow ho h.uncalled]
  rcases ParseState.follow_cases d.source s operand (d.tokenAt pos) with ⟨c, hc, _⟩ | follows
  · have tight : ¬ c.level < 1 := by cases c <;> decide
    exact absurd (h.looser c hc) tight
  · rw [follows, reduced]

theorem Reached.fails {failure : Failure} (h : d.Reached s target stack .expr e pos 1)
    (serves : Phrase.expr.Serves (awaited stack))
    (stops : s.conclude (d.tokenAt pos).start (stack, e) = .error failure)
    (closes : s.close d.source (d.tokenAt pos) (stack, e) = .error failure) :
    d.resume s pos = .error failure := by
  by_cases ended : (d.tokenAt pos).kind = .endOfText
  · rw [h.resume_conclude serves ended, stops]
  · exact resume_fails ended ((h.step_close serves).trans closes)

namespace Call

/-- The phrase that a procedure returns a tree of. -/
def result : Call → Phrase
  | phrase p => p
  | turns c _ => .chain c
  | arguments _ _ => .primary

/-- How many tokens a procedure takes at least. -/
def least : Call → Nat
  | phrase _ => 1
  | turns _ _ => 0
  | arguments _ _ => 0

/-- A procedure that has taken no token only calls one of a lower rank. -/
def rank : Call → Nat
  | phrase p => 7 - p.level
  | turns _ _ => 0
  | arguments _ _ => 0

/-- The parser with a stack stands where the procedure is called: its phrase is awaited, or what it
goes on with has been read. Signs are taken before anything is called that cannot begin with one. -/
def Starts (d : Descent) (s : ParseState) (target : Option Expr) (stack : List Pending)
    (pos : Nat) : Call → Prop
  | phrase p => s = ⟨target, stack, .operand⟩ ∧ p.Serves (awaited stack) ∧
      (p.Serves .exponent → (d.tokenAt pos).kind ∉ [.minus, .plus])
  | turns c left => (Phrase.chain c).Serves (awaited stack) ∧
      d.Reached s target stack (.chain c) left pos (c.level + 1)
  | arguments name args => ∃ before last, args = before ++ [last] ∧
      d.Reached s target (.arguments name before :: stack) .expr last pos 1

theorem starts_expr (d : Descent) (target : Option Expr) (pos : Nat) (h : awaited stack = .expr) :
    (phrase .expr).Starts d ⟨target, stack, .operand⟩ target stack pos :=
  ⟨rfl, h ▸ .refl _, fun exponent => absurd exponent (by decide)⟩

end Call

/-- A procedure has returned a tree, and the parser with a stack, which gives the answer in the end,
is behind that tree. -/
structure Returned (d : Descent) (answer : Except Failure Stmt) (target : Option Expr)
    (stack : List Pending) (p : Phrase) (least : Nat) (e : Expr) (next : Place) : Prop where
  sound : d.Sound next
  moved : least ≤ next.pos
  read : ∃ s, d.Reached s target stack p e next.pos p.level ∧ d.resume s next.pos = answer

theorem ends_later {m : Procedure Expr} {answer : Except Failure Stmt} {least least' : Nat}
    {fails : Failure → Place → Prop}
    (h : m.Ends place (d.Returned answer target stack p least) fails) (later : least' ≤ least) :
    m.Ends place (d.Returned answer target stack p least') fails :=
  h.mono (fun _ _ returned => { returned with moved := Nat.le_trans later returned.moved })
    fun _ _ failed => failed

/-- A procedure has failed, and the answer is that failure. -/
structure Failed (d : Descent) (answer : Except Failure Stmt) (failure : Failure) (next : Place) :
    Prop where
  sound : d.Sound next
  same : answer = .error failure

/-- The depth is enough for a procedure to end, and it agrees with the parser with a stack. -/
def Agrees (d : Descent) (depth : Nat) (call : Call) (place : Place) : Prop :=
  ∀ s target stack, call.Starts d s target stack place.pos → d.Sound place →
    (d.run depth call).Ends place
      (d.Returned (d.resume s place.pos) target stack call.result (place.pos + call.least))
      (d.Failed (d.resume s place.pos))

/-- What is left to do: tokens in front of the end, and calls until the next one is taken. -/
def measure (d : Descent) (call : Call) (pos : Nat) : Nat := 8 * (d.limit - pos) + call.rank

theorem measure_lt_of_moved {next : Place} (call call' : Call) (sound : d.Sound next)
    (moved : pos < next.pos) : d.measure call' next.pos < d.measure call pos := by
  have inside := sound.inside
  have rank : call'.rank ≤ 7 := by
    cases call' <;> simp only [Call.rank] <;> omega
  simp only [measure]
  omega

section
variable {depth : Nat} {call : Call}
  (ih : ∀ call' place', d.measure call' place'.pos < d.measure call place.pos →
    d.Agrees depth call' place')
include ih

theorem agrees_chain {c : Chain} (h : call = .phrase (.chain c)) :
    d.Agrees (depth + 1) call place := by
  subst h
  rintro s target stack ⟨rfl, serves, unsigned⟩ sound
  rw [run]
  have lower : (Call.phrase c.first).rank < (Call.phrase (.chain c)).rank := by cases c <;> decide
  have first := ih (.phrase c.first) place (Nat.add_lt_add_left lower _) _ target stack
    ⟨rfl, c.first_serves.trans serves, fun h => unsigned (by cases c <;> revert h <;> decide)⟩ sound
  refine first.bind ?_ fun _ _ failed => failed
  rintro left mid ⟨soundMid, moved, s, reached, same⟩
  have bounds (c' : Chain) : c'.level < c.first.level → c'.level < c.level + 1 := by
    cases c <;> cases c' <;> decide
  have rest := ih (.turns c left) mid (measure_lt_of_moved _ _ soundMid moved) s target stack
    ⟨serves, reached.loosen c.first_serves.1 bounds⟩ soundMid
  rw [same] at rest
  exact ends_later rest moved

theorem agrees_turns {c : Chain} {left : Expr} (h : call = .turns c left) :
    d.Agrees (depth + 1) call place := by
  subst h
  rintro s target stack ⟨serves, reached⟩ sound
  rw [run]
  by_cases mark : (d.tokenAt place.pos).kind ∈ c.operators
  · have step := ParseState.operate_behind reached.behind serves mark
    obtain ⟨level, next⟩ := Pending.binary_of_operator left mark
    obtain ⟨mid, takes, moved, soundMid, resumed⟩ :=
      sound.accept mark (by cases c <;> simp [Chain.operators]) step
    refine .after takes ?_
    have right := ih (.phrase c.next) mid (measure_lt_of_moved _ _ soundMid (by omega)) _ target
      (.binary left (d.tokenAt place.pos) :: stack)
      ⟨rfl, by rw [awaited, next]; exact .refl _, fun h => absurd h (by cases c <;> decide)⟩
      soundMid
    rw [← resumed] at right
    refine right.bind ?_ fun _ _ failed => failed
    rintro e far ⟨soundFar, movedFar, s', reached', same⟩
    have bounds (c' : Chain) : c'.level < c.next.level → c'.level < c.level + 1 := by
      cases c <;> cases c' <;> decide
    have rest := ih (.turns c (.binary left (d.tokenAt place.pos) e)) far
      (measure_lt_of_moved _ _ soundFar (by omega)) s' target stack
      ⟨serves, reached'.complete c.level_le_next (Nat.le_of_eq level.symm) bounds⟩ soundFar
    rw [same] at rest
    refine ends_later rest ?_
    simp only [Call.least] at movedFar ⊢
    omega
  · obtain ⟨next, declines, same, soundNext⟩ := sound.decline mark
    refine .after declines (.ok rfl ⟨soundNext, Nat.le_of_eq same.symm, s, ?_, by rw [same]⟩)
    rw [same]
    refine ⟨reached.behind, reached.uncalled, fun c' hc' => ?_⟩
    -- It binds no more tightly than the repetition, and is none of its own operators.
    have tighter (other : c' ≠ c) : c'.level < c.level + 1 → c'.level < c.level := by
      revert other
      cases c <;> cases c' <;> decide
    exact tighter (fun h => mark (h ▸ hc')) (reached.looser c' hc')

theorem agrees_signs {b : Bool} (h : call = .phrase (.signs b)) :
    d.Agrees (depth + 1) call place := by
  subst h
  rintro s target stack ⟨rfl, serves, _⟩ sound
  rw [run]
  by_cases mark : (d.tokenAt place.pos).kind ∈ [.minus, .plus]
  · have step : ParseState.step d.source ⟨target, stack, .operand⟩ (d.tokenAt place.pos) =
        .ok ⟨target, .unary (d.tokenAt place.pos) b :: stack, .operand⟩ :=
      ParseState.step_sign target serves (Or.symm (by simpa using mark))
    obtain ⟨mid, takes, moved, soundMid, resumed⟩ := sound.accept mark (by simp) step
    refine .after takes ?_
    have inner := ih (.phrase (.signs b)) mid (measure_lt_of_moved _ _ soundMid (by omega)) _ target
      (.unary (d.tokenAt place.pos) b :: stack)
      ⟨rfl, .refl _, fun h => absurd h (by cases b <;> decide)⟩ soundMid
    rw [← resumed] at inner
    refine inner.bind ?_ fun _ _ failed => failed
    rintro e next ⟨soundNext, movedNext, s', reached, same⟩
    refine .ok rfl ⟨soundNext, ?_, s', reached.complete (Nat.le_refl _) ?_ fun _ h => h, same⟩
    · simp only [Call.least] at movedNext ⊢
      omega
    · cases b <;> exact Nat.le_refl _
  · obtain ⟨mid, declines, same, soundMid⟩ := sound.decline mark
    refine .after declines ?_
    have lower : (Call.phrase (.unsigned b)).rank < (Call.phrase (.signs b)).rank := by
      cases b <;> decide
    have inner := ih (.phrase (.unsigned b)) mid (by rw [same]; exact Nat.add_lt_add_left lower _) _
      target stack ⟨rfl, (Phrase.unsigned_serves b).trans serves, fun _ => same ▸ mark⟩ soundMid
    rw [same] at inner
    have bounds (c : Chain) :
        c.level < (Phrase.unsigned b).level → c.level < (Phrase.signs b).level := by
      cases b <;> cases c <;> decide
    refine inner.mono ?_ fun _ _ failed => failed
    rintro e next ⟨soundNext, moved, s', reached, read⟩
    exact ⟨soundNext, moved, s', reached.loosen (Phrase.unsigned_serves b).1 bounds, read⟩

theorem agrees_arguments {name : Token} {args : List Expr} (h : call = .arguments name args) :
    d.Agrees (depth + 1) call place := by
  subst h
  rintro s target stack ⟨before, last, rfl, reached⟩ sound
  rw [run]
  by_cases comma : (d.tokenAt place.pos).kind = .comma
  · obtain ⟨mid, takes, moved, soundMid, resumed⟩ :=
      sound.accept (List.mem_singleton.mpr comma) (by simp) (reached.behind.nextArgument comma)
    refine .after takes ?_
    have next := ih (.phrase .expr) mid (measure_lt_of_moved _ _ soundMid (by omega)) _ target
      (.arguments name (before ++ [last]) :: stack) (Call.starts_expr d target _ rfl) soundMid
    rw [← resumed] at next
    refine next.bind ?_ fun _ _ failed => failed
    rintro e far ⟨soundFar, movedFar, s', reached', same⟩
    have rest := ih (.arguments name (before ++ [last] ++ [e])) far
      (measure_lt_of_moved _ _ soundFar (by omega)) s' target stack
      ⟨before ++ [last], e, rfl, reached'⟩ soundFar
    rw [same] at rest
    refine ends_later rest ?_
    simp only [Call.least] at movedFar ⊢
    omega
  · obtain ⟨mid, declines, same, soundMid⟩ := sound.decline (mt List.mem_singleton.mp comma)
    refine .after declines ?_
    rw [← same] at comma reached
    by_cases closed : (d.tokenAt mid.pos).kind = .rightParen
    · obtain ⟨next, closes, moved, soundNext, resumed⟩ :=
        soundMid.close .unclosedArguments closed (reached.behind.endArguments closed)
      refine .after closes (.ok rfl ⟨soundNext, ?_, _, .finished d target stack _ _, ?_⟩)
      · simp only [Call.least]
        omega
      · rw [← resumed, same]
    · obtain ⟨next, fails, soundNext⟩ := soundMid.unclosed .unclosedArguments closed
      refine .error (Procedure.bind_of_error fails) ⟨soundNext, ?_⟩
      rw [← same]
      refine reached.fails (.refl _) rfl ?_
      simp only [ParseState.close, if_neg comma, if_neg closed]

theorem agrees_group {target : Option Expr} {stack : List Pending} (sound : d.Sound place)
    (opened : (d.tokenAt place.pos).kind = .leftParen) :
    Procedure.Ends (do
        let _ ← d.advance
        let inner ← d.run depth (.phrase .expr)
        d.close .unclosedGroup
        return .grouping inner (d.tokenAt place.pos).start) place
      (d.Returned (d.resume ⟨target, stack, .operand⟩ place.pos) target stack .primary
        (place.pos + 1))
      (d.Failed (d.resume ⟨target, stack, .operand⟩ place.pos)) := by
  have step : ParseState.step d.source ⟨target, stack, .operand⟩ (d.tokenAt place.pos) =
      .ok ⟨target, .group (d.tokenAt place.pos) :: stack, .operand⟩ := by
    simp only [ParseState.step, ParseState.begin, opened, ParseState.await]
  obtain ⟨mid, takes, moved, soundMid, resumed⟩ := sound.advance (by simp [opened]) step
  refine .after takes ?_
  have inner := ih (.phrase .expr) mid (measure_lt_of_moved _ _ soundMid (by omega)) _ target
    (.group (d.tokenAt place.pos) :: stack) (Call.starts_expr d target _ rfl) soundMid
  rw [← resumed] at inner
  refine inner.bind ?_ fun _ _ failed => failed
  rintro e far ⟨soundFar, movedFar, s, reached, same⟩
  by_cases closed : (d.tokenAt far.pos).kind = .rightParen
  · obtain ⟨next, closes, movedNext, soundNext, resumedNext⟩ :=
      soundFar.close .unclosedGroup closed (reached.behind.endGroup closed)
    refine .after closes (.ok rfl ⟨soundNext, by omega, _, .finished d target stack _ _, ?_⟩)
    rw [← resumedNext, same]
  · obtain ⟨next, fails, soundNext⟩ := soundFar.unclosed .unclosedGroup closed
    refine .error (Procedure.bind_of_error fails) ⟨soundNext, ?_⟩
    rw [← same]
    refine reached.fails (.refl _) rfl ?_
    simp only [ParseState.close, if_neg closed]

theorem agrees_name {target : Option Expr} {stack : List Pending} (sound : d.Sound place)
    (kind : (d.tokenAt place.pos).kind = .identifier) :
    Procedure.Ends (do
        let _ ← d.advance
        match ← d.accept [.leftParen] with
        | some _ =>
          let first ← d.run depth (.phrase .expr)
          d.run depth (.arguments (d.tokenAt place.pos) [first])
        | none =>
          return .var ((d.tokenAt place.pos).name d.source) (d.tokenAt place.pos).start) place
      (d.Returned (d.resume ⟨target, stack, .operand⟩ place.pos) target stack .primary
        (place.pos + 1))
      (d.Failed (d.resume ⟨target, stack, .operand⟩ place.pos)) := by
  have step : ParseState.step d.source ⟨target, stack, .operand⟩ (d.tokenAt place.pos) =
      .ok ⟨target, stack, .name (d.tokenAt place.pos)⟩ := by
    simp only [ParseState.step, ParseState.begin, kind]
  obtain ⟨mid, takes, moved, soundMid, resumed⟩ := sound.advance (by simp [kind]) step
  refine .after takes ?_
  rw [resumed]
  by_cases opened : (d.tokenAt mid.pos).kind = .leftParen
  · have step : ParseState.step d.source ⟨target, stack, .name (d.tokenAt place.pos)⟩
        (d.tokenAt mid.pos) =
          .ok ⟨target, .arguments (d.tokenAt place.pos) [] :: stack, .operand⟩ := by
      simp only [ParseState.step, opened, if_true, ParseState.await]
    obtain ⟨far, takes, movedFar, soundFar, resumedFar⟩ :=
      soundMid.accept (List.mem_singleton.mpr opened) (by simp) step
    refine .after takes ?_
    have first := ih (.phrase .expr) far (measure_lt_of_moved _ _ soundFar (by omega)) _ target
      (.arguments (d.tokenAt place.pos) [] :: stack) (Call.starts_expr d target _ rfl) soundFar
    rw [← resumedFar] at first
    refine first.bind ?_ fun _ _ failed => failed
    rintro e last ⟨soundLast, movedLast, s, reached, same⟩
    have rest := ih (.arguments (d.tokenAt place.pos) [e]) last
      (measure_lt_of_moved _ _ soundLast (by omega)) s target stack ⟨[], e, rfl, reached⟩ soundLast
    rw [same] at rest
    refine ends_later rest ?_
    simp only [Call.least] at movedLast ⊢
    omega
  · obtain ⟨next, declines, same, soundNext⟩ := soundMid.decline (mt List.mem_singleton.mp opened)
    refine .after declines (.ok rfl ⟨soundNext, by omega, _, ?_, by rw [same]⟩)
    rw [same]
    exact .name target stack _ opened

theorem agrees_primary (h : call = .phrase .primary) : d.Agrees (depth + 1) call place := by
  subst h
  rintro s target stack ⟨rfl, _, unsigned⟩ sound
  rw [run]
  obtain ⟨mid, looks, same, soundMid⟩ := sound.peek
  refine .after looks ?_
  have noSign := unsigned (Phrase.primary_serves _)
  rw [← same] at noSign ⊢
  split
  · rename_i value kind
    have step : ParseState.step d.source ⟨target, stack, .operand⟩ (d.tokenAt mid.pos) =
        .ok ⟨target, stack, .finished (.literal value (d.tokenAt mid.pos).start)⟩ := by
      simp only [ParseState.step, ParseState.begin, kind, ParseState.finish]
    obtain ⟨next, takes, moved, soundNext, resumed⟩ := soundMid.advance (by simp [kind]) step
    exact .after takes (.ok rfl ⟨soundNext, by simp only [Call.least]; omega, _,
      .finished d target stack _ _, resumed.symm⟩)
  · rename_i opened
    exact agrees_group (same ▸ ih) soundMid opened
  · rename_i kind
    exact agrees_name (same ▸ ih) soundMid kind
  · rename_i noNumber noGroup noName
    refine .error rfl ⟨soundMid, ?_⟩
    by_cases ended : (d.tokenAt mid.pos).kind = .endOfText
    · exact resume_stop ended
    · refine resume_fails ended ?_
      simp only [ParseState.step, ParseState.begin]
      split <;> simp_all

end

/-- **Every procedure ends, and agrees with the parser with a stack.** -/
theorem agrees (d : Descent) (depth : Nat) (call : Call) (place : Place)
    (enough : d.measure call place.pos < depth) : d.Agrees depth call place := by
  induction depth generalizing call place with
  | zero => exact absurd enough (Nat.not_lt_zero _)
  | succ depth ih =>
    have ih (call' : Call) (place' : Place)
        (less : d.measure call' place'.pos < d.measure call place.pos) :
        d.Agrees depth call' place' :=
      ih call' place' (Nat.lt_of_lt_of_le less (Nat.le_of_lt_succ enough))
    match call with
    | .phrase (.chain _) => exact agrees_chain ih rfl
    | .phrase (.signs _) => exact agrees_signs ih rfl
    | .phrase .primary => exact agrees_primary ih rfl
    | .turns _ _ => exact agrees_turns ih rfl
    | .arguments _ _ => exact agrees_arguments ih rfl

/-! ## Statements -/

theorem sound_zero (d : Descent) : d.Sound ⟨0, []⟩ :=
  ⟨Nat.zero_le _, .nil, by simp⟩

theorem close_bottom (source : Text) {t : Token} (e : Expr)
    (unassigned : s.target = none → t.kind ≠ .equal) :
    s.close source t ([], e) =
      (Stmt.ofSides s.target e).bind fun _ => .error (.fault .trailingInput t.start) := by
  simp only [ParseState.close, Stmt.ofSides]
  cases hs : s.target with
  | none => exact if_neg (unassigned hs)
  | some target => rfl

/-- Behind the last side of a statement nothing but the end may come. -/
theorem Reached.statement (h : d.Reached s target [] .expr e pos 1)
    (unassigned : target = none → (d.tokenAt pos).kind ≠ .equal) :
    d.resume s pos = (Stmt.ofSides target e).bind fun stmt =>
      if (d.tokenAt pos).kind = .endOfText then .ok stmt
      else .error (.fault .trailingInput (d.tokenAt pos).start) := by
  obtain rfl := h.behind.target
  by_cases ended : (d.tokenAt pos).kind = .endOfText
  · rw [h.resume_conclude (.refl _) ended, conclude_bottom]
    cases Stmt.ofSides s.target e <;> simp [Except.bind, ended]
  · have closes := (h.step_close (.refl _)).trans (close_bottom d.source e unassigned)
    cases sides : Stmt.ofSides s.target e <;> rw [sides] at closes
    · exact resume_fails ended closes
    · rw [resume_fails ended closes]
      simp [Except.bind, ended]

/-- A depth that is enough for all the tokens. -/
def depth (d : Descent) : Nat := 8 * (d.limit + 1)

theorem agrees_expr (d : Descent) (place : Place) : d.Agrees d.depth (.phrase .expr) place := by
  refine d.agrees d.depth (.phrase .expr) place ?_
  have rank : (Call.phrase .expr).rank < 8 := by decide
  simp only [measure, depth]
  omega

theorem statement_ends (d : Descent) :
    (d.statement d.depth).Ends ⟨0, []⟩
      (fun stmt next => d.Sound next ∧ Stmt.parse d.source d.tokens =
        if (d.tokenAt next.pos).kind = .endOfText then .ok stmt
        else .error (.fault .trailingInput (d.tokenAt next.pos).start))
      (d.Failed (Stmt.parse d.source d.tokens)) := by
  have left := d.agrees_expr ⟨0, []⟩ _ none [] (Call.starts_expr d none 0 rfl) d.sound_zero
  refine left.bind ?_ fun _ _ failed => failed
  rintro target mid ⟨soundMid, _, s, reached, same⟩
  by_cases assigned : (d.tokenAt mid.pos).kind = .equal
  · obtain ⟨far, takes, moved, soundFar, resumed⟩ :=
      soundMid.accept (List.mem_singleton.mpr assigned) (by simp) (reached.behind.assign assigned)
    refine .after takes ?_
    have right := d.agrees_expr far _ (some target) []
      (Call.starts_expr d (some target) _ rfl) soundFar
    rw [← resumed, same] at right
    refine right.bind ?_ fun _ _ failed => failed
    rintro value next ⟨soundNext, _, s', reached', same'⟩
    have answer := reached'.statement (by simp)
    rw [same', Stmt.ofSides] at answer
    cases sides : Stmt.assignment target value with
    | ok stmt =>
      rw [sides] at answer
      exact .ok rfl ⟨soundNext, answer⟩
    | error failure =>
      rw [sides] at answer
      exact .error rfl ⟨soundNext, answer⟩
  · obtain ⟨next, declines, sameNext, soundNext⟩ :=
      soundMid.decline (mt List.mem_singleton.mp assigned)
    refine .after declines (.ok rfl ⟨soundNext, ?_⟩)
    rw [sameNext]
    exact same.symm.trans (reached.statement fun _ => assigned)

theorem parse_ends (d : Descent) :
    ∃ last, d.parse d.depth ⟨0, []⟩ = some (Stmt.parse d.source d.tokens, last) ∧ d.Sound last := by
  cases d.statement_ends with
  | @ok stmt next outcome described =>
    obtain ⟨sound, answer⟩ := described
    obtain ⟨last, looks, _, soundLast⟩ := sound.peek
    refine ⟨last, ?_, soundLast⟩
    rw [parse, Procedure.bind_of_ok outcome, Procedure.bind_of_ok looks, answer]
    by_cases ended : (d.tokenAt next.pos).kind = .endOfText
    · rw [if_neg (not_not_intro ended), if_pos ended]
      rfl
    · rw [if_pos ended, if_neg ended]
      rfl
  | error outcome described =>
    refine ⟨_, ?_, described.sound⟩
    rw [parse, Procedure.bind_of_error outcome, described.same]

end Descent

/-! ## The end of the tokens -/

namespace ParseState

/-- Nothing behind an end token is read. -/
theorem run_cut {t : Token} (ended : t.kind = .endOfText) (source : Text) (s : ParseState)
    (before after : List Token) :
    s.run source (before ++ t :: after) = s.run source (before ++ [t]) := by
  induction before generalizing s with
  | nil => simp only [List.nil_append, run, if_pos ended]
  | cons u before ih => simp only [List.cons_append, run, ih]

/-- A list that just stops might as well have its end token. -/
theorem run_append_end (source : Text) (s : ParseState) (tokens : List Token) :
    s.run source (tokens ++ [⟨.endOfText, source.length, source.length⟩]) =
      s.run source tokens := by
  induction tokens generalizing s with
  | nil => simp only [List.nil_append, run, if_true]
  | cons u tokens ih => simp only [List.cons_append, run, ih]

end ParseState

/-- **Parsing ends on every list of tokens.** The procedures of the grammar return what the parser
with a stack gives, by the same way however deeply calls may be nested, once that is in proportion
to the tokens. No position that they look at is in front of one before it, and none is behind an end
token or the end of the list. What stands behind an end token does not count, and one at the end of
the source may be left out. -/
theorem parsing_ends (source : Text) (tokens : List Token) :
    (∃ last, (∀ depth ≥ 8 * (tokens.length + 1), (⟨source, tokens⟩ : Descent).parse depth ⟨0, []⟩ =
        some (Stmt.parse source tokens, last)) ∧
      last.looked.Pairwise (· ≥ ·) ∧ (∀ i ∈ last.looked, i ≤ last.pos) ∧
      last.pos ≤ tokens.length ∧
      ∀ i < last.pos, ∀ t, tokens[i]? = some t → t.kind ≠ .endOfText) ∧
    (∀ before t after, tokens = before ++ t :: after → t.kind = .endOfText →
      Stmt.parse source tokens = Stmt.parse source (before ++ [t])) ∧
    Stmt.parse source (tokens ++ [⟨.endOfText, source.length, source.length⟩]) =
      Stmt.parse source tokens := by
  have inside : (Token.beforeEnd tokens).length ≤ tokens.length :=
    (List.takeWhile_sublist _).length_le
  refine ⟨?_, ?_, ParseState.run_append_end source .initial tokens⟩
  · obtain ⟨last, ends, sound⟩ := (⟨source, tokens⟩ : Descent).parse_ends
    refine ⟨last, ?_, sound.increased, sound.passed, Nat.le_trans sound.inside inside, ?_⟩
    · intro depth deeper
      refine Descent.parse_of_le _ ?_ _ _ ends
      simp only [Descent.depth, Descent.limit]
      omega
    · intro i before t stands
      obtain ⟨u, stands', kind⟩ :=
        (Descent.getElem?_beforeEnd tokens).1 i (Nat.lt_of_lt_of_le before sound.inside)
      rw [stands, Option.some.injEq] at stands'
      exact stands' ▸ kind
  · rintro before t after rfl ended
    exact ParseState.run_cut ended source .initial before after

/-- A list that is not scanned from anything: a number without a value, spans that lie nowhere, and
an end token in the middle. -/
theorem parsing_ends_unscanned :
    let before : List Token := [⟨.leftParen, 9, 2⟩, ⟨.identifier, 0, 1⟩, ⟨.plus, -4, 0⟩]
    let after : List Token := [⟨.number none, 0, 0⟩, ⟨.rightParen, 1, 0⟩]
    Stmt.parse ("a" : Text) (before ++ ⟨.endOfText, 7, 7⟩ :: after) =
        Stmt.parse ("a" : Text) (before ++ [⟨.endOfText, 7, 7⟩]) ∧
      ∃ last, (⟨("a" : Text), before ++ ⟨.endOfText, 7, 7⟩ :: after⟩ : Descent).parse 56 ⟨0, []⟩ =
          some (.error (.fault .expectedExpression 7), last) ∧ last.pos ≤ 3 := by
  intro before after
  obtain ⟨⟨last, ends, -, -, -, noEnd⟩, cut, -⟩ :=
    parsing_ends ("a" : Text) (before ++ ⟨.endOfText, 7, 7⟩ :: after)
  refine ⟨cut before _ after rfl rfl, last, ends 56 (by decide), ?_⟩
  exact Nat.le_of_not_lt fun beyond => noEnd 3 beyond _ rfl rfl

end Reckoner
