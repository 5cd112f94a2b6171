import Mathlib.Data.List.Forall2
import Reckoner.Proofs.Written

/-!
# Parsing tokens that have been moved

The parser looks at the kinds of tokens and at the names they spell, and copies their positions into
trees and faults. If every token is moved to another place, in another text where it spells the same
name, the parser goes through the same states with all positions moved (`Relocation.steps`), and
ends with the same statement or the same failure, moved alike (`Relocation.parse_eq`).
-/

namespace Reckoner

/-- Two texts, and where the positions in the first one are found in the second. -/
structure Relocation where
  before : Text
  after : Text
  start : Int → Int
  stop : Int → Int

namespace Relocation

variable (r : Relocation)

def token (t : Token) : Token := t.relocate r.start r.stop

def expr (e : Expr) : Expr := e.relocate r.start r.stop

def stmt (stmt : Stmt) : Stmt := stmt.relocate r.start r.stop

def failure : Failure → Failure
  | .fault fault pos => .fault fault (r.start pos)
  | .defect defect => .defect defect

/-- What came of one parse, with all positions moved. -/
def outcome {α β : Type} (move : α → β) : Except Failure α → Except Failure β
  | .ok value => .ok (move value)
  | .error failure => .error (r.failure failure)

/-- The moved token spells the same name. -/
def KeepsName (t : Token) : Prop := (r.token t).name r.after = t.name r.before

/-! ## Statements -/

theorem relocateAll_eq (args : List Expr) :
    Expr.relocateAll r.start r.stop args = args.map r.expr := by
  induction args with
  | nil => rfl
  | cons e rest ih => rw [Expr.relocateAll, ih]; rfl

theorem expr_call (name : Text) (args : List Expr) (pos : Int) :
    r.expr (.call name args pos) = .call name (args.map r.expr) (r.start pos) := by
  rw [← relocateAll_eq]
  rfl

theorem position : ∀ e : Expr, (r.expr e).position = r.outcome r.start e.position
  | .binary left _ _ => position left
  | .literal _ _ => rfl
  | .unary _ _ => rfl
  | .grouping _ _ => rfl
  | .var _ _ => rfl
  | .call _ _ _ => rfl
  | .foreign _ => rfl

theorem parameter (e : Expr) : (r.expr e).parameter = r.outcome id e.parameter := by
  have hother (e : Expr) : (do throw (.fault .invalidParameter (← (r.expr e).position)) :
      Except Failure Text) = r.outcome id (do throw (.fault .invalidParameter (← e.position))) := by
    rw [r.position]
    cases e.position <;> rfl
  cases e with
  | var name pos => rfl
  | _ => exact hother _

theorem parameters (args : List Expr) :
    (args.map r.expr).mapM Expr.parameter = r.outcome id (args.mapM Expr.parameter) := by
  induction args with
  | nil => rfl
  | cons e rest ih =>
    rw [List.map_cons, mapM_parameter_cons, mapM_parameter_cons, r.parameter, ih]
    cases e.parameter with
    | error failure => rfl
    | ok name => cases rest.mapM Expr.parameter <;> rfl

theorem assignment (target value : Expr) : Stmt.assignment (r.expr target) (r.expr value) =
    r.outcome r.stmt (Stmt.assignment target value) := by
  have hother (e : Expr) : (do throw (.fault .invalidTarget (← (r.expr e).position)) :
      Except Failure Stmt) = r.outcome r.stmt
        (do throw (.fault .invalidTarget (← e.position))) := by
    rw [r.position]
    cases e.position <;> rfl
  cases target with
  | var name pos => rfl
  | call name args pos =>
    simp only [expr_call, Stmt.assignment, r.parameters]
    cases args.mapM Expr.parameter <;> rfl
  | _ => exact hother _

/-! ## States -/

/-- An entry of the stack and the same one with all positions moved. -/
inductive Pendings : Pending → Pending → Prop where
  | binary (left : Expr) (operator : Token) :
      Pendings (.binary left operator) (.binary (r.expr left) (r.token operator))
  | unary (operator : Token) (inExponent : Bool) :
      Pendings (.unary operator inExponent) (.unary (r.token operator) inExponent)
  | group (opening : Token) : Pendings (.group opening) (.group (r.token opening))
  | arguments {name : Token} (before : List Expr) (keeps : r.KeepsName name) :
      Pendings (.arguments name before) (.arguments (r.token name) (before.map r.expr))

inductive Focuses : Focus → Focus → Prop where
  | operand : Focuses .operand .operand
  | name {t : Token} (keeps : r.KeepsName t) : Focuses (.name t) (.name (r.token t))
  | finished (e : Expr) : Focuses (.finished e) (.finished (r.expr e))

/-- A state and the same one with all positions moved. -/
structure States (s s' : ParseState) : Prop where
  target : s'.target = s.target.map r.expr
  stack : List.Forall₂ r.Pendings s.stack s'.stack
  focus : r.Focuses s.focus s'.focus

/-- Two steps that lead to such states, or fail alike. -/
inductive Steps : Except Failure ParseState → Except Failure ParseState → Prop where
  | ok {s s' : ParseState} (h : r.States s s') : Steps (.ok s) (.ok s')
  | error (failure : Failure) : Steps (.error failure) (.error (r.failure failure))

variable {r} {s s' : ParseState} {stack stack' : List Pending} {pending pending' : Pending}

theorem Pendings.level (h : r.Pendings pending pending') : pending'.level = pending.level := by
  cases h <;> rfl

theorem Pendings.complete (h : r.Pendings pending pending') (e : Expr) :
    pending'.complete (r.expr e) = r.expr (pending.complete e) := by
  cases h <;> rfl

theorem Pendings.awaitsExponent (h : r.Pendings pending pending') :
    pending'.awaitsExponent = pending.awaitsExponent := by
  cases h <;> rfl

theorem reduce (level : Nat) (h : List.Forall₂ r.Pendings stack stack') (e : Expr) :
    ∃ rest', Reckoner.reduce level stack' (r.expr e) =
        (rest', r.expr (Reckoner.reduce level stack e).2) ∧
      List.Forall₂ r.Pendings (Reckoner.reduce level stack e).1 rest' := by
  induction h generalizing e with
  | nil => exact ⟨[], rfl, .nil⟩
  | @cons pending pending' stack stack' hfirst hrest ih =>
    unfold Reckoner.reduce
    rw [hfirst.level]
    by_cases hlevel : level ≤ pending.level
    · rw [if_pos hlevel, if_pos hlevel, hfirst.complete]
      exact ih (pending.complete e)
    · rw [if_neg hlevel, if_neg hlevel]
      exact ⟨pending' :: stack', rfl, .cons hfirst hrest⟩

theorem States.awaitsExponent (h : r.States s s') : s'.awaitsExponent = s.awaitsExponent := by
  obtain ⟨target, stack, focus⟩ := s
  obtain ⟨target', stack', focus'⟩ := s'
  cases h.stack with
  | nil => rfl
  | cons hfirst hrest => exact hfirst.awaitsExponent

theorem States.await (h : r.States s s') (hpending : r.Pendings pending pending')
    (hstack : List.Forall₂ r.Pendings stack stack') :
    r.Steps (.ok (s.await pending stack)) (.ok (s'.await pending' stack')) :=
  .ok ⟨h.target, .cons hpending hstack, .operand⟩

theorem States.finish (h : r.States s s') (e : Expr)
    (hstack : List.Forall₂ r.Pendings stack stack') :
    r.Steps (.ok (s.finish e stack)) (.ok (s'.finish (r.expr e) stack')) :=
  .ok ⟨h.target, hstack, .finished e⟩

/-! ## Steps -/

theorem States.begin (h : r.States s s') {t : Token} (ht : r.KeepsName t) :
    r.Steps (s.begin t) (s'.begin (r.token t)) := by
  unfold ParseState.begin
  rw [h.awaitsExponent]
  have hkind : (r.token t).kind = t.kind := rfl
  rw [hkind]
  split
  · exact h.finish _ h.stack
  · exact .ok ⟨h.target, h.stack, .name ht⟩
  · exact h.await (.group t) h.stack
  · exact h.await (.unary t _) h.stack
  · exact h.await (.unary t _) h.stack
  · exact .error _

theorem States.operate (h : r.States s s') (e : Expr) (level : Nat) (t : Token) :
    r.Steps (.ok (s.operate e level t)) (.ok (s'.operate (r.expr e) level (r.token t))) := by
  obtain ⟨rest', hreduce, hrest⟩ := reduce level h.stack e
  unfold ParseState.operate
  rw [hreduce]
  exact h.await (.binary _ t) hrest

/-- A token behind a whole expression, with nothing open. -/
theorem States.close_bottom (h : r.States s s') (e : Expr) (t : Token) :
    r.Steps (s.close r.before t ([], e)) (s'.close r.after (r.token t) ([], r.expr e)) := by
  have hkind : (r.token t).kind = t.kind := rfl
  simp only [ParseState.close, h.target, hkind]
  cases s.target with
  | none =>
    by_cases hequal : t.kind = .equal
    · simp only [Option.map_none, if_pos hequal]
      exact .ok ⟨rfl, .nil, .operand⟩
    · simp only [Option.map_none, if_neg hequal]
      exact .error _
  | some target =>
    simp only [Option.map_some, r.assignment]
    cases Stmt.assignment target e <;> exact .error _

theorem States.close (h : r.States s s') (e : Expr) (t : Token)
    (hstack : List.Forall₂ r.Pendings stack stack') :
    r.Steps (s.close r.before t (stack, e)) (s'.close r.after (r.token t) (stack', r.expr e)) := by
  have hkind : (r.token t).kind = t.kind := rfl
  cases hstack with
  | nil => exact h.close_bottom e t
  | cons hfirst hrest =>
    cases hfirst with
    | binary left operator => exact h.close_bottom e t
    | unary operator inExponent => exact h.close_bottom e t
    | group opening =>
      simp only [ParseState.close, hkind]
      by_cases hclosed : t.kind = .rightParen
      · rw [if_pos hclosed, if_pos hclosed]
        exact h.finish (.grouping e opening.start) hrest
      · rw [if_neg hclosed, if_neg hclosed]
        exact .error _
    | @arguments name before keeps =>
      have hargs : before.map r.expr ++ [r.expr e] = (before ++ [e]).map r.expr := by simp
      simp only [ParseState.close, hkind, hargs]
      by_cases hcomma : t.kind = .comma
      · rw [if_pos hcomma, if_pos hcomma]
        exact h.await (.arguments _ keeps) hrest
      rw [if_neg hcomma, if_neg hcomma]
      by_cases hclosed : t.kind = .rightParen
      · have hcall := h.finish (.call (name.name r.before) (before ++ [e]) name.start) hrest
        rw [expr_call, ← keeps] at hcall
        rw [if_pos hclosed, if_pos hclosed, ← keeps]
        exact hcall
      · rw [if_neg hclosed, if_neg hclosed]
        exact .error _

theorem States.follow (h : r.States s s') (e : Expr) (t : Token) :
    r.Steps (s.follow r.before e t) (s'.follow r.after (r.expr e) (r.token t)) := by
  obtain ⟨rest', hreduce, hrest⟩ := reduce 1 h.stack e
  have hclose := h.close (Reckoner.reduce 1 s.stack e).2 t hrest
  unfold ParseState.follow
  have hkind : (r.token t).kind = t.kind := rfl
  rw [hkind, hreduce]
  split
  · exact h.operate e 1 t
  · exact h.operate e 1 t
  · exact h.operate e 2 t
  · exact h.operate e 2 t
  · exact h.operate e 4 t
  · exact hclose

theorem expr_name {t : Token} (h : r.KeepsName t) :
    r.expr (.var (t.name r.before) t.start) =
      .var ((r.token t).name r.after) (r.token t).start := by
  rw [h]
  rfl

/-- **One step from moved states leads to moved states.** -/
theorem States.step (h : r.States s s') {t : Token} (ht : r.KeepsName t) :
    r.Steps (s.step r.before t) (s'.step r.after (r.token t)) := by
  obtain ⟨target, stack, focus⟩ := s
  obtain ⟨target', stack', focus'⟩ := s'
  have hkind : (r.token t).kind = t.kind := rfl
  cases h.focus with
  | operand => exact h.begin ht
  | finished e => exact h.follow e t
  | @name name keeps =>
    simp only [ParseState.step, hkind]
    by_cases hopened : t.kind = .leftParen
    · rw [if_pos hopened, if_pos hopened]
      exact h.await (.arguments [] keeps) h.stack
    · rw [if_neg hopened, if_neg hopened, ← expr_name keeps]
      exact h.follow _ t

/-! ## The end of the tokens -/

theorem States.conclude_bottom (h : r.States s s') (pos : Int) (e : Expr) :
    s'.conclude (r.start pos) ([], r.expr e) = r.outcome r.stmt (s.conclude pos ([], e)) := by
  simp only [ParseState.conclude, h.target]
  cases s.target with
  | none => rfl
  | some target => exact r.assignment target e

theorem States.conclude (h : r.States s s') (pos : Int) (e : Expr)
    (hstack : List.Forall₂ r.Pendings stack stack') :
    s'.conclude (r.start pos) (stack', r.expr e) =
      r.outcome r.stmt (s.conclude pos (stack, e)) := by
  cases hstack with
  | nil => exact h.conclude_bottom pos e
  | cons hfirst hrest =>
    cases hfirst with
    | binary left operator => exact h.conclude_bottom pos e
    | unary operator inExponent => exact h.conclude_bottom pos e
    | group opening => rfl
    | arguments before keeps => rfl

theorem States.stop (h : r.States s s') (pos : Int) :
    s'.stop r.after (r.start pos) = r.outcome r.stmt (s.stop r.before pos) := by
  have hreduced (e : Expr) : s'.conclude (r.start pos) (Reckoner.reduce 1 s'.stack (r.expr e)) =
      r.outcome r.stmt (s.conclude pos (Reckoner.reduce 1 s.stack e)) := by
    obtain ⟨rest', hreduce, hrest⟩ := reduce 1 h.stack e
    rw [hreduce]
    exact h.conclude pos _ hrest
  obtain ⟨target, stack, focus⟩ := s
  obtain ⟨target', stack', focus'⟩ := s'
  cases h.focus with
  | operand => rfl
  | finished e => exact hreduced e
  | name keeps =>
    simp only [ParseState.stop, ← expr_name keeps]
    exact hreduced _

/-- **Reading moved tokens from moved states leads to moved states.** -/
theorem States.steps (h : r.States s s') {ts : List Token} (hts : ∀ t ∈ ts, r.KeepsName t) :
    r.Steps (s.steps r.before ts) (s'.steps r.after (ts.map r.token)) := by
  induction ts generalizing s s' with
  | nil => exact .ok h
  | cons t ts ih =>
    obtain ⟨ht, hts⟩ := List.forall_mem_cons.mp hts
    have hstep := h.step ht
    simp only [ParseState.steps, List.map_cons, List.foldlM_cons]
    cases hs : s.step r.before t with
    | error failure =>
      rw [hs] at hstep
      generalize s'.step r.after (r.token t) = next' at hstep
      cases hstep
      exact .error failure
    | ok next =>
      rw [hs] at hstep
      generalize s'.step r.after (r.token t) = next' at hstep
      cases hstep with
      | ok hnext => exact ih hnext hts

theorem initial (r : Relocation) : r.States .initial .initial := ⟨rfl, .nil, .operand⟩

/-- **Moved tokens give the same statement or the same failure, with all positions moved.** -/
theorem parse_eq (r : Relocation) {tokens tokens' : List Token}
    (hbody : Token.beforeEnd tokens' = (Token.beforeEnd tokens).map r.token)
    (hnames : ∀ t ∈ Token.beforeEnd tokens, r.KeepsName t)
    (hend : Token.endPosition r.after tokens' = r.start (Token.endPosition r.before tokens)) :
    Stmt.parse r.after tokens' = r.outcome r.stmt (Stmt.parse r.before tokens) := by
  have hsteps := r.initial.steps hnames
  rw [Stmt.parse, Stmt.parse, ParseState.run_eq, ParseState.run_eq, hbody, hend]
  generalize ParseState.initial.steps r.before (Token.beforeEnd tokens) = last at hsteps
  generalize ParseState.initial.steps r.after ((Token.beforeEnd tokens).map r.token) =
    last' at hsteps
  cases hsteps with
  | ok h => exact h.stop _
  | error failure => rfl

end Relocation
end Reckoner
