import Mathlib.Logic.Relation
import Reckoner.Proofs.Rules
import Reckoner.Proofs.Sessions.Outcome
import Reckoner.Proofs.Watched

/-!
# Evaluation ends

The rules of evaluation do not say that an expression comes to anything. An evaluation starts others
(`Task.Starts`): of a part of its expression under the same frames, or of the body of a function,
which may be of any size, under one frame more. The stack is tested before the frame is pushed, when
all arguments have been evaluated. So fewer calls are left, or as many and the expression is smaller
(`Task.Starts.lex`). What is started is therefore well founded, and a task all of whose starts end
has an end itself (`Task.ends_of_starts`): every evaluation ends, with the stack never higher than
the limit (`evaluation_ends`). That nothing else is started shows in the evaluator itself: it does
the same under a watch that the started tasks pass (`Task.unalarmed`).
-/

namespace Reckoner

namespace Expr

/-! ## What an evaluation starts -/

mutual

/-- The number of nodes. -/
def size : Expr → Nat
  | literal _ _ => 1
  | grouping inner _ => size inner + 1
  | var _ _ => 1
  | binary left _ right => size left + size right + 1
  | unary _ operand => size operand + 1
  | call _ args _ => sizeAll args + 1
  | foreign _ => 1

def sizeAll : List Expr → Nat
  | [] => 0
  | e :: rest => size e + sizeAll rest

end

theorem size_le_sizeAll (before : List Expr) (e : Expr) (rest : List Expr) :
    e.size ≤ sizeAll (before ++ e :: rest) := by
  induction before with
  | nil =>
    rw [List.nil_append, sizeAll]
    exact Nat.le_add_right _ _
  | cons first before ih =>
    rw [List.cons_append, sizeAll]
    exact Nat.le_trans ih (Nat.le_add_left _ _)

end Expr

/-- An expression to be evaluated on a machine. -/
structure Task where
  expr : Expr
  machine : Machine

namespace Task

open Reckoner.Expr (Evaluates EvaluatesAll)

/-- A task starts another one on its way, when what comes before it has been evaluated. -/
inductive Starts (scope : Scope) : Task → Task → Prop where
  | grouping {inner pos machine} : Starts scope ⟨.grouping inner pos, machine⟩ ⟨inner, machine⟩
  | left {left operator right machine} :
      Starts scope ⟨.binary left operator right, machine⟩ ⟨left, machine⟩
  | right {left operator right machine x between}
      (first : Evaluates scope left machine (.ok x) between) :
      Starts scope ⟨.binary left operator right, machine⟩ ⟨right, between⟩
  | operand {operator operand machine} :
      Starts scope ⟨.unary operator operand, machine⟩ ⟨operand, machine⟩
  | argument {name before arg rest pos machine values between}
      (earlier : EvaluatesAll scope before machine (.ok values) between) :
      Starts scope ⟨.call name (before ++ arg :: rest) pos, machine⟩ ⟨arg, between⟩
  | body {name args pos machine values between params body}
      (evaluated : EvaluatesAll scope args machine (.ok values) between)
      (function : scope.env.function? name = some (.user params body))
      (arity : params.length = values.length) (limit : between.frames.length < scope.callLimit) :
      Starts scope ⟨.call name args pos, machine⟩ ⟨body, between.push (.bind params values)⟩

/-- The calls that are left, and the size of the expression. -/
def measure (scope : Scope) (task : Task) : Nat × Nat :=
  (task.machine.callsLeft scope.callLimit, task.expr.size)

variable {scope : Scope} {task next : Task}

/-- A task on a machine with the same frames is smaller if its expression is. -/
theorem lex_of_size (hframes : next.machine.frames = task.machine.frames)
    (hsize : next.expr.size < task.expr.size) :
    Prod.Lex (· < ·) (· < ·) (next.measure scope) (task.measure scope) := by
  unfold measure
  rw [Machine.callsLeft_of_frames hframes]
  exact .right _ hsize

/-- What is started has fewer calls left, or as many and a smaller expression. -/
theorem Starts.lex (h : task.Starts scope next) :
    Prod.Lex (· < ·) (· < ·) (next.measure scope) (task.measure scope) := by
  cases h with
  | grouping =>
    refine lex_of_size rfl ?_
    simp only [Expr.size]
    omega
  | left =>
    refine lex_of_size rfl ?_
    simp only [Expr.size]
    omega
  | right first =>
    refine lex_of_size first.frames ?_
    simp only [Expr.size]
    omega
  | operand =>
    refine lex_of_size rfl ?_
    simp only [Expr.size]
    omega
  | @argument name before arg rest pos machine values between earlier =>
    refine lex_of_size earlier.frames ?_
    have hle := Expr.size_le_sizeAll before arg rest
    simp only [Expr.size]
    omega
  | body evaluated function arity limit =>
    -- The body may be of any size, but the test came before the frame.
    have hpos := Machine.callsLeft_pos_iff.mpr limit
    rw [Machine.callsLeft_of_frames evaluated.frames] at hpos
    refine .left _ _ ?_
    rw [Machine.callsLeft_push, Machine.callsLeft_of_frames evaluated.frames]
    exact Nat.sub_one_lt_of_lt hpos

theorem starts_wellFounded (scope : Scope) :
    WellFounded fun next task : Task => task.Starts scope next := by
  have hlex : WellFounded (Prod.Lex (· < ·) (· < ·) : Nat × Nat → Nat × Nat → Prop) :=
    (Prod.lex ⟨(· < ·), Nat.lt_wfRel.wf⟩ ⟨(· < ·), Nat.lt_wfRel.wf⟩).wf
  exact Subrelation.wf (fun h => h.lex) (InvImage.wf (measure scope) hlex)

/-- A frame is pushed on a stack below the limit only. -/
theorem Starts.frames_le (h : task.Starts scope next) :
    (next.machine.frames.length : Int) ≤
      max (task.machine.frames.length : Int) scope.callLimit := by
  cases h with
  | grouping => exact Int.le_max_left _ _
  | left => exact Int.le_max_left _ _
  | right first =>
    rw [first.frames]
    exact Int.le_max_left _ _
  | operand => exact Int.le_max_left _ _
  | argument earlier =>
    rw [earlier.frames]
    exact Int.le_max_left _ _
  | body evaluated function arity limit =>
    simp only [Machine.push, List.length_cons]
    omega

theorem frames_le (h : Relation.ReflTransGen (Starts scope) task next) :
    (next.machine.frames.length : Int) ≤
      max (task.machine.frames.length : Int) scope.callLimit := by
  induction h with
  | refl => exact Int.le_max_left _ _
  | tail _ step ih =>
    have hstep := step.frames_le
    omega

/-! ## Every evaluation ends -/

/-- The rules lead to an outcome of the task. -/
def Ends (scope : Scope) (task : Task) : Prop :=
  ∃ result after, Evaluates scope task.expr task.machine result after

/-- Arguments come to an outcome, one after the other, if each that is started does. -/
theorem arguments_end {name : Text} {pos : Int} {machine between : Machine}
    {before rest : List Expr} {values : List Decimal}
    (hbefore : EvaluatesAll scope before machine (.ok values) between)
    (h : ∀ next, Starts scope ⟨.call name (before ++ rest) pos, machine⟩ next → next.Ends scope) :
    ∃ result after, EvaluatesAll scope rest between result after := by
  induction rest generalizing before values between with
  | nil => exact ⟨_, _, .nil⟩
  | cons arg rest ih =>
    obtain ⟨result, behind, harg⟩ := h _ (.argument hbefore)
    cases result with
    | error failure => exact ⟨_, _, .firstFails harg⟩
    | ok value =>
      rw [List.append_cons] at h
      obtain ⟨result, after, hrest⟩ := ih (hbefore.concat harg) h
      cases result with
      | error failure => exact ⟨_, _, .restFails harg hrest⟩
      | ok others => exact ⟨_, _, .cons harg hrest⟩

/-- A task ends if every task does that it starts. -/
theorem ends_of_starts (h : ∀ next, task.Starts scope next → next.Ends scope) :
    task.Ends scope := by
  obtain ⟨e, machine⟩ := task
  cases e with
  | literal value pos => exact ⟨_, _, .literal⟩
  | grouping inner pos =>
    obtain ⟨result, after, hinner⟩ := h _ .grouping
    exact ⟨result, after, .grouping hinner⟩
  | var name pos => exact ⟨_, _, .name rfl⟩
  | binary left operator right =>
    obtain ⟨result, between, hleft⟩ := h _ .left
    cases result with
    | error failure => exact ⟨_, _, .leftFails hleft⟩
    | ok x =>
      obtain ⟨result, behind, hright⟩ := h _ (.right hleft)
      cases result with
      | error failure => exact ⟨_, _, .rightFails hleft hright⟩
      | ok y => exact ⟨_, _, .binary hleft hright rfl⟩
  | unary operator operand =>
    obtain ⟨result, between, hoperand⟩ := h _ .operand
    cases result with
    | error failure => exact ⟨_, _, .operandFails hoperand⟩
    | ok x => exact ⟨_, _, .unary hoperand rfl⟩
  | call name args pos =>
    obtain ⟨result, between, hargs⟩ := arguments_end .nil h
    cases result with
    | error failure => exact ⟨_, _, .argumentFails hargs⟩
    | ok values =>
      cases hfunction : scope.env.function? name with
      | none => exact ⟨_, _, .unknown hargs hfunction⟩
      | some function =>
        cases function with
        | builtin b => exact ⟨_, _, .builtin hargs hfunction rfl⟩
        | user params body =>
          by_cases harity : params.length = values.length
          · by_cases hlimit : between.frames.length < scope.callLimit
            · obtain ⟨result, after, hbody⟩ := h _ (.body hargs hfunction harity hlimit)
              exact ⟨_, _, .user hargs hfunction harity hlimit hbody⟩
            · exact ⟨_, _, .refused hargs hfunction harity (Int.not_lt.mp hlimit)⟩
          · exact ⟨_, _, .arity hargs hfunction harity⟩
  | foreign node => exact ⟨_, _, .foreign⟩

theorem ends (scope : Scope) (task : Task) : task.Ends scope :=
  (starts_wellFounded scope).induction task fun _ => ends_of_starts

end Task

/-- The rules say just what the evaluator finds. -/
theorem Expr.evaluates_iff {scope : Scope} {e : Expr} {machine after : Machine}
    {result : Except Failure Decimal} :
    Evaluates scope e machine result after ↔ e.eval scope machine = (result, after) := by
  constructor
  · exact fun h => h.eval_eq
  · intro h
    obtain ⟨found, behind, hends⟩ := Task.ends scope ⟨e, machine⟩
    cases hends.eval_eq.symm.trans h
    exact hends

theorem Expr.evaluatesAll_iff {scope : Scope} {args : List Expr} {machine after : Machine}
    {result : Except Failure (List Decimal)} : EvaluatesAll scope args machine result after ↔
      args.mapM (eval scope) machine = (result, after) := by
  constructor
  · exact fun h => h.eval_eq
  · intro h
    have hstarts : ∀ next, Task.Starts scope ⟨.call [] ([] ++ args) 0, machine⟩ next →
        next.Ends scope := fun next _ => Task.ends scope next
    obtain ⟨found, behind, hends⟩ := Task.arguments_end .nil hstarts
    cases hends.eval_eq.symm.trans h
    exact hends

/-! ## Under watch

The machines that the evaluator runs bodies on are among those of the tasks that are started: a
watch that all of these pass is never heard of.
-/

section Watch

variable (good : Machine → Prop) [DecidablePred good] (alarm : Failure)

/-- The way to run bodies under watch while so many calls are left. -/
def Scope.watching (scope : Scope) : Nat → Option (Expr → Evaluator Decimal)
  | 0 => none
  | calls + 1 => some fun body => (body.evalWatchedWithin good alarm scope calls).watched good alarm

/-- Under watch the task comes to the same. -/
def Task.Unalarmed (scope : Scope) (task : Task) : Prop :=
  task.expr.evalWatched good alarm scope task.machine = task.expr.eval scope task.machine

variable {good alarm} {scope : Scope} {task : Task}

theorem Expr.evalWith_watching {calls : Nat} {machine : Machine}
    (h : machine.callsLeft scope.callLimit = calls) (e : Expr) :
    e.evalWith scope (scope.watching good alarm calls) machine =
      e.evalWatched good alarm scope machine := by
  subst h
  unfold evalWatched
  cases machine.callsLeft scope.callLimit <;> rfl

namespace Task

theorem Unalarmed.evalWith_eq {e : Expr} {machine : Machine} {calls : Nat}
    (h : Unalarmed good alarm scope ⟨e, machine⟩)
    (hcalls : machine.callsLeft scope.callLimit = calls) :
    e.evalWith scope (scope.watching good alarm calls) machine = e.eval scope machine :=
  (Expr.evalWith_watching hcalls e).trans h

/-- Arguments come to the same, one after the other, if each that is started does. -/
theorem arguments_unalarmed {name : Text} {pos : Int} {machine between : Machine}
    {before rest : List Expr} {values : List Decimal}
    (hbefore : Expr.EvaluatesAll scope before machine (.ok values) between)
    (h : ∀ next, Starts scope ⟨.call name (before ++ rest) pos, machine⟩ next →
      next.Unalarmed good alarm scope) :
    Expr.evalAll scope (scope.watching good alarm (machine.callsLeft scope.callLimit))
        rest between =
      rest.mapM (Expr.eval scope) between := by
  induction rest generalizing before values between with
  | nil => rfl
  | cons arg rest ih =>
    have harg := h _ (.argument hbefore)
    rw [Expr.evalAll, List.mapM_cons]
    refine Evaluator.bind_congr (harg.evalWith_eq (Machine.callsLeft_of_frames hbefore.frames)) ?_
    intro value behind hvalue
    rw [List.append_cons] at h
    refine Evaluator.bind_congr (ih (hbefore.concat (Expr.evaluates_iff.mpr hvalue)) h) ?_
    intro others after _
    rfl

/-- A call comes to the same if the watch lets its body run and the body does. -/
theorem call_unalarmed {name : Text} {args : List Expr} {pos : Int} {machine between : Machine}
    {values : List Decimal} (hargs : Expr.EvaluatesAll scope args machine (.ok values) between)
    (h : ∀ next, Starts scope ⟨.call name args pos, machine⟩ next →
      good next.machine ∧ next.Unalarmed good alarm scope) :
    scope.call (scope.watching good alarm (machine.callsLeft scope.callLimit)) name values pos
      between = scope.enter name values pos between := by
  rw [← Machine.callsLeft_of_frames hargs.frames]
  apply Scope.call_congr
  intro params body hfunction harity
  have hpushed : (between.push (.bind params values)).callsLeft scope.callLimit =
      between.callsLeft scope.callLimit - 1 := Machine.callsLeft_push _
  by_cases hlimit : between.frames.length < scope.callLimit
  · obtain ⟨hgood, hbody⟩ := h _ (.body hargs hfunction harity hlimit)
    obtain ⟨calls, hcalls⟩ := Nat.exists_eq_add_one.mpr (Machine.callsLeft_pos_iff.mpr hlimit)
    rw [hcalls, Nat.add_sub_cancel] at hpushed
    rw [hcalls, if_pos hlimit]
    refine .some ?_
    simp only [Evaluator.watched, if_pos hgood, ← hpushed]
    exact hbody
  · have hcalls : between.callsLeft scope.callLimit = 0 :=
      Nat.eq_zero_of_not_pos fun hpos => hlimit (Machine.callsLeft_pos_iff.mp hpos)
    rw [hcalls, if_neg hlimit]
    exact .none

/-- A task comes to the same if every task does that it starts, and the watch lets it. -/
theorem unalarmed_of_starts (h : ∀ next, task.Starts scope next →
    good next.machine ∧ next.Unalarmed good alarm scope) : task.Unalarmed good alarm scope := by
  obtain ⟨e, machine⟩ := task
  unfold Unalarmed
  rw [← Expr.evalWith_watching rfl]
  cases e with
  | literal value pos => rw [Expr.eval_literal, Expr.evalWith]; rfl
  | grouping inner pos =>
    rw [Expr.eval_grouping, Expr.evalWith]
    exact (h _ .grouping).2.evalWith_eq rfl
  | var name pos => rw [Expr.eval_var, Expr.evalWith]
  | binary left operator right =>
    rw [Expr.eval_binary, Expr.evalWith]
    refine Evaluator.bind_congr ((h _ .left).2.evalWith_eq rfl) ?_
    intro x between hleft
    have hright := h _ (.right (Expr.evaluates_iff.mpr hleft))
    refine Evaluator.bind_congr (hright.2.evalWith_eq (Expr.callsLeft_of_eval hleft)) ?_
    intro y behind _
    rfl
  | unary operator operand =>
    rw [Expr.eval_unary, Expr.evalWith]
    refine Evaluator.bind_congr ((h _ .operand).2.evalWith_eq rfl) ?_
    intro x between _
    rfl
  | call name args pos =>
    rw [Expr.eval_call, Expr.evalWith]
    have hstarts : ∀ next, Starts scope ⟨.call name ([] ++ args) pos, machine⟩ next →
        next.Unalarmed good alarm scope := fun next hnext => (h next hnext).2
    refine Evaluator.bind_congr (arguments_unalarmed .nil hstarts) ?_
    intro values between hargs
    exact call_unalarmed (Expr.evaluatesAll_iff.mpr hargs) h
  | foreign node => rw [Expr.eval_foreign, Expr.evalWith]; rfl

theorem unalarmed (h : ∀ next, Relation.ReflTransGen (Starts scope) task next → good next.machine) :
    task.Unalarmed good alarm scope := by
  induction task using (starts_wellFounded scope).induction with
  | _ task ih =>
    refine unalarmed_of_starts fun next hstarts => ⟨h next (.single hstarts), ?_⟩
    exact ih next hstarts fun later hlater => h later (.head hstarts hlater)

end Task

end Watch

/-! ## Statements -/

namespace Stmt

/-- What a statement comes to. An assignment takes effect only behind a value that was found. -/
inductive Evaluates (scope : Scope) (persist : Bool) (ctx : Context) :
    Stmt → Except Failure (Decimal × Environment) → Context → Prop where
  | expression {e result after} (evaluated : e.Evaluates scope ⟨ctx, []⟩ result after) :
      Evaluates scope persist ctx (.expression e)
        (result.map fun value => (value, scope.env)) after.context
  | assignment {name e result after} (evaluated : e.Evaluates scope ⟨ctx, []⟩ result after) :
      Evaluates scope persist ctx (.variableAssignment name e)
        (result.map fun value =>
          (value, if persist then scope.env.setVariable name value else scope.env)) after.context
  | definition {name params body} :
      Evaluates scope persist ctx (.functionAssignment name params body)
        (.ok (definitionValue,
          if persist then scope.env.setFunction name (.user params body) else scope.env)) ctx
  | foreign {node} :
      Evaluates scope persist ctx (.foreign node) (.error (.defect (.unhandledNode node))) ctx

/-- The tasks on the way of a statement: its expression, outside of any call, and whatever is
started from there. -/
def Begins (scope : Scope) (ctx : Context) (stmt : Stmt) (task : Task) : Prop :=
  ∃ e, stmt.evaluated? = some e ∧ Relation.ReflTransGen (Task.Starts scope) ⟨e, ⟨ctx, []⟩⟩ task

variable {scope : Scope} {persist : Bool} {ctx : Context} {stmt : Stmt}

theorem Evaluates.evaluate_eq {result : Except Failure (Decimal × Environment)} {after : Context}
    (h : stmt.Evaluates scope persist ctx result after) :
    stmt.evaluate scope persist ctx = (result, after) := by
  cases h with
  | expression evaluated => simp only [evaluate, evalTop, evaluated.eval_eq]
  | assignment evaluated => simp only [evaluate, evalTop, evaluated.eval_eq]
  | definition => rfl
  | foreign => rfl

theorem exists_evaluates (scope : Scope) (persist : Bool) (ctx : Context) (stmt : Stmt) :
    ∃ result after, stmt.Evaluates scope persist ctx result after := by
  cases stmt with
  | expression e =>
    obtain ⟨result, after, hends⟩ := Task.ends scope ⟨e, ⟨ctx, []⟩⟩
    exact ⟨_, _, .expression hends⟩
  | variableAssignment name e =>
    obtain ⟨result, after, hends⟩ := Task.ends scope ⟨e, ⟨ctx, []⟩⟩
    exact ⟨_, _, .assignment hends⟩
  | functionAssignment name params body => exact ⟨_, _, .definition⟩
  | foreign node => exact ⟨_, _, .foreign⟩

end Stmt

/-- **Evaluation ends.** For every statement, every environment, whatever the functions in it call,
and every integer for the call limit, the rules lead to one outcome and no other, a value or a
failure, and that is what evaluation gives. On the way the stack never has more frames than the
limit says, or than none if it is negative, and a watch for a higher stack would change nothing.
Whatever an evaluation starts has fewer calls left, or as many and a smaller expression, so there is
no endless chain of evaluations. -/
theorem evaluation_ends (stmt : Stmt) (env : Environment) (last : Decimal) (limit : Int)
    (persist : Bool) (ctx : Context) :
    let scope : Scope := ⟨env, last, limit⟩
    (∃ result after, stmt.Evaluates scope persist ctx result after ∧
      stmt.evaluate scope persist ctx = (result, after) ∧
      ∀ other behind, stmt.Evaluates scope persist ctx other behind →
        other = result ∧ behind = after) ∧
    (∀ task, stmt.Begins scope ctx task → (task.machine.frames.length : Int) ≤ max 0 limit) ∧
    (∀ e alarm, stmt.evaluated? = some e →
      e.evalWatched (fun machine => (machine.frames.length : Int) ≤ max 0 limit) alarm scope
        ⟨ctx, []⟩ = e.eval scope ⟨ctx, []⟩) ∧
    (∀ task next : Task, task.Starts scope next →
      Prod.Lex (· < ·) (· < ·) (next.measure scope) (task.measure scope)) ∧
    WellFounded fun next task : Task => task.Starts scope next := by
  intro scope
  refine ⟨?_, ?_, ?_, fun task next => Task.Starts.lex, Task.starts_wellFounded scope⟩
  · obtain ⟨result, after, h⟩ := Stmt.exists_evaluates scope persist ctx stmt
    refine ⟨result, after, h, h.evaluate_eq, ?_⟩
    intro other behind hother
    exact Prod.mk.inj (hother.evaluate_eq.symm.trans h.evaluate_eq)
  · rintro task ⟨e, -, hstarts⟩
    exact Task.frames_le hstarts
  · intro e alarm _
    have hunalarmed : Task.Unalarmed
        (fun machine => (machine.frames.length : Int) ≤ max 0 limit) alarm scope
        ⟨e, ⟨ctx, []⟩⟩ := Task.unalarmed fun next hstarts => Task.frames_le hstarts
    exact hunalarmed

/-- `f(x)=f(x)` under a limit of two. The stack is as high as it may be when the third call is
refused, and that is the end. -/
theorem evaluation_ends_unbounded_recursion :
    let env := Environment.withBuiltins.setFunction "f" (.user ["x"] (.call "f" [.var "x" 7] 5))
    let stmt : Stmt := .expression (.call "f" [.literal .one 2] 0)
    let scope : Scope := ⟨env, .zero, 2⟩
    (stmt.evaluate scope true .standard).1 = .error (.fault (.recursionLimit 2) 5) ∧
      (∃ task, stmt.Begins scope .standard task ∧ task.machine.frames.length = 2) ∧
      ∀ task, stmt.Begins scope .standard task → (task.machine.frames.length : Int) ≤ max 0 2 := by
  intro env stmt scope
  have hfunction : env.function? "f" = some (.user ["x"] (.call "f" [.var "x" 7] 5)) := rfl
  have hfirst : Expr.EvaluatesAll scope [.literal .one 2] ⟨.standard, []⟩ (.ok [.one])
      ⟨.standard, []⟩ := .cons .literal .nil
  have hsecond : Expr.EvaluatesAll scope [.var "x" 7] ⟨.standard, [[("x", .one)]]⟩ (.ok [.one])
      ⟨.standard, [[("x", .one)]]⟩ := .cons (.name rfl) .nil
  refine ⟨rfl, ⟨⟨.call "f" [.var "x" 7] 5, ⟨.standard, [[("x", .one)], [("x", .one)]]⟩⟩, ?_, rfl⟩,
    (evaluation_ends stmt env .zero 2 true .standard).2.1⟩
  refine ⟨.call "f" [.literal .one 2] 0, rfl, ?_⟩
  refine .tail (.single (.body hfirst hfunction rfl (by decide))) ?_
  exact .body hsecond hfunction rfl (by decide)

end Reckoner
