import Reckoner.Proofs.Sessions.Outcome

/-!
# The call limit below the limit

The call limit is read in one place: where a user function would be called with as many calls
running as may be. The refusal that follows is handled nowhere on its way up. So two evaluations
that differ in their limits go the same way until the lower limit refuses, and an evaluation that is
not refused there is the same under every higher limit, in its result and in the context that it
leaves (`call_limit_transparent`).
-/

namespace Reckoner

variable {α β : Type}

/-- The result is the refusal of a call that would have been one too many. -/
def Failure.RefusesCall (result : Except Failure α) : Prop :=
  ∃ limit pos, result = .error (.fault (.recursionLimit limit) pos)

theorem Failure.RefusesCall.of_error {failure : Failure}
    (h : RefusesCall (.error failure : Except Failure α)) :
    RefusesCall (.error failure : Except Failure β) := by
  obtain ⟨limit, pos, heq⟩ := h
  exact ⟨limit, pos, congrArg _ (Except.error.inj heq)⟩

/-! ## Computations under two limits -/

namespace Evaluator

/-- From every machine the second computation does what the first one does, unless that one is
refused a call. -/
def Continues (run wider : Evaluator α) : Prop :=
  ∀ machine : Machine, ¬ Failure.RefusesCall (run machine).1 → wider machine = run machine

theorem Continues.refl (run : Evaluator α) : run.Continues run := by
  intro machine _
  exact rfl

theorem Continues.bind {run wider : Evaluator α} {next widerNext : α → Evaluator β}
    (h : run.Continues wider) (hnext : ∀ value, (next value).Continues (widerNext value)) :
    (run >>= next).Continues (wider >>= widerNext) := by
  intro machine hcall
  rw [bind_apply] at hcall
  rw [bind_apply, bind_apply]
  have hrun := h machine
  cases heq : run machine with
  | mk result after =>
    simp only [heq] at hcall hrun
    cases result with
    | error failure =>
      -- A refusal would have gone through to the end.
      rw [hrun fun hrefused => hcall hrefused.of_error]
    | ok value =>
      have hfound : ¬ Failure.RefusesCall (.ok value : Except Failure α) := by
        rintro ⟨limit, pos, hrefused⟩
        cases hrefused
      rw [hrun hfound]
      exact hnext value after hcall

theorem Continues.inFrame {run wider : Evaluator Decimal} (h : run.Continues wider)
    (frame : Frame) : (inFrame frame run).Continues (inFrame frame wider) := by
  intro machine hcall
  have hbody : ¬ Failure.RefusesCall (run { machine with frames := frame :: machine.frames }).1 :=
    hcall
  simp only [Evaluator.inFrame, h _ hbody]

end Evaluator

/-- The scope under another call limit. -/
def Scope.withLimit (scope : Scope) (limit : Int) : Scope := { scope with callLimit := limit }

/-- Every way to run bodies has a counterpart that does the same below the limit. -/
def Scope.BodiesContinue (body wider : Option (Expr → Evaluator Decimal)) : Prop :=
  ∀ run, body = some run → ∃ widerRun, wider = some widerRun ∧ ∀ e, (run e).Continues (widerRun e)

theorem Scope.call_continues (scope : Scope) (limit : Int)
    {body wider : Option (Expr → Evaluator Decimal)} (h : BodiesContinue body wider) (name : Text)
    (args : List Decimal) (pos : Int) :
    (scope.call body name args pos).Continues
      ((scope.withLimit limit).call wider name args pos) := by
  unfold Scope.call
  have hfunction : (scope.withLimit limit).env.function? name = scope.env.function? name := rfl
  rw [hfunction]
  cases scope.env.function? name with
  | none => exact .refl _
  | some function =>
    cases function with
    | builtin b => exact .refl _
    | user params expr =>
      by_cases harity : params.length ≠ args.length
      · simp only [if_pos harity]
        exact .refl _
      · simp only [if_neg harity]
        cases hbody : body with
        | none =>
          -- The limit is reached: this is the refusal.
          intro machine hcall
          exact absurd ⟨scope.callLimit, pos, rfl⟩ hcall
        | some run =>
          obtain ⟨widerRun, hwider, hcontinues⟩ := h run hbody
          simp only [hwider]
          exact (hcontinues expr).inFrame _

namespace Expr

mutual

theorem evalWith_continues (scope : Scope) (limit : Int)
    {body wider : Option (Expr → Evaluator Decimal)} (h : Scope.BodiesContinue body wider) :
    ∀ e : Expr, (e.evalWith scope body).Continues (e.evalWith (scope.withLimit limit) wider)
  | .literal value _ => by
    rw [evalWith, evalWith]
    exact .refl _
  | .grouping inner _ => by
    rw [evalWith, evalWith]
    exact evalWith_continues scope limit h inner
  | .var name pos => by
    rw [evalWith, evalWith]
    exact .refl _
  | .binary left operator right => by
    rw [evalWith, evalWith]
    refine (evalWith_continues scope limit h left).bind fun x => ?_
    refine (evalWith_continues scope limit h right).bind fun y => ?_
    exact .refl _
  | .unary operator operand => by
    rw [evalWith, evalWith]
    refine (evalWith_continues scope limit h operand).bind fun x => ?_
    exact .refl _
  | .call name args pos => by
    rw [evalWith, evalWith]
    refine (evalAll_continues scope limit h args).bind fun values => ?_
    exact scope.call_continues limit h name values pos
  | .foreign node => by
    rw [evalWith, evalWith]
    exact .refl _

theorem evalAll_continues (scope : Scope) (limit : Int)
    {body wider : Option (Expr → Evaluator Decimal)} (h : Scope.BodiesContinue body wider) :
    ∀ args : List Expr,
      (evalAll scope body args).Continues (evalAll (scope.withLimit limit) wider args)
  | [] => by
    rw [evalAll, evalAll]
    exact .refl _
  | e :: rest => by
    rw [evalAll, evalAll]
    refine (evalWith_continues scope limit h e).bind fun value => ?_
    refine (evalAll_continues scope limit h rest).bind fun values => ?_
    exact .refl _

end

/-- With more calls left, evaluation goes the same way. -/
theorem evalWithin_continues (scope : Scope) (limit : Int) {calls more : Nat} (h : calls ≤ more)
    (e : Expr) :
    (e.evalWithin scope calls).Continues (e.evalWithin (scope.withLimit limit) more) := by
  -- The induction follows the nesting of calls: a body has one call less on either side.
  induction calls generalizing more e with
  | zero =>
    have hbodies (wider : Option (Expr → Evaluator Decimal)) : Scope.BodiesContinue none wider := by
      intro run hrun
      cases hrun
    cases more with
    | zero => exact evalWith_continues scope limit (hbodies _) e
    | succ more => exact evalWith_continues scope limit (hbodies _) e
  | succ calls ih =>
    cases more with
    | zero => exact absurd h (Nat.not_succ_le_zero calls)
    | succ more =>
      refine evalWith_continues scope limit ?_ e
      intro run hrun
      cases hrun
      exact ⟨_, rfl, fun body => ih (Nat.le_of_succ_le_succ h) body⟩

theorem eval_continues (scope : Scope) {limit : Int} (h : scope.callLimit ≤ limit) (e : Expr) :
    (e.eval scope).Continues (e.eval (scope.withLimit limit)) := by
  intro machine hcall
  have hleft : machine.callsLeft scope.callLimit ≤ machine.callsLeft limit := by
    unfold Machine.callsLeft
    omega
  exact evalWithin_continues scope limit hleft e machine hcall

end Expr

namespace Stmt

variable {scope : Scope} {ctx : Context} {limit : Int}

theorem evalTop_withLimit {e : Expr} (h : scope.callLimit ≤ limit)
    (hcall : ¬ Failure.RefusesCall (evalTop scope ctx e).1) :
    evalTop (scope.withLimit limit) ctx e = evalTop scope ctx e := by
  unfold evalTop
  rw [Expr.eval_continues scope h e ⟨ctx, []⟩ hcall]

theorem outcome_withLimit {stmt : Stmt} (h : scope.callLimit ≤ limit)
    (hcall : ¬ Failure.RefusesCall (stmt.outcome scope ctx).1) :
    stmt.outcome (scope.withLimit limit) ctx = stmt.outcome scope ctx := by
  cases stmt with
  | expression expr => exact evalTop_withLimit h hcall
  | variableAssignment name value => exact evalTop_withLimit h hcall
  | functionAssignment name params body => rfl
  | foreign node => rfl

end Stmt

/-- **The call limit does not show below the limit.** For every statement, every environment, last
result and context, and with assignments kept or not: if evaluation under one call limit is not
refused for the number of calls, then under every higher limit it comes to the very same, a value
and the environment after it or a failure with its code, message and position, and it leaves the
same arithmetic context. -/
theorem call_limit_transparent (stmt : Stmt) (env : Environment) (last : Decimal) (persist : Bool)
    (ctx : Context) {lower higher : Int} (h : lower ≤ higher)
    (hcall : ∀ fault pos, (stmt.evaluate ⟨env, last, lower⟩ persist ctx).1 =
      .error (.fault fault pos) → fault.code ≠ ("RECURSION_LIMIT" : Text)) :
    stmt.evaluate ⟨env, last, higher⟩ persist ctx =
      stmt.evaluate ⟨env, last, lower⟩ persist ctx := by
  have hadmitted : ¬ Failure.RefusesCall (stmt.outcome ⟨env, last, lower⟩ ctx).1 := by
    rintro ⟨limit, pos, hrefused⟩
    refine hcall (.recursionLimit limit) pos ?_ rfl
    rw [Stmt.evaluate_eq, hrefused]
    rfl
  have houtcome : stmt.outcome ⟨env, last, higher⟩ ctx = stmt.outcome ⟨env, last, lower⟩ ctx :=
    Stmt.outcome_withLimit h hadmitted
  rw [Stmt.evaluate_eq, Stmt.evaluate_eq, houtcome]

/-- `f` calls `g`, and would call itself if `z` were declared. One call is not enough to find that
out, and from two on the answer stays the same. -/
theorem call_limit_transparent_recursive :
    let env := (Environment.withBuiltins.setFunction "g" (.user ["x"] (.var "x" 5))).setFunction "f"
      (.user ["x"] (.binary (.call "g" [.var "x" 7] 5) ⟨.plus, 9, 10⟩ (.call "f" [.var "z" 12] 10)))
    let stmt : Stmt := .expression (.call "f" [.literal .one 2] 0)
    (stmt.evaluate ⟨env, .zero, 1⟩ true .standard).1 = .error (.fault (.recursionLimit 1) 5) ∧
    (stmt.evaluate ⟨env, .zero, 2⟩ true .standard).1 =
      .error (.fault (.undeclaredVariable "z") 12) ∧
    stmt.evaluate ⟨env, .zero, 256⟩ true .standard =
      stmt.evaluate ⟨env, .zero, 2⟩ true .standard := by
  intro env stmt
  have hlower : (stmt.evaluate ⟨env, .zero, 2⟩ true .standard).1 =
      .error (.fault (.undeclaredVariable "z") 12) := rfl
  refine ⟨rfl, hlower, call_limit_transparent stmt env .zero true .standard (by decide) ?_⟩
  intro fault pos hfailed
  cases hlower.symm.trans hfailed
  decide

end Reckoner
