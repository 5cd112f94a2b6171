import Reckoner.Evaluation

/-!
# The arithmetic context

One thing changes the context: a sine that is refused. The refusal ends the evaluation, nested calls
included, and shows as the failure of the whole. So an evaluation either leaves the context as it
was, or fails with that fault (`Stmt.evalTop_leaves`). A refused sine leaves a context that has more
digits than there are of pi and is cut toward zero (`Context.Spoiled`), so one context follows upon
the other only with more digits (`Context.Leaves.precision_lt_of_ne`).
-/

namespace Reckoner

variable {α β : Type}

/-- The context that was set up to reduce the argument of a sine stays behind. -/
def Context.Refused (before after : Context) : Prop :=
  ∃ m : Magnitude, m.isZero = false ∧ Context.sineLimit < before.sinePrecision m ∧
    after = ⟨before.sinePrecision m, .towardZero⟩

/-- The context after a sine has been refused, for good. -/
structure Context.Spoiled (ctx : Context) : Prop where
  precision : Context.sineLimit < ctx.precision
  rounding : ctx.rounding = .towardZero

namespace Context.Refused

variable {before after : Context}

theorem spoiled (h : before.Refused after) : after.Spoiled := by
  obtain ⟨m, -, limit, rfl⟩ := h
  exact ⟨limit, rfl⟩

theorem precision_le (h : before.Refused after) : before.precision ≤ after.precision := by
  obtain ⟨m, -, -, rfl⟩ := h
  simp only [sinePrecision]
  omega

theorem precision_lt_of_standard (h : before.Refused after) (hbefore : before = .standard) :
    before.precision < after.precision := by
  subst hbefore
  have below : standard.precision < sineLimit := by decide
  exact Nat.lt_trans below h.spoiled.precision

end Context.Refused

/-- The context after a computation, by what came of it. -/
inductive Context.Leaves (before : Context) : Except Failure α → Context → Prop where
  | same {result : Except Failure α} (h : ∀ pos, result ≠ .error (.fault .sineLimit pos)) :
      Leaves before result before
  | refused {after : Context} (pos : Int) (h : before.Refused after) :
      Leaves before (.error (.fault .sineLimit pos)) after

namespace Context.Leaves

variable {before after : Context} {result : Except Failure α}

theorem ok (ctx : Context) (value : α) : ctx.Leaves (.ok value) ctx :=
  .same fun _ => nofun

theorem eq_of_ne (h : before.Leaves result after)
    (hne : ∀ pos, result ≠ .error (.fault .sineLimit pos)) : after = before := by
  cases h with
  | same => rfl
  | refused pos => exact absurd rfl (hne pos)

theorem refused_of_eq {pos : Int} (h : before.Leaves result after)
    (heq : result = .error (.fault .sineLimit pos)) : before.Refused after := by
  cases h with
  | same hne => exact absurd heq (hne pos)
  | refused _ hr => exact hr

theorem standard_or_spoiled (h : before.Leaves result after)
    (hbefore : before = .standard ∨ before.Spoiled) : after = .standard ∨ after.Spoiled := by
  cases h with
  | same => exact hbefore
  | refused _ hr => exact .inr hr.spoiled

/-- Between spoiled contexts there is no difference but in the digits. -/
theorem precision_lt_of_ne (h : before.Leaves result after)
    (hbefore : before = .standard ∨ before.Spoiled) (hne : after ≠ before) :
    before.precision < after.precision := by
  cases h with
  | same => exact absurd rfl hne
  | refused _ hr =>
    rcases hbefore with standard | spoiled
    · exact hr.precision_lt_of_standard standard
    · refine Nat.lt_of_le_of_ne hr.precision_le fun same => hne ?_
      have rounding := hr.spoiled.rounding.trans spoiled.rounding.symm
      cases before
      cases after
      simp only at same rounding
      simp only [same, rounding]

theorem error_of_error {failure : Failure}
    (h : before.Leaves (.error failure : Except Failure α) after) :
    before.Leaves (.error failure : Except Failure β) after := by
  cases h with
  | same hne => exact .same fun pos heq => hne pos (by rw [Except.error.inj heq])
  | refused pos hr => exact .refused pos hr

/-- What follows a computation without the context does not change it. -/
theorem andThen {next : α → Except Failure β} (h : before.Leaves result after)
    (hnext : ∀ value pos, next value ≠ .error (.fault .sineLimit pos)) :
    before.Leaves (result.bind next) after := by
  cases result with
  | error failure => exact h.error_of_error
  | ok value =>
    rw [h.eq_of_ne fun _ => nofun]
    exact .same (hnext value)

end Context.Leaves

/-! ## Evaluation -/

namespace Evaluator

/-- Whatever the machine, the computation changes the context by a refused sine or not at all. -/
def Disciplined (run : Evaluator α) : Prop :=
  ∀ machine : Machine, machine.context.Leaves (run machine).1 (run machine).2.context

theorem bind_apply (run : Evaluator α) (next : α → Evaluator β) (machine : Machine) :
    (run >>= next) machine = match run machine with
      | (.ok value, after) => next value after
      | (.error failure, after) => (.error failure, after) := by
  simp only [bind, ExceptT.bind, ExceptT.mk, ExceptT.bindCont, StateT.bind]
  obtain ⟨result, after⟩ := run machine
  cases result with
  | error failure => rfl
  | ok value => rfl

theorem bind_of_ok {run : Evaluator α} {next : α → Evaluator β} {machine after : Machine}
    {value : α} (h : run machine = (.ok value, after)) :
    (run >>= next) machine = next value after := by
  rw [bind_apply, h]

theorem bind_of_error {run : Evaluator α} {next : α → Evaluator β} {machine after : Machine}
    {failure : Failure} (h : run machine = (.error failure, after)) :
    (run >>= next) machine = (.error failure, after) := by
  rw [bind_apply, h]

theorem Disciplined.pure (value : α) : Disciplined (Pure.pure value : Evaluator α) :=
  fun machine => .ok machine.context value

theorem Disciplined.throw {failure : Failure} (h : ∀ pos, failure ≠ .fault .sineLimit pos) :
    Disciplined (throw failure : Evaluator α) :=
  fun _ => .same fun pos heq => h pos (Except.error.inj heq)

theorem Disciplined.bind {run : Evaluator α} {next : α → Evaluator β} (h : run.Disciplined)
    (hnext : ∀ value, (next value).Disciplined) : (run >>= next).Disciplined := by
  intro machine
  have hrun := h machine
  rw [bind_apply]
  cases heq : run machine with
  | mk result after =>
    rw [heq] at hrun
    cases result with
    | error failure => exact hrun.error_of_error
    | ok value =>
      have hsame : after.context = machine.context := hrun.eq_of_ne fun _ => nofun
      rw [← hsame]
      exact hnext value after

theorem Disciplined.arithmetic (f : Context → Decimal) : (arithmetic f).Disciplined :=
  fun machine => .ok machine.context _

theorem Disciplined.applying {f : Context → Except Failure Decimal × Context}
    (h : ∀ ctx : Context, ctx.Leaves (f ctx).1 (f ctx).2) : (applying f).Disciplined :=
  fun machine => h machine.context

theorem Disciplined.inFrame (frame : Frame) {body : Evaluator Decimal} (h : body.Disciplined) :
    (inFrame frame body).Disciplined :=
  fun machine => h { machine with frames := frame :: machine.frames }

end Evaluator

theorem Context.sin_refused {ctx after : Context} {x : Decimal} (h : ctx.sin x = .error after) :
    ctx.Refused after := by
  cases x with
  | nan => cases h
  | infinite => cases h
  | finite negative m =>
    simp only [Context.sin] at h
    split at h
    · cases h
    · rename_i hzero
      split at h
      · rename_i hlimit
        cases h
        exact ⟨m, by simpa using hzero, hlimit, rfl⟩
      · cases h

theorem Builtin.apply_leaves (b : Builtin) (args : List Decimal) (pos : Int) (ctx : Context) :
    ctx.Leaves (b.apply args pos ctx).1 (b.apply args pos ctx).2 := by
  have hempty : ctx.Leaves (.error (.fault (.emptyArguments b.name) pos) : Except Failure Decimal)
      ctx := .same fun _ => nofun
  cases b with
  | sum => exact .ok ctx _
  | sin =>
    cases args with
    | nil => exact hempty
    | cons first rest =>
      cases h : ctx.sin first with
      | ok value => simpa only [Builtin.apply, h] using Context.Leaves.ok ctx value
      | error after =>
        simpa only [Builtin.apply, h] using Context.Leaves.refused pos (Context.sin_refused h)
  | _ =>
    cases args with
    | nil => exact hempty
    | cons first rest => exact .ok ctx _

theorem Scope.lookup_disciplined (scope : Scope) (name : Text) (pos : Int) :
    (scope.lookup name pos).Disciplined := by
  intro machine
  unfold Scope.lookup
  split
  · exact .ok _ _
  · split
    · exact .ok _ _
    · exact .same fun _ => nofun

theorem Scope.call_disciplined (scope : Scope) {body : Option (Expr → Evaluator Decimal)}
    (h : ∀ run ∈ body, ∀ e, (run e).Disciplined) (name : Text) (args : List Decimal) (pos : Int) :
    (scope.call body name args pos).Disciplined := by
  unfold Scope.call
  split
  · exact .throw nofun
  · exact .applying (Builtin.apply_leaves _ args pos)
  · split
    · exact .throw nofun
    · split
      · exact .throw nofun
      · exact .inFrame _ (h _ rfl _)

theorem Token.Kind.applyBinary_disciplined (kind : Token.Kind) (x y : Decimal) :
    (kind.applyBinary x y).Disciplined := by
  unfold Token.Kind.applyBinary
  split
  · exact .arithmetic _
  · exact .arithmetic _
  · exact .arithmetic _
  · exact .arithmetic _
  · refine .applying fun ctx => ?_
    cases ctx.pow x y with
    | none => exact .same fun _ => nofun
    | some value => exact .ok ctx value
  · exact .throw nofun

theorem Token.Kind.applyUnary_disciplined (kind : Token.Kind) (x : Decimal) :
    (kind.applyUnary x).Disciplined := by
  unfold Token.Kind.applyUnary
  split
  · exact .pure _
  · exact .pure _
  · exact .throw nofun

namespace Expr

mutual

theorem evalWith_disciplined (scope : Scope) {body : Option (Expr → Evaluator Decimal)}
    (h : ∀ run ∈ body, ∀ e, (run e).Disciplined) : ∀ e : Expr, (e.evalWith scope body).Disciplined
  | .literal value _ => by rw [evalWith]; exact .pure value
  | .grouping inner _ => by rw [evalWith]; exact evalWith_disciplined scope h inner
  | .var name pos => by rw [evalWith]; exact scope.lookup_disciplined name pos
  | .binary left operator right => by
    rw [evalWith]
    exact (evalWith_disciplined scope h left).bind fun x =>
      (evalWith_disciplined scope h right).bind fun y => operator.kind.applyBinary_disciplined x y
  | .unary operator operand => by
    rw [evalWith]
    exact (evalWith_disciplined scope h operand).bind
      fun x => operator.kind.applyUnary_disciplined x
  | .call name args pos => by
    rw [evalWith]
    exact (evalAll_disciplined scope h args).bind
      fun values => scope.call_disciplined h name values pos
  | .foreign node => by rw [evalWith]; exact .throw nofun

theorem evalAll_disciplined (scope : Scope) {body : Option (Expr → Evaluator Decimal)}
    (h : ∀ run ∈ body, ∀ e, (run e).Disciplined) :
    ∀ args : List Expr, (evalAll scope body args).Disciplined
  | [] => by rw [evalAll]; exact .pure []
  | e :: rest => by
    rw [evalAll]
    exact (evalWith_disciplined scope h e).bind fun value =>
      (evalAll_disciplined scope h rest).bind fun values => .pure (value :: values)

end

theorem evalWithin_disciplined (scope : Scope) (calls : Nat) (e : Expr) :
    (e.evalWithin scope calls).Disciplined := by
  -- The bodies of called functions are the evaluations with one call less.
  induction calls generalizing e with
  | zero => exact evalWith_disciplined scope (by simp) e
  | succ calls ih =>
    refine evalWith_disciplined scope (fun run hrun => ?_) e
    cases hrun
    exact ih

end Expr

theorem Stmt.evalTop_leaves (scope : Scope) (ctx : Context) (e : Expr) :
    ctx.Leaves (Stmt.evalTop scope ctx e).1 (Stmt.evalTop scope ctx e).2 :=
  Expr.evalWithin_disciplined scope _ e ⟨ctx, []⟩

end Reckoner
