import Reckoner.Proofs.Isolation

/-!
# The rules of evaluation

What an expression comes to on a machine, said by rules alone (`Expr.Evaluates`): from the parts to
the whole, and through the body of a function that is called, under one more frame. Nothing in the
rules counts anything down. The evaluator has its bodies run by evaluators with fewer calls left;
seen from outside, it calls itself, and the limit is tested on the stack (`Expr.eval_binary`,
`Expr.eval_unary`, `Expr.eval_call`). So what the rules lead to is what it finds
(`Expr.Evaluates.eval_eq`).
-/

namespace Reckoner

/-- The machine without the frame of the innermost call. -/
def Machine.pop (machine : Machine) : Machine := { machine with frames := machine.frames.tail }

namespace Machine

variable {machine after : Machine} {limit : Int}

theorem callsLeft_of_frames (h : after.frames = machine.frames) :
    after.callsLeft limit = machine.callsLeft limit := by
  unfold callsLeft
  rw [h]

theorem callsLeft_push (frame : Frame) :
    (machine.push frame).callsLeft limit = machine.callsLeft limit - 1 := by
  simp only [callsLeft, push, List.length_cons]
  omega

theorem callsLeft_pos_iff : 0 < machine.callsLeft limit ↔ machine.frames.length < limit := by
  unfold callsLeft
  omega

end Machine

namespace Expr

mutual

/-- What an expression comes to on a machine, and the machine afterwards. These are the rules alone:
nothing in them counts the steps, and how often calls may be nested shows only in the test of the
stack in front of a call. -/
inductive Evaluates (scope : Scope) : Expr → Machine → Except Failure Decimal → Machine → Prop where
  | literal {value pos machine} : Evaluates scope (.literal value pos) machine (.ok value) machine
  | grouping {inner pos machine result after}
      (evaluated : Evaluates scope inner machine result after) :
      Evaluates scope (.grouping inner pos) machine result after
  | name {name pos machine result after} (found : scope.lookup name pos machine = (result, after)) :
      Evaluates scope (.var name pos) machine result after
  | leftFails {left operator right machine failure after}
      (fails : Evaluates scope left machine (.error failure) after) :
      Evaluates scope (.binary left operator right) machine (.error failure) after
  | rightFails {left operator right machine x between failure after}
      (first : Evaluates scope left machine (.ok x) between)
      (fails : Evaluates scope right between (.error failure) after) :
      Evaluates scope (.binary left operator right) machine (.error failure) after
  | binary {left operator right machine x between y behind result after}
      (first : Evaluates scope left machine (.ok x) between)
      (second : Evaluates scope right between (.ok y) behind)
      (applied : operator.kind.applyBinary x y behind = (result, after)) :
      Evaluates scope (.binary left operator right) machine result after
  | operandFails {operator operand machine failure after}
      (fails : Evaluates scope operand machine (.error failure) after) :
      Evaluates scope (.unary operator operand) machine (.error failure) after
  | unary {operator operand machine x between result after}
      (evaluated : Evaluates scope operand machine (.ok x) between)
      (applied : operator.kind.applyUnary x between = (result, after)) :
      Evaluates scope (.unary operator operand) machine result after
  | argumentFails {name args pos machine failure after}
      (fails : EvaluatesAll scope args machine (.error failure) after) :
      Evaluates scope (.call name args pos) machine (.error failure) after
  | unknown {name args pos machine values after}
      (evaluated : EvaluatesAll scope args machine (.ok values) after)
      (function : scope.env.function? name = none) :
      Evaluates scope (.call name args pos) machine
        (.error (.fault (.unknownFunction name) pos)) after
  | builtin {name args pos machine values between b result after}
      (evaluated : EvaluatesAll scope args machine (.ok values) between)
      (function : scope.env.function? name = some (.builtin b))
      (applied : Evaluator.applying (b.apply values pos) between = (result, after)) :
      Evaluates scope (.call name args pos) machine result after
  | arity {name args pos machine values after params body}
      (evaluated : EvaluatesAll scope args machine (.ok values) after)
      (function : scope.env.function? name = some (.user params body))
      (arity : params.length ≠ values.length) :
      Evaluates scope (.call name args pos) machine
        (.error (.fault (.wrongArity name params.length) pos)) after
  | refused {name args pos machine values after params body}
      (evaluated : EvaluatesAll scope args machine (.ok values) after)
      (function : scope.env.function? name = some (.user params body))
      (arity : params.length = values.length) (limit : scope.callLimit ≤ after.frames.length) :
      Evaluates scope (.call name args pos) machine
        (.error (.fault (.recursionLimit scope.callLimit) pos)) after
  | user {name args pos machine values between params body result after}
      (evaluated : EvaluatesAll scope args machine (.ok values) between)
      (function : scope.env.function? name = some (.user params body))
      (arity : params.length = values.length) (limit : between.frames.length < scope.callLimit)
      (run : Evaluates scope body (between.push (.bind params values)) result after) :
      Evaluates scope (.call name args pos) machine result after.pop
  | foreign {node machine} :
      Evaluates scope (.foreign node) machine (.error (.defect (.unhandledNode node))) machine

/-- What arguments come to, from left to right. -/
inductive EvaluatesAll (scope : Scope) :
    List Expr → Machine → Except Failure (List Decimal) → Machine → Prop where
  | nil {machine} : EvaluatesAll scope [] machine (.ok []) machine
  | firstFails {e rest machine failure after}
      (fails : Evaluates scope e machine (.error failure) after) :
      EvaluatesAll scope (e :: rest) machine (.error failure) after
  | restFails {e rest machine value between failure after}
      (first : Evaluates scope e machine (.ok value) between)
      (fails : EvaluatesAll scope rest between (.error failure) after) :
      EvaluatesAll scope (e :: rest) machine (.error failure) after
  | cons {e rest machine value between values after}
      (first : Evaluates scope e machine (.ok value) between)
      (others : EvaluatesAll scope rest between (.ok values) after) :
      EvaluatesAll scope (e :: rest) machine (.ok (value :: values)) after

end

end Expr

/-! ## The evaluator follows the rules -/

namespace Evaluator

variable {α β : Type} {run twin : Evaluator α} {next other : α → Evaluator β}
  {machine after : Machine}

theorem bind_eq_ok {value : β} (h : (run >>= next) machine = (.ok value, after)) :
    ∃ x between, run machine = (.ok x, between) ∧ next x between = (.ok value, after) := by
  cases hrun : run machine with
  | mk result between =>
    cases result with
    | error failure =>
      rw [bind_of_error hrun] at h
      cases h
    | ok x =>
      rw [bind_of_ok hrun] at h
      exact ⟨x, between, rfl, h⟩

/-- Two sequences are the same from a machine on if they are so step by step. -/
theorem bind_congr (h : run machine = twin machine)
    (hnext : ∀ value after, twin machine = (.ok value, after) →
      next value after = other value after) :
    (run >>= next) machine = (twin >>= other) machine := by
  cases heq : twin machine with
  | mk result after =>
    rw [heq] at h
    cases result with
    | error failure => rw [bind_of_error h, bind_of_error heq]
    | ok value =>
      rw [bind_of_ok h, bind_of_ok heq]
      exact hnext value after heq

end Evaluator

namespace Scope

/-- The way to run bodies while so many calls are left. -/
def bodies (scope : Scope) : Nat → Option (Expr → Evaluator Decimal)
  | 0 => none
  | calls + 1 => some (Expr.evalWithin scope calls)

/-- Calls a function on evaluated arguments, the limit being tested on the stack. -/
def enter (scope : Scope) (name : Text) (values : List Decimal) (pos : Int) : Evaluator Decimal :=
  fun machine => scope.call
    (if machine.frames.length < scope.callLimit then some (Expr.eval scope) else none)
    name values pos machine

/-- Calls agree if the two ways to run bodies do so on the body that is called, in its frame. -/
theorem call_congr {scope : Scope} {body twin : Option (Expr → Evaluator Decimal)} {name : Text}
    {values : List Decimal} {machine : Machine} (pos : Int)
    (h : ∀ params expr, scope.env.function? name = some (.user params expr) →
      params.length = values.length →
      Option.Rel (fun run run' => run expr (machine.push (.bind params values)) =
        run' expr (machine.push (.bind params values))) body twin) :
    scope.call body name values pos machine = scope.call twin name values pos machine := by
  unfold call
  cases hfunction : scope.env.function? name with
  | none => rfl
  | some function =>
    cases function with
    | builtin b => rfl
    | user params expr =>
      by_cases harity : params.length = values.length
      · simp only [if_neg (not_not_intro harity)]
        cases h params expr hfunction harity with
        | none => rfl
        | some hrun =>
          unfold Machine.push at hrun
          simp only [Evaluator.inFrame, hrun]
      · simp only [if_pos harity]

theorem call_bodies (scope : Scope) (name : Text) (values : List Decimal) (pos : Int)
    (machine : Machine) : scope.call (scope.bodies (machine.callsLeft scope.callLimit)) name values
      pos machine = scope.enter name values pos machine := by
  apply call_congr
  intro params body _ _
  simp only [← Machine.callsLeft_pos_iff]
  have hpushed : (machine.push (.bind params values)).callsLeft scope.callLimit =
      machine.callsLeft scope.callLimit - 1 := Machine.callsLeft_push _
  cases hcalls : machine.callsLeft scope.callLimit with
  | zero => exact .none
  | succ calls =>
    rw [hcalls, Nat.add_sub_cancel] at hpushed
    rw [if_pos (Nat.succ_pos calls)]
    refine .some ?_
    rw [← hpushed]
    rfl

end Scope

namespace Expr

variable {scope : Scope} {machine after : Machine}

/-! The recursion of the evaluator, without the count of the calls that are left. -/

theorem evalWith_bodies {calls : Nat} (h : machine.callsLeft scope.callLimit = calls) (e : Expr) :
    e.evalWith scope (scope.bodies calls) machine = e.eval scope machine := by
  subst h
  unfold eval
  cases machine.callsLeft scope.callLimit <;> rfl

theorem eval_eq_evalWith (e : Expr) : e.eval scope machine =
    e.evalWith scope (scope.bodies (machine.callsLeft scope.callLimit)) machine :=
  (evalWith_bodies rfl e).symm

theorem callsLeft_of_eval {e : Expr} {result : Except Failure Decimal}
    (h : e.eval scope machine = (result, after)) :
    after.callsLeft scope.callLimit = machine.callsLeft scope.callLimit := by
  have hframes := (e.eval_settles scope machine).frames
  rw [h] at hframes
  exact Machine.callsLeft_of_frames hframes

theorem evalAll_bodies {calls : Nat} (h : machine.callsLeft scope.callLimit = calls)
    (args : List Expr) :
    evalAll scope (scope.bodies calls) args machine = args.mapM (eval scope) machine := by
  induction args generalizing machine with
  | nil => rfl
  | cons e rest ih =>
    rw [evalAll, List.mapM_cons]
    refine Evaluator.bind_congr (evalWith_bodies h e) ?_
    intro value between hfirst
    refine Evaluator.bind_congr (ih ((callsLeft_of_eval hfirst).trans h)) ?_
    intro values behind _
    rfl

theorem callsLeft_of_mapM {args : List Expr} {values : List Decimal}
    (h : args.mapM (eval scope) machine = (.ok values, after)) :
    after.callsLeft scope.callLimit = machine.callsLeft scope.callLimit := by
  induction args generalizing machine values with
  | nil =>
    cases h
    rfl
  | cons e rest ih =>
    rw [List.mapM_cons] at h
    obtain ⟨value, between, hfirst, h⟩ := Evaluator.bind_eq_ok h
    obtain ⟨others, behind, hrest, h⟩ := Evaluator.bind_eq_ok h
    cases h
    exact (ih hrest).trans (callsLeft_of_eval hfirst)

theorem eval_binary (left : Expr) (operator : Token) (right : Expr) :
    (binary left operator right).eval scope = left.eval scope >>= fun x =>
      right.eval scope >>= fun y => operator.kind.applyBinary x y := by
  funext machine
  rw [eval_eq_evalWith, evalWith]
  refine Evaluator.bind_congr (evalWith_bodies rfl left) ?_
  intro x between hleft
  refine Evaluator.bind_congr (evalWith_bodies (callsLeft_of_eval hleft) right) ?_
  intro y behind _
  rfl

theorem eval_unary (operator : Token) (operand : Expr) :
    (unary operator operand).eval scope =
      operand.eval scope >>= fun x => operator.kind.applyUnary x := by
  funext machine
  rw [eval_eq_evalWith, evalWith]
  refine Evaluator.bind_congr (evalWith_bodies rfl operand) ?_
  intro x between _
  rfl

theorem eval_call (name : Text) (args : List Expr) (pos : Int) :
    (call name args pos).eval scope =
      args.mapM (eval scope) >>= fun values => scope.enter name values pos := by
  funext machine
  rw [eval_eq_evalWith, evalWith]
  refine Evaluator.bind_congr (evalAll_bodies rfl args) ?_
  intro values between hargs
  rw [← callsLeft_of_mapM hargs]
  exact scope.call_bodies name values pos between

theorem eval_grouping (inner : Expr) (pos : Int) :
    (grouping inner pos).eval scope = inner.eval scope := by
  funext machine
  rw [eval_eq_evalWith, evalWith, evalWith_bodies rfl]

theorem eval_literal (value : Decimal) (pos : Int) :
    (literal value pos).eval scope machine = (.ok value, machine) := by
  rw [eval_eq_evalWith, evalWith]
  rfl

theorem eval_var (name : Text) (pos : Int) :
    (var name pos).eval scope machine = scope.lookup name pos machine := by
  rw [eval_eq_evalWith, evalWith]

theorem eval_foreign (node : Json) : (foreign node).eval scope machine =
    (.error (.defect (.unhandledNode node)), machine) := by
  rw [eval_eq_evalWith, evalWith]
  rfl

mutual

/-- The evaluator comes to what the rules say. -/
theorem Evaluates.eval_eq {e : Expr} {machine after : Machine} {result : Except Failure Decimal} :
    Evaluates scope e machine result after → e.eval scope machine = (result, after)
  | .literal => eval_literal _ _
  | .grouping evaluated => by
    rw [eval_grouping]
    exact evaluated.eval_eq
  | .name found => by
    rw [eval_var]
    exact found
  | .leftFails fails => by
    rw [eval_binary]
    exact Evaluator.bind_of_error fails.eval_eq
  | .rightFails first fails => by
    rw [eval_binary, Evaluator.bind_of_ok first.eval_eq]
    exact Evaluator.bind_of_error fails.eval_eq
  | .binary first second applied => by
    rw [eval_binary, Evaluator.bind_of_ok first.eval_eq, Evaluator.bind_of_ok second.eval_eq]
    exact applied
  | .operandFails fails => by
    rw [eval_unary]
    exact Evaluator.bind_of_error fails.eval_eq
  | .unary evaluated applied => by
    rw [eval_unary, Evaluator.bind_of_ok evaluated.eval_eq]
    exact applied
  | .argumentFails fails => by
    rw [eval_call]
    exact Evaluator.bind_of_error fails.eval_eq
  | .unknown evaluated function => by
    rw [eval_call, Evaluator.bind_of_ok evaluated.eval_eq]
    simp only [Scope.enter, Scope.call, function]
    rfl
  | .builtin evaluated function applied => by
    rw [eval_call, Evaluator.bind_of_ok evaluated.eval_eq]
    simp only [Scope.enter, Scope.call, function]
    exact applied
  | .arity evaluated function arity => by
    rw [eval_call, Evaluator.bind_of_ok evaluated.eval_eq]
    simp only [Scope.enter, Scope.call, function, if_pos arity]
    rfl
  | .refused evaluated function arity limit => by
    rw [eval_call, Evaluator.bind_of_ok evaluated.eval_eq]
    simp only [Scope.enter, Scope.call, function, if_neg (not_not_intro arity),
      if_neg (Int.not_lt.mpr limit)]
    rfl
  | .user evaluated function arity limit run => by
    have hbody := run.eval_eq
    unfold Machine.push at hbody
    rw [eval_call, Evaluator.bind_of_ok evaluated.eval_eq]
    simp only [Scope.enter, Scope.call, function, if_neg (not_not_intro arity), if_pos limit,
      Evaluator.inFrame, hbody]
    rfl
  | .foreign => eval_foreign _

theorem EvaluatesAll.eval_eq {args : List Expr} {machine after : Machine}
    {result : Except Failure (List Decimal)} :
    EvaluatesAll scope args machine result after → args.mapM (eval scope) machine = (result, after)
  | .nil => rfl
  | .firstFails fails => by
    rw [List.mapM_cons]
    exact Evaluator.bind_of_error fails.eval_eq
  | .restFails first fails => by
    rw [List.mapM_cons, Evaluator.bind_of_ok first.eval_eq]
    exact Evaluator.bind_of_error fails.eval_eq
  | .cons first others => by
    rw [List.mapM_cons, Evaluator.bind_of_ok first.eval_eq, Evaluator.bind_of_ok others.eval_eq]
    rfl

end

theorem Evaluates.frames {e : Expr} {result : Except Failure Decimal}
    (h : Evaluates scope e machine result after) : after.frames = machine.frames := by
  have hframes := (e.eval_settles scope machine).frames
  rwa [h.eval_eq] at hframes

theorem EvaluatesAll.frames {args : List Expr} {result : Except Failure (List Decimal)}
    (h : EvaluatesAll scope args machine result after) : after.frames = machine.frames := by
  induction args generalizing machine result with
  | nil =>
    cases h
    rfl
  | cons e rest ih =>
    cases h with
    | firstFails fails => exact fails.frames
    | restFails first fails => exact (ih fails).trans first.frames
    | cons first others => exact (ih others).trans first.frames

theorem EvaluatesAll.concat {args : List Expr} {values : List Decimal} {e : Expr} {value : Decimal}
    {between : Machine} (h : EvaluatesAll scope args machine (.ok values) between)
    (hnext : Evaluates scope e between (.ok value) after) :
    EvaluatesAll scope (args ++ [e]) machine (.ok (values ++ [value])) after := by
  induction args generalizing machine values with
  | nil =>
    cases h
    exact .cons hnext .nil
  | cons first rest ih =>
    cases h with
    | cons hfirst hothers => exact .cons hfirst (ih hothers)

end Expr
end Reckoner
