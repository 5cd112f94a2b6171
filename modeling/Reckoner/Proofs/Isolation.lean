import Reckoner.Proofs.Sessions.Context

/-!
# Calls see their own frame only

The evaluator keeps the frames of all running calls on one stack. Here is an evaluator without a
stack (`Expr.valueIn`): it is given what the innermost frame binds and how many calls are running.
The two agree on every expression and every stack (`eval_isolated`), so nothing below the innermost
frame is ever read, and the stack is as before whether a value was found or not.
-/

namespace Reckoner

/-! ## Evaluation without a stack -/

/-- What the names in the frame of a call stand for. -/
abbrev Bindings := Text → Option Decimal

namespace Bindings

def empty : Bindings := fun _ => none

def bind (bound : Bindings) (param : Text) (arg : Decimal) : Bindings :=
  fun name => if name = param then some arg else bound name

/-- Nothing is bound but the parameters. They take their arguments one after the other, so the last
of repeated ones counts. -/
def ofCall (params : List Text) (args : List Decimal) : Bindings :=
  (params.zip args).foldl (fun bound entry => bound.bind entry.1 entry.2) empty

end Bindings

namespace Token.Kind

def binaryValue (ctx : Context) (x y : Decimal) : Token.Kind → Except Failure Decimal
  | plus => .ok (ctx.add x y)
  | minus => .ok (ctx.sub x y)
  | star => .ok (ctx.mul x y)
  | slash => .ok (ctx.div x y)
  | caret =>
    match ctx.pow x y with
    | some value => .ok value
    | none => .error (.defect .logarithmLimit)
  | kind => .error (.defect (.unexpectedBinary kind))

def unaryValue (x : Decimal) : Token.Kind → Except Failure Decimal
  | plus => .ok x
  | minus => .ok x.neg
  | kind => .error (.defect (.unexpectedUnary kind))

end Token.Kind

namespace Expr

mutual

/-- The value of an expression in a frame, with `depth` calls running. -/
def valueIn (scope : Scope) (ctx : Context) (bound : Bindings) (depth : Nat) :
    Expr → Except Failure Decimal
  | literal value _ => .ok value
  | grouping inner _ => valueIn scope ctx bound depth inner
  | var name pos =>
    if name = Scope.lastName then .ok scope.last
    else
      match bound name with
      | some value => .ok value
      | none =>
        match scope.env.value? name with
        | some value => .ok value
        | none => .error (.fault (.undeclaredVariable name) pos)
  | binary left operator right => do
    let x ← valueIn scope ctx bound depth left
    let y ← valueIn scope ctx bound depth right
    operator.kind.binaryValue ctx x y
  | unary operator operand => do
    let x ← valueIn scope ctx bound depth operand
    operator.kind.unaryValue x
  | call name args pos => do
    let values ← valuesIn scope ctx bound depth args
    match scope.env.function? name with
    | none => .error (.fault (.unknownFunction name) pos)
    | some (.builtin b) => (b.apply values pos ctx).1
    | some (.user params body) =>
      if params.length ≠ values.length then .error (.fault (.wrongArity name params.length) pos)
      else if scope.callLimit ≤ depth then .error (.fault (.recursionLimit scope.callLimit) pos)
      else valueIn scope ctx (.ofCall params values) (depth + 1) body
  | foreign node => .error (.defect (.unhandledNode node))
termination_by e => ((scope.callLimit - depth).toNat, sizeOf e)

/-- The values of arguments, from left to right. -/
def valuesIn (scope : Scope) (ctx : Context) (bound : Bindings) (depth : Nat) :
    List Expr → Except Failure (List Decimal)
  | [] => .ok []
  | e :: rest => do
    let value ← valueIn scope ctx bound depth e
    let values ← valuesIn scope ctx bound depth rest
    return value :: values
termination_by args => ((scope.callLimit - depth).toNat, sizeOf args)

end

end Expr

/-! ## Frames -/

theorem Bindings.foldl_bind (entries : List (Text × Decimal)) (bound : Bindings) (name : Text) :
    entries.foldl (fun bound entry => bound.bind entry.1 entry.2) bound name =
      (entries.reverse.lookup name).or (bound name) := by
  induction entries generalizing bound with
  | nil => rfl
  | cons entry rest ih =>
    rw [List.foldl_cons, ih, List.reverse_cons, List.lookup_append, Option.or_assoc]
    congr 1
    by_cases h : name = entry.1
    · rw [Bindings.bind, if_pos h, List.lookup_cons, beq_iff_eq.mpr h]
      rfl
    · rw [Bindings.bind, if_neg h, List.lookup_cons, beq_false_of_ne h]
      rfl

/-- The frame of a call binds its parameters and nothing else. -/
theorem Frame.lookup_bind (params : List Text) (args : List Decimal) (name : Text) :
    (Frame.bind params args).lookup name = Bindings.ofCall params args name := by
  rw [Bindings.ofCall, Bindings.foldl_bind, Bindings.empty, Option.or_none]
  rfl

/-- What the innermost frame binds, nothing outside of calls. -/
def Machine.innermost (machine : Machine) : Bindings :=
  fun name => machine.frames.head?.bind (List.lookup name)

/-- The machine with one more call running. -/
def Machine.push (machine : Machine) (frame : Frame) : Machine :=
  { machine with frames := frame :: machine.frames }

theorem Machine.innermost_push (machine : Machine) (params : List Text) (args : List Decimal) :
    (machine.push (.bind params args)).innermost = .ofCall params args := by
  funext name
  exact Frame.lookup_bind params args name

/-! ## The two evaluators -/

namespace Evaluator

variable {α β : Type} {run : Evaluator α} {machine : Machine} {result : Except Failure α}

/-- From this machine the computation comes to this result, and the stack is as before. -/
structure Settles (run : Evaluator α) (machine : Machine) (result : Except Failure α) : Prop where
  result : (run machine).1 = result
  frames : (run machine).2.frames = machine.frames

theorem Settles.pure (value : α) : (Pure.pure value : Evaluator α).Settles machine (.ok value) :=
  ⟨rfl, rfl⟩

theorem Settles.throw (failure : Failure) :
    (throw failure : Evaluator α).Settles machine (.error failure) :=
  ⟨rfl, rfl⟩

/-- A computation that found a value has left the machine as it was. -/
theorem Settles.eq_of_ok {value : α} (h : run.Settles machine (.ok value))
    (hrun : run.Disciplined) : run machine = (.ok value, machine) := by
  obtain ⟨hresult, hframes⟩ := h
  have hleaves := hrun machine
  rw [hresult] at hleaves
  have hcontext : (run machine).2.context = machine.context := hleaves.eq_of_ne fun _ => nofun
  have hafter : (run machine).2 = machine := congr (congrArg Machine.mk hcontext) hframes
  exact Prod.ext hresult hafter

/-- So the next one starts from the same machine. -/
theorem Settles.bind {next : α → Evaluator β} {f : α → Except Failure β}
    (h : run.Settles machine result) (hrun : run.Disciplined)
    (hnext : ∀ value, (next value).Settles machine (f value)) :
    (run >>= next).Settles machine (result.bind f) := by
  cases result with
  | error failure =>
    have hbind : (run >>= next) machine = (.error failure, (run machine).2) :=
      bind_of_error (Prod.ext h.result rfl)
    constructor
    · rw [hbind]
      rfl
    · rw [hbind]
      exact h.frames
  | ok value =>
    have hbind : (run >>= next) machine = next value machine := bind_of_ok (h.eq_of_ok hrun)
    constructor
    · rw [hbind]
      exact (hnext value).result
    · rw [hbind]
      exact (hnext value).frames

/-- The frame of the body is the only one that is taken off again. -/
theorem Settles.inFrame {frame : Frame} {body : Evaluator Decimal} {result : Except Failure Decimal}
    (h : body.Settles (machine.push frame) result) :
    (inFrame frame body).Settles machine result := by
  constructor
  · exact h.result
  · have hframes : (body (machine.push frame)).2.frames = frame :: machine.frames := h.frames
    exact congrArg List.tail hframes

end Evaluator

namespace Token.Kind

theorem applyBinary_settles {machine : Machine} (kind : Token.Kind) (x y : Decimal) :
    (kind.applyBinary x y).Settles machine (kind.binaryValue machine.context x y) := by
  cases kind with
  | caret =>
    constructor
    · simp only [applyBinary, Evaluator.applying, binaryValue]
      cases machine.context.pow x y <;> rfl
    · rfl
  | _ => exact ⟨rfl, rfl⟩

theorem applyUnary_settles {machine : Machine} (kind : Token.Kind) (x : Decimal) :
    (kind.applyUnary x).Settles machine (kind.unaryValue x) := by
  cases kind <;> exact ⟨rfl, rfl⟩

end Token.Kind

namespace Scope

variable {machine : Machine}

theorem lookup_settles (scope : Scope) (name : Text) (pos : Int) :
    (scope.lookup name pos).Settles machine
      ((Expr.var name pos).valueIn scope machine.context machine.innermost
        machine.frames.length) := by
  rw [Expr.valueIn]
  by_cases hlast : name = lastName
  · rw [if_pos hlast]
    constructor <;> simp only [lookup, if_pos hlast]
  · rw [if_neg hlast]
    have hlookup : scope.lookup name pos machine =
        match (machine.innermost name).or (scope.env.value? name) with
        | some value => (.ok value, machine)
        | none => (.error (.fault (.undeclaredVariable name) pos), machine) := by
      rw [lookup, if_neg hlast]
      rfl
    cases hbound : machine.innermost name with
    | some value =>
      rw [hbound] at hlookup
      exact ⟨by rw [hlookup]; rfl, by rw [hlookup]; rfl⟩
    | none =>
      rw [hbound, Option.none_or] at hlookup
      cases hvalue : scope.env.value? name with
      | some value =>
        rw [hvalue] at hlookup
        exact ⟨by rw [hlookup], by rw [hlookup]⟩
      | none =>
        rw [hvalue] at hlookup
        exact ⟨by rw [hlookup], by rw [hlookup]⟩

/-- The way to run bodies is the evaluation with one more call running, and there is none if as many
are running as may be. -/
structure RunsBodies (scope : Scope) (body : Option (Expr → Evaluator Decimal))
    (machine : Machine) : Prop where
  refused : body = none → scope.callLimit ≤ machine.frames.length
  admitted : ∀ run ∈ body, machine.frames.length < scope.callLimit
  disciplined : ∀ run ∈ body, ∀ e, (run e).Disciplined
  settles : ∀ run ∈ body, ∀ e frame, (run e).Settles (machine.push frame)
    (e.valueIn scope machine.context (machine.push frame).innermost (machine.frames.length + 1))

theorem call_settles {scope : Scope} {body : Option (Expr → Evaluator Decimal)}
    (h : scope.RunsBodies body machine) (name : Text) (values : List Decimal) (pos : Int) :
    (scope.call body name values pos).Settles machine
      (match scope.env.function? name with
      | none => .error (.fault (.unknownFunction name) pos)
      | some (.builtin b) => (b.apply values pos machine.context).1
      | some (.user params expr) =>
        if params.length ≠ values.length then .error (.fault (.wrongArity name params.length) pos)
        else if scope.callLimit ≤ machine.frames.length then
          .error (.fault (.recursionLimit scope.callLimit) pos)
        else expr.valueIn scope machine.context (.ofCall params values)
          (machine.frames.length + 1)) := by
  unfold call
  cases scope.env.function? name with
  | none => exact .throw _
  | some function =>
    cases function with
    | builtin b => exact ⟨rfl, rfl⟩
    | user params expr =>
      by_cases harity : params.length ≠ values.length
      · simp only [if_pos harity]
        exact .throw _
      · simp only [if_neg harity]
        cases hbody : body with
        | none =>
          rw [if_pos (h.refused hbody)]
          exact .throw _
        | some run =>
          have hlimit := h.admitted run hbody
          rw [if_neg (by omega), ← machine.innermost_push]
          exact .inFrame (h.settles run hbody expr _)

end Scope

namespace Expr

mutual

theorem evalWith_settles {scope : Scope} {body : Option (Expr → Evaluator Decimal)}
    {machine : Machine} (h : scope.RunsBodies body machine) :
    ∀ e : Expr, (e.evalWith scope body).Settles machine
      (e.valueIn scope machine.context machine.innermost machine.frames.length)
  | .literal value _ => by
    rw [evalWith, valueIn]
    exact .pure value
  | .grouping inner _ => by
    rw [evalWith, valueIn]
    exact evalWith_settles h inner
  | .var name pos => by
    rw [evalWith]
    exact scope.lookup_settles name pos
  | .binary left operator right => by
    rw [evalWith, valueIn]
    refine (evalWith_settles h left).bind (evalWith_disciplined scope h.disciplined left)
      fun x => ?_
    refine (evalWith_settles h right).bind (evalWith_disciplined scope h.disciplined right)
      fun y => ?_
    exact operator.kind.applyBinary_settles x y
  | .unary operator operand => by
    rw [evalWith, valueIn]
    refine (evalWith_settles h operand).bind (evalWith_disciplined scope h.disciplined operand)
      fun x => ?_
    exact operator.kind.applyUnary_settles x
  | .call name args pos => by
    rw [evalWith, valueIn]
    refine (evalAll_settles h args).bind (evalAll_disciplined scope h.disciplined args)
      fun values => ?_
    exact Scope.call_settles h name values pos
  | .foreign node => by
    rw [evalWith, valueIn]
    exact .throw _

theorem evalAll_settles {scope : Scope} {body : Option (Expr → Evaluator Decimal)}
    {machine : Machine} (h : scope.RunsBodies body machine) :
    ∀ args : List Expr, (evalAll scope body args).Settles machine
      (valuesIn scope machine.context machine.innermost machine.frames.length args)
  | [] => by
    rw [evalAll, valuesIn]
    exact .pure []
  | e :: rest => by
    rw [evalAll, valuesIn]
    refine (evalWith_settles h e).bind (evalWith_disciplined scope h.disciplined e) fun value => ?_
    refine (evalAll_settles h rest).bind (evalAll_disciplined scope h.disciplined rest)
      fun values => ?_
    exact .pure (value :: values)

end

/-- With the calls that are left, the two evaluators agree. -/
theorem evalWithin_settles (scope : Scope) (machine : Machine) {calls : Nat}
    (h : machine.callsLeft scope.callLimit = calls) (e : Expr) :
    (e.evalWithin scope calls).Settles machine
      (e.valueIn scope machine.context machine.innermost machine.frames.length) := by
  unfold Machine.callsLeft at h
  -- One more frame on the stack is one call less that is left.
  induction calls generalizing machine e with
  | zero =>
    have hbodies : scope.RunsBodies none machine :=
      ⟨fun _ => by omega, nofun, nofun, nofun⟩
    exact evalWith_settles hbodies e
  | succ calls ih =>
    have hbodies : scope.RunsBodies (some (evalWithin scope calls)) machine := by
      constructor
      · exact nofun
      · intro run _
        omega
      · intro run hrun body
        cases hrun
        exact evalWithin_disciplined scope calls body
      · intro run hrun body frame
        cases hrun
        have hpushed : (scope.callLimit - (machine.push frame).frames.length).toNat = calls := by
          simp only [Machine.push, List.length_cons]
          omega
        exact ih (machine.push frame) hpushed body
    exact evalWith_settles hbodies e

theorem eval_settles (scope : Scope) (e : Expr) (machine : Machine) :
    (e.eval scope).Settles machine
      (e.valueIn scope machine.context machine.innermost machine.frames.length) := by
  have h := evalWithin_settles scope machine rfl e
  exact ⟨h.result, h.frames⟩

end Expr

/-- **A call sees its own frame only.** On every stack of frames, evaluation comes to what the
evaluator without a stack finds from the innermost frame and the number of frames, and leaves the
stack as it was, also where it fails. So stacks of one length with the same frame on top give the
same result. -/
theorem eval_isolated (scope : Scope) (e : Expr) (machine : Machine) :
    (e.eval scope machine).1 =
        e.valueIn scope machine.context machine.innermost machine.frames.length ∧
      (e.eval scope machine).2.frames = machine.frames ∧
      ∀ other : Machine, other.context = machine.context →
        other.frames.length = machine.frames.length →
        other.frames.head? = machine.frames.head? →
        (e.eval scope other).1 = (e.eval scope machine).1 := by
  have hmachine := e.eval_settles scope machine
  refine ⟨hmachine.result, hmachine.frames, ?_⟩
  intro other hcontext hlength hhead
  have hinnermost : other.innermost = machine.innermost := by
    unfold Machine.innermost
    rw [hhead]
  rw [(e.eval_settles scope other).result, hmachine.result, hcontext, hlength, hinnermost]

/-- `y` of the caller is hidden from the body `x+y`, and so is whatever else the caller binds. -/
theorem eval_isolated_from_caller :
    let scope : Scope := ⟨.withBuiltins, .zero, 256⟩
    let body : Expr := .binary (.var "x" 0) ⟨.plus, 1, 2⟩ (.var "y" 2)
    let called : Machine := ⟨.standard, [[("x", .one)], [("y", .one)]]⟩
    let other : Machine := ⟨.standard, [[("x", .one)], [("z", .zero)]]⟩
    (body.eval scope called).1 = .error (.fault (.undeclaredVariable "y") 2) ∧
      (body.eval scope other).1 = (body.eval scope called).1 := by
  exact ⟨rfl, (eval_isolated _ _ _).2.2 _ rfl rfl rfl⟩

end Reckoner
