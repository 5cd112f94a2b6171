import Reckoner.Proofs.Isolation
import Reckoner.Proofs.Literals

/-!
# Evaluation under watch

A watch looks at the machine whenever the body of a function is about to run, and ends the
evaluation if the machine is not as it should be. Where the names and the literals are within the
working precision, a watch on the arguments of all running calls never ends anything: evaluation
under watch is evaluation, and the value that it finds is within the precision
(`Expr.eval_bounded`). Signs, groupings, names and extremes hand on what they are given, so the
bound is carried through every frame.
-/

namespace Reckoner

/-- The arguments of the call are within a number of digits. -/
def Frame.Within (digits : Nat) (frame : Frame) : Prop := ∀ bound ∈ frame, bound.2.Within digits

instance (digits : Nat) : DecidablePred (Frame.Within digits) :=
  fun frame => inferInstanceAs (Decidable (∀ bound ∈ frame, bound.2.Within digits))

/-- The arguments of all running calls are within the working precision. -/
def Machine.Within (machine : Machine) : Prop :=
  ∀ frame ∈ machine.frames, frame.Within machine.context.precision

instance : DecidablePred Machine.Within :=
  fun machine => inferInstanceAs
    (Decidable (∀ frame ∈ machine.frames, frame.Within machine.context.precision))

/-- The literals of the body that is stored. -/
def Function.literals : Function → List Decimal
  | .builtin _ => []
  | .user _ body => body.literals

/-- A variable is within a number of digits, or the literals of a stored body are. -/
def Member.Within (digits : Nat) : Member → Prop
  | .value number => number.Within digits
  | .function f => ∀ number ∈ f.literals, number.Within digits

def Environment.Within (digits : Nat) (env : Environment) : Prop :=
  ∀ name member, env.find? name = some member → member.Within digits

structure Scope.Within (digits : Nat) (scope : Scope) : Prop where
  env : scope.env.Within digits
  last : scope.last.Within digits

namespace Environment

variable {digits : Nat} {env : Environment}

theorem Within.value (h : env.Within digits) {name : Text} {value : Decimal}
    (hvalue : env.value? name = some value) : value.Within digits := by
  unfold value? at hvalue
  split at hvalue
  · rename_i found hfound
    cases hvalue
    exact h name _ hfound
  · cases hvalue

theorem Within.function (h : env.Within digits) {name : Text} {function : Function}
    (hfunction : env.function? name = some function) :
    ∀ value ∈ function.literals, value.Within digits := by
  unfold function? at hfunction
  split at hfunction
  · rename_i found hfound
    cases hfunction
    exact h name _ hfound
  · cases hfunction

end Environment

/-! ## The watch -/

/-- Runs on a machine that is as it should be, and raises the alarm on any other. -/
def Evaluator.watched {α : Type} (good : Machine → Prop) [DecidablePred good] (alarm : Failure)
    (run : Evaluator α) : Evaluator α :=
  fun machine => if good machine then run machine else (.error alarm, machine)

namespace Expr

/-- Evaluates under watch with at most `calls` further nested calls. -/
def evalWatchedWithin (good : Machine → Prop) [DecidablePred good] (alarm : Failure)
    (scope : Scope) : Nat → Expr → Evaluator Decimal
  | 0 => evalWith scope none
  | calls + 1 => evalWith scope (some fun body =>
      (evalWatchedWithin good alarm scope calls body).watched good alarm)

/-- Evaluates an expression under watch. -/
def evalWatched (good : Machine → Prop) [DecidablePred good] (alarm : Failure) (scope : Scope)
    (e : Expr) : Evaluator Decimal :=
  fun machine => e.evalWatchedWithin good alarm scope (machine.callsLeft scope.callLimit) machine

end Expr

/-! ## Computations within bounds -/

namespace Evaluator

variable {α β : Type} {machine : Machine} {holds : α → Prop} {run twin : Evaluator α}

/-- On the machine both computations do the same, and what they find holds and leaves the machine as
it was. -/
structure Bounded (machine : Machine) (holds : α → Prop) (run twin : Evaluator α) : Prop where
  same : twin machine = run machine
  found : ∀ value, (run machine).1 = .ok value → (run machine).2 = machine ∧ holds value

theorem Bounded.pure {value : α} (h : holds value) :
    Bounded machine holds (Pure.pure value) (Pure.pure value) := by
  refine ⟨rfl, ?_⟩
  rintro _ ⟨⟩
  exact ⟨rfl, h⟩

theorem Bounded.throw (failure : Failure) :
    Bounded machine holds (throw failure) (throw failure) :=
  ⟨rfl, nofun⟩

theorem Bounded.bind {holds' : β → Prop} {next next' : α → Evaluator β}
    (h : Bounded machine holds run twin)
    (hnext : ∀ value, holds value → Bounded machine holds' (next value) (next' value)) :
    Bounded machine holds' (run >>= next) (twin >>= next') := by
  obtain ⟨hsame, hfound⟩ := h
  have hrun := bind_apply run next machine
  have htwin := bind_apply twin next' machine
  rw [hsame] at htwin
  cases heq : run machine with
  | mk result after =>
    rw [heq] at hfound hrun htwin
    cases result with
    | error failure =>
      constructor
      · exact htwin.trans hrun.symm
      · intro value hvalue
        rw [hrun] at hvalue
        cases hvalue
    | ok value =>
      obtain ⟨rfl, hvalue⟩ := hfound value rfl
      obtain ⟨hsame', hfound'⟩ := hnext value hvalue
      constructor
      · exact htwin.trans (hsame'.trans hrun.symm)
      · rw [hrun]
        exact hfound'

theorem Bounded.arithmetic {f : Context → Decimal} {holds : Decimal → Prop}
    (h : holds (f machine.context)) : Bounded machine holds (arithmetic f) (arithmetic f) := by
  refine ⟨rfl, ?_⟩
  rintro _ ⟨⟩
  exact ⟨rfl, h⟩

/-- A computation that found a value was not a refused sine, and has left the context alone. -/
theorem Bounded.applying {f : Context → Except Failure Decimal × Context} {holds : Decimal → Prop}
    (hleaves : machine.context.Leaves (f machine.context).1 (f machine.context).2)
    (h : ∀ value, (f machine.context).1 = .ok value → holds value) :
    Bounded machine holds (applying f) (applying f) := by
  refine ⟨rfl, ?_⟩
  intro value hvalue
  have hok : (f machine.context).1 = .ok value := hvalue
  have hcontext : (f machine.context).2 = machine.context := by
    apply hleaves.eq_of_ne
    intro pos heq
    rw [hok] at heq
    cases heq
  refine ⟨?_, h value hok⟩
  simp only [Evaluator.applying, hcontext]

theorem Bounded.inFrame {frame : Frame} {holds : Decimal → Prop} {body twin : Evaluator Decimal}
    (h : Bounded (machine.push frame) holds body twin) :
    Bounded machine holds (inFrame frame body) (inFrame frame twin) := by
  obtain ⟨hsame, hfound⟩ := h
  have hrun (body : Evaluator Decimal) : Evaluator.inFrame frame body machine =
      ((body (machine.push frame)).1, { (body (machine.push frame)).2 with
        frames := (body (machine.push frame)).2.frames.tail }) := rfl
  constructor
  · rw [hrun, hrun, hsame]
  · intro value hvalue
    obtain ⟨hafter, hholds⟩ := hfound value hvalue
    refine ⟨?_, hholds⟩
    rw [hrun, hafter]
    rfl

end Evaluator

open Evaluator (Bounded)

variable {machine : Machine}

/-! ## Operators, names and calls -/

theorem Token.Kind.applyBinary_bounded (hpos : 0 < machine.context.precision) (kind : Token.Kind)
    (x y : Decimal) : Bounded machine (·.Within machine.context.precision) (kind.applyBinary x y)
      (kind.applyBinary x y) := by
  unfold Token.Kind.applyBinary
  split
  · exact .arithmetic (Context.add_within hpos x y)
  · exact .arithmetic (Context.sub_within hpos x y)
  · exact .arithmetic (Context.mul_within hpos x y)
  · exact .arithmetic (Context.div_within hpos x y)
  · cases hpow : machine.context.pow x y with
    | none =>
      refine .applying ?_ ?_
      · rw [hpow]
        exact .same fun _ => nofun
      · intro value hvalue
        rw [hpow] at hvalue
        cases hvalue
    | some power =>
      refine .applying ?_ ?_
      · rw [hpow]
        exact .ok _ power
      · intro value hvalue
        rw [hpow] at hvalue
        cases hvalue
        exact Context.pow_within hpos hpow
  · exact .throw _

theorem Token.Kind.applyUnary_bounded {digits : Nat} (kind : Token.Kind) {x : Decimal}
    (h : x.Within digits) :
    Bounded machine (·.Within digits) (kind.applyUnary x) (kind.applyUnary x) := by
  unfold Token.Kind.applyUnary
  split
  · exact .pure h
  · exact .pure h.neg
  · exact .throw _

theorem Frame.Within.of_lookup {digits : Nat} {frame : Frame} (h : frame.Within digits)
    {name : Text} {value : Decimal} (hvalue : frame.lookup name = some value) :
    value.Within digits := by
  obtain ⟨front, back, rfl, -⟩ := List.lookup_eq_some_iff.mp hvalue
  exact h (name, value) (List.mem_append_right front List.mem_cons_self)

theorem Frame.within_bind {digits : Nat} {args : List Decimal}
    (h : ∀ x ∈ args, x.Within digits) (params : List Text) :
    (Frame.bind params args).Within digits := by
  intro bound hbound
  have hzip : (bound.1, bound.2) ∈ params.zip args := List.mem_reverse.mp hbound
  exact h bound.2 (List.of_mem_zip hzip).2

theorem Machine.Within.push (h : machine.Within) {frame : Frame}
    (hframe : frame.Within machine.context.precision) : (machine.push frame).Within := by
  intro other hother
  rcases List.mem_cons.mp hother with rfl | hother
  · exact hframe
  · exact h other hother

theorem Scope.lookup_bounded {scope : Scope} (hscope : scope.Within machine.context.precision)
    (hmachine : machine.Within) (name : Text) (pos : Int) :
    Bounded machine (·.Within machine.context.precision) (scope.lookup name pos)
      (scope.lookup name pos) := by
  refine ⟨rfl, ?_⟩
  intro value hvalue
  unfold Scope.lookup at hvalue ⊢
  split at hvalue
  · rename_i hlast
    cases hvalue
    exact ⟨by rw [if_pos hlast], hscope.last⟩
  · rename_i hname
    split at hvalue
    · rename_i found hfound
      cases hvalue
      refine ⟨by rw [if_neg hname], ?_⟩
      rcases Option.or_eq_some_iff.mp hfound with hbound | ⟨-, hglobal⟩
      · obtain ⟨frame, hframe, hlookup⟩ := Option.bind_eq_some_iff.mp hbound
        exact (hmachine frame (List.mem_of_mem_head? hframe)).of_lookup hlookup
      · exact hscope.env.value hglobal
    · cases hvalue

/-- All that evaluation on the machine reads is within the precision, and in calls from there both
ways to run bodies do the same. -/
structure Scope.Reads (scope : Scope) (machine : Machine)
    (body twin : Option (Expr → Evaluator Decimal)) : Prop where
  positive : 0 < machine.context.precision
  names : scope.Within machine.context.precision
  frames : machine.Within
  bodies : Option.Rel (fun run run' => ∀ (e : Expr) (frame : Frame),
    (∀ value ∈ e.literals, value.Within machine.context.precision) →
    frame.Within machine.context.precision →
    Bounded (machine.push frame) (·.Within machine.context.precision) (run e) (run' e)) body twin

section
variable {scope : Scope} {body twin : Option (Expr → Evaluator Decimal)}

theorem Scope.call_bounded (h : scope.Reads machine body twin) {args : List Decimal}
    (hargs : ∀ x ∈ args, x.Within machine.context.precision) (name : Text) (pos : Int) :
    Bounded machine (·.Within machine.context.precision) (scope.call body name args pos)
      (scope.call twin name args pos) := by
  unfold Scope.call
  cases hfunction : scope.env.function? name with
  | none => exact .throw _
  | some function =>
    cases function with
    | builtin b =>
      exact .applying (b.apply_leaves args pos machine.context)
        fun value => Builtin.apply_within h.positive hargs
    | user params expr =>
      simp only
      split
      · exact .throw _
      · cases h.bodies with
        | none => exact .throw _
        | some hrun =>
          apply Evaluator.Bounded.inFrame
          exact hrun expr _ (h.names.env.function hfunction)
            (Frame.within_bind hargs params)

namespace Expr

mutual

theorem evalWith_bounded (h : scope.Reads machine body twin) : ∀ e : Expr,
    (∀ value ∈ e.literals, value.Within machine.context.precision) →
    Bounded machine (·.Within machine.context.precision) (e.evalWith scope body)
      (e.evalWith scope twin)
  | .literal value _, he => by
    rw [evalWith, evalWith]
    rw [literals] at he
    exact .pure (he value (List.mem_singleton_self value))
  | .grouping inner _, he => by
    rw [evalWith, evalWith]
    rw [literals] at he
    exact evalWith_bounded h inner he
  | .var name pos, _ => by
    rw [evalWith, evalWith]
    exact Scope.lookup_bounded h.names h.frames name pos
  | .binary left operator right, he => by
    rw [evalWith, evalWith]
    rw [literals, List.forall_mem_append] at he
    refine (evalWith_bounded h left he.1).bind ?_
    intro x _
    refine (evalWith_bounded h right he.2).bind ?_
    intro y _
    exact operator.kind.applyBinary_bounded h.positive x y
  | .unary operator operand, he => by
    rw [evalWith, evalWith]
    rw [literals] at he
    refine (evalWith_bounded h operand he).bind ?_
    intro x hx
    exact operator.kind.applyUnary_bounded hx
  | .call name args pos, he => by
    rw [evalWith, evalWith]
    rw [literals] at he
    refine (evalAll_bounded h args he).bind ?_
    intro values hvalues
    exact Scope.call_bounded h hvalues name pos
  | .foreign node, _ => by
    rw [evalWith, evalWith]
    exact .throw _

theorem evalAll_bounded (h : scope.Reads machine body twin) : ∀ args : List Expr,
    (∀ value ∈ literalsOf args, value.Within machine.context.precision) →
    Bounded machine (fun values => ∀ x ∈ values, x.Within machine.context.precision)
      (evalAll scope body args) (evalAll scope twin args)
  | [], _ => by
    rw [evalAll, evalAll]
    exact .pure nofun
  | e :: rest, he => by
    rw [evalAll, evalAll]
    rw [literalsOf, List.forall_mem_append] at he
    refine (evalWith_bounded h e he.1).bind ?_
    intro value hvalue
    refine (evalAll_bounded h rest he.2).bind ?_
    intro values hvalues
    exact .pure (List.forall_mem_cons.mpr ⟨hvalue, hvalues⟩)

end

end Expr

end

/-! ## Whole evaluations -/

namespace Expr

variable {scope : Scope}

theorem evalWithin_bounded (alarm : Failure) (calls : Nat) {machine : Machine} {e : Expr}
    (hpos : 0 < machine.context.precision) (hscope : scope.Within machine.context.precision)
    (hmachine : machine.Within)
    (he : ∀ value ∈ e.literals, value.Within machine.context.precision) :
    Bounded machine (·.Within machine.context.precision) (e.evalWithin scope calls)
      (e.evalWatchedWithin Machine.Within alarm scope calls) := by
  -- A call pushes a frame of arguments within the precision, and so the watch lets it pass.
  induction calls generalizing machine e with
  | zero => exact evalWith_bounded ⟨hpos, hscope, hmachine, .none⟩ e he
  | succ calls ih =>
    refine evalWith_bounded ⟨hpos, hscope, hmachine, .some ?_⟩ e he
    intro body frame hbody hframe
    have hpushed : (machine.push frame).Within := hmachine.push hframe
    have hcalled : 0 < (machine.push frame).context.precision := hpos
    obtain ⟨hsame, hfound⟩ := ih hcalled hscope hpushed hbody
    exact ⟨(if_pos hpushed).trans hsame, hfound⟩

/-- **Evaluation keeps the precision.** From a machine whose calls have their arguments within the
precision, no body is ever run on another kind of machine, and a value that is found is within the
precision. -/
theorem eval_bounded (alarm : Failure) {machine : Machine} {e : Expr}
    (hpos : 0 < machine.context.precision) (hscope : scope.Within machine.context.precision)
    (hmachine : machine.Within)
    (he : ∀ value ∈ e.literals, value.Within machine.context.precision) :
    Bounded machine (·.Within machine.context.precision) (e.eval scope)
      (e.evalWatched Machine.Within alarm scope) := by
  obtain ⟨hsame, hfound⟩ := evalWithin_bounded alarm (machine.callsLeft scope.callLimit) hpos hscope
    hmachine he
  exact ⟨hsame, hfound⟩

end Expr
end Reckoner
