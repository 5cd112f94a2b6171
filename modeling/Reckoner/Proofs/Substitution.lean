import Reckoner.Proofs.Reach

/-!
# A call is a substitution

A function that is called finds its arguments in a frame. It might as well have been rewritten: with
a literal in the place of each variable that names a parameter, its body comes to the same under an
empty frame at the same height (`Expr.Evaluates.substituted`). The name of the last result is no
parameter, whatever the list of parameters says, and names of functions are never looked up in a
frame. The bodies of functions that are called from there stay as they are, since they do not see
the frame (`call_is_substitution`).
-/

namespace Reckoner

namespace Expr

mutual

/-- The expression with literals in the place of variables that are bound. The name of the last
result is not, and neither are the names of functions. -/
def substitute (bound : Bindings) : Expr → Expr
  | literal value pos => literal value pos
  | grouping inner pos => grouping (substitute bound inner) pos
  | var name pos =>
    if name = Scope.lastName then var name pos
    else (bound name).elim (var name pos) (literal · pos)
  | binary left operator right => binary (substitute bound left) operator (substitute bound right)
  | unary operator operand => unary operator (substitute bound operand)
  | call name args pos => call name (substituteAll bound args) pos
  | foreign node => foreign node

def substituteAll (bound : Bindings) : List Expr → List Expr
  | [] => []
  | e :: rest => substitute bound e :: substituteAll bound rest

end

end Expr

/-- In the place of what is bound on top of the machine, the stack has nothing. -/
structure Machine.Vacates (machine : Machine) (bound : Bindings) (stack : List Frame) : Prop where
  bound : machine.innermost = bound
  vacant : (machine.on stack).innermost = .empty
  height : stack.length = machine.frames.length

theorem Machine.Vacates.later {machine between : Machine} {bound : Bindings} {stack : List Frame}
    (h : machine.Vacates bound stack) (hframes : between.frames = machine.frames) :
    between.Vacates bound stack := by
  constructor
  · unfold Machine.innermost
    rw [hframes]
    exact h.bound
  · exact h.vacant
  · rw [hframes]
    exact h.height

/-! ## Evaluations step by step -/

namespace Expr

variable {scope : Scope} {bound : Bindings}

theorem Evaluates.of_lookup {name : Text} {pos : Int} {machine after : Machine}
    {result : Except Failure Decimal} {stack : List Frame} (hstack : machine.Vacates bound stack)
    (h : scope.lookup name pos machine = (result, after)) :
    Evaluates scope ((var name pos).substitute bound)
      (machine.on stack) result (after.on stack) := by
  rw [Scope.lookup_eq, hstack.bound] at h
  cases h
  have hvar : Evaluates scope (var name pos) (machine.on stack) (scope.read .empty name pos)
      (machine.on stack) := by
    refine .name ?_
    rw [Scope.lookup_eq, hstack.vacant]
  rw [substitute]
  by_cases hlast : name = Scope.lastName
  · simp only [Scope.read, if_pos hlast] at hvar ⊢
    exact hvar
  · simp only [Scope.read, if_neg hlast] at hvar ⊢
    cases hbound : bound name with
    | none => exact hvar
    | some value => exact .literal

mutual

/-- What the rules lead to, they lead to from the substituted expression. -/
theorem Evaluates.substituted {e : Expr} {machine after : Machine} {result : Except Failure Decimal}
    {stack : List Frame} : Evaluates scope e machine result after → machine.Vacates bound stack →
      Evaluates scope (e.substitute bound) (machine.on stack) result (after.on stack)
  | .literal, _ => by
    rw [substitute]
    exact .literal
  | .grouping evaluated, hstack => by
    rw [substitute]
    exact .grouping (evaluated.substituted hstack)
  | .name found, hstack => .of_lookup hstack found
  | .leftFails fails, hstack => by
    rw [substitute]
    exact .leftFails (fails.substituted hstack)
  | .rightFails first fails, hstack => by
    rw [substitute]
    exact .rightFails (first.substituted hstack) (fails.substituted (hstack.later first.frames))
  | .binary first second applied, hstack => by
    rw [substitute]
    exact .binary (first.substituted hstack) (second.substituted (hstack.later first.frames))
      (Token.Kind.applyBinary_on applied stack)
  | .operandFails fails, hstack => by
    rw [substitute]
    exact .operandFails (fails.substituted hstack)
  | .unary evaluated applied, hstack => by
    rw [substitute]
    exact .unary (evaluated.substituted hstack) (Token.Kind.applyUnary_on applied stack)
  | .argumentFails fails, hstack => by
    rw [substitute]
    exact .argumentFails (fails.substituted hstack)
  | .unknown evaluated function, hstack => by
    rw [substitute]
    exact .unknown (evaluated.substituted hstack) function
  | .builtin evaluated function applied, hstack => by
    rw [substitute]
    exact .builtin (evaluated.substituted hstack) function (Evaluator.applying_on applied stack)
  | .arity evaluated function arity, hstack => by
    rw [substitute]
    exact .arity (evaluated.substituted hstack) function arity
  | .refused evaluated function arity limit, hstack => by
    rw [substitute]
    rw [← (hstack.later evaluated.frames).height] at limit
    exact .refused (evaluated.substituted hstack) function arity limit
  | .user evaluated function arity limit run, hstack => by
    -- The called body is not rewritten: it sees neither the frame nor that it is gone.
    have hheight := (hstack.later evaluated.frames).height
    have hbody := run.transport scope.sameOn_univ (.push hheight _) fun name _ => Set.mem_univ name
    rw [← hheight] at limit
    rw [substitute]
    exact .user (evaluated.substituted hstack) function arity limit hbody
  | .foreign, _ => by
    rw [substitute]
    exact .foreign

theorem EvaluatesAll.substituted {args : List Expr} {machine after : Machine}
    {result : Except Failure (List Decimal)} {stack : List Frame} :
    EvaluatesAll scope args machine result after → machine.Vacates bound stack →
      EvaluatesAll scope (substituteAll bound args) (machine.on stack) result (after.on stack)
  | .nil, _ => by
    rw [substituteAll]
    exact .nil
  | .firstFails fails, hstack => by
    rw [substituteAll]
    exact .firstFails (fails.substituted hstack)
  | .restFails first fails, hstack => by
    rw [substituteAll]
    exact .restFails (first.substituted hstack) (fails.substituted (hstack.later first.frames))
  | .cons first others, hstack => by
    rw [substituteAll]
    exact .cons (first.substituted hstack) (others.substituted (hstack.later first.frames))

end

theorem eval_substitute {machine : Machine} {stack : List Frame} (e : Expr)
    (hstack : machine.Vacates bound stack) : (e.substitute bound).eval scope (machine.on stack) =
      ((e.eval scope machine).1, (e.eval scope machine).2.on stack) := by
  have hevaluates : Evaluates scope e machine (e.eval scope machine).1 (e.eval scope machine).2 :=
    evaluates_iff.mpr rfl
  exact (hevaluates.substituted hstack).eval_eq

/-! ## Calls -/

/-- An expression with a value leaves the machine as it was. -/
theorem eval_eq_of_ok {e : Expr} {machine : Machine} {value : Decimal}
    (h : (e.eval scope machine).1 = .ok value) : e.eval scope machine = (.ok value, machine) := by
  have hsettles : (e.eval scope).Settles machine (.ok value) :=
    ⟨h, (e.eval_settles scope machine).frames⟩
  exact hsettles.eq_of_ok fun machine =>
    evalWithin_disciplined scope (machine.callsLeft scope.callLimit) e machine

theorem evaluatesAll_of_ok {args : List Expr} {values : List Decimal} {machine : Machine}
    (h : args.map (fun arg => (arg.eval scope machine).1) = values.map .ok) :
    EvaluatesAll scope args machine (.ok values) machine := by
  induction args generalizing values with
  | nil =>
    cases List.map_eq_nil_iff.mp h.symm
    exact .nil
  | cons e rest ih =>
    cases values with
    | nil => cases h
    | cons value values =>
      obtain ⟨hfirst, hrest⟩ := List.cons.inj h
      exact .cons (evaluates_iff.mpr (eval_eq_of_ok hfirst)) (ih hrest)

/-- A call that is made comes to what the body comes to in the frame of the arguments. -/
theorem eval_user {name : Text} {params : List Text} {body : Expr} {args : List Expr}
    {values : List Decimal} {machine : Machine} (pos : Int)
    (hfunction : scope.env.function? name = some (.user params body))
    (hargs : args.map (fun arg => (arg.eval scope machine).1) = values.map .ok)
    (harity : params.length = args.length) (hlimit : machine.frames.length < scope.callLimit) :
    (call name args pos).eval scope machine =
      ((body.eval scope (machine.push (.bind params values))).1,
        (body.eval scope (machine.push (.bind params values))).2.pop) := by
  have hlength : params.length = values.length := by
    have hmapped := congrArg List.length hargs
    simp only [List.length_map] at hmapped
    omega
  exact (Evaluates.user (evaluatesAll_of_ok hargs) hfunction hlength hlimit
    (evaluates_iff.mpr rfl)).eval_eq

mutual

/-- What the name of the last result is bound to makes no difference. -/
theorem substitute_congr {other : Bindings}
    (h : ∀ name, name ≠ Scope.lastName → bound name = other name) :
    ∀ e : Expr, e.substitute bound = e.substitute other
  | .literal value pos => by simp only [substitute]
  | .grouping inner pos => by simp only [substitute, substitute_congr h inner]
  | .var name pos => by
    simp only [substitute]
    by_cases hlast : name = Scope.lastName
    · simp only [if_pos hlast]
    · simp only [if_neg hlast, h name hlast]
  | .binary left operator right => by
    simp only [substitute, substitute_congr h left, substitute_congr h right]
  | .unary operator operand => by simp only [substitute, substitute_congr h operand]
  | .call name args pos => by simp only [substitute, substituteAll_congr h args]
  | .foreign node => by simp only [substitute]

theorem substituteAll_congr {other : Bindings}
    (h : ∀ name, name ≠ Scope.lastName → bound name = other name) :
    ∀ args : List Expr, substituteAll bound args = substituteAll other args
  | [] => by simp only [substituteAll]
  | e :: rest => by simp only [substituteAll, substitute_congr h e, substituteAll_congr h rest]

end

end Expr

/-! ## Parameters -/

namespace Bindings

variable {params : List Text} {values : List Decimal} {param : Text}

theorem ofCall_cons (first : Text) (params : List Text) (value : Decimal) (values : List Decimal)
    (param : Text) : ofCall (first :: params) (value :: values) param =
      (ofCall params values param).or (if param = first then some value else none) := by
  rw [ofCall, List.zip_cons_cons, List.foldl_cons, foldl_bind, ofCall, foldl_bind, empty,
    Option.or_none]
  rfl

/-- Nothing is bound but the parameters. -/
theorem ofCall_of_notMem (h : param ∉ params) : ofCall params values param = none := by
  induction params generalizing values with
  | nil => rfl
  | cons first params ih =>
    cases values with
    | nil => rfl
    | cons value values =>
      rw [List.mem_cons, not_or] at h
      rw [ofCall_cons, ih h.2, if_neg h.1]
      rfl

/-- Of a repeated parameter the last argument counts. -/
theorem ofCall_of_last {i : Nat} {value : Decimal} (hparam : params[i]? = some param)
    (hvalue : values[i]? = some value) (hlast : ∀ j, i < j → params[j]? ≠ some param) :
    ofCall params values param = some value := by
  induction params generalizing values i with
  | nil => cases hparam
  | cons first params ih =>
    cases values with
    | nil => cases hvalue
    | cons other values =>
      rw [ofCall_cons]
      cases i with
      | zero =>
        cases hparam
        cases hvalue
        have hlater : param ∉ params := by
          intro hmem
          obtain ⟨j, hj⟩ := List.mem_iff_getElem?.mp hmem
          exact hlast (j + 1) (Nat.succ_pos j) hj
        rw [ofCall_of_notMem hlater, if_pos rfl]
        rfl
      | succ i =>
        have hrest : ofCall params values param = some value := by
          refine ih hparam hvalue ?_
          intro j hj
          exact hlast (j + 1) (Nat.succ_lt_succ hj)
        rw [hrest]
        rfl

end Bindings

/-- **A call is a substitution.** In every environment, and for every last result and call limit, a
body that is evaluated in a frame comes to the same as the body with the bound values in the place
of its variables in an empty frame, on any stack of the same height: the value or the failure is the
same, and so is the context. Hence a call of a user function with as many arguments as parameters,
all of which have values, comes to what the substituted body comes to one level deeper, if the limit
allows it. There each parameter stands for the last of its arguments and no other name for anything,
and a parameter with the name of the last result is as good as none. -/
theorem call_is_substitution (scope : Scope) :
    (∀ (body : Expr) (ctx : Context) (frame : Frame) (below other : List Frame),
      other.length = below.length →
      let run := body.eval scope ⟨ctx, frame :: below⟩
      let substituted :=
        (body.substitute fun name => frame.lookup name).eval scope ⟨ctx, [] :: other⟩
      substituted.1 = run.1 ∧ substituted.2.context = run.2.context) ∧
    (∀ (name : Text) (params : List Text) (body : Expr) (args : List Expr) (values : List Decimal)
      (pos : Int) (machine : Machine), scope.env.function? name = some (.user params body) →
      args.map (fun arg => (arg.eval scope machine).1) = values.map .ok →
      params.length = args.length → machine.frames.length < scope.callLimit →
      let called := (Expr.call name args pos).eval scope machine
      let substituted := (body.substitute (.ofCall params values)).eval scope (machine.push [])
      called.1 = substituted.1 ∧ called.2.context = substituted.2.context ∧
        called.2.frames = machine.frames) ∧
    (∀ (params : List Text) (values : List Decimal) (param : Text),
      (param ∉ params → Bindings.ofCall params values param = none) ∧
      ∀ (i : Nat) (value : Decimal), params[i]? = some param → values[i]? = some value →
        (∀ j, i < j → params[j]? ≠ some param) →
        Bindings.ofCall params values param = some value) ∧
    ∀ (body : Expr) (bound other : Bindings),
      (∀ name, name ≠ Scope.lastName → bound name = other name) →
      body.substitute bound = body.substitute other := by
  refine ⟨?_, ?_, ?_, ?_⟩
  · intro body ctx frame below other hheight run substituted
    have hstack : Machine.Vacates ⟨ctx, frame :: below⟩ (fun name => frame.lookup name)
        ([] :: other) := ⟨rfl, rfl, congrArg (· + 1) hheight⟩
    have heval : substituted = (run.1, run.2.on ([] :: other)) := body.eval_substitute hstack
    rw [heval]
    exact ⟨rfl, rfl⟩
  · intro name params body args values pos machine hfunction hargs harity hlimit called substituted
    let pushed := machine.push (.bind params values)
    have hstack : pushed.Vacates (.ofCall params values) ([] :: machine.frames) :=
      ⟨machine.innermost_push params values, rfl, rfl⟩
    have hsubstituted : substituted =
        ((body.eval scope pushed).1, (body.eval scope pushed).2.on ([] :: machine.frames)) :=
      body.eval_substitute hstack
    have hcalled : called = ((body.eval scope pushed).1, (body.eval scope pushed).2.pop) :=
      Expr.eval_user pos hfunction hargs harity hlimit
    have hframes : called.2.frames = machine.frames :=
      ((Expr.call name args pos).eval_settles scope machine).frames
    refine ⟨?_, ?_, hframes⟩
    · rw [hcalled, hsubstituted]
    · rw [hcalled, hsubstituted]
      rfl
  · intro params values param
    exact ⟨Bindings.ofCall_of_notMem, fun _ _ => Bindings.ofCall_of_last⟩
  · intro body bound other h
    exact Expr.substitute_congr h body

/-- `f(x,ans,x)=max(x,ans)`, called as `f(3,5,0)` when the last result is two. The body becomes
`max(0,ans)`. -/
theorem call_is_substitution_repeated :
    let params : List Text := [("x" : Text), ("ans" : Text), ("x" : Text)]
    let body : Expr := .call "max" [.var "x" 15, .var "ans" 17] 11
    let scope : Scope :=
      ⟨Environment.withBuiltins.setFunction "f" (.user params body), .ofNat 2, 256⟩
    let args : List Expr := [.literal (.ofNat 3) 2, .literal (.ofNat 5) 4, .literal .zero 6]
    let rewritten : Expr := .call "max" [.literal .zero 15, .var "ans" 17] 11
    let called := (Expr.call "f" args 0).eval scope ⟨.standard, []⟩
    body.substitute (.ofCall params [.ofNat 3, .ofNat 5, .zero]) = rewritten ∧
      called.1 = (rewritten.eval scope ⟨.standard, [[]]⟩).1 ∧ called.1 = .ok (.ofNat 2) := by
  intro params body scope args rewritten called
  have hsubstitute : body.substitute (.ofCall params [.ofNat 3, .ofNat 5, .zero]) = rewritten := rfl
  have hcall := (call_is_substitution scope).2.1 "f" params body args [.ofNat 3, .ofNat 5, .zero] 0
    ⟨.standard, []⟩ rfl rfl rfl (by decide)
  rw [hsubstitute] at hcall
  exact ⟨hsubstitute, hcall.1, rfl⟩

end Reckoner
