import Reckoner.Proofs.Sessions.Fold
import Reckoner.Proofs.Substitution

/-!
# Naming a result

A result may be given a name and the name used in its place. Bodies of functions do not see the new
name, since none of them has it in it (`Scope.enter_named`), and outside of calls it stands for what
the expression comes to there every time, since an expression with a value leaves the machine as it
was. So by recursion on the expression that uses the name, it comes to the same as with the named
expression written out in parentheses (`Expr.eval_inline`, `naming_changes_nothing`).
-/

namespace Reckoner

namespace Expr

mutual

/-- The expression with the named one in parentheses wherever the name is a variable. The name of a
function that is called is left alone. -/
def inline (named : Text × Expr) : Expr → Expr
  | literal value pos => literal value pos
  | grouping inner pos => grouping (inline named inner) pos
  | var name pos => if name = named.1 then grouping named.2 pos else var name pos
  | binary left operator right => binary (inline named left) operator (inline named right)
  | unary operator operand => unary operator (inline named operand)
  | call name args pos => call name (inlineAll named args) pos
  | foreign node => foreign node

def inlineAll (named : Text × Expr) : List Expr → List Expr
  | [] => []
  | e :: rest => inline named e :: inlineAll named rest

end

end Expr

namespace Scope

variable {scope : Scope} {name : Text} {value : Decimal}

/-- The scope after the value has been given the name. -/
def named (scope : Scope) (name : Text) (value : Decimal) : Scope :=
  { scope with env := scope.env.setVariable name value }

/-- Nothing in the scope refers to the name: it is not that of the last result, nothing is bound to
it and no function that is stored uses it. -/
structure Unused (scope : Scope) (name : Text) : Prop where
  notLast : name ≠ lastName
  unbound : scope.env.has name = false
  bodies : ∀ function params body, scope.env.function? function = some (.user params body) →
    name ∉ body.names

theorem Unused.find? (h : scope.Unused name) : scope.env.find? name = none := by
  have hunbound := h.unbound
  simpa [Environment.has] using hunbound

theorem Unused.sameOn (h : scope.Unused name) (value : Decimal) :
    scope.SameOn { other | other ≠ name } (scope.named name value) where
  agrees := by
    intro other hother
    have hother : other ≠ name := hother
    simp [named, Environment.setVariable, Environment.find?_set, hother]
  closed := by
    intro function _ params body hfunction used hused hname
    subst hname
    exact h.bodies function params body hfunction hused
  last := rfl
  limit := rfl

/-- A variable is no function, so there is still none of this name. -/
theorem Unused.function? (h : scope.Unused name) (value : Decimal) (function : Text) :
    (scope.named name value).env.function? function = scope.env.function? function := by
  by_cases hname : function = name
  · subst hname
    simp [named, Environment.function?, Environment.setVariable, Environment.find?_set, h.find?]
  · exact (h.sameOn value).agrees.function? hname

/-- Calls go the same way, whatever they are given. -/
theorem enter_named (h : scope.Unused name) (value : Decimal) (function : Text)
    (values : List Decimal) (pos : Int) (machine : Machine) :
    (scope.named name value).enter function values pos machine =
      scope.enter function values pos machine := by
  have hbody : ∀ params body, scope.env.function? function = some (.user params body) →
      ∀ machine, body.eval (scope.named name value) machine = body.eval scope machine := by
    intro params body hfunction machine
    apply Expr.eval_sameOn (h.sameOn value)
    intro used hused hname
    subst hname
    exact h.bodies function params body hfunction hused
  have hlimit : (scope.named name value).callLimit = scope.callLimit := rfl
  unfold enter call
  simp only [h.function? value, hlimit]
  cases hfunction : scope.env.function? function with
  | none => rfl
  | some found =>
    cases found with
    | builtin b => rfl
    | user params body =>
      simp only
      split
      · rfl
      · by_cases hroom : machine.frames.length < scope.callLimit
        · simp only [if_pos hroom, Evaluator.inFrame, hbody params body hfunction]
        · simp only [if_neg hroom]

end Scope

namespace Expr

variable {scope : Scope} {name : Text} {e : Expr} {value : Decimal} {machine : Machine}

theorem eval_inline_var (h : scope.Unused name)
    (hvalue : e.eval scope machine = (.ok value, machine)) (houter : machine.innermost = .empty)
    (other : Text) (pos : Int) :
    (var other pos).eval (scope.named name value) machine =
      ((var other pos).inline (name, e)).eval scope machine := by
  unfold inline
  by_cases hname : other = name
  · subst hname
    simp [eval_var, eval_grouping, hvalue, Scope.lookup_eq, Scope.read, h.notLast, houter,
      Bindings.empty, Scope.named, Environment.value?_setVariable]
  · have hread : (scope.named name value).env.value? other = scope.env.value? other :=
      (h.sameOn value).agrees.value? hname
    have hlast : (scope.named name value).last = scope.last := rfl
    simp only [if_neg hname, eval_var, Scope.lookup_eq, Scope.read, hread, hlast]

/-- What comes behind a value starts from the same machine. -/
theorem machine_of_ok {after : Machine} (h : e.eval scope machine = (.ok value, after)) :
    after = machine := by
  have hsame := eval_eq_of_ok (congrArg Prod.fst h)
  exact congrArg Prod.snd (h.symm.trans hsame)

mutual

/-- Outside of calls the name comes to what the named expression comes to, wherever it stands. -/
theorem eval_inline (h : scope.Unused name) (hvalue : e.eval scope machine = (.ok value, machine))
    (houter : machine.innermost = .empty) : ∀ c : Expr,
    c.eval (scope.named name value) machine = (c.inline (name, e)).eval scope machine
  | .literal _ _ => by simp only [inline, eval_literal]
  | .grouping inner _ => by
    simp only [inline, eval_grouping]
    exact eval_inline h hvalue houter inner
  | .var other pos => eval_inline_var h hvalue houter other pos
  | .binary left operator right => by
    simp only [inline, eval_binary]
    apply Evaluator.bind_congr (eval_inline h hvalue houter left)
    intro x after hleft
    cases machine_of_ok hleft
    apply Evaluator.bind_congr (eval_inline h hvalue houter right)
    intro y after _
    rfl
  | .unary operator operand => by
    simp only [inline, eval_unary]
    apply Evaluator.bind_congr (eval_inline h hvalue houter operand)
    intro x after _
    rfl
  | .call function args pos => by
    simp only [inline, eval_call]
    apply Evaluator.bind_congr (mapM_eval_inline h hvalue houter args)
    intro values after _
    exact Scope.enter_named h value function values pos after
  | .foreign _ => by simp only [inline, eval_foreign]

theorem mapM_eval_inline (h : scope.Unused name)
    (hvalue : e.eval scope machine = (.ok value, machine)) (houter : machine.innermost = .empty) :
    ∀ args : List Expr, args.mapM (eval (scope.named name value)) machine =
      (inlineAll (name, e) args).mapM (eval scope) machine
  | [] => rfl
  | first :: rest => by
    simp only [inlineAll, List.mapM_cons]
    apply Evaluator.bind_congr (eval_inline h hvalue houter first)
    intro x after hfirst
    cases machine_of_ok hfirst
    apply Evaluator.bind_congr (mapM_eval_inline h hvalue houter rest)
    intro values after _
    rfl

end

end Expr

theorem Stmt.evaluate_expression (scope : Scope) (persist : Bool) (ctx : Context) (c : Expr) :
    ((expression c).evaluate scope persist ctx).1.map Prod.fst = (evalTop scope ctx c).1 ∧
      ((expression c).evaluate scope persist ctx).2 = (evalTop scope ctx c).2 := by
  constructor
  · simp only [evaluate]
    cases (evalTop scope ctx c).1 <;> rfl
  · rfl

/-- **Naming a result changes nothing.** In every environment, and for every last result and call
limit, an expression has a value, and nothing refers to a name: it is not that of the last result,
it is not bound, and no body of a function has it in it. (Neither has the expression then, or it
would have no value.) So the value can be assigned to the name, and whatever is evaluated afterwards
comes to the same as without the assignment and with the expression in parentheses in the place of
the variable: to the same value, or to the same failure at the same position, and it leaves the same
context. -/
theorem naming_changes_nothing (scope : Scope) (ctx : Context) (e : Expr) (value : Decimal)
    (name : Text) (hvalue : (Stmt.evalTop scope ctx e).1 = .ok value)
    (hunused : scope.Unused name) :
    ∃ later : Environment,
      (Stmt.variableAssignment name e).evaluate scope true ctx = (.ok (value, later), ctx) ∧
      ∀ (c : Expr) (persist : Bool),
        let named := (Stmt.expression c).evaluate { scope with env := later } persist ctx
        let inlined := (Stmt.expression (c.inline (name, e))).evaluate scope persist ctx
        named.1.map Prod.fst = inlined.1.map Prod.fst ∧ named.2 = inlined.2 := by
  have heval : e.eval scope ⟨ctx, []⟩ = (.ok value, ⟨ctx, []⟩) := Expr.eval_eq_of_ok hvalue
  refine ⟨(scope.named name value).env, ?_, ?_⟩
  · simp only [Stmt.evaluate, Stmt.evalTop, heval]
    rfl
  · intro c persist named inlined
    have hsame : Stmt.evalTop (scope.named name value) ctx c =
        Stmt.evalTop scope ctx (c.inline (name, e)) := by
      simp only [Stmt.evalTop, Expr.eval_inline hunused heval rfl c]
    obtain ⟨hnamed, hnamedContext⟩ :=
      Stmt.evaluate_expression (scope.named name value) persist ctx c
    obtain ⟨hinlined, hinlinedContext⟩ :=
      Stmt.evaluate_expression scope persist ctx (c.inline (name, e))
    constructor
    · exact hnamed.trans ((congrArg Prod.fst hsame).trans hinlined.symm)
    · exact hnamedContext.trans ((congrArg Prod.snd hsame).trans hinlinedContext.symm)

/-- `y=f(2)` with `f(t)=max(t,1)`, and then `min(y,f(y),3)`. In `max(y,y(0))` the name is called: it
is the name of no function before the assignment and of none afterwards. -/
theorem naming_changes_nothing_nested :
    let scope : Scope := ⟨Environment.withBuiltins.setFunction "f"
      (.user ["t"] (.call "max" [.var "t" 9, .literal .one 11] 5)), .zero, 256⟩
    let e : Expr := .call "f" [.literal (.ofNat 2) 4] 2
    let nested : Expr :=
      .call "min" [.var "y" 4, .call "f" [.var "y" 8] 6, .literal (.ofNat 3) 11] 0
    let called : Expr := .call "max" [.var "y" 4, .call "y" [.literal .zero 8] 6] 0
    scope.Unused "y" ∧
    nested.inline ("y", e) =
      .call "min" [.grouping e 4, .call "f" [.grouping e 8] 6, .literal (.ofNat 3) 11] 0 ∧
    ∃ later, (Stmt.variableAssignment "y" e).evaluate scope true .standard =
        (.ok (.ofNat 2, later), .standard) ∧
      ((Stmt.expression nested).evaluate { scope with env := later } true .standard).1.map
        Prod.fst = .ok (.ofNat 2) ∧
      ((Stmt.expression called).evaluate { scope with env := later } true .standard).1.map
        Prod.fst = .error (.fault (.unknownFunction "y") 6) := by
  intro scope e nested called
  have hunused : scope.Unused "y" := by
    constructor
    · decide
    · decide
    · intro function params body hfunction
      by_cases hname : function = "f"
      · subst hname
        cases hfunction
        decide
      · simp only [scope, Environment.function?, Environment.setFunction, Environment.find?_set,
          if_neg hname, Environment.find?_withBuiltins] at hfunction
        cases hbuiltin : Builtin.all.find? fun b => b.name = function <;>
          simp [hbuiltin] at hfunction
  obtain ⟨later, hassigned, hlater⟩ :=
    naming_changes_nothing scope .standard e (.ofNat 2) "y" rfl hunused
  refine ⟨hunused, rfl, later, hassigned, ?_, ?_⟩
  · exact (hlater nested true).1.trans rfl
  · exact (hlater called true).1.trans rfl

end Reckoner
