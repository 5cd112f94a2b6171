import Mathlib.Data.Set.Basic
import Reckoner.Proofs.Bindings
import Reckoner.Proofs.Termination

/-!
# What an evaluation can reach

An evaluation reads the names in its expression, and through them the names in the bodies of the
functions that they are bound to, in the environment of the evaluation and not in that of the
definition. So a set of names that has those of the expression, and with a function all that its
body uses, is all that it can ever read. In another environment that binds these names alike, each
step of the evaluation can be repeated (`Expr.Evaluates.transport`), also on a stack that differs
below its innermost frame. The value or the failure is the same, and what is stored makes no
difference to the names that could be read (`results_depend_on_reach`).
-/

namespace Reckoner

namespace Expr

mutual

/-- The names of the variables and of the functions in an expression. -/
def names : Expr → List Text
  | literal _ _ => []
  | grouping inner _ => names inner
  | var name _ => [name]
  | binary left _ right => names left ++ names right
  | unary _ operand => names operand
  | call name args _ => name :: namesAll args
  | foreign _ => []

def namesAll : List Expr → List Text
  | [] => []
  | e :: rest => names e ++ namesAll rest

end

end Expr

namespace Environment

/-- The names are bound alike in both, or in neither. -/
def AgreesOn (names : Set Text) (env other : Environment) : Prop :=
  ∀ name ∈ names, other.find? name = env.find? name

/-- With a function the names are among them that its body uses. -/
def ClosedOn (names : Set Text) (env : Environment) : Prop :=
  ∀ name ∈ names, ∀ params body, env.function? name = some (.user params body) →
    ∀ used ∈ body.names, used ∈ names

variable {names : Set Text} {env other : Environment} {name : Text}

theorem AgreesOn.value? (h : env.AgreesOn names other) (hname : name ∈ names) :
    other.value? name = env.value? name := by
  simp only [Environment.value?, h name hname]

theorem AgreesOn.function? (h : env.AgreesOn names other) (hname : name ∈ names) :
    other.function? name = env.function? name := by
  simp only [Environment.function?, h name hname]

end Environment

/-- Whoever reads nothing but these names, and what they lead to, sees no difference. -/
structure Scope.SameOn (names : Set Text) (scope other : Scope) : Prop where
  agrees : scope.env.AgreesOn names other.env
  closed : scope.env.ClosedOn names
  last : other.last = scope.last
  limit : other.callLimit = scope.callLimit

theorem Scope.sameOn_univ (scope : Scope) : scope.SameOn Set.univ scope where
  agrees _ _ := rfl
  closed _ _ _ _ _ used _ := Set.mem_univ used
  last := rfl
  limit := rfl

/-! ## Stacks -/

namespace Machine

variable {machine between : Machine} {stack : List Frame}

/-- The machine with another stack. -/
def on (machine : Machine) (stack : List Frame) : Machine := { machine with frames := stack }

/-- The stack has the same bindings on top, and it is as high. -/
structure Resembles (machine : Machine) (stack : List Frame) : Prop where
  innermost : (machine.on stack).innermost = machine.innermost
  height : stack.length = machine.frames.length

theorem Resembles.refl (machine : Machine) : machine.Resembles machine.frames := ⟨rfl, rfl⟩

theorem Resembles.later (h : machine.Resembles stack) (hframes : between.frames = machine.frames) :
    between.Resembles stack := by
  constructor
  · have hsame : between.innermost = machine.innermost := by
      unfold Machine.innermost
      rw [hframes]
    rw [hsame]
    exact h.innermost
  · rw [hframes]
    exact h.height

/-- A call hides all but the height. -/
theorem Resembles.push (height : stack.length = machine.frames.length) (frame : Frame) :
    (machine.push frame).Resembles (frame :: stack) := by
  refine ⟨rfl, ?_⟩
  simp only [Machine.push, List.length_cons, height]

end Machine

section
variable {machine after : Machine} {stack : List Frame} {result : Except Failure Decimal}

theorem Token.Kind.applyBinary_on {kind : Token.Kind} {x y : Decimal}
    (h : kind.applyBinary x y machine = (result, after)) (stack : List Frame) :
    kind.applyBinary x y (machine.on stack) = (result, after.on stack) := by
  cases kind <;> cases h <;> rfl

theorem Token.Kind.applyUnary_on {kind : Token.Kind} {x : Decimal}
    (h : kind.applyUnary x machine = (result, after)) (stack : List Frame) :
    kind.applyUnary x (machine.on stack) = (result, after.on stack) := by
  cases kind <;> cases h <;> rfl

theorem Evaluator.applying_on {f : Context → Except Failure Decimal × Context}
    (h : Evaluator.applying f machine = (result, after)) (stack : List Frame) :
    Evaluator.applying f (machine.on stack) = (result, after.on stack) := by
  cases h
  rfl

/-- What a name stands for where some names are bound. -/
def Scope.read (scope : Scope) (bound : Bindings) (name : Text) (pos : Int) :
    Except Failure Decimal :=
  if name = lastName then .ok scope.last
  else ((bound name).or (scope.env.value? name)).elim
    (.error (.fault (.undeclaredVariable name) pos)) .ok

theorem Scope.lookup_eq (scope : Scope) (name : Text) (pos : Int) (machine : Machine) :
    scope.lookup name pos machine = (scope.read machine.innermost name pos, machine) := by
  unfold lookup read Machine.innermost
  split
  · rfl
  · cases (machine.frames.head?.bind (List.lookup name)).or (scope.env.value? name) <;> rfl

theorem Scope.lookup_on {names : Set Text} {scope other : Scope} {name : Text} {pos : Int}
    (hscope : scope.SameOn names other) (hstack : machine.Resembles stack) (hname : name ∈ names)
    (h : scope.lookup name pos machine = (result, after)) :
    other.lookup name pos (machine.on stack) = (result, after.on stack) := by
  rw [lookup_eq] at h ⊢
  cases h
  simp only [read, hstack.innermost, hscope.agrees.value? hname, hscope.last]

end

/-! ## Evaluations step by step -/

namespace Expr

variable {names : Set Text} {scope other : Scope} {stack : List Frame}

mutual

/-- What the rules lead to, they lead to in every scope that is the same on the names in reach, and
on every stack that is as high and has the same frame on top. -/
theorem Evaluates.transport (hscope : scope.SameOn names other) {e : Expr} {machine after : Machine}
    {result : Except Failure Decimal} {stack : List Frame} :
    Evaluates scope e machine result after → machine.Resembles stack →
      (∀ name ∈ e.names, name ∈ names) →
      Evaluates other e (machine.on stack) result (after.on stack)
  | .literal, _, _ => .literal
  | .grouping evaluated, hstack, hnames => by
    rw [Expr.names] at hnames
    exact .grouping (evaluated.transport hscope hstack hnames)
  | .name found, hstack, hnames => by
    rw [Expr.names, List.forall_mem_singleton] at hnames
    exact .name (Scope.lookup_on hscope hstack hnames found)
  | .leftFails fails, hstack, hnames => by
    rw [Expr.names, List.forall_mem_append] at hnames
    exact .leftFails (fails.transport hscope hstack hnames.1)
  | .rightFails first fails, hstack, hnames => by
    rw [Expr.names, List.forall_mem_append] at hnames
    exact .rightFails (first.transport hscope hstack hnames.1)
      (fails.transport hscope (hstack.later first.frames) hnames.2)
  | .binary first second applied, hstack, hnames => by
    rw [Expr.names, List.forall_mem_append] at hnames
    exact .binary (first.transport hscope hstack hnames.1)
      (second.transport hscope (hstack.later first.frames) hnames.2)
      (Token.Kind.applyBinary_on applied stack)
  | .operandFails fails, hstack, hnames => by
    rw [Expr.names] at hnames
    exact .operandFails (fails.transport hscope hstack hnames)
  | .unary evaluated applied, hstack, hnames => by
    rw [Expr.names] at hnames
    exact .unary (evaluated.transport hscope hstack hnames) (Token.Kind.applyUnary_on applied stack)
  | .argumentFails fails, hstack, hnames => by
    rw [Expr.names, List.forall_mem_cons] at hnames
    exact .argumentFails (fails.transport hscope hstack hnames.2)
  | .unknown evaluated function, hstack, hnames => by
    rw [Expr.names, List.forall_mem_cons] at hnames
    rw [← hscope.agrees.function? hnames.1] at function
    exact .unknown (evaluated.transport hscope hstack hnames.2) function
  | .builtin evaluated function applied, hstack, hnames => by
    rw [Expr.names, List.forall_mem_cons] at hnames
    rw [← hscope.agrees.function? hnames.1] at function
    exact .builtin (evaluated.transport hscope hstack hnames.2) function
      (Evaluator.applying_on applied stack)
  | .arity evaluated function arity, hstack, hnames => by
    rw [Expr.names, List.forall_mem_cons] at hnames
    rw [← hscope.agrees.function? hnames.1] at function
    exact .arity (evaluated.transport hscope hstack hnames.2) function arity
  | .refused evaluated function arity limit, hstack, hnames => by
    rw [Expr.names, List.forall_mem_cons] at hnames
    have hheight := (hstack.later evaluated.frames).height
    rw [← hscope.agrees.function? hnames.1] at function
    rw [← hheight, ← hscope.limit] at limit
    rw [← hscope.limit]
    exact .refused (evaluated.transport hscope hstack hnames.2) function arity limit
  | .user evaluated function arity limit run, hstack, hnames => by
    rw [Expr.names, List.forall_mem_cons] at hnames
    have hheight := (hstack.later evaluated.frames).height
    have hbody := run.transport hscope (.push hheight _)
      (hscope.closed _ hnames.1 _ _ function)
    rw [← hscope.agrees.function? hnames.1] at function
    rw [← hheight, ← hscope.limit] at limit
    exact .user (evaluated.transport hscope hstack hnames.2) function arity limit hbody
  | .foreign, _, _ => .foreign

theorem EvaluatesAll.transport (hscope : scope.SameOn names other) {args : List Expr}
    {machine after : Machine} {result : Except Failure (List Decimal)} {stack : List Frame} :
    EvaluatesAll scope args machine result after → machine.Resembles stack →
      (∀ name ∈ namesAll args, name ∈ names) →
      EvaluatesAll other args (machine.on stack) result (after.on stack)
  | .nil, _, _ => .nil
  | .firstFails fails, hstack, hnames => by
    rw [namesAll, List.forall_mem_append] at hnames
    exact .firstFails (fails.transport hscope hstack hnames.1)
  | .restFails first fails, hstack, hnames => by
    rw [namesAll, List.forall_mem_append] at hnames
    exact .restFails (first.transport hscope hstack hnames.1)
      (fails.transport hscope (hstack.later first.frames) hnames.2)
  | .cons first others, hstack, hnames => by
    rw [namesAll, List.forall_mem_append] at hnames
    exact .cons (first.transport hscope hstack hnames.1)
      (others.transport hscope (hstack.later first.frames) hnames.2)

end

/-- In scopes that are the same on the names in reach, evaluation goes the same way. -/
theorem eval_sameOn (hscope : scope.SameOn names other) {e : Expr}
    (hnames : ∀ name ∈ e.names, name ∈ names) (machine : Machine) :
    e.eval other machine = e.eval scope machine := by
  cases heval : e.eval scope machine with
  | mk result after =>
    have hevaluates : Evaluates scope e machine result after := evaluates_iff.mpr heval
    have hother := hevaluates.transport hscope (.refl machine) hnames
    have hafter : after.on machine.frames = after := by
      rw [← hevaluates.frames]
      rfl
    rw [hafter] at hother
    exact evaluates_iff.mp hother

end Expr

/-! ## Statements -/

namespace Stmt

variable {names : Set Text} {scope other : Scope} {persist : Bool} {ctx : Context} {stmt : Stmt}

/-- What a statement stores, if it is to store anything and has a value. -/
def stored? (scope : Scope) (persist : Bool) (ctx : Context) (stmt : Stmt) :
    Option (Text × Member) :=
  if persist then
    (stmt.evaluate scope persist ctx).1.toOption.bind fun found => stmt.binding? found.1
  else none

/-- The environment after a statement. It is the old one if the statement failed. -/
def environmentAfter (scope : Scope) (persist : Bool) (ctx : Context) (stmt : Stmt) : Environment :=
  (stmt.evaluate scope persist ctx).1.toOption.elim scope.env Prod.snd

theorem environmentAfter_eq :
    stmt.environmentAfter scope persist ctx = scope.env.keep (stmt.stored? scope persist ctx) := by
  unfold environmentAfter stored?
  rw [evaluate_eq]
  cases (stmt.outcome scope ctx).1 with
  | error failure => cases persist <;> rfl
  | ok value => cases persist <;> rfl

theorem outcome_sameOn (hscope : scope.SameOn names other)
    (hnames : ∀ e, stmt.evaluated? = some e → ∀ name ∈ e.names, name ∈ names) :
    stmt.outcome other ctx = stmt.outcome scope ctx := by
  cases stmt with
  | expression e => simp only [outcome, evalTop, Expr.eval_sameOn hscope (hnames e rfl)]
  | variableAssignment name e =>
    simp only [outcome, evalTop, Expr.eval_sameOn hscope (hnames e rfl)]
  | functionAssignment name params body => rfl
  | foreign node => rfl

theorem stored?_sameOn (h : stmt.outcome other ctx = stmt.outcome scope ctx) :
    stmt.stored? other persist ctx = stmt.stored? scope persist ctx := by
  unfold stored?
  rw [evaluate_eq, evaluate_eq, h]
  cases (stmt.outcome scope ctx).1 <;> rfl

end Stmt

section
variable {env : Environment} {binding : Option (Text × Member)} {name : Text}

theorem Environment.find?_keep_of_eq {member : Member} (h : binding = some (name, member)) :
    (env.keep binding).find? name = some member := by
  simp [h, Environment.keep, Environment.find?_set]

theorem Environment.find?_keep_of_ne (h : ∀ member, binding ≠ some (name, member)) :
    (env.keep binding).find? name = env.find? name := by
  cases binding with
  | none => rfl
  | some bound =>
    have hname : name ≠ bound.1 := by
      intro hname
      exact h bound.2 (by rw [hname])
    simp [Environment.keep, Environment.find?_set, hname]

end

/-- **Results depend on what can be reached.** Two environments agree on a set of names. Among them
are the names of variables and functions in the expression of a statement, and with every user
function that is bound to one of them the names in its body. Then the statement has the same value
in both, or the same failure, and it leaves the same context. Afterwards the environments agree on
the set still, and on the name that was assigned, and each is otherwise as it was. -/
theorem results_depend_on_reach (stmt : Stmt) (last : Decimal) (persist : Bool) (limit : Int)
    (ctx : Context) {names : Set Text} {env other : Environment}
    (hagrees : env.AgreesOn names other) (hclosed : env.ClosedOn names)
    (hnames : ∀ e, stmt.evaluated? = some e → ∀ name ∈ e.names, name ∈ names) :
    let scope : Scope := ⟨env, last, limit⟩
    let twin : Scope := ⟨other, last, limit⟩
    (stmt.evaluate twin persist ctx).1.map Prod.fst =
        (stmt.evaluate scope persist ctx).1.map Prod.fst ∧
      (stmt.evaluate twin persist ctx).2 = (stmt.evaluate scope persist ctx).2 ∧
      stmt.stored? twin persist ctx = stmt.stored? scope persist ctx ∧
      (∀ name, name ∈ names ∨ (∃ member, stmt.stored? scope persist ctx = some (name, member)) →
        (stmt.environmentAfter twin persist ctx).find? name =
          (stmt.environmentAfter scope persist ctx).find? name) ∧
      ∀ name, (∀ member, stmt.stored? scope persist ctx ≠ some (name, member)) →
        (stmt.environmentAfter scope persist ctx).find? name = env.find? name ∧
        (stmt.environmentAfter twin persist ctx).find? name = other.find? name := by
  intro scope twin
  have hscope : scope.SameOn names twin := ⟨hagrees, hclosed, rfl, rfl⟩
  have houtcome : stmt.outcome twin ctx = stmt.outcome scope ctx :=
    Stmt.outcome_sameOn hscope hnames
  have hstored : stmt.stored? twin persist ctx = stmt.stored? scope persist ctx :=
    Stmt.stored?_sameOn houtcome
  refine ⟨?_, ?_, hstored, ?_, ?_⟩
  · rw [Stmt.evaluate_eq, Stmt.evaluate_eq, houtcome]
    cases (stmt.outcome scope ctx).1 <;> rfl
  · rw [Stmt.evaluate_eq, Stmt.evaluate_eq, houtcome]
  · intro name hname
    rw [Stmt.environmentAfter_eq, Stmt.environmentAfter_eq, hstored]
    by_cases hassigned : ∃ member, stmt.stored? scope persist ctx = some (name, member)
    · obtain ⟨member, hmember⟩ := hassigned
      rw [Environment.find?_keep_of_eq hmember, Environment.find?_keep_of_eq hmember]
    · have hreached : name ∈ names := hname.resolve_right hassigned
      rw [Environment.find?_keep_of_ne (not_exists.mp hassigned),
        Environment.find?_keep_of_ne (not_exists.mp hassigned)]
      exact hagrees name hreached
  · intro name hname
    rw [Stmt.environmentAfter_eq, Stmt.environmentAfter_eq, hstored]
    exact ⟨Environment.find?_keep_of_ne hname, Environment.find?_keep_of_ne hname⟩

/-- `f` calls `g`, which was defined later and reads `y`. What `z` and `r` were before does not
matter, and `r=f(0)` makes `r` the same in both. -/
theorem results_depend_on_reach_assigning :
    let env := ((Environment.withBuiltins.setVariable "y" .one).setFunction "f"
      (.user ["x"] (.call "g" [.var "x" 7] 5))).setFunction "g" (.user ["x"] (.var "y" 5))
    let other := (env.setVariable "z" .zero).setFunction "r" (.user [] (.var "z" 4))
    let stmt : Stmt := .variableAssignment "r" (.call "f" [.literal .zero 4] 2)
    let scope : Scope := ⟨env, .zero, 256⟩
    let twin : Scope := ⟨other, .zero, 256⟩
    (stmt.evaluate scope true .standard).1.map Prod.fst = .ok .one ∧
      (stmt.evaluate twin true .standard).1.map Prod.fst =
        (stmt.evaluate scope true .standard).1.map Prod.fst ∧
      (stmt.environmentAfter twin true .standard).find? "r" =
        (stmt.environmentAfter scope true .standard).find? "r" ∧
      (stmt.environmentAfter scope true .standard).find? "z" = none ∧
      (stmt.environmentAfter twin true .standard).find? "z" = some (.value .zero) := by
  intro env other stmt scope twin
  let names : Set Text := {("f" : Text), ("g" : Text), ("x" : Text), ("y" : Text)}
  have hagrees : env.AgreesOn names other := by
    rintro name (rfl | rfl | rfl | rfl) <;> rfl
  have hclosed : env.ClosedOn names := by
    rintro name (rfl | rfl | rfl | rfl) params body hbody used hused
    · cases hbody
      have hused : used ∈ [("g" : Text), ("x" : Text)] := hused
      rcases List.mem_cons.mp hused with rfl | hused
      · exact .inr (.inl rfl)
      · cases List.mem_singleton.mp hused
        exact .inr (.inr (.inl rfl))
    · cases hbody
      cases List.mem_singleton.mp hused
      exact .inr (.inr (.inr rfl))
    · cases hbody
    · cases hbody
  have hnames : ∀ e, stmt.evaluated? = some e → ∀ name ∈ e.names, name ∈ names := by
    intro e he name hname
    cases he
    cases List.mem_singleton.mp hname
    exact .inl rfl
  obtain ⟨hvalue, -, -, hafter, hunchanged⟩ :=
    results_depend_on_reach stmt .zero true 256 .standard hagrees hclosed hnames
  have hstored : stmt.stored? scope true .standard = some (("r" : Text), .value .one) := rfl
  have hz := hunchanged "z" (by rw [hstored]; intro member h; cases h)
  exact ⟨rfl, hvalue, hafter "r" (.inr ⟨_, hstored⟩), hz.1, hz.2⟩

end Reckoner
