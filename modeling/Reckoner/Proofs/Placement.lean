import Reckoner.Expr.Print
import Reckoner.Proofs.Sessions.Outcome
import Reckoner.Proofs.Written

/-!
# Positions matter for positions only

Nothing that is computed depends on a position but the position of a failure. A tree without its
positions prints like the tree, and evaluates like it, in the environment without its positions: to
the same value or the same failure without its position, and with the same context afterwards
(`Expr.evalWithin_unplaced`). The same holds of statements (`Stmt.outcome_unplaced`) and of what
they bind.
-/

namespace Reckoner

/-! ## Trees without positions -/

namespace Expr

mutual

theorem unplaced_relocate (start stop : Int → Int) :
    ∀ e : Expr, (e.relocate start stop).unplaced = e.unplaced
  | .literal _ _ => rfl
  | .binary left _ right => by
    have hleft := unplaced_relocate start stop left
    have hright := unplaced_relocate start stop right
    simp only [unplaced, relocate, Token.relocate] at hleft hright ⊢
    rw [hleft, hright]
  | .unary _ operand => by
    have hoperand := unplaced_relocate start stop operand
    simp only [unplaced, relocate, Token.relocate] at hoperand ⊢
    rw [hoperand]
  | .grouping inner _ => by
    have hinner := unplaced_relocate start stop inner
    simp only [unplaced, relocate] at hinner ⊢
    rw [hinner]
  | .var _ _ => rfl
  | .call _ args _ => by
    simp only [unplaced, relocate]
    rw [unplacedAll_relocate start stop args]
  | .foreign _ => rfl

theorem unplacedAll_relocate (start stop : Int → Int) : ∀ args : List Expr,
    relocateAll (fun _ => 0) (fun _ => 0) (relocateAll start stop args) =
      relocateAll (fun _ => 0) (fun _ => 0) args
  | [] => rfl
  | e :: rest => by
    have hfirst := unplaced_relocate start stop e
    rw [relocateAll, relocateAll, relocateAll, unplacedAll_relocate start stop rest]
    exact congrArg (· :: _) hfirst

end

mutual

theorem print_unplaced : ∀ e : Expr, e.unplaced.print = e.print
  | .literal _ _ => rfl
  | .binary left operator right => by
    have hleft := print_unplaced left
    have hright := print_unplaced right
    simp only [unplaced, relocate, print, Token.relocate] at hleft hright ⊢
    rw [hleft, hright]
  | .unary operator operand => by
    have hoperand := print_unplaced operand
    simp only [unplaced, relocate, print, Token.relocate] at hoperand ⊢
    rw [hoperand]
  | .grouping inner _ => by
    have hinner := print_unplaced inner
    simp only [unplaced, relocate, print] at hinner ⊢
    rw [hinner]
  | .var _ _ => rfl
  | .call name args _ => by
    simp only [unplaced, relocate, print]
    rw [printAll_unplaced args]
  | .foreign _ => rfl

theorem printAll_unplaced : ∀ args : List Expr,
    printAll (relocateAll (fun _ => 0) (fun _ => 0) args) = printAll args
  | [] => rfl
  | e :: rest => by
    have hfirst := print_unplaced e
    rw [relocateAll, printAll, printAll, printAll_unplaced rest, ← hfirst]
    rfl

end

end Expr

namespace Stmt

theorem unplaced_relocate (start stop : Int → Int) (stmt : Stmt) :
    (stmt.relocate start stop).unplaced = stmt.unplaced := by
  cases stmt with
  | expression expr => exact congrArg Stmt.expression (expr.unplaced_relocate start stop)
  | variableAssignment name value =>
    exact congrArg (Stmt.variableAssignment name) (value.unplaced_relocate start stop)
  | functionAssignment name params body =>
    exact congrArg (Stmt.functionAssignment name params) (body.unplaced_relocate start stop)
  | foreign node => rfl

theorem print_unplaced (stmt : Stmt) : stmt.unplaced.print = stmt.print := by
  cases stmt with
  | expression expr => exact expr.print_unplaced
  | variableAssignment name value =>
    have hvalue := value.print_unplaced
    simp only [unplaced, relocate, print] at hvalue ⊢
    rw [← hvalue]
    rfl
  | functionAssignment name params body =>
    have hbody := body.print_unplaced
    simp only [unplaced, relocate, print] at hbody ⊢
    rw [← hbody]
    rfl
  | foreign node => rfl

end Stmt

/-! ## Environments without positions -/

def Failure.unplaced : Failure → Failure
  | .fault f _ => .fault f 0
  | .defect d => .defect d

def Function.unplaced : Function → Function
  | .builtin b => .builtin b
  | .user params body => .user params body.unplaced

namespace Member

def unplaced : Member → Member
  | .value x => .value x
  | .function f => .function f.unplaced

def unplacedEntry (entry : Text × Member) : Text × Member := (entry.1, entry.2.unplaced)

theorem lookup_unplaced (entries : List (Text × Member)) (name : Text) :
    (entries.map unplacedEntry).lookup name = (entries.lookup name).map unplaced := by
  induction entries with
  | nil => rfl
  | cons entry rest ih =>
    rw [List.map_cons, lookup_cons, lookup_cons, ih]
    by_cases h : name = entry.1
    · rw [if_pos h, if_pos (show name = (unplacedEntry entry).1 from h)]
      rfl
    · rw [if_neg h, if_neg (show ¬ name = (unplacedEntry entry).1 from h)]

theorem put_unplaced (name : Text) (member : Member) (entries : List (Text × Member)) :
    (member.put name entries).map unplacedEntry =
      member.unplaced.put name (entries.map unplacedEntry) := by
  induction entries with
  | nil => rfl
  | cons entry rest ih =>
    rw [List.map_cons, put, put]
    by_cases h : name = entry.1
    · rw [if_pos h, if_pos (show name = (unplacedEntry entry).1 from h)]
      rfl
    · rw [if_neg h, if_neg (show ¬ name = (unplacedEntry entry).1 from h), List.map_cons, ih]

end Member

namespace Environment

/-- The environment with the positions inside of its functions forgotten. -/
def unplaced (env : Environment) : Environment where
  members := env.members.map Member.unplacedEntry
  index := env.index
  indexed name := by
    rw [Member.lookup_unplaced, Option.isSome_map]
    exact env.indexed name

variable (env : Environment) (name : Text)

theorem find?_unplaced : env.unplaced.find? name = (env.find? name).map Member.unplaced :=
  Member.lookup_unplaced env.members name

theorem has_unplaced : env.unplaced.has name = env.has name := by
  rw [has, has, find?_unplaced, Option.isSome_map]

theorem value?_unplaced : env.unplaced.value? name = env.value? name := by
  rw [value?, value?, find?_unplaced]
  cases env.find? name with
  | none => rfl
  | some member => cases member <;> rfl

theorem function?_unplaced :
    env.unplaced.function? name = (env.function? name).map Function.unplaced := by
  rw [function?, function?, find?_unplaced]
  cases env.find? name with
  | none => rfl
  | some member => cases member <;> rfl

theorem set_unplaced (member : Member) :
    (env.set name member).unplaced = env.unplaced.set name member.unplaced := by
  have hmembers := Member.put_unplaced name member env.members
  have hhas := env.has_unplaced name
  have hindex : (env.set name member).index = (env.unplaced.set name member.unplaced).index := by
    simp only [set, hhas]
    rfl
  simp only [unplaced, set, mk.injEq] at hindex ⊢
  exact ⟨hmembers, hindex⟩

theorem keep_unplaced (binding : Option (Text × Member)) :
    (env.keep binding).unplaced = env.unplaced.keep (binding.map Member.unplacedEntry) := by
  cases binding with
  | none => rfl
  | some bound => exact env.set_unplaced bound.1 bound.2

end Environment

def Scope.unplaced (scope : Scope) : Scope := { scope with env := scope.env.unplaced }

/-! ## Evaluation -/

namespace Evaluator

variable {α β : Type}

/-- The evaluator that forgets where it failed. -/
def unplaced (run : Evaluator α) : Evaluator α :=
  fun machine => ((run machine).1.mapError Failure.unplaced, (run machine).2)

theorem unplaced_bind (run : Evaluator α) (next : α → Evaluator β) :
    (run >>= next).unplaced = run.unplaced >>= fun value => (next value).unplaced := by
  funext machine
  simp only [unplaced, bind_apply]
  obtain ⟨result, after⟩ := run machine
  cases result with
  | ok value => rfl
  | error failure => rfl

theorem unplaced_pure (value : α) : (pure value : Evaluator α).unplaced = pure value := rfl

theorem unplaced_throw (failure : Failure) :
    (throw failure : Evaluator α).unplaced = throw failure.unplaced := rfl

theorem unplaced_inFrame (frame : Frame) (body : Evaluator Decimal) :
    (inFrame frame body).unplaced = inFrame frame body.unplaced := rfl

end Evaluator

theorem Builtin.apply_unplaced (b : Builtin) (args : List Decimal) (pos : Int) (ctx : Context) :
    b.apply args 0 ctx =
      ((b.apply args pos ctx).1.mapError Failure.unplaced, (b.apply args pos ctx).2) := by
  cases b with
  | sum => rfl
  | sin =>
    cases args with
    | nil => rfl
    | cons first rest =>
      simp only [Builtin.apply]
      cases ctx.sin first <;> rfl
  | _ => cases args <;> rfl

theorem Token.Kind.applyBinary_unplaced (kind : Token.Kind) (x y : Decimal) :
    (kind.applyBinary x y).unplaced = kind.applyBinary x y := by
  cases kind with
  | caret =>
    funext machine
    simp only [applyBinary, Evaluator.unplaced, Evaluator.applying]
    cases machine.context.pow x y <;> rfl
  | _ => rfl

theorem Token.Kind.applyUnary_unplaced (kind : Token.Kind) (x : Decimal) :
    (kind.applyUnary x).unplaced = kind.applyUnary x := by
  cases kind <;> rfl

namespace Scope

variable (scope : Scope)

theorem lookup_unplaced (name : Text) (pos : Int) :
    scope.unplaced.lookup name 0 = (scope.lookup name pos).unplaced := by
  funext machine
  simp only [lookup, Evaluator.unplaced, Scope.unplaced, Environment.value?_unplaced]
  by_cases hlast : name = lastName
  · simp only [if_pos hlast]
    rfl
  · simp only [if_neg hlast]
    cases (machine.frames.head?.bind (List.lookup name)).or (scope.env.value? name) <;> rfl

/-- A way to run bodies without positions, next to one to run bodies. -/
def Bodies (body body' : Option (Expr → Evaluator Decimal)) : Prop :=
  ∀ e : Expr, body'.map (fun run => run e.unplaced) = body.map fun run => (run e).unplaced

variable {scope} {body body' : Option (Expr → Evaluator Decimal)}

theorem call_unplaced (hbody : Bodies body body') (name : Text) (args : List Decimal) (pos : Int) :
    scope.unplaced.call body' name args 0 = (scope.call body name args pos).unplaced := by
  have hfunction : scope.unplaced.env.function? name =
      (scope.env.function? name).map Function.unplaced := scope.env.function?_unplaced name
  unfold call
  rw [hfunction]
  cases scope.env.function? name with
  | none => rfl
  | some function =>
    cases function with
    | builtin b =>
      funext machine
      simp only [Option.map_some, Function.unplaced, Evaluator.applying, Evaluator.unplaced,
        Builtin.apply_unplaced b args pos]
    | user params expr =>
      simp only [Option.map_some, Function.unplaced]
      by_cases harity : params.length ≠ args.length
      · rw [if_pos harity, if_pos harity]
        rfl
      rw [if_neg harity, if_neg harity]
      have hrun := hbody expr
      cases body with
      | none =>
        rw [Option.map_none, Option.map_eq_none_iff] at hrun
        subst hrun
        rfl
      | some run =>
        obtain ⟨run', rfl, hexpr⟩ := Option.map_eq_some_iff.mp hrun
        simp only [hexpr, Evaluator.unplaced_inFrame]

end Scope

namespace Expr

variable {scope : Scope} {body body' : Option (Expr → Evaluator Decimal)}

mutual

theorem evalWith_unplaced (hbody : Scope.Bodies body body') : ∀ e : Expr,
    e.unplaced.evalWith scope.unplaced body' = (e.evalWith scope body).unplaced
  | .literal value pos => by
    rw [unplaced, relocate, evalWith, evalWith, Evaluator.unplaced_pure]
  | .grouping inner pos => by
    have hinner := evalWith_unplaced hbody inner
    rw [unplaced, relocate, evalWith, evalWith]
    exact hinner
  | .var name pos => by
    rw [unplaced, relocate, evalWith, evalWith]
    exact scope.lookup_unplaced name pos
  | .binary left operator right => by
    have hleft := evalWith_unplaced hbody left
    have hright := evalWith_unplaced hbody right
    simp only [unplaced] at hleft hright
    simp only [unplaced, relocate, evalWith, Evaluator.unplaced_bind, hleft, hright, Token.relocate,
      Token.Kind.applyBinary_unplaced]
  | .unary operator operand => by
    have hoperand := evalWith_unplaced hbody operand
    simp only [unplaced] at hoperand
    simp only [unplaced, relocate, evalWith, Evaluator.unplaced_bind, hoperand, Token.relocate,
      Token.Kind.applyUnary_unplaced]
  | .call name args pos => by
    have hargs := evalAll_unplaced hbody args
    simp only [unplaced, relocate, evalWith, Evaluator.unplaced_bind, hargs,
      Scope.call_unplaced hbody name _ pos]
  | .foreign node => by
    rw [unplaced, relocate, evalWith, evalWith, Evaluator.unplaced_throw]
    rfl

theorem evalAll_unplaced (hbody : Scope.Bodies body body') : ∀ args : List Expr,
    evalAll scope.unplaced body' (relocateAll (fun _ => 0) (fun _ => 0) args) =
      (evalAll scope body args).unplaced
  | [] => by
    rw [relocateAll, evalAll, evalAll, Evaluator.unplaced_pure]
  | e :: rest => by
    have hfirst := evalWith_unplaced hbody e
    have hrest := evalAll_unplaced hbody rest
    simp only [unplaced] at hfirst
    simp only [relocateAll, evalAll, Evaluator.unplaced_bind, hfirst, hrest,
      Evaluator.unplaced_pure]

end

/-- **Evaluation without positions forgets where it failed and nothing else.** -/
theorem evalWithin_unplaced (scope : Scope) (calls : Nat) (e : Expr) :
    e.unplaced.evalWithin scope.unplaced calls = (e.evalWithin scope calls).unplaced := by
  induction calls generalizing e with
  | zero => exact evalWith_unplaced (fun _ => rfl) e
  | succ calls ih =>
    have hbodies : Scope.Bodies (some (evalWithin scope calls))
        (some (evalWithin scope.unplaced calls)) := fun e => congrArg some (ih e)
    exact evalWith_unplaced hbodies e

end Expr

theorem Stmt.evalTop_unplaced (scope : Scope) (ctx : Context) (e : Expr) :
    evalTop scope.unplaced ctx e.unplaced =
      ((evalTop scope ctx e).1.mapError Failure.unplaced, (evalTop scope ctx e).2) := by
  have heval := congrFun (e.evalWithin_unplaced scope
    ((⟨ctx, []⟩ : Machine).callsLeft scope.callLimit)) ⟨ctx, []⟩
  unfold evalTop Expr.eval
  simp only [Scope.unplaced] at heval ⊢
  rw [heval]
  rfl

theorem Stmt.outcome_unplaced (scope : Scope) (ctx : Context) (stmt : Stmt) :
    stmt.unplaced.outcome scope.unplaced ctx =
      ((stmt.outcome scope ctx).1.mapError Failure.unplaced, (stmt.outcome scope ctx).2) := by
  cases stmt with
  | expression expr => exact evalTop_unplaced scope ctx expr
  | variableAssignment name value => exact evalTop_unplaced scope ctx value
  | functionAssignment name params body => rfl
  | foreign node => rfl

theorem Stmt.binding?_unplaced (value : Decimal) (stmt : Stmt) :
    stmt.unplaced.binding? value = (stmt.binding? value).map Member.unplacedEntry := by
  cases stmt <;> rfl

end Reckoner
