import Reckoner.Proofs.Bindings
import Reckoner.Proofs.Precision
import Reckoner.Proofs.Sessions.Requests

/-!
# Commits that tell contexts apart

A run of commits finds out whether a context has more than some number of digits: `x` grows to that
many digits, `y` takes its value, `x` grows once more, and then `y-x` is zero only if `x` stayed.
Whether a value is zero shows under any settings, and the variables are assigned even where their
values cannot be shown. So contexts of different precision never answer alike (`probe_differs`).
-/

namespace Reckoner

/-! ## Evaluating without calls -/

/-- The value of an expression outside of any call, whatever the calls do. -/
def Expr.Yields (scope : Scope) (ctx : Context) (e : Expr) (value : Decimal) : Prop :=
  ∀ body, e.evalWith scope body ⟨ctx, []⟩ = (.ok value, ⟨ctx, []⟩)

namespace Expr.Yields

variable {scope : Scope} {ctx : Context} {left right e : Expr} {operator : Token}
  {x y value : Decimal}

theorem evalTop (h : e.Yields scope ctx value) : Stmt.evalTop scope ctx e = (.ok value, ctx) := by
  unfold Stmt.evalTop Expr.eval
  cases Machine.callsLeft scope.callLimit ⟨ctx, []⟩ with
  | zero => simp only [evalWithin, h none]
  | succ calls => simp only [evalWithin, h (some _)]

theorem literal (value : Decimal) (pos : Int) : (literal value pos).Yields scope ctx value := by
  intro body
  rw [evalWith]
  rfl

theorem var {name : Text} (pos : Int) (hname : name ≠ Scope.lastName)
    (h : scope.env.value? name = some value) : (var name pos).Yields scope ctx value := by
  intro body
  rw [evalWith, Scope.lookup, if_neg hname]
  simp [h]

theorem binary {f : Context → Decimal} (hleft : left.Yields scope ctx x)
    (hright : right.Yields scope ctx y)
    (h : operator.kind.applyBinary x y = Evaluator.arithmetic f) :
    (binary left operator right).Yields scope ctx (f ctx) := by
  intro body
  rw [evalWith, Evaluator.bind_apply, hleft body]
  simp only [Evaluator.bind_apply, hright body, h]
  rfl

end Expr.Yields

/-! ## The commits -/

namespace Probe

def start : Text := "x=1"
def grow : Text := "x=x*0.1+1"
def copy : Text := "y=x"
def compare : Text := "y-x"

def growExpr : Expr :=
  .binary (.binary (.var "x" 2) ⟨.star, 3, 4⟩ (.literal Context.tenth 4)) ⟨.plus, 7, 8⟩
    (.literal .one 8)

def compareExpr : Expr := .binary (.var "y" 0) ⟨.minus, 1, 2⟩ (.var "x" 2)

theorem parse_start (rounding : Rounding) : Stmt.parse start (Token.scan rounding start) =
    .ok (.variableAssignment "x" (.literal .one 2)) := by
  have hscan : Token.scan rounding start = [⟨.identifier, 0, 1⟩, ⟨.equal, 1, 2⟩,
      ⟨.number (some .one), 2, 3⟩, ⟨.endOfText, 3, 3⟩] := by
    cases rounding <;> decide +kernel
  rw [hscan]
  rfl

theorem parse_grow (rounding : Rounding) : Stmt.parse grow (Token.scan rounding grow) =
    .ok (.variableAssignment "x" growExpr) := by
  have hscan : Token.scan rounding grow = [⟨.identifier, 0, 1⟩, ⟨.equal, 1, 2⟩,
      ⟨.identifier, 2, 3⟩, ⟨.star, 3, 4⟩, ⟨.number (some Context.tenth), 4, 7⟩, ⟨.plus, 7, 8⟩,
      ⟨.number (some .one), 8, 9⟩, ⟨.endOfText, 9, 9⟩] := by
    cases rounding <;> decide +kernel
  rw [hscan]
  rfl

theorem parse_copy (rounding : Rounding) : Stmt.parse copy (Token.scan rounding copy) =
    .ok (.variableAssignment "y" (.var "x" 2)) := by
  have hscan : Token.scan rounding copy = [⟨.identifier, 0, 1⟩, ⟨.equal, 1, 2⟩,
      ⟨.identifier, 2, 3⟩, ⟨.endOfText, 3, 3⟩] := by
    cases rounding <;> decide +kernel
  rw [hscan]
  rfl

theorem parse_compare (rounding : Rounding) : Stmt.parse compare (Token.scan rounding compare) =
    .ok (.expression compareExpr) := by
  have hscan : Token.scan rounding compare = [⟨.identifier, 0, 1⟩, ⟨.minus, 1, 2⟩,
      ⟨.identifier, 2, 3⟩, ⟨.endOfText, 3, 3⟩] := by
    cases rounding <;> decide +kernel
  rw [hscan]
  rfl

/-- Everything in front of the comparison. -/
def setup (k : Nat) : List Text := start :: (List.replicate k grow ++ [copy, grow])

end Probe

namespace Desk

variable {d d' : Desk} {text name : Text} {e : Expr} {value : Decimal} {k : Nat}

theorem commit_assignment (hparse : ∀ rounding, Stmt.parse text (Token.scan rounding text) =
      .ok (.variableAssignment name e))
    (hvalue : e.Yields d.session.scope d.shared.context value) :
    (d.handle (.commit text)).2.session.env = d.session.env.setVariable name value ∧
      (d.handle (.commit text)).2.shared.context = d.shared.context := by
  have houtcome : d.session.outcome text d.shared.context =
      (.ok (.variableAssignment name e, value), d.shared.context) := by
    simp only [Session.outcome, hparse, Stmt.outcome, hvalue.evalTop]
    rfl
  obtain ⟨-, hsession, hcontext⟩ := d.handle_commit text
  rw [hsession, hcontext, Session.committed_env, Session.kept, houtcome]
  exact ⟨rfl, rfl⟩

theorem commit_expression (hparse : ∀ rounding, Stmt.parse text (Token.scan rounding text) =
      .ok (.expression e))
    (hvalue : e.Yields d.session.scope d.shared.context value) :
    (d.handle (.commit text)).1 = ((d.session.format value).map fun output =>
      (⟨value, output, .expression e⟩ : Answer)).mapError .ofFailure := by
  have houtcome : d.session.outcome text d.shared.context =
      (.ok (.expression e, value), d.shared.context) := by
    simp only [Session.outcome, hparse, Stmt.outcome, hvalue.evalTop]
    rfl
  rw [(d.handle_commit text).1, Session.result, houtcome]
  rfl

theorem commit_start : (d.handle (.commit Probe.start)).2.session.env.value? "x" = some .one ∧
    (d.handle (.commit Probe.start)).2.shared.context = d.shared.context := by
  obtain ⟨henv, hcontext⟩ := commit_assignment (d := d) Probe.parse_start (.literal .one 2)
  rw [henv, Environment.value?_setVariable, if_pos rfl]
  exact ⟨rfl, hcontext⟩

theorem commit_grow (h : d.session.env.value? "x" = some value) :
    (d.handle (.commit Probe.grow)).2.session.env =
        d.session.env.setVariable "x" (d.shared.context.grow value) ∧
      (d.handle (.commit Probe.grow)).2.shared.context = d.shared.context := by
  refine commit_assignment Probe.parse_grow ?_
  have hx : (Expr.var "x" 2).Yields d.session.scope d.shared.context value :=
    .var 2 (by decide) h
  exact .binary (f := (·.add (d.shared.context.mul value Context.tenth) .one))
    (.binary (f := (·.mul value Context.tenth)) hx (.literal _ 4) rfl) (.literal _ 8) rfl

/-- As long as there are digits left, every commit adds one. -/
theorem after_grow {j : Nat} (h : d.session.env.value? "x" = some (.finite false (.ones j)))
    (hk : j + k < d.shared.context.precision) :
    (d.after ((List.replicate k Probe.grow).map .commit)).session.env.value? "x" =
        some (.finite false (.ones (j + k))) ∧
      (d.after ((List.replicate k Probe.grow).map .commit)).shared.context = d.shared.context := by
  induction k generalizing d j with
  | zero => exact ⟨h, rfl⟩
  | succ k ih =>
    obtain ⟨henv, hcontext⟩ := commit_grow h
    rw [Context.grow_ones (by omega)] at henv
    have hx : (d.handle (.commit Probe.grow)).2.session.env.value? "x" =
        some (.finite false (.ones (j + 1))) := by
      rw [henv, Environment.value?_setVariable, if_pos rfl]
    obtain ⟨hvalue, hsame⟩ := ih hx (by rw [hcontext]; omega)
    rw [List.replicate_succ, List.map_cons, Desk.after, hvalue, hsame, hcontext]
    exact ⟨by rw [Nat.add_right_comm, Nat.add_assoc], rfl⟩

theorem commit_copy (h : d.session.env.value? "x" = some value) :
    (d.handle (.commit Probe.copy)).2.session.env = d.session.env.setVariable "y" value ∧
      (d.handle (.commit Probe.copy)).2.shared.context = d.shared.context :=
  commit_assignment Probe.parse_copy (.var 2 (by decide) h)

/-- In front of the comparison: `y` has `k` digits behind the point, and `x` was to get one more. -/
theorem after_setup (hk : k < d.shared.context.precision) :
    (d.after ((Probe.setup k).map .commit)).session.env.value? "y" =
        some (.finite false (.ones k)) ∧
      (d.after ((Probe.setup k).map .commit)).session.env.value? "x" =
        some (d.shared.context.grow (.finite false (.ones k))) ∧
      (d.after ((Probe.setup k).map .commit)).shared.context = d.shared.context := by
  obtain ⟨hone, hstart⟩ := commit_start (d := d)
  obtain ⟨hx, hgrown⟩ := after_grow (k := k) (j := 0) hone (by rw [hstart, Nat.zero_add]; exact hk)
  rw [Nat.zero_add] at hx
  rw [hstart] at hgrown
  rw [Probe.setup, List.map_cons, List.map_append, Desk.after, after_append]
  generalize (d.handle (.commit Probe.start)).2.after
    ((List.replicate k Probe.grow).map .commit) = d₁ at hx hgrown ⊢
  obtain ⟨hcopied, hcopy⟩ := commit_copy hx
  have hx₂ : (d₁.handle (.commit Probe.copy)).2.session.env.value? "x" =
      some (.finite false (.ones k)) := by
    rw [hcopied, Environment.value?_setVariable, if_neg (by decide), hx]
  obtain ⟨henv, hlast⟩ := commit_grow hx₂
  simp only [List.map_cons, List.map_nil, Desk.after]
  rw [henv, Environment.value?_setVariable, if_neg (by decide), Environment.value?_setVariable,
    if_pos rfl, hcopied, Environment.value?_setVariable, if_pos rfl, hlast, hcopy, hgrown]
  exact ⟨rfl, rfl, rfl⟩

theorem commit_compare {x y : Decimal} (hy : d.session.env.value? "y" = some y)
    (hx : d.session.env.value? "x" = some x) :
    (d.handle (.commit Probe.compare)).1 =
      ((d.session.format (d.shared.context.sub y x)).map fun output =>
        (⟨d.shared.context.sub y x, output, .expression Probe.compareExpr⟩ : Answer)).mapError
          .ofFailure :=
  commit_expression Probe.parse_compare
    (.binary (f := (·.sub y x)) (.var 0 (by decide) hy) (.var 2 (by decide) hx) rfl)

/-- Contexts of different precision do not answer alike. -/
theorem probe_differs (hpos : 0 < d.shared.context.precision)
    (hlt : d.shared.context.precision < d'.shared.context.precision) :
    ∃ texts : List Text, d'.trace (texts.map .commit) ≠ d.trace (texts.map .commit) := by
  obtain ⟨k, hk⟩ : ∃ k, d.shared.context.precision = k + 1 :=
    ⟨d.shared.context.precision - 1, by omega⟩
  refine ⟨Probe.setup k ++ [Probe.compare], fun heq => ?_⟩
  rw [List.map_append, trace_append, trace_append] at heq
  have hlast := List.append_inj_right' heq rfl
  simp only [List.map_cons, List.map_nil, trace, List.cons.injEq, Prod.mk.injEq, true_and,
    and_true] at hlast
  obtain ⟨hy, hx, -⟩ := after_setup (d := d) (k := k) (by omega)
  obtain ⟨hy', hx', -⟩ := after_setup (d := d') (k := k) (by omega)
  -- With `k + 1` digits `x` stays what `y` is, with more of them it grows.
  rw [Context.grow_full hk] at hx
  rw [Context.grow_ones (by omega)] at hx'
  rw [commit_compare hy hx, commit_compare hy' hx', Context.sub_self_ones] at hlast
  have hne := Context.sub_ones_succ_ne (d'.after ((Probe.setup k).map .commit)).shared.context k
  generalize Context.sub _ _ _ = difference at hlast hne
  cases hformat : (d'.after ((Probe.setup k).map .commit)).session.format difference with
  | error failure => rw [hformat] at hlast; cases hlast
  | ok output =>
    rw [hformat] at hlast
    cases hlast
    exact hne rfl

end Desk
end Reckoner
