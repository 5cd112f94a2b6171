import Reckoner.Proofs.Isolation
import Reckoner.Proofs.Written

/-!
# Where an evaluation fails

An expression without a value has a node that fails, and everything that is evaluated before that
node has a value (`Expr.Fails`, `Expr.fails_of_error`, `Expr.Fails.error`). The node stands in the
expression itself or in the body of a stored function. In trees that have the shape of the grammar,
few nodes can fail: names that are not declared, calls, and powers whose logarithm cannot be taken
(`Expr.Fails.ordinary`).
-/

namespace Reckoner

namespace Expr

/-- The expression comes to this failure, in the body of the stored function `home`, or in the
expression itself if there is none. -/
inductive Fails (scope : Scope) (ctx : Context) :
    Bindings → Nat → Expr → Option Text → Failure → Prop where
  | grouping {bound depth inner pos home failure}
      (fails : Fails scope ctx bound depth inner home failure) :
      Fails scope ctx bound depth (.grouping inner pos) home failure
  | name {bound depth name pos} (last : name ≠ Scope.lastName) (unbound : bound name = none)
      (undeclared : scope.env.value? name = none) :
      Fails scope ctx bound depth (.var name pos) none (.fault (.undeclaredVariable name) pos)
  | left {bound depth left operator right home failure}
      (fails : Fails scope ctx bound depth left home failure) :
      Fails scope ctx bound depth (.binary left operator right) home failure
  | right {bound depth left operator right x home failure}
      (before : left.valueIn scope ctx bound depth = .ok x)
      (fails : Fails scope ctx bound depth right home failure) :
      Fails scope ctx bound depth (.binary left operator right) home failure
  | binary {bound depth left operator right x y failure}
      (first : left.valueIn scope ctx bound depth = .ok x)
      (second : right.valueIn scope ctx bound depth = .ok y)
      (fails : operator.kind.binaryValue ctx x y = .error failure) :
      Fails scope ctx bound depth (.binary left operator right) none failure
  | operand {bound depth operator operand home failure}
      (fails : Fails scope ctx bound depth operand home failure) :
      Fails scope ctx bound depth (.unary operator operand) home failure
  | unary {bound depth operator operand x failure}
      (evaluated : operand.valueIn scope ctx bound depth = .ok x)
      (fails : operator.kind.unaryValue x = .error failure) :
      Fails scope ctx bound depth (.unary operator operand) none failure
  | argument {bound depth name before arg rest pos values home failure}
      (earlier : valuesIn scope ctx bound depth before = .ok values)
      (fails : Fails scope ctx bound depth arg home failure) :
      Fails scope ctx bound depth (.call name (before ++ arg :: rest) pos) home failure
  | unknown {bound depth name args pos values}
      (evaluated : valuesIn scope ctx bound depth args = .ok values)
      (unknown : scope.env.function? name = none) :
      Fails scope ctx bound depth (.call name args pos) none (.fault (.unknownFunction name) pos)
  | builtin {bound depth name args pos values b failure}
      (evaluated : valuesIn scope ctx bound depth args = .ok values)
      (builtin : scope.env.function? name = some (.builtin b))
      (fails : (b.apply values pos ctx).1 = .error failure) :
      Fails scope ctx bound depth (.call name args pos) none failure
  | arity {bound depth name args pos values params body}
      (evaluated : valuesIn scope ctx bound depth args = .ok values)
      (user : scope.env.function? name = some (.user params body))
      (arity : params.length ≠ values.length) :
      Fails scope ctx bound depth (.call name args pos) none
        (.fault (.wrongArity name params.length) pos)
  | limit {bound depth name args pos values params body}
      (evaluated : valuesIn scope ctx bound depth args = .ok values)
      (user : scope.env.function? name = some (.user params body))
      (arity : params.length = values.length) (limit : scope.callLimit ≤ depth) :
      Fails scope ctx bound depth (.call name args pos) none
        (.fault (.recursionLimit scope.callLimit) pos)
  | body {bound depth name args pos values params body home failure}
      (evaluated : valuesIn scope ctx bound depth args = .ok values)
      (user : scope.env.function? name = some (.user params body))
      (arity : params.length = values.length) (limit : depth < scope.callLimit)
      (fails : Fails scope ctx (.ofCall params values) (depth + 1) body home failure) :
      Fails scope ctx bound depth (.call name args pos) (some (home.getD name)) failure
  | foreign {bound depth node} :
      Fails scope ctx bound depth (.foreign node) none (.defect (.unhandledNode node))

/-! ## Every failure has its node -/

variable {scope : Scope} {ctx : Context}

theorem error_of_bind {α β : Type} {result : Except Failure α} {next : α → Except Failure β}
    {failure : Failure} (h : result >>= next = .error failure) :
    result = .error failure ∨ ∃ value, result = .ok value ∧ next value = .error failure := by
  cases result with
  | error f =>
    cases h
    exact .inl rfl
  | ok value => exact .inr ⟨value, rfl, h⟩

/-- Failures of called bodies have their node. -/
def BodiesFail (scope : Scope) (ctx : Context) (depth : Nat) (failure : Failure) : Prop :=
  ∀ params values body, (depth : Int) < scope.callLimit →
    valueIn scope ctx (.ofCall params values) (depth + 1) body = .error failure →
    ∃ home, Fails scope ctx (.ofCall params values) (depth + 1) body home failure

section
variable {bound : Bindings} {depth : Nat} {failure : Failure}

theorem fails_of_lookup {name : Text} {pos : Int}
    (h : (var name pos).valueIn scope ctx bound depth = .error failure) :
    Fails scope ctx bound depth (var name pos) none failure := by
  rw [valueIn] at h
  by_cases hlast : name = Scope.lastName
  · rw [if_pos hlast] at h
    cases h
  rw [if_neg hlast] at h
  cases hbound : bound name with
  | some value =>
    rw [hbound] at h
    cases h
  | none =>
    rw [hbound] at h
    cases hvalue : scope.env.value? name with
    | some value =>
      rw [hvalue] at h
      cases h
    | none =>
      rw [hvalue] at h
      cases h
      exact .name hlast hbound hvalue

theorem fails_of_call (hbodies : BodiesFail scope ctx depth failure) {name : Text}
    {args : List Expr} {pos : Int} {values : List Decimal}
    (hargs : valuesIn scope ctx bound depth args = .ok values)
    (h : (call name args pos).valueIn scope ctx bound depth = .error failure) :
    ∃ home, Fails scope ctx bound depth (call name args pos) home failure := by
  rw [valueIn, hargs] at h
  cases hfunction : scope.env.function? name with
  | none =>
    simp only [hfunction] at h
    cases h
    exact ⟨none, .unknown hargs hfunction⟩
  | some function =>
    cases function with
    | builtin b =>
      simp only [hfunction] at h
      exact ⟨none, .builtin hargs hfunction h⟩
    | user params body =>
      simp only [hfunction] at h
      by_cases harity : params.length = values.length
      · by_cases hlimit : scope.callLimit ≤ depth
        · have hcall : (Except.error (.fault (.recursionLimit scope.callLimit) pos) :
              Except Failure Decimal) = .error failure := by
            simpa only [bind, Except.bind, harity, ne_eq, not_true, if_false, if_pos hlimit] using h
          cases hcall
          exact ⟨none, .limit hargs hfunction harity hlimit⟩
        · have hcall : body.valueIn scope ctx (.ofCall params values) (depth + 1) =
              .error failure := by
            simpa only [bind, Except.bind, harity, ne_eq, not_true, if_false, if_neg hlimit] using h
          have hdepth : (depth : Int) < scope.callLimit := Int.not_le.mp hlimit
          obtain ⟨home, hfails⟩ := hbodies params values body hdepth hcall
          exact ⟨_, .body hargs hfunction harity hdepth hfails⟩
      · have hcall : (Except.error (.fault (.wrongArity name params.length) pos) :
            Except Failure Decimal) = .error failure := by
          simpa only [bind, Except.bind, ne_eq, harity, not_false_eq_true, if_true] using h
        cases hcall
        exact ⟨none, .arity hargs hfunction harity⟩

mutual

theorem fails_of_bodies (hbodies : BodiesFail scope ctx depth failure) : ∀ e : Expr,
    e.valueIn scope ctx bound depth = .error failure →
    ∃ home, Fails scope ctx bound depth e home failure
  | .literal value pos, h => by
    rw [valueIn] at h
    cases h
  | .grouping inner pos, h => by
    rw [valueIn] at h
    obtain ⟨home, hfails⟩ := fails_of_bodies hbodies inner h
    exact ⟨home, .grouping hfails⟩
  | .var name pos, h => ⟨none, fails_of_lookup h⟩
  | .binary left operator right, h => by
    rw [valueIn] at h
    rcases error_of_bind h with hleft | ⟨x, hx, hrest⟩
    · obtain ⟨home, hfails⟩ := fails_of_bodies hbodies left hleft
      exact ⟨home, .left hfails⟩
    rcases error_of_bind hrest with hright | ⟨y, hy, hfails⟩
    · obtain ⟨home, hfails⟩ := fails_of_bodies hbodies right hright
      exact ⟨home, .right hx hfails⟩
    · exact ⟨none, .binary hx hy hfails⟩
  | .unary operator operand, h => by
    rw [valueIn] at h
    rcases error_of_bind h with hoperand | ⟨x, hx, hfails⟩
    · obtain ⟨home, hfails⟩ := fails_of_bodies hbodies operand hoperand
      exact ⟨home, .operand hfails⟩
    · exact ⟨none, .unary hx hfails⟩
  | .call name args pos, h => by
    cases hargs : valuesIn scope ctx bound depth args with
    | ok values => exact fails_of_call hbodies hargs h
    | error f =>
      rw [valueIn, hargs] at h
      cases h
      obtain ⟨before, arg, rest, values, home, rfl, hbefore, hfails⟩ :=
        argument_of_bodies hbodies args hargs
      exact ⟨home, .argument hbefore hfails⟩
  | .foreign node, h => by
    rw [valueIn] at h
    cases h
    exact ⟨none, .foreign⟩

/-- The first of the arguments that fails. -/
theorem argument_of_bodies (hbodies : BodiesFail scope ctx depth failure) : ∀ args : List Expr,
    valuesIn scope ctx bound depth args = .error failure →
    ∃ before arg rest values home, args = before ++ arg :: rest ∧
      valuesIn scope ctx bound depth before = .ok values ∧
      Fails scope ctx bound depth arg home failure
  | [], h => by
    rw [valuesIn] at h
    cases h
  | arg :: rest, h => by
    rw [valuesIn] at h
    rcases error_of_bind h with harg | ⟨value, hvalue, hrest⟩
    · obtain ⟨home, hfails⟩ := fails_of_bodies hbodies arg harg
      exact ⟨[], arg, rest, [], home, rfl, by rw [valuesIn], hfails⟩
    rcases error_of_bind hrest with hlater | ⟨values, -, hok⟩
    · obtain ⟨before, later, others, values, home, rfl, hbefore, hfails⟩ :=
        argument_of_bodies hbodies rest hlater
      refine ⟨arg :: before, later, others, value :: values, home, rfl, ?_, hfails⟩
      rw [valuesIn, hvalue, hbefore]
      rfl
    · cases hok

end

end

/-- **Every failure has its node.** -/
theorem fails_of_error {bound : Bindings} {depth : Nat} {e : Expr} {failure : Failure}
    (h : e.valueIn scope ctx bound depth = .error failure) :
    ∃ home, Fails scope ctx bound depth e home failure := by
  -- The bodies of called functions are evaluated with one call less to go.
  generalize hcalls : (scope.callLimit - depth).toNat = calls
  induction calls generalizing bound depth e with
  | zero =>
    refine fails_of_bodies ?_ e h
    intro params values body hdepth hcall
    omega
  | succ calls ih =>
    refine fails_of_bodies ?_ e h
    intro params values body hdepth hcall
    exact ih hcall (by omega)

section
variable {bound : Bindings} {depth : Nat}

theorem valuesIn_cons_ok {e : Expr} {rest : List Expr} {values : List Decimal}
    (h : valuesIn scope ctx bound depth (e :: rest) = .ok values) :
    ∃ value others, e.valueIn scope ctx bound depth = .ok value ∧
      valuesIn scope ctx bound depth rest = .ok others ∧ values = value :: others := by
  rw [valuesIn] at h
  cases hvalue : e.valueIn scope ctx bound depth with
  | error failure =>
    rw [hvalue] at h
    cases h
  | ok value =>
    cases hothers : valuesIn scope ctx bound depth rest with
    | error failure =>
      rw [hvalue, hothers] at h
      cases h
    | ok others =>
      rw [hvalue, hothers] at h
      cases h
      exact ⟨value, others, rfl, rfl, rfl⟩

theorem length_valuesIn {args : List Expr} {values : List Decimal}
    (h : valuesIn scope ctx bound depth args = .ok values) : values.length = args.length := by
  induction args generalizing values with
  | nil =>
    rw [valuesIn] at h
    cases h
    rfl
  | cons arg rest ih =>
    obtain ⟨value, others, -, hothers, rfl⟩ := valuesIn_cons_ok h
    rw [List.length_cons, List.length_cons, ih hothers]

theorem valuesIn_of_error {before : List Expr} {arg : Expr} {values : List Decimal}
    {failure : Failure} (hbefore : valuesIn scope ctx bound depth before = .ok values)
    (harg : arg.valueIn scope ctx bound depth = .error failure) (rest : List Expr) :
    valuesIn scope ctx bound depth (before ++ arg :: rest) = .error failure := by
  induction before generalizing values with
  | nil =>
    rw [List.nil_append, valuesIn, harg]
    rfl
  | cons first others ih =>
    obtain ⟨value, later, hfirst, hothers, -⟩ := valuesIn_cons_ok hbefore
    rw [List.cons_append, valuesIn, hfirst, ih hothers]
    rfl

end

/-- **A node that fails is the end of the evaluation.** -/
theorem Fails.error {bound : Bindings} {depth : Nat} {e : Expr} {home : Option Text}
    {failure : Failure} (h : Fails scope ctx bound depth e home failure) :
    e.valueIn scope ctx bound depth = .error failure := by
  induction h with
  | grouping _ ih =>
    rw [valueIn]
    exact ih
  | name hlast hunbound hundeclared =>
    rw [valueIn, if_neg hlast, hunbound]
    simp only [hundeclared]
  | left _ ih =>
    rw [valueIn, ih]
    rfl
  | right hbefore _ ih =>
    rw [valueIn, hbefore, ih]
    rfl
  | binary hfirst hsecond hfails =>
    rw [valueIn, hfirst, hsecond]
    exact hfails
  | operand _ ih =>
    rw [valueIn, ih]
    rfl
  | unary hoperand hfails =>
    rw [valueIn, hoperand]
    exact hfails
  | argument hbefore _ ih =>
    rw [valueIn, valuesIn_of_error hbefore ih]
    rfl
  | unknown hargs hunknown =>
    rw [valueIn, hargs]
    simp only [bind, Except.bind, hunknown]
  | builtin hargs hbuiltin hfails =>
    rw [valueIn, hargs]
    simp only [bind, Except.bind, hbuiltin]
    exact hfails
  | arity hargs huser harity =>
    rw [valueIn, hargs]
    simp only [bind, Except.bind, huser, if_pos harity]
  | limit hargs huser harity hlimit =>
    rw [valueIn, hargs]
    simp only [bind, Except.bind, huser, if_neg (not_not_intro harity), if_pos hlimit]
  | body hargs huser harity hlimit _ ih =>
    rw [valueIn, hargs]
    simp only [bind, Except.bind, huser, if_neg (not_not_intro harity),
      if_neg (Int.not_le.mpr hlimit)]
    exact ih
  | foreign => rw [valueIn]

end Expr

/-! ## Trees of the grammar -/

theorem Builtin.apply_error {b : Builtin} {values : List Decimal} {pos : Int} {ctx : Context}
    {failure : Failure} (h : (b.apply values pos ctx).1 = .error failure) :
    failure = .fault .sineLimit pos ∨
      values = [] ∧ failure = .fault (.emptyArguments b.name) pos := by
  cases b with
  | sum => cases h
  | sin =>
    cases values with
    | nil =>
      cases h
      exact .inr ⟨rfl, rfl⟩
    | cons first rest =>
      simp only [Builtin.apply] at h
      cases hsin : ctx.sin first with
      | ok value =>
        rw [hsin] at h
        cases h
      | error changed =>
        rw [hsin] at h
        cases h
        exact .inl rfl
  | _ =>
    cases values with
    | nil =>
      cases h
      exact .inr ⟨rfl, rfl⟩
    | cons first rest => cases h

/-- What can go wrong in trees of the grammar: any fault but a call without arguments, and a power
whose logarithm cannot be taken. -/
inductive Failure.Ordinary (ctx : Context) : Failure → Prop where
  | fault {fault : Fault} {pos : Int} (h : ∀ name, fault ≠ .emptyArguments name) :
      Ordinary ctx (.fault fault pos)
  | power {x y : Decimal} (h : ctx.pow x y = none) : Ordinary ctx (.defect .logarithmLimit)

theorem Token.Kind.binaryValue_ordinary {kind : Token.Kind} {c : Chain} {ctx : Context}
    {x y : Decimal} {failure : Failure} (hkind : kind.chain? = some c)
    (h : kind.binaryValue ctx x y = .error failure) : failure.Ordinary ctx := by
  cases kind with
  | caret =>
    cases hpow : ctx.pow x y with
    | some value =>
      simp only [binaryValue, hpow] at h
      cases h
    | none =>
      simp only [binaryValue, hpow] at h
      cases h
      exact .power hpow
  | plus => cases h
  | minus => cases h
  | star => cases h
  | slash => cases h
  | _ => cases hkind

theorem Token.Kind.unaryValue_of_sign {kind : Token.Kind} {x : Decimal} {failure : Failure}
    (hkind : kind = .plus ∨ kind = .minus) : kind.unaryValue x ≠ .error failure := by
  rcases hkind with rfl | rfl
  · exact nofun
  · exact nofun

/-- The bodies of all stored functions have the shape of an expression. -/
def Environment.BodiesFit (env : Environment) : Prop :=
  ∀ name params body, env.function? name = some (.user params body) → body.fits .expr = true

namespace Expr

variable {scope : Scope} {ctx : Context} {bound : Bindings} {depth : Nat}

theorem fits_binary {left right : Expr} {operator : Token} {p : Phrase}
    (h : (binary left operator right).fits p = true) :
    ∃ c, operator.kind.chain? = some c ∧ left.fits (.chain c) = true ∧
      right.fits c.next = true := by
  simp only [fits] at h
  cases hchain : operator.kind.chain? with
  | none =>
    rw [hchain] at h
    cases h
  | some c =>
    simp only [hchain, Bool.and_eq_true] at h
    exact ⟨c, rfl, h.1.2, h.2⟩

theorem fits_unary {operator : Token} {operand : Expr} {p : Phrase}
    (h : (unary operator operand).fits p = true) :
    (operator.kind = .plus ∨ operator.kind = .minus) ∧ ∃ q, operand.fits q = true := by
  simp only [fits, Bool.and_eq_true, Bool.or_eq_true, decide_eq_true_eq] at h
  exact ⟨h.1.1, _, h.2⟩

theorem fits_call {name : Text} {args : List Expr} {pos : Int} {p : Phrase}
    (h : (call name args pos).fits p = true) :
    args ≠ [] ∧ ∀ arg ∈ args, arg.fits .expr = true := by
  simp only [fits, Bool.and_eq_true] at h
  refine ⟨?_, (fitsAll_iff args).mp h.2⟩
  rintro rfl
  exact Bool.false_ne_true h.1

/-- **Trees of the grammar fail in ordinary ways only.** -/
theorem Fails.ordinary {e : Expr} {home : Option Text} {failure : Failure}
    (hbodies : scope.env.BodiesFit) (h : Fails scope ctx bound depth e home failure) {p : Phrase}
    (hfits : e.fits p = true) : failure.Ordinary ctx := by
  induction h generalizing p with
  | grouping _ ih => exact ih hfits
  | name => exact .fault nofun
  | left _ ih =>
    obtain ⟨c, -, hleft, -⟩ := fits_binary hfits
    exact ih hleft
  | right _ _ ih =>
    obtain ⟨c, -, -, hright⟩ := fits_binary hfits
    exact ih hright
  | binary _ _ hfails =>
    obtain ⟨c, hchain, -, -⟩ := fits_binary hfits
    exact Token.Kind.binaryValue_ordinary hchain hfails
  | operand _ ih =>
    obtain ⟨-, q, hoperand⟩ := fits_unary hfits
    exact ih hoperand
  | unary _ hfails =>
    obtain ⟨hkind, -⟩ := fits_unary hfits
    exact absurd hfails (Token.Kind.unaryValue_of_sign hkind)
  | argument _ _ ih =>
    obtain ⟨-, hargs⟩ := fits_call hfits
    exact ih (hargs _ (List.mem_append_right _ List.mem_cons_self))
  | unknown => exact .fault nofun
  | builtin hvalues _ hfails =>
    obtain ⟨hne, -⟩ := fits_call hfits
    rcases Builtin.apply_error hfails with rfl | ⟨rfl, -⟩
    · exact .fault nofun
    · -- There are as many values as arguments.
      exact absurd (List.eq_nil_of_length_eq_zero (length_valuesIn hvalues).symm) hne
  | arity => exact .fault nofun
  | limit => exact .fault nofun
  | body _ huser _ _ _ ih => exact ih (hbodies _ _ _ huser)
  | foreign => cases hfits

end Expr
end Reckoner
