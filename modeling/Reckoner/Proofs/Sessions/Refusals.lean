import Reckoner.Proofs.Positions
import Reckoner.Proofs.Sessions.Provenance

/-!
# Refusals

What a request can be refused for, in whatever state a process got to. No text leads to a call
without arguments, to an operator that is none or to a tree that no text has, and the only defect it
can show is a power whose logarithm cannot be taken (`internal_failures_unreachable`). A refusal
points at a token: of the text itself if it is the text that fails, but if the body of a stored
function fails, of the text that defined the function (`refusals_point_at_tokens`).
-/

namespace Reckoner

/-! ## Powers -/

namespace Context

theorem powFinite_ne_none {ctx : Context} (h : ctx.precision + 24 ≤ logLimit) (p q : Bool)
    (a b : Magnitude) : ctx.powFinite p a q b ≠ none := by
  have hlog : ctx.canTakeLog a = true := by
    simp only [canTakeLog, h, decide_true, Bool.or_true]
  simp only [powFinite, hlog, if_true]
  split_ifs
  case neg => cases a.estimate q b <;> exact nofun
  all_goals exact nofun

/-- With the standard precision, every power can be taken. -/
theorem standard_pow_ne_none (x y : Decimal) : standard.pow x y ≠ none := by
  unfold pow
  split
  · split_ifs
    · exact nofun
    · exact powFinite_ne_none (by decide) _ _ _ _
  · exact nofun

end Context

/-! ## Reasons -/

theorem Refusal.code_eq_internal_iff {failure : Failure} :
    (Refusal.ofFailure failure).code = ("INTERNAL" : Text) ↔
      ∃ defect, failure = .defect defect := by
  constructor
  · intro h
    cases failure with
    | defect defect => exact ⟨defect, rfl⟩
    | fault fault pos =>
      cases fault <;> exact absurd h (by simp only [ofFailure, Fault.code]; decide)
  · rintro ⟨defect, rfl⟩
    rfl

theorem Failure.Ordinary.code_ne {ctx : Context} {failure : Failure} (h : failure.Ordinary ctx) :
    (Refusal.ofFailure failure).code ≠ ("EMPTY_ARGUMENTS" : Text) := by
  cases h with
  | @fault fault pos hfault =>
    cases fault with
    | emptyArguments name => exact absurd rfl (hfault name)
    | _ => simp only [Refusal.ofFailure, Fault.code]; decide
  | power _ => simp only [Refusal.ofFailure]; decide

theorem parse_error_ordinary {rounding : Rounding} {text : Text} {failure : Failure}
    (h : Stmt.parse text (Token.scan rounding text) = .error failure) (ctx : Context) :
    failure.Ordinary ctx := by
  rw [Token.scan_eq] at h
  rcases parse_error_cases (fun _ => Token.kind_of_mem_beforeEnd) rfl h with
    ⟨fault, k, t, hmisfit, rfl, -⟩ | ⟨-, fault, pos, hcode, rfl⟩
  · apply Failure.Ordinary.fault
    rintro name rfl
    cases hmisfit
  · apply Failure.Ordinary.fault
    rintro name rfl
    exact absurd hcode (by simp only [Fault.code]; decide)

theorem Stmt.fits_of_evaluated? {stmt : Stmt} {e : Expr} (hfits : stmt.fits = true)
    (h : stmt.evaluated? = some e) : e.fits .expr = true := by
  rcases evaluated?_cases h with rfl | ⟨name, rfl⟩
  · exact hfits
  · exact hfits

theorem Session.FailsIn.ordinary {s : Session} {text : Text} {ctx : Context} {home : Option Text}
    {failure : Failure} (h : s.FailsIn text ctx home failure) (hbodies : s.env.BodiesFit)
    (hdigits : s.settings.displayDigits ≤ maxDisplayPlaces + 1) : failure.Ordinary ctx := by
  cases h with
  | parsing fails => exact parse_error_ordinary fails ctx
  | evaluating parsed evaluated fails =>
    exact fails.ordinary hbodies (Stmt.fits_of_evaluated? (parse_ok_iff.mp parsed).fits evaluated)
  | @showing _ value _ _ fails =>
    obtain ⟨output, hformat⟩ := format_ok hdigits value
    rw [hformat] at fails
    cases fails

/-- **Internal failures cannot be reached from a text.** After every run of events, a request to a
session that can show its values is not refused for a call without arguments, nor for a defect if
powers can be taken. They can as long as no request has been refused for the precision, and if not,
that is the only defect there is. -/
theorem internal_failures_unreachable (events : List Process.Event) {number : Nat}
    {session : Session} {request : Request} {refusal : Refusal} :
    let p := Process.initial.after events
    p.sessions[number]? = some session → session.settings.displayDigits ≤ 1000000001 →
    (p.step (.request number request)).1 = some (.error refusal) →
    refusal.code ≠ ("EMPTY_ARGUMENTS" : Text) ∧
    ((∀ x y, p.shared.context.pow x y ≠ none) → refusal.code ≠ ("INTERNAL" : Text)) ∧
    ((∀ result ∈ Process.initial.results events, ¬ Refusal.reportsLimit result) →
      refusal.code ≠ ("INTERNAL" : Text)) ∧
    (refusal.code = ("INTERNAL" : Text) → refusal = .ofFailure (.defect .logarithmLimit)) := by
  intro p hsession hdigits hrefused
  obtain ⟨failure, hresult, rfl⟩ := Process.result_of_step hsession hrefused
  obtain ⟨home, hfails⟩ := Session.result_error_iff.mp hresult
  have hbodies := (Process.definedBy_after events number session hsession).bodiesFit
  have hordinary := hfails.ordinary hbodies hdigits
  have hpower : (∀ x y, p.shared.context.pow x y ≠ none) →
      (Refusal.ofFailure failure).code ≠ ("INTERNAL" : Text) := by
    intro hpow hcode
    obtain ⟨defect, rfl⟩ := Refusal.code_eq_internal_iff.mp hcode
    cases hordinary with
    | power h => exact hpow _ _ h
  refine ⟨hordinary.code_ne, hpower, ?_, ?_⟩
  · intro hunspoiled
    have hstandard : p.shared.context = .standard := Process.after_unspoiled hunspoiled
    apply hpower
    rw [hstandard]
    exact Context.standard_pow_ne_none
  · intro hcode
    obtain ⟨defect, rfl⟩ := Refusal.code_eq_internal_iff.mp hcode
    cases hordinary with
    | power h => rfl

/-- A body that is negated inside of an argument list, and fails for a name. -/
theorem internal_failures_unreachable_in_body :
    let events : List Process.Event := [.start .default, .request 0 (.commit "f(x)=max(x,-y)")]
    let p := Process.initial.after events
    ∃ session refusal, p.sessions[0]? = some session ∧ session.settings.displayDigits ≤ 1000000001 ∧
      (p.step (.request 0 (.preview "1+f(2)"))).1 = some (.error refusal) ∧
      refusal.code ≠ ("EMPTY_ARGUMENTS" : Text) ∧ refusal.code ≠ ("INTERNAL" : Text) := by
  intro events p
  have hcode : (p.step (.request 0 (.preview "1+f(2)"))).1.bind Refusal.code? =
      some "UNDECLARED_VARIABLE" := by decide +kernel
  have hlimit : ∀ result ∈ Process.initial.results events, ¬ Refusal.reportsLimit result := by
    decide +kernel
  obtain ⟨result, hresult, hsome⟩ := Option.bind_eq_some_iff.mp hcode
  obtain ⟨refusal, rfl, -⟩ := Refusal.of_code? hsome
  obtain ⟨session, hsession, hdigits⟩ : ∃ session, p.sessions[0]? = some session ∧
      session.settings.displayDigits ≤ 1000000001 := ⟨_, rfl, by decide +kernel⟩
  obtain ⟨hempty, -, hinternal, -⟩ :=
    internal_failures_unreachable events hsession hdigits hresult
  exact ⟨session, refusal, hsession, hdigits, hresult, hempty, hinternal hlimit⟩

-- Where the precision is above the digits at hand, a power can be refused as a defect.
example : ((Process.initial.after [.start .default, .request 0 (.commit "sin(10^941)")]).step
    (.request 0 (.commit "2^0.5"))).1.bind Refusal.code? = some "INTERNAL" := by decide +kernel

/-! ## Positions -/

theorem Stmt.positions_of_evaluated? {stmt : Stmt} {e : Expr} (h : stmt.evaluated? = some e) :
    stmt.positions = e.positions := by
  rcases evaluated?_cases h with rfl | ⟨name, rfl⟩
  · rfl
  · rfl

theorem Session.format_ne_fault (s : Session) (value : Decimal) (fault : Fault) (pos : Int) :
    s.format value ≠ .error (.fault fault pos) := by
  intro h
  unfold format at h
  cases hshown : value.display (displayPrecision s.settings.displayDigits) with
  | ok output =>
    rw [hshown] at h
    cases h
  | error count =>
    rw [hshown] at h
    cases h

theorem Text.Defines.startsToken {text name : Text} {params : List Text} {body : Expr}
    (h : text.Defines name params body) {pos : Int} (hpos : pos ∈ body.positions) :
    text.StartsToken pos := by
  obtain ⟨rounding, hparse⟩ := h
  exact parse_ok_startsToken hparse pos hpos

namespace Session.FailsIn

variable {s : Session} {text : Text} {ctx : Context} {fault : Fault} {pos : Int}

theorem startsToken (h : s.FailsIn text ctx none (.fault fault pos)) : text.StartsToken pos := by
  cases h with
  | parsing fails => exact parse_error_startsToken fails
  | evaluating parsed evaluated fails =>
    apply parse_ok_startsToken parsed
    rw [Stmt.positions_of_evaluated? evaluated]
    exact fails.locates fault pos rfl
  | showing _ fails => exact absurd fails (s.format_ne_fault _ fault pos)

theorem in_body {name : Text} (h : s.FailsIn text ctx (some name) (.fault fault pos)) :
    ∃ params body, s.env.function? name = some (.user params body) ∧ pos ∈ body.positions := by
  cases h with
  | evaluating parsed evaluated fails => exact fails.locates fault pos rfl

end Session.FailsIn

/-- **A refusal points at a token of the text that fails.** After every run of events, a refused
request fails for a reason, and if that is a defect, the position is zero. Otherwise it is the
position of a token in the text if the text itself fails, and if the body of a stored function does,
that of a token in the earlier text that was committed to define the function. -/
theorem refusals_point_at_tokens (events : List Process.Event) {number : Nat} {session : Session}
    {request : Request} {refusal : Refusal} :
    let p := Process.initial.after events
    p.sessions[number]? = some session →
    (p.step (.request number request)).1 = some (.error refusal) →
    (∃ home failure, session.FailsIn request.text p.shared.context home failure) ∧
    (refusal.code = ("INTERNAL" : Text) → refusal.pos = 0) ∧
    ∀ home failure, session.FailsIn request.text p.shared.context home failure →
      refusal.code ≠ ("INTERNAL" : Text) →
      (home = none → request.text.StartsToken refusal.pos ∧
        0 ≤ refusal.pos ∧ refusal.pos ≤ request.text.length) ∧
      ∀ name, home = some name → ∃ earlier params body,
        .request number (.commit earlier) ∈ events ∧ earlier.Defines name params body ∧
        session.env.function? name = some (.user params body) ∧
        refusal.pos ∈ body.positions ∧ earlier.StartsToken refusal.pos ∧
        0 ≤ refusal.pos ∧ refusal.pos ≤ earlier.length := by
  intro p hsession hrefused
  obtain ⟨failure, hresult, rfl⟩ := Process.result_of_step hsession hrefused
  obtain ⟨home, hfails⟩ := Session.result_error_iff.mp hresult
  refine ⟨⟨home, failure, hfails⟩, ?_, ?_⟩
  · intro hcode
    obtain ⟨defect, rfl⟩ := Refusal.code_eq_internal_iff.mp hcode
    rfl
  · intro home failure' hfails hcode
    -- A text fails in one way only.
    obtain rfl : failure = failure' :=
      Except.error.inj (hresult.symm.trans (Session.result_error_iff.mpr ⟨home, hfails⟩))
    cases failure with
    | defect defect => exact absurd rfl hcode
    | fault fault pos =>
      constructor
      · rintro rfl
        exact ⟨hfails.startsToken, hfails.startsToken.bounds⟩
      · rintro name rfl
        obtain ⟨params, body, hfunction, hpos⟩ := hfails.in_body
        obtain ⟨earlier, hcommitted, hdefines⟩ :=
          Process.definedBy_after events number session hsession name params body hfunction
        have hstarts := hdefines.startsToken hpos
        exact ⟨earlier, params, body, hcommitted, hdefines, hfunction, hpos, hstarts,
          hstarts.bounds⟩

/-- The code and the position of a refusal. -/
def Refusal.mark? : Except Refusal Answer → Option (Text × Int)
  | .ok _ => none
  | .error refusal => some (refusal.code, refusal.pos)

/-- The `y` of `f(x)=x+y` is what `f(1)` is refused for. -/
theorem call_refused_in_body :
    ∃ refusal, ((Process.initial.after [.start .default, .request 0 (.commit "f(x)=x+y")]).step
        (.request 0 (.commit "f(1)"))).1 = some (.error refusal) ∧
      refusal.code = ("UNDECLARED_VARIABLE" : Text) ∧ refusal.pos = 7 := by
  have hmark : ((Process.initial.after [.start .default, .request 0 (.commit "f(x)=x+y")]).step
      (.request 0 (.commit "f(1)"))).1.bind Refusal.mark? =
        some (("UNDECLARED_VARIABLE" : Text), 7) := by
    decide +kernel
  obtain ⟨result, hresult, hsome⟩ := Option.bind_eq_some_iff.mp hmark
  cases result with
  | ok answer => cases hsome
  | error refusal =>
    obtain ⟨hcode, hpos⟩ := Prod.mk.inj (Option.some.inj hsome)
    exact ⟨refusal, hresult, hcode, hpos⟩

/-- The position is one of the definition. -/
theorem refusals_point_at_tokens_of_definition :
    let events : List Process.Event := [.start .default, .request 0 (.commit "f(x)=x+y")]
    let p := Process.initial.after events
    ∃ session refusal, p.sessions[0]? = some session ∧
      (p.step (.request 0 (.commit "f(1)"))).1 = some (.error refusal) ∧ refusal.pos = 7 ∧
      ∃ name earlier params body, .request 0 (.commit earlier) ∈ events ∧
        earlier.Defines name params body ∧ refusal.pos ∈ body.positions ∧
        earlier.StartsToken refusal.pos := by
  intro events p
  obtain ⟨refusal, hrefused, hcode, hpos⟩ := call_refused_in_body
  obtain ⟨session, hsession⟩ : ∃ session, p.sessions[0]? = some session := ⟨_, rfl⟩
  have hinternal : refusal.code ≠ ("INTERNAL" : Text) := by
    rw [hcode]
    decide
  obtain ⟨⟨home, failure, hfails⟩, -, hplaces⟩ :=
    refusals_point_at_tokens events hsession hrefused
  obtain ⟨htext, hbody⟩ := hplaces home failure hfails hinternal
  cases home with
  | none =>
    -- The text has four units only.
    obtain ⟨-, -, hlength⟩ := htext rfl
    rw [hpos] at hlength
    exact absurd hlength (by decide)
  | some name =>
    obtain ⟨earlier, params, body, hcommitted, hdefines, -, hin, hstarts, -⟩ :=
      hbody name rfl
    exact ⟨session, refusal, hsession, hrefused, hpos, name, earlier, params, body, hcommitted,
      hdefines, hin, hstarts⟩

/-- It is not one of the text that was submitted: it lies behind its end. -/
theorem refusal_points_beyond_text :
    let p := Process.initial.after [.start .default, .request 0 (.commit "f(x)=x+y")]
    ∃ refusal, (p.step (.request 0 (.commit "f(1)"))).1 = some (.error refusal) ∧
      refusal.code = ("UNDECLARED_VARIABLE" : Text) ∧
      (("f(1)" : Text).length : Int) < refusal.pos ∧
      ¬ Text.StartsToken "f(1)" refusal.pos := by
  intro p
  obtain ⟨refusal, hrefused, hcode, hpos⟩ := call_refused_in_body
  have hbeyond : (("f(1)" : Text).length : Int) < refusal.pos := by
    rw [hpos]
    decide
  refine ⟨refusal, hrefused, hcode, hbeyond, ?_⟩
  intro hstarts
  exact absurd hstarts.bounds.2 (Int.not_le.mpr hbeyond)

end Reckoner
