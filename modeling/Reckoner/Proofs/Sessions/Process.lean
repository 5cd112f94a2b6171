import Reckoner.Proofs.Isolation
import Reckoner.Proofs.Sessions.Atomicity

/-!
# All sessions of a process

Sessions of one process share the arithmetic context. It is the standard one until a request, in
whichever session, is refused for the precision. From then on it has more digits than there are of
pi, is cut toward zero, and no sine of a number other than zero is found any more, in any session
(`context_spoiled_for_good`).
-/

namespace Reckoner

/-- The sessions of a process in the order of their start, and what they share. -/
structure Process where
  sessions : List Session
  shared : Shared

inductive Process.Event where
  | start (settings : Settings)
  | request (session : Nat) (request : Request)

namespace Process

def initial : Process := ⟨[], .initial⟩

/-- What comes of an event, if it is a request to a session that there is, and the process
afterwards. -/
def step (p : Process) : Event → Option (Except Refusal Answer) × Process
  | .start settings =>
    let d := Desk.start settings p.shared
    (none, ⟨p.sessions ++ [d.session], d.shared⟩)
  | .request number request =>
    match p.sessions[number]? with
    | none => (none, p)
    | some session =>
      let (result, d) := Desk.handle ⟨session, p.shared⟩ request
      (some result, ⟨p.sessions.set number d.session, d.shared⟩)

/-- The process after a run of events. -/
def after (p : Process) : List Event → Process
  | [] => p
  | event :: rest => (p.step event).2.after rest

/-- What came of the requests of a run. -/
def results (p : Process) : List Event → List (Except Refusal Answer)
  | [] => []
  | event :: rest => (p.step event).1.toList ++ (p.step event).2.results rest

end Process

namespace Refusal

/-- The result is a refusal for the precision. -/
def reportsLimit : Except Refusal Answer → Prop
  | .ok _ => False
  | .error refusal => refusal.forPrecision

instance : DecidablePred reportsLimit
  | .ok _ => .isFalse id
  | .error refusal => inferInstanceAs (Decidable refusal.forPrecision)

theorem reportsLimit_iff {result : Except Failure Answer} :
    reportsLimit (result.mapError .ofFailure) ↔ ∃ pos, result = .error (.fault .sineLimit pos) := by
  cases result with
  | ok answer => exact iff_of_false id nofun
  | error failure =>
    refine forPrecision_iff.trans ?_
    simp only [Except.error.injEq]

end Refusal

/-! ## One event -/

/-- A refused sine raises the precision, since the digits it asks for are added up exactly. -/
theorem Context.Refused.precision_lt {before after : Context} (h : before.Refused after) :
    before.precision < after.precision := by
  obtain ⟨m, -, -, rfl⟩ := h
  simp only [Context.sinePrecision]
  omega

namespace Process

variable {p : Process} {event : Event}

/-- A request that is refused for the precision leaves the context of a refused sine, and any other
event leaves the context that it found. -/
theorem step_context (p : Process) (event : Event) :
    (∃ result, (p.step event).1 = some result ∧ Refusal.reportsLimit result ∧
      p.shared.context.Refused (p.step event).2.shared.context) ∨
    (∀ result, (p.step event).1 = some result → ¬ Refusal.reportsLimit result) ∧
      (p.step event).2.shared.context = p.shared.context := by
  cases event with
  | start settings => exact .inr ⟨nofun, Desk.start_context settings p.shared⟩
  | request number request =>
    simp only [step]
    cases p.sessions[number]? with
    | none => exact .inr ⟨nofun, rfl⟩
    | some session =>
      have hleaves := session.result_leaves request.text p.shared.context
      have hcontext := Desk.handle_context ⟨session, p.shared⟩ request
      have hresult := Desk.handle_result ⟨session, p.shared⟩ request
      simp only [hcontext, hresult, Option.some_inj]
      by_cases hlimit : Refusal.reportsLimit
          ((session.result request.text p.shared.context).mapError .ofFailure)
      · obtain ⟨pos, hpos⟩ := Refusal.reportsLimit_iff.mp hlimit
        exact .inl ⟨_, rfl, hlimit, hleaves.refused_of_eq hpos⟩
      · refine .inr ⟨fun result heq => heq ▸ hlimit, hleaves.eq_of_ne fun pos heq => ?_⟩
        exact hlimit (Refusal.reportsLimit_iff.mpr ⟨pos, heq⟩)

theorem step_spoiled (h : p.shared.context.Spoiled) (event : Event) :
    (p.step event).2.shared.context.Spoiled := by
  rcases step_context p event with ⟨-, -, -, hrefused⟩ | ⟨-, hsame⟩
  · exact hrefused.spoiled
  · rw [hsame]
    exact h

/-! ## Runs of events -/

theorem after_spoiled (h : p.shared.context.Spoiled) (events : List Event) :
    (p.after events).shared.context.Spoiled := by
  induction events generalizing p with
  | nil => exact h
  | cons event rest ih => exact ih (step_spoiled h event)

theorem after_unspoiled {events : List Event}
    (h : ∀ result ∈ p.results events, ¬ Refusal.reportsLimit result) :
    (p.after events).shared.context = p.shared.context := by
  induction events generalizing p with
  | nil => rfl
  | cons event rest ih =>
    have hrest : ∀ result ∈ (p.step event).2.results rest, ¬ Refusal.reportsLimit result :=
      fun result hresult => h result (List.mem_append_right _ hresult)
    rw [after, ih hrest]
    rcases step_context p event with ⟨result, hresult, hlimit, -⟩ | ⟨-, hsame⟩
    · refine absurd hlimit (h result (List.mem_append_left _ ?_))
      rw [hresult]
      exact List.mem_singleton_self result
    · exact hsame

theorem after_refused {events : List Event}
    (h : ∃ result ∈ p.results events, Refusal.reportsLimit result) :
    (p.after events).shared.context.Spoiled := by
  induction events generalizing p with
  | nil =>
    obtain ⟨result, hresult, -⟩ := h
    cases hresult
  | cons event rest ih =>
    obtain ⟨result, hresult, hlimit⟩ := h
    rcases List.mem_append.mp hresult with hnow | hlater
    · rcases step_context p event with ⟨-, -, -, hrefused⟩ | ⟨hnone, -⟩
      · exact after_spoiled hrefused.spoiled rest
      · exact absurd hlimit (hnone result (Option.mem_toList.mp hnow))
    · exact ih ⟨result, hlater, hlimit⟩

end Process

/-! ## The sine in a spoiled context -/

theorem Context.Spoiled.sin_error {ctx : Context} (h : ctx.Spoiled) {m : Magnitude}
    (hzero : m.isZero = false) (negative : Bool) :
    ctx.sin (.finite negative m) = .error ⟨ctx.sinePrecision m, .towardZero⟩ := by
  have hneeds : Context.sineLimit < ctx.sinePrecision m := by
    have hprecision := h.precision
    unfold Context.sinePrecision
    omega
  simp only [Context.sin, hzero, Bool.false_eq_true, if_false, if_pos hneeds]

namespace Expr

variable {scope : Scope} {ctx : Context} {bound : Bindings} {depth : Nat}

theorem valuesIn_of_each {args : List Expr} {values : List Decimal}
    (h : args.map (valueIn scope ctx bound depth) = values.map .ok) :
    valuesIn scope ctx bound depth args = .ok values := by
  induction args generalizing values with
  | nil =>
    cases values with
    | nil => rw [valuesIn]
    | cons value rest => cases h
  | cons e rest ih =>
    cases values with
    | nil => cases h
    | cons value values =>
      rw [List.map_cons, List.map_cons, List.cons.injEq] at h
      rw [valuesIn, h.1, ih h.2]
      rfl

/-- A call of the built-in sine, under whatever frames, fails on any number other than zero. -/
theorem eval_sine_spoiled {machine : Machine} (h : machine.context.Spoiled) {name : Text}
    {args : List Expr} {pos : Int} {negative : Bool} {m : Magnitude} {rest : List Decimal}
    (hname : scope.env.function? name = some (.builtin .sin)) (hzero : m.isZero = false)
    (hargs : args.map (fun e => (e.eval scope machine).1) =
      (.finite negative m :: rest).map .ok) :
    ((call name args pos).eval scope machine).1 = .error (.fault .sineLimit pos) := by
  simp only [(eval_settles scope _ machine).result] at hargs
  rw [(eval_settles scope _ machine).result, valueIn, valuesIn_of_each hargs]
  simp only [hname, bind, Except.bind, Builtin.apply, h.sin_error hzero]

end Expr

/-- **A refused sine spoils the context for good, and nothing else does.** Over every run of
requests to the sessions of a process: the context is the standard one as long as no request has
been refused for the precision. Such a refusal raises the precision, and any other event leaves the
context alone. After the first one the precision is above the digits of pi at hand, rounding goes
toward zero, and in every scope the built-in sine of a finite number other than zero is refused. -/
theorem context_spoiled_for_good (events : List Process.Event) :
    let p := Process.initial.after events
    ((∀ result ∈ Process.initial.results events, ¬ Refusal.reportsLimit result) →
      p.shared.context = ⟨78, .halfEven⟩) ∧
    (∀ event result, (p.step event).1 = some result → Refusal.reportsLimit result →
      p.shared.context.precision < (p.step event).2.shared.context.precision) ∧
    (∀ event, (∀ result, (p.step event).1 = some result → ¬ Refusal.reportsLimit result) →
      (p.step event).2.shared.context = p.shared.context) ∧
    ((∃ result ∈ Process.initial.results events, Refusal.reportsLimit result) →
      1025 < p.shared.context.precision ∧ p.shared.context.rounding = .towardZero ∧
      ∀ (scope : Scope) (frames : List Frame) (name : Text) (args : List Expr) (pos : Int)
        (negative : Bool) (m : Magnitude) (rest : List Decimal),
        scope.env.function? name = some (.builtin .sin) → m.isZero = false →
        args.map (fun e => (e.eval scope ⟨p.shared.context, frames⟩).1) =
          (.finite negative m :: rest).map .ok →
        ((Expr.call name args pos).eval scope ⟨p.shared.context, frames⟩).1 =
          .error (.fault .sineLimit pos)) := by
  refine ⟨fun h => Process.after_unspoiled h, fun event result hresult hlimit => ?_,
    fun event h => ?_, fun h => ?_⟩
  · rcases Process.step_context _ event with ⟨-, -, -, hcontext⟩ | ⟨hnone, -⟩
    · exact hcontext.precision_lt
    · exact absurd hlimit (hnone result hresult)
  · rcases Process.step_context _ event with ⟨result, hresult, hlimit, -⟩ | ⟨-, hsame⟩
    · exact absurd hlimit (h result hresult)
    · exact hsame
  · have hspoiled := Process.after_refused h
    refine ⟨hspoiled.precision, hspoiled.rounding, ?_⟩
    intro scope frames name args pos negative m rest hname hzero hargs
    exact Expr.eval_sine_spoiled hspoiled hname hzero hargs

/-- A sine that is refused in one session is the end of `sin(1)` in another. -/
theorem context_spoiled_for_good_elsewhere :
    let events : List Process.Event :=
      [.start .default, .start .default, .request 0 (.preview "sin(10^941)")]
    let p := Process.initial.after events
    let next : Process.Event := .request 1 (.commit "sin(1)")
    (∃ result ∈ Process.initial.results events, Refusal.reportsLimit result) ∧
    ((Expr.call "sin" [.literal .one 4] 0).eval ⟨.withBuiltins, .zero, 256⟩
      ⟨p.shared.context, []⟩).1 = .error (.fault .sineLimit 0) ∧
    (∃ result, (p.step next).1 = some result ∧ Refusal.reportsLimit result) ∧
    p.shared.context.precision < (p.step next).2.shared.context.precision := by
  intro events p next
  have hrefused : ∃ result ∈ Process.initial.results events, Refusal.reportsLimit result := by
    decide +kernel
  have hagain : ∃ result ∈ (p.step next).1.toList, Refusal.reportsLimit result := by
    decide +kernel
  obtain ⟨result, hmem, hlimit⟩ := hagain
  have hresult := Option.mem_toList.mp hmem
  obtain ⟨-, hraises, -, hspoiled⟩ := context_spoiled_for_good events
  refine ⟨hrefused, ?_, ⟨result, hresult, hlimit⟩, hraises next result hresult hlimit⟩
  exact (hspoiled hrefused).2.2 _ [] "sin" [.literal .one 4] 0 false .one [] rfl rfl rfl

end Reckoner
