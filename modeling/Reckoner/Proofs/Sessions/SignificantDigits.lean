import Reckoner.Proofs.ReadBack
import Reckoner.Proofs.Sessions.Fold
import Reckoner.Proofs.Sessions.Provenance
import Reckoner.Proofs.Watched

/-!
# The precision of all that is stored

Everything that a session stores is a literal, a value that was found, or zero. Literals have at
most 78 digits and values at most as many as the working precision, which is never lowered. So the
last result, the variables and the literals of stored bodies of every session are within the
precision of the moment (`Process.Within.step`), and so is every answer. As long as the precision is
78, whoever asks for as many digits is shown the exact value (`digits_within_precision`).
-/

namespace Reckoner

/-! ## What is kept -/

theorem Member.Within.mono {digits more : Nat} {member : Member} (h : member.Within digits)
    (hmore : digits ≤ more) : member.Within more := by
  cases member with
  | value value => exact Decimal.Within.mono h hmore
  | function function =>
    intro value hvalue
    exact (h value hvalue).mono hmore

namespace Environment

variable {digits : Nat} {env : Environment}

theorem Within.mono {more : Nat} (h : env.Within digits) (hmore : digits ≤ more) :
    env.Within more := by
  intro name member hfound
  exact (h name member hfound).mono hmore

theorem Within.set (h : env.Within digits) (name : Text) {member : Member}
    (hmember : member.Within digits) : (env.set name member).Within digits := by
  intro other found hfound
  rw [find?_set] at hfound
  split at hfound
  · cases hfound
    exact hmember
  · exact h other found hfound

theorem within_withBuiltins : withBuiltins.Within digits := by
  refine List.foldlRecOn Builtin.all _ ?_ ?_
  · intro name member hfound
    cases hfound
  · intro env h b _
    exact h.set b.name nofun

theorem Within.keep (h : env.Within digits) {stmt : Stmt} {value : Decimal}
    (hvalue : value.Within digits) (hliterals : ∀ literal ∈ stmt.literals, literal.Within digits) :
    (env.keep (stmt.binding? value)).Within digits := by
  cases stmt with
  | expression expr => exact h
  | variableAssignment name e => exact h.set name hvalue
  | functionAssignment name params body => exact h.set name hliterals
  | foreign node => exact h

end Environment

/-! ## Texts -/

namespace Session

variable {s : Session} {text : Text} {ctx : Context}

/-- No body is run in the session with an argument beyond the precision: evaluating the expression
of any text under watch is evaluating it. -/
def CallsWithin (s : Session) (ctx : Context) : Prop :=
  ∀ text stmt e alarm, Stmt.parse text (Token.scan ctx.rounding text) = .ok stmt →
    stmt.evaluated? = some e →
    e.evalWatched Machine.Within alarm s.scope ⟨ctx, []⟩ = e.eval s.scope ⟨ctx, []⟩

theorem literals_within (hctx : Context.standardPrecision ≤ ctx.precision) {stmt : Stmt}
    (hparse : Stmt.parse text (Token.scan ctx.rounding text) = .ok stmt) :
    ∀ literal ∈ stmt.literals, literal.Within ctx.precision := by
  intro literal hliteral
  exact (Stmt.literals_within hparse hliteral).mono hctx

theorem eval_bounded (hctx : Context.standardPrecision ≤ ctx.precision)
    (hs : s.scope.Within ctx.precision) {stmt : Stmt} {e : Expr}
    (hparse : Stmt.parse text (Token.scan ctx.rounding text) = .ok stmt)
    (he : stmt.evaluated? = some e) (alarm : Failure) :
    Evaluator.Bounded ⟨ctx, []⟩ (·.Within ctx.precision) (e.eval s.scope)
      (e.evalWatched Machine.Within alarm s.scope) := by
  have hpos : 0 < ctx.precision := Nat.lt_of_lt_of_le (by decide) hctx
  have hliterals := literals_within hctx hparse
  refine Expr.eval_bounded alarm hpos hs nofun ?_
  rcases Stmt.evaluated?_cases he with rfl | ⟨name, rfl⟩
  · exact hliterals
  · exact hliterals

theorem callsWithin (hctx : Context.standardPrecision ≤ ctx.precision)
    (hs : s.scope.Within ctx.precision) : s.CallsWithin ctx := by
  intro text stmt e alarm hparse he
  exact (eval_bounded hctx hs hparse he alarm).same

theorem outcome_within (hctx : Context.standardPrecision ≤ ctx.precision)
    (hs : s.scope.Within ctx.precision) {stmt : Stmt} {value : Decimal}
    (h : (s.outcome text ctx).1 = .ok (stmt, value)) : value.Within ctx.precision := by
  obtain ⟨hparse, hvalue⟩ := outcome_ok h
  have hpos : 0 < ctx.precision := Nat.lt_of_lt_of_le (by decide) hctx
  have hevaluated {e : Expr} (he : stmt.evaluated? = some e)
      (htop : (Stmt.evalTop s.scope ctx e).1 = .ok value) : value.Within ctx.precision :=
    ((eval_bounded hctx hs hparse he (.defect .logarithmLimit)).found value htop).2
  cases stmt with
  | expression expr => exact hevaluated rfl hvalue
  | variableAssignment name e => exact hevaluated rfl hvalue
  | functionAssignment name params body =>
    cases hvalue
    exact Decimal.within_one false hpos
  | foreign node => cases hvalue

theorem kept_within (hctx : Context.standardPrecision ≤ ctx.precision)
    (hs : s.scope.Within ctx.precision) : (s.kept text ctx).Within ctx.precision := by
  unfold kept
  split
  · exact hs.env
  · rename_i stmt value h
    exact hs.env.keep (outcome_within hctx hs h) (literals_within hctx (outcome_ok h).1)

theorem committed_within (hctx : Context.standardPrecision ≤ ctx.precision)
    (hs : s.scope.Within ctx.precision) : (s.committed text ctx).scope.Within ctx.precision := by
  have hkept : (s.kept text ctx).Within ctx.precision := kept_within hctx hs
  unfold committed
  split
  · exact ⟨hkept, hs.last⟩
  · rename_i answer h
    exact ⟨hkept, outcome_within hctx hs (result_ok h).1⟩

end Session

theorem Scope.Within.mono {digits more : Nat} {scope : Scope} (h : scope.Within digits)
    (hmore : digits ≤ more) : scope.Within more :=
  ⟨h.env.mono hmore, h.last.mono hmore⟩

/-! ## Runs of events -/

namespace Process

/-- All sessions store numbers within the precision only, which is at least that of literals. -/
structure Within (p : Process) : Prop where
  least : Context.standardPrecision ≤ p.shared.context.precision
  session : ∀ s ∈ p.sessions, s.scope.Within p.shared.context.precision

variable {p : Process}

theorem precision_step (p : Process) (event : Event) :
    p.shared.context.precision ≤ (p.step event).2.shared.context.precision := by
  rcases step_context p event with ⟨-, -, -, hrefused⟩ | ⟨-, hsame⟩
  · exact hrefused.precision_le
  · rw [hsame]

theorem precision_after (p : Process) (events : List Event) :
    p.shared.context.precision ≤ (p.after events).shared.context.precision := by
  induction events generalizing p with
  | nil => exact Nat.le_refl _
  | cons event rest ih => exact Nat.le_trans (precision_step p event) (ih _)

theorem within_initial : initial.Within := ⟨Nat.le_refl _, nofun⟩

/-- The session that a request leaves behind. -/
theorem Within.handle (h : p.Within) {s : Session} (hs : s ∈ p.sessions) (request : Request) :
    (Desk.handle ⟨s, p.shared⟩ request).2.session.scope.Within p.shared.context.precision := by
  cases request with
  | preview text =>
    rw [(Desk.handle_preview ⟨s, p.shared⟩ text).2.1]
    exact h.session s hs
  | commit text =>
    rw [(Desk.handle_commit ⟨s, p.shared⟩ text).2.1]
    exact Session.committed_within h.least (h.session s hs)

/-- A session behind an event was there before, is new, or has taken a request. -/
theorem session_of_step {event : Event} {s : Session} (hs : s ∈ (p.step event).2.sessions) :
    s ∈ p.sessions ∨ (∃ settings, s = (Desk.start settings p.shared).session) ∨
      ∃ before ∈ p.sessions, ∃ request,
        s = (Desk.handle ⟨before, p.shared⟩ request).2.session := by
  cases event with
  | start settings =>
    rcases List.mem_append.mp hs with hold | hnew
    · exact .inl hold
    · exact .inr (.inl ⟨settings, List.mem_singleton.mp hnew⟩)
  | request number request =>
    cases hsession : p.sessions[number]? with
    | none =>
      simp only [Process.step, hsession] at hs
      exact .inl hs
    | some before =>
      rw [step_request hsession request] at hs
      rcases List.mem_or_eq_of_mem_set hs with hold | hnew
      · exact .inl hold
      · exact .inr (.inr ⟨before, List.mem_of_getElem? hsession, request, hnew⟩)

/-- What comes of an event comes of a request to one of the sessions. -/
theorem request_of_step {event : Event} {result : Except Refusal Answer}
    (h : (p.step event).1 = some result) : ∃ s ∈ p.sessions, ∃ request,
      result = (Desk.handle ⟨s, p.shared⟩ request).1 := by
  cases event with
  | start settings => cases h
  | request number request =>
    cases hsession : p.sessions[number]? with
    | none =>
      simp only [Process.step, hsession] at h
      cases h
    | some s =>
      rw [step_request hsession request] at h
      exact ⟨s, List.mem_of_getElem? hsession, request, (Option.some.inj h).symm⟩

theorem Within.step (h : p.Within) (event : Event) : (p.step event).2.Within := by
  have hmore := precision_step p event
  refine ⟨Nat.le_trans h.least hmore, ?_⟩
  intro s hs
  refine Scope.Within.mono ?_ hmore
  rcases session_of_step hs with hold | ⟨settings, rfl⟩ | ⟨before, hbefore, request, rfl⟩
  · exact h.session s hold
  · exact ⟨Environment.within_withBuiltins, Decimal.within_zero⟩
  · exact h.handle hbefore request

theorem Within.after (h : p.Within) (events : List Event) : (p.after events).Within := by
  induction events generalizing p with
  | nil => exact h
  | cons event rest ih => exact ih (h.step event)

theorem Within.answer (h : p.Within) {event : Event} {answer : Answer}
    (hanswer : (p.step event).1 = some (.ok answer)) :
    answer.value.Within p.shared.context.precision := by
  obtain ⟨s, hs, request, hresult⟩ := request_of_step hanswer
  rw [Desk.handle_result] at hresult
  obtain ⟨houtcome, -⟩ := Session.result_ok (ok_of_mapError hresult.symm)
  exact Session.outcome_within h.least (h.session s hs) houtcome

/-- Every answer of a run is within the precision at its end. -/
theorem Within.results (h : p.Within) {events : List Event} {answer : Answer}
    (hanswer : .ok answer ∈ p.results events) :
    answer.value.Within (p.after events).shared.context.precision := by
  induction events generalizing p with
  | nil => cases hanswer
  | cons event rest ih =>
    rcases List.mem_append.mp hanswer with hnow | hlater
    · exact (h.answer (Option.mem_toList.mp hnow)).mono (precision_after p (event :: rest))
    · exact ih (h.step event) hlater

end Process

/-- **All numbers are within the precision.** In whatever state the events of a process have left
its sessions, the precision is at least the 78 digits it began with, and no further events lower it.
The last result, the variables and the literals of stored bodies of every session are within it, and
so are the arguments of all calls while any text is evaluated, and all answers. As long as nothing
was refused for the precision, what is shown of a finite answer with 78 digits or more is the answer
itself. -/
theorem digits_within_precision (events : List Process.Event) :
    let p := Process.initial.after events
    let precision := p.shared.context.precision
    Process.initial.shared.context.precision = 78 ∧ 78 ≤ precision ∧
    (∀ more, precision ≤ (p.after more).shared.context.precision) ∧
    (∀ s ∈ p.sessions, s.last.Within precision ∧
      (∀ name value, s.env.value? name = some value → value.Within precision) ∧
      (∀ name function, s.env.function? name = some function →
        ∀ value ∈ function.literals, value.Within precision) ∧
      s.CallsWithin p.shared.context) ∧
    (∀ answer, .ok answer ∈ Process.initial.results events → answer.value.Within precision) ∧
    ((∀ result ∈ Process.initial.results events, ¬ Refusal.reportsLimit result) →
      ∀ answer, .ok answer ∈ Process.initial.results events →
      ∀ (digits : ℚ) (text : Text) (q : ℚ), 78 ≤ digits →
        answer.value.display (displayPrecision digits) = .ok text → answer.value.number? = some q →
        (Decimal.read? text).bind Decimal.number? = some q) := by
  intro p precision
  have hwithin : p.Within := Process.within_initial.after events
  have hanswers (answer : Answer) (hanswer : .ok answer ∈ Process.initial.results events) :
      answer.value.Within precision := Process.within_initial.results hanswer
  refine ⟨rfl, hwithin.least, p.precision_after, ?_, hanswers, ?_⟩
  · intro s hs
    obtain ⟨henv, hlast⟩ := hwithin.session s hs
    exact ⟨hlast, fun name value => henv.value, fun name function => henv.function,
      Session.callsWithin hwithin.least ⟨henv, hlast⟩⟩
  · intro hunspoiled answer hanswer digits text q hdigits hshown hnumber
    have hcontext : p.shared.context = Context.standard := Process.after_unspoiled hunspoiled
    have hprecision : precision ≤ displayPrecision digits := by
      have hasked : 78 ≤ displayPrecision digits := le_displayPrecision (by exact_mod_cast hdigits)
      simp only [precision, hcontext]
      exact hasked
    have hpos : 0 < displayPrecision digits :=
      Nat.lt_of_lt_of_le (by decide : 0 < 78) (hwithin.least.trans hprecision)
    exact Decimal.number?_of_display hpos ((hanswers answer hanswer).mono hprecision) hshown hnumber

/-- An endless quotient goes through a variable, a sign and a call, and all of its 78 digits are
shown. -/
theorem digits_within_precision_in_call :
    let events : List Process.Event := [.start .default, .request 0 (.commit "x=2/3"),
      .request 0 (.commit "f(a)=1*a"), .request 0 (.commit "f(-x)")]
    let p := Process.initial.after events
    (∃ s ∈ p.sessions, ∃ x f one, s.env.value? "x" = some x ∧ x.Within 78 ∧
      s.env.function? "f" = some f ∧ one ∈ f.literals ∧ one.Within 78) ∧
    ∃ answer text q, .ok answer ∈ Process.initial.results events ∧
      answer.value.display (displayPrecision 80) = .ok text ∧ answer.value.number? = some q ∧
      (Decimal.read? text).bind Decimal.number? = some q := by
  intro events p
  obtain ⟨-, -, -, hsessions, -, hshows⟩ := digits_within_precision events
  have hprecision : p.shared.context.precision = 78 := by decide +kernel
  have hstored : (p.sessions.head?.bind fun s => (s.env.value? "x").bind fun _ =>
      (s.env.function? "f").bind fun f => f.literals.head?).isSome = true := by decide +kernel
  have hanswered : ((Process.initial.results events).getLast?.bind fun result =>
      result.toOption.bind fun answer => (answer.value.display (displayPrecision 80)).toOption.bind
        fun _ => answer.value.number?).isSome = true := by decide +kernel
  have hunspoiled : ∀ result ∈ Process.initial.results events, ¬ Refusal.reportsLimit result := by
    decide +kernel
  constructor
  · obtain ⟨one, h⟩ := Option.isSome_iff_exists.mp hstored
    obtain ⟨s, hs, h⟩ := Option.bind_eq_some_iff.mp h
    obtain ⟨x, hx, h⟩ := Option.bind_eq_some_iff.mp h
    obtain ⟨f, hf, hone⟩ := Option.bind_eq_some_iff.mp h
    have hmem := List.mem_of_mem_head? hs
    obtain ⟨-, hvalue, hliteral, -⟩ := hsessions s hmem
    rw [← hprecision]
    exact ⟨s, hmem, x, f, one, hx, hvalue "x" x hx, hf, List.mem_of_mem_head? hone,
      hliteral "f" f hf one (List.mem_of_mem_head? hone)⟩
  · obtain ⟨q, h⟩ := Option.isSome_iff_exists.mp hanswered
    obtain ⟨result, hresult, h⟩ := Option.bind_eq_some_iff.mp h
    obtain ⟨answer, hok, h⟩ := Option.bind_eq_some_iff.mp h
    obtain ⟨text, hshown, hnumber⟩ := Option.bind_eq_some_iff.mp h
    have hanswer : .ok answer ∈ Process.initial.results events := by
      rw [← eq_ok_of_toOption hok]
      exact List.mem_of_mem_getLast? hresult
    have htext := eq_ok_of_toOption hshown
    exact ⟨answer, text, q, hanswer, htext, hnumber,
      hshows hunspoiled answer hanswer 80 text q (by norm_num) htext hnumber⟩

end Reckoner
