import Reckoner.Proofs.Sessions.Outcome

/-!
# Runs of requests

A session and what it shares with others take previews and commits, one after the other. What comes
of a request depends on the session and on the context, never on the log, so two states that agree
on those answer alike for good (`Agrees.trace`). A preview that is not refused for the precision
leads to a state that agrees with the one before, and can be left out of any run
(`previews_do_not_interfere`).
-/

namespace Reckoner

inductive Request where
  | preview (text : Text)
  | commit (text : Text)

def Request.isCommit : Request → Bool
  | .commit _ => true
  | .preview _ => false

def Request.text : Request → Text
  | .preview text => text
  | .commit text => text

/-- The digits of pi at hand were not enough. -/
def Refusal.forPrecision (refusal : Refusal) : Prop := refusal.code = ("PRECISION_LIMIT" : Text)

instance (refusal : Refusal) : Decidable refusal.forPrecision := inferInstanceAs (Decidable (_ = _))

theorem Refusal.forPrecision_iff {failure : Failure} :
    (Refusal.ofFailure failure).forPrecision ↔ ∃ pos, failure = .fault .sineLimit pos := by
  constructor
  · intro h
    cases failure with
    | defect defect => exact absurd h (by simp only [forPrecision, ofFailure]; decide)
    | fault fault pos =>
      cases fault with
      | sineLimit => exact ⟨pos, rfl⟩
      | _ => exact absurd h (by simp only [forPrecision, ofFailure, Fault.code]; decide)
  · rintro ⟨pos, rfl⟩
    exact rfl

/-- A session, and what it shares with others. -/
structure Desk where
  session : Session
  shared : Shared

namespace Desk

/-- A new session at what other sessions share. -/
def start (settings : Settings) (shared : Shared) : Desk :=
  let (session, shared) := Session.start settings shared
  ⟨session, shared⟩

/-- Serves one request. The session goes on with the environment that the run hands back, also
behind a preview: that it is the same one is a result, not a matter of definition. -/
def handle (d : Desk) : Request → Except Refusal Answer × Desk
  | .preview text =>
    let (result, shared) := d.session.preview text d.shared
    (result, ⟨{ d.session with env := (d.session.run false text d.shared).2.1 }, shared⟩)
  | .commit text =>
    let (result, session, shared) := d.session.commit text d.shared
    (result, ⟨session, shared⟩)

/-- Every request of a run, with what came of it. -/
def trace (d : Desk) : List Request → List (Request × Except Refusal Answer)
  | [] => []
  | request :: rest => (request, (d.handle request).1) :: (d.handle request).2.trace rest

/-- The state after a run. -/
def after (d : Desk) : List Request → Desk
  | [] => d
  | request :: rest => (d.handle request).2.after rest

/-- The two differ in their logs at most. -/
structure Agrees (d d' : Desk) : Prop where
  session : d.session = d'.session
  context : d.shared.context = d'.shared.context

variable {d d' : Desk}

theorem after_append (d : Desk) (requests more : List Request) :
    d.after (requests ++ more) = (d.after requests).after more := by
  induction requests generalizing d with
  | nil => rfl
  | cons request rest ih => exact ih (d.handle request).2

theorem trace_append (d : Desk) (requests more : List Request) :
    d.trace (requests ++ more) = d.trace requests ++ (d.after requests).trace more := by
  induction requests generalizing d with
  | nil => rfl
  | cons request rest ih => exact congrArg _ (ih (d.handle request).2)

theorem handle_preview (d : Desk) (text : Text) :
    (d.handle (.preview text)).1 = (d.session.result text d.shared.context).mapError .ofFailure ∧
    (d.handle (.preview text)).2.session = d.session ∧
    (d.handle (.preview text)).2.shared.context = (d.session.outcome text d.shared.context).2 := by
  obtain ⟨hresult, hcontext⟩ := d.session.preview_eq text d.shared
  refine ⟨hresult, ?_, hcontext⟩
  simp only [handle, Session.run_eq, Bool.false_eq_true, if_false]

theorem handle_commit (d : Desk) (text : Text) :
    (d.handle (.commit text)).1 = (d.session.result text d.shared.context).mapError .ofFailure ∧
    (d.handle (.commit text)).2.session = d.session.committed text d.shared.context ∧
    (d.handle (.commit text)).2.shared.context = (d.session.outcome text d.shared.context).2 :=
  d.session.commit_eq text d.shared

theorem handle_result (d : Desk) (request : Request) : (d.handle request).1 =
    (d.session.result request.text d.shared.context).mapError .ofFailure := by
  cases request with
  | preview text => exact (d.handle_preview text).1
  | commit text => exact (d.handle_commit text).1

theorem handle_context (d : Desk) (request : Request) : (d.handle request).2.shared.context =
    (d.session.outcome request.text d.shared.context).2 := by
  cases request with
  | preview text => exact (d.handle_preview text).2.2
  | commit text => exact (d.handle_commit text).2.2

theorem Agrees.symm (h : d.Agrees d') : d'.Agrees d := ⟨h.session.symm, h.context.symm⟩

theorem Agrees.trans {d'' : Desk} (h : d.Agrees d') (h' : d'.Agrees d'') : d.Agrees d'' :=
  ⟨h.session.trans h'.session, h.context.trans h'.context⟩

theorem Agrees.handle (h : d.Agrees d') (request : Request) :
    (d.handle request).1 = (d'.handle request).1 ∧
      (d.handle request).2.Agrees (d'.handle request).2 := by
  obtain ⟨hsession, hcontext⟩ := h
  cases request with
  | preview text =>
    obtain ⟨hr, hs, hc⟩ := d.handle_preview text
    obtain ⟨hr', hs', hc'⟩ := d'.handle_preview text
    rw [hr, hr', hsession, hcontext]
    exact ⟨rfl, by rw [hs, hs', hsession], by rw [hc, hc', hsession, hcontext]⟩
  | commit text =>
    obtain ⟨hr, hs, hc⟩ := d.handle_commit text
    obtain ⟨hr', hs', hc'⟩ := d'.handle_commit text
    rw [hr, hr', hsession, hcontext]
    exact ⟨rfl, by rw [hs, hs', hsession, hcontext], by rw [hc, hc', hsession, hcontext]⟩

/-- States that agree answer alike for good. -/
theorem Agrees.trace (h : d.Agrees d') (requests : List Request) :
    d.trace requests = d'.trace requests ∧ (d.after requests).Agrees (d'.after requests) := by
  induction requests generalizing d d' with
  | nil => exact ⟨rfl, h⟩
  | cons request rest ih =>
    obtain ⟨hresult, hnext⟩ := h.handle request
    obtain ⟨htrace, hafter⟩ := ih hnext
    exact ⟨by rw [Desk.trace, Desk.trace, hresult, htrace], hafter⟩

/-- A preview that is not refused for the precision leads to a state that agrees. -/
theorem Agrees.of_preview {text : Text}
    (h : ∀ refusal, (d.handle (.preview text)).1 = .error refusal → ¬ refusal.forPrecision) :
    (d.handle (.preview text)).2.Agrees d := by
  obtain ⟨hresult, hsession, hcontext⟩ := d.handle_preview text
  have hne (pos : Int) :
      d.session.result text d.shared.context ≠ .error (.fault .sineLimit pos) := by
    intro heq
    rw [heq] at hresult
    exact h _ hresult (Refusal.forPrecision_iff.mpr ⟨pos, rfl⟩)
  refine ⟨hsession, ?_⟩
  rw [hcontext]
  exact (d.session.result_leaves text d.shared.context).eq_of_ne hne

/-- Previews that are not refused for the precision can be left out of a run. -/
theorem trace_commits {requests : List Request}
    (h : ∀ entry ∈ d.trace requests, entry.1.isCommit = false →
      ∀ refusal, entry.2 = .error refusal → ¬ refusal.forPrecision) :
    (d.trace requests).filter (·.1.isCommit) = d.trace (requests.filter Request.isCommit) ∧
      (d.after requests).Agrees (d.after (requests.filter Request.isCommit)) := by
  induction requests generalizing d with
  | nil => exact ⟨rfl, rfl, rfl⟩
  | cons request rest ih =>
    rw [trace, List.forall_mem_cons] at h
    obtain ⟨hfirst, hrest⟩ := h
    obtain ⟨htrace, hafter⟩ := ih hrest
    cases request with
    | commit text =>
      refine ⟨?_, hafter⟩
      rw [trace, List.filter_cons_of_pos rfl, htrace]
      rfl
    | preview text =>
      -- The run without the preview goes on from a state that agrees with the one behind it.
      have hagrees := (Agrees.of_preview (hfirst rfl)).trace (rest.filter Request.isCommit)
      refine ⟨?_, ?_⟩
      · rw [trace, List.filter_cons_of_neg Bool.false_ne_true,
          List.filter_cons_of_neg Bool.false_ne_true, htrace]
        exact hagrees.1
      · rw [List.filter_cons_of_neg Bool.false_ne_true]
        exact ⟨hafter.session.trans hagrees.2.session, hafter.context.trans hagrees.2.context⟩

end Desk

/-- **Previews agree with commits and do not interfere.** From any state a preview and a commit of
the same text return the same, and the preview leaves the session as it was. So, in any run of
requests in which no preview is refused for the precision, every commit returns what it returns in
the run without the previews, and the session ends the same. -/
theorem previews_do_not_interfere (d : Desk) :
    (∀ text, (d.session.preview text d.shared).1 = (d.session.commit text d.shared).1 ∧
      (d.session.run false text d.shared).2.1 = d.session.env ∧
      (d.handle (.preview text)).2.session = d.session) ∧
    ∀ requests : List Request,
      (∀ entry ∈ d.trace requests, entry.1.isCommit = false →
        ∀ refusal, entry.2 = .error refusal → refusal.code ≠ ("PRECISION_LIMIT" : Text)) →
      (d.trace requests).filter (·.1.isCommit) = d.trace (requests.filter Request.isCommit) ∧
      (d.after requests).session = (d.after (requests.filter Request.isCommit)).session := by
  refine ⟨fun text => ⟨?_, ?_, (d.handle_preview text).2.1⟩, fun requests h => ?_⟩
  · rw [(d.session.preview_eq text d.shared).1, (d.session.commit_eq text d.shared).1]
  · simp only [Session.run_eq, Bool.false_eq_true, if_false]
  · obtain ⟨htrace, hafter⟩ := Desk.trace_commits h
    exact ⟨htrace, hafter.session⟩

/-- What a preview would assign is not there for the commits behind it. -/
theorem previews_do_not_interfere_assigning :
    ((Desk.start .default .initial).trace [.commit "x=2", .preview "x=9", .commit "x+1"]).filter
        (·.1.isCommit) =
      (Desk.start .default .initial).trace [.commit "x=2", .commit "x+1"] ∧
    ((Desk.start .default .initial).after [.commit "x=2", .preview "x=9", .commit "x+1"]).session =
      ((Desk.start .default .initial).after [.commit "x=2", .commit "x+1"]).session := by
  have hok : ((Desk.start .default .initial).trace
      [.commit "x=2", .preview "x=9", .commit "x+1"]).all (·.2.isOk) = true := by decide +kernel
  refine (previews_do_not_interfere _).2 _ fun entry hentry _ refusal hrefused => ?_
  have hentryOk := List.all_eq_true.mp hok entry hentry
  rw [hrefused] at hentryOk
  cases hentryOk

end Reckoner
