import Reckoner.Proofs.Interaction.Keys
import Reckoner.Proofs.Sessions.Atomicity

/-!
# The transcript replays, and the status is never stale

The status is worked out when the line or the transcript changes, and the session is not asked again
in between. That is enough, because the session changes together with the transcript only: a preview
leaves it alone, and so does a commit that is refused, two cases apart (`Desk.Agrees.of_refused`).
So the session is at all times what the lines of the transcript make of a new one, and the status
tells what that session has to say about the line (`App.Replays`). What is told is also what is
drawn (`View.Tells`). The main result is `status_never_stale`.
-/

namespace Reckoner

namespace Desk

variable {d : Desk}

/-- A refused commit leads to a state that agrees, if every value can be shown and the refusal is
not for the precision. -/
theorem Agrees.of_refused {text : Text} {refusal : Refusal}
    (hdigits : d.session.settings.displayDigits ≤ maxDisplayPlaces + 1)
    (h : (d.handle (.commit text)).1 = .error refusal) (hrefusal : ¬ refusal.forPrecision) :
    (d.handle (.commit text)).2.Agrees d := by
  obtain ⟨failure, hresult, rfl, hsession⟩ := commit_error h
  have hkept : d.session.kept text d.shared.context = d.session.env := by
    refine Session.kept_eq_self_iff.mpr ?_
    intro name member hbinds
    exact absurd hbinds (Session.not_binds_of_error hdigits hresult name member)
  constructor
  · rw [hsession, hkept]
  · rw [d.handle_context]
    refine (d.session.result_leaves text d.shared.context).eq_of_ne ?_
    intro pos hlimit
    refine hrefusal (Refusal.forPrecision_iff.mpr ⟨pos, ?_⟩)
    exact Except.error.inj (hresult.symm.trans hlimit)

theorem settings_handle (d : Desk) (request : Request) :
    (d.handle request).2.session.settings = d.session.settings := by
  cases request with
  | preview text => rw [(d.handle_preview text).2.1]
  | commit text =>
    rw [(d.handle_commit text).2.1, Session.committed]
    split <;> rfl

theorem settings_after (d : Desk) (requests : List Request) :
    (d.after requests).session.settings = d.session.settings := by
  induction requests generalizing d with
  | nil => rfl
  | cons request rest ih => exact (ih _).trans (d.settings_handle request)

/-- No request of a run is refused for the precision. -/
def Unlimited (d : Desk) (requests : List Request) : Prop :=
  ∀ entry ∈ d.trace requests, ∀ refusal, entry.2 = .error refusal → ¬ refusal.forPrecision

theorem unlimited_append {requests more : List Request} :
    d.Unlimited (requests ++ more) ↔ d.Unlimited requests ∧ (d.after requests).Unlimited more := by
  unfold Unlimited
  rw [d.trace_append]
  exact List.forall_mem_append

theorem agrees_previews {line : Text} (h : d.Unlimited (App.previews line)) :
    (d.after (App.previews line)).Agrees d := by
  unfold App.previews at h ⊢
  split at h
  · rename_i hblank
    rw [if_pos hblank]
    exact ⟨rfl, rfl⟩
  · rename_i hblank
    rw [if_neg hblank]
    refine Agrees.of_preview ?_
    intro refusal hrefused
    exact h _ List.mem_cons_self refusal hrefused

end Desk

namespace App

/-- The lines of the transcript, to be committed again. -/
def commits (app : App) : List Request := app.transcript.map fun e => .commit e.input

/-- The lines of the transcript lead from the start to the state of the calculator and give the
outputs that are recorded, and the status tells about the line. -/
structure Replays (start : Desk) (app : App) : Prop where
  agrees : app.desk.Agrees (start.after app.commits)
  outputs : (start.trace app.commits).map (fun entry => entry.2.map Answer.output) =
    app.transcript.map fun e => .ok e.output
  status : app.status.Tells app.desk app.editor.input

variable {start : Desk} {app next : App} {asked : List Request}

theorem Replays.settings (h : app.Replays start) :
    app.desk.session.settings = start.session.settings := by
  rw [h.agrees.session]
  exact start.settings_after app.commits

/-- As long as the transcript and the session stay, a status that tells about the line is all it
takes. -/
theorem Replays.of_agrees (h : app.Replays start) (hagrees : next.desk.Agrees app.desk)
    (htranscript : next.transcript = app.transcript)
    (hstatus : next.status.Tells app.desk next.editor.input) : next.Replays start := by
  have hcommits : next.commits = app.commits := by
    unfold commits
    rw [htranscript]
  constructor
  · rw [hcommits]
    exact hagrees.trans h.agrees
  · rw [hcommits, htranscript]
    exact h.outputs
  · exact hstatus.of_agrees hagrees.symm

theorem Replays.edit (h : app.Replays start) {e : Edit} (typed : e.Typed)
    (hlimit : app.desk.Unlimited (app.editRequests e)) : (app.edit e).Replays start := by
  have hstep : app.Step (app.editRequests e) (app.edit e) := .edit typed
  rcases app.edit_cases e with ⟨hline, -, hedit⟩ | ⟨status, htells, hasked, hedit⟩
  · rw [hedit]
    exact h.of_agrees ⟨rfl, rfl⟩ rfl (hline ▸ h.status)
  · have hagrees : (app.edit e).desk.Agrees app.desk := by
      rw [hstep.desk, hasked]
      rw [hasked] at hlimit
      exact Desk.agrees_previews hlimit
    refine h.of_agrees hagrees (app.edit_records e).1 ?_
    rw [hedit]
    exact htells

theorem Replays.commit (h : app.Replays start)
    (hdigits : start.session.settings.displayDigits ≤ maxDisplayPlaces + 1)
    (hlimit : app.desk.Unlimited [.commit app.editor.input]) : app.commit.Replays start := by
  rcases app.commit_cases with ⟨answer, hanswer, hcommit⟩ | ⟨refusal, hrefused, hcommit⟩
  · -- The replayed session agrees, so it gives the same answer and agrees afterwards.
    obtain ⟨hresult, hnext⟩ := h.agrees.handle (.commit app.editor.input)
    have hcommits : app.commit.commits = app.commits ++ [.commit app.editor.input] := by
      rw [hcommit]
      exact List.map_append
    constructor
    · rw [hcommits, start.after_append, hcommit]
      exact hnext
    · rw [hcommits, start.trace_append, List.map_append, h.outputs, hcommit, List.map_append]
      congr 1
      have hreplayed : ((start.after app.commits).handle (.commit app.editor.input)).1 =
          .ok answer :=
        hresult.symm.trans hanswer
      simp only [Desk.trace, List.map_cons, List.map_nil, hreplayed]
      rfl
    · rw [hcommit]
      exact .blank rfl
  · have hrefusal : ¬ refusal.forPrecision := hlimit _ List.mem_cons_self refusal hrefused
    have hagrees := Desk.Agrees.of_refused (h.settings ▸ hdigits) hrefused hrefusal
    rw [hcommit]
    exact h.of_agrees hagrees rfl h.status

theorem Replays.step (h : app.Replays start)
    (hdigits : start.session.settings.displayDigits ≤ maxDisplayPlaces + 1)
    (hstep : app.Step asked next) (hlimit : app.desk.Unlimited asked) : next.Replays start := by
  cases hstep with
  | idle => exact h
  | edit typed => exact h.edit typed hlimit
  | commit => exact h.commit hdigits hlimit

theorem Replays.initial (settings : Settings) :
    (App.start settings).Replays (Desk.start settings .initial) :=
  ⟨⟨rfl, rfl⟩, rfl, .blank rfl⟩

/-- **After any keys the transcript replays and the status is fresh**, while nothing was refused for
the precision. -/
theorem Replays.after {settings : Settings} {keys : List KeyPress}
    (hdigits : settings.displayDigits ≤ maxDisplayPlaces + 1)
    (h : (App.start settings).after keys = some app)
    (hlimit : (App.start settings).desk.Unlimited ((App.start settings).requested keys)) :
    app.Replays (Desk.start settings .initial) := by
  refine after_induction
    (P := fun before app => (App.start settings).desk.Unlimited before →
      app.Replays (Desk.start settings .initial)) (fun _ => .initial settings) ?_ h hlimit
  intro before app asked next hdesk hbefore hstep hunlimited
  obtain ⟨hearlier, hnow⟩ := Desk.unlimited_append.mp hunlimited
  rw [← hdesk] at hnow
  exact (hbefore hearlier).step hdigits hstep hnow

end App

/-! ## What is drawn -/

/-- The status bar that is drawn for a line: the hint for a blank one, and for any other the output
of its preview behind a label, or the message of the refusal. -/
inductive View.Tells (d : Desk) (line : Text) : View → Prop where
  | hint (h : line.allBlank = true) : Tells d line (.box { paddingX := some 1, height := some 1 }
      [.text { dim := true }
        [.plain "Enter: evaluate | Tab: complete | Up/Down: history | Esc: exit"]])
  | result {answer : Answer} (hline : line.allBlank = false)
      (h : (d.session.preview line d.shared).1 = .ok answer) :
      Tells d line (.box { paddingX := some 1, height := some 1 }
        [.text {} [.plain "Current result ", .text { color := some .red } [.plain answer.output]]])
  | error {refusal : Refusal} (hline : line.allBlank = false)
      (h : (d.session.preview line d.shared).1 = .error refusal) :
      Tells d line (.box { paddingX := some 1, height := some 1 }
        [.text { color := some .yellow } [.plain refusal.message]])

theorem Status.Tells.drawn {d : Desk} {line : Text} {status : Status} (h : status.Tells d line) :
    View.Tells d line (View.status status) := by
  cases h with
  | blank hblank => exact .hint hblank
  | result hline hanswer => exact .result hline hanswer
  | error hline hrefusal => exact .error hline hrefusal

/-- A line has one bar only. -/
theorem Status.Tells.bar_eq {d : Desk} {line : Text} {status : Status} {bar : View}
    (h : status.Tells d line) (hbar : View.Tells d line bar) : bar = View.status status := by
  cases h with
  | blank hblank =>
    cases hbar with
    | hint => rfl
    | result hline => cases hblank.symm.trans hline
    | error hline => cases hblank.symm.trans hline
  | result hline hanswer =>
    cases hbar with
    | hint hblank => cases hblank.symm.trans hline
    | result _ hanswer' => cases hanswer.symm.trans hanswer'; rfl
    | error _ hrefused => cases hanswer.symm.trans hrefused
  | error hline hrefused =>
    cases hbar with
    | hint hblank => cases hblank.symm.trans hline
    | result _ hanswer => cases hrefused.symm.trans hanswer
    | error _ hrefused' => cases hrefused.symm.trans hrefused'; rfl

/-- **The transcript replays, and the status is never stale.** For any settings that do not ask for
more digits than can be shown, and any keys, one at a time, of whose previews and commits none was
refused for the precision: committing the lines of the transcript to a new session with the same
settings, in a process whose context is as at the start, gives the recorded outputs one by one and
the environment and the last result of the calculator. The status is what that session has to say
about the line, and so is the bar that is drawn, between the header and the line: the output of its
preview or the message of the refusal, and the hint if the line is blank. -/
theorem status_never_stale (settings : Settings) (hdigits : settings.displayDigits ≤ 1000000001)
    (keys : List KeyPress) {app : App} (h : (App.start settings).after keys = some app)
    (hlimit : ∀ entry ∈ (App.start settings).desk.trace ((App.start settings).requested keys),
      ∀ refusal, entry.2 = .error refusal → refusal.code ≠ ("PRECISION_LIMIT" : Text))
    (shared : Shared) (hshared : shared.context = .standard) :
    let fresh := Desk.start settings shared
    let commits := app.transcript.map fun e => Request.commit e.input
    let replayed := fresh.after commits
    (fresh.trace commits).map (fun entry => entry.2.map Answer.output) =
      app.transcript.map (fun e => .ok e.output) ∧
    replayed.session.env = app.session.env ∧ replayed.session.last = app.session.last ∧
    app.status.Tells replayed app.editor.input ∧
    ∃ transcript header bar below,
      app.view = .box { column := true } (transcript :: header :: bar :: below) ∧
      View.Tells replayed app.editor.input bar := by
  intro fresh commits replayed
  have hreplays := App.Replays.after hdigits h hlimit
  have hfresh : fresh.Agrees (Desk.start settings .initial) := by
    constructor
    · rfl
    · rw [Desk.start_context, Desk.start_context, hshared]
      rfl
  obtain ⟨htrace, hafter⟩ := hfresh.trace commits
  have hagrees : app.desk.Agrees replayed := hreplays.agrees.trans hafter.symm
  have htells := hreplays.status.of_agrees hagrees
  refine ⟨?_, ?_, ?_, htells, ⟨_, _, _, _, rfl, htells.drawn⟩⟩
  · rw [htrace]
    exact hreplays.outputs
  · exact congrArg Session.env hagrees.session.symm
  · exact congrArg Session.last hagrees.session.symm

/-- A refused commit comes between the line of the transcript and the line that is previewed, whose
result is on the screen. -/
theorem status_never_stale_after_refusal :
    let keys : List KeyPress := [{ input := "x=2" }, { enter := true }, { input := "x+z" },
      { enter := true }, { backspace := true }, { input := "3" }]
    ∃ app, (App.start .default).after keys = some app ∧ app.status = .result "5" ∧
      app.transcript.map Entry.input = (["x=2"] : List Text) ∧
      app.status.Tells
        ((Desk.start .default .initial).after (app.transcript.map fun e => .commit e.input))
        app.editor.input ∧
      ∃ transcript header below, app.view = .box { column := true } (transcript :: header ::
        .box { paddingX := some 1, height := some 1 }
          [.text {} [.plain "Current result ", .text { color := some .red } [.plain "5"]]] ::
        below) := by
  intro keys
  have hstate : ((App.start .default).after keys).map
      (fun app => (app.status, app.transcript.map Entry.input)) =
      some (.result "5", (["x=2"] : List Text)) := by
    decide +kernel
  obtain ⟨app, happ, hfacts⟩ := Option.map_eq_some_iff.mp hstate
  obtain ⟨hstatus, hlines⟩ := Prod.mk.inj hfacts
  have hcodes : ((App.start .default).desk.trace ((App.start .default).requested keys)).all
      (fun entry => Refusal.code? entry.2 ≠ some "PRECISION_LIMIT") = true := by
    decide +kernel
  obtain ⟨-, -, -, htells, transcript, header, bar, below, hview, hbar⟩ :=
    status_never_stale .default (by decide) keys happ
      (fun entry hentry refusal hrefused hcode => by
        have hother := of_decide_eq_true (List.all_eq_true.mp hcodes entry hentry)
        rw [hrefused] at hother
        exact hother (congrArg some hcode)) .initial rfl
  refine ⟨app, happ, hstatus, hlines, htells, transcript, header, below, ?_⟩
  rw [hview, htells.bar_eq hbar, hstatus]
  rfl

end Reckoner
