import Reckoner.App
import Reckoner.Proofs.Sessions.Requests

/-!
# What keys do

A key leaves the calculator as it is, or edits the line, or commits it (`App.Step`). The session is
asked on two occasions: an edited line that differs from the one before is previewed unless it is
blank, and the enter key commits a line if no list is open and the line is not blank. So the session
and what it shares are, after any keys, those of a session that was given these requests and no
others (`App.Step.desk`, `App.desk_after`). What holds at the start and is kept by every step holds
after any keys (`App.after_induction`).
-/

namespace Reckoner

/-! ## Commands -/

/-- The edit is one that a key may ask for: no submission, and nothing but printable text. -/
structure Edit.Typed (e : Edit) : Prop where
  notSubmit : e ≠ .submit
  printable : ∀ text, e = .insert text → text.isPrintable = true

/-- Whatever the command edits is typed. -/
def Command.Typed (command : Command) : Prop := ∀ e, command = .edit e → e.Typed

theorem Command.Typed.ite {c : Prop} [Decidable c] {yes no : Command} (hyes : c → yes.Typed)
    (hno : no.Typed) : (if c then yes else no).Typed := by
  split
  · rename_i h
    exact hyes h
  · exact hno

theorem KeyPress.command_typed (key : KeyPress) : key.command.Typed := by
  have hplain {e : Edit} (hsubmit : e ≠ .submit) (hinsert : ∀ text, e ≠ .insert text) :
      (Command.edit e).Typed := by
    intro e' heq
    cases heq
    exact ⟨hsubmit, fun text htext => absurd htext (hinsert text)⟩
  refine .ite (fun _ => nofun) <| .ite (fun _ => hplain nofun nofun) <| .ite (fun _ => nofun) <|
    .ite (fun _ => hplain nofun nofun) <| .ite (fun _ => hplain nofun nofun) <|
    .ite (fun _ => hplain nofun nofun) <| .ite (fun _ => hplain nofun nofun) <|
    .ite (fun _ => hplain nofun nofun) <| .ite (fun hinsert => ?_) nofun
  intro e heq
  cases heq
  refine ⟨nofun, ?_⟩
  intro text htext
  cases htext
  exact (Bool.and_eq_true_iff.mp hinsert).2

/-! ## Previews -/

/-- What a status tells about a line: nothing about a blank one, and what its preview gives about
any other. -/
inductive Status.Tells (d : Desk) (line : Text) : Status → Prop where
  | blank (h : line.allBlank = true) : Tells d line .blank
  | result {answer : Answer} (hline : line.allBlank = false)
      (h : (d.session.preview line d.shared).1 = .ok answer) : Tells d line (.result answer.output)
  | error {refusal : Refusal} (hline : line.allBlank = false)
      (h : (d.session.preview line d.shared).1 = .error refusal) :
      Tells d line (.error refusal.message)

/-- A status depends on the session and the context only. -/
theorem Status.Tells.of_agrees {d d' : Desk} {line : Text} {status : Status}
    (h : status.Tells d line) (hagrees : d.Agrees d') : status.Tells d' line := by
  have hpreview : (d'.session.preview line d'.shared).1 = (d.session.preview line d.shared).1 :=
    (hagrees.handle (.preview line)).1.symm
  cases h with
  | blank hblank => exact .blank hblank
  | result hline hanswer => exact .result hline (hpreview.trans hanswer)
  | error hline hrefusal => exact .error hline (hpreview.trans hrefusal)

namespace App

/-- The session of the calculator, and what it shares with others. -/
def desk (app : App) : Desk := ⟨app.session, app.shared⟩

/-- The requests that refreshing the status of a line makes. -/
def previews (line : Text) : List Request := if line.allBlank then [] else [.preview line]

theorem refresh_eq (app : App) : ∃ status : Status, status.Tells app.desk app.editor.input ∧
    app.refresh = { app with
      shared := (app.desk.after (previews app.editor.input)).shared, status := status } := by
  unfold refresh previews
  by_cases hblank : app.editor.input.allBlank = true
  · simp only [hblank, if_true]
    exact ⟨.blank, .blank hblank, rfl⟩
  · have hline : app.editor.input.allBlank = false := by simpa using hblank
    simp only [hline, Bool.false_eq_true, if_false]
    cases hresult : (app.session.preview app.editor.input app.shared).1 with
    | ok answer => exact ⟨_, .result hline hresult, rfl⟩
    | error refusal => exact ⟨_, .error hline hresult, rfl⟩

theorem session_previews (d : Desk) (line : Text) :
    (d.after (previews line)).session = d.session := by
  unfold previews
  split
  · rfl
  · exact (d.handle_preview line).2.1

/-! ## One key -/

/-- The line as an edit leaves it. -/
def edited (app : App) (e : Edit) : Editor := app.editor.apply app.completer e

/-- The requests that an edit makes: a preview if the line has changed. -/
def editRequests (app : App) (e : Edit) : List Request :=
  if (app.edited e).input = app.editor.input then [] else previews (app.edited e).input

/-- The requests that a key makes. A line that was committed leaves a blank one, and that is not
previewed. -/
def requests (app : App) (key : KeyPress) : List Request :=
  match key.command with
  | .edit e => app.editRequests e
  | .enter =>
    if app.editor.completion.isSome then app.editRequests .accept
    else if app.editor.input.allBlank then []
    else [.commit app.editor.input]
  | _ => []

/-- An edit changes the line, and the status with it if there is another line. -/
theorem edit_cases (app : App) (e : Edit) :
    (app.edited e).input = app.editor.input ∧ app.editRequests e = [] ∧
      app.edit e = { app with editor := app.edited e } ∨
    ∃ status : Status, status.Tells app.desk (app.edited e).input ∧
      app.editRequests e = previews (app.edited e).input ∧
      app.edit e = { app with
        editor := app.edited e
        shared := (app.desk.after (previews (app.edited e).input)).shared
        status := status } := by
  unfold editRequests
  by_cases hsame : (app.edited e).input = app.editor.input
  · refine .inl ⟨hsame, if_pos hsame, ?_⟩
    exact if_pos hsame
  · obtain ⟨status, htells, hrefresh⟩ := refresh_eq { app with editor := app.edited e }
    refine .inr ⟨status, htells, if_neg hsame, ?_⟩
    have hedit : app.edit e = refresh { app with editor := app.edited e } := if_neg hsame
    rw [hedit, hrefresh]
    rfl

theorem edit_editor (app : App) (e : Edit) : (app.edit e).editor = app.edited e := by
  rcases app.edit_cases e with ⟨-, -, hedit⟩ | ⟨status, -, -, hedit⟩
  · rw [hedit]
  · rw [hedit]

/-- An edit records nothing. -/
theorem edit_records (app : App) (e : Edit) :
    (app.edit e).transcript = app.transcript ∧ (app.edit e).nextId = app.nextId := by
  rcases app.edit_cases e with ⟨-, -, hedit⟩ | ⟨status, -, -, hedit⟩
  · rw [hedit]
    exact ⟨rfl, rfl⟩
  · rw [hedit]
    exact ⟨rfl, rfl⟩

/-- The desk after the line has been committed. -/
def committed (app : App) : Desk := (app.desk.handle (.commit app.editor.input)).2

/-- The entry of a line that was committed. -/
def entry (app : App) (answer : Answer) : Entry :=
  ⟨app.nextId, app.editor.input,
    Session.tokens app.committed.shared app.editor.input, answer.output⟩

/-- A commit is recorded in the history and in the transcript if it is answered. If it is refused,
only the session and what it shares may differ. -/
theorem commit_cases (app : App) :
    (∃ answer, (app.desk.handle (.commit app.editor.input)).1 = .ok answer ∧
      app.commit = ⟨app.committed.session, app.committed.shared, app.editor.submit,
        app.transcript ++ [app.entry answer], app.nextId + 1, .blank⟩) ∨
    ∃ refusal, (app.desk.handle (.commit app.editor.input)).1 = .error refusal ∧
      app.commit =
        { app with session := app.committed.session, shared := app.committed.shared } := by
  unfold commit
  cases hresult : (app.session.commit app.editor.input app.shared).1 with
  | ok answer =>
    refine .inl ⟨answer, hresult, ?_⟩
    simp only [hresult]
    rfl
  | error refusal =>
    refine .inr ⟨refusal, hresult, ?_⟩
    simp only [hresult]
    rfl

/-- What a key may do, and the requests that it makes. -/
inductive Step (app : App) : List Request → App → Prop where
  | idle : app.Step [] app
  | edit {e : Edit} (typed : e.Typed) : app.Step (app.editRequests e) (app.edit e)
  | commit (closed : app.editor.completion = none) (line : app.editor.input.allBlank = false) :
      app.Step [.commit app.editor.input] app.commit

theorem press_step {app next : App} {key : KeyPress} (h : app.press key = some next) :
    app.Step (app.requests key) next := by
  have htyped := key.command_typed
  unfold press at h
  unfold requests
  cases hcommand : key.command with
  | exit =>
    simp only [hcommand] at h
    cases h
  | ignore =>
    simp only [hcommand] at h
    cases h
    exact .idle
  | edit e =>
    simp only [hcommand] at h
    cases h
    exact .edit (htyped e hcommand)
  | enter =>
    simp only [hcommand, enter] at h
    by_cases hopen : app.editor.completion.isSome = true
    · simp only [hopen, if_true] at h ⊢
      cases h
      exact .edit ⟨nofun, nofun⟩
    · have hclosed : app.editor.completion = none := by simpa using hopen
      simp only [hopen, Bool.false_eq_true, if_false] at h ⊢
      by_cases hblank : app.editor.input.allBlank = true
      · simp only [hblank, if_true] at h ⊢
        cases h
        exact .idle
      · simp only [hblank, Bool.false_eq_true, if_false] at h ⊢
        cases h
        exact .commit hclosed (by simpa using hblank)

/-- **The session is asked nothing but the requests of the key.** -/
theorem Step.desk {app next : App} {asked : List Request} (h : app.Step asked next) :
    next.desk = app.desk.after asked := by
  cases h with
  | idle => rfl
  | @edit e =>
    rcases app.edit_cases e with ⟨-, hasked, hedit⟩ | ⟨status, -, hasked, hedit⟩
    · rw [hasked, hedit]
      rfl
    · have hsession := session_previews app.desk (app.edited e).input
      rw [hasked, hedit]
      exact congrArg (Desk.mk · (app.desk.after (previews (app.edited e).input)).shared)
        hsession.symm
  | commit =>
    rcases app.commit_cases with ⟨answer, -, hcommit⟩ | ⟨refusal, -, hcommit⟩
    · rw [hcommit]
      rfl
    · rw [hcommit]
      rfl

/-! ## Keys one at a time -/

/-- The calculator after some keys, nothing once it has been left. -/
def after (app : App) : List KeyPress → Option App
  | [] => some app
  | key :: rest => (app.press key).bind (after · rest)

/-- The requests that keys make, one at a time. -/
def requested (app : App) : List KeyPress → List Request
  | [] => []
  | key :: rest => app.requests key ++ (app.press key).elim [] (requested · rest)

/-- What holds at the start and is kept by every step holds after any keys. The requests so far come
along, and the session is the one that they lead to. -/
theorem after_induction {start app : App} {keys : List KeyPress} {P : List Request → App → Prop}
    (hstart : P [] start)
    (hstep : ∀ before app asked next, app.desk = start.desk.after before → P before app →
      app.Step asked next → P (before ++ asked) next)
    (h : start.after keys = some app) : P (start.requested keys) app := by
  have hrun (keys : List KeyPress) (before : List Request) (current : App)
      (hdesk : current.desk = start.desk.after before) (hcurrent : P before current)
      (hafter : current.after keys = some app) : P (before ++ current.requested keys) app := by
    induction keys generalizing before current with
    | nil =>
      cases hafter
      rw [requested, List.append_nil]
      exact hcurrent
    | cons key rest ih =>
      obtain ⟨next, hpress, hrest⟩ := Option.bind_eq_some_iff.mp hafter
      have hpressed := press_step hpress
      have hnext : next.desk = start.desk.after (before ++ current.requests key) := by
        rw [hpressed.desk, hdesk, Desk.after_append]
      rw [requested, hpress, Option.elim_some, ← List.append_assoc]
      exact ih _ next hnext (hstep _ _ _ _ hdesk hcurrent hpressed) hrest
  exact hrun keys [] start rfl hstart h

theorem desk_after {start app : App} {keys : List KeyPress} (h : start.after keys = some app) :
    app.desk = start.desk.after (start.requested keys) := by
  refine after_induction (P := fun before app => app.desk = start.desk.after before) rfl ?_ h
  intro before app asked next hdesk _ hstep
  rw [hstep.desk, hdesk, Desk.after_append]

end App
end Reckoner
