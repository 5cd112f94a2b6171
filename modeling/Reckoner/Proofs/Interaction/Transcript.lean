import Reckoner.Proofs.Editing.Offers
import Reckoner.Proofs.Interaction.Keys
import Reckoner.Proofs.Sessions.Atomicity
import Reckoner.Proofs.Sessions.Fold

/-!
# History and transcript in step

Two records are kept of the lines that were committed: the history of the editor and the transcript.
They change with the same key, a commit that is answered, so they stay in step
(`App.Recorded`). What is in the line comes from keys, from the history, or from the names of the
session, and all of these are printable ASCII (`Editor.Ascii.apply`). An open list stands behind an
identifier, so there is none on a blank line (`Editor.Attended.apply`), and the enter key leaves
such a line alone. The main result is `history_in_step`.
-/

namespace Reckoner

/-! ## Printable ASCII -/

/-- Nothing but printable ASCII. -/
def Text.Ascii (t : Text) : Prop := ∀ u ∈ t, 0x20 ≤ u ∧ u ≤ 0x7E

namespace Text

variable {t front back : Text}

theorem Ascii.nil : Ascii [] := nofun

theorem Ascii.append (hfront : Ascii front) (hback : Ascii back) : Ascii (front ++ back) := by
  intro u hu
  rcases List.mem_append.mp hu with hu | hu
  · exact hfront u hu
  · exact hback u hu

theorem Ascii.slice (h : Ascii t) (start stop : Int) : Ascii (t.slice start stop) := by
  intro u hu
  exact h u (List.mem_of_mem_take (List.mem_of_mem_drop hu))

theorem Ascii.of_isPrintable (h : t.isPrintable = true) : Ascii t := by
  intro u hu
  have hall := (Bool.and_eq_true_iff.mp h).2
  have hunit := Bool.and_eq_true_iff.mp (List.all_eq_true.mp hall u hu)
  exact ⟨of_decide_eq_true hunit.1, of_decide_eq_true hunit.2⟩

/-- Letters and digits lie between the first digit and the last letter. -/
theorem bounds_of_isAlphanumeric {u : UInt16} (h : isAlphanumeric u = true) :
    unit '0' ≤ u ∧ u ≤ unit 'z' := by
  refine ⟨?_, le_of_isAlphanumeric h⟩
  simp only [isAlphanumeric, isLetter, isDigit, Bool.or_eq_true, Bool.and_eq_true,
    decide_eq_true_eq] at h
  rcases h with (⟨h, -⟩ | ⟨h, -⟩) | ⟨h, -⟩
  · exact UInt16.le_trans (by decide) h
  · exact UInt16.le_trans (by decide) h
  · exact h

theorem Ascii.of_isName (h : t.isName = true) : Ascii t := by
  have hunits : ∀ u ∈ t, isAlphanumeric u = true := by
    cases t with
    | nil => exact nofun
    | cons first others =>
      obtain ⟨hfirst, hothers⟩ := Bool.and_eq_true_iff.mp h
      intro u hu
      rcases List.mem_cons.mp hu with rfl | hu
      · exact Bool.or_eq_true_iff.mpr (.inl hfirst)
      · exact List.all_eq_true.mp hothers u hu
  intro u hu
  obtain ⟨hlow, hhigh⟩ := bounds_of_isAlphanumeric (hunits u hu)
  exact ⟨UInt16.le_trans (by decide) hlow, UInt16.le_trans hhigh (by decide)⟩

/-! ## Blank lines -/

theorem exists_letter {front : Text} {offset start : Nat}
    (h : leftmostLetter front offset = some start) : ∃ u ∈ front, isLetter u = true := by
  induction front generalizing offset with
  | nil => cases h
  | cons u front ih =>
    unfold leftmostLetter at h
    split at h
    · rcases Option.or_eq_some_iff.mp h with hbefore | ⟨-, hhere⟩
      · obtain ⟨v, hv, hletter⟩ := ih hbefore
        exact ⟨v, List.mem_cons_of_mem u hv, hletter⟩
      · split at hhere
        · rename_i hletter
          exact ⟨u, List.mem_cons_self, hletter⟩
        · cases hhere
    · cases h

/-- White space lies before and behind the printable ASCII characters other than the space. -/
theorem bounds_of_isBlank {u : UInt16} (h : isBlank u = true) : u ≤ 0x20 ∨ 0xA0 ≤ u := by
  simp only [isBlank, Bool.or_eq_true, Bool.and_eq_true, decide_eq_true_eq, beq_iff_eq,
    UInt16.le_iff_toNat_le, ← UInt16.toNat_inj, UInt16.reduceToNat] at h ⊢
  omega

theorem isBlank_of_isLetter {u : UInt16} (h : isLetter u = true) : isBlank u = false := by
  obtain ⟨hlow, hhigh⟩ := bounds_of_isAlphanumeric (Bool.or_eq_true_iff.mpr (.inl h))
  refine Bool.eq_false_iff.mpr fun hblank => ?_
  rcases bounds_of_isBlank hblank with hbelow | habove
  · exact absurd (UInt16.le_trans hlow hbelow) (by decide)
  · exact absurd (UInt16.le_trans habove hhigh) (by decide)

/-- A blank line has no identifier in it. -/
theorem not_allBlank_of_identifier {offset : Int} {span : Span}
    (h : t.identifierSpan offset = some span) : t.allBlank = false := by
  unfold identifierSpan at h
  split at h
  · obtain ⟨start, hstart, -⟩ := Option.map_eq_some_iff.mp h
    obtain ⟨u, hu, hletter⟩ := exists_letter hstart
    have hmem : u ∈ t := List.mem_of_mem_take (List.mem_reverse.mp hu)
    refine Bool.eq_false_iff.mpr fun hblank => ?_
    have hunit := List.all_eq_true.mp hblank u hmem
    rw [isBlank_of_isLetter hletter] at hunit
    cases hunit
  · cases h

end Text

/-! ## The editor -/

namespace Editor

variable {complete : Completer} {e : Editor} {edit : Edit}

/-- The line, the history and the names on offer are printable ASCII. -/
structure Ascii (e : Editor) : Prop where
  input : e.input.Ascii
  history : ∀ line ∈ e.history, line.Ascii
  items : ∀ c, e.completion = some c → ∀ item ∈ c.items, item.Ascii

/-- A list is open on a line with something in it only. -/
def Attended (e : Editor) : Prop := ∀ c, e.completion = some c → e.input.allBlank = false

theorem Ascii.initial : initial.Ascii := ⟨nofun, nofun, nofun⟩

theorem mem_of_itemAt? {items : List Text} {index : Int} {item : Text}
    (h : itemAt? items index = some item) : item ∈ items := by
  unfold itemAt? at h
  split at h
  · cases h
  · exact List.mem_of_getElem? h

theorem Ascii.showLine (h : e.Ascii) (index : Int) : (e.showLine index).input.Ascii := by
  unfold Editor.showLine
  cases hitem : itemAt? e.history index with
  | none => exact .nil
  | some line => exact h.history line (mem_of_itemAt? hitem)

theorem Ascii.accept (h : e.Ascii) : e.accept.input.Ascii := by
  unfold Editor.accept
  split
  · rename_i choice span hchoice hspan
    obtain ⟨c, hopen, hselected⟩ := Option.bind_eq_some_iff.mp hchoice
    have hitem := h.items c hopen choice (mem_of_itemAt? hselected)
    exact ((h.input.slice _ _).append hitem).append (h.input.slice _ _)
  · exact h.input

theorem Ascii.input_apply (h : e.Ascii) (complete : Completer)
    (hedit : ∀ text, edit = .insert text → text.Ascii) : (e.apply complete edit).input.Ascii := by
  unfold Editor.apply
  cases edit with
  | insert text => exact ((h.input.slice _ _).append (hedit text rfl)).append (h.input.slice _ _)
  | deleteBackward =>
    simp only [change?, deleteBackward?]
    split
    · exact h.input
    · exact (h.input.slice _ _).append (h.input.slice _ _)
  | move delta => exact h.input
  | up =>
    simp only [change?, up?]
    split
    · exact h.input
    · split
      · exact h.input
      · exact h.showLine _
  | down =>
    simp only [change?, down?]
    split
    · exact h.input
    · split
      · exact h.input
      · exact h.showLine _
  | accept => exact h.accept
  | submit => exact .nil

/-- **What is typed stays printable ASCII**, recalled lines and accepted names included. -/
theorem Ascii.apply (h : e.Ascii) (hcomplete : ∀ start, ∀ name ∈ complete start, name.Ascii)
    (hedit : ∀ text, edit = .insert text → text.Ascii) : (e.apply complete edit).Ascii := by
  constructor
  · exact h.input_apply complete hedit
  · intro line hline
    by_cases hsubmit : edit = .submit
    · subst hsubmit
      rw [history_apply_submit, List.mem_append, List.mem_singleton] at hline
      rcases hline with hold | rfl
      · exact h.history line hold
      · exact h.input
    · rw [history_apply e complete hsubmit] at hline
      exact h.history line hline
  · intro c hopen item hitem
    rcases open_apply_cases hopen with ⟨-, span, -, hoffered⟩ | ⟨⟨old, hold, hkept⟩, -, -⟩
    · rw [hoffered] at hitem
      exact hcomplete _ item hitem
    · rw [← hkept] at hitem
      exact h.items old hold item hitem

theorem Attended.apply (h : e.Attended) (complete : Completer) (edit : Edit) :
    (e.apply complete edit).Attended := by
  intro c hopen
  rcases open_apply_cases hopen with ⟨-, span, hspan, -⟩ | ⟨⟨old, hold, -⟩, hinput, -⟩
  · exact Text.not_allBlank_of_identifier hspan
  · rw [hinput]
    exact h old hold

end Editor

/-! ## What was committed -/

namespace Desk

/-- The line of a commit that is answered, with the answer. -/
def accepted? (d : Desk) : Request → Option (Text × Answer)
  | .preview _ => none
  | .commit text => (d.handle (.commit text)).1.toOption.map fun answer => (text, answer)

/-- The lines that were committed with success in a run, in order, with their answers. -/
def accepted (d : Desk) (requests : List Request) : List (Text × Answer) :=
  d.collect accepted? requests

theorem collect_append {α : Type} (d : Desk) (yield : Desk → Request → Option α)
    (requests more : List Request) :
    d.collect yield (requests ++ more) =
      d.collect yield requests ++ (d.after requests).collect yield more := by
  induction requests generalizing d with
  | nil => rfl
  | cons request rest ih =>
    rw [List.cons_append, collect, collect, ih, List.append_assoc]
    rfl

theorem accepted_append (d : Desk) (requests more : List Request) :
    d.accepted (requests ++ more) = d.accepted requests ++ (d.after requests).accepted more :=
  d.collect_append accepted? requests more

theorem accepted_of_previews (d : Desk) {requests : List Request}
    (h : ∀ request ∈ requests, request.isCommit = false) : d.accepted requests = [] := by
  induction requests generalizing d with
  | nil => rfl
  | cons request rest ih =>
    obtain ⟨hfirst, hrest⟩ := List.forall_mem_cons.mp h
    cases request with
    | preview text => exact ih _ hrest
    | commit text => cases hfirst

theorem accepted_of_ok {d : Desk} {before : List Request} {text : Text} {answer : Answer}
    (h : ((d.after before).handle (.commit text)).1 = .ok answer) :
    d.accepted (before ++ [.commit text]) = d.accepted before ++ [(text, answer)] := by
  rw [accepted_append]
  simp only [accepted, collect, accepted?, h]
  rfl

theorem accepted_of_error {d : Desk} {before : List Request} {text : Text} {refusal : Refusal}
    (h : ((d.after before).handle (.commit text)).1 = .error refusal) :
    d.accepted (before ++ [.commit text]) = d.accepted before := by
  rw [accepted_append]
  simp only [accepted, collect, accepted?, h]
  exact List.append_nil _

end Desk

/-! ## Keys -/

namespace App

theorem isCommit_of_mem_editRequests {app : App} {e : Edit} {request : Request}
    (h : request ∈ app.editRequests e) : request.isCommit = false := by
  unfold editRequests previews at h
  split at h
  · cases h
  · split at h
    · cases h
    · rw [List.mem_singleton.mp h]
      rfl

/-- Names on offer are names of the session, and these are printable ASCII. -/
theorem ascii_completer {app : App} {settings : Settings} {asked : List Request}
    (h : app.desk = (Desk.start settings .initial).after asked) (start : Text) :
    ∀ name ∈ app.completer start, name.Ascii := by
  intro name hname
  obtain ⟨⟨found, member⟩, hfound, rfl⟩ := List.mem_map.mp hname
  have hmember := (Environment.mem_search_iff.mp hfound).2
  apply Text.Ascii.of_isName
  apply Desk.isName_of_has settings .initial
  rw [← h]
  exact Option.isSome_iff_exists.mpr ⟨member, hmember⟩

/-- How the records stand after some requests: the history is that of the transcript, the transcript
is that of the commits that were answered, none of which was blank, the counter is one ahead of it,
and the editor is in order. -/
structure Recorded (settings : Settings) (asked : List Request) (app : App) : Prop where
  history : app.editor.history = app.transcript.map Entry.input
  entries : app.transcript.map (fun e => (e.id, e.input, e.output)) =
    (((Desk.start settings .initial).accepted asked).zipIdx 1).map
      fun commit => (commit.2, commit.1.1, commit.1.2.output)
  counter : app.nextId = app.transcript.length + 1
  lines : ∀ text, .commit text ∈ asked → text.allBlank = false
  ascii : app.editor.Ascii
  attended : app.editor.Attended

variable {settings : Settings} {before asked : List Request} {app next : App}

theorem Recorded.start (settings : Settings) : (App.start settings).Recorded settings [] :=
  ⟨rfl, rfl, rfl, nofun, .initial, nofun⟩

theorem Recorded.edit (h : app.Recorded settings before)
    (hdesk : app.desk = (Desk.start settings .initial).after before) {e : Edit} (typed : e.Typed) :
    (app.edit e).Recorded settings (before ++ app.editRequests e) := by
  have hpreviews : (Desk.start settings .initial).accepted (before ++ app.editRequests e) =
      (Desk.start settings .initial).accepted before := by
    rw [Desk.accepted_append, Desk.accepted_of_previews _ fun _ => isCommit_of_mem_editRequests,
      List.append_nil]
  have hascii (text : Text) (hinsert : e = .insert text) : text.Ascii :=
    .of_isPrintable (typed.printable text hinsert)
  obtain ⟨htranscript, hcounter⟩ := app.edit_records e
  constructor
  · rw [app.edit_editor, htranscript, edited, Editor.history_apply _ _ typed.notSubmit]
    exact h.history
  · rw [htranscript, hpreviews]
    exact h.entries
  · rw [htranscript, hcounter]
    exact h.counter
  · intro text htext
    rcases List.mem_append.mp htext with hbefore | hnow
    · exact h.lines text hbefore
    · cases isCommit_of_mem_editRequests hnow
  · rw [app.edit_editor]
    exact h.ascii.apply (ascii_completer hdesk) hascii
  · rw [app.edit_editor]
    exact h.attended.apply _ _

theorem Recorded.commit (h : app.Recorded settings before)
    (hdesk : app.desk = (Desk.start settings .initial).after before)
    (hline : app.editor.input.allBlank = false) :
    app.commit.Recorded settings (before ++ [.commit app.editor.input]) := by
  have hlines (text : Text) (htext : .commit text ∈ before ++ [.commit app.editor.input]) :
      text.allBlank = false := by
    rcases List.mem_append.mp htext with hbefore | hnow
    · exact h.lines text hbefore
    · cases List.mem_singleton.mp hnow
      exact hline
  rcases app.commit_cases with ⟨answer, hanswer, hcommit⟩ | ⟨refusal, hrefusal, hcommit⟩
  · rw [hdesk] at hanswer
    have hcount := congrArg List.length h.entries
    simp only [List.length_map, List.length_zipIdx] at hcount
    have hentry : (app.entry answer).id = 1 + app.transcript.length :=
      h.counter.trans (Nat.add_comm _ 1)
    refine ⟨?_, ?_, ?_, hlines, ?_, ?_⟩
    · rw [hcommit, List.map_append, ← h.history]
      rfl
    · rw [hcommit, Desk.accepted_of_ok hanswer, List.zipIdx_append, List.map_append,
        List.map_append, h.entries, ← hcount, List.map_singleton, hentry]
      rfl
    · rw [hcommit, List.length_append, h.counter]
      rfl
    · have hsubmitted : (app.editor.apply app.completer .submit).Ascii := by
        refine h.ascii.apply (ascii_completer hdesk) ?_
        intro text htext
        cases htext
      rw [hcommit]
      exact hsubmitted
    · rw [hcommit]
      intro c hopen
      cases hopen
  · rw [hdesk] at hrefusal
    refine ⟨?_, ?_, ?_, hlines, ?_, ?_⟩
    · rw [hcommit]
      exact h.history
    · rw [hcommit, Desk.accepted_of_error hrefusal]
      exact h.entries
    · rw [hcommit]
      exact h.counter
    · rw [hcommit]
      exact h.ascii
    · rw [hcommit]
      exact h.attended

theorem Recorded.step (h : app.Recorded settings before)
    (hdesk : app.desk = (Desk.start settings .initial).after before) (hstep : app.Step asked next) :
    next.Recorded settings (before ++ asked) := by
  cases hstep with
  | idle =>
    rw [List.append_nil]
    exact h
  | edit typed => exact h.edit hdesk typed
  | commit _ line => exact h.commit hdesk line

/-- **After any keys the records are in step.** -/
theorem Recorded.after {keys : List KeyPress} (h : (App.start settings).after keys = some app) :
    app.Recorded settings ((App.start settings).requested keys) := by
  refine after_induction (P := fun before app => app.Recorded settings before)
    (.start settings) ?_ h
  intro before app asked next hdesk hbefore hstep
  exact hbefore.step hdesk hstep

/-- The enter key on a blank line, or with a commit that is refused, leaves the editor alone. -/
theorem editor_enter {key : KeyPress} (hkey : key.command = .enter)
    (hattended : app.editor.Attended)
    (h : app.editor.input.allBlank = true ∨ ∃ text refusal, app.requests key = [.commit text] ∧
      (app.desk.handle (.commit text)).1 = .error refusal) :
    ∃ next, app.press key = some next ∧ next.editor = app.editor := by
  have hpress : app.press key = some app.enter := by
    unfold press
    rw [hkey]
  refine ⟨app.enter, hpress, ?_⟩
  rcases h with hblank | ⟨text, refusal, hasked, hrefused⟩
  · have hclosed : app.editor.completion = none := by
      cases hopen : app.editor.completion with
      | none => rfl
      | some c =>
        rw [hattended c hopen] at hblank
        cases hblank
    simp only [enter, hclosed, hblank, Option.isSome_none, Bool.false_eq_true, if_false, if_true]
  · have hstep := press_step hpress
    rw [hasked] at hstep
    generalize hcommit : [Request.commit text] = asked at hstep
    generalize app.enter = next at hstep
    cases hstep with
    | idle => rfl
    | @edit e =>
      -- An edit makes no commit.
      have hmem : .commit text ∈ app.editRequests e := by
        rw [← hcommit]
        exact List.mem_singleton_self _
      cases isCommit_of_mem_editRequests hmem
    | commit =>
      cases hcommit
      rcases app.commit_cases with ⟨answer, hanswer, -⟩ | ⟨refusal, -, hrecorded⟩
      · cases hanswer.symm.trans hrefused
      · rw [hrecorded]

/-- The enter key commits a line that is not blank if no list is open. -/
theorem requests_enter {key : KeyPress} (hkey : key.command = .enter)
    (hclosed : app.editor.completion = none) (hline : app.editor.input.allBlank = false) :
    app.requests key = [.commit app.editor.input] := by
  simp only [requests, hkey, hclosed, hline, Option.isSome_none, Bool.false_eq_true, if_false]

end App

/-- **History, transcript and line stay in step.** For any environment variables and any keys, one
at a time: the session has been given the requests of the keys. The history of the editor is that of
the lines in the transcript, and the transcript has, numbered from one, the lines and the outputs of
the commits that were answered, in order. No blank line was committed. The line, the lines of the
history and the names on offer are printable ASCII. The enter key on a blank line, or with a commit
that is refused, leaves the whole editor as it was. -/
theorem history_in_step (given : Text → Option Text) (keys : List KeyPress) {app : App}
    (h : (App.start (.load given)).after keys = some app) :
    let start := App.start (.load given)
    let asked := start.requested keys
    app.desk = start.desk.after asked ∧
    app.editor.history = app.transcript.map Entry.input ∧
    app.transcript.map (fun e => (e.id, e.input, e.output)) =
      ((start.desk.accepted asked).zipIdx 1).map
        (fun commit => (commit.2, commit.1.1, commit.1.2.output)) ∧
    (∀ text, .commit text ∈ asked → text.allBlank = false) ∧
    app.editor.input.Ascii ∧ (∀ line ∈ app.editor.history, line.Ascii) ∧
    (∀ c, app.editor.completion = some c → ∀ item ∈ c.items, item.Ascii) ∧
    ∀ key : KeyPress, key.command = .enter →
      (app.editor.input.allBlank = true ∨ ∃ text refusal, app.requests key = [.commit text] ∧
        (app.desk.handle (.commit text)).1 = .error refusal) →
      ∃ next, app.press key = some next ∧ next.editor = app.editor := by
  intro start asked
  have hrecorded := App.Recorded.after h
  refine ⟨App.desk_after h, hrecorded.history, hrecorded.entries, hrecorded.lines,
    hrecorded.ascii.input, hrecorded.ascii.history, hrecorded.ascii.items, ?_⟩
  intro key hkey hidle
  exact App.editor_enter hkey hrecorded.attended hidle

/-- A refused line stays in the editor, and the line before it is in both records. -/
theorem history_in_step_refused :
    let start := App.start (.load fun _ => none)
    let keys : List KeyPress := [{ input := "x=2" }, { enter := true }, { input := "x+" }]
    ∃ app next, start.after keys = some app ∧ app.editor.history = ["x=2"] ∧
      app.transcript.map Entry.input = ["x=2"] ∧
      app.press { enter := true } = some next ∧ next.editor = app.editor := by
  intro start keys
  have hstate : (start.after keys).map (fun app => (app.editor.history, app.editor.input,
      app.editor.completion, Refusal.code? (app.desk.handle (.commit app.editor.input)).1)) =
      some ((["x=2"] : List Text), ("x+" : Text), none, some ("UNEXPECTED_TOKEN" : Text)) := by
    decide +kernel
  obtain ⟨app, happ, hfacts⟩ := Option.map_eq_some_iff.mp hstate
  simp only [Prod.mk.injEq] at hfacts
  obtain ⟨hhistory, hinput, hclosed, hcode⟩ := hfacts
  obtain ⟨refusal, hrefused, -⟩ := Refusal.of_code? hcode
  obtain ⟨-, hrecords, -, -, -, -, -, henter⟩ := history_in_step (fun _ => none) keys happ
  have hline : app.editor.input.allBlank = false := by
    rw [hinput]
    decide
  obtain ⟨next, hpress, hsame⟩ := henter { enter := true } rfl
    (.inr ⟨_, refusal, App.requests_enter rfl hclosed hline, hrefused⟩)
  exact ⟨app, next, happ, hhistory, hrecords.symm.trans hhistory, hpress, hsame⟩

end Reckoner
