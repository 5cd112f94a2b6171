import Reckoner.Proofs.Boundaries
import Reckoner.Proofs.Parsing.Relocation
import Reckoner.Proofs.Placement
import Reckoner.Proofs.Sessions.Requests

/-!
# Spaces between tokens

A space at a place that no token straddles moves the tokens behind it by one. The parser copies
positions and does not look at them, so the tree or the failure is the same one, moved. Nothing that
is evaluated or shown depends on a position, so the texts with and without the space are answered
alike, from then on too (`spaces_never_matter`).
-/

namespace Reckoner

/-! ## Moving tokens by a space -/

namespace Token

variable {rounding : Rounding} {t : Text} {token : Token}

theorem span_of_mem_beforeEnd (h : token ∈ beforeEnd (scan rounding t)) :
    0 ≤ token.start ∧ token.start < token.stop ∧ token.stop ≤ t.length :=
  (beforeEnd_scanned rounding t).spans token h

theorem beforeEnd_shift (place : Nat) (tokens : List Token) :
    beforeEnd (tokens.map (shift place)) = (beforeEnd tokens).map (shift place) := by
  have hkind (token : Token) : (token.shift place).kind = token.kind := by
    unfold shift
    split <;> rfl
  unfold beforeEnd
  rw [List.takeWhile_map]
  congr 2
  funext token
  simp only [Function.comp_apply, hkind]

end Token

namespace Text

variable {t : Text} {place start stop : Nat}

theorem length_insertSpace (hplace : place ≤ t.length) :
    (t.insertSpace place).length = t.length + 1 := by
  rw [insertSpace, List.length_append, List.length_take_of_le hplace, List.length_cons,
    List.length_drop]
  omega

theorem slice_natCast (hspan : start ≤ stop) (hstop : stop ≤ t.length) :
    t.slice start stop = (t.drop start).take (stop - start) := by
  rw [slice, resolve_natCast, resolve_natCast, Nat.min_eq_left hstop,
    Nat.min_eq_left (hspan.trans hstop), List.drop_take]

theorem slice_insertSpace_before (hspan : start ≤ stop) (hstop : stop ≤ place)
    (hplace : place ≤ t.length) : (t.insertSpace place).slice start stop = t.slice start stop := by
  have hlength := length_insertSpace hplace
  have htake : (t.insertSpace place).take stop = t.take stop := by
    rw [insertSpace, List.take_append_of_le_length (by rwa [List.length_take_of_le hplace]),
      List.take_take, Nat.min_eq_left hstop]
  rw [slice_natCast hspan (by omega), slice_natCast hspan (by omega), ← List.drop_take,
    ← List.drop_take, htake]

theorem slice_insertSpace_behind (hstart : place ≤ start) (hspan : start ≤ stop)
    (hstop : stop ≤ t.length) :
    (t.insertSpace place).slice (start + 1 : Nat) (stop + 1 : Nat) = t.slice start stop := by
  have hplace : place ≤ t.length := by omega
  have hlength := length_insertSpace hplace
  have hdrop : (t.insertSpace place).drop (start + 1) = t.drop start := by
    have hbehind : start + 1 = (t.take place).length + (start - place + 1) := by
      rw [List.length_take_of_le hplace]
      omega
    rw [insertSpace, hbehind, List.drop_length_add_append, List.drop_succ_cons, List.drop_drop,
      Nat.add_sub_cancel' hstart]
  rw [slice_natCast (by omega) (by omega), slice_natCast hspan hstop, hdrop, Nat.add_sub_add_right]

end Text

/-- Positions in a text, and in the text with one more space in it. What stops at the place of the
space stops there still. -/
def Relocation.spacing (t : Text) (place : Nat) : Relocation where
  before := t
  after := t.insertSpace place
  start pos := if (place : Int) ≤ pos then pos + 1 else pos
  stop pos := if (place : Int) < pos then pos + 1 else pos

section
variable {rounding : Rounding} {t : Text} {place : Nat} {token : Token}

theorem Relocation.spacing_token (hspan : token.start < token.stop)
    (h : ¬ token.Straddles place) : (spacing t place).token token = token.shift place := by
  have hsides : (place : Int) ≤ token.start ∨ token.stop ≤ place := by
    unfold Token.Straddles at h
    omega
  rcases hsides with hbehind | hbefore
  · have hstop : (place : Int) < token.stop := by omega
    simp only [Token.shift, Relocation.token, Token.relocate, spacing, if_pos hbehind, if_pos hstop]
  · have hstart : ¬ (place : Int) ≤ token.start := by omega
    have hstop : ¬ (place : Int) < token.stop := by omega
    simp only [Token.shift, Relocation.token, Token.relocate, spacing, if_neg hstart, if_neg hstop]

theorem Relocation.spacing_keepsName (hplace : place ≤ t.length)
    (ht : token ∈ Token.beforeEnd (Token.scan rounding t)) (h : ¬ token.Straddles place) :
    (spacing t place).KeepsName token := by
  obtain ⟨hstart, hspan, hstop⟩ := Token.span_of_mem_beforeEnd ht
  obtain ⟨kind, start, stop⟩ := token
  obtain ⟨start, rfl⟩ := Int.eq_ofNat_of_zero_le hstart
  obtain ⟨stop, rfl⟩ := Int.eq_ofNat_of_zero_le (hstart.trans hspan.le)
  have hspan' : start ≤ stop := by simp only at hspan; omega
  have hstop' : stop ≤ t.length := by simp only at hstop; omega
  unfold KeepsName
  rw [spacing_token hspan h, Token.shift]
  by_cases hbehind : place ≤ start
  · rw [if_pos (Int.ofNat_le.mpr hbehind)]
    exact Text.slice_insertSpace_behind hbehind hspan' hstop'
  · have hbefore : stop ≤ place := by
      unfold Token.Straddles at h
      simp only at h
      omega
    rw [if_neg (fun hle => hbehind (Int.ofNat_le.mp hle))]
    exact Text.slice_insertSpace_before hspan' hbefore hplace

/-- **A space between two tokens moves the statement or the failure and changes nothing else.** -/
theorem parse_insertSpace (hplace : place ≤ t.length)
    (h : ∀ token ∈ Token.scan rounding t, ¬ token.Straddles place) :
    Stmt.parse (t.insertSpace place) (Token.scan rounding (t.insertSpace place)) =
      (Relocation.spacing t place).outcome (Relocation.spacing t place).stmt
        (Stmt.parse t (Token.scan rounding t)) := by
  have hbetween : ∀ token ∈ Token.beforeEnd (Token.scan rounding t), ¬ token.Straddles place :=
    fun token ht => h token (Token.mem_of_mem_beforeEnd ht)
  apply (Relocation.spacing t place).parse_eq
  · rw [Token.scan_insertSpace rounding hplace h, Token.beforeEnd_shift]
    refine List.map_congr_left fun token ht => ?_
    exact (Relocation.spacing_token (Token.span_of_mem_beforeEnd ht).2.1 (hbetween token ht)).symm
  · exact fun token ht => Relocation.spacing_keepsName hplace ht (hbetween token ht)
  · have hlength : ((t.insertSpace place).length : Int) = t.length + 1 := by
      exact_mod_cast Text.length_insertSpace hplace
    rw [Token.endPosition_scan, Token.endPosition_scan]
    exact hlength.trans (if_pos (Int.ofNat_le.mpr hplace)).symm

end

/-! ## Answering alike -/

namespace Failure

variable {α β : Type} {f : α → β}

/-- What came of a computation, with all positions forgotten. -/
def forget (f : α → β) (result : Except Failure α) : Except Failure β :=
  (result.map f).mapError unplaced

theorem forget_id (result : Except Failure α) : forget id result = result.mapError unplaced := by
  cases result <;> rfl

/-- Both came to values that are the same without positions, or both failed the same way. -/
theorem forget_cases {result result' : Except Failure α} (h : forget f result = forget f result') :
    (∃ value value', result = .ok value ∧ result' = .ok value' ∧ f value = f value') ∨
      ∃ failure failure', result = .error failure ∧ result' = .error failure' ∧
        failure.unplaced = failure'.unplaced := by
  cases result with
  | ok value =>
    cases result' with
    | ok value' => exact .inl ⟨value, value', rfl, rfl, Except.ok.inj h⟩
    | error failure => cases h
  | error failure =>
    cases result' with
    | ok value => cases h
    | error failure' => exact .inr ⟨failure, failure', rfl, rfl, Except.error.inj h⟩

theorem forget_relocation (r : Relocation) (result : Except Failure Stmt) :
    forget Stmt.unplaced (r.outcome r.stmt result) = forget Stmt.unplaced result := by
  cases result with
  | ok stmt => exact congrArg Except.ok (stmt.unplaced_relocate r.start r.stop)
  | error failure => cases failure <;> rfl

end Failure

/-- A text as it is read, with all positions forgotten. -/
def Stmt.reading (rounding : Rounding) (text : Text) : Except Failure Stmt :=
  Failure.forget Stmt.unplaced (Stmt.parse text (Token.scan rounding text))

def Session.unplaced (s : Session) : Session := { s with env := s.env.unplaced }

/-- What an answer shows. -/
def Answer.shown (answer : Answer) : Decimal × Text × Except Failure Text :=
  (answer.value, answer.output, answer.statement.print)

/-- What a refusal says, whatever it points at. -/
def Refusal.said (refusal : Refusal) : Text × Text := (refusal.code, refusal.message)

theorem Refusal.said_ofFailure {failure failure' : Failure}
    (h : failure.unplaced = failure'.unplaced) :
    (ofFailure failure).said = (ofFailure failure').said := by
  cases failure with
  | fault f pos =>
    cases failure' with
    | fault g pos' => cases h; rfl
    | defect d => cases h
  | defect d =>
    cases failure' with
    | fault g pos => cases h
    | defect d' => cases h; rfl

/-- An answer without its tree, or a refusal without its position. -/
def Desk.shown (reply : Except Refusal Answer) :
    Except (Text × Text) (Decimal × Text × Except Failure Text) :=
  (reply.map Answer.shown).mapError Refusal.said

namespace Session

variable {s s' : Session} {text text' : Text} {ctx : Context}

theorem parts_of_unplaced (hs : s.unplaced = s'.unplaced) :
    s.settings = s'.settings ∧ s.env.unplaced = s'.env.unplaced ∧ s.last = s'.last := by
  simpa only [unplaced, mk.injEq] using hs

theorem outcome_forget (hs : s.unplaced = s'.unplaced)
    (htext : Stmt.reading ctx.rounding text = Stmt.reading ctx.rounding text') :
    Failure.forget (Prod.map Stmt.unplaced id) (s.outcome text ctx).1 =
        Failure.forget (Prod.map Stmt.unplaced id) (s'.outcome text' ctx).1 ∧
      (s.outcome text ctx).2 = (s'.outcome text' ctx).2 := by
  unfold outcome
  rcases Failure.forget_cases htext with ⟨stmt, stmt', h, h', hstmt⟩ |
    ⟨failure, failure', h, h', he⟩
  · rw [h, h']
    have hscope : s.scope.unplaced = s'.scope.unplaced := congrArg scope hs
    have heval := stmt.outcome_unplaced s.scope ctx
    rw [hstmt, hscope, stmt'.outcome_unplaced s'.scope ctx] at heval
    obtain ⟨hresult, hcontext⟩ := Prod.mk.inj heval
    rw [← Failure.forget_id, ← Failure.forget_id] at hresult
    refine ⟨?_, hcontext.symm⟩
    rcases Failure.forget_cases hresult with ⟨value', value, hv', hv, heq⟩ | ⟨f', f, hf', hf, heq⟩
    · simp only [hv, hv']
      exact congrArg Except.ok (Prod.ext hstmt heq.symm)
    · simp only [hf, hf']
      exact congrArg Except.error heq.symm
  · rw [h, h']
    exact ⟨congrArg Except.error he, rfl⟩

/-- What differs in positions at most is answered alike. -/
theorem result_shown (hs : s.unplaced = s'.unplaced)
    (htext : Stmt.reading ctx.rounding text = Stmt.reading ctx.rounding text') :
    Desk.shown ((s.result text ctx).mapError .ofFailure) =
      Desk.shown ((s'.result text' ctx).mapError .ofFailure) := by
  have hformat : s.format = s'.format := by
    funext value
    unfold format
    rw [(parts_of_unplaced hs).1]
  unfold result
  rcases Failure.forget_cases (outcome_forget hs htext).1 with
    ⟨⟨stmt, value⟩, ⟨stmt', value'⟩, h, h', heq⟩ | ⟨f, f', h, h', heq⟩
  · have hstmt : stmt.unplaced = stmt'.unplaced := congrArg Prod.fst heq
    obtain rfl : value = value' := congrArg Prod.snd heq
    have hprint : stmt.print = stmt'.print := by
      rw [← stmt.print_unplaced, ← stmt'.print_unplaced, hstmt]
    rw [h, h', hformat]
    simp only [Except.bind]
    cases s'.format value with
    | error failure => rfl
    | ok output => exact congrArg (fun print => Except.ok (value, output, print)) hprint
  · rw [h, h']
    exact congrArg Except.error (Refusal.said_ofFailure heq)

theorem kept_unplaced (hs : s.unplaced = s'.unplaced)
    (htext : Stmt.reading ctx.rounding text = Stmt.reading ctx.rounding text') :
    (s.kept text ctx).unplaced = (s'.kept text' ctx).unplaced := by
  obtain ⟨-, henv, -⟩ := parts_of_unplaced hs
  unfold kept
  rcases Failure.forget_cases (outcome_forget hs htext).1 with
    ⟨⟨stmt, value⟩, ⟨stmt', value'⟩, h, h', heq⟩ | ⟨f, f', h, h', heq⟩
  · have hstmt : stmt.unplaced = stmt'.unplaced := congrArg Prod.fst heq
    obtain rfl : value = value' := congrArg Prod.snd heq
    simp only [h, h', Environment.keep_unplaced, henv, ← Stmt.binding?_unplaced, hstmt]
  · simp only [h, h', henv]

theorem committed_unplaced (hs : s.unplaced = s'.unplaced)
    (htext : Stmt.reading ctx.rounding text = Stmt.reading ctx.rounding text') :
    (s.committed text ctx).unplaced = (s'.committed text' ctx).unplaced := by
  have hkept := kept_unplaced hs htext
  have hshown := result_shown hs htext
  obtain ⟨hsettings, -, hlast⟩ := parts_of_unplaced hs
  unfold committed
  cases h : s.result text ctx with
  | error failure =>
    cases h' : s'.result text' ctx with
    | error failure' => simp only [unplaced, hkept, hsettings, hlast]
    | ok answer =>
      rw [h, h'] at hshown
      cases hshown
  | ok answer =>
    cases h' : s'.result text' ctx with
    | error failure =>
      rw [h, h'] at hshown
      cases hshown
    | ok answer' =>
      rw [h, h'] at hshown
      have hvalue : answer.value = answer'.value := congrArg Prod.fst (Except.ok.inj hshown)
      simp only [unplaced, hkept, hsettings, hvalue]

end Session

namespace Desk

/-- The two differ in their logs and in the positions inside of stored functions at most. -/
structure Alike (d d' : Desk) : Prop where
  session : d.session.unplaced = d'.session.unplaced
  context : d.shared.context = d'.shared.context

/-- Both requests are answered alike, and lead to states that answer alike for good. -/
structure SameFor (d d' : Desk) (request request' : Request) : Prop where
  reply : shown (d.handle request).1 = shown (d'.handle request').1
  next : (d.handle request).2.Alike (d'.handle request').2

variable {d d' : Desk} {text text' : Text}

theorem Alike.preview (h : d.Alike d')
    (htext : ∀ rounding, Stmt.reading rounding text = Stmt.reading rounding text') :
    d.SameFor d' (.preview text) (.preview text') := by
  obtain ⟨hreply, hsession, hcontext⟩ := d.handle_preview text
  obtain ⟨hreply', hsession', hcontext'⟩ := d'.handle_preview text'
  rw [← h.context] at hreply' hcontext'
  constructor
  · rw [hreply, hreply']
    exact Session.result_shown h.session (htext _)
  constructor
  · rw [hsession, hsession']
    exact h.session
  · rw [hcontext, hcontext']
    exact (Session.outcome_forget h.session (htext _)).2

theorem Alike.commit (h : d.Alike d')
    (htext : ∀ rounding, Stmt.reading rounding text = Stmt.reading rounding text') :
    d.SameFor d' (.commit text) (.commit text') := by
  obtain ⟨hreply, hsession, hcontext⟩ := d.handle_commit text
  obtain ⟨hreply', hsession', hcontext'⟩ := d'.handle_commit text'
  rw [← h.context] at hreply' hsession' hcontext'
  constructor
  · rw [hreply, hreply']
    exact Session.result_shown h.session (htext _)
  constructor
  · rw [hsession, hsession']
    exact Session.committed_unplaced h.session (htext _)
  · rw [hcontext, hcontext']
    exact (Session.outcome_forget h.session (htext _)).2

/-- States that differ in positions at most answer alike for good. -/
theorem Alike.trace (h : d.Alike d') (requests : List Request) :
    (d.trace requests).map (shown ·.2) = (d'.trace requests).map (shown ·.2) := by
  induction requests generalizing d d' with
  | nil => rfl
  | cons request rest ih =>
    have hsame : d.SameFor d' request request := by
      cases request with
      | preview text => exact h.preview fun _ => rfl
      | commit text => exact h.commit fun _ => rfl
    rw [Desk.trace, Desk.trace, List.map_cons, List.map_cons, hsame.reply, ih hsame.next]

end Desk

/-- **Spaces between tokens never matter.** A space at a place that no token straddles moves the
tokens from there on by one, and the positions of the statement or of the failure with them. From
every two states that differ in positions at most, previews and commits of the two texts show the
same value, output and statement, or the same code and message, and lead to such states again. So
everything that is asked for later is answered alike too. -/
theorem spaces_never_matter (rounding : Rounding) {text : Text} {place : Nat}
    (hplace : place ≤ text.length)
    (hbetween : ∀ token ∈ Token.scan rounding text, ¬ token.Straddles place) :
    Token.scan rounding (text.insertSpace place) =
        (Token.scan rounding text).map (Token.shift place) ∧
      Stmt.parse (text.insertSpace place) (Token.scan rounding (text.insertSpace place)) =
        (Relocation.spacing text place).outcome (Relocation.spacing text place).stmt
          (Stmt.parse text (Token.scan rounding text)) ∧
      ∀ d d' : Desk, d.Alike d' →
        d.SameFor d' (.preview text) (.preview (text.insertSpace place)) ∧
        d.SameFor d' (.commit text) (.commit (text.insertSpace place)) ∧
        ∀ later : List Request,
          (d.trace (.commit text :: later)).map (Desk.shown ·.2) =
            (d'.trace (.commit (text.insertSpace place) :: later)).map (Desk.shown ·.2) := by
  -- Spans do not depend on the rounding mode, so the place is between tokens for every session.
  have hanywhere (other : Rounding) : ∀ token ∈ Token.scan other text, ¬ token.Straddles place := by
    intro token ht hstraddles
    obtain ⟨same, hsame, hspan⟩ := Token.exists_span rounding ht
    exact hbetween same hsame (Token.straddles_of_span hspan hstraddles)
  have hreading (other : Rounding) :
      Stmt.reading other text = Stmt.reading other (text.insertSpace place) := by
    unfold Stmt.reading
    rw [parse_insertSpace hplace (hanywhere other), Failure.forget_relocation]
  refine ⟨Token.scan_insertSpace rounding hplace hbetween, parse_insertSpace hplace hbetween, ?_⟩
  intro d d' h
  have hcommit := h.commit hreading
  refine ⟨h.preview hreading, hcommit, fun later => ?_⟩
  rw [Desk.trace, Desk.trace, List.map_cons, List.map_cons, hcommit.reply, hcommit.next.trace later]

/-- The space ends up in the body of a function, in front of the name that the body fails at. -/
theorem spaces_never_matter_in_body :
    (∀ token ∈ Token.scan .halfEven "f(x)=x+y1", ¬ token.Straddles 7) ∧
    Text.insertSpace "f(x)=x+y1" 7 = ("f(x)=x+ y1" : Text) ∧
    ((Desk.start .default .initial).trace [.commit "f(x)=x+y1", .commit "f(2)"]).map
        (Desk.shown ·.2) =
      ((Desk.start .default .initial).trace [.commit "f(x)=x+ y1", .commit "f(2)"]).map
        (Desk.shown ·.2) := by
  have hbetween : ∀ token ∈ Token.scan .halfEven "f(x)=x+y1", ¬ token.Straddles 7 := by
    decide +kernel
  have htext : Text.insertSpace "f(x)=x+y1" 7 = ("f(x)=x+ y1" : Text) := by decide +kernel
  have hsame := (spaces_never_matter .halfEven (by decide) hbetween).2.2
    (Desk.start .default .initial) (Desk.start .default .initial) ⟨rfl, rfl⟩
  rw [htext] at hsame
  exact ⟨hbetween, htext, hsame.2.2 [.commit "f(2)"]⟩

end Reckoner
