import Reckoner.Proofs.Lexemes
import Reckoner.Proofs.NameTable
import Reckoner.Proofs.Parsing.Statement
import Reckoner.Proofs.Sessions.Requests

/-!
# A session as the fold of its statements

A commit makes at most one assignment, a preview none. The environment behind a run is what the
assignments of the run make of the one before (`Desk.env_after`), and the last result is the value
of the last commit that was answered (`Desk.last_after`). Together with what the environment holds
after any assignments, this gives a new session's state in terms of its statements
(`session_is_fold`). All assignments of a run are to names: a letter, followed by letters and digits
(`Desk.isName_of_assigned`, `Desk.isName_of_has`).
-/

namespace Reckoner

/-! ## Names -/

/-- A letter, followed by letters and digits. -/
def Text.isName : Text → Bool
  | [] => false
  | first :: others => isLetter first && others.all isAlphanumeric

theorem Builtin.isName_name (b : Builtin) : b.name.isName = true := by
  cases b <;> decide

theorem Token.Lexeme.isName {rounding : Rounding} {front word back : Text}
    (h : Lexeme rounding front .identifier word back) : word.isName = true := by
  cases h with
  | identifier letter alphanumeric =>
    exact Bool.and_eq_true_iff.mpr ⟨letter, List.all_eq_true.mpr alphanumeric⟩
  | character character => cases character

/-- What a scanned identifier spells is a name. -/
theorem Token.isName_of_scan {rounding : Rounding} {text : Text} {t : Token}
    (h : t ∈ beforeEnd (scan rounding text)) (hkind : t.kind = .identifier) :
    (t.name text).isName = true := by
  have hlexeme := lexeme_of_scan h
  rw [hkind] at hlexeme
  exact hlexeme.isName

/-! ## What a statement assigns -/

namespace Stmt

/-- What a statement of some value assigns. -/
def assignment? (value : Decimal) : Stmt → Option Assignment
  | variableAssignment name _ => some (.value name value)
  | functionAssignment name params body => some (.function name (.user params body))
  | _ => none

def isDefinition : Stmt → Bool
  | functionAssignment .. => true
  | _ => false

theorem keep_binding? (env : Environment) (value : Decimal) (stmt : Stmt) :
    env.keep (stmt.binding? value) = env.afterAll (stmt.assignment? value).toList := by
  cases stmt <;> rfl

theorem isName_of_parse {rounding : Rounding} {text : Text} {stmt : Stmt} {value : Decimal}
    {made : Assignment} (h : parse text (Token.scan rounding text) = .ok stmt)
    (hmade : stmt.assignment? value = some made) : made.name.isName = true := by
  have hderives := parse_ok_iff.mp h
  -- An assignment begins with the token of its name.
  generalize htokens : Token.beforeEnd (Token.scan rounding text) = tokens at hderives
  cases hderives with
  | expression => cases hmade
  | variableAssignment kind =>
    cases hmade
    exact Token.isName_of_scan (by rw [htokens]; exact List.mem_cons_self) kind
  | functionAssignment kind =>
    cases hmade
    exact Token.isName_of_scan (by rw [htokens]; exact List.mem_cons_self) kind

end Stmt

theorem eq_ok_of_toOption {ε α : Type} {result : Except ε α} {a : α}
    (h : result.toOption = some a) : result = .ok a := by
  cases result with
  | error failure => cases h
  | ok found => exact congrArg _ (Option.some.inj h)

theorem ok_of_mapError {ε ε' α : Type} {f : ε → ε'} {result : Except ε α} {a : α}
    (h : result.mapError f = .ok a) : result = .ok a := by
  cases result with
  | error failure => cases h
  | ok found => exact congrArg _ (Except.ok.inj h)

theorem ok_of_bind {ε α β : Type} {result : Except ε α} {next : α → Except ε β} {b : β}
    (h : result.bind next = .ok b) : ∃ a, result = .ok a ∧ next a = .ok b := by
  cases result with
  | error failure => cases h
  | ok a => exact ⟨a, rfl, h⟩

namespace Session

variable {s : Session} {text : Text} {ctx : Context}

/-- What a text comes to is the value of the statement that it is parsed to. -/
theorem outcome_ok {stmt : Stmt} {value : Decimal}
    (h : (s.outcome text ctx).1 = .ok (stmt, value)) :
    Stmt.parse text (Token.scan ctx.rounding text) = .ok stmt ∧
      (stmt.outcome s.scope ctx).1 = .ok value := by
  unfold outcome at h
  split at h
  · cases h
  · rename_i parsed hparse
    obtain ⟨found, hvalue, hfound⟩ := ok_of_bind h
    cases hfound
    exact ⟨hparse, hvalue⟩

/-- An answer shows what the text comes to. -/
theorem result_ok {answer : Answer} (h : s.result text ctx = .ok answer) :
    (s.outcome text ctx).1 = .ok (answer.statement, answer.value) ∧
      s.format answer.value = .ok answer.output := by
  obtain ⟨⟨stmt, value⟩, houtcome, hshown⟩ := ok_of_bind h
  cases hformat : s.format value with
  | error failure =>
    simp only [hformat] at hshown
    cases hshown
  | ok output =>
    simp only [hformat] at hshown
    cases hshown
    exact ⟨houtcome, hformat⟩

end Session

/-! ## Runs -/

namespace Desk

variable (d : Desk)

/-- What a request assigns: if the text of a commit is an assignment and has a value, that one. -/
def assignment? : Request → Option Assignment
  | .preview _ => none
  | .commit text =>
    (d.session.outcome text d.shared.context).1.toOption.bind fun found =>
      found.1.assignment? found.2

/-- The answer that becomes the last result. -/
def answer? : Request → Option Answer
  | .preview _ => none
  | .commit text => (d.handle (.commit text)).1.toOption

/-- What the requests of a run yield, in order. -/
def collect {α : Type} (d : Desk) (yield : Desk → Request → Option α) : List Request → List α
  | [] => []
  | request :: rest => (yield d request).toList ++ (d.handle request).2.collect yield rest

/-- The assignments of a run. -/
def assignments (requests : List Request) : List Assignment := d.collect assignment? requests

/-- The answers to the commits of a run. -/
def answers (requests : List Request) : List Answer := d.collect answer? requests

theorem of_mem_collect {α : Type} {yield : Desk → Request → Option α} {requests : List Request}
    {a : α} (h : a ∈ d.collect yield requests) : ∃ (before : Desk) (request : Request),
      yield before request = some a := by
  induction requests generalizing d with
  | nil => cases h
  | cons request rest ih =>
    rw [collect, List.mem_append, Option.mem_toList] at h
    rcases h with hfirst | hrest
    · exact ⟨d, request, hfirst⟩
    · exact ih _ hrest

theorem env_handle (request : Request) :
    (d.handle request).2.session.env = d.session.env.afterAll (d.assignment? request).toList := by
  cases request with
  | preview text => rw [(d.handle_preview text).2.1]; rfl
  | commit text =>
    rw [(d.handle_commit text).2.1, Session.committed_env, Session.kept, assignment?]
    cases (d.session.outcome text d.shared.context).1 with
    | error failure => rfl
    | ok found => exact Stmt.keep_binding? _ _ _

theorem last_handle (request : Request) : (d.handle request).2.session.last =
    ((d.answer? request).map Answer.value).getD d.session.last := by
  cases request with
  | preview text => rw [(d.handle_preview text).2.1]; rfl
  | commit text =>
    obtain ⟨hresult, hsession, -⟩ := d.handle_commit text
    rw [hsession, answer?, hresult, Session.committed]
    cases d.session.result text d.shared.context <;> rfl

theorem env_after (requests : List Request) :
    (d.after requests).session.env = d.session.env.afterAll (d.assignments requests) := by
  induction requests generalizing d with
  | nil => rfl
  | cons request rest ih =>
    refine (ih (d.handle request).2).trans ?_
    rw [env_handle]
    exact (List.foldl_append ..).symm

theorem last_after (requests : List Request) : (d.after requests).session.last =
    ((d.answers requests).getLast?.map Answer.value).getD d.session.last := by
  induction requests generalizing d with
  | nil => rfl
  | cons request rest ih =>
    refine (ih (d.handle request).2).trans ?_
    rw [last_handle, answers, answers, collect, List.getLast?_append]
    cases ((d.handle request).2.collect answer? rest).getLast? with
    | some answer => rfl
    | none => cases d.answer? request <;> rfl

theorem isName_of_assigned {requests : List Request} {made : Assignment}
    (h : made ∈ d.assignments requests) : made.name.isName = true := by
  obtain ⟨before, request, hyield⟩ := d.of_mem_collect h
  cases request with
  | preview text => cases hyield
  | commit text =>
    obtain ⟨found, hfound, hmade⟩ := Option.bind_eq_some_iff.mp hyield
    exact Stmt.isName_of_parse (Session.outcome_ok (eq_ok_of_toOption hfound)).1 hmade

/-- A definition is answered with one. -/
theorem value_of_definition {requests : List Request} {answer : Answer}
    (h : answer ∈ d.answers requests) (hdefinition : answer.statement.isDefinition = true) :
    answer.value = .one := by
  obtain ⟨before, request, hyield⟩ := d.of_mem_collect h
  cases request with
  | preview text => cases hyield
  | commit text =>
    have hanswer := eq_ok_of_toOption hyield
    rw [(before.handle_commit text).1] at hanswer
    obtain ⟨-, hvalue⟩ := Session.outcome_ok (Session.result_ok (ok_of_mapError hanswer)).1
    cases hstmt : answer.statement with
    | functionAssignment name params body =>
      rw [hstmt] at hvalue
      exact (Except.ok.inj hvalue).symm
    | _ =>
      rw [hstmt] at hdefinition
      cases hdefinition

end Desk

/-! ## New sessions -/

namespace Environment

theorem find?_withBuiltins (name : Text) : withBuiltins.find? name =
    (Builtin.all.find? fun b => b.name = name).map fun b => .function (.builtin b) := by
  have hmembers : withBuiltins.members =
      Builtin.all.map fun b => (b.name, .function (.builtin b)) := rfl
  rw [find?, hmembers]
  generalize Builtin.all = all
  induction all with
  | nil => rfl
  | cons b rest ih =>
    rw [List.map_cons, Member.lookup_cons, ih]
    by_cases h : name = b.name
    · rw [if_pos h, List.find?_cons_of_pos (by simpa using h.symm)]
      rfl
    · rw [if_neg h, List.find?_cons_of_neg (by simpa using Ne.symm h)]

theorem afterAll_withBuiltins (made : List Assignment) :
    withBuiltins.afterAll made = empty.afterAll (Assignment.builtins ++ made) := by
  rw [withBuiltins_eq, afterAll, afterAll, afterAll, List.foldl_append]

theorem size_afterAll_withBuiltins (made : List Assignment) : (withBuiltins.afterAll made).size =
    6 + ((made.map Assignment.name).toFinset \ (Builtin.all.map Builtin.name).toFinset).card := by
  have hbuiltins : Assignment.builtins.map Assignment.name = Builtin.all.map Builtin.name := rfl
  have hsix : (Builtin.all.map Builtin.name).toFinset.card = 6 := by decide
  rw [afterAll_withBuiltins, size_of_history, List.map_append, List.toFinset_append, hbuiltins,
    Finset.union_comm, ← Finset.card_sdiff_add_card, hsix, Nat.add_comm]

end Environment

theorem Desk.env_after_start (settings : Settings) (shared : Shared) (requests : List Request) :
    ((start settings shared).after requests).session.env =
      Environment.withBuiltins.afterAll ((start settings shared).assignments requests) :=
  (start settings shared).env_after requests

/-- All that a new session has got a name for is named by letters and digits. -/
theorem Desk.isName_of_has (settings : Settings) (shared : Shared) {requests : List Request}
    {name : Text} (h : ((start settings shared).after requests).session.env.has name = true) :
    name.isName = true := by
  rw [env_after_start, Environment.afterAll_withBuiltins, Environment.has_of_history] at h
  obtain ⟨call, hcall, rfl⟩ := h
  rcases List.mem_append.mp hcall with hbuiltin | hmade
  · obtain ⟨b, -, rfl⟩ := List.mem_map.mp hbuiltin
    exact b.isName_name
  · exact (start settings shared).isName_of_assigned hmade

/-- **A session is the fold of its statements.** After any requests to a new session, whatever other
sessions have left, a name holds what was assigned to it last by a commit that had a value, else the
built-in function of the name, else nothing. The last result is the value of the last commit that
was answered, one for a definition, and zero at first. The size counts the built-in functions and
the other names that were assigned to. All names are letters followed by letters and digits, and a
completion lists those with its beginning, in increasing order, with what they hold. -/
theorem session_is_fold (settings : Settings) (shared : Shared) (requests : List Request) :
    let start := Desk.start settings shared
    let s := (start.after requests).session
    let made := start.assignments requests
    (∀ name, s.env.find? name = ((Assignment.lastFor name made).map Assignment.member).or
      ((Builtin.all.find? fun b => b.name = name).map fun b => .function (.builtin b))) ∧
    s.last = ((start.answers requests).getLast?.map Answer.value).getD .zero ∧
    (∀ answer ∈ start.answers requests, answer.statement.isDefinition = true →
      answer.value = .one) ∧
    s.env.size =
      6 + ((made.map Assignment.name).toFinset \ (Builtin.all.map Builtin.name).toFinset).card ∧
    (∀ name, s.env.has name = true → name.isName = true) ∧
    ∀ beginning, (s.complete beginning).Pairwise (·.1 < ·.1) ∧
      ∀ name member, (name, member) ∈ s.complete beginning ↔
        beginning <+: name ∧ s.env.find? name = some member := by
  intro start s made
  have henv : s.env = Environment.withBuiltins.afterAll made :=
    Desk.env_after_start settings shared requests
  refine ⟨fun name => ?_, start.last_after requests, fun answer => start.value_of_definition, ?_,
    fun name => Desk.isName_of_has settings shared, fun beginning =>
      ⟨s.env.search_sorted beginning, fun name member => Environment.mem_search_iff⟩⟩
  · rw [henv, Environment.find?_afterAll, Environment.find?_withBuiltins]
  · rw [henv, Environment.size_afterAll_withBuiltins]

/-- A variable takes the place of a built-in function. What is previewed is not kept, nor what has
no value. -/
theorem session_is_fold_replacing :
    let start := Desk.start .default .initial
    let requests : List Request := [.commit "x=2", .preview "x=9", .commit "f(a)=a+x",
      .commit "sin=x+1", .commit "y=z", .commit "f(3)"]
    let s := (start.after requests).session
    (start.assignments requests).map Assignment.name = (["x", "f", "sin"] : List Text) ∧
    (∃ answer ∈ start.answers requests, answer.statement.isDefinition = true ∧
      answer.value = .one) ∧
    s.env.has "sin" = true ∧ ("sin" : Text).isName = true ∧ s.env.size = 8 := by
  intro start requests s
  obtain ⟨-, -, hvalue, hsize, hname, -⟩ := session_is_fold .default .initial requests
  have hmade : (start.assignments requests).map Assignment.name =
      (["x", "f", "sin"] : List Text) := by
    decide +kernel
  have hdefined : (start.answers requests).any (·.statement.isDefinition) = true := by
    decide +kernel
  have hhas : s.env.has "sin" = true := by decide +kernel
  obtain ⟨answer, hanswer, hdefinition⟩ := List.any_eq_true.mp hdefined
  refine ⟨hmade, ⟨answer, hanswer, hdefinition, hvalue answer hanswer hdefinition⟩, hhas,
    hname _ hhas, hsize.trans ?_⟩
  rw [hmade]
  decide

end Reckoner
