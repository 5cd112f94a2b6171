import Mathlib.Data.List.Forall2
import Reckoner.Highlight
import Reckoner.Proofs.Lexemes
import Reckoner.Proofs.Parsing.Statement

/-!
# What tokens are read as

A statement has its names, literals and operators in the order in which they were written
(`Stmt.readings`), so the tokens that say something can be laid beside them, one by one. A token is
coloured before anything is parsed, with a look at the next token only; a derivation says what it
was read as (`Derives.shows`). The two agree as long as no parenthesis opens behind a phrase, which
would have made a call of the name in front of it (`highlighting_agrees_with_parsing`).
-/

namespace Reckoner

/-- A name, a literal or an operator of a statement. What is in an expression has its
place with it. -/
inductive Reading where
  | callee (name : Text) (pos : Int)
  | var (name : Text) (pos : Int)
  | literal (value : Decimal) (pos : Int)
  | operator (token : Token)
  | defined (name : Text)
  | parameter (name : Text)
  | assigned (name : Text)

namespace Token.Kind

def isOperator : Token.Kind → Bool
  | plus => true
  | minus => true
  | star => true
  | slash => true
  | caret => true
  | _ => false

/-- Names, numbers and operators. The other tokens only hold a statement together. -/
def isWord : Token.Kind → Bool
  | identifier => true
  | number _ => true
  | kind => kind.isOperator

end Token.Kind

namespace Reading

/-- The name of a function that is called or defined. -/
def namesFunction : Reading → Bool
  | callee _ _ => true
  | defined _ => true
  | _ => false

/-- The name of a variable that is read or assigned, or of a parameter. -/
def namesValue : Reading → Bool
  | var _ _ => true
  | parameter _ => true
  | assigned _ => true
  | _ => false

/-- It was read from this token of the source. -/
inductive From (source : Text) (t : Token) : Reading → Prop where
  | callee (kind : t.kind = .identifier) : From source t (.callee (t.name source) t.start)
  | var (kind : t.kind = .identifier) : From source t (.var (t.name source) t.start)
  | literal {value : Decimal} (kind : t.kind = .number (some value)) :
      From source t (.literal value t.start)
  | operator (kind : t.kind.isOperator = true) : From source t (.operator t)
  | defined (kind : t.kind = .identifier) : From source t (.defined (t.name source))
  | parameter (kind : t.kind = .identifier) : From source t (.parameter (t.name source))
  | assigned (kind : t.kind = .identifier) : From source t (.assigned (t.name source))

/-- It was read from this token, which is blue exactly if it names a function, and red exactly if it
names a value. -/
structure Agrees (source : Text) (entry : Token × Option Color) (reading : Reading) : Prop where
  read : reading.From source entry.1
  blue : entry.2 = some .blue ↔ reading.namesFunction = true
  red : entry.2 = some .red ↔ reading.namesValue = true

/-- The colour that a token of this meaning is to have. -/
def color : Reading → Color
  | callee _ _ => .blue
  | var _ _ => .red
  | literal _ _ => .magenta
  | operator _ => .cyan
  | defined _ => .blue
  | parameter _ => .red
  | assigned _ => .red

theorem color_eq_blue_iff (reading : Reading) :
    reading.color = .blue ↔ reading.namesFunction = true := by
  cases reading <;> simp [color, namesFunction]

theorem color_eq_red_iff (reading : Reading) :
    reading.color = .red ↔ reading.namesValue = true := by
  cases reading <;> simp [color, namesValue]

end Reading

namespace Expr

mutual

/-- The names, literals and operators of an expression, from left to right. -/
def readings : Expr → List Reading
  | literal value pos => [.literal value pos]
  | binary left operator right => left.readings ++ .operator operator :: right.readings
  | unary operator operand => .operator operator :: operand.readings
  | grouping inner _ => inner.readings
  | var name pos => [.var name pos]
  | call name args pos => .callee name pos :: readingsAll args
  | foreign _ => []

def readingsAll : List Expr → List Reading
  | [] => []
  | e :: rest => e.readings ++ readingsAll rest

end

theorem readingsAll_eq (args : List Expr) : readingsAll args = args.flatMap readings := by
  induction args with
  | nil => rfl
  | cons e rest ih => simp [readingsAll, ih]

end Expr

def Stmt.readings : Stmt → List Reading
  | expression expr => expr.readings
  | variableAssignment name value => .assigned name :: value.readings
  | functionAssignment name params body => .defined name :: (params.map .parameter ++ body.readings)
  | foreign _ => []

/-! ## Tokens beside readings -/

namespace Token

/-- Tokens with their colours, in front of other tokens. -/
def coloredBefore (rest : List Token) : List Token → List (Token × Option Color)
  | [] => []
  | t :: ts => (t, t.color (ts ++ rest).head?) :: coloredBefore rest ts

theorem colored_append (ts rest : List Token) :
    colored (ts ++ rest) = coloredBefore rest ts ++ colored rest := by
  induction ts with
  | nil => rfl
  | cons t ts ih => simp [colored, coloredBefore, ih]

theorem coloredBefore_append (rest ts us : List Token) :
    coloredBefore rest (ts ++ us) = coloredBefore (us ++ rest) ts ++ coloredBefore rest us := by
  induction ts with
  | nil => rfl
  | cons t ts ih => simp [coloredBefore, ih]

theorem map_fst_coloredBefore (rest ts : List Token) :
    (coloredBefore rest ts).map Prod.fst = ts := by
  induction ts with
  | nil => rfl
  | cons t ts ih => simp [coloredBefore, ih]

/-- Of coloured tokens those that say something. -/
def words (entries : List (Token × Option Color)) : List (Token × Option Color) :=
  entries.filter fun entry => entry.1.kind.isWord

/-- No parenthesis opens here. -/
def NotCalled (rest : List Token) : Prop := ∀ t ∈ rest.head?, t.kind ≠ .leftParen

theorem notCalled_cons {t : Token} {rest : List Token} (h : t.kind ≠ .leftParen) :
    NotCalled (t :: rest) := by
  simpa [NotCalled] using h

theorem color_of_notCalled {t : Token} {rest : List Token} (hkind : t.kind = .identifier)
    (h : NotCalled rest) : t.color rest.head? = some .red := by
  have hnext : rest.head?.map (·.kind) ≠ some .leftParen := by
    simpa [NotCalled] using h
  simp [color, hkind, hnext]

theorem color_of_operator {t : Token} (h : t.kind.isOperator = true) (next : Option Token) :
    t.color next = some .cyan := by
  cases hkind : t.kind <;> simp [hkind, Kind.isOperator] at h <;> simp [color, hkind]

end Token

/-- In front of `rest`, the words among the tokens are what the readings were read from, one by one,
and have their colours. -/
def Shows (source : Text) (rest ts : List Token) (readings : List Reading) : Prop :=
  List.Forall₂ (fun entry reading => reading.From source entry.1 ∧ entry.2 = some reading.color)
    (Token.words (Token.coloredBefore rest ts)) readings

namespace Shows

variable {source : Text} {rest ts us : List Token} {t : Token} {readings more : List Reading}
  {reading : Reading}

theorem nil : Shows source rest [] [] := List.Forall₂.nil

theorem append (h : Shows source (us ++ rest) ts readings) (h' : Shows source rest us more) :
    Shows source rest (ts ++ us) (readings ++ more) := by
  simp only [Shows, Token.coloredBefore_append, Token.words, List.filter_append]
  exact List.rel_append h h'

theorem punctuation (hkind : t.kind.isWord = false) (h : Shows source rest ts readings) :
    Shows source rest (t :: ts) readings := by
  simpa [Shows, Token.coloredBefore, Token.words, hkind] using h

theorem word (hkind : t.kind.isWord = true) (hfrom : reading.From source t)
    (hcolor : t.color (ts ++ rest).head? = some reading.color) (h : Shows source rest ts readings) :
    Shows source rest (t :: ts) (reading :: readings) := by
  simp only [Shows, Token.coloredBefore, Token.words, List.filter_cons, hkind, if_true]
  exact .cons ⟨hfrom, hcolor⟩ h

theorem operator (hkind : t.kind.isOperator = true) (h : Shows source rest ts readings) :
    Shows source rest (t :: ts) (.operator t :: readings) := by
  apply word _ (.operator hkind) (Token.color_of_operator hkind _) h
  cases ht : t.kind <;> simp [ht, Token.Kind.isOperator] at hkind <;> rfl

/-- A name in front of which no parenthesis opens. -/
theorem value (hkind : t.kind = .identifier) (hfrom : reading.From source t)
    (hred : reading.color = .red) (hnext : Token.NotCalled (ts ++ rest))
    (h : Shows source rest ts readings) : Shows source rest (t :: ts) (reading :: readings) := by
  have hcolor := Token.color_of_notCalled hkind hnext
  exact word (congrArg Token.Kind.isWord hkind) hfrom (hred ▸ hcolor) h

/-- A name with its parenthesis. -/
theorem function {opening : Token} (hkind : t.kind = .identifier) (hfrom : reading.From source t)
    (hblue : reading.color = .blue) (hopened : opening.kind = .leftParen)
    (h : Shows source rest ts readings) :
    Shows source rest (t :: opening :: ts) (reading :: readings) := by
  have hcolor : t.color (some opening) = some reading.color := by
    simp [Token.color, hkind, hopened, hblue]
  have hopening := punctuation (congrArg Token.Kind.isWord hopened) h
  exact word (congrArg Token.Kind.isWord hkind) hfrom hcolor hopening

theorem closed (hkind : t.kind = .rightParen) (h : Shows source (t :: rest) ts readings) :
    Shows source rest (ts ++ [t]) readings := by
  have hclosing : Shows source rest [t] [] :=
    punctuation (congrArg Token.Kind.isWord hkind) nil
  simpa using append h hclosing

end Shows

/-! ## Derivations -/

section
variable {source : Text} {rest ts : List Token} {e : Expr} {p : Phrase} {turns : List Turn}

theorem Chain.isOperator_of_mem {c : Chain} {kind : Token.Kind} (h : kind ∈ c.operators) :
    kind.isOperator = true := by
  cases c <;> simp only [Chain.operators, List.mem_cons, List.not_mem_nil, or_false] at h
  case power => simp [h, Token.Kind.isOperator]
  all_goals cases h <;> simp [*, Token.Kind.isOperator]

theorem fold_readings (turns : List Turn) (e : Expr) : (Turn.fold e turns).readings =
    e.readings ++ turns.flatMap fun turn => .operator turn.mark :: turn.tree.readings := by
  induction turns generalizing e with
  | nil => simp
  | cons turn turns ih => simp [ih, Expr.readings]

theorem notCalled_spell (hrest : Token.NotCalled rest)
    (hmarks : ∀ turn ∈ turns, turn.mark.kind ≠ .leftParen) :
    Token.NotCalled (Turn.spell turns ++ rest) := by
  cases turns with
  | nil => simpa using hrest
  | cons turn turns => simpa using Token.notCalled_cons (hmarks turn (by simp))

/-- Turns are shown if each mark is shown as what it says, be it an operator or nothing, and each
phrase behind one. -/
theorem turns_show {said : Turn → List Reading} (hrest : Token.NotCalled rest)
    (hmarks : ∀ turn ∈ turns, turn.mark.kind ≠ .leftParen)
    (hsaid : ∀ turn ∈ turns, ∀ rest, Shows source rest [turn.mark] (said turn))
    (hnexts : ∀ turn ∈ turns, ∀ rest, Token.NotCalled rest →
      Shows source rest turn.tokens turn.tree.readings) :
    Shows source rest (Turn.spell turns)
      (turns.flatMap fun turn => said turn ++ turn.tree.readings) := by
  induction turns with
  | nil => exact .nil
  | cons turn turns ih =>
    simp only [List.forall_mem_cons] at hmarks hsaid hnexts
    have hphrase := hnexts.1 (Turn.spell turns ++ rest) (notCalled_spell hrest hmarks.2)
    have hturns := ih hmarks.2 hsaid.2 hnexts.2
    simpa using (hsaid.1 _).append (hphrase.append hturns)

/-- What derives a phrase is shown as its tree reads, if no parenthesis opens behind it. -/
theorem Derives.shows (h : Derives source p ts e) : ∀ rest, Token.NotCalled rest →
    Shows source rest ts e.readings := by
  induction h with
  | @chain c ts e turns _ marks _ ih ihn =>
    intro rest hrest
    have hmarks : ∀ turn ∈ turns, turn.mark.kind ≠ .leftParen := by
      intro turn hturn hkind
      simpa [hkind, Token.Kind.isOperator] using Chain.isOperator_of_mem (marks turn hturn)
    have hturns : Shows source rest (Turn.spell turns)
        (turns.flatMap fun turn => [.operator turn.mark] ++ turn.tree.readings) := by
      apply turns_show hrest hmarks _ ihn
      intro turn hturn rest
      exact .operator (Chain.isOperator_of_mem (marks turn hturn)) .nil
    simp only [fold_readings]
    exact (ih _ (notCalled_spell hrest hmarks)).append hturns
  | @sign b operator ts e mark _ ih =>
    intro rest hrest
    have hkind : operator.kind.isOperator = true := by
      cases mark <;> simp [*, Token.Kind.isOperator]
    simp only [Expr.readings]
    exact (ih rest hrest).operator hkind
  | unsigned _ ih => exact ih
  | @number t value kind =>
    intro rest _
    have hcolor : t.color rest.head? = some .magenta := by simp [Token.color, kind]
    exact .word (congrArg Token.Kind.isWord kind) (.literal kind) hcolor .nil
  | @grouping opening closing ts e opened _ closed ih =>
    intro rest _
    have hinner := ih (closing :: rest) (Token.notCalled_cons (by simp [closed]))
    simp only [Expr.readings]
    exact .punctuation (congrArg Token.Kind.isWord opened) (hinner.closed closed)
  | name kind =>
    intro rest hrest
    exact .value kind (.var kind) rfl hrest .nil
  | @call name opening closing ts e turns kind opened _ commas _ closed ih ihn =>
    intro rest _
    have hbehind : Token.NotCalled (closing :: rest) := Token.notCalled_cons (by simp [closed])
    have hmarks : ∀ turn ∈ turns, turn.mark.kind ≠ .leftParen := by
      intro turn hturn
      simp [commas turn hturn]
    have hturns : Shows source (closing :: rest) (Turn.spell turns)
        (turns.flatMap fun turn => [] ++ turn.tree.readings) := by
      apply turns_show hbehind hmarks _ ihn
      intro turn hturn rest
      exact .punctuation (congrArg Token.Kind.isWord (commas turn hturn)) .nil
    have hargs := ((ih _ (notCalled_spell hbehind hmarks)).append hturns).closed closed
    have hreadings : Expr.readingsAll (e :: turns.map Turn.tree) =
        e.readings ++ turns.flatMap fun turn => [] ++ turn.tree.readings := by
      simp [Expr.readingsAll, Expr.readingsAll_eq, List.flatMap_map]
    simp only [Expr.readings, hreadings]
    exact hargs.function kind (.callee kind) rfl opened

theorem params_show {others : List (Token × Token)} {param : Token} (hrest : Token.NotCalled rest)
    (first : param.kind = .identifier) (commas : ∀ other ∈ others, other.1.kind = .comma)
    (params : ∀ other ∈ others, other.2.kind = .identifier) :
    Shows source rest (param :: others.flatMap fun other => [other.1, other.2])
      ((param.name source :: others.map fun other => other.2.name source).map .parameter) := by
  induction others generalizing param with
  | nil => exact .value first (.parameter first) rfl hrest .nil
  | cons other others ih =>
    simp only [List.forall_mem_cons] at commas params
    have hcomma := Shows.punctuation (congrArg Token.Kind.isWord commas.1)
      (ih params.1 commas.2 params.2)
    have hnext : Token.NotCalled (other.1 :: other.2 ::
        (others.flatMap fun other => [other.1, other.2]) ++ rest) :=
      Token.notCalled_cons (by simp [commas.1])
    exact .value first (.parameter first) rfl hnext hcomma

theorem DerivesStmt.shows {stmt : Stmt} (h : DerivesStmt source ts stmt)
    (hrest : Token.NotCalled rest) : Shows source rest ts stmt.readings := by
  cases h with
  | expression expr => exact expr.shows rest hrest
  | variableAssignment kind assigned value =>
    have hequal := Shows.punctuation (congrArg Token.Kind.isWord assigned) (value.shows rest hrest)
    exact hequal.value kind (.assigned kind) rfl (Token.notCalled_cons (by simp [assigned]))
  | @functionAssignment name opening param closing equal others ts e kind opened first commas params
      closed assigned body =>
    have hequal := Shows.punctuation (congrArg Token.Kind.isWord assigned) (body.shows rest hrest)
    have hclosing := Shows.punctuation (congrArg Token.Kind.isWord closed) hequal
    have hbehind : Token.NotCalled (closing :: equal :: ts ++ rest) :=
      Token.notCalled_cons (by simp [closed])
    have hparams := (params_show hbehind first commas params).append hclosing
    exact hparams.function kind (.defined kind) rfl opened

/-! ## Scanned texts -/

/-- The end of the text says nothing, and it opens no parenthesis. -/
theorem words_scan (rounding : Rounding) (text : Text) :
    ∃ rest, Token.NotCalled rest ∧ Token.words (Token.colored (Token.scan rounding text)) =
      Token.words (Token.coloredBefore rest (Token.beforeEnd (Token.scan rounding text))) := by
  refine ⟨[⟨.endOfText, text.length, text.length⟩], Token.notCalled_cons (by simp), ?_⟩
  have hscan := congrArg Token.colored (Token.scan_eq rounding text)
  simp only [Token.colored_append] at hscan
  simp [hscan, Token.words, Token.colored, Token.Kind.isWord, Token.Kind.isOperator]

end

/-- **Highlighting agrees with parsing.** In every text that can be parsed, the identifiers, numbers
and operators are what the names, literals and operators of the statement were read from, one by one
and in the order of the text. A token is blue exactly if it was read as the name of a function, be
it one that is called or the one that is defined, and red exactly if it was read as a variable, as a
parameter or as the variable that is assigned. -/
theorem highlighting_agrees_with_parsing (rounding : Rounding) (text : Text) (stmt : Stmt)
    (h : Stmt.parse text (Token.scan rounding text) = .ok stmt) :
    let words := (Token.colored (Token.scan rounding text)).filter fun entry => entry.1.kind.isWord
    List.Forall₂ (Reading.Agrees text) words stmt.readings ∧
      (words.map fun entry => entry.1.start).Pairwise (· < ·) := by
  intro words
  obtain ⟨rest, hrest, hwords⟩ := words_scan rounding text
  have hshows := (parse_ok_iff.mp h).shows hrest
  constructor
  · simp only [Shows, ← hwords] at hshows
    apply hshows.imp
    rintro ⟨t, color⟩ reading ⟨hfrom, hcolor⟩
    simp only at hcolor
    subst hcolor
    exact ⟨hfrom, by simp [reading.color_eq_blue_iff], by simp [reading.color_eq_red_iff]⟩
  · have hwords : words =
        Token.words (Token.coloredBefore rest (Token.beforeEnd (Token.scan rounding text))) :=
      hwords
    have hsublist : (words.map Prod.fst).Sublist (Token.beforeEnd (Token.scan rounding text)) := by
      have hfilter : words.Sublist
          (Token.coloredBefore rest (Token.beforeEnd (Token.scan rounding text))) := by
        simp only [hwords, Token.words, List.filter_sublist]
      simpa only [Token.map_fst_coloredBefore] using hfilter.map Prod.fst
    have hstarts := (Token.starts_increasing rounding text).sublist hsublist
    simpa only [List.pairwise_map] using hstarts

/-- In `f(a)=a^g(2)` the name `f` is that of the function which is defined, `g` is called, and `a`
is a parameter first and a variable then. -/
theorem highlighting_agrees_with_definition :
    let text : Text := "f(a)=a^g(2)"
    let stmt : Stmt := .functionAssignment "f" ["a"] (.binary (.var "a" 5) ⟨.caret, 6, 7⟩
      (.call "g" [.literal (.ofNat 2) 9] 7))
    Stmt.parse text (Token.scan .halfEven text) = .ok stmt ∧
    stmt.readings = [.defined "f", .parameter "a", .var "a" 5, .operator ⟨.caret, 6, 7⟩,
      .callee "g" 7, .literal (.ofNat 2) 9] ∧
    List.Forall₂ (Reading.Agrees text) [(⟨.identifier, 0, 1⟩, some .blue),
      (⟨.identifier, 2, 3⟩, some .red), (⟨.identifier, 5, 6⟩, some .red),
      (⟨.caret, 6, 7⟩, some .cyan), (⟨.identifier, 7, 8⟩, some .blue),
      (⟨.number (some (.ofNat 2)), 9, 10⟩, some .magenta)]
      stmt.readings := by
  intro text stmt
  have hscan : Token.scan .halfEven text = [⟨.identifier, 0, 1⟩, ⟨.leftParen, 1, 2⟩,
      ⟨.identifier, 2, 3⟩, ⟨.rightParen, 3, 4⟩, ⟨.equal, 4, 5⟩, ⟨.identifier, 5, 6⟩, ⟨.caret, 6, 7⟩,
      ⟨.identifier, 7, 8⟩, ⟨.leftParen, 8, 9⟩, ⟨.number (some (.ofNat 2)), 9, 10⟩,
      ⟨.rightParen, 10, 11⟩, ⟨.endOfText, 11, 11⟩] := by decide +kernel
  have hparse : Stmt.parse text (Token.scan .halfEven text) = .ok stmt := by
    rw [hscan]
    rfl
  have hagrees := (highlighting_agrees_with_parsing .halfEven text stmt hparse).1
  rw [hscan] at hagrees
  exact ⟨hparse, rfl, hagrees⟩

end Reckoner
