import Reckoner.Expr.Parse

/-!
# The grammar of statements

    stmt     ::= expr | IDENT '=' expr | IDENT '(' IDENT (',' IDENT)* ')' '=' expr
    expr     ::= factor (('+'|'-') factor)*
    factor   ::= unary (('*'|'/') unary)*
    unary    ::= ('+'|'-') unary | exponent
    exponent ::= primary ('^' signed)*
    signed   ::= ('+'|'-') signed | primary
    primary  ::= NUMBER | '(' expr ')' | IDENT | IDENT '(' expr (',' expr)* ')'

A derivation goes with the tree it stands for: repetitions are folded to the left and groupings
are nodes of their own. `Derives.serve` moves a derivation up the chain of nonterminals that
contain each other, and the inversions say which tokens a name or a call was read from.
-/

namespace Reckoner

/-- The nonterminals that repeat over operators: `expr`, `factor` and `exponent`. -/
inductive Chain where
  | sum
  | product
  | power
deriving DecidableEq

/-- The nonterminals of expressions. Signs may stand in front of a whole power, or of a primary
in an exponent. -/
inductive Phrase where
  | chain (c : Chain)
  | signs (inExponent : Bool)
  | primary
deriving DecidableEq

namespace Phrase

abbrev expr : Phrase := chain .sum

abbrev factor : Phrase := chain .product

abbrev unary : Phrase := signs false

abbrev exponent : Phrase := chain .power

abbrev signed : Phrase := signs true

/-- What remains once the signs have been read. -/
def unsigned (inExponent : Bool) : Phrase := if inExponent then primary else exponent

/-- How tightly a phrase binds. -/
def level : Phrase → Nat
  | chain .sum => 1
  | chain .product => 2
  | signs false => 3
  | chain .power => 4
  | signs true => 5
  | primary => 6

/-- The phrase that is one of this kind by itself, with nothing repeated and no sign. -/
def inner : Phrase → Option Phrase
  | chain .sum => some factor
  | chain .product => some unary
  | signs false => some exponent
  | chain .power => some primary
  | signs true => some primary
  | primary => none

/-- A phrase of the first kind is one of the second kind as well. A signed exponent is no power. -/
def Serves (p q : Phrase) : Prop := q.level ≤ p.level ∧ (p = signed → q = signed)

instance (p q : Phrase) : Decidable (p.Serves q) := inferInstanceAs (Decidable (_ ∧ _))

theorem Serves.refl (p : Phrase) : p.Serves p := ⟨Nat.le_refl _, id⟩

theorem Serves.trans {p q r : Phrase} (hpq : p.Serves q) (hqr : q.Serves r) : p.Serves r :=
  ⟨Nat.le_trans hqr.1 hpq.1, fun h => hqr.2 (hpq.2 h)⟩

theorem primary_serves (q : Phrase) : primary.Serves q := by
  rcases q with (_ | _ | _) | (_ | _) | _ <;> decide

theorem chain_serves_expr (c : Chain) : (chain c).Serves expr := by
  cases c <;> decide

theorem unsigned_serves (b : Bool) : (unsigned b).Serves (signs b) := by
  cases b <;> decide

theorem serves_inner {p q : Phrase} (h : p.Serves q) (hne : p ≠ q) :
    ∃ r, q.inner = some r ∧ p.Serves r ∧ q.level < r.level := by
  revert h hne
  rcases p with (_ | _ | _) | (_ | _) | _ <;> rcases q with (_ | _ | _) | (_ | _) | _ <;>
    simp [inner] <;> decide

end Phrase

namespace Chain

/-- What a repetition begins with. -/
def first : Chain → Phrase
  | sum => .factor
  | product => .unary
  | power => .primary

/-- What stands behind each operator. -/
def next : Chain → Phrase
  | sum => .factor
  | product => .unary
  | power => .signed

def operators : Chain → List Token.Kind
  | sum => [.plus, .minus]
  | product => [.star, .slash]
  | power => [.caret]

def level (c : Chain) : Nat := (Phrase.chain c).level

theorem first_serves (c : Chain) : c.first.Serves (.chain c) := by
  cases c <;> exact ⟨by decide, by intro h; cases h⟩

theorem level_le_next (c : Chain) : c.level ≤ c.next.level := by
  cases c <;> decide

end Chain

/-- One turn of a repetition: the operator or comma, and the phrase behind it with its tree. -/
structure Turn where
  mark : Token
  tokens : List Token
  tree : Expr

namespace Turn

def spell (turns : List Turn) : List Token := turns.flatMap fun turn => turn.mark :: turn.tokens

def fold (first : Expr) (turns : List Turn) : Expr :=
  turns.foldl (fun left turn => .binary left turn.mark turn.tree) first

@[simp] theorem spell_nil : spell [] = [] := rfl

@[simp] theorem spell_cons (turn : Turn) (turns : List Turn) :
    spell (turn :: turns) = turn.mark :: (turn.tokens ++ spell turns) := by simp [spell]

@[simp] theorem spell_append (turns more : List Turn) :
    spell (turns ++ more) = spell turns ++ spell more := by simp [spell]

@[simp] theorem fold_nil (first : Expr) : fold first [] = first := rfl

@[simp] theorem fold_cons (first : Expr) (turn : Turn) (turns : List Turn) :
    fold first (turn :: turns) = fold (.binary first turn.mark turn.tree) turns := rfl

theorem fold_concat (first : Expr) (turns : List Turn) (turn : Turn) :
    fold first (turns ++ [turn]) = .binary (fold first turns) turn.mark turn.tree := by
  simp [fold]

theorem fold_position (first : Expr) (turns : List Turn) :
    (fold first turns).position = first.position := by
  induction turns generalizing first with
  | nil => rfl
  | cons turn turns ih => rw [fold_cons, ih, Expr.position]

/-- A repetition with a turn in it is an operation. -/
theorem fold_eq {first e : Expr} {turns : List Turn} (h : fold first turns = e)
    (he : ∀ left operator right, e ≠ .binary left operator right) : turns = [] ∧ first = e := by
  rcases List.eq_nil_or_concat turns with rfl | ⟨turns, turn, rfl⟩
  · exact ⟨rfl, h⟩
  · rw [List.concat_eq_append, fold_concat] at h
    exact absurd h.symm (he _ _ _)

end Turn

/-- The tokens derive a phrase, and this is its tree. Names are read from the source. -/
inductive Derives (source : Text) : Phrase → List Token → Expr → Prop where
  | chain {c : Chain} {ts : List Token} {e : Expr} (turns : List Turn)
      (first : Derives source c.first ts e)
      (marks : ∀ turn ∈ turns, turn.mark.kind ∈ c.operators)
      (nexts : ∀ turn ∈ turns, Derives source c.next turn.tokens turn.tree) :
      Derives source (.chain c) (ts ++ Turn.spell turns) (Turn.fold e turns)
  | sign {b : Bool} {operator : Token} {ts : List Token} {e : Expr}
      (mark : operator.kind = .plus ∨ operator.kind = .minus)
      (operand : Derives source (.signs b) ts e) :
      Derives source (.signs b) (operator :: ts) (.unary operator e)
  | unsigned {b : Bool} {ts : List Token} {e : Expr}
      (operand : Derives source (.unsigned b) ts e) : Derives source (.signs b) ts e
  | number {t : Token} {value : Decimal} (kind : t.kind = .number (some value)) :
      Derives source .primary [t] (.literal value t.start)
  | grouping {opening closing : Token} {ts : List Token} {e : Expr}
      (opened : opening.kind = .leftParen) (inner : Derives source .expr ts e)
      (closed : closing.kind = .rightParen) :
      Derives source .primary (opening :: (ts ++ [closing])) (.grouping e opening.start)
  | name {t : Token} (kind : t.kind = .identifier) :
      Derives source .primary [t] (.var (t.name source) t.start)
  | call {name opening closing : Token} {ts : List Token} {e : Expr} (turns : List Turn)
      (kind : name.kind = .identifier) (opened : opening.kind = .leftParen)
      (first : Derives source .expr ts e)
      (commas : ∀ turn ∈ turns, turn.mark.kind = .comma)
      (nexts : ∀ turn ∈ turns, Derives source .expr turn.tokens turn.tree)
      (closed : closing.kind = .rightParen) :
      Derives source .primary (name :: opening :: (ts ++ Turn.spell turns ++ [closing]))
        (.call (name.name source) (e :: turns.map Turn.tree) name.start)

/-- The tokens derive a statement, and this is its tree. -/
inductive DerivesStmt (source : Text) : List Token → Stmt → Prop where
  | expression {ts : List Token} {e : Expr} (expr : Derives source .expr ts e) :
      DerivesStmt source ts (.expression e)
  | variableAssignment {name equal : Token} {ts : List Token} {e : Expr}
      (kind : name.kind = .identifier) (assigned : equal.kind = .equal)
      (value : Derives source .expr ts e) :
      DerivesStmt source (name :: equal :: ts) (.variableAssignment (name.name source) e)
  | functionAssignment {name opening param closing equal : Token}
      {others : List (Token × Token)} {ts : List Token} {e : Expr}
      (kind : name.kind = .identifier) (opened : opening.kind = .leftParen)
      (first : param.kind = .identifier)
      (commas : ∀ other ∈ others, other.1.kind = .comma)
      (params : ∀ other ∈ others, other.2.kind = .identifier)
      (closed : closing.kind = .rightParen) (assigned : equal.kind = .equal)
      (body : Derives source .expr ts e) :
      DerivesStmt source
        (name :: opening :: param :: (others.flatMap fun other => [other.1, other.2]) ++
          closing :: equal :: ts)
        (.functionAssignment (name.name source)
          (param.name source :: others.map fun other => other.2.name source) e)

/-- The tokens are of the form `expr` or `expr = expr`, and these are the trees of its sides. -/
inductive Sentence (source : Text) : List Token → Option Expr → Expr → Prop where
  | expression {ts : List Token} {e : Expr} (expr : Derives source .expr ts e) :
      Sentence source ts none e
  | equation {ts us : List Token} {equal : Token} {target value : Expr}
      (left : Derives source .expr ts target) (assigned : equal.kind = .equal)
      (right : Derives source .expr us value) :
      Sentence source (ts ++ equal :: us) (some target) value

/-- Some continuation of the tokens is of the form `expr` or `expr = expr`. -/
def Viable (source : Text) (ts : List Token) : Prop :=
  ∃ rest target value, Sentence source (ts ++ rest) target value

namespace Derives

variable {source : Text} {ts us : List Token} {e : Expr}

theorem one {c : Chain} (h : Derives source c.first ts e) : Derives source (.chain c) ts e := by
  have := Derives.chain [] h (by simp) (by simp)
  simpa using this

/-- A repetition goes on to the right. -/
theorem extend {c : Chain} {left right : Expr} {operator : Token}
    (hl : Derives source (.chain c) ts left) (ho : operator.kind ∈ c.operators)
    (hr : Derives source c.next us right) :
    Derives source (.chain c) (ts ++ operator :: us) (.binary left operator right) := by
  cases hl with
  | chain turns first marks nexts =>
    have h := Derives.chain (turns ++ [⟨operator, us, right⟩]) first
      (by simpa [or_imp, forall_and] using ⟨marks, ho⟩)
      (by simpa [or_imp, forall_and] using ⟨nexts, hr⟩)
    simpa [Turn.fold_concat] using h

theorem of_inner {p q : Phrase} (h : Derives source p ts e) (hi : q.inner = some p) :
    Derives source q ts e := by
  rcases q with (_ | _ | _) | (_ | _) | _ <;> cases hi
  · exact one (c := .sum) h
  · exact one (c := .product) h
  · exact one (c := .power) h
  · exact .unsigned h
  · exact .unsigned h

/-- A phrase stands for every looser one that contains it. -/
theorem serve {p q : Phrase} (h : Derives source p ts e) (hs : p.Serves q) :
    Derives source q ts e := by
  by_cases hpq : p = q
  · exact hpq ▸ h
  · obtain ⟨r, hi, hr, _⟩ := Phrase.serves_inner hs hpq
    exact of_inner (serve h hr) hi
termination_by 6 - q.level
decreasing_by
  have : r.level ≤ 6 := (Phrase.primary_serves r).1
  omega

/-- Only an operation is more than a primary. -/
theorem primary_of {p : Phrase} (h : Derives source p ts e)
    (hb : ∀ left operator right, e ≠ .binary left operator right)
    (hu : ∀ operator operand, e ≠ .unary operator operand) : Derives source .primary ts e := by
  induction h with
  | chain turns _ _ _ ih _ =>
    obtain ⟨rfl, he⟩ := Turn.fold_eq rfl hb
    rw [Turn.fold_nil] at hb hu ⊢
    simpa using ih hb hu
  | sign => exact absurd rfl (hu _ _)
  | unsigned _ ih => exact ih hb hu
  | number kind => exact .number kind
  | grouping opened inner closed => exact .grouping opened inner closed
  | name kind => exact .name kind
  | call turns kind opened first commas nexts closed =>
    exact .call turns kind opened first commas nexts closed

/-- A name is read from its own token alone. -/
theorem tokens_of_var {p : Phrase} {name : Text} {pos : Int}
    (h : Derives source p ts (.var name pos)) :
    ∃ t : Token, t.kind = .identifier ∧ ts = [t] ∧ t.name source = name ∧ t.start = pos := by
  cases primary_of h (by simp) (by simp) with
  | name kind => exact ⟨_, kind, rfl, rfl, rfl⟩

/-- The leftmost token of a phrase gives the position of its tree. -/
theorem position {p : Phrase} (h : Derives source p ts e) :
    ∃ t rest, ts = t :: rest ∧ e.position = .ok t.start := by
  induction h with
  | @chain c ts e turns _ _ _ ih _ =>
    obtain ⟨t, rest, rfl, he⟩ := ih
    exact ⟨t, rest ++ Turn.spell turns, rfl, by rw [Turn.fold_position, he]⟩
  | sign => exact ⟨_, _, rfl, rfl⟩
  | unsigned _ ih => exact ih
  | number => exact ⟨_, _, rfl, rfl⟩
  | grouping => exact ⟨_, _, rfl, rfl⟩
  | name => exact ⟨_, _, rfl, rfl⟩
  | call => exact ⟨_, _, rfl, rfl⟩

end Derives
end Reckoner
