import Reckoner.Proofs.Parsing.Statement
import Reckoner.Token.Scan

/-!
# Trees written out

A tree says what its tokens said, apart from where they stood: operators stand between their
operands, groupings are parenthesized and arguments have commas between them. Reading tokens and
writing the tree out gives their symbols back (`Derives.symbols_eq`), and every tree that has the
shape of a phrase is read back from its symbols, up to positions (`derives_of_fits`).

The main result is `parse_accepts_grammar`.
-/

namespace Reckoner

/-- What a token says: a name, or its kind with the literal of a number. -/
inductive Symbol where
  | name (text : Text)
  | mark (kind : Token.Kind)
deriving DecidableEq

def Token.symbol (source : Text) (t : Token) : Symbol :=
  if t.kind = .identifier then .name (t.name source) else .mark t.kind

theorem Token.kind_of_mark {source : Text} {t : Token} {kind : Token.Kind}
    (h : t.symbol source = .mark kind) : t.kind = kind := by
  unfold Token.symbol at h
  split at h
  · cases h
  · cases h; rfl

theorem Token.kind_of_name {source : Text} {t : Token} {name : Text}
    (h : t.symbol source = .name name) : t.kind = .identifier ∧ t.name source = name := by
  unfold Token.symbol at h
  split at h
  · rename_i kind
    cases h
    exact ⟨kind, rfl⟩
  · cases h

theorem Token.symbol_mark {source : Text} {t : Token} {kind : Token.Kind} (h : t.kind = kind)
    (hk : kind ≠ .identifier) : t.symbol source = .mark kind := by
  rw [Token.symbol, if_neg (by rw [h]; exact hk), h]

theorem Token.symbol_name {source : Text} {t : Token} (h : t.kind = .identifier) :
    t.symbol source = .name (t.name source) := if_pos h

theorem Chain.operator_ne {c : Chain} {kind : Token.Kind} (h : kind ∈ c.operators) :
    kind ≠ .identifier := by
  rintro rfl
  cases c <;> simp [Chain.operators] at h

namespace Expr

mutual

def symbols : Expr → List Symbol
  | literal value _ => [.mark (.number (some value))]
  | binary left operator right => left.symbols ++ .mark operator.kind :: right.symbols
  | unary operator operand => .mark operator.kind :: operand.symbols
  | grouping inner _ => .mark .leftParen :: (inner.symbols ++ [.mark .rightParen])
  | var name _ => [.name name]
  | call name args _ =>
    .name name :: .mark .leftParen :: ((behindCommas args).tail ++ [.mark .rightParen])
  | foreign _ => []

/-- Each expression with a comma in front. -/
def behindCommas : List Expr → List Symbol
  | [] => []
  | e :: rest => .mark .comma :: (e.symbols ++ behindCommas rest)

end

end Expr

def Stmt.symbols : Stmt → List Symbol
  | expression expr => expr.symbols
  | variableAssignment name value => .name name :: .mark .equal :: value.symbols
  | functionAssignment name params body =>
    .name name :: .mark .leftParen ::
      ((params.flatMap fun param => [.mark .comma, .name param]).tail
        ++ .mark .rightParen :: .mark .equal :: body.symbols)
  | foreign _ => []

/-! ## Writing out what was read -/

section
variable {source : Text} {ts : List Token} {e : Expr} {p : Phrase}

theorem fold_symbols (turns : List Turn) (e : Expr) : (Turn.fold e turns).symbols =
    e.symbols ++ turns.flatMap fun turn => .mark turn.mark.kind :: turn.tree.symbols := by
  induction turns generalizing e with
  | nil => simp
  | cons turn turns ih => simp [ih, Expr.symbols]

theorem turns_symbols {turns : List Turn} (marks : ∀ turn ∈ turns, turn.mark.kind ≠ .identifier)
    (written : ∀ turn ∈ turns, turn.tree.symbols = turn.tokens.map (Token.symbol source)) :
    (turns.flatMap fun turn => Symbol.mark turn.mark.kind :: turn.tree.symbols) =
      (Turn.spell turns).map (Token.symbol source) := by
  induction turns with
  | nil => rfl
  | cons turn turns ih =>
    have hrest := ih (fun t ht => marks t (List.mem_cons_of_mem _ ht))
      (fun t ht => written t (List.mem_cons_of_mem _ ht))
    have hmark : turn.mark.symbol source = .mark turn.mark.kind :=
      Token.symbol_mark rfl (marks turn List.mem_cons_self)
    simp [hrest, hmark, written turn List.mem_cons_self]

theorem behindCommas_trees {turns : List Turn} (commas : ∀ turn ∈ turns, turn.mark.kind = .comma) :
    Expr.behindCommas (turns.map Turn.tree) =
      turns.flatMap fun turn => .mark turn.mark.kind :: turn.tree.symbols := by
  induction turns with
  | nil => rfl
  | cons turn turns ih =>
    have hrest := ih fun t ht => commas t (List.mem_cons_of_mem _ ht)
    simp [Expr.behindCommas, hrest, commas turn List.mem_cons_self]

/-- A tree written out says what its tokens said. -/
theorem Derives.symbols_eq (h : Derives source p ts e) :
    e.symbols = ts.map (Token.symbol source) := by
  induction h with
  | @chain c ts e turns _ marks _ ih ihn =>
    have hturns := turns_symbols (fun turn ht => Chain.operator_ne (marks turn ht)) ihn
    rw [fold_symbols, ih, hturns, List.map_append]
  | @sign b operator _ _ mark _ ih =>
    have hmark : operator.symbol source = .mark operator.kind :=
      Token.symbol_mark rfl (by rcases mark with h | h <;> simp [h])
    simp [Expr.symbols, ih, hmark]
  | unsigned _ ih => exact ih
  | number kind => simp [Expr.symbols, Token.symbol_mark kind]
  | grouping opened _ closed ih =>
    simp [Expr.symbols, ih, Token.symbol_mark opened, Token.symbol_mark closed]
  | name kind => simp [Expr.symbols, Token.symbol_name kind]
  | @call _ _ _ _ _ turns kind opened _ commas _ closed ih ihn =>
    have hturns := turns_symbols (fun turn ht => by simp [commas turn ht]) ihn
    simp [Expr.symbols, Expr.behindCommas, behindCommas_trees commas, hturns, ih,
      Token.symbol_name kind, Token.symbol_mark opened, Token.symbol_mark closed]

theorem params_symbols {others : List (Token × Token)}
    (commas : ∀ other ∈ others, other.1.kind = .comma)
    (params : ∀ other ∈ others, other.2.kind = .identifier) :
    ((others.map fun other => other.2.name source).flatMap fun param =>
      [Symbol.mark .comma, .name param]) =
      (others.flatMap fun other => [other.1, other.2]).map (Token.symbol source) := by
  induction others with
  | nil => rfl
  | cons other others ih =>
    have hrest := ih (fun o ho => commas o (List.mem_cons_of_mem _ ho))
      (fun o ho => params o (List.mem_cons_of_mem _ ho))
    have hmark : other.1.symbol source = .mark .comma :=
      Token.symbol_mark (commas other List.mem_cons_self) (by simp)
    simp only [List.map_cons, List.flatMap_cons, List.map_append, hrest, List.map_nil, hmark,
      Token.symbol_name (params other List.mem_cons_self)]

theorem DerivesStmt.symbols_eq {stmt : Stmt} (h : DerivesStmt source ts stmt) :
    stmt.symbols = ts.map (Token.symbol source) := by
  cases h with
  | expression expr => exact expr.symbols_eq
  | variableAssignment kind assigned value =>
    simp [Stmt.symbols, value.symbols_eq, Token.symbol_name kind, Token.symbol_mark assigned]
  | functionAssignment kind opened first commas params closed assigned body =>
    simp [Stmt.symbols, body.symbols_eq, params_symbols commas params, Token.symbol_name kind,
      Token.symbol_name first, Token.symbol_mark opened, Token.symbol_mark closed,
      Token.symbol_mark assigned]

end

/-! ## Trees of a phrase -/

/-- The repetition that an operator belongs to. -/
def Token.Kind.chain? : Token.Kind → Option Chain
  | plus => some .sum
  | minus => some .sum
  | star => some .product
  | slash => some .product
  | caret => some .power
  | _ => none

theorem Token.Kind.chain?_eq_some {kind : Token.Kind} {c : Chain} :
    kind.chain? = some c ↔ kind ∈ c.operators := by
  cases kind <;> cases c <;> simp [chain?, Chain.operators]

namespace Expr

mutual

/-- The tree is one of a phrase: operands bind as tightly as the place they stand in asks for, so
that repetitions lean to the left, and every call has arguments. -/
def fits : Expr → Phrase → Bool
  | literal _ _, _ => true
  | binary left operator right, p =>
    match operator.kind.chain? with
    | some c => decide ((Phrase.chain c).Serves p) && left.fits (.chain c) && right.fits c.next
    | none => false
  | unary operator operand, p =>
    let b := decide (p = .signed)
    (operator.kind = .plus || operator.kind = .minus) && decide ((Phrase.signs b).Serves p) &&
      operand.fits (.signs b)
  | grouping inner _, _ => inner.fits .expr
  | var _ _, _ => true
  | call _ args _, _ => !args.isEmpty && fitsAll args
  | foreign _, _ => false

def fitsAll : List Expr → Bool
  | [] => true
  | e :: rest => e.fits .expr && fitsAll rest

end

theorem fitsAll_iff (args : List Expr) : fitsAll args = true ↔ ∀ e ∈ args, e.fits .expr = true := by
  induction args with
  | nil => simp [fitsAll]
  | cons e args ih => simp [fitsAll, ih]

/-- A tree of a phrase is one of every looser phrase. -/
theorem fits_serve {e : Expr} {p q : Phrase} (h : e.fits p = true) (hs : p.Serves q) :
    e.fits q = true := by
  cases e with
  | binary left operator right =>
    simp only [fits] at h ⊢
    split at h
    · simp only [Bool.and_eq_true, decide_eq_true_eq] at h ⊢
      exact ⟨⟨h.1.1.trans hs, h.1.2⟩, h.2⟩
    · cases h
  | unary operator operand =>
    have hb : (decide (p = .signed) = decide (q = .signed)) ∨ p = .primary := by
      by_cases hp : p = .signed
      · simp [hp, hs.2 hp]
      · by_cases hq : q = .signed
        · subst hq
          rcases p with (_ | _ | _) | (_ | _) | _ <;> simp_all [Phrase.Serves, Phrase.level]
        · simp [hp, hq]
    simp only [fits, Bool.and_eq_true, decide_eq_true_eq] at h ⊢
    rcases hb with hb | rfl
    · rw [← hb]
      exact ⟨⟨h.1.1, h.1.2.trans hs⟩, h.2⟩
    · exact absurd h.1.2 (by decide)
  | _ => exact h

end Expr

def Stmt.fits : Stmt → Bool
  | expression expr => expr.fits .expr
  | variableAssignment _ value => value.fits .expr
  | functionAssignment _ params body => !params.isEmpty && body.fits .expr
  | foreign _ => false

theorem fold_fits {c : Chain} {turns : List Turn} {e : Expr} (he : e.fits (.chain c) = true)
    (marks : ∀ turn ∈ turns, turn.mark.kind ∈ c.operators)
    (nexts : ∀ turn ∈ turns, turn.tree.fits c.next = true) :
    (Turn.fold e turns).fits (.chain c) = true := by
  induction turns generalizing e with
  | nil => exact he
  | cons turn turns ih =>
    refine ih ?_ (fun t ht => marks t (List.mem_cons_of_mem _ ht))
      (fun t ht => nexts t (List.mem_cons_of_mem _ ht))
    have hc := Token.Kind.chain?_eq_some.mpr (marks turn List.mem_cons_self)
    simp [Expr.fits, hc, he, nexts turn List.mem_cons_self, Phrase.Serves.refl]

/-- What is read has the shape of its phrase. -/
theorem Derives.fits {source : Text} {p : Phrase} {ts : List Token} {e : Expr}
    (h : Derives source p ts e) : e.fits p = true := by
  induction h with
  | @chain c _ _ turns _ marks _ ih ihn =>
    exact fold_fits (Expr.fits_serve ih c.first_serves) marks ihn
  | @sign b operator _ _ mark _ ih =>
    have hb : decide (Phrase.signs b = .signed) = b := by cases b <;> rfl
    simp only [Expr.fits, hb, ih, Bool.and_true, Bool.and_eq_true, decide_eq_true_eq]
    exact ⟨by simpa using mark, .refl _⟩
  | @unsigned b _ _ _ ih => exact Expr.fits_serve ih (Phrase.unsigned_serves b)
  | number => rfl
  | grouping _ _ _ ih => exact ih
  | name => rfl
  | call turns _ _ _ _ _ _ ih ihn =>
    have hall : Expr.fitsAll (turns.map Turn.tree) = true :=
      (Expr.fitsAll_iff _).mpr (List.forall_mem_map.mpr ihn)
    simp [Expr.fits, Expr.fitsAll, ih, hall]

theorem DerivesStmt.fits {source : Text} {ts : List Token} {stmt : Stmt}
    (h : DerivesStmt source ts stmt) : stmt.fits = true := by
  cases h with
  | expression expr => exact expr.fits
  | variableAssignment _ _ value => exact value.fits
  | functionAssignment _ _ _ _ _ _ _ body => simp [Stmt.fits, body.fits]

/-! ## Reading what was written out -/

def Token.relocate (start stop : Int → Int) (t : Token) : Token :=
  ⟨t.kind, start t.start, stop t.stop⟩

namespace Expr

mutual

/-- The same tree with other positions: one map for where tokens start, one for where they stop. -/
def relocate (start stop : Int → Int) : Expr → Expr
  | literal value pos => .literal value (start pos)
  | binary left operator right =>
    .binary (left.relocate start stop) (operator.relocate start stop) (right.relocate start stop)
  | unary operator operand =>
    .unary (operator.relocate start stop) (operand.relocate start stop)
  | grouping inner pos => .grouping (inner.relocate start stop) (start pos)
  | var name pos => .var name (start pos)
  | call name args pos => .call name (relocateAll start stop args) (start pos)
  | foreign node => .foreign node

def relocateAll (start stop : Int → Int) : List Expr → List Expr
  | [] => []
  | e :: rest => e.relocate start stop :: relocateAll start stop rest

end

/-- The tree with all positions forgotten. -/
def unplaced (e : Expr) : Expr := e.relocate (fun _ => 0) (fun _ => 0)

end Expr

def Stmt.relocate (start stop : Int → Int) : Stmt → Stmt
  | expression expr => .expression (expr.relocate start stop)
  | variableAssignment name value => .variableAssignment name (value.relocate start stop)
  | functionAssignment name params body =>
    .functionAssignment name params (body.relocate start stop)
  | foreign node => .foreign node

def Stmt.unplaced (stmt : Stmt) : Stmt := stmt.relocate (fun _ => 0) (fun _ => 0)

section
variable {source : Text}

mutual

/-- **A tree of a phrase is read back from its symbols**, up to positions. -/
theorem derives_of_fits : ∀ (e : Expr) {p : Phrase} {ts : List Token}, e.fits p = true →
    ts.map (Token.symbol source) = e.symbols →
    ∃ read, Derives source p ts read ∧ read.unplaced = e.unplaced
  | .literal value pos, p, ts, _, hts => by
    obtain ⟨t, rfl, ht⟩ := List.map_eq_singleton_iff.mp hts
    have hd : Derives source .primary [t] (.literal value t.start) :=
      .number (Token.kind_of_mark ht)
    exact ⟨_, hd.serve (Phrase.primary_serves p), rfl⟩
  | .binary left operator right, p, ts, hfit, hts => by
    simp only [Expr.fits] at hfit
    split at hfit
    · rename_i c hc
      simp only [Bool.and_eq_true, decide_eq_true_eq] at hfit
      obtain ⟨us, vs, rfl, hus, hvs⟩ := List.map_eq_append_iff.mp hts
      obtain ⟨t, ws, rfl, ht, hws⟩ := List.map_eq_cons_iff.mp hvs
      obtain ⟨l, hl, hleft⟩ := derives_of_fits left hfit.1.2 hus
      obtain ⟨r, hr, hright⟩ := derives_of_fits right hfit.2 hws
      have hkind : t.kind = operator.kind := Token.kind_of_mark ht
      have hmark : t.kind ∈ c.operators := by
        rw [hkind]
        exact Token.Kind.chain?_eq_some.mp hc
      -- The left operand is the repetition so far: the tree is folded to the left.
      refine ⟨.binary l t r, (hl.extend hmark hr).serve hfit.1.1, ?_⟩
      simp only [Expr.unplaced, Expr.relocate, Token.relocate, hkind] at hleft hright ⊢
      rw [hleft, hright]
    · cases hfit
  | .unary operator operand, p, ts, hfit, hts => by
    simp only [Expr.fits, Bool.and_eq_true, Bool.or_eq_true, decide_eq_true_eq] at hfit
    obtain ⟨t, us, rfl, ht, hus⟩ := List.map_eq_cons_iff.mp hts
    obtain ⟨e, he, hoperand⟩ := derives_of_fits operand hfit.2 hus
    have hkind : t.kind = operator.kind := Token.kind_of_mark ht
    refine ⟨.unary t e, (Derives.sign (by rw [hkind]; exact hfit.1.1) he).serve hfit.1.2, ?_⟩
    simp only [Expr.unplaced, Expr.relocate, Token.relocate, hkind] at hoperand ⊢
    rw [hoperand]
  | .grouping inner pos, p, ts, hfit, hts => by
    obtain ⟨opening, us, rfl, hopen, hus⟩ := List.map_eq_cons_iff.mp hts
    obtain ⟨vs, ws, rfl, hvs, hws⟩ := List.map_eq_append_iff.mp hus
    obtain ⟨closing, rfl, hclose⟩ := List.map_eq_singleton_iff.mp hws
    obtain ⟨e, he, hinner⟩ := derives_of_fits inner (by simpa only [Expr.fits] using hfit) hvs
    have hd := Derives.grouping (Token.kind_of_mark hopen) he (Token.kind_of_mark hclose)
    refine ⟨_, hd.serve (Phrase.primary_serves p), ?_⟩
    simp only [Expr.unplaced, Expr.relocate] at hinner ⊢
    rw [hinner]
  | .var name pos, p, ts, _, hts => by
    obtain ⟨t, rfl, ht⟩ := List.map_eq_singleton_iff.mp hts
    obtain ⟨hkind, hname⟩ := Token.kind_of_name ht
    have hd : Derives source .primary [t] (.var (t.name source) t.start) := .name hkind
    exact ⟨_, hd.serve (Phrase.primary_serves p), by rw [hname]; rfl⟩
  | .call name [] pos, p, ts, hfit, _ => by simp [Expr.fits] at hfit
  | .call name (first :: args) pos, p, ts, hfit, hts => by
    simp only [Expr.fits, Expr.fitsAll, Bool.and_eq_true] at hfit
    simp only [Expr.symbols, Expr.behindCommas, List.tail_cons] at hts
    obtain ⟨t, us, rfl, ht, hus⟩ := List.map_eq_cons_iff.mp hts
    obtain ⟨opening, vs, rfl, hopen, hvs⟩ := List.map_eq_cons_iff.mp hus
    obtain ⟨ws, xs, rfl, hws, hxs⟩ := List.map_eq_append_iff.mp hvs
    obtain ⟨ys, zs, rfl, hys, hzs⟩ := List.map_eq_append_iff.mp hws
    obtain ⟨closing, rfl, hclose⟩ := List.map_eq_singleton_iff.mp hxs
    obtain ⟨hkind, hname⟩ := Token.kind_of_name ht
    obtain ⟨e, he, hfirst⟩ := derives_of_fits first hfit.2.1 hys
    obtain ⟨turns, commas, nexts, rfl, hargs⟩ := turns_of_fitsAll args hfit.2.2 hzs
    have hd := Derives.call turns hkind (Token.kind_of_mark hopen) he commas nexts
      (Token.kind_of_mark hclose)
    refine ⟨_, hd.serve (Phrase.primary_serves p), ?_⟩
    simp only [Expr.unplaced, Expr.relocate, Expr.relocateAll, hname] at hfirst ⊢
    rw [hfirst, hargs]
  | .foreign node, p, ts, hfit, _ => by simp [Expr.fits] at hfit

theorem turns_of_fitsAll : ∀ (args : List Expr) {ts : List Token}, Expr.fitsAll args = true →
    ts.map (Token.symbol source) = Expr.behindCommas args →
    ∃ turns : List Turn, (∀ turn ∈ turns, turn.mark.kind = .comma) ∧
      (∀ turn ∈ turns, Derives source .expr turn.tokens turn.tree) ∧ ts = Turn.spell turns ∧
      Expr.relocateAll (fun _ => 0) (fun _ => 0) (turns.map Turn.tree) =
        Expr.relocateAll (fun _ => 0) (fun _ => 0) args
  | [], ts, _, hts => ⟨[], by simp, by simp, by simpa [Expr.behindCommas] using hts, rfl⟩
  | e :: args, ts, hfit, hts => by
    simp only [Expr.fitsAll, Bool.and_eq_true] at hfit
    obtain ⟨comma, us, rfl, hcomma, hus⟩ := List.map_eq_cons_iff.mp hts
    obtain ⟨vs, ws, rfl, hvs, hws⟩ := List.map_eq_append_iff.mp hus
    obtain ⟨read, hread, he⟩ := derives_of_fits e hfit.1 hvs
    obtain ⟨turns, commas, nexts, rfl, hargs⟩ := turns_of_fitsAll args hfit.2 hws
    refine ⟨⟨comma, vs, read⟩ :: turns, ?_, ?_, by simp, ?_⟩
    · exact List.forall_mem_cons.mpr ⟨Token.kind_of_mark hcomma, commas⟩
    · exact List.forall_mem_cons.mpr ⟨hread, nexts⟩
    · simp only [List.map_cons, Expr.relocateAll, hargs]
      rw [← Expr.unplaced, ← Expr.unplaced, he]

end

theorem params_of_symbols (params : List Text) {ts : List Token}
    (hts : ts.map (Token.symbol source) =
      params.flatMap fun param => [.mark .comma, .name param]) :
    ∃ others : List (Token × Token), (∀ other ∈ others, other.1.kind = .comma) ∧
      (∀ other ∈ others, other.2.kind = .identifier) ∧
      ts = (others.flatMap fun other => [other.1, other.2]) ∧
      params = others.map fun other => other.2.name source := by
  induction params generalizing ts with
  | nil => exact ⟨[], by simp, by simp, by simpa using hts, rfl⟩
  | cons param params ih =>
    obtain ⟨comma, us, rfl, hcomma, hus⟩ := List.map_eq_cons_iff.mp hts
    obtain ⟨t, vs, rfl, ht, hvs⟩ := List.map_eq_cons_iff.mp hus
    obtain ⟨others, commas, params', rfl, rfl⟩ := ih hvs
    obtain ⟨hkind, rfl⟩ := Token.kind_of_name ht
    exact ⟨(comma, t) :: others,
      List.forall_mem_cons.mpr ⟨Token.kind_of_mark hcomma, commas⟩,
      List.forall_mem_cons.mpr ⟨hkind, params'⟩, by simp, rfl⟩

theorem derivesStmt_of_fits {stmt : Stmt} {ts : List Token} (hfit : stmt.fits = true)
    (hts : ts.map (Token.symbol source) = stmt.symbols) :
    ∃ read, DerivesStmt source ts read ∧ read.unplaced = stmt.unplaced := by
  cases stmt with
  | expression expr =>
    obtain ⟨e, he, hexpr⟩ := derives_of_fits expr hfit hts
    exact ⟨.expression e, .expression he, congrArg Stmt.expression hexpr⟩
  | variableAssignment name value =>
    obtain ⟨t, us, rfl, ht, hus⟩ := List.map_eq_cons_iff.mp hts
    obtain ⟨equal, vs, rfl, hequal, hvs⟩ := List.map_eq_cons_iff.mp hus
    obtain ⟨hkind, rfl⟩ := Token.kind_of_name ht
    obtain ⟨e, he, hvalue⟩ := derives_of_fits value hfit hvs
    exact ⟨_, .variableAssignment hkind (Token.kind_of_mark hequal) he,
      congrArg (Stmt.variableAssignment _) hvalue⟩
  | functionAssignment name params body =>
    cases params with
    | nil => simp [Stmt.fits] at hfit
    | cons first params =>
      simp only [Stmt.symbols, List.flatMap_cons, List.cons_append, List.nil_append,
        List.tail_cons] at hts
      obtain ⟨t, us, rfl, ht, hus⟩ := List.map_eq_cons_iff.mp hts
      obtain ⟨opening, vs, rfl, hopen, hvs⟩ := List.map_eq_cons_iff.mp hus
      obtain ⟨param, ws, rfl, hparam, hws⟩ := List.map_eq_cons_iff.mp hvs
      obtain ⟨xs, ys, rfl, hxs, hys⟩ := List.map_eq_append_iff.mp hws
      obtain ⟨closing, zs, rfl, hclose, hzs⟩ := List.map_eq_cons_iff.mp hys
      obtain ⟨equal, vs, rfl, hequal, hbody⟩ := List.map_eq_cons_iff.mp hzs
      obtain ⟨hkind, rfl⟩ := Token.kind_of_name ht
      obtain ⟨hfirst, rfl⟩ := Token.kind_of_name hparam
      obtain ⟨others, commas, hparams, rfl, rfl⟩ := params_of_symbols params hxs
      obtain ⟨e, he, hunplaced⟩ :=
        derives_of_fits body (by simpa [Stmt.fits] using hfit) hbody
      have hd := DerivesStmt.functionAssignment hkind (Token.kind_of_mark hopen) hfirst commas
        hparams (Token.kind_of_mark hclose) (Token.kind_of_mark hequal) he
      refine ⟨.functionAssignment _ _ e, by simpa using hd, ?_⟩
      exact congrArg (Stmt.functionAssignment _ _) hunplaced
  | foreign node => cases hfit

end

/-! ## Tokens for every tree -/

namespace Symbol

/-- Some token in front of the end says it. -/
def isWritable : Symbol → Bool
  | name _ => true
  | mark kind => kind ≠ .identifier && kind ≠ .endOfText

/-- The names, one behind the other. -/
def text : List Symbol → Text
  | [] => []
  | name n :: rest => n ++ text rest
  | mark _ :: rest => text rest

/-- Tokens that say the symbols: names have their place in the text, nothing else takes room. -/
def layOut (offset : Nat) : List Symbol → List Token
  | [] => []
  | name n :: rest =>
    ⟨.identifier, offset, (offset + n.length : Nat)⟩ :: layOut (offset + n.length) rest
  | mark kind :: rest => ⟨kind, offset, offset⟩ :: layOut offset rest

theorem symbols_layOut (before : Text) (symbols : List Symbol)
    (h : symbols.all isWritable = true) :
    (layOut before.length symbols).map (Token.symbol (before ++ text symbols)) = symbols := by
  induction symbols generalizing before with
  | nil => rfl
  | cons symbol rest ih =>
    simp only [List.all_cons, Bool.and_eq_true] at h
    cases symbol with
    | name n =>
      have hrest := ih (before ++ n) h.2
      rw [List.length_append, List.append_assoc] at hrest
      simp only [layOut, text, List.map_cons, hrest, Token.symbol, if_true, Token.name,
        Text.slice_between]
    | mark kind =>
      have hkind : kind ≠ .identifier := by
        have hw := h.1
        simp only [isWritable, Bool.and_eq_true, decide_eq_true_eq] at hw
        exact hw.1
      simp only [layOut, text, List.map_cons, ih before h.2, Token.symbol, if_neg hkind]

theorem beforeEnd_layOut (offset : Nat) (symbols : List Symbol)
    (h : symbols.all isWritable = true) :
    Token.beforeEnd (layOut offset symbols) = layOut offset symbols := by
  induction symbols generalizing offset with
  | nil => rfl
  | cons symbol rest ih =>
    simp only [List.all_cons, Bool.and_eq_true] at h
    cases symbol with
    | name n => rw [layOut, Token.beforeEnd_cons (by simp), ih _ h.2]
    | mark kind =>
      have hkind : kind ≠ .endOfText := by
        have hw := h.1
        simp only [isWritable, Bool.and_eq_true, decide_eq_true_eq] at hw
        exact hw.2
      rw [layOut, Token.beforeEnd_cons hkind, ih _ h.2]

end Symbol

mutual

/-- Every symbol of a tree of a phrase can be said by a token. -/
theorem writable_of_fits : ∀ (e : Expr) {p : Phrase}, e.fits p = true →
    e.symbols.all Symbol.isWritable = true
  | .literal value pos, _, _ => by simp [Expr.symbols, Symbol.isWritable]
  | .binary left operator right, p, hfit => by
    simp only [Expr.fits] at hfit
    split at hfit
    · rename_i c hc
      simp only [Bool.and_eq_true] at hfit
      have hop : Symbol.isWritable (.mark operator.kind) = true := by
        have hmark := Token.Kind.chain?_eq_some.mp hc
        cases c <;> simp only [Chain.operators, List.mem_cons, List.not_mem_nil, or_false] at hmark
        case power => rw [hmark]; decide
        all_goals rcases hmark with h | h <;> rw [h] <;> decide
      rw [Expr.symbols, List.all_append, List.all_cons, writable_of_fits left hfit.1.2, hop,
        writable_of_fits right hfit.2]
      rfl
    · cases hfit
  | .unary operator operand, p, hfit => by
    simp only [Expr.fits, Bool.and_eq_true, Bool.or_eq_true, decide_eq_true_eq] at hfit
    have hop : Symbol.isWritable (.mark operator.kind) = true := by
      rcases hfit.1.1 with h | h <;> rw [h] <;> decide
    rw [Expr.symbols, List.all_cons, hop, writable_of_fits operand hfit.2]
    rfl
  | .grouping inner pos, p, hfit => by
    have hinner := writable_of_fits inner (by simpa only [Expr.fits] using hfit)
    rw [Expr.symbols, List.all_cons, List.all_append, hinner]
    rfl
  | .var name pos, _, _ => by simp [Expr.symbols, Symbol.isWritable]
  | .call name args pos, p, hfit => by
    simp only [Expr.fits, Bool.and_eq_true] at hfit
    have hargs : (Expr.behindCommas args).tail.all Symbol.isWritable = true :=
      List.all_eq_true.mpr fun symbol hm =>
        List.all_eq_true.mp (writable_of_fitsAll args hfit.2) symbol (List.mem_of_mem_tail hm)
    rw [Expr.symbols, List.all_cons, List.all_cons, List.all_append, hargs]
    rfl
  | .foreign node, _, _ => rfl

theorem writable_of_fitsAll : ∀ (args : List Expr), Expr.fitsAll args = true →
    (Expr.behindCommas args).all Symbol.isWritable = true
  | [], _ => rfl
  | e :: args, hfit => by
    simp only [Expr.fitsAll, Bool.and_eq_true] at hfit
    rw [Expr.behindCommas, List.all_cons, List.all_append, writable_of_fits e hfit.1,
      writable_of_fitsAll args hfit.2]
    rfl

end

theorem Stmt.writable {stmt : Stmt} (hfit : stmt.fits = true) :
    stmt.symbols.all Symbol.isWritable = true := by
  cases stmt with
  | expression expr => exact writable_of_fits expr hfit
  | variableAssignment name value =>
    rw [Stmt.symbols, List.all_cons, List.all_cons, writable_of_fits value hfit]
    rfl
  | functionAssignment name params body =>
    simp only [Stmt.fits, Bool.and_eq_true] at hfit
    have hparams : (params.flatMap fun param => [Symbol.mark .comma, .name param]).tail.all
        Symbol.isWritable = true := by
      refine List.all_eq_true.mpr fun symbol hm => ?_
      obtain ⟨param, -, hs⟩ := List.mem_flatMap.mp (List.mem_of_mem_tail hm)
      rcases List.mem_cons.mp hs with rfl | hs
      · rfl
      · rw [List.mem_singleton.mp hs]; rfl
    rw [Stmt.symbols, List.all_cons, List.all_cons, List.all_append, hparams, List.all_cons,
      List.all_cons, writable_of_fits body hfit.2]
    rfl
  | foreign node => cases hfit

/-- **The parser accepts exactly the grammar and returns the one tree of it.** On the tokens of any
text it succeeds exactly if those in front of the end derive a statement, and returns the tree of
that derivation, of which there is only one; the tree written out says what the tokens said. And
every tree of that shape can be written out as tokens, and is read back from all such tokens, up to
positions. -/
theorem parse_accepts_grammar :
    (∀ (rounding : Rounding) (text : Text) (stmt : Stmt),
      Stmt.parse text (Token.scan rounding text) = .ok stmt ↔
        DerivesStmt text (Token.beforeEnd (Token.scan rounding text)) stmt) ∧
    (∀ (source : Text) (ts : List Token) (stmt other : Stmt),
      DerivesStmt source ts stmt → DerivesStmt source ts other → stmt = other) ∧
    (∀ (rounding : Rounding) (text : Text) (stmt : Stmt),
      Stmt.parse text (Token.scan rounding text) = .ok stmt →
        stmt.fits = true ∧
        stmt.symbols = (Token.beforeEnd (Token.scan rounding text)).map (Token.symbol text)) ∧
    (∀ stmt : Stmt, stmt.fits = true →
      (∃ source tokens, (Token.beforeEnd tokens).map (Token.symbol source) = stmt.symbols) ∧
      ∀ source tokens, (Token.beforeEnd tokens).map (Token.symbol source) = stmt.symbols →
        ∃ read, Stmt.parse source tokens = .ok read ∧ read.unplaced = stmt.unplaced) := by
  refine ⟨fun _ _ _ => parse_ok_iff, fun _ _ _ _ h h' => h.unique h', ?_, ?_⟩
  · intro rounding text stmt h
    have hd := parse_ok_iff.mp h
    exact ⟨hd.fits, hd.symbols_eq⟩
  · intro stmt hfit
    constructor
    · refine ⟨Symbol.text stmt.symbols, Symbol.layOut 0 stmt.symbols, ?_⟩
      rw [Symbol.beforeEnd_layOut _ _ (Stmt.writable hfit)]
      exact Symbol.symbols_layOut [] stmt.symbols (Stmt.writable hfit)
    · intro source tokens hts
      obtain ⟨read, hd, hunplaced⟩ := derivesStmt_of_fits hfit hts
      exact ⟨read, parse_ok_iff.mpr hd, hunplaced⟩

/-- A sign stands in front of the whole power behind it. -/
theorem parse_accepts_signed_power : ∃ stmt,
    stmt = .functionAssignment "f" ["a"]
      (.unary ⟨.minus, 5, 6⟩ (.binary (.var "a" 6) ⟨.caret, 7, 8⟩ (.literal (.ofNat 2) 8))) ∧
    Stmt.parse ("f(a)=-a^2" : Text) (Token.scan .halfEven ("f(a)=-a^2" : Text)) = .ok stmt ∧
    DerivesStmt "f(a)=-a^2" (Token.beforeEnd (Token.scan .halfEven ("f(a)=-a^2" : Text))) stmt ∧
    stmt.fits = true ∧ stmt.symbols = (Token.beforeEnd (Token.scan .halfEven
      ("f(a)=-a^2" : Text))).map (Token.symbol "f(a)=-a^2") := by
  have hscan : Token.scan .halfEven ("f(a)=-a^2" : Text) = [⟨.identifier, 0, 1⟩, ⟨.leftParen, 1, 2⟩,
      ⟨.identifier, 2, 3⟩, ⟨.rightParen, 3, 4⟩, ⟨.equal, 4, 5⟩, ⟨.minus, 5, 6⟩, ⟨.identifier, 6, 7⟩,
      ⟨.caret, 7, 8⟩, ⟨.number (some (.ofNat 2)), 8, 9⟩, ⟨.endOfText, 9, 9⟩] := by decide +kernel
  have hparse : Stmt.parse ("f(a)=-a^2" : Text) (Token.scan .halfEven ("f(a)=-a^2" : Text)) =
      .ok (.functionAssignment "f" ["a"] (.unary ⟨.minus, 5, 6⟩
        (.binary (.var "a" 6) ⟨.caret, 7, 8⟩ (.literal (.ofNat 2) 8)))) := by
    rw [hscan]
    rfl
  obtain ⟨haccepts, -, hwritten, -⟩ := parse_accepts_grammar
  exact ⟨_, rfl, hparse, (haccepts _ _ _).mp hparse, hwritten _ _ _ hparse⟩

end Reckoner
