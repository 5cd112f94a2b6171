import Reckoner.Proofs.Lexemes
import Reckoner.Proofs.Misfit
import Reckoner.Proofs.Written

/-!
# Which tokens a node was read from

A tree says how many tokens it was written with, so every node of a tree has its range of tokens,
found from the outside in (`Expr.nodes`). The tokens of the range are the ones that the node was
read from: they derive it (`Built.ReadFrom`, `Derives.readFrom`), and parsing them alone gives it
back. Only some nodes keep a position of their own. The position of a node is the start of the first
token of its range (`Derives.position`), also for an operation, which is folded to the left and
finds its position down there.

The main result is `position_is_leftmost`.
-/

namespace Reckoner

/-! ## Nodes and their ranges -/

/-- How many tokens a tree is written with. -/
def Expr.width (e : Expr) : Nat := e.symbols.length

/-- A node with the range of its tokens, from `first` up to `stop`. -/
structure Built where
  node : Expr
  first : Nat
  stop : Nat

namespace Built

def whole (first : Nat) (e : Expr) : Built := ⟨e, first, first + e.width⟩

/-- The tokens of the range. -/
def tokens (all : List Token) (b : Built) : List Token := (all.drop b.first).take (b.stop - b.first)

end Built

namespace Expr

mutual

/-- The nodes of a tree that starts with token number `first`. -/
def nodes (first : Nat) : Expr → List Built
  | literal value pos => [.whole first (literal value pos)]
  | binary left operator right =>
    .whole first (binary left operator right) ::
      (left.nodes first ++ right.nodes (first + left.width + 1))
  | unary operator operand => .whole first (unary operator operand) :: operand.nodes (first + 1)
  | grouping inner pos => .whole first (grouping inner pos) :: inner.nodes (first + 1)
  | var name pos => [.whole first (var name pos)]
  | call name args pos => .whole first (call name args pos) :: nodesAll (first + 2) args
  | foreign node => [.whole first (foreign node)]

/-- The nodes of arguments that have commas between them. -/
def nodesAll (first : Nat) : List Expr → List Built
  | [] => []
  | e :: rest => e.nodes first ++ nodesAll (first + e.width + 1) rest

end

theorem whole_mem_nodes (first : Nat) (e : Expr) : .whole first e ∈ e.nodes first := by
  cases e <;> exact List.mem_cons_self

end Expr

/-- The nodes of an expression, or of the two sides of an equation. -/
def Built.ofSides (target : Option Expr) (value : Expr) : List Built :=
  match target with
  | none => value.nodes 0
  | some target => target.nodes 0 ++ value.nodes (target.width + 1)

section
variable {source : Text} {ts us tokens : List Token} {p : Phrase} {e : Expr} {first : Nat}

theorem Derives.width_eq (h : Derives source p ts e) : e.width = ts.length := by
  simp only [Expr.width, h.symbols_eq, List.length_map]

/-! ## Nodes inside a derivation -/

namespace Derives

theorem binary_parts {left right : Expr} {operator : Token}
    (h : Derives source p ts (.binary left operator right)) :
    ∃ c us vs, ts = us ++ operator :: vs ∧ Derives source (.chain c) us left ∧
      Derives source c.next vs right := by
  generalize htree : Expr.binary left operator right = e at h
  induction h with
  | @chain c ts e turns begins marks nexts ih =>
    rcases List.eq_nil_or_concat turns with rfl | ⟨turns, turn, rfl⟩
    · simpa using ih htree
    · -- The last turn is the operation, and all that is in front of it is its left operand.
      simp only [List.concat_eq_append, Turn.fold_concat] at htree marks nexts
      cases htree
      have before : Derives source (.chain c) (ts ++ Turn.spell turns) (Turn.fold e turns) :=
        .chain turns begins (fun t ht => marks t (List.mem_append_left _ ht))
          (fun t ht => nexts t (List.mem_append_left _ ht))
      exact ⟨c, _, turn.tokens, by simp, before,
        nexts turn (List.mem_append_right _ (List.mem_singleton_self _))⟩
  | unsigned operand ih => exact ih htree
  | _ => cases htree

theorem unary_parts {operand : Expr} {operator : Token}
    (h : Derives source p ts (.unary operator operand)) :
    ∃ b us, ts = operator :: us ∧ Derives source (.signs b) us operand := by
  generalize htree : Expr.unary operator operand = e at h
  induction h with
  | chain turns _ _ _ ih =>
    obtain ⟨rfl, same⟩ := Turn.fold_eq htree.symm (by simp)
    simpa using ih same.symm
  | sign mark operand =>
    cases htree
    exact ⟨_, _, rfl, operand⟩
  | unsigned operand ih => exact ih htree
  | _ => cases htree

/-- A sign in an exponent is as good as one in front of a power. -/
theorem unary_of_signed (h : Derives source .signed ts e) : Derives source .unary ts e := by
  generalize hphrase : Phrase.signed = p at h
  induction h with
  | sign mark _ ih => cases hphrase; exact .sign mark (ih rfl)
  | unsigned operand => cases hphrase; exact operand.serve (Phrase.primary_serves _)
  | _ => cases hphrase

theorem call_parts {name : Text} {args : List Expr} {pos : Int}
    (h : Derives source p ts (.call name args pos)) :
    ∃ t opening closing us first turns, ts = t :: opening :: (us ++ Turn.spell turns ++ [closing]) ∧
      args = first :: turns.map Turn.tree ∧ Derives source .expr us first ∧
      ∀ turn ∈ turns, Derives source .expr turn.tokens turn.tree := by
  cases h.primary_of (by simp) (by simp) with
  | call turns _ _ begins _ nexts _ => exact ⟨_, _, _, _, _, turns, rfl, rfl, begins, nexts⟩

/-- Every phrase is an expression by itself. -/
theorem expr_of (h : Derives source p ts e) : Derives source .expr ts e := by
  by_cases hsigned : p = .signed
  · subst hsigned
    exact h.unary_of_signed.serve (by decide)
  · have loosest : Phrase.expr.level ≤ p.level := by
      rcases p with (_ | _ | _) | (_ | _) | _ <;> decide
    exact h.serve ⟨loosest, fun same => absurd same hsigned⟩

end Derives

/-- The node was read from the tokens of its range, the first of all tokens being number `first`. -/
def Built.ReadFrom (source : Text) (first : Nat) (ts : List Token) (b : Built) : Prop :=
  ∃ before us after p, ts = before ++ us ++ after ∧ b.first = first + before.length ∧
    b.stop = b.first + us.length ∧ Derives source p us b.node

theorem Built.ReadFrom.within {b : Built} {start : Nat} (h : b.ReadFrom source start ts)
    (first : Nat) (before after : List Token) (place : start = first + before.length) :
    b.ReadFrom source first (before ++ ts ++ after) := by
  obtain ⟨front, us, back, p, rfl, starts, stops, derives⟩ := h
  refine ⟨before ++ front, us, back ++ after, p, by simp, ?_, stops, derives⟩
  simp only [starts, place, List.length_append]
  omega

theorem Derives.whole_readFrom (h : Derives source p ts e) :
    (Built.whole first e).ReadFrom source first ts :=
  ⟨[], ts, [], p, by simp, rfl, by simp only [Built.whole, h.width_eq], h⟩

mutual

/-- **The nodes of a tree were read from the tokens of their ranges.** -/
theorem Derives.readFrom : ∀ (e : Expr) {p : Phrase} {ts : List Token} {first : Nat},
    Derives source p ts e → ∀ b ∈ e.nodes first, b.ReadFrom source first ts
  | .literal value pos, p, ts, first, h => List.forall_mem_singleton.mpr h.whole_readFrom
  | .binary left operator right, p, ts, first, h => by
    obtain ⟨c, us, vs, rfl, hleft, hright⟩ := h.binary_parts
    refine List.forall_mem_cons.mpr ⟨h.whole_readFrom, ?_⟩
    refine List.forall_mem_append.mpr ⟨fun b hb => ?_, fun b hb => ?_⟩
    · exact (Derives.readFrom left hleft b hb).within first [] (operator :: vs) rfl
    · have inside := (Derives.readFrom right hright b hb).within first (us ++ [operator]) []
        (by simp [hleft.width_eq, Nat.add_assoc])
      simpa using inside
  | .unary operator operand, p, ts, first, h => by
    obtain ⟨b, us, rfl, hoperand⟩ := h.unary_parts
    refine List.forall_mem_cons.mpr ⟨h.whole_readFrom, fun b hb => ?_⟩
    have inside := (Derives.readFrom operand hoperand b hb).within first [operator] [] rfl
    simpa using inside
  | .grouping inner pos, p, ts, first, h => by
    refine List.forall_mem_cons.mpr ⟨h.whole_readFrom, fun b hb => ?_⟩
    cases h.primary_of (by simp) (by simp) with
    | @grouping opening closing us _ opened hinner closed =>
      exact (Derives.readFrom inner hinner b hb).within first [opening] [closing] rfl
  | .var name pos, p, ts, first, h => List.forall_mem_singleton.mpr h.whole_readFrom
  | .call name [] pos, p, ts, first, h => List.forall_mem_singleton.mpr h.whole_readFrom
  | .call name (e :: args) pos, p, ts, first, h => by
    obtain ⟨t, opening, closing, us, e', turns, rfl, hargs, begins, nexts⟩ := h.call_parts
    obtain ⟨rfl, hrest⟩ := List.cons.inj hargs
    refine List.forall_mem_cons.mpr ⟨h.whole_readFrom, ?_⟩
    refine List.forall_mem_append.mpr ⟨fun b hb => ?_, fun b hb => ?_⟩
    · have inside := (Derives.readFrom e begins b hb).within first [t, opening]
        (Turn.spell turns ++ [closing]) rfl
      simpa using inside
    · have inside := (Turn.readFrom args hrest nexts b hb).within first (t :: opening :: us)
        [closing] (by simp only [begins.width_eq, List.length_cons]; omega)
      simpa using inside
  | .foreign node, p, ts, first, h => List.forall_mem_singleton.mpr h.whole_readFrom

/-- The arguments behind the first one, each with the comma in front of it. -/
theorem Turn.readFrom : ∀ (args : List Expr) {turns : List Turn} {comma : Nat},
    args = turns.map Turn.tree →
    (∀ turn ∈ turns, Derives source .expr turn.tokens turn.tree) →
    ∀ b ∈ Expr.nodesAll (comma + 1) args, b.ReadFrom source comma (Turn.spell turns)
  | [], turns, comma, _, _ => by simp [Expr.nodesAll]
  | e :: args, turns, comma, hargs, nexts => by
    obtain ⟨turn, turns, rfl, htree, hrest⟩ := List.map_eq_cons_iff.mp hargs.symm
    obtain ⟨next, nexts⟩ := List.forall_mem_cons.mp nexts
    rw [htree] at next
    simp only [Expr.nodesAll, Turn.spell_cons]
    refine List.forall_mem_append.mpr ⟨fun b hb => ?_, fun b hb => ?_⟩
    · have inside := (Derives.readFrom e next b hb).within comma [turn.mark] (Turn.spell turns) rfl
      simpa using inside
    · have inside := (Turn.readFrom args hrest.symm nexts b hb).within comma
        (turn.mark :: turn.tokens) [] (by simp only [next.width_eq, List.length_cons]; omega)
      simpa using inside

end

theorem Sentence.readFrom {target : Option Expr} (h : Sentence source ts target e) :
    ∀ b ∈ Built.ofSides target e, b.ReadFrom source 0 ts := by
  cases h with
  | expression expr => exact Derives.readFrom e expr
  | @equation ts us equal target _ left assigned right =>
    refine List.forall_mem_append.mpr ⟨fun b hb => ?_, fun b hb => ?_⟩
    · have inside := (Derives.readFrom target left b hb).within 0 [] (equal :: us) rfl
      exact inside
    · have inside := (Derives.readFrom e right b hb).within 0 (ts ++ [equal]) []
        (by simp [left.width_eq])
      simpa using inside

/-! ## What the parser has read when it ends -/

/-- A statement, or the refusal to assign, comes from the sides of a sentence at the beginning of
the tokens. If there is a statement, nothing is left behind it. -/
theorem parse_sides
    (h : (∃ stmt, Stmt.parse source tokens = .ok stmt) ∨ ∃ fault pos,
      Stmt.parse source tokens = .error (.fault fault pos) ∧
        fault.code = ("INVALID_ASSIGNMENT" : Text)) :
    ∃ count target value, Sentence source ((Token.beforeEnd tokens).take count) target value ∧
      Stmt.parse source tokens = Stmt.ofSides target value ∧
      ∀ stmt, Stmt.parse source tokens = .ok stmt → count = (Token.beforeEnd tokens).length := by
  rcases h with ⟨stmt, hok⟩ | ⟨fault, pos, herror, hcode⟩
  · obtain ⟨target, value, sentence, hstmt⟩ := parse_ok_iff_sentence.mp hok
    refine ⟨(Token.beforeEnd tokens).length, target, value, ?_, ?_, fun _ _ => rfl⟩
    · simpa using sentence
    · exact hok.trans hstmt.symm
  · have noMisfit : fault.isMisfit ≠ true := by
      intro misfit
      rcases Fault.code_of_isMisfit misfit with hother | hother | hother <;>
        exact absurd (hcode.symm.trans hother) (by decide)
    have never (count : Nat) : ∀ stmt, Stmt.parse source tokens = .ok stmt →
        count = (Token.beforeEnd tokens).length := by
      intro stmt hok
      cases herror.symm.trans hok
    have hrun := herror
    rw [Stmt.parse, ParseState.run_eq] at hrun
    cases hsteps : ParseState.initial.steps source (Token.beforeEnd tokens) with
    | error failure =>
      rw [hsteps] at hrun
      cases hrun
      obtain ⟨before, t, after, s, hsplit, hread, hstep⟩ := ParseState.steps_error hsteps
      rcases ((HasRead.initial source).steps hread).step_error hstep with
        ⟨other, misfit, hother⟩ | ⟨target, value, sentence, hsides⟩
      · cases hother
        exact absurd misfit noMisfit
      · refine ⟨before.length, some target, value, ?_, herror.trans hsides.symm, never _⟩
        simpa [hsplit] using sentence
    | ok last =>
      rw [hsteps] at hrun
      rcases ((HasRead.initial source).steps hsteps).stop with
        ⟨other, misfit, hstop⟩ | ⟨target, value, sentence, hstop⟩
      · cases (hstop _).symm.trans hrun
        exact absurd misfit noMisfit
      · refine ⟨(Token.beforeEnd tokens).length, target, value, ?_, ?_, never _⟩
        · simpa using sentence
        · exact herror.trans (hrun.symm.trans (hstop _))

/-! ## Sides that cannot be assigned -/

theorem Expr.parameter_fault {fault : Fault} {pos : Int} (hd : Derives source p ts e)
    (h : e.parameter = .error (.fault fault pos)) :
    fault = .invalidParameter ∧ e.isName = false ∧ e.position = .ok pos := by
  obtain ⟨t, rest, -, place⟩ := hd.position
  cases e with
  | var => cases h
  | _ =>
    simp only [Expr.parameter, place] at h
    cases h
    exact ⟨rfl, rfl, place⟩

/-- The first argument that is no parameter is the one that is told. -/
theorem mapM_parameter_first {args : List Expr} {failure : Failure}
    (h : args.mapM Expr.parameter = .error failure) :
    ∃ before arg after, args = before ++ arg :: after ∧ (∀ e ∈ before, e.isName = true) ∧
      arg.parameter = .error failure := by
  induction args with
  | nil => cases h
  | cons e args ih =>
    rw [mapM_parameter_cons] at h
    cases hname : e.parameter with
    | error other =>
      rw [hname] at h
      cases h
      exact ⟨[], e, args, rfl, by simp, hname⟩
    | ok name =>
      rw [hname] at h
      cases hnames : args.mapM Expr.parameter with
      | ok names => rw [hnames] at h; cases h
      | error other =>
        rw [hnames] at h
        cases h
        obtain ⟨before, arg, after, rfl, names, failed⟩ := ih hnames
        obtain ⟨pos, rfl⟩ := parameter_ok hname
        exact ⟨_ :: before, arg, after, rfl, List.forall_mem_cons.mpr ⟨rfl, names⟩, failed⟩

theorem Expr.isName_width (h : e.isName = true) : e.width = 1 := by
  cases e with
  | var => rfl
  | _ => cases h

/-- Behind bare names an argument starts two tokens further on for each of them. -/
theorem Expr.whole_mem_nodesAll {before after : List Expr} {arg : Expr}
    (names : ∀ e ∈ before, e.isName = true) :
    .whole (first + 2 * before.length) arg ∈ nodesAll first (before ++ arg :: after) := by
  induction before generalizing first with
  | nil => exact List.mem_append_left _ (whole_mem_nodes _ _)
  | cons e before ih =>
    obtain ⟨name, names⟩ := List.forall_mem_cons.mp names
    have place : first + 2 * (e :: before).length = first + 1 + 1 + 2 * before.length := by
      rw [List.length_cons]
      omega
    simp only [List.cons_append, nodesAll, isName_width name, place]
    exact List.mem_append_right _ (ih names)

/-- Where the refusal of a left side points: at the side itself, or at its first argument that is
not a bare name. -/
theorem assignment_fault {target value : Expr} {fault : Fault} {pos : Int}
    (hd : Derives source .expr ts target)
    (h : Stmt.assignment target value = .error (.fault fault pos)) :
    (fault = .invalidTarget ∧ target.position = .ok pos) ∨
      (fault = .invalidParameter ∧ ∃ name before arg after place,
        target = .call name (before ++ arg :: after) place ∧ (∀ e ∈ before, e.isName = true) ∧
        arg.isName = false ∧ arg.position = .ok pos) := by
  obtain ⟨t, rest, -, start⟩ := hd.position
  cases target with
  | var => cases h
  | call name args place =>
    cases hparams : args.mapM Expr.parameter with
    | ok params => simp only [Stmt.assignment, hparams] at h; cases h
    | error failure =>
      simp only [Stmt.assignment, hparams] at h
      cases h
      obtain ⟨before, arg, after, rfl, names, failed⟩ := mapM_parameter_first hparams
      have inside : (Built.whole (2 + 2 * before.length) arg).ReadFrom source 0 ts :=
        Derives.readFrom _ hd _ (List.mem_cons_of_mem _ (Expr.whole_mem_nodesAll names))
      obtain ⟨_, us, _, q, -, -, -, derives⟩ := inside
      obtain ⟨rfl, noName, points⟩ := Expr.parameter_fault derives failed
      exact .inr ⟨rfl, name, before, arg, after, place, rfl, names, noName, points⟩
  | _ =>
    simp only [Stmt.assignment, start] at h
    cases h
    exact .inl ⟨rfl, start⟩

theorem Sentence.fault {target : Option Expr} {fault : Fault} {pos : Int}
    (h : Sentence source ts target e) (herror : Stmt.ofSides target e = .error (.fault fault pos)) :
    ∃ left, target = some left ∧ ((fault = .invalidTarget ∧ left.position = .ok pos) ∨
      (fault = .invalidParameter ∧ ∃ name before arg after place,
        left = .call name (before ++ arg :: after) place ∧ (∀ e ∈ before, e.isName = true) ∧
        arg.isName = false ∧ arg.position = .ok pos)) := by
  cases h with
  | expression => cases herror
  | equation left assigned right => exact ⟨_, rfl, assignment_fault left herror⟩

end

/-! ## Positions in a text -/

theorem Token.beforeEnd_eq_self {tokens : List Token} (h : ∀ t ∈ tokens, t.kind ≠ .endOfText) :
    beforeEnd tokens = tokens := by
  simpa [beforeEnd, List.takeWhile_eq_self_iff] using h

section
variable {rounding : Rounding} {text : Text} {b : Built}

theorem Built.ReadFrom.spec
    (h : b.ReadFrom text 0 (Token.beforeEnd (Token.scan rounding text))) :
    let tokens := Token.beforeEnd (Token.scan rounding text)
    b.first < b.stop ∧ Stmt.parse text (b.tokens tokens) = .ok (.expression b.node) ∧
      ∃ t, tokens[b.first]? = some t ∧ b.node.position = .ok t.start ∧
        ∀ u ∈ b.tokens tokens, t.start ≤ u.start := by
  intro tokens
  have inText (u : Token) (hu : u ∈ tokens) : u.kind ≠ .endOfText := Token.kind_of_mem_beforeEnd hu
  have increasing := Token.starts_increasing rounding text
  obtain ⟨before, us, after, p, hsplit, starts, stops, derives⟩ := h
  obtain ⟨t, rest, rfl, place⟩ := derives.position
  change tokens = _ at hsplit
  change tokens.Pairwise _ at increasing
  clear_value tokens
  subst hsplit
  have range : b.tokens (before ++ t :: rest ++ after) = t :: rest := by
    simp [Built.tokens, starts, stops]
  refine ⟨by simp only [stops, List.length_cons]; omega, ?_, t, by simp [starts], place, ?_⟩
  · have alone : Token.beforeEnd (t :: rest) = t :: rest :=
      Token.beforeEnd_eq_self fun u hu => inText u
        (List.mem_append_left _ (List.mem_append_right _ hu))
    rw [range]
    exact parse_ok_iff.mpr (alone.symm ▸ .expression derives.expr_of)
  · simp only [range, List.forall_mem_cons, Int.le_refl, true_and]
    intro u hu
    have later := (List.pairwise_cons.mp
      (List.pairwise_append.mp (List.pairwise_append.mp increasing).1).2.1).1 u hu
    omega

end

/-- **The position of a node is the start of its leftmost token.** If a text can be parsed, or is
refused for what it assigns to, then the parser has read an expression or the two sides of an
equation from its first tokens, with nothing open, and the outcome comes from their trees. Every
node of these trees has a range of tokens: parsed alone they give just that node, its position is
where the first of them starts, and none starts before. So an invalid target is reported at the
start of the text's first token, and an invalid parameter at the first token of the first argument
that is not a bare name. -/
theorem position_is_leftmost {rounding : Rounding} {text : Text}
    (h : (∃ stmt, Stmt.parse text (Token.scan rounding text) = .ok stmt) ∨ ∃ fault pos,
      Stmt.parse text (Token.scan rounding text) = .error (.fault fault pos) ∧
        fault.code = ("INVALID_ASSIGNMENT" : Text)) :
    let tokens := Token.beforeEnd (Token.scan rounding text)
    let outcome := Stmt.parse text (Token.scan rounding text)
    ∃ count s target value, ParseState.initial.steps text (tokens.take count) = .ok s ∧
      ParseState.Behind text s target [] .expr value ∧ outcome = Stmt.ofSides target value ∧
      (∀ stmt, outcome = .ok stmt → count = tokens.length) ∧
      (∀ b ∈ Built.ofSides target value, b.first < b.stop ∧ b.stop ≤ count ∧
        Stmt.parse text (b.tokens tokens) = .ok (.expression b.node) ∧
        ∃ t, tokens[b.first]? = some t ∧ b.node.position = .ok t.start ∧
          ∀ u ∈ b.tokens tokens, t.start ≤ u.start) ∧
      (∀ pos, outcome = .error (.fault .invalidTarget pos) →
        ∃ t, tokens[0]? = some t ∧ pos = t.start) ∧
      ∀ pos, outcome = .error (.fault .invalidParameter pos) →
        ∃ name before arg after place, target = some (.call name (before ++ arg :: after) place) ∧
          (∀ e ∈ before, e.isName = true) ∧ arg.isName = false ∧
          .whole (2 + 2 * before.length) arg ∈ Built.ofSides target value ∧
          ∃ t, tokens[2 + 2 * before.length]? = some t ∧ pos = t.start := by
  intro tokens outcome
  obtain ⟨count, target, value, sentence, sides, complete⟩ := parse_sides h
  obtain ⟨s, hread, hbehind⟩ := sentence.behind
  have spec (b : Built) (hb : b ∈ Built.ofSides target value) :
      b.ReadFrom text 0 tokens ∧ b.stop ≤ count := by
    have inside := sentence.readFrom b hb
    refine ⟨?_, ?_⟩
    · have whole := inside.within 0 [] (tokens.drop count) rfl
      simpa [tokens] using whole
    · obtain ⟨before, us, after, p, hsplit, starts, stops, -⟩ := inside
      have bound := congrArg List.length hsplit
      simp only [List.length_append, List.length_take] at bound
      omega
  have points {i : Nat} {e : Expr} {pos : Int} (hb : .whole i e ∈ Built.ofSides target value)
      (place : e.position = .ok pos) : ∃ t, tokens[i]? = some t ∧ pos = t.start := by
    obtain ⟨-, -, t, stands, start, -⟩ := (spec _ hb).1.spec
    exact ⟨t, stands, Except.ok.inj (place.symm.trans start)⟩
  refine ⟨count, s, target, value, hread, hbehind, sides, complete, ?_, ?_, ?_⟩
  · intro b hb
    obtain ⟨inside, bound⟩ := spec b hb
    obtain ⟨nonempty, alone, place⟩ := inside.spec
    exact ⟨nonempty, bound, alone, place⟩
  · intro pos herror
    obtain ⟨left, rfl, ⟨-, place⟩ | ⟨other, -⟩⟩ := sentence.fault (sides.symm.trans herror)
    · exact points (List.mem_append_left _ (Expr.whole_mem_nodes 0 left)) place
    · cases other
  · intro pos herror
    obtain ⟨left, rfl, ⟨other, -⟩ | ⟨-, call⟩⟩ := sentence.fault (sides.symm.trans herror)
    · cases other
    · obtain ⟨name, before, arg, after, place, rfl, names, noName, start⟩ := call
      have hb : .whole (2 + 2 * before.length) arg ∈
          Built.ofSides (some (.call name (before ++ arg :: after) place)) value :=
        List.mem_append_left _ (List.mem_cons_of_mem _ (Expr.whole_mem_nodesAll names))
      exact ⟨name, before, arg, after, place, rfl, names, noName, hb, points hb start⟩

/-- The second argument of `f(a,-b+2)=3)` is refused at its sign, before the last parenthesis is
found to be one too many. -/
theorem position_is_leftmost_in_arguments :
    let tokens := Token.beforeEnd (Token.scan .halfEven ("f(a,-b+2)=3)" : Text))
    Stmt.parse ("f(a,-b+2)=3)" : Text) (Token.scan .halfEven ("f(a,-b+2)=3)" : Text)) =
        .error (.fault .invalidParameter 4) ∧
      ∃ before t, tokens[2 + 2 * before]? = some t ∧ t.start = 4 ∧
      ∃ b : Built, b.first = 2 + 2 * before ∧
        Stmt.parse ("f(a,-b+2)=3)" : Text) (b.tokens tokens) = .ok (.expression b.node) ∧
        b.node.position = .ok 4 := by
  have hscan : Token.scan .halfEven ("f(a,-b+2)=3)" : Text) = [⟨.identifier, 0, 1⟩,
      ⟨.leftParen, 1, 2⟩, ⟨.identifier, 2, 3⟩, ⟨.comma, 3, 4⟩, ⟨.minus, 4, 5⟩, ⟨.identifier, 5, 6⟩,
      ⟨.plus, 6, 7⟩, ⟨.number (some (.ofNat 2)), 7, 8⟩, ⟨.rightParen, 8, 9⟩, ⟨.equal, 9, 10⟩,
      ⟨.number (some (.ofNat 3)), 10, 11⟩, ⟨.rightParen, 11, 12⟩, ⟨.endOfText, 12, 12⟩] := by
    decide +kernel
  have herror : Stmt.parse ("f(a,-b+2)=3)" : Text)
      (Token.scan .halfEven ("f(a,-b+2)=3)" : Text)) = .error (.fault .invalidParameter 4) := by
    rw [hscan]
    rfl
  intro tokens
  refine ⟨herror, ?_⟩
  obtain ⟨count, s, target, value, -, -, -, -, hnodes, -, hparameter⟩ :=
    position_is_leftmost (.inr ⟨_, _, herror, rfl⟩)
  obtain ⟨name, before, arg, after, place, -, -, -, hb, t, stands, start⟩ := hparameter 4 herror
  obtain ⟨-, -, alone, u, hu, position, -⟩ := hnodes _ hb
  have same : t = u := Option.some.inj (stands.symm.trans hu)
  exact ⟨before.length, t, stands, start.symm, _, rfl, alone, by rw [position, ← same, ← start]⟩

end Reckoner
