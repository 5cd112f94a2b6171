import Reckoner.Proofs.Parsing.Derivation

/-!
# What a state has read

`Stacked` says which tokens led to a stack, and `HasRead` which tokens led to a state. Every step
keeps it (`HasRead.step`): a reduction only puts derivations together (`Stacked.reduce`). So a
state is never more than the beginning of an expression or of an equation, and never a dead end:
`HasRead.viable` closes whatever is open.
-/

namespace Reckoner

variable {source : Text} {ts us : List Token} {stack : List Pending} {e : Expr} {p : Phrase}

/-- The arguments of a call with commas between them. -/
inductive Arguments (source : Text) : List Token → List Expr → Prop where
  | one {ts : List Token} {e : Expr} (first : Derives source .expr ts e) : Arguments source ts [e]
  | more {ts us : List Token} {comma : Token} {args : List Expr} {e : Expr}
      (before : Arguments source ts args) (mark : comma.kind = .comma)
      (next : Derives source .expr us e) : Arguments source (ts ++ comma :: us) (args ++ [e])

theorem Arguments.turns {args : List Expr} (h : Arguments source ts args) :
    ∃ us first turns, Derives source .expr us first ∧ (∀ turn ∈ turns, turn.mark.kind = .comma) ∧
      (∀ turn ∈ turns, Derives source .expr turn.tokens turn.tree) ∧
      ts = us ++ Turn.spell turns ∧ args = first :: turns.map Turn.tree := by
  induction h with
  | one first => exact ⟨_, _, [], first, by simp, by simp, by simp, rfl⟩
  | @more _ us comma _ e _ mark next ih =>
    obtain ⟨vs, first, turns, hf, hc, hn, rfl, rfl⟩ := ih
    refine ⟨vs, first, turns ++ [⟨comma, us, e⟩], hf, ?_, ?_, by simp, by simp⟩
    · simpa [or_imp, forall_and] using ⟨hc, mark⟩
    · simpa [or_imp, forall_and] using ⟨hn, next⟩

theorem Arguments.call {name opening closing : Token} {args : List Expr}
    (h : Arguments source ts args) (kind : name.kind = .identifier)
    (opened : opening.kind = .leftParen) (closed : closing.kind = .rightParen) :
    Derives source .primary (name :: opening :: (ts ++ [closing]))
      (.call (name.name source) args name.start) := by
  obtain ⟨us, first, turns, hf, hc, hn, rfl, rfl⟩ := h.turns
  exact .call turns kind opened hf hc hn closed

/-- The tokens that led to a stack. -/
inductive Stacked (source : Text) : List Token → List Pending → Prop where
  | bottom : Stacked source [] []
  | operator {c : Chain} {operator : Token} {ts us : List Token} {stack : List Pending}
      {left : Expr} (below : Stacked source ts stack)
      (fits : (Phrase.chain c).Serves (awaited stack)) (operand : Derives source (.chain c) us left)
      (mark : operator.kind ∈ c.operators) :
      Stacked source (ts ++ (us ++ [operator])) (.binary left operator :: stack)
  | sign {b : Bool} {operator : Token} {ts : List Token} {stack : List Pending}
      (below : Stacked source ts stack) (fits : (Phrase.signs b).Serves (awaited stack))
      (mark : operator.kind = .plus ∨ operator.kind = .minus) :
      Stacked source (ts ++ [operator]) (.unary operator b :: stack)
  | group {opening : Token} {ts : List Token} {stack : List Pending}
      (below : Stacked source ts stack) (opened : opening.kind = .leftParen) :
      Stacked source (ts ++ [opening]) (.group opening :: stack)
  | call {name opening : Token} {ts : List Token} {stack : List Pending}
      (below : Stacked source ts stack) (kind : name.kind = .identifier)
      (opened : opening.kind = .leftParen) :
      Stacked source (ts ++ [name, opening]) (.arguments name [] :: stack)
  | argument {name opening comma : Token} {ts us : List Token} {stack : List Pending}
      {args : List Expr} (below : Stacked source ts stack) (kind : name.kind = .identifier)
      (opened : opening.kind = .leftParen) (before : Arguments source us args)
      (mark : comma.kind = .comma) :
      Stacked source (ts ++ name :: opening :: (us ++ [comma])) (.arguments name args :: stack)

namespace Stacked

/-- Signs in front of an operand fit what the stack awaits. -/
theorem signs_serves (h : Stacked source ts stack) (target : Option Expr) (focus : Focus) :
    (Phrase.signs (ParseState.awaitsExponent ⟨target, stack, focus⟩)).Serves (awaited stack) := by
  cases h with
  | @operator c op _ _ _ left _ _ _ mark =>
    have hn := (Pending.binary_of_operator left mark).2
    simp only [ParseState.awaitsExponent, awaited, hn, List.head?_cons, Option.any_some,
      Pending.awaitsExponent]
    cases c <;> simp only [Chain.operators, List.mem_cons, List.not_mem_nil, or_false] at mark
    case power => rw [mark]; decide
    all_goals rcases mark with h | h <;> rw [h] <;> decide
  | sign => exact .refl _
  | _ => exact (by decide : Phrase.unary.Serves .expr)

/-- **A reduction puts derivations together.** What it leaves on the stack was read before what
it returns, and binds less tightly than the level. -/
theorem reduce {k : Nat} (h : Stacked source ts stack) (he : Derives source p us e)
    (hs : p.Serves (awaited stack)) (hk : k ≤ p.level) (hpos : 0 < k) :
    ∃ ts' us' p', ts ++ us = ts' ++ us' ∧ Stacked source ts' (reduce k stack e).1 ∧
      Derives source p' us' (reduce k stack e).2 ∧ p'.Serves (awaited (reduce k stack e).1) ∧
      k ≤ p'.level ∧ ∀ pending ∈ (reduce k stack e).1.head?, pending.level < k := by
  -- From the top of the stack down: an entry at the level or above it takes the operand in, and the
  -- first one below it ends the reduction.
  induction h generalizing p us e with
  | bottom => exact ⟨[], us, p, rfl, .bottom, he, hs, hk, by simp [Reckoner.reduce]⟩
  | @operator c op ts vs stack left below fits operand mark ih =>
    obtain ⟨hl, hn⟩ := Pending.binary_of_operator left mark
    by_cases hle : k ≤ c.level
    · rw [reduce_cons (by rw [hl]; exact hle)]
      have hd : Derives source (.chain c) (vs ++ op :: us) (.binary left op e) :=
        operand.extend mark (he.serve (by rw [awaited, hn] at hs; exact hs))
      obtain ⟨ts', us', p', heq, rest⟩ := ih hd fits hle
      exact ⟨ts', us', p', by rw [← heq]; simp, rest⟩
    · rw [Reckoner.reduce, if_neg (by rw [hl]; exact hle)]
      exact ⟨_, us, p, rfl, .operator below fits operand mark, he, hs, hk, by simp [hl]; omega⟩
  | @sign b op ts stack below fits mark ih =>
    have hl : (Pending.unary op b).level = (Phrase.signs b).level := by cases b <;> rfl
    by_cases hle : k ≤ (Phrase.signs b).level
    · rw [reduce_cons (by rw [hl]; exact hle)]
      have hd : Derives source (.signs b) (op :: us) (.unary op e) := .sign mark (he.serve hs)
      obtain ⟨ts', us', p', heq, rest⟩ := ih hd fits hle
      exact ⟨ts', us', p', by rw [← heq]; simp, rest⟩
    · rw [Reckoner.reduce, if_neg (by rw [hl]; exact hle)]
      exact ⟨_, us, p, rfl, .sign below fits mark, he, hs, hk, by simp [hl]; omega⟩
  | group below opened =>
    rw [Reckoner.reduce, if_neg (by simp only [Pending.level]; omega)]
    exact ⟨_, us, p, rfl, .group below opened, he, hs, hk, by simpa [Pending.level] using hpos⟩
  | call below kind opened =>
    rw [Reckoner.reduce, if_neg (by simp only [Pending.level]; omega)]
    exact ⟨_, us, p, rfl, .call below kind opened, he, hs, hk, by simpa [Pending.level] using hpos⟩
  | argument below kind opened before mark =>
    rw [Reckoner.reduce, if_neg (by simp only [Pending.level]; omega)]
    exact ⟨_, us, p, rfl, .argument below kind opened before mark, he, hs, hk,
      by simpa [Pending.level] using hpos⟩

/-- What a reduction at the level of a repetition returns can begin that repetition. -/
theorem reduce_chain (c : Chain) (h : Stacked source ts stack) (he : Derives source .primary us e) :
    ∃ ts' us', ts ++ us = ts' ++ us' ∧ Stacked source ts' (Reckoner.reduce c.level stack e).1 ∧
      Derives source (.chain c) us' (Reckoner.reduce c.level stack e).2 ∧
      (Phrase.chain c).Serves (awaited (Reckoner.reduce c.level stack e).1) := by
  obtain ⟨ts', us', p', heq, hst, hd, hp, hk, htop⟩ :=
    h.reduce (k := c.level) he (Phrase.primary_serves _) (Phrase.primary_serves (.chain c)).1
      (by cases c <;> decide)
  generalize Reckoner.reduce c.level stack e = r at hst hd hp htop ⊢
  have hfits : (Phrase.chain c).Serves (awaited r.1) := by
    cases hr : r.1 with
    | nil => exact Phrase.chain_serves_expr c
    | cons pending rest =>
      exact (pending.serves_awaited_iff c).mpr (htop pending (by simp [hr]))
  -- The reduced operand serves the repetition by its level, unless it is a signed exponent. That
  -- is awaited by a power only, and a power awaits no repetition.
  refine ⟨ts', us', heq, hst, hd.serve ⟨hk, fun hsigned => ?_⟩, hfits⟩
  have hr := hp.2 hsigned
  rw [hr] at hfits
  cases c <;> exact absurd hfits.1 (by decide)

/-- Whatever is open can be closed. -/
theorem closes (h : Stacked source ts stack) (he : Derives source p us e)
    (hs : p.Serves (awaited stack)) : ∃ rest e', Derives source .expr (ts ++ us ++ rest) e' := by
  let closing : Token := ⟨.rightParen, 0, 0⟩
  induction h generalizing p us e with
  | bottom => exact ⟨[], e, by simpa using (he.serve hs : Derives source .expr us e)⟩
  | @operator c op ts vs stack left below fits operand mark ih =>
    have hn := (Pending.binary_of_operator left mark).2
    have hd : Derives source (.chain c) (vs ++ op :: us) (.binary left op e) :=
      operand.extend mark (he.serve (by rw [awaited, hn] at hs; exact hs))
    obtain ⟨rest, e', h⟩ := ih hd fits
    exact ⟨rest, e', by simpa using h⟩
  | @sign b op ts stack below fits mark ih =>
    obtain ⟨rest, e', h⟩ := ih (.sign mark (he.serve hs)) fits
    exact ⟨rest, e', by simpa using h⟩
  | @group opening ts stack below opened ih =>
    have hd : Derives source .primary (opening :: (us ++ [closing])) (.grouping e opening.start) :=
      .grouping opened (he.serve hs) rfl
    obtain ⟨rest, e', h⟩ := ih hd (Phrase.primary_serves _)
    exact ⟨closing :: rest, e', by simpa using h⟩
  | @call name opening ts stack below kind opened ih =>
    have hd : Derives source .primary (name :: opening :: (us ++ [closing])) _ :=
      (Arguments.one (he.serve hs)).call kind opened rfl
    obtain ⟨rest, e', h⟩ := ih hd (Phrase.primary_serves _)
    exact ⟨closing :: rest, e', by simpa using h⟩
  | @argument name opening comma ts vs stack args below kind opened before mark ih =>
    have hd : Derives source .primary (name :: opening :: (vs ++ comma :: us ++ [closing])) _ :=
      (before.more mark (he.serve hs)).call kind opened rfl
    obtain ⟨rest, e', h⟩ := ih hd (Phrase.primary_serves _)
    exact ⟨closing :: rest, e', by simpa using h⟩

end Stacked

/-! ## States -/

/-- The tokens that led to a stack and a focus. -/
inductive Focused (source : Text) : List Token → List Pending → Focus → Prop where
  | operand {ts : List Token} {stack : List Pending} (below : Stacked source ts stack) :
      Focused source ts stack .operand
  | name {t : Token} {ts : List Token} {stack : List Pending} (below : Stacked source ts stack)
      (kind : t.kind = .identifier) : Focused source (ts ++ [t]) stack (.name t)
  | finished {ts us : List Token} {stack : List Pending} {e : Expr}
      (below : Stacked source ts stack) (operand : Derives source .primary us e) :
      Focused source (ts ++ us) stack (.finished e)

/-- The tokens that led to a state: the beginning of an expression, or a whole one, an equal sign
and the beginning of another. -/
inductive HasRead (source : Text) : List Token → ParseState → Prop where
  | left {ts : List Token} {stack : List Pending} {focus : Focus}
      (read : Focused source ts stack focus) : HasRead source ts ⟨none, stack, focus⟩
  | right {ts us : List Token} {equal : Token} {target : Expr} {stack : List Pending}
      {focus : Focus} (left : Derives source .expr ts target) (assigned : equal.kind = .equal)
      (read : Focused source us stack focus) :
      HasRead source (ts ++ equal :: us) ⟨some target, stack, focus⟩

theorem Focused.operand_read {s : ParseState} {operand : Expr}
    (h : Focused source ts s.stack s.focus) (ho : s.operand? source = some operand) :
    ∃ ts' us, ts = ts' ++ us ∧ Stacked source ts' s.stack ∧
      Derives source .primary us operand := by
  obtain ⟨target, stack, focus⟩ := s
  cases h with
  | operand => cases ho
  | name below kind => cases ho; exact ⟨_, _, rfl, below, .name kind⟩
  | finished below operand => cases ho; exact ⟨_, _, rfl, below, operand⟩

namespace ParseState

/-- A token behind an operand is an operator, or it closes what is open. -/
theorem follow_cases (source : Text) (s : ParseState) (operand : Expr) (t : Token) :
    (∃ c : Chain, t.kind ∈ c.operators ∧
      s.follow source operand t = .ok (s.operate operand c.level t)) ∨
    s.follow source operand t =
      s.close source t (Reckoner.reduce Chain.sum.level s.stack operand) := by
  by_cases h : ∃ c : Chain, t.kind ∈ c.operators
  · obtain ⟨c, hc⟩ := h
    exact .inl ⟨c, hc, follow_operator hc source s operand⟩
  · right
    have hsum := fun hc => h ⟨.sum, hc⟩
    have hproduct := fun hc => h ⟨.product, hc⟩
    have hpower := fun hc => h ⟨.power, hc⟩
    simp only [Chain.operators, List.mem_cons, List.not_mem_nil, or_false] at hsum hproduct hpower
    unfold follow
    split <;> simp_all
    rfl

end ParseState

/-- The faults of a token that fits nowhere. -/
def Fault.isMisfit : Fault → Bool
  | expectedExpression => true
  | unclosedGroup => true
  | unclosedArguments => true
  | trailingInput => true
  | _ => false

/-- All that reading one more token can lead to. -/
inductive Outcome (source : Text) (ts : List Token) (t : Token) (s : ParseState) :
    Except Failure ParseState → Prop where
  | reads {next : ParseState} (target : next.target = s.target)
      (read : Focused source (ts ++ [t]) next.stack next.focus) : Outcome source ts t s (.ok next)
  | assigns {e : Expr} (target : s.target = none) (assigned : t.kind = .equal)
      (left : Derives source .expr ts e) : Outcome source ts t s (.ok ⟨some e, [], .operand⟩)
  | misfit (fault : Fault) (h : fault.isMisfit = true) :
      Outcome source ts t s (.error (.fault fault t.start))
  | unassignable {target e : Expr} {failure : Failure} (assigned : s.target = some target)
      (right : Derives source .expr ts e) (h : Stmt.assignment target e = .error failure) :
      Outcome source ts t s (.error failure)

theorem assignment_error_or_trailing {target e : Expr} {s : ParseState} {t : Token}
    (hs : s.target = some target) (he : Derives source .expr ts e) :
    Outcome source ts t s (do
      let _ ← Stmt.assignment target e
      throw (.fault .trailingInput t.start)) := by
  cases ha : Stmt.assignment target e with
  | ok stmt => exact .misfit .trailingInput rfl
  | error failure => exact .unassignable hs he ha

theorem close_arguments {s : ParseState} {t name opening : Token} {before : List Expr}
    (below : Stacked source ts stack) (kind : name.kind = .identifier)
    (opened : opening.kind = .leftParen) (hargs : Arguments source us (before ++ [e])) :
    Outcome source (ts ++ name :: opening :: us) t s
      (s.close source t (.arguments name before :: stack, e)) := by
  simp only [ParseState.close]
  by_cases hc : t.kind = .comma
  · rw [if_pos hc]
    have ha : Focused source _ _ .operand := .operand (.argument below kind opened hargs hc)
    exact .reads rfl (by simpa [ParseState.await] using ha)
  · by_cases hk : t.kind = .rightParen
    · rw [if_neg hc, if_pos hk]
      have hf : Focused source _ _ (.finished _) := .finished below (hargs.call kind opened hk)
      exact .reads rfl (by simpa [ParseState.finish] using hf)
    · rw [if_neg hc, if_neg hk]
      exact .misfit .unclosedArguments rfl

/-- Closing, once everything in front has been reduced to an expression. -/
theorem close_outcome {s : ParseState} {t : Token} (hst : Stacked source ts stack)
    (hs : Phrase.expr.Serves (awaited stack)) (he : Derives source .expr us e) :
    Outcome source (ts ++ us) t s (s.close source t (stack, e)) := by
  cases hst with
  | bottom =>
    rw [List.nil_append]
    simp only [ParseState.close]
    cases ht : s.target with
    | none =>
      by_cases hk : t.kind = .equal
      · rw [if_pos hk]; exact .assigns ht hk he
      · rw [if_neg hk]; exact .misfit .trailingInput rfl
    | some target => exact assignment_error_or_trailing ht he
  | @operator c _ _ _ _ left _ _ _ mark =>
    rw [awaited, (Pending.binary_of_operator left mark).2] at hs
    cases c <;> exact absurd hs.1 (by decide)
  | @sign b => cases b <;> exact absurd hs.1 (by simp [awaited, Pending.awaited, Phrase.level])
  | group below opened =>
    simp only [ParseState.close]
    by_cases hk : t.kind = .rightParen
    · rw [if_pos hk]
      have hg : Focused source _ _ (.finished _) := .finished below (.grouping opened he hk)
      exact .reads rfl (by simpa [ParseState.finish] using hg)
    · rw [if_neg hk]; exact .misfit .unclosedGroup rfl
  | call below kind opened =>
    have hc := close_arguments (s := s) (t := t) below kind opened
      (show Arguments source us ([] ++ [e]) from .one he)
    simpa using hc
  | argument below kind opened before mark =>
    have hc := close_arguments (s := s) (t := t) below kind opened (before.more mark he)
    simpa using hc

theorem begin_outcome {s : ParseState} {t : Token} (hst : Stacked source ts s.stack) :
    Outcome source ts t s (s.begin t) := by
  have hsign (hk : t.kind = .plus ∨ t.kind = .minus) :
      Outcome source ts t s (.ok (s.await (.unary t s.awaitsExponent) s.stack)) :=
    .reads rfl (.operand (.sign hst (hst.signs_serves s.target s.focus) hk))
  unfold ParseState.begin
  split
  · rename_i value hk
    exact .reads rfl (.finished hst (.number hk))
  · rename_i hk
    exact .reads rfl (.name hst hk)
  · rename_i hk
    exact .reads rfl (.operand (.group hst hk))
  · rename_i hk; exact hsign (.inl hk)
  · rename_i hk; exact hsign (.inr hk)
  · exact .misfit .expectedExpression rfl

theorem follow_outcome {s : ParseState} {t : Token} (hst : Stacked source ts s.stack)
    (he : Derives source .primary us e) : Outcome source (ts ++ us) t s (s.follow source e t) := by
  rcases ParseState.follow_cases source s e t with ⟨c, hc, hf⟩ | hf
  · obtain ⟨ts', us', heq, hst', hd, hs⟩ := hst.reduce_chain c he
    rw [hf, heq, ParseState.operate]
    have hop : Focused source _ _ .operand := .operand (.operator hst' hs hd hc)
    exact .reads rfl (by simpa [ParseState.await] using hop)
  · obtain ⟨ts', us', heq, hst', hd, hs⟩ := hst.reduce_chain .sum he
    rw [hf, heq]
    exact close_outcome hst' hs hd

/-- **What a step can do**, from a state that was led to by some tokens. -/
theorem step_outcome {s : ParseState} {t : Token} (h : Focused source ts s.stack s.focus) :
    Outcome source ts t s (s.step source t) := by
  obtain ⟨target, stack, focus⟩ := s
  cases h with
  | operand below => exact begin_outcome below
  | @name name ts _ below kind =>
    simp only [ParseState.step]
    by_cases hk : t.kind = .leftParen
    · rw [if_pos hk]
      have hc : Focused source _ _ .operand := .operand (.call below kind hk)
      exact .reads rfl (by simpa [ParseState.await] using hc)
    · rw [if_neg hk]
      exact follow_outcome below (.name kind)
  | finished below operand => exact follow_outcome below operand

theorem HasRead.initial (source : Text) : HasRead source [] .initial := .left (.operand .bottom)

theorem HasRead.step {s next : ParseState} {t : Token} (h : HasRead source ts s)
    (hs : s.step source t = .ok next) : HasRead source (ts ++ [t]) next := by
  obtain ⟨target, stack, focus⟩ := next
  cases h with
  | @left _ stack' focus' read =>
    have ho := step_outcome (s := ⟨none, stack', focus'⟩) (t := t) read
    rw [hs] at ho
    cases ho with
    | reads same read => cases same; exact .left read
    | assigns _ assigned left => exact .right left assigned (.operand .bottom)
  | @right _ _ _ target' stack' focus' left assigned read =>
    have ho := step_outcome (s := ⟨some target', stack', focus'⟩) (t := t) read
    rw [hs] at ho
    cases ho with
    | reads same read =>
      cases same
      simpa using HasRead.right left assigned read
    | assigns same => cases same

/-- **Every state that is reached was led to by the tokens read.** -/
theorem HasRead.steps {s last : ParseState} (h : HasRead source ts s)
    (hs : s.steps source us = .ok last) : HasRead source (ts ++ us) last := by
  induction us generalizing ts s with
  | nil => cases hs; simpa using h
  | cons t us ih =>
    obtain ⟨next, hstep, hrest⟩ := ParseState.steps_cons_ok hs
    simpa using ih (h.step hstep) hrest

/-- A state is never a dead end. -/
theorem HasRead.viable {s : ParseState} (h : HasRead source ts s) : Viable source ts := by
  let number : Token := ⟨.number (some .zero), 0, 0⟩
  have closes {ts : List Token} {stack : List Pending} {focus : Focus}
      (h : Focused source ts stack focus) : ∃ rest e, Derives source .expr (ts ++ rest) e := by
    cases h with
    | operand below =>
      obtain ⟨rest, e, he⟩ := below.closes (Derives.number (t := number) rfl)
        (Phrase.primary_serves _)
      exact ⟨number :: rest, e, by simpa using he⟩
    | name below kind => exact below.closes (.name kind) (Phrase.primary_serves _)
    | finished below operand => exact below.closes operand (Phrase.primary_serves _)
  cases h with
  | left read =>
    obtain ⟨rest, e, he⟩ := closes read
    exact ⟨rest, none, e, .expression he⟩
  | right left assigned read =>
    obtain ⟨rest, e, he⟩ := closes read
    exact ⟨rest, some _, e, by simpa using Sentence.equation left assigned he⟩

end Reckoner
