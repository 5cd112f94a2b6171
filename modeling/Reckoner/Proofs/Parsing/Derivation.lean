import Reckoner.Proofs.Grammar

/-!
# Every derivation is read

The parser is a fold of steps over the tokens up to the end token (`run_eq`). Reading a derivation
from a state that awaits it ends behind its tree (`read_derivation`): what lies on the stack above
the old one is then waiting for nothing but to be reduced, so that every reduction at the level of
the phrase, or below it, sees the tree on the old stack.
-/

namespace Reckoner

namespace Token

/-- The tokens in front of the first end token. -/
def beforeEnd (tokens : List Token) : List Token := tokens.takeWhile fun t => t.kind ≠ .endOfText

/-- Where the tokens end: at the first end token, or else at the end of the source. -/
def endPosition (source : Text) (tokens : List Token) : Int :=
  match tokens.dropWhile fun t => t.kind ≠ .endOfText with
  | [] => source.length
  | t :: _ => t.start

theorem beforeEnd_cons {t : Token} (h : t.kind ≠ .endOfText) (tokens : List Token) :
    beforeEnd (t :: tokens) = t :: beforeEnd tokens := by
  simp [beforeEnd, h]

theorem endPosition_cons {t : Token} (h : t.kind ≠ .endOfText) (source : Text)
    (tokens : List Token) : endPosition source (t :: tokens) = endPosition source tokens := by
  simp [endPosition, h]

end Token

namespace ParseState

/-- The state after some tokens, none of them an end token. -/
def steps (source : Text) (s : ParseState) (ts : List Token) : Except Failure ParseState :=
  ts.foldlM (fun s t => s.step source t) s

variable {source : Text} {s s' : ParseState} {t : Token} {ts us : List Token}

@[simp] theorem steps_nil : s.steps source [] = .ok s := rfl

theorem steps_cons (h : s.step source t = .ok s') :
    s.steps source (t :: ts) = s'.steps source ts := by
  simp only [steps, List.foldlM_cons, h]
  rfl

theorem steps_append (h : s.steps source ts = .ok s') :
    s.steps source (ts ++ us) = s'.steps source us := by
  simp only [steps, List.foldlM_append] at h ⊢
  rw [h]
  rfl

theorem steps_cons_ok {last : ParseState} (h : s.steps source (t :: ts) = .ok last) :
    ∃ next, s.step source t = .ok next ∧ next.steps source ts = .ok last := by
  cases hs : s.step source t with
  | ok next => exact ⟨next, rfl, by rw [← steps_cons hs, h]⟩
  | error failure =>
    simp only [steps, List.foldlM_cons, hs] at h
    cases h

/-- Tokens that can be read to the end can be read up to any point. -/
theorem steps_split {last : ParseState} (h : s.steps source (ts ++ us) = .ok last) :
    ∃ s', s.steps source ts = .ok s' ∧ s'.steps source us = .ok last := by
  induction ts generalizing s with
  | nil => exact ⟨s, rfl, h⟩
  | cons t ts ih =>
    obtain ⟨next, hstep, hrest⟩ := steps_cons_ok h
    obtain ⟨s', hs', hlast⟩ := ih hrest
    exact ⟨s', by rw [steps_cons hstep, hs'], hlast⟩

/-- A failure comes from the first token that cannot be read. -/
theorem steps_error {failure : Failure} (h : s.steps source ts = .error failure) :
    ∃ before t after s', ts = before ++ t :: after ∧ s.steps source before = .ok s' ∧
      s'.step source t = .error failure := by
  induction ts generalizing s with
  | nil => cases h
  | cons t ts ih =>
    cases hs : s.step source t with
    | ok next =>
      rw [steps_cons hs] at h
      obtain ⟨before, u, after, s', rfl, hb, hu⟩ := ih h
      exact ⟨t :: before, u, after, s', rfl, by rw [steps_cons hs, hb], hu⟩
    | error f =>
      refine ⟨[], t, ts, s, rfl, rfl, ?_⟩
      simp only [steps, List.foldlM_cons, hs] at h
      cases h
      exact hs

/-- Nothing is read beyond the first end token. -/
theorem run_eq (source : Text) (s : ParseState) (tokens : List Token) :
    s.run source tokens = (s.steps source (Token.beforeEnd tokens)).bind fun last =>
      last.stop source (Token.endPosition source tokens) := by
  induction tokens generalizing s with
  | nil => rfl
  | cons t rest ih =>
    by_cases ht : t.kind = .endOfText
    · simp only [run, ht, ite_true, Token.beforeEnd, Token.endPosition, List.takeWhile_cons,
        List.dropWhile_cons, ne_eq, not_true, decide_false, Bool.false_eq_true, ite_false]
      rfl
    · rw [run, if_neg ht, Token.beforeEnd_cons ht, Token.endPosition_cons ht]
      cases hs : s.step source t with
      | ok next => rw [steps_cons hs]; exact ih next
      | error failure => simp only [steps, List.foldlM_cons, hs]; rfl

end ParseState

/-! ## What the stack awaits -/

namespace Pending

/-- The loosest phrase that can stand behind it. -/
def awaited : Pending → Phrase
  | binary _ operator =>
    match operator.kind with
    | .plus => .factor
    | .minus => .factor
    | .star => .unary
    | .slash => .unary
    | .caret => .signed
    | _ => .primary
  | unary _ inExponent => .signs inExponent
  | group _ => .expr
  | arguments _ _ => .expr

theorem binary_of_operator {c : Chain} {operator : Token} (left : Expr)
    (h : operator.kind ∈ c.operators) :
    (binary left operator).level = c.level ∧ (binary left operator).awaited = c.next := by
  cases c <;> simp only [Chain.operators, List.mem_cons, List.not_mem_nil, or_false] at h
  case power => simp only [level, awaited, h]; exact ⟨rfl, rfl⟩
  all_goals rcases h with h | h <;> simp only [level, awaited, h] <;> exact ⟨rfl, rfl⟩

theorem serves_awaited_iff (c : Chain) (pending : Pending) :
    (Phrase.chain c).Serves pending.awaited ↔ pending.level < c.level := by
  cases pending with
  | binary _ operator =>
    simp only [awaited, level]
    cases operator.kind <;> cases c <;> simp [Phrase.Serves, Phrase.level, Chain.level]
  | unary _ b =>
    cases c <;> cases b <;> simp [awaited, level, Phrase.Serves, Phrase.level, Chain.level]
  | group => cases c <;> simp [awaited, level, Phrase.Serves, Phrase.level, Chain.level]
  | arguments => cases c <;> simp [awaited, level, Phrase.Serves, Phrase.level, Chain.level]

theorem awaitsExponent_of_serves {b : Bool} {pending : Pending}
    (h : (Phrase.signs b).Serves pending.awaited) : pending.awaitsExponent = b := by
  cases pending with
  | binary _ operator =>
    simp only [awaited, awaitsExponent] at h ⊢
    cases hk : operator.kind <;> cases b <;> simp_all [Phrase.Serves, Phrase.level]
  | unary _ b' =>
    cases b <;> cases b' <;> simp_all [awaited, awaitsExponent, Phrase.Serves, Phrase.level]
  | group => cases b <;> simp_all [awaited, awaitsExponent, Phrase.Serves]
  | arguments => cases b <;> simp_all [awaited, awaitsExponent, Phrase.Serves]

end Pending

/-- The loosest phrase that can stand behind a stack. -/
def awaited : List Pending → Phrase
  | [] => .expr
  | pending :: _ => pending.awaited

theorem reduce_cons {k : Nat} {pending : Pending} (h : k ≤ pending.level) (stack : List Pending)
    (operand : Expr) :
    reduce k (pending :: stack) operand = reduce k stack (pending.complete operand) := by
  rw [reduce, if_pos h]

/-- A repetition can go on behind a stack exactly if its operators leave the stack alone. -/
theorem reduce_of_serves {c : Chain} {stack : List Pending}
    (h : (Phrase.chain c).Serves (awaited stack)) (operand : Expr) :
    reduce c.level stack operand = (stack, operand) := by
  cases stack with
  | nil => rfl
  | cons pending stack =>
    have hl := (pending.serves_awaited_iff c).mp h
    rw [reduce, if_neg (Nat.not_le.mpr hl)]

namespace ParseState

/-- The operand that has been read, unless one must still begin. -/
def operand? (source : Text) (s : ParseState) : Option Expr :=
  match s.focus with
  | .operand => none
  | .name name => some (.var (name.name source) name.start)
  | .finished operand => some operand

theorem step_follow {source : Text} {s : ParseState} {t : Token} {operand : Expr}
    (h : s.operand? source = some operand)
    (ht : ∀ name, s.focus = .name name → t.kind ≠ .leftParen) :
    s.step source t = s.follow source operand t := by
  cases hf : s.focus with
  | operand => simp [operand?, hf] at h
  | name name =>
    simp only [operand?, hf, Option.some.injEq] at h
    simp only [step, hf, if_neg (ht name hf), h]
  | finished e =>
    simp only [operand?, hf, Option.some.injEq] at h
    simp only [step, hf, h]

theorem follow_operator {c : Chain} {t : Token} (h : t.kind ∈ c.operators) (source : Text)
    (s : ParseState) (operand : Expr) :
    s.follow source operand t = .ok (s.operate operand c.level t) := by
  cases c <;> simp only [Chain.operators, List.mem_cons, List.not_mem_nil, or_false] at h
  case power => simp only [follow, h]; rfl
  all_goals rcases h with h | h <;> simp only [follow, h] <;> rfl

/-- The state has read a tree on top of a stack: as far as reductions at the level of the phrase
go, the two are what it holds. -/
structure Behind (source : Text) (s : ParseState) (target : Option Expr) (stack : List Pending)
    (p : Phrase) (e : Expr) : Prop where
  target : s.target = target
  reduced : ∃ operand, s.operand? source = some operand ∧
    ∀ k, k ≤ p.level → reduce k s.stack operand = reduce k stack e

/-- The tokens can be read where the phrase is awaited, and lead behind the tree. -/
def Reads (source : Text) (p : Phrase) (ts : List Token) (e : Expr) : Prop :=
  ∀ (target : Option Expr) (stack : List Pending), p.Serves (awaited stack) →
    ∃ s, steps source ⟨target, stack, .operand⟩ ts = .ok s ∧ Behind source s target stack p e

variable {source : Text} {s : ParseState} {target : Option Expr} {stack : List Pending}
  {p q : Phrase} {e : Expr} {ts : List Token}

theorem Behind.loosen (h : Behind source s target stack p e) (hl : q.level ≤ p.level) :
    Behind source s target stack q e := by
  obtain ⟨ht, operand, ho, hr⟩ := h
  exact ⟨ht, operand, ho, fun k hk => hr k (Nat.le_trans hk hl)⟩

/-- What is awaited takes the tree in. -/
theorem Behind.complete {pending : Pending}
    (h : Behind source s target (pending :: stack) p e)
    (hp : q.level ≤ p.level) (hl : q.level ≤ pending.level) :
    Behind source s target stack q (pending.complete e) := by
  obtain ⟨ht, operand, ho, hr⟩ := h
  refine ⟨ht, operand, ho, fun k hk => ?_⟩
  rw [hr k (Nat.le_trans hk hp), reduce_cons (Nat.le_trans hk hl)]

theorem Reads.loosen (h : Reads source p ts e) (hs : p.Serves q) : Reads source q ts e := by
  intro target stack hq
  obtain ⟨s, hsteps, hb⟩ := h target stack (hs.trans hq)
  exact ⟨s, hsteps, hb.loosen hs.1⟩

theorem operate_behind {c : Chain} {t : Token} (h : Behind source s target stack (.chain c) e)
    (hs : (Phrase.chain c).Serves (awaited stack)) (ht : t.kind ∈ c.operators) :
    s.step source t = .ok ⟨target, .binary e t :: stack, .operand⟩ := by
  obtain ⟨rfl, operand, ho, hr⟩ := h
  have hp : t.kind ≠ .leftParen := by
    intro hk
    rw [hk] at ht
    cases c <;> simp [Chain.operators] at ht
  have hred := hr c.level (Nat.le_refl _)
  rw [reduce_of_serves hs] at hred
  rw [step_follow ho fun _ _ => hp, follow_operator ht, operate, hred]
  rfl

theorem close_behind {t : Token} (h : Behind source s target stack .expr e)
    (hs : Phrase.expr.Serves (awaited stack))
    (ht : t.kind = .rightParen ∨ t.kind = .comma ∨ t.kind = .equal) :
    s.step source t = s.close source t (stack, e) := by
  obtain ⟨rfl, operand, ho, hr⟩ := h
  have hp : t.kind ≠ .leftParen := by rcases ht with h | h | h <;> simp [h]
  have hred : reduce 1 s.stack operand = (stack, e) :=
    (hr 1 (Nat.le_refl _)).trans (reduce_of_serves (c := .sum) hs e)
  rw [step_follow ho fun _ _ => hp]
  rcases ht with h | h | h <;> simp only [follow, h, hred]

theorem Behind.endGroup {opening t : Token}
    (h : Behind source s target (.group opening :: stack) .expr e) (ht : t.kind = .rightParen) :
    s.step source t = .ok ⟨target, stack, .finished (.grouping e opening.start)⟩ := by
  rw [close_behind h (.refl _) (.inl ht)]
  simp only [close, ht, if_true, finish, h.target]

theorem Behind.nextArgument {name t : Token} {before : List Expr}
    (h : Behind source s target (.arguments name before :: stack) .expr e)
    (ht : t.kind = .comma) :
    s.step source t = .ok ⟨target, .arguments name (before ++ [e]) :: stack, .operand⟩ := by
  rw [close_behind h (.refl _) (.inr (.inl ht))]
  simp only [close, ht, if_true, await, h.target]

theorem Behind.endArguments {name t : Token} {before : List Expr}
    (h : Behind source s target (.arguments name before :: stack) .expr e)
    (ht : t.kind = .rightParen) :
    s.step source t =
      .ok ⟨target, stack, .finished (.call (name.name source) (before ++ [e]) name.start)⟩ := by
  rw [close_behind h (.refl _) (.inl ht)]
  simp [close, ht, finish, h.target]

theorem Behind.assign {t : Token} (h : Behind source s none [] .expr e) (ht : t.kind = .equal) :
    s.step source t = .ok ⟨some e, [], .operand⟩ := by
  rw [close_behind h (.refl _) (.inr (.inr ht))]
  simp only [close, h.target, ht, if_true]

/-- The turns of a repetition, one operator and one operand at a time. -/
theorem read_turns {c : Chain} (turns : List Turn)
    (marks : ∀ turn ∈ turns, turn.mark.kind ∈ c.operators)
    (nexts : ∀ turn ∈ turns, Reads source c.next turn.tokens turn.tree)
    (hs : (Phrase.chain c).Serves (awaited stack))
    (hb : Behind source s target stack (.chain c) e) :
    ∃ s', s.steps source (Turn.spell turns) = .ok s' ∧
      Behind source s' target stack (.chain c) (Turn.fold e turns) := by
  induction turns generalizing s e with
  | nil => exact ⟨s, rfl, hb⟩
  | cons turn turns ih =>
    have hmark := marks turn List.mem_cons_self
    obtain ⟨hlevel, hnext⟩ := Pending.binary_of_operator e hmark
    have hopen := operate_behind hb hs hmark
    obtain ⟨s₁, hread, hb₁⟩ := nexts turn List.mem_cons_self target (.binary e turn.mark :: stack)
      (by rw [awaited, hnext]; exact .refl _)
    have hb₁ : Behind source s₁ target stack (.chain c) (.binary e turn.mark turn.tree) :=
      hb₁.complete c.level_le_next (Nat.le_of_eq hlevel.symm)
    obtain ⟨s₂, hrest, hb₂⟩ := ih (fun t ht => marks t (List.mem_cons_of_mem _ ht))
      (fun t ht => nexts t (List.mem_cons_of_mem _ ht)) hb₁
    refine ⟨s₂, ?_, hb₂⟩
    rw [Turn.spell_cons, steps_cons hopen, steps_append hread, hrest]

/-- The arguments of a call behind its first one. -/
theorem read_arguments {name : Token} {before : List Expr} (turns : List Turn)
    (commas : ∀ turn ∈ turns, turn.mark.kind = .comma)
    (nexts : ∀ turn ∈ turns, Reads source .expr turn.tokens turn.tree)
    (hb : Behind source s target (.arguments name before :: stack) .expr e) :
    ∃ s' before' last, s.steps source (Turn.spell turns) = .ok s' ∧
      Behind source s' target (.arguments name before' :: stack) .expr last ∧
      before' ++ [last] = before ++ e :: turns.map Turn.tree := by
  induction turns generalizing s before e with
  | nil => exact ⟨s, before, e, rfl, hb, rfl⟩
  | cons turn turns ih =>
    have hstep := hb.nextArgument (commas turn List.mem_cons_self)
    obtain ⟨s₁, hread, hb₁⟩ := nexts turn List.mem_cons_self target
      (.arguments name (before ++ [e]) :: stack) (.refl _)
    obtain ⟨s₂, before', last, hrest, hb₂, hargs⟩ := ih
      (fun t ht => commas t (List.mem_cons_of_mem _ ht))
      (fun t ht => nexts t (List.mem_cons_of_mem _ ht)) hb₁
    refine ⟨s₂, before', last, ?_, hb₂, by simpa using hargs⟩
    rw [Turn.spell_cons, steps_cons hstep, steps_append hread, hrest]

theorem step_sign {b : Bool} {operator : Token} (target : Option Expr)
    (hs : (Phrase.signs b).Serves (awaited stack))
    (mark : operator.kind = .plus ∨ operator.kind = .minus) :
    (⟨target, stack, .operand⟩ : ParseState).step source operator =
      .ok ⟨target, .unary operator b :: stack, .operand⟩ := by
  -- Which kind of sign is read depends on what is awaited, and so on nothing but the phrase.
  have hexp : awaitsExponent ⟨target, stack, .operand⟩ = b := by
    cases stack with
    | nil => cases b with
      | false => rfl
      | true => exact absurd (hs.2 rfl) (by decide)
    | cons pending stack => exact Pending.awaitsExponent_of_serves hs
  rcases mark with h | h <;> simp only [step, begin, h, hexp, await]

/-- **Every derivation is read.** -/
theorem read_derivation (h : Derives source p ts e) : Reads source p ts e := by
  induction h with
  | @chain c _ _ turns _ marks _ ihf ihn =>
    intro target stack hs
    obtain ⟨s, hread, hb⟩ := ihf.loosen c.first_serves target stack hs
    obtain ⟨s', hrest, hb'⟩ := read_turns turns marks ihn hs hb
    exact ⟨s', by rw [steps_append hread, hrest], hb'⟩
  | @sign b operator _ _ mark _ ih =>
    intro target stack hs
    obtain ⟨s, hread, hb⟩ := ih target (.unary operator b :: stack) (.refl _)
    refine ⟨s, by rw [steps_cons (step_sign target hs mark), hread], hb.complete (Nat.le_refl _) ?_⟩
    cases b <;> exact Nat.le_refl _
  | @unsigned b _ _ _ ih => exact ih.loosen (Phrase.unsigned_serves b)
  | @number t value kind =>
    intro target stack _
    refine ⟨⟨target, stack, .finished (.literal value t.start)⟩, ?_, rfl, _, rfl, fun _ _ => rfl⟩
    rw [steps_cons (by simp only [step, begin, kind]; rfl), steps_nil]
    rfl
  | @grouping opening closing ts e opened _ closed ih =>
    intro target stack _
    obtain ⟨s, hread, hb⟩ := ih target (.group opening :: stack) (.refl _)
    have hopen : (⟨target, stack, .operand⟩ : ParseState).step source opening =
        .ok ⟨target, .group opening :: stack, .operand⟩ := by simp only [step, begin, opened, await]
    refine ⟨⟨target, stack, .finished (.grouping e opening.start)⟩, ?_, rfl, _, rfl,
      fun _ _ => rfl⟩
    rw [steps_cons hopen, steps_append hread, steps_cons (hb.endGroup closed), steps_nil]
  | @name t kind =>
    intro target stack _
    refine ⟨⟨target, stack, .name t⟩, ?_, rfl, _, rfl, fun _ _ => rfl⟩
    rw [steps_cons (by simp only [step, begin, kind]; rfl), steps_nil]
  | @call name opening closing ts e turns kind opened _ commas _ closed ih ihn =>
    intro target stack _
    have hname : (⟨target, stack, .operand⟩ : ParseState).step source name =
        .ok ⟨target, stack, .name name⟩ := by simp only [step, begin, kind]
    have hopen : (⟨target, stack, .name name⟩ : ParseState).step source opening =
        .ok ⟨target, .arguments name [] :: stack, .operand⟩ := by
      simp only [step, opened, if_true, await]
    obtain ⟨s, hread, hb⟩ := ih target (.arguments name [] :: stack) (.refl _)
    obtain ⟨s', before, last, hrest, hb', hargs⟩ := read_arguments turns commas ihn hb
    have hclose := hb'.endArguments closed
    rw [hargs, List.nil_append] at hclose
    refine ⟨⟨target, stack, .finished (.call (name.name source) (e :: turns.map Turn.tree)
      name.start)⟩, ?_, rfl, _, rfl, fun _ _ => rfl⟩
    rw [steps_cons hname, steps_cons hopen, List.append_assoc, steps_append hread,
      steps_append hrest, steps_cons hclose, steps_nil]

end ParseState
end Reckoner
