import Mathlib.Data.List.TakeWhile
import Reckoner.Proofs.Numerals
import Reckoner.Proofs.Scanning

/-!
# What the scan makes of a text

A text is spaces and lexemes. Which text is a lexeme of which kind is said by `Lexeme`, together
with what may stand around it, so that a lexeme cannot be made longer. Scanning takes the text apart
into such lexemes and leaves nothing out but spaces (`scan_partitions`).
-/

namespace Reckoner

namespace Text

/-- The place between two texts does not part a surrogate pair. -/
def Apart (front back : Text) : Prop :=
  ∀ high ∈ front.getLast?, ∀ low ∈ back.head?,
    ¬ (isHighSurrogate high = true ∧ isLowSurrogate low = true)

variable {front word back : Text}

theorem le_of_isAlphanumeric {u : UInt16} (h : isAlphanumeric u = true) : u ≤ unit 'z' := by
  simp only [isAlphanumeric, isLetter, isDigit, Bool.or_eq_true, Bool.and_eq_true,
    decide_eq_true_eq] at h
  rcases h with (⟨-, h⟩ | ⟨-, h⟩) | ⟨-, h⟩
  · exact h
  · exact UInt16.le_trans h (by decide)
  · exact UInt16.le_trans h (by decide)

theorem not_high_of_low {u : UInt16} (h : isLowSurrogate u = true) : isHighSurrogate u = false := by
  refine Bool.eq_false_iff.mpr fun hhigh => ?_
  have hfirst : 0xDC00 ≤ u := of_decide_eq_true (Bool.and_eq_true_iff.mp h).1
  have hlast : u ≤ 0xDBFF := of_decide_eq_true (Bool.and_eq_true_iff.mp hhigh).2
  exact absurd (UInt16.le_trans hfirst hlast) (by decide)

theorem apart_append (h : word ≠ []) : Apart (front ++ word) back ↔ Apart word back := by
  rw [Apart, Apart, List.getLast?_append_of_ne_nil front h]

theorem apart_of_not_high (h : ∀ u ∈ word.getLast?, isHighSurrogate u = false) : Apart word back :=
  fun u hu _ _ hpair => Bool.false_ne_true ((h u hu).symm.trans hpair.1)

end Text

namespace Token

/-- The character of a kind that has just one. -/
def Kind.character? : Kind → Option Char
  | .leftParen => some '('
  | .rightParen => some ')'
  | .comma => some ','
  | .dot => some '.'
  | .minus => some '-'
  | .plus => some '+'
  | .slash => some '/'
  | .star => some '*'
  | .equal => some '='
  | .caret => some '^'
  | _ => none

/-- What tokens other than unknown ones are made of. -/
def Native (u : UInt16) : Prop :=
  Text.isAlphanumeric u = true ∨
    ∃ (kind : Kind) (c : Char), kind.character? = some c ∧ u = Text.unit c

/-- The kinds of words, each by the text behind it and, for a word of one code point, also by the
text in front of it. -/
inductive Lexeme (rounding : Rounding) (front : Text) : Kind → Text → Text → Prop where
  | identifier {first : UInt16} {others back : Text} (letter : Text.isLetter first = true)
      (alphanumeric : ∀ u ∈ others, Text.isAlphanumeric u = true)
      (ends : ∀ u ∈ back.head?, Text.isAlphanumeric u = false) :
      Lexeme rounding front .identifier (first :: others) back
  | whole {digits back : Text} {value : Decimal} (nonempty : digits ≠ [])
      (digit : ∀ u ∈ digits, Text.isDigit u = true)
      (ends : ∀ u ∈ back.head?, Text.isDigit u = false)
      (point : ∀ u rest, back = Text.unit '.' :: u :: rest → Text.isDigit u = false)
      (literal : Literal rounding digits [] value) :
      Lexeme rounding front (.number (some value)) digits back
  | fraction {digits fraction back : Text} {value : Decimal} (nonempty : digits ≠ [])
      (digit : ∀ u ∈ digits, Text.isDigit u = true) (fractionNonempty : fraction ≠ [])
      (fractionDigit : ∀ u ∈ fraction, Text.isDigit u = true)
      (ends : ∀ u ∈ back.head?, Text.isDigit u = false)
      (literal : Literal rounding digits fraction value) :
      Lexeme rounding front (.number (some value)) (digits ++ Text.unit '.' :: fraction) back
  | character {kind : Kind} {c : Char} {back : Text} (character : kind.character? = some c) :
      Lexeme rounding front kind [Text.unit c] back
  | pair {high low : UInt16} {back : Text} (isHigh : Text.isHighSurrogate high = true)
      (isLow : Text.isLowSurrogate low = true) : Lexeme rounding front .unknown [high, low] back
  | unit {u : UInt16} {back : Text} (space : u ≠ Text.unit ' ') (foreign : ¬ Native u)
      (before : Text.Apart front (u :: back)) (behind : Text.Apart [u] back) :
      Lexeme rounding front .unknown [u] back

/-! ## The first lexeme -/

theorem ofUnit?_some {u : UInt16} {kind : Kind} (h : Kind.ofUnit? u = some kind) :
    ∃ c, kind.character? = some c ∧ u = Text.unit c := by
  have hstep {c : Char} {k : Kind} {rest : Option Kind} (hk : k.character? = some c)
      (hrest : rest = some kind → ∃ c, kind.character? = some c ∧ u = Text.unit c) :
      (if u = Text.unit c then some k else rest) = some kind →
        ∃ c, kind.character? = some c ∧ u = Text.unit c := by
    intro hif
    by_cases hu : u = Text.unit c
    · rw [if_pos hu] at hif
      cases hif
      exact ⟨c, hk, hu⟩
    · rw [if_neg hu] at hif
      exact hrest hif
  revert h
  unfold Kind.ofUnit?
  repeat refine hstep rfl ?_
  exact nofun

theorem ofUnit?_none {u : UInt16} (h : Kind.ofUnit? u = none) (kind : Kind) (c : Char)
    (hc : kind.character? = some c) : u ≠ Text.unit c := by
  rintro rfl
  cases kind <;> cases hc <;> revert h <;> decide

theorem take_drop_of_append {t word back : Text} {n : Nat} (h : t = word ++ back)
    (hn : n = word.length) : t.take n = word ∧ t.drop n = back := by
  rw [h, hn]
  exact ⟨List.take_left, List.drop_left⟩

theorem of_mem_head?_dropWhile {p : UInt16 → Bool} {t : Text} {u : UInt16}
    (h : u ∈ (t.dropWhile p).head?) : p u = false := by
  have hhead := List.head?_dropWhile_not p t
  rwa [Option.mem_def.mp h] at hhead

/-- A number ends behind its first digits, or behind more digits that follow a point. -/
theorem splitNumber_cases (t : Text) :
    ((splitNumber t).2 = [] ∧
      ∀ u rest, t.dropWhile Text.isDigit = Text.unit '.' :: u :: rest → Text.isDigit u = false) ∨
    ∃ rest, t.dropWhile Text.isDigit = Text.unit '.' :: rest ∧
      (splitNumber t).2 = rest.takeWhile Text.isDigit ∧ rest.takeWhile Text.isDigit ≠ [] := by
  cases htail : t.dropWhile Text.isDigit with
  | nil => exact .inl ⟨by simp only [splitNumber, htail], nofun⟩
  | cons u rest =>
    have hfraction : (splitNumber t).2 =
        if u = Text.unit '.' then rest.takeWhile Text.isDigit else [] := by
      simp only [splitNumber, htail]
    by_cases hpoint : u = Text.unit '.'
    · rw [if_pos hpoint] at hfraction
      subst hpoint
      by_cases hnone : rest.takeWhile Text.isDigit = []
      · refine .inl ⟨hfraction.trans hnone, ?_⟩
        intro v others heq
        cases heq
        exact Bool.eq_false_iff.mpr fun hv => by simp [hv] at hnone
      · exact .inr ⟨rest, rfl, hfraction, hnone⟩
    · rw [if_neg hpoint] at hfraction
      refine .inl ⟨hfraction, ?_⟩
      intro v others heq
      cases heq
      exact absurd rfl hpoint

theorem number_reads (rounding : Rounding) (front : Text) {t : Text}
    (h : t.takeWhile Text.isDigit ≠ []) :
    Lexeme rounding front (.number (some (numberValue rounding t))) (t.take (numberLength t))
      (t.drop (numberLength t)) := by
  have hdigit : ∀ u ∈ t.takeWhile Text.isDigit, Text.isDigit u = true :=
    fun u hu => List.mem_takeWhile_imp hu
  have hlength : numberLength t = (t.takeWhile Text.isDigit).length +
      if (splitNumber t).2.isEmpty then 0 else (splitNumber t).2.length + 1 := rfl
  have hvalue : numberValue rounding t = .ofMagnitude false
      ((Magnitude.ofNumeral (t.takeWhile Text.isDigit) (splitNumber t).2 0).round rounding
        Context.standardPrecision) := rfl
  have htext : t = t.takeWhile Text.isDigit ++ t.dropWhile Text.isDigit :=
    List.takeWhile_append_dropWhile.symm
  rcases splitNumber_cases t with ⟨hnone, hpoint⟩ | ⟨rest, htail, hfraction, hsome⟩
  · rw [hnone] at hlength hvalue
    obtain ⟨htake, hdrop⟩ := take_drop_of_append htext hlength
    rw [htake, hdrop, hvalue]
    exact .whole h hdigit (fun u hu => of_mem_head?_dropWhile hu) hpoint
      (literal_of_numeral rounding hdigit nofun)
  · have hfractionDigit : ∀ u ∈ rest.takeWhile Text.isDigit, Text.isDigit u = true :=
      fun u hu => List.mem_takeWhile_imp hu
    have hrest : rest = rest.takeWhile Text.isDigit ++ rest.dropWhile Text.isDigit :=
      List.takeWhile_append_dropWhile.symm
    have hwhole : t = (t.takeWhile Text.isDigit ++ Text.unit '.' :: rest.takeWhile Text.isDigit) ++
        rest.dropWhile Text.isDigit := by
      rw [List.append_assoc, List.cons_append, ← hrest, ← htail, ← htext]
    rw [hfraction] at hlength hvalue
    rw [if_neg (by simpa using hsome), ← List.length_cons, ← List.length_append] at hlength
    obtain ⟨htake, hdrop⟩ := take_drop_of_append hwhole hlength
    rw [htake, hdrop, hvalue]
    exact .fraction h hdigit hsome hfractionDigit (fun u hu => of_mem_head?_dropWhile hu)
      (literal_of_numeral rounding hdigit hfractionDigit)

/-- The first lexeme of a text, when what is read already does not end inside a pair. -/
theorem lexeme_reads (rounding : Rounding) {front rest : Text} {u : UInt16}
    (hspace : u ≠ Text.unit ' ') (hfront : Text.Apart front (u :: rest)) :
    Lexeme rounding front (lexeme rounding u rest).1 (u :: rest.take (lexeme rounding u rest).2)
      (rest.drop (lexeme rounding u rest).2) := by
  unfold lexeme
  by_cases hdigit : Text.isDigit u = true
  · rw [if_pos hdigit]
    have hfirst : (u :: rest).takeWhile Text.isDigit ≠ [] := by simp [hdigit]
    have hpos : 0 < numberLength (u :: rest) :=
      Nat.lt_of_lt_of_le (List.length_pos_iff.mpr hfirst) (Nat.le_add_right _ _)
    have hreads := number_reads rounding front hfirst
    rw [← Nat.sub_add_cancel hpos, List.take_succ_cons, List.drop_succ_cons] at hreads
    exact hreads
  rw [if_neg hdigit]
  by_cases hletter : Text.isLetter u = true
  · rw [if_pos hletter]
    obtain ⟨htake, hdrop⟩ := take_drop_of_append
      (List.takeWhile_append_dropWhile (p := Text.isAlphanumeric) (l := rest)).symm rfl
    simp only [htake, hdrop]
    exact .identifier hletter (fun v hv => List.mem_takeWhile_imp hv)
      (fun v hv => of_mem_head?_dropWhile hv)
  rw [if_neg hletter]
  cases hkind : Kind.ofUnit? u with
  | some kind =>
    obtain ⟨c, hc, rfl⟩ := ofUnit?_some hkind
    exact .character hc
  | none =>
    have hforeign : ¬ Native u := by
      rintro (halphanumeric | ⟨kind, c, hc, rfl⟩)
      · exact (Bool.or_eq_true_iff.mp halphanumeric).elim hletter hdigit
      · exact ofUnit?_none hkind kind c hc rfl
    by_cases hpair : (Text.isHighSurrogate u && rest.head?.any Text.isLowSurrogate) = true
    · simp only [if_pos hpair]
      obtain ⟨hhigh, hlow⟩ := Bool.and_eq_true_iff.mp hpair
      obtain ⟨low, hhead, hlow⟩ := (Option.any_eq_true _ _).mp hlow
      obtain ⟨back, rfl⟩ := List.head?_eq_some_iff.mp hhead
      exact .pair hhigh hlow
    · simp only [if_neg hpair]
      refine .unit hspace hforeign hfront ?_
      rintro high hhigh low hlow ⟨hu, hback⟩
      cases hhigh
      exact hpair (Bool.and_eq_true_iff.mpr ⟨hu, (Option.any_eq_true _ _).mpr ⟨low, hlow, hback⟩⟩)

/-! ## One lexeme after the other -/

namespace Native

variable {u : UInt16}

theorem of_digit (h : Text.isDigit u = true) : Native u :=
  .inl (Bool.or_eq_true_iff.mpr (.inr h))

theorem ne_space (h : Native u) : u ≠ Text.unit ' ' := by
  rintro rfl
  rcases h with halphanumeric | ⟨kind, c, hc, heq⟩
  · exact absurd halphanumeric (by decide)
  · cases kind <;> cases hc <;> exact absurd heq (by decide)

theorem not_high (h : Native u) : Text.isHighSurrogate u = false := by
  rcases h with halphanumeric | ⟨kind, c, hc, rfl⟩
  · refine Bool.eq_false_iff.mpr fun hhigh => ?_
    have hfirst : 0xD800 ≤ u := of_decide_eq_true (Bool.and_eq_true_iff.mp hhigh).1
    have hbetween := UInt16.le_trans hfirst (Text.le_of_isAlphanumeric halphanumeric)
    exact absurd hbetween (by decide)
  · cases kind <;> cases hc <;> decide

end Native

namespace Lexeme

variable {rounding : Rounding} {front word back : Text} {kind : Kind}

theorem ne_endOfText (h : Lexeme rounding front kind word back) : kind ≠ .endOfText := by
  rintro rfl
  cases h with
  | character character => exact nomatch character

theorem ne_nil (h : Lexeme rounding front kind word back) : word ≠ [] := by
  cases h with
  | whole nonempty => exact nonempty
  | fraction nonempty => exact List.append_ne_nil_of_left_ne_nil nonempty _
  | _ => exact List.cons_ne_nil _ _

/-- The units of a lexeme. -/
theorem units (h : Lexeme rounding front kind word back) :
    (∀ u ∈ word, Native u) ∨
    (∃ high low, word = [high, low] ∧ Text.isHighSurrogate high = true ∧
      Text.isLowSurrogate low = true) ∨
    ∃ u, word = [u] ∧ u ≠ Text.unit ' ' ∧ Text.Apart [u] back := by
  cases h with
  | identifier letter alphanumeric =>
    refine .inl (List.forall_mem_cons.mpr ⟨?_, fun u hu => .inl (alphanumeric u hu)⟩)
    exact .inl (Bool.or_eq_true_iff.mpr (.inl letter))
  | whole _ digit => exact .inl fun u hu => .of_digit (digit u hu)
  | fraction _ digit _ fractionDigit =>
    refine .inl (List.forall_mem_append.mpr ⟨fun u hu => .of_digit (digit u hu), ?_⟩)
    refine List.forall_mem_cons.mpr ⟨?_, fun u hu => .of_digit (fractionDigit u hu)⟩
    exact .inr ⟨.dot, '.', rfl, rfl⟩
  | @character kind c _ character =>
    exact .inl (List.forall_mem_singleton.mpr (.inr ⟨kind, c, character, rfl⟩))
  | @pair high low _ isHigh isLow => exact .inr (.inl ⟨high, low, rfl, isHigh, isLow⟩)
  | @unit u _ space _ _ behind => exact .inr (.inr ⟨u, rfl, space, behind⟩)

theorem space_not_mem (h : Lexeme rounding front kind word back) : Text.unit ' ' ∉ word := by
  intro hspace
  rcases h.units with hnative | ⟨high, low, rfl, hhigh, hlow⟩ | ⟨u, rfl, hu, -⟩
  · exact (hnative _ hspace).ne_space rfl
  · rcases List.mem_pair.mp hspace with rfl | rfl
    · exact absurd hhigh (by decide)
    · exact absurd hlow (by decide)
  · exact hu (List.mem_singleton.mp hspace).symm

/-- Behind a lexeme the text goes on with a whole code point. -/
theorem apart (h : Lexeme rounding front kind word back) : Text.Apart (front ++ word) back := by
  rw [Text.apart_append h.ne_nil]
  rcases h.units with hnative | ⟨high, low, rfl, hhigh, hlow⟩ | ⟨u, rfl, -, hbehind⟩
  · exact Text.apart_of_not_high fun u hu => (hnative u (List.mem_of_getLast? hu)).not_high
  · apply Text.apart_of_not_high
    rintro u ⟨⟩
    exact Text.not_high_of_low hlow
  · exact hbehind

end Lexeme

/-- The tokens of a text of which `front` is read already. -/
inductive Scanned (rounding : Rounding) : Text → List Token → Text → Prop where
  | done {front : Text} : Scanned rounding front [] []
  | space {front rest : Text} {body : List Token}
      (next : Scanned rounding (front ++ [Text.unit ' ']) body rest) :
      Scanned rounding front body (Text.unit ' ' :: rest)
  | lexeme {front word back : Text} {kind : Kind} {body : List Token}
      (reads : Lexeme rounding front kind word back)
      (next : Scanned rounding (front ++ word) body back) :
      Scanned rounding front (⟨kind, front.length, (front ++ word).length⟩ :: body) (word ++ back)

theorem scanFrom_scanned (rounding : Rounding) {front rest : Text} (h : Text.Apart front rest) :
    ∃ body, scanFrom rounding front.length rest =
        body ++ [⟨.endOfText, (front ++ rest).length, (front ++ rest).length⟩] ∧
      Scanned rounding front body rest := by
  generalize hoffset : front.length = offset
  -- Every step moves units from the rest to `front`, so `front` stays general.
  fun_induction scanFrom rounding offset rest generalizing front with
  | case1 offset =>
    refine ⟨[], ?_, .done⟩
    rw [List.append_nil, hoffset]
    rfl
  | case2 offset rest ih =>
    have hspace : Text.Apart (front ++ [Text.unit ' ']) rest := by
      rw [Text.apart_append (List.cons_ne_nil _ _)]
      exact Text.apart_of_not_high (by rintro u ⟨⟩; rfl)
    obtain ⟨body, heq, hbody⟩ := ih hspace (by rw [List.length_append, hoffset]; rfl)
    rw [List.append_assoc, List.singleton_append] at heq
    exact ⟨body, heq, .space hbody⟩
  | case3 offset u rest hu kind more hlex next =>
    rename_i ih
    have hreads := lexeme_reads rounding hu h
    rw [hlex] at hreads
    have hmore : more ≤ rest.length := by
      have hle := lexeme_length_le rounding u rest
      rwa [hlex] at hle
    have hnext : (front ++ u :: rest.take more).length = next := by
      rw [List.length_append, List.length_cons, List.length_take_of_le hmore, hoffset]
      omega
    have htext : (u :: rest.take more) ++ rest.drop more = u :: rest := by
      rw [List.cons_append, List.take_append_drop]
    obtain ⟨body, heq, hbody⟩ := ih hreads.apart hnext
    rw [List.append_assoc, htext] at heq
    have hstep := Scanned.lexeme hreads hbody
    rw [hnext, htext, hoffset] at hstep
    exact ⟨_, by rw [heq]; rfl, hstep⟩

/-! ## What holds of every run -/

/-- The unit at an offset is part of the token. -/
def Covers (token : Token) (offset : Nat) : Prop := token.start ≤ offset ∧ offset < token.stop

namespace Scanned

variable {rounding : Rounding} {front rest : Text} {body : List Token}

theorem spans (h : Scanned rounding front body rest) :
    ∀ token ∈ body, (front.length : Int) ≤ token.start ∧ token.start < token.stop ∧
      token.stop ≤ (front ++ rest).length := by
  induction h with
  | done => exact nofun
  | space next ih =>
    intro token ht
    obtain ⟨hstart, hspan, hstop⟩ := ih token ht
    simp only [List.length_append, List.length_cons, List.length_nil] at hstart hstop ⊢
    omega
  | @lexeme front word back kind body reads next ih =>
    have hword : 0 < word.length := List.length_pos_iff.mpr reads.ne_nil
    simp only [List.length_append] at ih ⊢
    refine List.forall_mem_cons.mpr ⟨by simp only; omega, fun token ht => ?_⟩
    obtain ⟨hstart, hspan, hstop⟩ := ih token ht
    omega

theorem increasing (h : Scanned rounding front body rest) :
    body.Pairwise fun token later => token.stop ≤ later.start := by
  induction h with
  | done => exact .nil
  | space next ih => exact ih
  | lexeme reads next ih =>
    exact .cons (fun later hlater => (next.spans later hlater).1) ih

theorem reads (h : Scanned rounding front body rest) {t : Text} (ht : front ++ rest = t) :
    ∀ token ∈ body, Lexeme rounding (t.before token.start) token.kind
      (t.slice token.start token.stop) (t.after token.stop) := by
  induction h with
  | done => exact nofun
  | space next ih => exact ih (by rw [List.append_assoc]; exact ht)
  | @lexeme front word back kind body reads next ih =>
    refine List.forall_mem_cons.mpr ⟨?_, ih (by rw [List.append_assoc]; exact ht)⟩
    subst ht
    simp only
    rw [Text.before_append, List.length_append, Text.slice_between, ← List.append_assoc,
      ← List.length_append, Text.after_append]
    exact reads

theorem covers_iff (h : Scanned rounding front body rest) {i : Nat} {u : UInt16}
    (hi : front.length ≤ i) (hu : (front ++ rest)[i]? = some u) :
    (∃ token ∈ body, token.Covers i) ↔ u ≠ Text.unit ' ' := by
  induction h with
  | done =>
    rw [List.append_nil, List.getElem?_eq_none hi] at hu
    cases hu
  | @space front rest body next ih =>
    by_cases hfirst : i = front.length
    · rw [hfirst, List.getElem?_append_right (Nat.le_refl _), Nat.sub_self] at hu
      refine iff_of_false ?_ (not_not_intro (Option.some.inj hu).symm)
      rintro ⟨token, ht, hcovers⟩
      have hstart := (next.spans token ht).1
      have hle := hcovers.1
      rw [List.length_append, List.length_singleton] at hstart
      omega
    · apply ih
      · rw [List.length_append, List.length_singleton]
        omega
      · rw [List.append_assoc]
        exact hu
  | @lexeme front word back kind body reads next ih =>
    rw [← List.append_assoc] at hu
    -- In front of the end of the word the token covers the unit, behind it the later ones decide.
    by_cases hinside : i < (front ++ word).length
    · refine iff_of_true ⟨_, List.mem_cons_self, by simp only [Covers]; omega⟩ ?_
      rintro rfl
      rw [List.getElem?_append_left hinside, List.getElem?_append_right hi] at hu
      exact reads.space_not_mem (List.mem_of_getElem? hu)
    · have hhead : ¬ Covers ⟨kind, front.length, (front ++ word).length⟩ i := fun hcovers =>
        hinside (Int.ofNat_lt.mp hcovers.2)
      simp only [List.mem_cons, exists_eq_or_imp]
      rw [or_iff_right hhead]
      exact ih (Nat.not_lt.mp hinside) hu

end Scanned

theorem beforeEnd_scanned (rounding : Rounding) (t : Text) :
    Scanned rounding [] (beforeEnd (scan rounding t)) t := by
  have hstart : Text.Apart [] t := nofun
  obtain ⟨body, hscan, hbody⟩ := scanFrom_scanned rounding hstart
  have hfront : beforeEnd (scan rounding t) = body :=
    List.append_cancel_right ((scan_eq rounding t).symm.trans hscan)
  rw [hfront]
  exact hbody

theorem starts_increasing (rounding : Rounding) (text : Text) :
    (beforeEnd (scan rounding text)).Pairwise fun t later => t.start < later.start := by
  have hscanned := beforeEnd_scanned rounding text
  apply hscanned.increasing.imp_of_mem
  intro t later ht _ hstop
  have hspan := hscanned.spans t ht
  omega

theorem lexeme_of_scan {rounding : Rounding} {text : Text} {t : Token}
    (h : t ∈ beforeEnd (scan rounding text)) :
    Lexeme rounding (text.before t.start) t.kind (text.slice t.start t.stop) (text.after t.stop) :=
  (beforeEnd_scanned rounding text).reads rfl t h

/-- **The scan is a partition into longest lexemes.** The tokens in front of the end token have
spans that are not empty, inside the text and one behind the other. A unit is in none of them
exactly if it is a space. Each token is of the kind of its word, with the value of its numeral as
the rounding mode has it. -/
theorem scan_partitions (rounding : Rounding) (t : Text) :
    ∃ body : List Token, scan rounding t = body ++ [⟨.endOfText, t.length, t.length⟩] ∧
      (∀ token ∈ body, token.kind ≠ .endOfText ∧
        0 ≤ token.start ∧ token.start < token.stop ∧ token.stop ≤ t.length) ∧
      (body.Pairwise fun token later => token.stop ≤ later.start) ∧
      (∀ i u, t[i]? = some u → ((∀ token ∈ body, ¬ token.Covers i) ↔ u = Text.unit ' ')) ∧
      ∀ token ∈ body, Lexeme rounding (t.before token.start) token.kind
        (t.slice token.start token.stop) (t.after token.stop) := by
  have hstart : Text.Apart [] t := nofun
  obtain ⟨body, heq, hbody⟩ := scanFrom_scanned rounding hstart
  have hreads := hbody.reads rfl
  refine ⟨body, heq, ?_, hbody.increasing, ?_, hreads⟩
  · exact fun token ht => ⟨(hreads token ht).ne_endOfText, hbody.spans token ht⟩
  · intro i u hu
    have hcovers := hbody.covers_iff (Nat.zero_le i) hu
    rw [← not_iff_not, not_not] at hcovers
    rw [← hcovers]
    simp only [not_exists, not_and]

end Token
end Reckoner
