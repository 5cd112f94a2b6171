import Mathlib.Order.Bounds.Basic
import Reckoner.Identifier
import Reckoner.Proofs.Lexemes

/-!
# Identifiers from either side

The scan finds an identifier from the left, behind all the numbers and names in front of it; the
editor looks for it from the cursor to the left. Both come to the leftmost letter from which the
text up to the cursor is letters and digits: looking back by going on as long as there are any
(`Text.identifierSpan_eq_some_iff`), and scanning because each letter is in an identifier
(`Token.Scanned.identifier_at`), which cannot begin later than at that letter.
-/

namespace Reckoner

namespace Text

variable {t : Text} {i n start stop : Nat}

/-- There is a unit at the offset, and it is of this class. -/
def Has (t : Text) (i : Nat) (p : UInt16 → Bool) : Prop := ∃ u, t[i]? = some u ∧ p u = true

/-- The letters from which the text up to `stop` is letters and digits. -/
def identifierStarts (t : Text) (stop : Nat) : Set Nat :=
  {i | i < stop ∧ t.Has i isLetter ∧ ∀ j, i ≤ j → j < stop → t.Has j isAlphanumeric}

theorem Has.of_some {u : UInt16} {p : UInt16 → Bool} (h : t.Has i p) (hu : t[i]? = some u) :
    p u = true := by
  obtain ⟨v, hv, hp⟩ := h
  cases hu.symm.trans hv
  exact hp

/-! ## Looking back -/

theorem mem_identifierStarts_succ {u : UInt16} (hu : t[n]? = some u) :
    i ∈ t.identifierStarts (n + 1) ↔
      isAlphanumeric u = true ∧ (i ∈ t.identifierStarts n ∨ i = n ∧ isLetter u = true) := by
  constructor
  · rintro ⟨hi, hletter, hrun⟩
    refine ⟨(hrun n (by omega) (by omega)).of_some hu, ?_⟩
    by_cases hlast : i = n
    · subst hlast
      exact .inr ⟨rfl, hletter.of_some hu⟩
    · refine .inl ⟨by omega, hletter, ?_⟩
      intro j hij hj
      exact hrun j hij (by omega)
  · rintro ⟨halphanumeric, ⟨hi, hletter, hrun⟩ | ⟨rfl, hletter⟩⟩
    · refine ⟨by omega, hletter, ?_⟩
      intro j hij hj
      by_cases hlast : j = n
      · subst hlast
        exact ⟨u, hu, halphanumeric⟩
      · exact hrun j hij (by omega)
    · refine ⟨by omega, ⟨u, hu, hletter⟩, ?_⟩
      intro j hij hj
      have hsame : j = i := by omega
      subst hsame
      exact ⟨u, hu, halphanumeric⟩

theorem leftmostLetter_succ {u : UInt16} (hu : t[n]? = some u) :
    leftmostLetter (t.take (n + 1)).reverse (n + 1) =
      if isAlphanumeric u then
        (leftmostLetter (t.take n).reverse n).or (if isLetter u then some n else none)
      else none := by
  rw [List.take_add_one, hu, Option.toList_some, List.reverse_append]
  rfl

theorem leftmostLetter_cases (h : n ≤ t.length) :
    (∃ start, leftmostLetter (t.take n).reverse n = some start ∧
      IsLeast (t.identifierStarts n) start) ∨
    leftmostLetter (t.take n).reverse n = none ∧ t.identifierStarts n = ∅ := by
  induction n with
  | zero =>
    refine .inr ⟨rfl, Set.eq_empty_of_forall_notMem ?_⟩
    rintro i ⟨hi, -⟩
    exact Nat.not_lt_zero i hi
  | succ n ih =>
    have hu : t[n]? = some t[n] := List.getElem?_eq_getElem h
    have hmem {i : Nat} := mem_identifierStarts_succ (i := i) hu
    rw [leftmostLetter_succ hu]
    by_cases halphanumeric : isAlphanumeric t[n] = true
    · rw [if_pos halphanumeric]
      rcases ih (Nat.le_of_succ_le h) with ⟨start, hstart, hleast⟩ | ⟨hnone, hempty⟩
      · -- The run goes on to the left, and its leftmost letter is the same.
        refine .inl ⟨start, by rw [hstart, Option.some_or], ?_, ?_⟩
        · exact hmem.mpr ⟨halphanumeric, .inl hleast.1⟩
        · intro i hi
          rcases (hmem.mp hi).2 with hbefore | ⟨rfl, -⟩
          · exact hleast.2 hbefore
          · exact Nat.le_of_lt hleast.1.1
      · rw [hnone, Option.none_or]
        by_cases hletter : isLetter t[n] = true
        · refine .inl ⟨n, if_pos hletter, ?_, ?_⟩
          · exact hmem.mpr ⟨halphanumeric, .inr ⟨rfl, hletter⟩⟩
          · intro i hi
            rcases (hmem.mp hi).2 with hbefore | ⟨rfl, -⟩
            · rw [hempty] at hbefore
              cases hbefore
            · exact Nat.le_refl i
        · refine .inr ⟨if_neg hletter, Set.eq_empty_of_forall_notMem ?_⟩
          intro i hi
          rcases (hmem.mp hi).2 with hbefore | ⟨-, hhere⟩
          · rw [hempty] at hbefore
            cases hbefore
          · exact hletter hhere
    · refine .inr ⟨if_neg halphanumeric, Set.eq_empty_of_forall_notMem ?_⟩
      intro i hi
      exact halphanumeric (hmem.mp hi).1

theorem identifierSpan_natCast (h : stop ≤ t.length) :
    t.identifierSpan stop = (leftmostLetter (t.take stop).reverse stop).map (⟨·, stop⟩) := by
  rw [identifierSpan, if_pos ⟨by omega, by omega⟩, Int.toNat_natCast]

/-- Looking back from an offset finds the leftmost of the letters from which the text up to there is
letters and digits. -/
theorem identifierSpan_eq_some_iff (h : stop ≤ t.length) {span : Span} :
    t.identifierSpan stop = some span ↔
      span.stop = stop ∧ IsLeast (t.identifierStarts stop) span.start := by
  rw [identifierSpan_natCast h]
  obtain ⟨first, last⟩ := span
  rcases leftmostLetter_cases h with ⟨start, hstart, hleast⟩ | ⟨hnone, hempty⟩
  · simp only [hstart, Option.map_some, Option.some.injEq, Span.mk.injEq]
    constructor
    · rintro ⟨rfl, rfl⟩
      exact ⟨rfl, hleast⟩
    · rintro ⟨rfl, hfirst⟩
      exact ⟨hleast.unique hfirst, rfl⟩
  · simp only [hnone, hempty, Option.map_none]
    constructor
    · exact nofun
    · rintro ⟨-, hfirst, -⟩
      cases hfirst

/-- If there is a letter to begin at, something is found. -/
theorem exists_identifierSpan (h : stop ≤ t.length) (hstart : start ∈ t.identifierStarts stop) :
    ∃ span, t.identifierSpan stop = some span := by
  rw [identifierSpan_natCast h]
  rcases leftmostLetter_cases h with ⟨first, hfirst, -⟩ | ⟨-, hempty⟩
  · exact ⟨⟨first, stop⟩, by rw [hfirst]; rfl⟩
  · rw [hempty] at hstart
    cases hstart

theorem before_natCast (h : stop ≤ t.length) : t.before stop = t.take stop := by
  rw [before, slice, resolve_natCast, Nat.min_eq_left h]
  rfl

theorem identifierStarts_before (h : stop ≤ t.length) :
    (t.before stop).identifierStarts stop = t.identifierStarts stop := by
  have hhas {i : Nat} {p : UInt16 → Bool} (hi : i < stop) :
      (t.before stop).Has i p ↔ t.Has i p := by
    unfold Has
    rw [before_natCast h, List.getElem?_take_of_lt hi]
  ext i
  constructor
  · rintro ⟨hi, hletter, hrun⟩
    exact ⟨hi, (hhas hi).mp hletter, fun j hij hj => (hhas hj).mp (hrun j hij hj)⟩
  · rintro ⟨hi, hletter, hrun⟩
    exact ⟨hi, (hhas hi).mpr hletter, fun j hij hj => (hhas hj).mpr (hrun j hij hj)⟩

/-! ## Scanning -/

theorem isDigit_of_isLetter {u : UInt16} (h : isLetter u = true) : isDigit u = false := by
  simp only [isLetter, isDigit, Bool.or_eq_true, Bool.and_eq_true, Bool.and_eq_false_iff,
    decide_eq_true_eq, decide_eq_false_iff_not, UInt16.le_iff_toNat_le] at h ⊢
  have hunits : (unit '0').toNat = 48 ∧ (unit '9').toNat = 57 ∧ (unit 'a').toNat = 97 ∧
      (unit 'A').toNat = 65 := by decide
  omega

/-- The text between the offsets begins with a letter, is letters and digits, and is followed by
neither. -/
structure WordAt (t : Text) (start stop : Nat) : Prop where
  letter : t.Has start isLetter
  run : ∀ i, start ≤ i → i < stop → t.Has i isAlphanumeric
  ends : ¬ t.Has stop isAlphanumeric

theorem getElem?_between {front word back : Text} (hlow : front.length ≤ i)
    (hhigh : i < (front ++ word).length) :
    (front ++ (word ++ back))[i]? = word[i - front.length]? := by
  rw [← List.append_assoc, List.getElem?_append_left hhigh, List.getElem?_append_right hlow]

end Text

namespace Token

variable {rounding : Rounding} {front word back rest : Text} {kind : Kind} {body : List Token}

theorem Lexeme.identifier_of_letter (h : Lexeme rounding front kind word back) {u : UInt16}
    (hu : u ∈ word) (hletter : Text.isLetter u = true) : kind = .identifier := by
  have hdigit := Text.isDigit_of_isLetter hletter
  have halphanumeric : Text.isAlphanumeric u = true := Bool.or_eq_true_iff.mpr (.inl hletter)
  have hbelow : ¬ 0xD800 ≤ u := by
    intro hsurrogate
    exact absurd (UInt16.le_trans hsurrogate (Text.le_of_isAlphanumeric halphanumeric)) (by decide)
  cases h with
  | identifier => rfl
  | whole _ digit => exact absurd ((digit u hu).symm.trans hdigit) nofun
  | fraction _ digit _ fractionDigit =>
    rcases List.mem_append.mp hu with hwhole | hfraction
    · exact absurd ((digit u hwhole).symm.trans hdigit) nofun
    · rcases List.mem_cons.mp hfraction with rfl | hfraction
      · exact absurd hletter (by decide)
      · exact absurd ((fractionDigit u hfraction).symm.trans hdigit) nofun
  | character character =>
    cases List.mem_singleton.mp hu
    cases kind <;> cases character <;> exact absurd hletter (by decide)
  | pair isHigh isLow =>
    rcases List.mem_pair.mp hu with rfl | rfl
    · exact absurd (of_decide_eq_true (Bool.and_eq_true_iff.mp isHigh).1) hbelow
    · have hlow : 0xDC00 ≤ u := of_decide_eq_true (Bool.and_eq_true_iff.mp isLow).1
      exact absurd (UInt16.le_trans (by decide) hlow) hbelow
  | unit _ foreign =>
    cases List.mem_singleton.mp hu
    exact absurd (.inl halphanumeric) foreign

theorem Lexeme.wordAt (h : Lexeme rounding front .identifier word back) :
    (front ++ (word ++ back)).WordAt front.length (front ++ word).length := by
  cases h with
  | @identifier first others _ letter alphanumeric ends =>
    have hword : ∀ u ∈ first :: others, Text.isAlphanumeric u = true :=
      List.forall_mem_cons.mpr ⟨Bool.or_eq_true_iff.mpr (.inl letter), alphanumeric⟩
    constructor
    · refine ⟨first, ?_, letter⟩
      rw [Text.getElem?_between (Nat.le_refl _) (by simp), Nat.sub_self]
      rfl
    · intro i hlow hhigh
      have hinside : i - front.length < (first :: others).length := by
        rw [List.length_append] at hhigh
        omega
      refine ⟨(first :: others)[i - front.length], ?_, hword _ (List.getElem_mem hinside)⟩
      rw [Text.getElem?_between hlow hhigh, List.getElem?_eq_getElem hinside]
    · rintro ⟨u, hu, halphanumeric⟩
      rw [← List.append_assoc, List.getElem?_append_right (Nat.le_refl _), Nat.sub_self,
        ← List.head?_eq_getElem?] at hu
      exact absurd ((ends u hu).symm.trans halphanumeric) nofun
  | character character => cases character

namespace Scanned

/-- Each token is a lexeme of the text, where it stands. -/
theorem split (h : Scanned rounding front body rest) : ∀ token ∈ body, ∃ before word back,
    front ++ rest = before ++ (word ++ back) ∧
    token = ⟨token.kind, before.length, (before ++ word).length⟩ ∧
    Lexeme rounding before token.kind word back := by
  induction h with
  | done => exact nofun
  | space next ih =>
    rw [List.append_assoc] at ih
    exact ih
  | @lexeme front word back kind body reads next ih =>
    rw [List.append_assoc] at ih
    exact List.forall_mem_cons.mpr ⟨⟨front, word, back, rfl, rfl, reads⟩, ih⟩

/-- Every identifier among the tokens is a word of the text. -/
theorem wordAt (h : Scanned rounding front body rest) {token : Token} (htoken : token ∈ body)
    (hkind : token.kind = .identifier) : ∃ start stop : Nat, token = ⟨.identifier, start, stop⟩ ∧
      (front ++ rest).WordAt start stop := by
  obtain ⟨before, word, back, htext, hspan, hlexeme⟩ := h.split token htoken
  rw [hkind] at hspan hlexeme
  rw [htext]
  exact ⟨before.length, (before ++ word).length, hspan, hlexeme.wordAt⟩

/-- Every letter is in an identifier. -/
theorem identifier_at (h : Scanned rounding front body rest) {i : Nat} (hi : front.length ≤ i)
    (hletter : (front ++ rest).Has i Text.isLetter) :
    ∃ start stop : Nat, ⟨.identifier, start, stop⟩ ∈ body ∧ start ≤ i ∧ i < stop ∧
      (front ++ rest).WordAt start stop := by
  obtain ⟨u, hu, hletter⟩ := hletter
  have hspace : u ≠ Text.unit ' ' := by
    rintro rfl
    exact absurd hletter (by decide)
  obtain ⟨token, htoken, hcovers⟩ := (h.covers_iff hi hu).mpr hspace
  have hkind : token.kind = .identifier := by
    obtain ⟨before, word, back, htext, hspan, hlexeme⟩ := h.split token htoken
    rw [hspan] at hcovers
    obtain ⟨hlow, hhigh⟩ := hcovers
    simp only at hlow hhigh
    rw [htext, Text.getElem?_between (by omega) (by omega)] at hu
    exact hlexeme.identifier_of_letter (List.mem_of_getElem? hu) hletter
  obtain ⟨start, stop, rfl, hword⟩ := h.wordAt htoken hkind
  obtain ⟨hlow, hhigh⟩ := hcovers
  simp only at hlow hhigh
  exact ⟨start, stop, htoken, by omega, by omega, hword⟩

end Scanned

/-! ## Both together -/

variable {t : Text} {start stop : Nat}

/-- The scan has an identifier that begins at the leftmost letter, and it reaches as far as the
letters and digits were looked at. -/
theorem exists_identifier_of_isLeast (rounding : Rounding)
    (h : IsLeast (t.identifierStarts stop) start) :
    ∃ last : Nat, ⟨.identifier, start, last⟩ ∈ beforeEnd (scan rounding t) ∧ stop ≤ last := by
  obtain ⟨⟨hlt, hletter, hrun⟩, hleast⟩ := h
  obtain ⟨first, last, hmem, hfirst, hlast, hword⟩ :=
    (beforeEnd_scanned rounding t).identifier_at (Nat.zero_le start) hletter
  rw [List.nil_append] at hword
  -- It cannot end in front of `stop`, where letters and digits go on.
  have hreaches : stop ≤ last := by
    refine Nat.not_lt.mp fun hbefore => hword.ends ?_
    exact hrun last (by omega) hbefore
  -- And from its first letter up to there, letters and digits are all there is.
  have hstarts : first ∈ t.identifierStarts stop :=
    ⟨by omega, hword.letter, fun j hj hstop => hword.run j hj (by omega)⟩
  have hsame : first = start := Nat.le_antisymm hfirst (hleast hstarts)
  subst hsame
  exact ⟨last, hmem, hreaches⟩

/-- A token that ends where the text ends is the last one. -/
theorem getLast?_beforeEnd {token : Token} (htoken : token ∈ beforeEnd (scan rounding t))
    (hstop : token.stop = t.length) : (beforeEnd (scan rounding t)).getLast? = some token := by
  have hscanned := beforeEnd_scanned rounding t
  obtain ⟨earlier, later, hsplit⟩ := List.append_of_mem htoken
  cases later with
  | nil => rw [hsplit, List.getLast?_concat]
  | cons next later =>
    have hincreasing := hscanned.increasing
    rw [hsplit] at hincreasing
    have hnext : token.stop ≤ next.start :=
      (List.pairwise_cons.mp (List.pairwise_append.mp hincreasing).2.1).1 next List.mem_cons_self
    have hmem : next ∈ beforeEnd (scan rounding t) := by
      rw [hsplit]
      exact List.mem_append_right earlier (List.mem_cons_of_mem token List.mem_cons_self)
    obtain ⟨-, hspan, hlast⟩ := hscanned.spans next hmem
    rw [List.nil_append] at hlast
    omega

theorem getLast?_of_isLeast (rounding : Rounding) (hstop : stop ≤ t.length)
    (h : IsLeast (t.identifierStarts stop) start) :
    (beforeEnd (scan rounding (t.before stop))).getLast? = some ⟨.identifier, start, stop⟩ := by
  have hlength : (t.before stop).length = stop := by
    rw [Text.before_natCast hstop, List.length_take_of_le hstop]
  rw [← Text.identifierStarts_before hstop] at h
  obtain ⟨last, hmem, hreaches⟩ := exists_identifier_of_isLeast rounding h
  have hinside := ((beforeEnd_scanned rounding _).spans _ hmem).2.2
  rw [List.nil_append, hlength] at hinside
  have hsame : last = stop := by
    simp only at hinside
    omega
  subst hsame
  exact getLast?_beforeEnd hmem (congrArg Nat.cast hlength.symm)

theorem mem_identifierStarts_of_mem {token : Token} (hstop : stop ≤ t.length)
    (htoken : token ∈ beforeEnd (scan rounding (t.before stop))) (hkind : token.kind = .identifier)
    (hends : token.stop = stop) : ∃ first, first ∈ t.identifierStarts stop := by
  have hscanned := beforeEnd_scanned rounding (t.before stop)
  obtain ⟨first, last, rfl, hword⟩ := hscanned.wordAt htoken hkind
  rw [List.nil_append] at hword
  cases Int.ofNat_inj.mp hends
  have hspan := (hscanned.spans _ htoken).2.1
  simp only at hspan
  rw [← Text.identifierStarts_before hstop]
  exact ⟨first, by omega, hword.letter, hword.run⟩

end Token

/-- **The identifier in front of an offset is the token that ends there.** For every text and offset
in it, looking back finds an identifier exactly if the text up to the offset has an identifier that
ends at the offset for its last token. What is found is the span of that token, and the tokens of
the whole text have an identifier that begins there too and reaches at least to the offset. -/
theorem identifier_is_last_token (rounding : Rounding) (t : Text) {stop : Nat}
    (hstop : stop ≤ t.length) :
    let last := (Token.beforeEnd (Token.scan rounding (t.before stop))).getLast?
    ((t.identifierSpan stop).isSome = true ↔
      ∃ token, last = some token ∧ token.kind = .identifier ∧ token.stop = stop) ∧
    ∀ span, t.identifierSpan stop = some span →
      span.stop = stop ∧ last = some ⟨.identifier, span.start, span.stop⟩ ∧
      ∃ token ∈ Token.scan rounding t,
        token.kind = .identifier ∧ token.start = span.start ∧ stop ≤ token.stop := by
  intro last
  have hfound {span : Span} (h : t.identifierSpan stop = some span) :
      span.stop = stop ∧ last = some ⟨.identifier, span.start, span.stop⟩ := by
    obtain ⟨hspan, hleast⟩ := (Text.identifierSpan_eq_some_iff hstop).mp h
    rw [hspan]
    exact ⟨rfl, Token.getLast?_of_isLeast rounding hstop hleast⟩
  refine ⟨⟨?_, ?_⟩, ?_⟩
  · intro h
    obtain ⟨span, hspan⟩ := Option.isSome_iff_exists.mp h
    obtain ⟨hends, hlast⟩ := hfound hspan
    exact ⟨_, hlast, rfl, congrArg Nat.cast hends⟩
  · rintro ⟨token, hlast, hkind, hends⟩
    obtain ⟨first, hfirst⟩ :=
      Token.mem_identifierStarts_of_mem hstop (List.mem_of_getLast? hlast) hkind hends
    exact Option.isSome_iff_exists.mpr (Text.exists_identifierSpan hstop hfirst)
  · intro span hspan
    obtain ⟨hends, hlast⟩ := hfound hspan
    obtain ⟨-, hleast⟩ := (Text.identifierSpan_eq_some_iff hstop).mp hspan
    obtain ⟨reach, hmem, hreach⟩ := Token.exists_identifier_of_isLeast rounding hleast
    exact ⟨hends, hlast, _, Token.mem_of_mem_beforeEnd hmem, rfl, rfl, Int.ofNat_le.mpr hreach⟩

/-- In front of the last unit of `1.5ab2c` stands `ab2`, behind a number with a point. It is a part
of `ab2c`. -/
theorem identifier_is_last_token_mixed :
    let t : Text := "1.5ab2c"
    t.identifierSpan 6 = some ⟨3, 6⟩ ∧
      (Token.beforeEnd (Token.scan .halfEven (t.before 6))).getLast? = some ⟨.identifier, 3, 6⟩ ∧
      ∃ token ∈ Token.scan .halfEven t,
        token.kind = .identifier ∧ token.start = 3 ∧ 6 ≤ token.stop := by
  intro t
  have hspan : t.identifierSpan 6 = some ⟨3, 6⟩ := by decide
  have hstop : 6 ≤ t.length := by decide
  obtain ⟨-, hlast, htoken⟩ := (identifier_is_last_token .halfEven t hstop).2 _ hspan
  exact ⟨hspan, hlast, htoken⟩

end Reckoner
