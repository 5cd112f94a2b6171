import Reckoner.Proofs.Lexemes

/-!
# Places between tokens

A lexeme ends where the text behind it cannot make it longer. So it stays the same when what is
behind it is replaced by something that cannot do so either (`lexeme_cut`), like a space, or like a
letter in place of a letter. At a place that no token straddles, the tokens in front of it are then
the same whatever the text behind it is replaced by (`scanFrom_append`), and a space put in there
changes no token but for its span (`scan_insertSpace`). Spans are the same for every rounding mode,
which only numbers depend on.
-/

namespace Reckoner

/-- The text with one more space, in front of the unit at `place`. -/
def Text.insertSpace (t : Text) (place : Nat) : Text :=
  t.take place ++ unit ' ' :: t.drop place

namespace Token

def span (token : Token) : Int × Int := (token.start, token.stop)

/-- The place is strictly inside of the token. -/
def Straddles (token : Token) (place : Nat) : Prop := token.start < place ∧ place < token.stop

instance (token : Token) (place : Nat) : Decidable (token.Straddles place) :=
  inferInstanceAs (Decidable (_ ∧ _))

/-- The token after one more unit was put in at `place`. -/
def shift (place : Nat) (token : Token) : Token :=
  if (place : Int) ≤ token.start then ⟨token.kind, token.start + 1, token.stop + 1⟩ else token

/-- The second text goes on with no lexeme in front of it that the first one does not go on with. -/
def Quiet (back other : Text) : Prop :=
  ∀ u ∈ other.head?, Text.isDigit u = false ∧ u ≠ Text.unit '.' ∧ Text.isLowSurrogate u = false ∧
    (Text.isAlphanumeric u = true → ∃ v ∈ back.head?, Text.isAlphanumeric v = true)

theorem quiet_space (back other : Text) : Quiet back (Text.unit ' ' :: other) := by
  rintro u ⟨⟩
  exact ⟨rfl, by decide, rfl, fun h => absurd h (by decide)⟩

/-! ## A lexeme that ends in front of a place -/

variable {front back other : Text}

theorem takeWhile_of_head {p : UInt16 → Bool} {t : Text} (h : ∀ u ∈ t.head?, p u = false) :
    t.takeWhile p = [] := by
  cases t with
  | nil => rfl
  | cons u rest =>
    rw [List.takeWhile_cons, h u rfl]
    rfl

theorem takeWhile_cut {p : UInt16 → Bool}
    (hp : ∀ u ∈ other.head?, p u = true → ∃ v ∈ back.head?, p v = true)
    (h : ((front ++ back).takeWhile p).length ≤ front.length) :
    (front ++ other).takeWhile p = (front ++ back).takeWhile p := by
  induction front with
  | nil =>
    have hnone : back.takeWhile p = [] := List.eq_nil_of_length_eq_zero (Nat.le_zero.mp h)
    rw [List.nil_append, List.nil_append, hnone]
    apply takeWhile_of_head
    intro u hu
    refine Bool.eq_false_iff.mpr fun htrue => ?_
    obtain ⟨v, hv, hpv⟩ := hp u hu htrue
    cases back with
    | nil => cases hv
    | cons w rest =>
      cases hv
      rw [List.takeWhile_cons, hpv] at hnone
      cases hnone
  | cons u front ih =>
    simp only [List.cons_append, List.takeWhile_cons] at h ⊢
    cases hu : p u with
    | false => rfl
    | true =>
      rw [hu] at h
      rw [ih (Nat.le_of_succ_le_succ h)]

theorem splitNumber_digits {digits : Text} (hdigits : ∀ u ∈ digits, Text.isDigit u = true)
    (t : Text) : splitNumber (digits ++ t) = (digits ++ (splitNumber t).1, (splitNumber t).2) := by
  unfold splitNumber
  rw [List.takeWhile_append_of_pos hdigits, List.dropWhile_append_of_pos hdigits]

theorem splitNumber_cons {u : UInt16} (hu : Text.isDigit u = false) (t : Text) :
    splitNumber (u :: t) = ([], if u = Text.unit '.' then t.takeWhile Text.isDigit else []) := by
  unfold splitNumber
  rw [List.takeWhile_cons, List.dropWhile_cons, hu]
  rfl

/-- No number in front of the text goes on in it. -/
theorem splitNumber_of_head {t : Text}
    (h : ∀ u ∈ t.head?, Text.isDigit u = false ∧ u ≠ Text.unit '.') : splitNumber t = ([], []) := by
  cases t with
  | nil => rfl
  | cons u rest =>
    obtain ⟨hdigit, hpoint⟩ := h u rfl
    rw [splitNumber_cons hdigit, if_neg hpoint]

theorem numberLength_digits {digits : Text} (hdigits : ∀ u ∈ digits, Text.isDigit u = true)
    (t : Text) : numberLength (digits ++ t) = digits.length + numberLength t := by
  simp only [numberLength, splitNumber_digits hdigits, List.length_append, Nat.add_assoc]

theorem splitNumber_of_length_zero {t : Text} (h : numberLength t = 0) :
    splitNumber t = ([], []) := by
  unfold numberLength at h
  generalize splitNumber t = parts at h
  obtain ⟨whole, fraction⟩ := parts
  cases whole with
  | nil =>
    cases fraction with
    | nil => rfl
    | cons u rest => simp at h
  | cons u rest => simp at h

/-- A number that ends in front of a place does not see what is behind it. -/
theorem splitNumber_cut (hquiet : Quiet back other)
    (h : numberLength (front ++ back) ≤ front.length) :
    splitNumber (front ++ other) = splitNumber (front ++ back) := by
  have hdigits : ∀ u ∈ front.takeWhile Text.isDigit, Text.isDigit u = true :=
    fun u hu => List.mem_takeWhile_imp hu
  rw [← List.takeWhile_append_dropWhile (p := Text.isDigit) (l := front)] at h ⊢
  rw [List.append_assoc, numberLength_digits hdigits, List.length_append] at h
  rw [List.append_assoc, List.append_assoc, splitNumber_digits hdigits, splitNumber_digits hdigits]
  have hrest : numberLength (front.dropWhile Text.isDigit ++ back) ≤
      (front.dropWhile Text.isDigit).length := by omega
  suffices hsplit : splitNumber (front.dropWhile Text.isDigit ++ other) =
      splitNumber (front.dropWhile Text.isDigit ++ back) by rw [hsplit]
  -- What is left of the front begins with the point, if the number has one.
  cases hpoint : front.dropWhile Text.isDigit with
  | nil =>
    rw [hpoint] at hrest
    have hnone : splitNumber back = ([], []) := splitNumber_of_length_zero (Nat.le_zero.mp hrest)
    rw [List.nil_append, List.nil_append, hnone]
    apply splitNumber_of_head
    intro u hu
    exact ⟨(hquiet u hu).1, (hquiet u hu).2.1⟩
  | cons u rest =>
    have hu : Text.isDigit u = false := of_mem_head?_dropWhile (by rw [hpoint]; rfl)
    rw [hpoint, List.cons_append, numberLength, splitNumber_cons hu] at hrest
    rw [List.cons_append, List.cons_append, splitNumber_cons hu, splitNumber_cons hu]
    by_cases hdot : u = Text.unit '.'
    · rw [if_pos hdot] at hrest
      have hfraction : ((rest ++ back).takeWhile Text.isDigit).length ≤ rest.length := by
        simp only [List.length_nil, List.length_cons, Nat.zero_add] at hrest
        split at hrest
        · rename_i hempty
          rw [List.isEmpty_iff.mp hempty]
          exact Nat.zero_le _
        · omega
      have hdigit : ∀ u ∈ other.head?, Text.isDigit u = true →
          ∃ v ∈ back.head?, Text.isDigit v = true :=
        fun u hu htrue => absurd ((hquiet u hu).1.symm.trans htrue) Bool.false_ne_true
      rw [if_pos hdot, if_pos hdot, takeWhile_cut hdigit hfraction]
    · rw [if_neg hdot, if_neg hdot]

/-- A lexeme that ends in front of a place does not see what is behind it. -/
theorem lexeme_cut (rounding : Rounding) (u : UInt16) (hquiet : Quiet back other)
    (h : (lexeme rounding u (front ++ back)).2 ≤ front.length) :
    lexeme rounding u (front ++ other) = lexeme rounding u (front ++ back) := by
  unfold lexeme at h ⊢
  by_cases hdigit : Text.isDigit u = true
  · rw [if_pos hdigit] at h
    rw [if_pos hdigit, if_pos hdigit]
    have hnumber : numberLength (u :: front ++ back) ≤ (u :: front).length := by
      rw [List.length_cons]
      exact Nat.sub_le_iff_le_add.mp h
    have hsplit := splitNumber_cut hquiet hnumber
    simp only [numberValue, numberLength, ← List.cons_append, hsplit]
  rw [if_neg hdigit] at h
  rw [if_neg hdigit, if_neg hdigit]
  by_cases hletter : Text.isLetter u = true
  · rw [if_pos hletter] at h
    have hword := takeWhile_cut (fun u hu => (hquiet u hu).2.2.2) h
    rw [if_pos hletter, if_pos hletter, hword]
  rw [if_neg hletter] at h
  rw [if_neg hletter, if_neg hletter]
  cases hkind : Kind.ofUnit? u with
  | some kind => rfl
  | none =>
    rw [hkind] at h
    cases front with
    | cons v front => rfl
    | nil =>
      have hother : other.head?.any Text.isLowSurrogate = false := by
        cases other with
        | nil => rfl
        | cons v rest => exact (hquiet v rfl).2.2.1
      have hback : ¬ (Text.isHighSurrogate u && back.head?.any Text.isLowSurrogate) = true := by
        intro hpair
        simp only [List.nil_append, if_pos hpair] at h
        exact absurd h (by decide)
      simp only [List.nil_append, hother, Bool.and_false,
        if_neg hback, Bool.false_eq_true, if_false]

/-! ## Scanning past a place -/

theorem scanFrom_cons (rounding : Rounding) (offset : Nat) {u : UInt16} (rest : Text)
    (hu : u ≠ Text.unit ' ') : scanFrom rounding offset (u :: rest) =
      ⟨(lexeme rounding u rest).1, offset, (offset + 1 + (lexeme rounding u rest).2 : Nat)⟩ ::
        scanFrom rounding (offset + 1 + (lexeme rounding u rest).2)
          (rest.drop (lexeme rounding u rest).2) := by
  rw [scanFrom, if_neg hu]

theorem scanFrom_space (rounding : Rounding) (offset : Nat) (rest : Text) :
    scanFrom rounding offset (Text.unit ' ' :: rest) = scanFrom rounding (offset + 1) rest := by
  rw [scanFrom, if_pos rfl]

/-- From the next offset on, all tokens are moved by one. -/
theorem scanFrom_succ (rounding : Rounding) {offset place : Nat} (t : Text) (h : place ≤ offset) :
    scanFrom rounding (offset + 1) t = (scanFrom rounding offset t).map (shift place) := by
  have hshift (kind : Kind) (offset stop : Nat) (h : place ≤ offset) :
      shift place ⟨kind, offset, stop⟩ = ⟨kind, (offset + 1 : Nat), (stop + 1 : Nat)⟩ := by
    rw [shift, if_pos (Int.ofNat_le.mpr h)]
    rfl
  fun_induction scanFrom rounding offset t with
  | case1 offset => rw [scanFrom, List.map_singleton, hshift _ _ _ h]
  | case2 offset rest ih =>
    rw [scanFrom_space]
    exact ih (Nat.le_succ_of_le h)
  | case3 offset u rest hu kind more hlex next ih =>
    have hnext : place ≤ next := by omega
    rw [scanFrom_cons _ _ _ hu, hlex, List.map_cons, hshift _ _ _ h, ← ih hnext]
    have hplace : offset + 1 + 1 + more = next + 1 := by omega
    rw [hplace]

/-- The tokens in front of a place that no token straddles do not see what is behind it. -/
theorem scanFrom_append (rounding : Rounding) (hquiet : Quiet back other) {offset : Nat}
    (h : ∀ token ∈ scanFrom rounding offset (front ++ back),
      ¬ token.Straddles (offset + front.length)) :
    ∃ body : List Token, (∀ token ∈ body, token.start < (offset + front.length : Nat)) ∧
      scanFrom rounding offset (front ++ back) =
        body ++ scanFrom rounding (offset + front.length) back ∧
      scanFrom rounding offset (front ++ other) =
        body ++ scanFrom rounding (offset + front.length) other := by
  -- Each step takes units off the front, until the place itself has been reached.
  induction hlength : front.length using Nat.strong_induction_on generalizing front offset with
  | _ length ih =>
    subst hlength
    cases front with
    | nil => exact ⟨[], nofun, rfl, rfl⟩
    | cons u front =>
      rw [List.length_cons] at h ⊢
      by_cases hu : u = Text.unit ' '
      · have hplace : offset + (front.length + 1) = offset + 1 + front.length := by omega
        rw [hu, List.cons_append, scanFrom_space, hplace] at h
        rw [hu, List.cons_append, List.cons_append, scanFrom_space, scanFrom_space, hplace]
        exact ih front.length (Nat.lt_succ_self _) h rfl
      · obtain ⟨⟨kind, more⟩, hlex⟩ : ∃ found, lexeme rounding u (front ++ back) = found := ⟨_, rfl⟩
        rw [List.cons_append, scanFrom_cons _ _ _ hu, hlex] at h ⊢
        have hfits : more ≤ front.length := by
          have hfirst := h _ List.mem_cons_self
          simp only [Straddles] at hfirst
          omega
        have hlexeme : lexeme rounding u (front ++ other) = (kind, more) := by
          rw [← hlex]
          apply lexeme_cut rounding u hquiet
          rw [hlex]
          exact hfits
        have hplace : offset + (front.length + 1) =
            offset + 1 + more + (front.drop more).length := by
          rw [List.length_drop]
          omega
        rw [hplace] at h ⊢
        rw [List.drop_append_of_le_length hfits] at h ⊢
        rw [List.cons_append, scanFrom_cons _ _ _ hu, hlexeme, List.drop_append_of_le_length hfits]
        obtain ⟨body, hbody, hback, hother⟩ := ih (front.drop more).length
          (by rw [List.length_drop, List.length_cons]; omega)
          (fun token htoken => h token (List.mem_cons_of_mem _ htoken)) rfl
        refine ⟨_ :: body, List.forall_mem_cons.mpr ⟨?_, hbody⟩,
          congrArg _ hback, congrArg _ hother⟩
        simp only
        omega

/-- A space at a place that no token straddles moves the tokens behind it, and changes nothing
else. -/
theorem scanFrom_insert (rounding : Rounding) {offset : Nat}
    (h : ∀ token ∈ scanFrom rounding offset (front ++ back),
      ¬ token.Straddles (offset + front.length)) :
    scanFrom rounding offset (front ++ Text.unit ' ' :: back) =
      (scanFrom rounding offset (front ++ back)).map (shift (offset + front.length)) := by
  obtain ⟨body, hbody, hback, hspace⟩ := scanFrom_append rounding (quiet_space back back) h
  have hfront : body.map (shift (offset + front.length)) = body := by
    refine (List.map_congr_left fun token htoken => ?_).trans (List.map_id body)
    exact if_neg (Int.not_le.mpr (hbody token htoken))
  rw [hspace, hback, List.map_append, hfront, scanFrom_space,
    scanFrom_succ rounding back (Nat.le_refl _)]

theorem endPosition_scan (rounding : Rounding) (source t : Text) :
    endPosition source (scan rounding t) = t.length := by
  have hfront : ∀ token ∈ beforeEnd (scan rounding t), decide (token.kind ≠ .endOfText) = true :=
    fun token ht => decide_eq_true (kind_of_mem_beforeEnd ht)
  rw [scan_eq, endPosition, List.dropWhile_append_of_pos hfront]
  rfl

/-! ## Rounding -/

theorem lexeme_length (rounding other : Rounding) (u : UInt16) (rest : Text) :
    (lexeme rounding u rest).2 = (lexeme other u rest).2 := by
  unfold lexeme
  by_cases hdigit : Text.isDigit u = true
  · rw [if_pos hdigit, if_pos hdigit]
  · rw [if_neg hdigit, if_neg hdigit]

theorem scanFrom_spans (rounding other : Rounding) (offset : Nat) (t : Text) :
    (scanFrom rounding offset t).map span = (scanFrom other offset t).map span := by
  fun_induction scanFrom rounding offset t with
  | case1 offset => rw [scanFrom]
  | case2 offset rest ih => rw [scanFrom_space, ih]
  | case3 offset u rest hu kind more hlex next ih =>
    have hmore : (lexeme other u rest).2 = more := by rw [lexeme_length other rounding, hlex]
    rw [scanFrom_cons _ _ _ hu, hmore, List.map_cons, List.map_cons, ih]
    rfl

/-- The spans of the tokens do not depend on how numbers are rounded. -/
theorem scan_spans (rounding other : Rounding) (t : Text) :
    (scan rounding t).map span = (scan other t).map span :=
  scanFrom_spans rounding other 0 t

theorem exists_span {rounding : Rounding} (other : Rounding) {t : Text} {token : Token}
    (h : token ∈ scan rounding t) : ∃ same ∈ scan other t, same.span = token.span := by
  have hspan : token.span ∈ (scan rounding t).map span := List.mem_map_of_mem h
  rw [scan_spans rounding other] at hspan
  exact List.mem_map.mp hspan

theorem straddles_of_span {token same : Token} {place : Nat} (h : same.span = token.span)
    (hstraddles : token.Straddles place) : same.Straddles place := by
  obtain ⟨hstart, hstop⟩ := Prod.mk.inj h
  unfold Straddles
  rw [hstart, hstop]
  exact hstraddles

/-- **A space between two tokens moves the tokens behind it and changes nothing else.** -/
theorem scan_insertSpace (rounding : Rounding) {t : Text} {place : Nat} (hplace : place ≤ t.length)
    (h : ∀ token ∈ scan rounding t, ¬ token.Straddles place) :
    scan rounding (t.insertSpace place) = (scan rounding t).map (shift place) := by
  have htext : t.take place ++ t.drop place = t := List.take_append_drop place t
  have hlength : 0 + (t.take place).length = place := by
    rw [List.length_take_of_le hplace, Nat.zero_add]
  have hfront : ∀ token ∈ scanFrom rounding 0 (t.take place ++ t.drop place),
      ¬ token.Straddles (0 + (t.take place).length) := by
    rw [htext, hlength]
    exact h
  have hinsert := scanFrom_insert rounding hfront
  rwa [htext, hlength] at hinsert

end Token
end Reckoner
