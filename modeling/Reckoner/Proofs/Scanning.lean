import Reckoner.Proofs.Parsing.Derivation
import Reckoner.Token.Scan

/-!
# The end of the scan

Every lexeme lies inside the text, so scanning ends with one end token, at the end of the text, and
no token starts beyond it.
-/

namespace Reckoner.Token

theorem fraction_length (t : Text) :
    (splitNumber t).2 = [] ∨ (splitNumber t).2.length + 1 ≤ (t.dropWhile Text.isDigit).length := by
  unfold splitNumber
  split
  · exact .inl rfl
  · rename_i u rest hrest
    split
    · refine .inr ?_
      rw [hrest, List.length_cons]
      exact Nat.succ_le_succ (List.takeWhile_sublist _).length_le
    · exact .inl rfl

theorem numberLength_le (t : Text) : numberLength t ≤ t.length := by
  have hsplit : (t.takeWhile Text.isDigit).length + (t.dropWhile Text.isDigit).length =
      t.length := by
    rw [← List.length_append, List.takeWhile_append_dropWhile]
  have hlength : numberLength t = (t.takeWhile Text.isDigit).length +
      if (splitNumber t).2.isEmpty then 0 else (splitNumber t).2.length + 1 := rfl
  rw [hlength]
  rcases fraction_length t with h | h
  · rw [h]
    simp only [List.isEmpty_nil, if_true]
    omega
  · split <;> omega

theorem lexeme_length_le (rounding : Rounding) (u : UInt16) (rest : Text) :
    (lexeme rounding u rest).2 ≤ rest.length := by
  unfold lexeme
  split
  · have h := numberLength_le (u :: rest)
    rw [List.length_cons] at h
    simp only
    omega
  · split
    · exact (List.takeWhile_sublist _).length_le
    · split
      · exact Nat.zero_le _
      · simp only
        split
        · rename_i h
          cases rest with
          | nil => simp at h
          | cons v rest => simp
        · exact Nat.zero_le _

theorem ofUnit?_ne_end (u : UInt16) : Kind.ofUnit? u ≠ some .endOfText := by
  have hstep {c : Prop} [Decidable c] {kind : Kind} {rest : Option Kind} (hkind : kind ≠ .endOfText)
      (hrest : rest ≠ some .endOfText) : (if c then some kind else rest) ≠ some .endOfText := by
    by_cases hc : c
    · rw [if_pos hc]
      exact fun h => hkind (Option.some.inj h)
    · rw [if_neg hc]
      exact hrest
  unfold Kind.ofUnit?
  repeat refine hstep (by decide) ?_
  exact nofun

theorem lexeme_ne_end (rounding : Rounding) (u : UInt16) (rest : Text) :
    (lexeme rounding u rest).1 ≠ .endOfText := by
  unfold lexeme
  split
  · simp
  · split
    · simp
    · split
      · rename_i kind h
        rintro rfl
        exact ofUnit?_ne_end u h
      · simp

/-- Tokens stand inside the text that is scanned, and an end token behind them. -/
theorem scanFrom_eq (rounding : Rounding) (offset : Nat) (t : Text) :
    ∃ body : List Token, scanFrom rounding offset t =
        body ++ [⟨.endOfText, (offset + t.length : Nat), (offset + t.length : Nat)⟩] ∧
      ∀ token ∈ body, token.kind ≠ .endOfText ∧ (offset : Int) ≤ token.start ∧
        token.start ≤ (offset + t.length : Nat) := by
  fun_induction scanFrom rounding offset t with
  | case1 offset => exact ⟨[], by simp, by simp⟩
  | case2 offset rest ih =>
    obtain ⟨body, heq, hbody⟩ := ih
    have hend : offset + 1 + rest.length = offset + (Text.unit ' ' :: rest).length := by
      rw [List.length_cons]; omega
    rw [hend] at heq hbody
    refine ⟨body, heq, fun token ht => ?_⟩
    obtain ⟨hk, hl, hr⟩ := hbody token ht
    exact ⟨hk, by omega, hr⟩
  | case3 offset u rest hu kind more hlex next ih =>
    obtain ⟨body, heq, hbody⟩ := ih
    have hkind : kind ≠ .endOfText := by
      have h := lexeme_ne_end rounding u rest
      rwa [hlex] at h
    have hmore : more ≤ rest.length := by
      have h := lexeme_length_le rounding u rest
      rwa [hlex] at h
    have hend : next + (rest.drop more).length = offset + (u :: rest).length := by
      rw [List.length_drop, List.length_cons]; omega
    rw [hend] at heq hbody
    refine ⟨⟨kind, offset, next⟩ :: body, by rw [heq]; rfl, ?_⟩
    refine List.forall_mem_cons.mpr ⟨⟨hkind, Int.le_refl _, ?_⟩, fun token ht => ?_⟩
    · simp only
      omega
    · obtain ⟨hk, hl, hr⟩ := hbody token ht
      exact ⟨hk, by omega, hr⟩

theorem mem_of_mem_beforeEnd {tokens : List Token} {token : Token}
    (h : token ∈ beforeEnd tokens) : token ∈ tokens :=
  (List.takeWhile_sublist _).subset h

theorem kind_of_mem_beforeEnd {tokens : List Token} {token : Token}
    (h : token ∈ beforeEnd tokens) : token.kind ≠ .endOfText := by
  have hall := List.all_eq_true.mp (List.all_takeWhile (l := tokens)) token h
  simpa using hall

/-- The tokens in front of the end, and the one end token, where the text ends. -/
theorem scan_eq (rounding : Rounding) (t : Text) :
    scan rounding t = beforeEnd (scan rounding t) ++ [⟨.endOfText, t.length, t.length⟩] := by
  obtain ⟨body, heq, hbody⟩ := scanFrom_eq rounding 0 t
  rw [Nat.zero_add] at heq
  have hfront : beforeEnd (scan rounding t) = body := by
    rw [scan, heq, beforeEnd, List.takeWhile_append_of_pos (fun token ht => by
      simpa using (hbody token ht).1)]
    simp
  rw [hfront, scan, heq]

theorem scan_start {rounding : Rounding} {t : Text} {token : Token}
    (h : token ∈ scan rounding t) : 0 ≤ token.start ∧ token.start ≤ t.length := by
  obtain ⟨body, heq, hbody⟩ := scanFrom_eq rounding 0 t
  rw [scan, heq, List.mem_append, List.mem_singleton] at h
  rcases h with h | rfl
  · obtain ⟨-, hl, hr⟩ := hbody token h
    exact ⟨by omega, by omega⟩
  · exact ⟨Int.natCast_nonneg _, by simp⟩

end Reckoner.Token
