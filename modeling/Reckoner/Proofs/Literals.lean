import Reckoner.Proofs.Lexemes
import Reckoner.Proofs.Significance
import Reckoner.Proofs.Written

/-!
# Literals

The literals of a tree are among the symbols that it is written with (`Expr.mark_of_literal`). So
the literals of a parsed statement are values of scanned numbers, which have been cut to 78 digits
(`Stmt.literals_within`).
-/

namespace Reckoner

namespace Expr

mutual

def literals : Expr → List Decimal
  | literal value _ => [value]
  | binary left _ right => left.literals ++ right.literals
  | unary _ operand => operand.literals
  | grouping inner _ => inner.literals
  | var _ _ => []
  | call _ args _ => literalsOf args
  | foreign _ => []

/-- The literals of all the expressions. -/
def literalsOf : List Expr → List Decimal
  | [] => []
  | e :: rest => e.literals ++ literalsOf rest

end

mutual

theorem mark_of_literal {value : Decimal} : ∀ e : Expr, value ∈ e.literals →
    .mark (.number (some value)) ∈ e.symbols
  | .literal other _, h => by
    rw [literals, List.mem_singleton] at h
    rw [h, symbols]
    exact List.mem_singleton_self _
  | .binary left _ right, h => by
    rw [literals, List.mem_append] at h
    rw [symbols, List.mem_append]
    rcases h with h | h
    · exact .inl (mark_of_literal left h)
    · exact .inr (List.mem_cons_of_mem _ (mark_of_literal right h))
  | .unary _ operand, h => by
    rw [literals] at h
    rw [symbols]
    exact List.mem_cons_of_mem _ (mark_of_literal operand h)
  | .grouping inner _, h => by
    rw [literals] at h
    rw [symbols]
    exact List.mem_cons_of_mem _ (List.mem_append_left _ (mark_of_literal inner h))
  | .var _ _, h => by
    rw [literals] at h
    cases h
  | .call _ args _, h => by
    rw [literals] at h
    rw [symbols]
    apply List.mem_cons_of_mem
    apply List.mem_cons_of_mem
    exact List.mem_append_left _ (mark_of_literalsOf args h)
  | .foreign _, h => by
    rw [literals] at h
    cases h

theorem mark_of_literalsOf {value : Decimal} : ∀ args : List Expr, value ∈ literalsOf args →
    .mark (.number (some value)) ∈ (behindCommas args).tail
  | [], h => by
    rw [literalsOf] at h
    cases h
  | e :: rest, h => by
    rw [literalsOf, List.mem_append] at h
    rw [behindCommas, List.tail_cons, List.mem_append]
    rcases h with h | h
    · exact .inl (mark_of_literal e h)
    · exact .inr (List.mem_of_mem_tail (mark_of_literalsOf rest h))

end

end Expr

/-! ## Scanned numbers -/

namespace Token

theorem lexeme_within {rounding : Rounding} {u : UInt16} {rest : Text} {value : Decimal}
    (h : (lexeme rounding u rest).1 = .number (some value)) :
    value.Within Context.standardPrecision := by
  unfold lexeme at h
  split at h
  · cases h
    exact Decimal.within_ofMagnitude false
      (Magnitude.digitCount_round_le _ rounding (by decide : 0 < Context.standardPrecision))
  · split at h
    · cases h
    · split at h
      · rename_i kind hkind
        cases h
        obtain ⟨c, hc, -⟩ := ofUnit?_some hkind
        cases hc
      · cases h

theorem scanFrom_within {rounding : Rounding} {offset : Nat} {text : Text} {t : Token}
    {value : Decimal} (h : t ∈ scanFrom rounding offset text)
    (hkind : t.kind = .number (some value)) : value.Within Context.standardPrecision := by
  fun_induction scanFrom rounding offset text with
  | case1 offset =>
    rw [List.mem_singleton] at h
    subst h
    cases hkind
  | case2 offset rest ih => exact ih h
  | case3 offset u rest hu kind more hlexeme next ih =>
    rcases List.mem_cons.mp h with rfl | h
    · have hnumber : (lexeme rounding u rest).1 = .number (some value) := by
        rw [hlexeme]
        exact hkind
      exact lexeme_within hnumber
    · exact ih h

end Token

/-! ## Statements -/

def Stmt.literals : Stmt → List Decimal
  | expression expr => expr.literals
  | variableAssignment _ value => value.literals
  | functionAssignment _ _ body => body.literals
  | foreign _ => []

theorem Stmt.mark_of_literal {value : Decimal} {stmt : Stmt} (h : value ∈ stmt.literals) :
    .mark (.number (some value)) ∈ stmt.symbols := by
  cases stmt with
  | expression expr => exact expr.mark_of_literal h
  | variableAssignment name e =>
    exact List.mem_cons_of_mem _ (List.mem_cons_of_mem _ (e.mark_of_literal h))
  | functionAssignment name params body =>
    apply List.mem_cons_of_mem
    apply List.mem_cons_of_mem
    apply List.mem_append_right
    exact List.mem_cons_of_mem _ (List.mem_cons_of_mem _ (body.mark_of_literal h))
  | foreign node => cases h

theorem Stmt.token_of_literal {source : Text} {tokens : List Token} {stmt : Stmt} {value : Decimal}
    (h : parse source tokens = .ok stmt) (hliteral : value ∈ stmt.literals) :
    ∃ t ∈ Token.beforeEnd tokens, t.kind = .number (some value) := by
  have hmark := mark_of_literal hliteral
  rw [(parse_ok_iff.mp h).symbols_eq] at hmark
  obtain ⟨t, ht, hsymbol⟩ := List.mem_map.mp hmark
  exact ⟨t, ht, Token.kind_of_mark hsymbol⟩

/-- **The literals of a parsed statement have at most 78 digits.** -/
theorem Stmt.literals_within {rounding : Rounding} {text : Text} {stmt : Stmt} {value : Decimal}
    (h : parse text (Token.scan rounding text) = .ok stmt) (hliteral : value ∈ stmt.literals) :
    value.Within Context.standardPrecision := by
  obtain ⟨t, ht, hkind⟩ := token_of_literal h hliteral
  exact Token.scanFrom_within (Token.mem_of_mem_beforeEnd ht) hkind

end Reckoner
