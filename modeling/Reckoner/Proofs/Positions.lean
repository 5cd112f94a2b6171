import Reckoner.Proofs.Boundaries
import Reckoner.Proofs.Failing
import Reckoner.Proofs.Parsing.Relocation

/-!
# Where failures point

A failure of the parser points at a token of its text, and so do all positions in the tree it
returns (`parse_error_startsToken`, `parse_ok_startsToken`). There is no need to look at the parser
again: it goes through the same states if positions are moved, so a position that no token has could
not have stayed where it was. A failure of the evaluation points at the node that failed, which
stands in the expression or in the body of a stored function (`Expr.Fails.locates`).
-/

namespace Reckoner

/-! ## Positions in a tree -/

namespace Expr

mutual

/-- Where the tokens of a tree start. -/
def positions : Expr → List Int
  | literal _ pos => [pos]
  | binary left operator right => operator.start :: (left.positions ++ right.positions)
  | unary operator operand => operator.start :: operand.positions
  | grouping inner pos => pos :: inner.positions
  | var _ pos => [pos]
  | call _ args pos => pos :: positionsAll args
  | foreign _ => []

def positionsAll : List Expr → List Int
  | [] => []
  | e :: rest => e.positions ++ positionsAll rest

end

theorem mem_positionsAll {args : List Expr} {arg : Expr} {pos : Int} (harg : arg ∈ args)
    (hpos : pos ∈ arg.positions) : pos ∈ positionsAll args := by
  induction args with
  | nil => cases harg
  | cons e rest ih =>
    rw [positionsAll, List.mem_append]
    rcases List.mem_cons.mp harg with rfl | hrest
    · exact .inl hpos
    · exact .inr (ih hrest)

variable {start stop : Int → Int}

mutual

/-- If moving the positions of a tree changes nothing, none of them is moved. -/
theorem fixed_of_relocate : ∀ e : Expr, e.relocate start stop = e →
    ∀ pos ∈ e.positions, start pos = pos
  | .literal value pos, h => by
    rw [relocate] at h
    injection h with _ hpos
    rw [positions]
    exact List.forall_mem_singleton.mpr hpos
  | .binary left operator right, h => by
    rw [relocate] at h
    injection h with hleft hoperator hright
    rw [positions]
    refine List.forall_mem_cons.mpr ⟨congrArg Token.start hoperator, ?_⟩
    exact List.forall_mem_append.mpr ⟨fixed_of_relocate left hleft, fixed_of_relocate right hright⟩
  | .unary operator operand, h => by
    rw [relocate] at h
    injection h with hoperator hoperand
    rw [positions]
    exact List.forall_mem_cons.mpr
      ⟨congrArg Token.start hoperator, fixed_of_relocate operand hoperand⟩
  | .grouping inner pos, h => by
    rw [relocate] at h
    injection h with hinner hpos
    rw [positions]
    exact List.forall_mem_cons.mpr ⟨hpos, fixed_of_relocate inner hinner⟩
  | .var name pos, h => by
    rw [relocate] at h
    injection h with _ hpos
    rw [positions]
    exact List.forall_mem_singleton.mpr hpos
  | .call name args pos, h => by
    rw [relocate] at h
    injection h with _ hargs hpos
    rw [positions]
    exact List.forall_mem_cons.mpr ⟨hpos, fixed_of_relocateAll args hargs⟩
  | .foreign node, _ => nofun

theorem fixed_of_relocateAll : ∀ args : List Expr, relocateAll start stop args = args →
    ∀ pos ∈ positionsAll args, start pos = pos
  | [], _ => nofun
  | e :: rest, h => by
    rw [relocateAll] at h
    obtain ⟨hfirst, hrest⟩ := List.cons.inj h
    rw [positionsAll]
    exact List.forall_mem_append.mpr ⟨fixed_of_relocate e hfirst, fixed_of_relocateAll rest hrest⟩

end

end Expr

def Stmt.positions : Stmt → List Int
  | expression expr => expr.positions
  | variableAssignment _ value => value.positions
  | functionAssignment _ _ body => body.positions
  | foreign _ => []

theorem Stmt.fixed_of_relocate {start stop : Int → Int} {stmt : Stmt}
    (h : stmt.relocate start stop = stmt) : ∀ pos ∈ stmt.positions, start pos = pos := by
  cases stmt with
  | expression expr =>
    injection h with hexpr
    exact expr.fixed_of_relocate hexpr
  | variableAssignment name value =>
    injection h with _ hvalue
    exact value.fixed_of_relocate hvalue
  | functionAssignment name params body =>
    injection h with _ _ hbody
    exact body.fixed_of_relocate hbody
  | foreign node => exact nofun

/-! ## Tokens of the text -/

/-- A token of the text starts here, the end of the text being the last one. -/
def Text.StartsToken (text : Text) (pos : Int) : Prop :=
  ∀ rounding, ∃ token ∈ Token.scan rounding text, token.start = pos

theorem Text.StartsToken.bounds {text : Text} {pos : Int} (h : text.StartsToken pos) :
    0 ≤ pos ∧ pos ≤ text.length := by
  obtain ⟨token, ht, rfl⟩ := h .halfEven
  exact Token.scan_start ht

theorem Text.startsToken_of_mem {rounding : Rounding} {text : Text} {token : Token}
    (h : token ∈ Token.scan rounding text) : text.StartsToken token.start := by
  intro other
  obtain ⟨same, hsame, hspan⟩ := Token.exists_span other h
  exact ⟨same, hsame, congrArg Prod.fst hspan⟩

/-- The text as it is, with every other position moved. -/
def Relocation.keeping (text : Text) (starts : List Int) : Relocation where
  before := text
  after := text
  start pos := if pos ∈ starts then pos else pos + 1
  stop pos := pos

section
variable {rounding : Rounding} {text : Text} {starts : List Int} {pos : Int}

theorem Relocation.mem_of_keeping (h : (keeping text starts).start pos = pos) : pos ∈ starts := by
  by_contra hnot
  have hmoved : (keeping text starts).start pos = pos + 1 := if_neg hnot
  omega

theorem Relocation.keeping_token {token : Token} (h : token.start ∈ starts) :
    (keeping text starts).token token = token := by
  have hkept : (keeping text starts).start token.start = token.start := if_pos h
  rw [Relocation.token, Token.relocate, hkept]
  rfl

/-- Nothing comes of moving positions that no token has. -/
theorem parse_keeping (rounding : Rounding) (text : Text) :
    ∃ r : Relocation, (∀ pos, r.start pos = pos → text.StartsToken pos) ∧
      Stmt.parse text (Token.scan rounding text) =
        r.outcome r.stmt (Stmt.parse text (Token.scan rounding text)) := by
  have hkeeps (token : Token) (ht : token ∈ Token.scan rounding text) :
      (Relocation.keeping text ((Token.scan rounding text).map Token.start)).token token = token :=
    Relocation.keeping_token (List.mem_map_of_mem ht)
  refine ⟨.keeping text ((Token.scan rounding text).map Token.start), ?_, ?_⟩
  · intro pos hpos
    obtain ⟨token, ht, rfl⟩ := List.mem_map.mp (Relocation.mem_of_keeping hpos)
    exact Text.startsToken_of_mem ht
  · apply Relocation.parse_eq (.keeping text ((Token.scan rounding text).map Token.start))
    · have hsame := List.map_congr_left (g := id) fun token ht =>
        hkeeps token (Token.mem_of_mem_beforeEnd ht)
      rw [hsame, List.map_id]
    · intro token ht
      rw [Relocation.KeepsName, hkeeps token (Token.mem_of_mem_beforeEnd ht)]
      rfl
    · -- The end of the text is the start of the last token.
      have hlast : ⟨.endOfText, text.length, text.length⟩ ∈ Token.scan rounding text := by
        rw [Token.scan_eq]
        exact List.mem_append_right _ (List.mem_singleton_self _)
      rw [Token.endPosition_scan, Token.endPosition_scan]
      exact (congrArg Token.start (hkeeps _ hlast)).symm

theorem parse_error_startsToken {fault : Fault}
    (h : Stmt.parse text (Token.scan rounding text) = .error (.fault fault pos)) :
    text.StartsToken pos := by
  obtain ⟨r, hkeeps, hparse⟩ := parse_keeping rounding text
  rw [h] at hparse
  injection hparse with hfailure
  injection hfailure with _ hpos
  exact hkeeps pos hpos.symm

theorem parse_ok_startsToken {stmt : Stmt}
    (h : Stmt.parse text (Token.scan rounding text) = .ok stmt) :
    ∀ pos ∈ stmt.positions, text.StartsToken pos := by
  obtain ⟨r, hkeeps, hparse⟩ := parse_keeping rounding text
  rw [h] at hparse
  injection hparse with hstmt
  intro pos hpos
  exact hkeeps pos (Stmt.fixed_of_relocate hstmt.symm pos hpos)

end

/-! ## Nodes that fail -/

theorem Token.Kind.binaryValue_ne_fault (kind : Token.Kind) (ctx : Context) (x y : Decimal)
    (fault : Fault) (pos : Int) : kind.binaryValue ctx x y ≠ .error (.fault fault pos) := by
  intro h
  cases kind with
  | caret =>
    cases hpow : ctx.pow x y with
    | none =>
      simp only [binaryValue, hpow] at h
      cases h
    | some value =>
      simp only [binaryValue, hpow] at h
      cases h
  | _ => cases h

theorem Token.Kind.unaryValue_ne_fault (kind : Token.Kind) (x : Decimal) (fault : Fault)
    (pos : Int) : kind.unaryValue x ≠ .error (.fault fault pos) := by
  intro h
  cases kind <;> cases h

namespace Expr

/-- The position is one of the body of the stored function `home`, or of the expression itself if
there is none. -/
def Locates (env : Environment) (e : Expr) : Option Text → Int → Prop
  | none, pos => pos ∈ e.positions
  | some name, pos => ∃ params body,
      env.function? name = some (.user params body) ∧ pos ∈ body.positions

theorem Locates.mono {env : Environment} {inner e : Expr} {home : Option Text} {pos : Int}
    (hinner : inner.positions ⊆ e.positions) (h : inner.Locates env home pos) :
    e.Locates env home pos := by
  cases home with
  | none => exact hinner h
  | some name => exact h

/-- **A failure points at its node**, in the expression or in the body that the node stands in. -/
theorem Fails.locates {scope : Scope} {ctx : Context} {bound : Bindings} {depth : Nat}
    {e : Expr} {home : Option Text} {failure : Failure}
    (h : Fails scope ctx bound depth e home failure) (fault : Fault) (pos : Int)
    (hfault : failure = .fault fault pos) : e.Locates scope.env home pos := by
  induction h with
  | grouping _ ih =>
    apply (ih hfault).mono
    exact List.subset_cons_self _ _
  | name =>
    cases hfault
    exact List.mem_singleton_self _
  | left _ ih =>
    apply (ih hfault).mono
    exact List.subset_cons_of_subset _ (List.subset_append_left _ _)
  | right _ _ ih =>
    apply (ih hfault).mono
    exact List.subset_cons_of_subset _ (List.subset_append_right _ _)
  | binary _ _ hfails =>
    subst hfault
    exact absurd hfails (Token.Kind.binaryValue_ne_fault _ _ _ _ fault pos)
  | operand _ ih =>
    apply (ih hfault).mono
    exact List.subset_cons_self _ _
  | unary _ hfails =>
    subst hfault
    exact absurd hfails (Token.Kind.unaryValue_ne_fault _ _ fault pos)
  | argument _ _ ih =>
    apply (ih hfault).mono
    intro place hplace
    exact List.mem_cons_of_mem _
      (mem_positionsAll (List.mem_append_right _ List.mem_cons_self) hplace)
  | unknown =>
    cases hfault
    exact List.mem_cons_self
  | builtin _ _ hfails =>
    subst hfault
    rcases Builtin.apply_error hfails with hlimit | ⟨-, hempty⟩
    · cases hlimit
      exact List.mem_cons_self
    · cases hempty
      exact List.mem_cons_self
  | arity =>
    cases hfault
    exact List.mem_cons_self
  | limit =>
    cases hfault
    exact List.mem_cons_self
  | @body _ _ _ _ _ _ params body home _ _ huser _ _ _ ih =>
    -- The innermost of the called bodies is where the node stands.
    cases home with
    | none => exact ⟨params, body, huser, ih hfault⟩
    | some inner => exact ih hfault
  | foreign => cases hfault

end Expr
end Reckoner
