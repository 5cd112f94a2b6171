import Reckoner.Proofs.Identifiers
import Reckoner.Proofs.Literals
import Reckoner.Proofs.Placement
import Reckoner.Proofs.Printing.ExactText
import Reckoner.Proofs.Printing.Forms
import Reckoner.Proofs.Sessions.Fold

/-!
# The prefix form is unambiguous

What is printed of a parsed expression is the text of its form (`Expr.Printable.print_eq`). From the
form the expression is read back, without its positions and with calls of the name `group` for its
groupings (`Expr.Printable.read_form`): operators and numerals are no names, and behind an operator
there is one part of a sign and there are two of an operation. Only a literal above the range of
exponents is printed as a name. So equal texts are texts of equal forms, and equal forms are forms
of the same statement, up to what they do not show (`Stmt.Printable.print_eq_iff`).
-/

namespace Reckoner

/-! ## What the form does not show -/

namespace Expr

mutual

/-- The tree with calls of the name `group` in the place of its groupings. -/
def ungrouped : Expr → Expr
  | literal value pos => literal value pos
  | binary left operator right => binary left.ungrouped operator right.ungrouped
  | unary operator operand => unary operator operand.ungrouped
  | grouping inner pos => call "group" [inner.ungrouped] pos
  | var name pos => var name pos
  | call name args pos => call name (ungroupedAll args) pos
  | foreign node => foreign node

def ungroupedAll : List Expr → List Expr
  | [] => []
  | e :: rest => e.ungrouped :: ungroupedAll rest

end

mutual

/-- The tree with the name `Infinity` in the place of its infinite literals. -/
def worded : Expr → Expr
  | literal value pos => if value = .infinite false then var "Infinity" pos else literal value pos
  | binary left operator right => binary left.worded operator right.worded
  | unary operator operand => unary operator operand.worded
  | grouping inner pos => grouping inner.worded pos
  | var name pos => var name pos
  | call name args pos => call name (wordedAll args) pos
  | foreign node => foreign node

def wordedAll : List Expr → List Expr
  | [] => []
  | e :: rest => e.worded :: wordedAll rest

end

mutual

theorem print_ungrouped : ∀ e : Expr, e.ungrouped.print = e.print
  | .literal _ _ => rfl
  | .binary left _ right => by
    simp only [ungrouped, print, print_ungrouped left, print_ungrouped right]
  | .unary _ operand => by simp only [ungrouped, print, print_ungrouped operand]
  | .grouping inner _ => by
    simp only [ungrouped, print, printAll, print_ungrouped inner]
    cases inner.print <;> rfl
  | .var _ _ => rfl
  | .call _ args _ => by simp only [ungrouped, print, printAll_ungrouped args]
  | .foreign _ => rfl

theorem printAll_ungrouped : ∀ args : List Expr, printAll (ungroupedAll args) = printAll args
  | [] => rfl
  | e :: rest => by
    simp only [ungroupedAll, printAll, print_ungrouped e, printAll_ungrouped rest]

end

mutual

theorem print_worded : ∀ e : Expr, e.worded.print = e.print
  | .literal value _ => by
    unfold worded
    split
    · rename_i hvalue
      rw [hvalue]
      rfl
    · rfl
  | .binary left _ right => by
    simp only [worded, print, print_worded left, print_worded right]
  | .unary _ operand => by simp only [worded, print, print_worded operand]
  | .grouping inner _ => by simp only [worded, print, print_worded inner]
  | .var _ _ => rfl
  | .call _ args _ => by simp only [worded, print, printAll_worded args]
  | .foreign _ => rfl

theorem printAll_worded : ∀ args : List Expr, printAll (wordedAll args) = printAll args
  | [] => rfl
  | e :: rest => by simp only [wordedAll, printAll, print_worded e, printAll_worded rest]

end

mutual

theorem worded_eq_self : ∀ e : Expr, .infinite false ∉ e.literals → e.worded = e
  | .literal value _, h => by
    simp only [literals, List.mem_singleton] at h
    exact if_neg (Ne.symm h)
  | .binary left _ right, h => by
    simp only [literals, List.mem_append, not_or] at h
    simp only [worded, worded_eq_self left h.1, worded_eq_self right h.2]
  | .unary _ operand, h => by simp only [worded, worded_eq_self operand h]
  | .grouping inner _, h => by simp only [worded, worded_eq_self inner h]
  | .var _ _, _ => rfl
  | .call _ args _, h => by simp only [worded, wordedAll_eq_self args h]
  | .foreign _, _ => rfl

theorem wordedAll_eq_self : ∀ args : List Expr, .infinite false ∉ literalsOf args →
    wordedAll args = args
  | [], _ => rfl
  | e :: rest, h => by
    simp only [literalsOf, List.mem_append, not_or] at h
    simp only [wordedAll, worded_eq_self e h.1, wordedAll_eq_self rest h.2]

end

/-! ## Expressions as forms -/

mutual

/-- The form that is printed. Nothing is printed of a node of an unknown kind. -/
def form : Expr → Form
  | literal value _ => .word value.text
  | binary left operator right => .list operator.kind.symbol [left.form, right.form]
  | unary operator operand => .list operator.kind.symbol [operand.form]
  | grouping inner _ => .list "group" [inner.form]
  | var name _ => .word name
  | call name args _ => .list name (formAll args)
  | foreign _ => .word []

def formAll : List Expr → List Form
  | [] => []
  | e :: rest => e.form :: formAll rest

end

theorem formAll_eq (args : List Expr) : formAll args = args.map form := by
  induction args with
  | nil => rfl
  | cons e rest ih => simp only [formAll, ih, List.map_cons]

/-- Names are letters and digits, operators are those of the grammar, and literals have no sign, as
in what is parsed. -/
inductive Printable : Expr → Prop where
  | finite (m : Magnitude) (pos : Int) : Printable (literal (.finite false m) pos)
  | infinite (pos : Int) : Printable (literal (.infinite false) pos)
  | binary {left right : Expr} {operator : Token} (isOperator : operator.kind.chain?.isSome = true)
      (leftPrintable : Printable left) (rightPrintable : Printable right) :
      Printable (binary left operator right)
  | unary {operand : Expr} {operator : Token} (isOperator : operator.kind.chain?.isSome = true)
      (printable : Printable operand) : Printable (unary operator operand)
  | grouping {inner : Expr} {pos : Int} (printable : Printable inner) :
      Printable (grouping inner pos)
  | var {name : Text} {pos : Int} (isName : name.isName = true) : Printable (var name pos)
  | call {name : Text} {args : List Expr} {pos : Int} (isName : name.isName = true)
      (printable : ∀ arg ∈ args, Printable arg) : Printable (call name args pos)

variable {e : Expr}

theorem printAll_eq {args : List Expr} (h : ∀ arg ∈ args, arg.print = .ok arg.form.text) :
    printAll args = .ok (args.map fun arg => arg.form.text) := by
  induction args with
  | nil => rfl
  | cons e rest ih =>
    have hrest := ih fun arg harg => h arg (List.mem_cons_of_mem _ harg)
    simp only [printAll, h e List.mem_cons_self, hrest]
    rfl

theorem Printable.print_eq (h : e.Printable) : e.print = .ok e.form.text := by
  induction h with
  | finite | infinite | var => rfl
  | binary _ _ _ ihl ihr =>
    simp only [print, ihl, ihr, form, ← Form.parenthesized_texts]
    rfl
  | unary _ _ ih =>
    simp only [print, ih, form, ← Form.parenthesized_texts]
    rfl
  | grouping _ ih =>
    simp only [print, ih, form, ← Form.parenthesized_texts]
    rfl
  | call _ _ ih =>
    simp only [print, printAll_eq ih, form, ← Form.parenthesized_texts, formAll_eq, List.map_map]
    rfl

end Expr

/-! ## Words -/

theorem Text.not_delimits_of_isAlphanumeric {u : UInt16} (h : isAlphanumeric u = true) :
    delimits u = false := by
  simp only [delimits, Bool.or_eq_false_iff, beq_eq_false_iff_ne]
  refine ⟨⟨?_, ?_⟩, ?_⟩ <;>
  · rintro rfl
    cases h

theorem Text.IsWord.of_isName {t : Text} (h : t.isName = true) : t.IsWord := by
  cases t with
  | nil => cases h
  | cons first others =>
    obtain ⟨hletter, hothers⟩ := Bool.and_eq_true_iff.mp h
    have hfirst : isAlphanumeric first = true := by simp [isAlphanumeric, hletter]
    constructor
    · exact List.cons_ne_nil _ _
    · intro u hu
      apply not_delimits_of_isAlphanumeric
      rcases List.mem_cons.mp hu with rfl | hu
      · exact hfirst
      · exact List.all_eq_true.mp hothers u hu

theorem Magnitude.isWord_text (m : Magnitude) : m.text.IsWord where
  nonempty := by
    intro hempty
    have hread := m.magnitude?_text
    rw [hempty] at hread
    cases hread
  plain := by
    intro u hu
    rcases units_text hu with hdigit | rfl | rfl | rfl | rfl
    · exact Text.not_delimits_of_isAlphanumeric (by simp [Text.isAlphanumeric, hdigit])
    all_goals rfl

theorem Token.Kind.symbol_eq {kind : Token.Kind} (h : kind.chain?.isSome = true) :
    ∃ u, kind.symbol = [u] ∧ ofUnit? u = some kind ∧ Text.delimits u = false := by
  cases kind <;> first | exact ⟨_, rfl, rfl, rfl⟩ | cases h

theorem Token.Kind.isWord_symbol {kind : Token.Kind} (h : kind.chain?.isSome = true) :
    kind.symbol.IsWord := by
  obtain ⟨u, hsymbol, -, hplain⟩ := symbol_eq h
  rw [hsymbol]
  exact ⟨List.cons_ne_nil _ _, List.forall_mem_singleton.mpr hplain⟩

theorem Expr.Printable.readable {e : Expr} (h : e.Printable) : e.form.Readable := by
  induction h with
  | finite m => exact .word m.isWord_text
  | infinite => exact .word (Text.IsWord.of_isName rfl)
  | binary isOperator _ _ ihl ihr =>
    refine .list (Token.Kind.isWord_symbol isOperator) ?_
    simpa using ⟨ihl, ihr⟩
  | unary isOperator _ ih =>
    refine .list (Token.Kind.isWord_symbol isOperator) ?_
    simpa using ih
  | grouping _ ih =>
    refine .list (Text.IsWord.of_isName rfl) ?_
    simpa using ih
  | var isName => exact .word (Text.IsWord.of_isName isName)
  | call isName _ ih =>
    refine .list (Text.IsWord.of_isName isName) ?_
    simpa [Expr.formAll_eq] using ih

/-! ## Reading a form -/

/-- The operator of a text of one unit. -/
def Token.Kind.ofSymbol? : Text → Option Token.Kind
  | [u] => ofUnit? u
  | _ => none

/-- A list is read by its head and by how many parts there are behind it. -/
def Expr.ofList (head : Text) (parts : List Expr) : Expr :=
  match Token.Kind.ofSymbol? head, parts with
  | some kind, [operand] => unary ⟨kind, 0, 0⟩ operand
  | some kind, [left, right] => binary left ⟨kind, 0, 0⟩ right
  | _, args => call head args 0

namespace Form

mutual

def expr : Form → Expr
  | word t =>
    match t.magnitude? with
    | some m => .literal (.finite false m) 0
    | none => .var t 0
  | list head parts => .ofList head (exprAll parts)

def exprAll : List Form → List Expr
  | [] => []
  | form :: rest => form.expr :: exprAll rest

end

end Form

theorem Text.magnitude?_of_isName {t : Text} (h : t.isName = true) : t.magnitude? = none := by
  cases t with
  | nil => cases h
  | cons first others =>
    have hletter := (Bool.and_eq_true_iff.mp h).1
    have hkept : first ≠ unit '+' := by
      rintro rfl
      cases hletter
    cases hread : magnitude? (first :: others) with
    | none => rfl
    | some m =>
      rw [magnitude?, List.filter_cons_of_pos (by simpa using hkept)] at hread
      obtain ⟨u, rest, heq, hdigit⟩ := Decimal.begins_of_readMagnitude? hread
      cases heq
      rw [isDigit_of_isLetter hletter] at hdigit
      cases hdigit

theorem Token.Kind.ofSymbol?_symbol {kind : Token.Kind} (h : kind.chain?.isSome = true) :
    ofSymbol? kind.symbol = some kind := by
  obtain ⟨u, hsymbol, hkind, -⟩ := symbol_eq h
  rw [hsymbol]
  exact hkind

theorem Token.Kind.ofSymbol?_of_isName {t : Text} (h : t.isName = true) : ofSymbol? t = none := by
  unfold ofSymbol?
  split
  · rename_i u
    have hletter := (Bool.and_eq_true_iff.mp h).1
    cases hkind : ofUnit? u with
    | none => rfl
    | some kind =>
      obtain ⟨c, hcharacter, rfl⟩ := ofUnit?_some hkind
      cases kind <;> cases hcharacter <;> cases hletter
  · rfl

namespace Expr

theorem ofList_of_isName {head : Text} (h : head.isName = true) (parts : List Expr) :
    ofList head parts = call head parts 0 := by
  simp only [ofList, Token.Kind.ofSymbol?_of_isName h]

theorem exprAll_formAll {args : List Expr}
    (h : ∀ arg ∈ args, arg.form.expr = arg.worded.unplaced.ungrouped) :
    Form.exprAll (formAll args) =
      ungroupedAll (relocateAll (fun _ => 0) (fun _ => 0) (wordedAll args)) := by
  induction args with
  | nil => rfl
  | cons e rest ih =>
    have hrest := ih fun arg harg => h arg (List.mem_cons_of_mem _ harg)
    simp only [formAll, Form.exprAll, h e List.mem_cons_self, hrest, wordedAll, relocateAll,
      ungroupedAll]
    rfl

/-- **From its form an expression is read back**, but for positions, groupings and infinity. -/
theorem Printable.read_form {e : Expr} (h : e.Printable) :
    e.form.expr = e.worded.unplaced.ungrouped := by
  induction h with
  | finite m pos =>
    have hread : (Decimal.finite false m).text.magnitude? = some m := m.magnitude?_text
    simp only [form, Form.expr, hread]
    rfl
  | infinite pos =>
    have hread : (Decimal.infinite false).text.magnitude? = none := Text.magnitude?_of_isName rfl
    simp only [form, Form.expr, hread]
    rfl
  | binary isOperator _ _ ihl ihr =>
    simp only [form, Form.expr, Form.exprAll, ofList, Token.Kind.ofSymbol?_symbol isOperator, ihl,
      ihr]
    rfl
  | unary isOperator _ ih =>
    simp only [form, Form.expr, Form.exprAll, ofList, Token.Kind.ofSymbol?_symbol isOperator, ih]
    rfl
  | grouping _ ih =>
    have hname : Text.isName "group" = true := by decide
    simp only [form, Form.expr, Form.exprAll, ofList_of_isName hname, ih]
    rfl
  | var isName =>
    simp only [form, Form.expr, Text.magnitude?_of_isName isName]
    rfl
  | call isName _ ih =>
    simp only [form, Form.expr, ofList_of_isName isName, exprAll_formAll ih]
    rfl

end Expr

/-! ## Statements -/

namespace Stmt

def ungrouped : Stmt → Stmt
  | expression expr => expression expr.ungrouped
  | variableAssignment name value => variableAssignment name value.ungrouped
  | functionAssignment name params body => functionAssignment name params body.ungrouped
  | foreign node => foreign node

def worded : Stmt → Stmt
  | expression expr => expression expr.worded
  | variableAssignment name value => variableAssignment name value.worded
  | functionAssignment name params body => functionAssignment name params body.worded
  | foreign node => foreign node

variable {stmt other : Stmt}

theorem print_ungrouped (stmt : Stmt) : stmt.ungrouped.print = stmt.print := by
  cases stmt with
  | foreign node => rfl
  | _ => simp only [ungrouped, print, Expr.print_ungrouped]

theorem print_worded (stmt : Stmt) : stmt.worded.print = stmt.print := by
  cases stmt with
  | foreign node => rfl
  | _ => simp only [worded, print, Expr.print_worded]

theorem worded_eq_self (h : .infinite false ∉ stmt.literals) : stmt.worded = stmt := by
  cases stmt with
  | foreign node => rfl
  | _ => simp only [worded, Expr.worded_eq_self _ h]

/-- The form of what is assigned to. -/
def target? : Stmt → Option Form
  | variableAssignment name _ => some (.word name)
  | functionAssignment name params _ => some (.list name (params.map .word))
  | _ => none

/-- The form of the expression. -/
def form : Stmt → Form
  | expression expr => expr.form
  | variableAssignment _ value => value.form
  | functionAssignment _ _ body => body.form
  | foreign _ => .word []

def ofForms (target : Option Form) (form : Form) : Stmt :=
  match target with
  | none => expression form.expr
  | some (.word name) => variableAssignment name form.expr
  | some (.list name params) => functionAssignment name (params.map Form.text) form.expr

inductive Printable : Stmt → Prop where
  | expression {e : Expr} (printable : e.Printable) : Printable (expression e)
  | variableAssignment {name : Text} {e : Expr} (isName : name.isName = true)
      (printable : e.Printable) : Printable (variableAssignment name e)
  | functionAssignment {name : Text} {params : List Text} {e : Expr} (isName : name.isName = true)
      (areNames : ∀ param ∈ params, param.isName = true) (printable : e.Printable) :
      Printable (functionAssignment name params e)

namespace Printable

theorem print_eq (h : stmt.Printable) :
    stmt.print = .ok (Form.sentence stmt.target? stmt.form) := by
  cases h with
  | expression printable => exact printable.print_eq
  | variableAssignment _ printable =>
    simp only [print, printable.print_eq]
    rfl
  | functionAssignment _ _ printable =>
    simp only [print, printable.print_eq, target?, Form.sentence, ← Form.parenthesized_texts,
      Form.texts_words]
    rfl

theorem readable_form (h : stmt.Printable) : stmt.form.Readable := by
  cases h with
  | expression printable => exact printable.readable
  | variableAssignment _ printable => exact printable.readable
  | functionAssignment _ _ printable => exact printable.readable

theorem readable_target (h : stmt.Printable) : ∀ form ∈ stmt.target?, form.Readable := by
  intro form hform
  cases h with
  | expression => cases hform
  | variableAssignment isName =>
    cases hform
    exact .word (.of_isName isName)
  | functionAssignment isName areNames =>
    cases hform
    refine .list (.of_isName isName) ?_
    simp only [List.mem_map, forall_exists_index, and_imp, forall_apply_eq_imp_iff₂]
    intro param hparam
    exact .word (.of_isName (areNames param hparam))

theorem read_forms (h : stmt.Printable) :
    ofForms stmt.target? stmt.form = stmt.worded.unplaced.ungrouped := by
  cases h with
  | expression printable =>
    simp only [target?, ofForms, form, printable.read_form]
    rfl
  | variableAssignment _ printable =>
    simp only [target?, ofForms, form, printable.read_form]
    rfl
  | functionAssignment _ _ printable =>
    simp only [target?, ofForms, form, Form.texts_words, printable.read_form]
    rfl

theorem print_eq_iff (h : stmt.Printable) (hother : other.Printable) :
    stmt.print = other.print ↔
      stmt.worded.unplaced.ungrouped = other.worded.unplaced.ungrouped := by
  constructor
  · intro heq
    rw [h.print_eq, hother.print_eq] at heq
    obtain ⟨htarget, hform⟩ := Form.Readable.sentence_inj h.readable_target hother.readable_target
      h.readable_form hother.readable_form (Except.ok.inj heq)
    rw [← h.read_forms, ← hother.read_forms, htarget, hform]
  · intro heq
    have hprint := congrArg print heq
    simpa only [print_ungrouped, print_unplaced, print_worded] using hprint

end Printable

end Stmt

/-! ## Parsed statements -/

theorem Expr.Printable.literal (m : Magnitude) (pos : Int) :
    (literal (.ofMagnitude false m) pos).Printable := by
  unfold Decimal.ofMagnitude
  split
  · exact .finite m pos
  · split
    · exact .infinite pos
    · split
      · exact .finite .zero pos
      · exact .finite m pos

/-- A name has letters and digits, and a number has no sign. -/
structure Token.Plain (source : Text) (t : Token) : Prop where
  isName : t.kind = .identifier → (t.name source).isName = true
  unsigned : ∀ value, t.kind = .number (some value) → ∃ m, value = .ofMagnitude false m

section
variable {source : Text}

theorem fold_printable {c : Chain} {turns : List Turn} {e : Expr} (he : e.Printable)
    (marks : ∀ turn ∈ turns, turn.mark.kind ∈ c.operators)
    (nexts : ∀ turn ∈ turns, turn.tree.Printable) : (Turn.fold e turns).Printable := by
  induction turns generalizing e with
  | nil => exact he
  | cons turn turns ih =>
    apply ih
    · have hchain := Token.Kind.chain?_eq_some.mpr (marks turn List.mem_cons_self)
      exact .binary (by simp [hchain]) he (nexts turn List.mem_cons_self)
    · exact fun t ht => marks t (List.mem_cons_of_mem _ ht)
    · exact fun t ht => nexts t (List.mem_cons_of_mem _ ht)

theorem Turn.plain {turns : List Turn} (h : ∀ t ∈ Turn.spell turns, t.Plain source) :
    ∀ turn ∈ turns, ∀ t ∈ turn.tokens, t.Plain source := by
  intro turn hturn t ht
  exact h t (List.mem_flatMap.mpr ⟨turn, hturn, List.mem_cons_of_mem _ ht⟩)

theorem Derives.printable {p : Phrase} {ts : List Token} {e : Expr} (h : Derives source p ts e)
    (hplain : ∀ t ∈ ts, t.Plain source) : e.Printable := by
  induction h with
  | chain turns _ marks _ ih ihn =>
    obtain ⟨hfirst, hturns⟩ := List.forall_mem_append.mp hplain
    apply fold_printable (ih hfirst) marks
    intro turn hturn
    exact ihn turn hturn (Turn.plain hturns turn hturn)
  | sign mark _ ih =>
    refine .unary ?_ (ih (List.forall_mem_cons.mp hplain).2)
    rcases mark with hkind | hkind <;> rw [hkind] <;> rfl
  | unsigned _ ih => exact ih hplain
  | number kind =>
    obtain ⟨m, rfl⟩ := (hplain _ List.mem_cons_self).unsigned _ kind
    exact .literal m _
  | grouping _ _ _ ih =>
    have hinner := (List.forall_mem_cons.mp hplain).2
    exact .grouping (ih (List.forall_mem_append.mp hinner).1)
  | name kind => exact .var ((hplain _ List.mem_cons_self).isName kind)
  | call turns kind _ _ _ _ _ ih ihn =>
    simp only [List.forall_mem_cons, List.forall_mem_append] at hplain
    obtain ⟨hname, -, ⟨hfirst, hturns⟩, -⟩ := hplain
    apply Expr.Printable.call (hname.isName kind)
    simp only [List.forall_mem_cons, List.forall_mem_map]
    exact ⟨ih hfirst, fun turn hturn => ihn turn hturn (Turn.plain hturns turn hturn)⟩

theorem DerivesStmt.printable {ts : List Token} {stmt : Stmt} (h : DerivesStmt source ts stmt)
    (hplain : ∀ t ∈ ts, t.Plain source) : stmt.Printable := by
  cases h with
  | expression expr => exact .expression (expr.printable hplain)
  | variableAssignment kind _ value =>
    simp only [List.forall_mem_cons] at hplain
    exact .variableAssignment (hplain.1.isName kind) (value.printable hplain.2.2)
  | functionAssignment kind _ first _ params _ _ body =>
    simp only [List.forall_mem_cons, List.forall_mem_append] at hplain
    obtain ⟨⟨hname, -, hfirst, hothers⟩, -, -, hbody⟩ := hplain
    refine .functionAssignment (hname.isName kind) ?_ (body.printable hbody)
    simp only [List.forall_mem_cons, List.forall_mem_map]
    refine ⟨hfirst.isName first, fun other hother => ?_⟩
    have hparam : other.2.Plain source := by
      apply hothers
      exact List.mem_flatMap.mpr ⟨other, hother, by simp⟩
    exact hparam.isName (params other hother)

end

theorem Token.literal_of_scan {rounding : Rounding} {text : Text} {t : Token} {value : Decimal}
    (h : t ∈ beforeEnd (scan rounding text)) (hkind : t.kind = .number (some value)) :
    ∃ m, value = .ofMagnitude false m ∧
      ((text.length : ℤ) ≤ Decimal.maxExponent → value = .finite false m) := by
  have hlexeme := lexeme_of_scan h
  have hlength : (text.slice t.start t.stop).length ≤ text.length := by
    simp only [Text.slice, List.length_drop, List.length_take]
    omega
  rw [hkind] at hlexeme
  generalize text.slice t.start t.stop = word at hlexeme hlength
  cases hlexeme with
  | whole _ _ _ _ literal =>
    obtain ⟨m, -, hvalue, hfinite⟩ := literal
    refine ⟨m, hvalue, fun hshort => hfinite ?_⟩
    simp only [List.length_nil]
    omega
  | fraction _ _ _ _ _ literal =>
    obtain ⟨m, -, hvalue, hfinite⟩ := literal
    refine ⟨m, hvalue, fun hshort => hfinite ?_⟩
    simp only [List.length_append, List.length_cons] at hlength
    omega
  | character character => cases character

namespace Stmt

variable {rounding : Rounding} {text : Text} {stmt : Stmt}

theorem printable_of_parse (h : parse text (Token.scan rounding text) = .ok stmt) :
    stmt.Printable := by
  apply (parse_ok_iff.mp h).printable
  intro t ht
  constructor
  · exact Token.isName_of_scan ht
  · intro value hkind
    obtain ⟨m, hvalue, -⟩ := Token.literal_of_scan ht hkind
    exact ⟨m, hvalue⟩

theorem literals_finite (h : parse text (Token.scan rounding text) = .ok stmt)
    (hlength : (text.length : ℤ) ≤ Decimal.maxExponent) : .infinite false ∉ stmt.literals := by
  intro hliteral
  obtain ⟨t, ht, hkind⟩ := token_of_literal h hliteral
  obtain ⟨m, -, hfinite⟩ := Token.literal_of_scan ht hkind
  cases hfinite hlength

end Stmt

/-- **The prefix form is unambiguous but for groupings.** Two statements that were parsed, from
whatever texts, both have a printed form, and without infinite literals these are the same exactly
if the statements are, up to positions and with calls of the name `group` for groupings. Texts
within the range of exponents have no infinite literals. One of a longer text is printed like the
name `Infinity`, and that is the only other clash. -/
theorem prefix_form_unambiguous {rounding rounding' : Rounding} {text text' : Text}
    {stmt stmt' : Stmt} (h : Stmt.parse text (Token.scan rounding text) = .ok stmt)
    (h' : Stmt.parse text' (Token.scan rounding' text') = .ok stmt') :
    (∃ printed printed', stmt.print = .ok printed ∧ stmt'.print = .ok printed') ∧
    (.infinite false ∉ stmt.literals → .infinite false ∉ stmt'.literals →
      (stmt.print = stmt'.print ↔ stmt.unplaced.ungrouped = stmt'.unplaced.ungrouped)) ∧
    ((text.length : ℤ) ≤ Decimal.maxExponent → .infinite false ∉ stmt.literals) ∧
    ((text'.length : ℤ) ≤ Decimal.maxExponent → .infinite false ∉ stmt'.literals) ∧
    (stmt.print = stmt'.print ↔
      stmt.worded.unplaced.ungrouped = stmt'.worded.unplaced.ungrouped) := by
  have hprintable := Stmt.printable_of_parse h
  have hprintable' := Stmt.printable_of_parse h'
  have hiff := hprintable.print_eq_iff hprintable'
  refine ⟨⟨_, _, hprintable.print_eq, hprintable'.print_eq⟩, ?_, Stmt.literals_finite h,
    Stmt.literals_finite h', hiff⟩
  intro hfinite hfinite'
  rwa [Stmt.worded_eq_self hfinite, Stmt.worded_eq_self hfinite'] at hiff

/-- A grouping and a call of the name `group`. -/
theorem prefix_form_unambiguous_group :
    let grouped : Stmt := .variableAssignment "y"
      (.binary (.grouping (.var "x" 3) 2) ⟨.minus, 5, 6⟩ (.literal .one 6))
    let called : Stmt := .variableAssignment "y"
      (.binary (.call "group" [.var "x" 10] 4) ⟨.minus, 12, 13⟩ (.literal .one 13))
    Stmt.parse ("y=(x)-1" : Text) (Token.scan .halfEven ("y=(x)-1" : Text)) = .ok grouped ∧
    Stmt.parse ("y = group(x)-1.0" : Text) (Token.scan .towardZero ("y = group(x)-1.0" : Text)) =
      .ok called ∧
    grouped.print = .ok (Text.ofString "y = (- (group x) 1)") ∧ grouped.print = called.print ∧
    grouped.unplaced ≠ called.unplaced := by
  intro grouped called
  have hscan : Token.scan .halfEven ("y=(x)-1" : Text) = [⟨.identifier, 0, 1⟩, ⟨.equal, 1, 2⟩,
      ⟨.leftParen, 2, 3⟩, ⟨.identifier, 3, 4⟩, ⟨.rightParen, 4, 5⟩, ⟨.minus, 5, 6⟩,
      ⟨.number (some .one), 6, 7⟩, ⟨.endOfText, 7, 7⟩] := by decide +kernel
  have hscanCalled : Token.scan .towardZero ("y = group(x)-1.0" : Text) = [⟨.identifier, 0, 1⟩,
      ⟨.equal, 2, 3⟩, ⟨.identifier, 4, 9⟩, ⟨.leftParen, 9, 10⟩, ⟨.identifier, 10, 11⟩,
      ⟨.rightParen, 11, 12⟩, ⟨.minus, 12, 13⟩, ⟨.number (some .one), 13, 16⟩,
      ⟨.endOfText, 16, 16⟩] := by decide +kernel
  have hgrouped : Stmt.parse ("y=(x)-1" : Text) (Token.scan .halfEven ("y=(x)-1" : Text)) =
      .ok grouped := by
    rw [hscan]
    rfl
  have hcalled : Stmt.parse ("y = group(x)-1.0" : Text)
      (Token.scan .towardZero ("y = group(x)-1.0" : Text)) = .ok called := by
    rw [hscanCalled]
    rfl
  obtain ⟨-, hiff, hfinite, hfinite', -⟩ := prefix_form_unambiguous hgrouped hcalled
  have hone : Decimal.one.text = "1" := by decide +kernel
  have hprint : grouped.print = .ok (Text.ofString "y = (- (group x) 1)") := by
    simp only [grouped, Stmt.print, Expr.print, hone]
    rfl
  refine ⟨hgrouped, hcalled, hprint, ?_, ?_⟩
  · exact (hiff (hfinite (by decide)) (hfinite' (by decide))).mpr rfl
  · intro heq
    cases heq

end Reckoner
