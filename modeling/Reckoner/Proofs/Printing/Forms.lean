import Reckoner.Expr.Print
import Reckoner.Proofs.Boundaries

/-!
# Prefix forms

A form is a word, or a word with forms behind it in parentheses. No word has a space or a
parenthesis in it, so by induction on a form the text behind it begins at one place only
(`Form.Readable.separates`). So different forms have different texts, alone
(`Form.Readable.text_inj`) and on the sides of an assignment (`Form.Readable.sentence_inj`).
-/

namespace Reckoner

/-! ## Forms -/

namespace Text

/-- Words end here. -/
def delimits (u : UInt16) : Bool := u == unit ' ' || u == unit '(' || u == unit ')'

structure IsWord (t : Text) : Prop where
  nonempty : t ≠ []
  plain : ∀ u ∈ t, delimits u = false

/-- A word in front of the text does not go on in it. -/
def EndsWord (rest : Text) : Prop := ∀ u ∈ rest.head?, delimits u = true

variable {t other rest rest' : Text}

theorem endsWord_nil : EndsWord [] := by
  intro u hu
  cases hu

theorem endsWord_equals (value : Text) : EndsWord ((" = " : Text) ++ value) := by
  intro u hu
  cases hu
  decide

theorem IsWord.takeWhile (h : t.IsWord) (hrest : EndsWord rest) :
    (t ++ rest).takeWhile (fun u => !delimits u) = t := by
  have hplain : ∀ u ∈ t, (!delimits u) = true := by
    intro u hu
    simp [h.plain u hu]
  have hends : rest.takeWhile (fun u => !delimits u) = [] := by
    apply Token.takeWhile_of_head
    intro u hu
    simp [hrest u hu]
  rw [List.takeWhile_append_of_pos hplain, hends, List.append_nil]

theorem IsWord.separates (h : t.IsWord) (hother : other.IsWord) (hrest : EndsWord rest)
    (hrest' : EndsWord rest') (heq : t ++ rest = other ++ rest') : t = other ∧ rest = rest' := by
  have hword : t = other := by
    rw [← h.takeWhile hrest, heq, hother.takeWhile hrest']
  subst hword
  exact ⟨rfl, List.append_cancel_left heq⟩

theorem IsWord.ne_parenthesis (h : t.IsWord) (back : Text) : t ++ rest ≠ unit '(' :: back := by
  intro heq
  cases t with
  | nil => exact h.nonempty rfl
  | cons u t =>
    have hplain := h.plain u List.mem_cons_self
    rw [(List.cons.inj heq).1] at hplain
    cases hplain

end Text

/-- A word, or a word with forms behind it in parentheses. -/
inductive Form where
  | word (text : Text)
  | list (head : Text) (parts : List Form)

namespace Form

mutual

def text : Form → Text
  | word t => t
  | list head parts => Text.unit '(' :: (head ++ (behindSpaces parts ++ [Text.unit ')']))

/-- Each form with a space in front. -/
def behindSpaces : List Form → Text
  | [] => []
  | form :: rest => Text.unit ' ' :: (form.text ++ behindSpaces rest)

end

inductive Readable : Form → Prop where
  | word {t : Text} (isWord : t.IsWord) : Readable (word t)
  | list {head : Text} {parts : List Form} (isWord : head.IsWord)
      (readable : ∀ form ∈ parts, Readable form) : Readable (list head parts)

/-- No other form and no other text behind it give the same text, if both texts behind end
a word. -/
def Separates (form : Form) : Prop := ∀ (other : Form) (rest rest' : Text), other.Readable →
  rest.EndsWord → rest'.EndsWord → form.text ++ rest = other.text ++ rest' →
    form = other ∧ rest = rest'

theorem endsWord_behindSpaces (parts : List Form) (rest : Text) :
    (behindSpaces parts ++ Text.unit ')' :: rest).EndsWord := by
  intro u hu
  cases parts with
  | nil =>
    cases hu
    rfl
  | cons form parts =>
    cases hu
    rfl

theorem behindSpaces_separates {parts others : List Form} {rest rest' : Text}
    (hparts : ∀ form ∈ parts, form.Separates) (hothers : ∀ form ∈ others, form.Readable)
    (heq : behindSpaces parts ++ Text.unit ')' :: rest =
      behindSpaces others ++ Text.unit ')' :: rest') : parts = others ∧ rest = rest' := by
  induction parts generalizing others with
  | nil =>
    cases others with
    | nil => exact ⟨rfl, (List.cons.inj heq).2⟩
    | cons other others => cases (List.cons.inj heq).1
  | cons form parts ih =>
    cases others with
    | nil => cases (List.cons.inj heq).1
    | cons other others =>
      simp only [behindSpaces, List.cons_append, List.append_assoc, List.cons.injEq,
        true_and] at heq
      obtain ⟨hform, hrest⟩ := hparts form List.mem_cons_self other _ _
        (hothers other List.mem_cons_self) (endsWord_behindSpaces parts rest)
        (endsWord_behindSpaces others rest') heq
      obtain ⟨hparts, hrest⟩ := ih (fun f hf => hparts f (List.mem_cons_of_mem _ hf))
        (fun f hf => hothers f (List.mem_cons_of_mem _ hf)) hrest
      rw [hform, hparts]
      exact ⟨rfl, hrest⟩

/-- **A form is cut off at one place only.** -/
theorem Readable.separates {form : Form} (h : form.Readable) : form.Separates := by
  induction h with
  | word isWord =>
    intro other rest rest' hother hrest hrest' heq
    cases hother with
    | word otherWord =>
      obtain ⟨rfl, hrest⟩ := isWord.separates otherWord hrest hrest' heq
      exact ⟨rfl, hrest⟩
    | list => exact absurd heq (isWord.ne_parenthesis _)
  | @list head parts isWord _ ih =>
    intro other rest rest' hother hrest hrest' heq
    cases hother with
    | word otherWord => exact absurd heq.symm (otherWord.ne_parenthesis _)
    | @list otherHead others otherWord readable =>
      simp only [text, List.cons_append, List.append_assoc, List.cons.injEq, true_and,
        List.nil_append] at heq
      obtain ⟨rfl, hbehind⟩ := isWord.separates otherWord (endsWord_behindSpaces parts rest)
        (endsWord_behindSpaces others rest') heq
      obtain ⟨rfl, hrest⟩ := behindSpaces_separates ih readable hbehind
      exact ⟨rfl, hrest⟩

theorem join_texts (head : Text) (parts : List Form) :
    Text.join " " (head :: parts.map text) = head ++ behindSpaces parts := by
  induction parts generalizing head with
  | nil => simp [Text.join, behindSpaces]
  | cons form parts ih =>
    have hspace : (" " : Text) = [Text.unit ' '] := rfl
    rw [List.map_cons, Text.join, ih, behindSpaces, hspace, List.append_assoc,
      List.singleton_append]
    intro hnil
    cases hnil

theorem parenthesized_texts (head : Text) (parts : List Form) :
    Text.parenthesized (head :: parts.map text) = (list head parts).text := by
  rw [Text.parenthesized, join_texts, text, List.cons_append, List.append_assoc]

/-! ## Assignments -/

/-- A form alone, or behind the form that it is assigned to. -/
def sentence (target : Option Form) (value : Form) : Text :=
  match target with
  | none => value.text
  | some target => target.text ++ (" = " : Text) ++ value.text

theorem texts_words (names : List Text) : (names.map word).map text = names := by
  simp [Function.comp_def, text]

theorem Readable.text_inj {form other : Form} (h : form.Readable) (hother : other.Readable)
    (heq : form.text = other.text) : form = other := by
  exact (h.separates other [] [] hother Text.endsWord_nil Text.endsWord_nil (by rw [heq])).1

/-- No form begins with a form and an equals sign behind it. -/
theorem Readable.text_ne_assigned {form target : Form} (h : form.Readable)
    (htarget : target.Readable) (value : Text) :
    form.text ≠ target.text ++ (" = " : Text) ++ value := by
  intro heq
  have hrest := h.separates target [] _ htarget Text.endsWord_nil (Text.endsWord_equals value) (by
    rw [List.append_nil, heq, List.append_assoc])
  cases hrest.2

theorem Readable.sentence_inj {target other : Option Form} {value otherValue : Form}
    (htarget : ∀ form ∈ target, form.Readable) (hother : ∀ form ∈ other, form.Readable)
    (hvalue : value.Readable) (hotherValue : otherValue.Readable)
    (heq : sentence target value = sentence other otherValue) :
    target = other ∧ value = otherValue := by
  cases target with
  | none =>
    cases other with
    | none => exact ⟨rfl, hvalue.text_inj hotherValue heq⟩
    | some other => exact absurd heq (hvalue.text_ne_assigned (hother other rfl) _)
  | some target =>
    have hreadable := htarget target rfl
    cases other with
    | none => exact absurd heq.symm (hotherValue.text_ne_assigned hreadable _)
    | some other =>
      simp only [sentence, List.append_assoc] at heq
      obtain ⟨rfl, hrest⟩ := hreadable.separates other _ _ (hother other rfl)
        (Text.endsWord_equals value.text) (Text.endsWord_equals otherValue.text) heq
      exact ⟨rfl, hvalue.text_inj hotherValue (List.append_cancel_left hrest)⟩

end Form
end Reckoner
