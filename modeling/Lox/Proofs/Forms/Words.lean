import Lox.Tree.Printer

set_option autoImplicit false

/-! # Forms and their text

A printed tree is a form: a word, or forms in parentheses with a blank between neighbours. As words
have no blanks and no parentheses in them (`Form.Proper`), the forms can be found again in their text
(`formsOf_intercalate`). The text is read once from the left, with the forms of every list that is
still open on a stack. -/

namespace Lox

/-- A word, or forms in parentheses. -/
inductive Form where
  | word (text : String)
  | list (parts : List Form)

mutual

def Form.text : Form → String
  | .word text => text
  | .list parts => parenthesized (formTexts parts)

def formTexts : List Form → List String
  | [] => []
  | f :: fs => f.text :: formTexts fs

end

/-- What words end at. -/
def isDelimiter (c : Char) : Bool := c == '(' || c == ')' || c == ' ' || c == '\n'

/-- A text that is read as one word. -/
structure IsWord (text : String) : Prop where
  ne_nil : text.toList ≠ []
  inside : ∀ c ∈ text.toList, isDelimiter c = false

theorem isWord_iff {text : String} :
    (!text.toList.isEmpty && text.toList.all fun c => !isDelimiter c) = true ↔ IsWord text := by
  simp only [Bool.and_eq_true, Bool.not_eq_true', List.isEmpty_eq_false_iff, List.all_eq_true]
  exact ⟨fun h => ⟨h.1, h.2⟩, fun h => ⟨h.1, h.2⟩⟩

instance (text : String) : Decidable (IsWord text) := decidable_of_iff _ isWord_iff

mutual

/-- Words are read as words. -/
def Form.Proper : Form → Prop
  | .word text => IsWord text
  | .list parts => ProperForms parts

def ProperForms : List Form → Prop
  | [] => True
  | f :: fs => f.Proper ∧ ProperForms fs

end

/-! ## Reading forms -/

/-- What has been read of a text: the characters of a word, the forms of the innermost list, and those
    of the lists around it, all with the last one first. -/
structure FormReader where
  word : List Char
  forms : List Form
  outer : List (List Form)

namespace FormReader

/-- The word that has been read, if there is one, is a form. -/
def endWord (s : FormReader) : FormReader :=
  if s.word = [] then s else ⟨[], .word (String.ofList s.word.reverse) :: s.forms, s.outer⟩

/-- The innermost list is a form of the list around it. -/
def close (s : FormReader) : FormReader :=
  match s.outer with
  | forms :: outer => ⟨[], .list s.forms.reverse :: forms, outer⟩
  | [] => s

/-- Read a character. -/
def next (s : FormReader) (c : Char) : FormReader :=
  if c = '(' then ⟨[], [], s.forms :: s.outer⟩
  else if c = ')' then s.endWord.close
  else if isDelimiter c then s.endWord
  else ⟨c :: s.word, s.forms, s.outer⟩

end FormReader

/-- The forms of a text. -/
def formsOf (text : String) : List Form :=
  (text.toList.foldl FormReader.next ⟨[], [], []⟩).endWord.forms.reverse

namespace FormReader

theorem next_of_inside {c : Char} (h : isDelimiter c = false) (s : FormReader) :
    s.next c = ⟨c :: s.word, s.forms, s.outer⟩ := by
  have hopen : c ≠ '(' := by rintro rfl; cases h
  have hclose : c ≠ ')' := by rintro rfl; cases h
  rw [next, if_neg hopen, if_neg hclose, h]
  rfl

theorem foldl_next_inside {cs : List Char} (h : ∀ c ∈ cs, isDelimiter c = false) (s : FormReader) :
    cs.foldl next s = ⟨cs.reverse ++ s.word, s.forms, s.outer⟩ := by
  induction cs generalizing s with
  | nil => rfl
  | cons c cs ih =>
    obtain ⟨hc, hcs⟩ := List.forall_mem_cons.1 h
    rw [List.foldl_cons, next_of_inside hc, ih hcs, List.reverse_cons, List.append_assoc]
    rfl

theorem next_blank {c : Char} (hc : c = ' ' ∨ c = '\n') (s : FormReader) : s.next c = s.endWord := by
  rcases hc with rfl | rfl <;> rfl

mutual

/-- Reading the text of a form adds the form to the innermost list. -/
theorem endWord_foldl_text (f : Form) (h : f.Proper) (forms : List Form)
    (outer : List (List Form)) :
    (f.text.toList.foldl next ⟨[], forms, outer⟩).endWord = ⟨[], f :: forms, outer⟩ := by
  cases f with
  | word text =>
    have hword : IsWord text := h
    rw [Form.text, foldl_next_inside hword.inside, endWord, if_neg (by simpa using hword.ne_nil)]
    simp
  | list parts =>
    have hparts := endWord_foldl_texts " " ' ' rfl (.inl rfl) parts h [] (forms :: outer)
    have hopened : List.foldl next ⟨[], forms, outer⟩ "(".toList = ⟨[], [], forms :: outer⟩ := rfl
    rw [Form.text, parenthesized, String.toList_append, String.toList_append, List.foldl_append,
      List.foldl_append]
    show endWord (close (endWord _)) = _
    rw [hopened, hparts]
    simp [close, endWord]
termination_by structural f

/-- Reading the texts of forms with a blank between neighbours adds the forms to the innermost
    list. -/
theorem endWord_foldl_texts (separator : String) (blank : Char)
    (hseparator : separator.toList = [blank]) (hblank : blank = ' ' ∨ blank = '\n')
    (fs : List Form) (h : ProperForms fs) (forms : List Form) (outer : List (List Form)) :
    ((separator.intercalate (formTexts fs)).toList.foldl next ⟨[], forms, outer⟩).endWord =
      ⟨[], fs.reverse ++ forms, outer⟩ := by
  cases fs with
  | nil => rfl
  | cons f fs =>
    have hfirst := endWord_foldl_text f h.1 forms outer
    cases fs with
    | nil =>
      rw [formTexts, formTexts, String.intercalate_singleton]
      exact hfirst
    | cons g fs =>
      have hrest := endWord_foldl_texts separator blank hseparator hblank (g :: fs) h.2
        (f :: forms) outer
      rw [formTexts] at hrest ⊢
      rw [formTexts, String.intercalate_cons_cons, String.toList_append, String.toList_append,
        hseparator, List.foldl_append, List.foldl_append, List.foldl_cons, List.foldl_nil,
        next_blank hblank, hfirst, hrest]
      simp
termination_by structural fs

end

end FormReader

/-- The forms of a text are those that it was written of, on one line or on a line each. -/
theorem formsOf_intercalate {separator : String} {blank : Char}
    (hseparator : separator.toList = [blank]) (hblank : blank = ' ' ∨ blank = '\n') {fs : List Form}
    (h : ProperForms fs) : formsOf (separator.intercalate (formTexts fs)) = fs := by
  rw [formsOf, FormReader.endWord_foldl_texts separator blank hseparator hblank fs h, List.append_nil,
    List.reverse_reverse]

end Lox
