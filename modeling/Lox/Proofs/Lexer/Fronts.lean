import Lox.Proofs.Lexer.Seam

set_option autoImplicit false

/-! # What is behind a piece

How far a piece goes depends on what is behind it, but of a word that begins there not on which word
it is. So where words of a source are replaced by others, all other pieces are cut as before
(`extent_congr`). -/

namespace Lox.Lexer

/-! ## Words -/

/-- A test that does not tell the beginnings of words apart. -/
def Blind (test : UInt8 → Bool) : Prop :=
  ∀ b b', isWordStart b = true → isWordStart b' = true → test b' = test b

theorem blind_isDigit : Blind isDigit := fun _ _ h h' =>
  (of_isWordStart h').1.trans (of_isWordStart h).1.symm

theorem blind_isContinuation : Blind isContinuation := fun _ _ h h' =>
  (of_isWordStart h').2.1.trans (of_isWordStart h).2.1.symm

theorem blind_isWordPart : Blind isWordPart := fun _ _ h h' => by simp [isWordPart, h, h']

theorem blind_newline : Blind (· != newline) := by
  have hall : ∀ b, isWordStart b = true → (b != newline) = true := by
    intro b h
    rw [bne_iff_ne]
    rintro rfl
    cases h
  exact fun b b' h h' => (hall b' h').trans (hall b h).symm

/-! ## Fronts -/

/-- Two texts that begin with the same byte, or both with a word. -/
def BeginAlike (bs bs' : List UInt8) : Prop :=
  bs'.head? = bs.head? ∨ ∃ b b', bs.head? = some b ∧ bs'.head? = some b' ∧
    isWordStart b = true ∧ isWordStart b' = true

/-- Two texts in front of which no piece is cut differently. Behind a point, which could belong to a
    number, the next byte counts too. -/
structure FrontAlike (bs bs' : List UInt8) : Prop where
  begins : BeginAlike bs bs'
  behindPoint : bs.head? = some (byte '.') → BeginAlike bs.tail bs'.tail

namespace BeginAlike

variable {bs bs' : List UInt8} (h : BeginAlike bs bs')

include h

theorem map_head? {test : UInt8 → Bool} (htest : Blind test) :
    bs'.head?.map test = bs.head?.map test := by
  rcases h with h | ⟨b, b', hb, hb', hword, hword'⟩
  · rw [h]
  · rw [hb, hb', Option.map_some, Option.map_some, htest b b' hword hword']

theorem fails_head? {test : UInt8 → Bool} (htest : Blind test)
    (hbs : ∀ x ∈ bs.head?, test x = false) : ∀ x ∈ bs'.head?, test x = false := by
  intro x hx
  have hmap := h.map_head? htest
  rw [Option.mem_def.1 hx, Option.map_some] at hmap
  obtain ⟨y, hy, heq⟩ := Option.map_eq_some_iff.1 hmap.symm
  exact heq ▸ hbs y hy

/-- A byte that begins no word is in front of both texts or of none. -/
theorem head?_eq_some_iff {x : UInt8} (hx : isWordStart x = false) :
    bs'.head? = some x ↔ bs.head? = some x := by
  rcases h with h | ⟨b, b', hb, hb', hword, hword'⟩
  · rw [h]
  · rw [hb, hb']
    constructor
    · rintro ⟨⟩
      rw [hx] at hword'
      cases hword'
    · rintro ⟨⟩
      rw [hx] at hword
      cases hword

theorem append_left (t : List UInt8) : BeginAlike (t ++ bs) (t ++ bs') := by
  cases t with
  | nil => exact h
  | cons x t => exact .inl rfl

end BeginAlike

/-! ## How far a piece goes -/

section

variable {t r r' : List UInt8}

/-- A run that ends where the text does passes its test, and what is behind it does not. -/
theorem of_runLength_eq {test : UInt8 → Bool} (h : runLength test (t ++ r) = t.length) :
    (∀ x ∈ t, test x = true) ∧ ∀ x ∈ r.head?, test x = false := by
  obtain ⟨run, after, rfl, hrun, hafter⟩ := exists_run test t
  cases after with
  | nil =>
    rw [List.append_nil] at h ⊢
    obtain ⟨run', after', rfl, hrun', hafter'⟩ := exists_run test r
    rw [← List.append_assoc,
      runLength_run (List.forall_mem_append.2 ⟨hrun, hrun'⟩) hafter', List.length_append] at h
    obtain rfl : run' = [] := List.length_eq_zero_iff.1 (by omega)
    exact ⟨hrun, hafter'⟩
  | cons x after =>
    have hbehind : ∀ y ∈ (x :: after ++ r).head?, test y = false := hafter
    rw [List.append_assoc, runLength_run hrun hbehind, List.length_append, List.length_cons] at h
    omega

theorem runLength_congr {test : UInt8 → Bool} (htest : Blind test) (hr : BeginAlike r r')
    (h : runLength test (t ++ r) = t.length) : runLength test (t ++ r') = t.length := by
  obtain ⟨ht, hbehind⟩ := of_runLength_eq h
  exact runLength_run ht (hr.fails_head? htest hbehind)

/-- A number without a fraction has no point behind it that a digit follows. -/
theorem any_isDigit_eq_false {bs : List UInt8} (h : ∀ x ∈ bs.tail.head?, isDigit x = false) :
    bs[1]?.any isDigit = false := by
  rw [← List.head?_tail]
  cases hx : bs.tail.head? with
  | none => rfl
  | some x => exact h x hx

theorem numberExtent_congr (hr : FrontAlike r r') (h : numberExtent (t ++ r) = t.length) :
    numberExtent (t ++ r') = t.length := by
  obtain ⟨whole, after, rfl, hwhole, hafter⟩ := exists_run isDigit t
  cases after with
  | nil =>
    -- behind the digits there is neither a digit nor a fraction
    rw [List.append_nil] at h ⊢
    obtain ⟨run, behind, rfl, hrun, hbehind⟩ := exists_run isDigit r
    rw [← List.append_assoc, numberExtent_run (List.forall_mem_append.2 ⟨hwhole, hrun⟩) hbehind,
      List.length_append] at h
    obtain rfl : run = [] := List.length_eq_zero_iff.1 (by omega)
    rw [List.nil_append] at hr
    rw [numberExtent_run hwhole (hr.begins.fails_head? blind_isDigit hbehind), if_neg]
    · rfl
    · rintro ⟨hpoint, hdigit⟩
      have hpoint := (hr.begins.head?_eq_some_iff rfl).1 hpoint
      have hnone : ∀ x ∈ behind.tail.head?, isDigit x = false := by
        intro x hx
        by_contra hx'
        rw [if_pos ⟨hpoint, by rw [← List.head?_tail, Option.mem_def.1 hx]; simpa using hx'⟩] at h
        omega
      rw [any_isDigit_eq_false ((hr.behindPoint hpoint).fails_head? blind_isDigit hnone)] at hdigit
      cases hdigit
  | cons point fraction =>
    have hbehind : ∀ r : List UInt8, ∀ x ∈ (point :: fraction ++ r).head?, isDigit x = false :=
      fun _ => hafter
    rw [List.append_assoc, numberExtent_run hwhole (hbehind _), List.length_append] at h ⊢
    split at h
    · next hfraction =>
      have hlength : runLength isDigit (fraction ++ r) = fraction.length := by
        rw [List.cons_append, List.tail_cons, List.length_cons] at h
        omega
      cases fraction with
      | nil =>
        have hnone : (point :: r)[1]?.any isDigit = false :=
          any_isDigit_eq_false (of_runLength_eq hlength).2
        exact absurd (hnone.symm.trans hfraction.2) (by decide)
      | cons digit fraction =>
        have hlength' : runLength isDigit (digit :: fraction ++ r') = (digit :: fraction).length :=
          runLength_congr blind_isDigit hr.begins hlength
        refine (congrArg _ (if_pos hfraction)).trans ?_
        rw [List.cons_append, List.tail_cons, hlength', Nat.add_comm 1]
        rfl
    · rw [List.length_cons] at h
      omega

/-- A string that ends where its piece does is closed there. -/
theorem closed_of_stringExtent (hclosed : runLength (· != quote) (t ++ r) < (t ++ r).length)
    (h : stringExtent (t ++ r) = t.length) : runLength (· != quote) t < t.length := by
  rw [stringExtent, if_pos hclosed] at h
  obtain ⟨run, after, rfl, hrun, hafter⟩ := exists_run (· != quote) t
  cases after with
  | nil =>
    rw [List.append_nil] at h
    obtain ⟨run', after', rfl, hrun', hafter'⟩ := exists_run (· != quote) r
    rw [← List.append_assoc, runLength_run (List.forall_mem_append.2 ⟨hrun, hrun'⟩) hafter',
      List.length_append] at h
    omega
  | cons x after =>
    rw [runLength_run hrun hafter, List.length_append, List.length_cons]
    omega

/-- A piece ends where it did before something alike was put behind it. -/
theorem extent_congr {b : UInt8} (hr : FrontAlike r r')
    (hclosed : b = quote → runLength (· != quote) (t ++ r) < (t ++ r).length)
    (h : extent b (t ++ r) = t.length) : extent b (t ++ r') = t.length := by
  have hhead : ∀ x, isWordStart x = false →
      ((t ++ r').head? == some x) = ((t ++ r).head? == some x) := fun x hx => by
    rw [Bool.eq_iff_iff, beq_iff_eq, beq_iff_eq, (hr.begins.append_left t).head?_eq_some_iff hx]
  unfold extent at h ⊢
  rw [hhead _ rfl, hhead _ rfl]
  split at h
  · next hquote =>
    have hstring := closed_of_stringExtent (hclosed (beq_iff_eq.1 hquote)) h
    rw [if_pos hquote, stringExtent_append hstring, ← h, stringExtent_append hstring]
  · next hquote =>
    rw [if_neg hquote]
    split at h
    · next hdigit => rw [if_pos hdigit, numberExtent_congr hr h]
    · next hdigit =>
      rw [if_neg hdigit]
      split at h
      · next hword => rw [if_pos hword, runLength_congr blind_isWordPart hr.begins h]
      · next hword =>
        rw [if_neg hword]
        split at h
        · next hslash =>
          rw [if_pos hslash]
          split at h
          · next hcomment => rw [if_pos hcomment, runLength_congr blind_newline hr.begins h]
          · next hcomment => rw [if_neg hcomment, h]
        · next hslash =>
          rw [if_neg hslash]
          split at h
          · next hequal => rw [if_pos hequal, h]
          · next hequal =>
            rw [if_neg hequal]
            split at h
            · next hbyte => rw [if_pos hbyte, runLength_congr blind_isContinuation hr.begins h]
            · next hbyte => rw [if_neg hbyte, h]

end

end Lox.Lexer
