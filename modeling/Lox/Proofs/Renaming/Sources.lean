import Lox.Proofs.Lexer.Fronts
import Lox.Proofs.Lexer.Words
import Lox.Proofs.Renaming.Reading

set_option autoImplicit false

/-! # Renaming in the source

Where a source is read as some tokens, names among them can be respelled: there is a source that is
read as the respelled tokens (`exists_tokens_respelled`). It is found by putting the new name in the
place of words of the source. All other bytes stay, those of blanks and comments included. -/

namespace Lox.Lexer

/-! ## Words -/

/-- Only words are identifiers. -/
theorem isWordStart_of_ofText {b : UInt8} {rest : List UInt8}
    (h : Reading.ofText (b :: rest) = .token .identifier) : isWordStart b = true := by
  obtain ⟨-, h⟩ | ⟨-, h⟩ | ⟨hword, -⟩ | hmem := Reading.of_ofText h
  · obtain ⟨value, h⟩ := Reading.of_ofString h
    cases h
  · cases h
  · exact hword
  · exact absurd rfl (Kind.of_mem_symbols _ hmem).1

/-! ## Pieces -/

theorem FrontAlike.cons (b : UInt8) (t : List UInt8) {r r' : List UInt8} (h : FrontAlike r r') :
    FrontAlike (b :: (t ++ r)) (b :: (t ++ r')) :=
  ⟨.inl rfl, fun _ => h.begins.append_left t⟩

theorem FrontAlike.words {b b' : UInt8} (hb : isWordStart b = true) (hb' : isWordStart b' = true)
    (bs bs' : List UInt8) : FrontAlike (b :: bs) (b' :: bs') := by
  refine ⟨.inr ⟨b, b', rfl, rfl, hb, hb'⟩, fun hpoint => ?_⟩
  cases hpoint
  cases hb

/-- There is no newline in a word. -/
theorem count_newline_word {b : UInt8} {t : List UInt8} (hb : isWordStart b = true)
    (ht : ∀ x ∈ t, isWordPart x = true) : (b :: t).count newline = 0 := by
  rw [List.count_eq_zero]
  intro hmem
  rcases List.mem_cons.1 hmem with rfl | hmem
  · cases hb
  · exact absurd (ht _ hmem) (by decide)

/-! ## Items -/

/-- A source without a byte has no item but the last one. -/
theorem eq_of_items_nil {line : Nat} {ts : List Token}
    (h : itemsFrom line (pieces []) = ts.map Except.ok) : ts = [⟨.endOfInput, "", line⟩] := by
  cases ts with
  | nil => cases h
  | cons t ts =>
    cases ts with
    | nil =>
      injection h with h
      injection h with h
      rw [h]
    | cons _ _ => cases h

section

variable {b : UInt8} {t r r' : List UInt8} (hextent : extent b (t ++ r) = t.length)
  (hfront : FrontAlike r r') (line : Nat)

include hextent hfront

/-- A piece is the same in front of another source that begins alike. -/
theorem itemsFrom_kept (hproblem : ∀ problem, Reading.ofText (b :: t) ≠ .problem problem) :
    itemsFrom line (pieces (b :: (t ++ r'))) =
      (Piece.item? (line + (b :: t).count newline) ⟨b :: t, .ofText (b :: t)⟩).toList ++
        itemsFrom (line + (b :: t).count newline) (pieces r') := by
  have hclosed : b = quote → runLength (· != quote) (t ++ r) < (t ++ r).length := by
    rintro rfl
    refine closed_of_reading ?_
    rw [hextent, List.take_left]
    exact hproblem _
  rw [pieces_append (extent_congr hfront hclosed hextent), itemsFrom]

/-- A word may take the place of another one. -/
theorem itemsFrom_word (hb : isWordStart b = true) {b' : UInt8} {t' : List UInt8}
    (hb' : isWordStart b' = true) (ht' : ∀ x ∈ t', isWordPart x = true) :
    itemsFrom line (pieces (b' :: (t' ++ r'))) =
      (Piece.item? line ⟨b' :: t', .ofText (b' :: t')⟩).toList ++ itemsFrom line (pieces r') := by
  rw [extent_of_isWordStart hb] at hextent
  obtain ⟨-, hafter⟩ := of_runLength_eq hextent
  have hextent' : extent b' (t' ++ r') = t'.length := by
    rw [extent_of_isWordStart hb']
    exact runLength_run ht' (hfront.begins.fails_head? blind_isWordPart hafter)
  rw [pieces_append hextent', itemsFrom]
  dsimp only
  rw [count_newline_word hb' ht']
  rfl

end

section

variable {ρ : Renaming} (hnew : IsIdentifier ρ.new)

include hnew

/-- The items of a source are its tokens; if names among them are respelled, they are the items of
    another source. -/
theorem exists_items_respelled (bs : List UInt8) (line : Nat) {ts us : List Token}
    (h : itemsFrom line (pieces bs) = ts.map Except.ok) (hus : List.Forall₂ ρ.Respelled ts us) :
    ∃ bs', FrontAlike bs bs' ∧ itemsFrom line (pieces bs') = us.map Except.ok := by
  induction hlength : bs.length using Nat.strong_induction_on generalizing bs line ts us with
  | _ length ih =>
    cases bs with
    | nil =>
      obtain rfl := eq_of_items_nil h
      obtain _ | ⟨ht, _ | _⟩ := hus
      rcases ht with rfl | ⟨hkind, -⟩
      · exact ⟨[], ⟨.inl rfl, fun h => by cases h⟩, rfl⟩
      · cases hkind
    | cons b rest =>
      obtain ⟨t, r, rfl, hextent⟩ : ∃ t r, rest = t ++ r ∧ extent b (t ++ r) = t.length := by
        refine ⟨rest.take (extent b rest), rest.drop (extent b rest),
          (List.take_append_drop _ _).symm, ?_⟩
        rw [List.take_append_drop, List.length_take, Nat.min_eq_left (extent_le b rest)]
      rw [pieces_append hextent, itemsFrom] at h
      dsimp only at h
      have hshorter : r.length < length := by
        rw [← hlength, List.length_cons, List.length_append]
        omega
      cases hreading : Reading.ofText (b :: t) with
      | problem problem =>
        rw [Piece.item?, hreading] at h
        cases ts <;> cases h
      | blank | comment =>
        rw [Piece.item?, hreading] at h
        obtain ⟨r', hfront, hitems⟩ := ih _ hshorter r _ h hus rfl
        have hkept := itemsFrom_kept hextent hfront line (by simp [hreading])
        rw [Piece.item?, hreading, hitems] at hkept
        exact ⟨_, hfront.cons b t, hkept⟩
      | token kind =>
        rw [Piece.item?, hreading] at h
        obtain _ | ⟨ht, hts⟩ := hus
        · cases h
        · obtain ⟨hfirst, hbehind⟩ := List.cons.inj h
          obtain ⟨r', hfront, hitems⟩ := ih _ hshorter r _ hbehind hts rfl
          rcases ht with rfl | ⟨hkind, -, rfl⟩
          · have hkept := itemsFrom_kept hextent hfront line (by simp [hreading])
            rw [Piece.item?, hreading, hitems] at hkept
            exact ⟨_, hfront.cons b t, hkept.trans (congrArg (· :: _) hfirst)⟩
          · -- the word makes place for the new name
            cases hfirst
            obtain rfl : kind = .identifier := hkind
            obtain ⟨b', t', hb', ht', hlexeme, hword⟩ := hnew
            have hb := isWordStart_of_ofText hreading
            have hitems' := itemsFrom_word hextent hfront line hb hb' ht'
            rw [extent_of_isWordStart hb] at hextent
            obtain ⟨ht, -⟩ := of_runLength_eq hextent
            rw [count_newline_word hb ht, Nat.add_zero] at hitems
            rw [ofText_of_isWordStart hb', hlexeme, hword, hitems, Piece.item?] at hitems'
            refine ⟨b' :: (t' ++ r'), .words hb hb' _ _, hitems'.trans ?_⟩
            rw [count_newline_word hb ht]
            dsimp only
            rw [hlexeme]
            rfl

/-- If names among the tokens of a source without lexical errors are respelled, they are the tokens
    of another such source. -/
theorem exists_tokens_respelled {source : List UInt8} (h : errors source = []) {us : List Token}
    (hus : List.Forall₂ ρ.Respelled (tokens source) us) :
    ∃ source', tokens source' = us ∧ errors source' = [] := by
  obtain ⟨source', -, hitems⟩ := exists_items_respelled hnew source 1 (items_eq_map_ok h) hus
  have hitems : items source' = us.map Except.ok := hitems
  refine ⟨source', ?_, ?_⟩
  · rw [tokens_eq_filterMap, hitems, List.filterMap_map]
    exact List.filterMap_some
  · rw [errors, hitems, List.filterMap_map, List.filterMap_eq_nil_iff]
    exact fun _ _ => rfl

end

end Lox.Lexer
