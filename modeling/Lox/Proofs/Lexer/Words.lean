import Lox.Proofs.Grammar.Trees
import Lox.Proofs.Lexer.Cursor

set_option autoImplicit false

/-! # The words of a source

A word of a source is a reserved word exactly if it is spelled as one, so that no name of a program
is `this` or `super`, and these are written out where they stand. -/

namespace Lox

open Lexer

theorem Kind.mem_keywords_of_ofWord {text : String} {kind : Kind} (h : Kind.ofWord text = kind)
    (hk : kind ≠ .identifier) : (text, kind) ∈ Kind.keywords := by
  unfold ofWord at h
  cases hlookup : keywords.lookup text with
  | none =>
    rw [hlookup] at h
    exact absurd h.symm hk
  | some k =>
    rw [hlookup] at h
    cases h
    exact mem_of_lookup hlookup

theorem Kind.chosen_of_ofWord {text : String} (h : Kind.ofWord text = .identifier) :
    Chosen text := by
  constructor
  · rintro rfl
    exact nomatch h
  · rintro rfl
    exact nomatch h

/-- No symbol is a word. -/
theorem Kind.of_mem_symbols :
    ∀ p ∈ Kind.symbols, p.2 ≠ .identifier ∧ p.2 ≠ .thisKw ∧ p.2 ≠ .superKw := by
  simp [symbols]

/-- How two of the reserved words are spelled. -/
theorem Kind.of_mem_keywords (text : String) :
    ((text, Kind.thisKw) ∈ Kind.keywords → text = "this") ∧
      ((text, Kind.superKw) ∈ Kind.keywords → text = "super") := by
  simp [keywords]

theorem Token.spelled_of_other {t : Token}
    (h : t.kind ≠ .identifier ∧ t.kind ≠ .thisKw ∧ t.kind ≠ .superKw) : t.Spelled :=
  ⟨fun hk => absurd hk h.1, fun hk => absurd hk h.2.1, fun hk => absurd hk h.2.2⟩

namespace Lexer

/-- A name that a program can choose: a word that is not reserved. -/
def IsIdentifier (name : String) : Prop :=
  ∃ b rest, isWordStart b = true ∧ (∀ x ∈ rest, isWordPart x = true) ∧
    Utf8.decodeLossy (b :: rest) = name ∧ Kind.ofWord name = .identifier

theorem IsIdentifier.chosen {name : String} (h : IsIdentifier name) : Chosen name := by
  obtain ⟨_, _, _, _, _, hword⟩ := h
  exact Kind.chosen_of_ofWord hword

theorem spelled_ofWord (text : String) (line : Nat) : Token.Spelled ⟨.ofWord text, text, line⟩ where
  chosen h := Kind.chosen_of_ofWord h
  this h := (Kind.of_mem_keywords text).1 (Kind.mem_keywords_of_ofWord h nofun)
  super h := (Kind.of_mem_keywords text).2 (Kind.mem_keywords_of_ofWord h nofun)

theorem spelled_of_ofText {text : List UInt8} {kind : Kind} (line : Nat)
    (h : Reading.ofText text = .token kind) :
    Token.Spelled ⟨kind, Utf8.decodeLossy text, line⟩ := by
  cases text with
  | nil => cases h
  | cons b rest =>
    obtain ⟨-, h⟩ | ⟨-, rfl⟩ | ⟨-, rfl⟩ | hmem := Reading.of_ofText h
    · obtain ⟨value, rfl⟩ := Reading.of_ofString h
      exact Token.spelled_of_other ⟨nofun, nofun, nofun⟩
    · exact Token.spelled_of_other ⟨nofun, nofun, nofun⟩
    · exact spelled_ofWord _ _
    · exact Token.spelled_of_other (Kind.of_mem_symbols _ hmem)

theorem reading_of_mem_piecesFrom (bs : List UInt8) :
    ∀ skip, ∀ p ∈ piecesFrom skip bs, p.reading = .ofText p.text := by
  induction bs with
  | nil => intro skip p hp; cases skip <;> exact nomatch hp
  | cons b bs ih =>
    intro skip p hp
    cases skip with
    | zero =>
      rcases List.mem_cons.1 hp with rfl | hp
      · rfl
      · exact ih _ p hp
    | succ skip => exact ih skip p hp

/-- The tokens of a source are spelled as their kinds say. -/
theorem spelled_of_mem_tokens {source : List UInt8} {t : Token} (ht : t ∈ tokens source) :
    t.Spelled := by
  obtain ⟨item, hitem, heq⟩ := List.mem_filterMap.1 ht
  cases item with
  | error e => cases heq
  | ok u =>
    cases heq
    rcases of_mem_itemsFrom hitem with ⟨p, hp, line, hitem⟩ | ⟨line, heq⟩
    · rw [Piece.item?] at hitem
      split at hitem
      · next kind hkind =>
        cases hitem
        exact spelled_of_ofText line ((reading_of_mem_piecesFrom source 0 p hp).symm.trans hkind)
      · cases hitem
      · cases hitem
    · cases heq
      exact Token.spelled_of_other ⟨nofun, nofun, nofun⟩

end Lexer

end Lox
