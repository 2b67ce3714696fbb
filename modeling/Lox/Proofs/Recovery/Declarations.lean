import Lox.Proofs.Grammar.Runs
import Lox.Proofs.Grammar.Soundness.Program
import Lox.Proofs.Recovery.Blind

set_option autoImplicit false

/-! # One declaration after the other

A declaration uses up a token at least, whether it is read or fails and the parse goes on behind it.
So the bound on the number of declarations is never met: a program is read by declarations until no
token is left (`Declares`). What was reported before a declaration has no effect on the rest. -/

namespace Lox.Parse

open Grammar

variable {s s' s₁ s₂ : State} {α : Type}

/-! ## Every declaration reads a token -/

/-- What has been read shows in the number of tokens that are left. -/
theorem State.LeadsTo.length_le (h : s.LeadsTo s') : s'.rest.length ≤ s.rest.length :=
  h.rest.length_le

theorem yieldsAt_expressionStatement_shorter (s : State) :
    YieldsAt s expressionStatement fun _ s' => s'.rest.length < s.rest.length := by
  refine (isRule_expression s).bind fun e s₁ l₁ _ => ?_
  refine (yieldsAt_expect rfl _).bind fun r s₂ _ h => ?_
  obtain ⟨-, rfl⟩ := h
  exact .pure (Nat.lt_of_succ_le l₁.length_le)

/-- A rule behind the word with which it begins. -/
theorem YieldsAt.behind_word {t : Token} {rule : Parser α} {P : State → α → State → Prop}
    (hrest : s.rest = t :: s.rest.tail) (hrule : ∀ s, YieldsAt s rule (P s)) :
    YieldsAt s (do advance; rule) fun _ s' => s'.rest.length < s.rest.length := by
  refine (yieldsAt_advance hrest).bind fun _ s₁ _ h => ?_
  subst h
  exact (hrule s₁).mono fun _ _ l _ => Nat.lt_succ_of_le l.length_le

section

variable {statement : Parser Stmt} {declaration : Parser (Option Stmt)}
  (hstatement : IsStatementRule statement) (hdeclaration : IsDeclarationRule declaration)

include hstatement hdeclaration

theorem yieldsAt_statementOf_shorter (s : State) :
    YieldsAt s (statementOf statement declaration) fun _ s' => s'.rest.length < s.rest.length := by
  refine yieldsAt_peek.bind fun t s₁ _ h => ?_
  obtain ⟨rfl, hrest⟩ := h
  split
  case h_1 ht => exact .behind_word (hrest (by simp [ht])) (yieldsAt_forStatement hstatement ht)
  case h_2 ht => exact .behind_word (hrest (by simp [ht])) (yieldsAt_ifStatement hstatement ht)
  case h_3 ht => exact .behind_word (hrest (by simp [ht])) (yieldsAt_whileStatement hstatement ht)
  case h_4 ht => exact .behind_word (hrest (by simp [ht])) (yieldsAt_returnStatement ht)
  case h_5 ht => exact .behind_word (hrest (by simp [ht])) (yieldsAt_breakStatement ht)
  case h_6 ht =>
    exact .behind_word (hrest (by simp [ht])) fun s => (yieldsAt_block hdeclaration s).map
  case h_7 ht => exact .behind_word (hrest (by simp [ht])) (yieldsAt_printStatement ht)
  case h_8 => exact yieldsAt_expressionStatement_shorter s₁

theorem yieldsAt_declarationOf_shorter (s : State) :
    YieldsAt s (declarationOf statement declaration) fun _ s' =>
      s'.rest.length < s.rest.length := by
  refine yieldsAt_peek.bind fun t s₁ _ h => ?_
  obtain ⟨rfl, hrest⟩ := h
  split
  case h_1 ht =>
    exact .behind_word (hrest (by simp [ht])) (yieldsAt_classDeclaration hdeclaration ht)
  case h_2 ht =>
    exact .behind_word (hrest (by simp [ht])) fun s => (isRule_function hdeclaration _ s).map
  case h_3 ht => exact .behind_word (hrest (by simp [ht])) (yieldsAt_varDeclaration ht)
  case h_4 => exact yieldsAt_statementOf_shorter hstatement hdeclaration s₁

end

theorem length_resume_lt {ts us : List Token} (h : ts <:+ us) (hus : us ≠ []) :
    (resume ts).length < us.length := by
  cases ts with
  | nil => exact List.length_pos_iff.2 hus
  | cons t ts => exact Nat.lt_of_le_of_lt (resumeAfter_suffix t ts).length_le h.length_le

/-- What is left of a rule that fails, in a state with an end. -/
theorem recovering_of_mistake {rule : Parser α} {m : Mistake} (h : rule s = .error (.mistake m) s')
    (hend : s'.HasEnd) : recovering rule s =
      .ok none { s' with rest := resume s'.rest, reported := s'.reported.push m } := by
  have hend' : State.HasEnd { s' with rest := resume s'.rest, reported := s'.reported.push m } :=
    hend
  obtain ⟨t, ht⟩ := hend'.peek
  unfold recovering
  rw [h]
  exact bind_of_ok ht

/-- A declaration never fails as a whole, and it uses up a token. -/
theorem declaration_ok (hend : s.HasEnd) (hrest : s.rest ≠ []) :
    ∃ d s', declaration s = .ok d s' ∧ s.LeadsTo s' ∧ s'.rest.length < s.rest.length := by
  obtain ⟨t, bound, hbound⟩ := List.exists_cons_of_ne_nil hrest
  have hwithin := isDeclarationRule_declarationWithin s.rest s hend
  have hrule := yieldsAt_declarationOf_shorter (isStatementRule_statementWithin bound)
    (isDeclarationRule_declarationWithin bound) s hend
  -- the rule within is run with the tokens behind the first as its bound
  unfold declaration
  rw [hbound, declarationWithin] at hwithin ⊢
  cases hrun : declarationOf (statementWithin bound) (declarationWithin bound) s with
  | ok d s₁ =>
    rw [hrun] at hrule
    refine ⟨some d, s₁, ?_, hrule.1, hbound ▸ hrule.2⟩
    simp only [recovering, hrun]
  | error failure s₁ =>
    rw [hrun] at hrule
    cases failure with
    | outOfTokens => exact absurd rfl hrule.2
    | mistake m =>
      have heq := recovering_of_mistake hrun (hrule.1.hasEnd hend)
      rw [heq] at hwithin
      exact ⟨none, _, heq, hwithin.1, hbound ▸ length_resume_lt hrule.1.rest hrest⟩

/-! ## All declarations -/

/-- Read one after the other until no token is left, declarations give statements. -/
inductive Declares : State → List Stmt → State → Prop
  | done {s : State} : s.rest = [] → Declares s [] s
  | next {s s₁ s₂ : State} {d : Option Stmt} {ds : List Stmt} : s.rest ≠ [] →
      declaration s = .ok d s₁ → Declares s₁ ds s₂ → Declares s (d.toList ++ ds) s₂

theorem exists_declares : ∀ {s : State}, s.HasEnd → ∃ ds s', Declares s ds s' := by
  intro s
  induction hn : s.rest.length using Nat.strongRecOn generalizing s with
  | ind n ih =>
    intro hend
    by_cases hrest : s.rest = []
    · exact ⟨[], s, .done hrest⟩
    · obtain ⟨d, s₁, hd, l, hlt⟩ := declaration_ok hend hrest
      obtain ⟨ds, s₂, hds⟩ := ih _ (hn ▸ hlt) rfl (l.hasEnd hend)
      exact ⟨_, s₂, .next hrest hd hds⟩

/-- One more declaration of a program, unless no token is left. -/
def furtherDeclaration (program : Array Stmt) : Parser (Option (Array Stmt)) := do
  if ← atEnd then return none
  return some (program ++ (← declaration).toList)

theorem State.HasEnd.atEnd (hend : s.HasEnd) : Parse.atEnd s = .ok s.rest.isEmpty s := by
  obtain ⟨t, ht⟩ := hend.peek
  exact bind_of_ok ht

section

variable {program : Array Stmt}

theorem furtherDeclaration_of_nil (hend : s.HasEnd) (hrest : s.rest = []) :
    furtherDeclaration program s = .ok none s := by
  unfold furtherDeclaration
  rw [bind_of_ok hend.atEnd, hrest]
  rfl

theorem furtherDeclaration_of_cons {d : Option Stmt} (hend : s.HasEnd) (hrest : s.rest ≠ [])
    (hd : declaration s = .ok d s') :
    furtherDeclaration program s = .ok (some (program ++ d.toList)) s' := by
  unfold furtherDeclaration
  rw [bind_of_ok hend.atEnd, List.isEmpty_eq_false_iff.2 hrest]
  exact bind_of_ok hd

end

variable {ds : List Stmt}

/-- The loop of a program reads all declarations if its bound is no less than the tokens. -/
theorem Declares.repeatOver_eq (h : Declares s ds s') : ∀ (bound : List Token)
    (program : Array Stmt), s.HasEnd → s.rest.length ≤ bound.length →
      repeatOver furtherDeclaration bound program s = .ok (program ++ ds.toArray) s' := by
  induction h with
  | @done s hrest =>
    intro bound program hend _
    rw [Array.append_empty]
    cases bound with
    | nil => rfl
    | cons t bound => exact bind_of_ok (furtherDeclaration_of_nil hend hrest)
  | @next s s₁ s₂ d ds hrest hd _ ih =>
    intro bound program hend hbound
    -- the declaration leaves fewer tokens, so the rest of the bound is enough for those behind it
    obtain ⟨_, _, hd', l, hlt⟩ := declaration_ok hend hrest
    cases hd.symm.trans hd'
    cases bound with
    | nil => exact absurd (List.eq_nil_of_length_eq_zero (Nat.le_zero.1 hbound)) hrest
    | cons t bound =>
      have hle : s₁.rest.length ≤ bound.length :=
        Nat.le_of_lt_succ (Nat.lt_of_lt_of_le hlt hbound)
      have hjoin : program ++ (d.toList ++ ds).toArray = (program ++ d.toList) ++ ds.toArray := by
        apply Array.toList_inj.1
        simp
      rw [repeatOver, bind_of_ok (furtherDeclaration_of_cons hend hrest hd), hjoin]
      exact ih bound (program ++ d.toList) (l.hasEnd hend) hle

theorem Declares.declarations_eq (h : Declares s ds s') (hend : s.HasEnd) :
    declarations s = .ok ds s' := by
  have hloop : repeatFrom #[] furtherDeclaration s = .ok (#[] ++ ds.toArray) s' :=
    h.repeatOver_eq s.rest #[] hend (Nat.le_refl _)
  refine (bind_of_ok hloop).trans ?_
  simp [Pure.pure, EStateM.pure]

/-- What was reported before makes no difference. -/
theorem Declares.after (h : Declares s ds s') (reported : Array Mistake) :
    Declares (s.after reported) ds (s'.after reported) := by
  induction h with
  | done hrest => exact .done hrest
  | next hrest hd _ ih =>
    refine .next hrest ?_ ih
    rw [blind_declaration, hd]
    rfl

end Lox.Parse
