import Lox.Proofs.Grammar.Completeness.Program
import Lox.Proofs.Progress.Expressions

set_option autoImplicit false

/-! # Statements and declarations come to an end

Behind its first word, a rule of statements finishes if those that it is given for nested statements
and declarations finish where fewer tokens are left. A loop that reads up to a brace asks whether the
input is at its end before each item, and there a declaration reads a token whether it succeeds or is
recovered from. -/

namespace Lox.Parse

open Grammar

variable {α : Type} {s : State}

/-! ## Recovery -/

theorem recovering_congr {rule rule' : Parser α} (h : rule s = rule' s) :
    recovering rule s = recovering rule' s := by
  simp only [recovering, h]

/-- Where there is a token left, one is read. -/
def ShorterIfAny (s : State) (_ : α) (s' : State) : Prop :=
  s.rest ≠ [] → s'.rest.length < s.rest.length

theorem finishes_recovering {p : Parser α} {rule : Rule α} (h : Finishes s p rule (Shorter s)) :
    Finishes s (recovering p) (.recovering rule id) (ShorterIfAny s) := by
  intro hend
  obtain ⟨⟨l, hl⟩, hshorter⟩ := h hend
  cases hrun : p s with
  | ok a s₁ =>
    have heq : recovering p s = .ok (some a) s₁ := by simp only [recovering, hrun]
    rw [heq]
    refine ⟨⟨l, .read (hrun ▸ hl)⟩, ?_⟩
    rintro _ _ ⟨⟩ _
    exact hshorter a s₁ hrun
  | error failure s₁ =>
    rw [hrun] at hl
    cases failure with
    | outOfTokens => exact absurd rfl (hl.ne_outOfTokens hend s₁)
    | mistake m =>
      have hleads : s.LeadsTo s₁ := (hl.onward hend).leadsTo
      rw [recovering_of_mistake hrun (hleads.hasEnd hend)]
      refine ⟨⟨_, .recovered hl ((hleads.hasEnd hend).resume m)⟩, ?_⟩
      rintro _ _ ⟨⟩ hne
      exact length_resume_lt hleads.rest hne

/-! ## Parts of statements -/

theorem finishes_upToBrace {item : Array α → Parser (Array α)} {item' : Array α → Rule (Array α)}
    (hitem : ∀ items s₁, s.LeadsTo s₁ → Finishes s₁ (item items) (item' items) (ShorterIfAny s₁)) :
    Finishes s (upToBrace item) (.upToBrace item') fun _ _ => True := by
  refine (finishes_repeatFrom #[] (fun items n => ?_) fun items s₁ l₁ => ?_).bind
    fun _ _ _ _ => .pure trivial
  · exact (succeeds_nextIs_not rfl (by simp)).bind (succeeds_atEnd.bind (.pure none))
  · refine (finishes_nextIs _).bind fun b s₂ _ h => ?_
    refine finishes_atEnd.bind fun e s₃ _ h' => ?_
    subst h
    obtain ⟨rfl, rfl⟩ := h'
    cases hstop : b || s₃.rest.isEmpty with
    | true => exact .pure fun h => absurd rfl h
    | false =>
      have hne : s₃.rest ≠ [] := List.isEmpty_eq_false_iff.1 (Bool.or_eq_false_iff.1 hstop).2
      refine (hitem items s₃ l₁).bind fun _ s₄ _ h => .pure fun _ => ?_
      exact h hne

theorem finishes_expressionUnless (kind : Kind) :
    Finishes s (expressionUnless kind) (.expressionUnless kind) fun _ _ => True := by
  refine (finishes_nextIs kind).bind fun b _ _ _ => ?_
  cases b with
  | true => exact .pure trivial
  | false => exact finishes_expression.map

theorem finishes_varDeclaration :
    Finishes s varDeclaration .varDeclaration fun _ _ => True := by
  refine (finishes_expect _ _).bind fun name _ _ _ => ?_
  refine (finishes_take? _).bind fun equals s₁ _ _ => ?_
  have hclose : ∀ e s₁, Finishes s₁
      (do let _ ← expect .semicolon .noSemicolonAfterVariable; return Stmt.var name e)
      (do let _ ← Rule.expect .semicolon .noSemicolonAfterVariable; return Stmt.var name e)
      fun _ _ => True :=
    fun _ _ => (finishes_expect _ _).bind fun _ _ _ _ => .pure trivial
  cases equals with
  | none => exact .pure_bind (hclose none s₁)
  | some _ => exact finishes_expression.map.bind fun e s₂ _ _ => hclose e s₂

theorem finishes_expressionStatement :
    Finishes s expressionStatement .expressionStatement (Shorter s) := by
  refine finishes_expression.shorter_bind fun _ _ _ => ?_
  exact (finishes_expect _ _).bind fun _ _ _ _ => .pure trivial

theorem finishes_forInitializer :
    Finishes s forInitializer .forInitializer fun _ _ => True := by
  refine .after_peek fun token hnext => ?_
  cases hkind : token.kind with
  | semicolon =>
    exact (finishes_advance (hnext (by simp [hkind]))).bind fun _ _ _ _ => .pure trivial
  | varKw =>
    exact (finishes_advance (hnext (by simp [hkind]))).bind fun _ _ _ _ =>
      finishes_varDeclaration.map
  | _ => exact finishes_expressionStatement.map

/-! ## Statements -/

section

variable {statement : Parser Stmt} {declaration : Parser (Option Stmt)} {n : Nat}
  (hstatement : ∀ s, s.rest.length < n → Finishes s statement .statement fun _ _ => True)
  (hdeclaration : ∀ s, s.rest.length < n →
    Finishes s declaration .declaration (ShorterIfAny s))

include hdeclaration in
theorem finishes_block (hless : s.rest.length < n) :
    Finishes s (block declaration) .block fun _ _ => True := by
  refine (finishes_upToBrace fun items s₁ l => ?_).bind fun _ _ _ _ => ?_
  · have hless₁ : s₁.rest.length < n := Nat.lt_of_le_of_lt l.length_le hless
    exact (hdeclaration s₁ hless₁).bind fun _ _ _ h => .pure h
  · exact (finishes_expect _ _).bind fun _ _ _ _ => .pure trivial

include hdeclaration in
theorem finishes_function (sort : FunctionSort) (hless : s.rest.length < n) :
    Finishes s (function sort declaration) (.function sort) (Shorter s) := by
  refine (finishes_expect _ _).shorter_bind fun name s₁ hless₁ => ?_
  have hbody : ∀ (params : List Token) (s₂ : State), s₁.LeadsTo s₂ → Finishes s₂
      (do
        let _ ← expect .rightParen .noParenAfterParameters
        let _ ← expect .leftBrace (.noBraceBeforeBody sort)
        return FunctionDef.mk name params (← block declaration))
      (do
        let _ ← Rule.expect .rightParen .noParenAfterParameters
        let _ ← Rule.expect .leftBrace (.noBraceBeforeBody sort)
        return FunctionDef.mk name params (← Rule.block))
      fun _ _ => True := by
    intro params s₂ l₂
    refine (finishes_expect _ _).bind fun _ s₃ l₃ _ => ?_
    refine (finishes_expect _ _).bind fun _ s₄ l₄ _ => ?_
    have hless₄ : s₄.rest.length < n :=
      Nat.lt_of_le_of_lt ((l₂.trans l₃).trans l₄).length_le (Nat.lt_trans hless₁ hless)
    exact (finishes_block hdeclaration hless₄).bind fun _ _ _ _ => .pure trivial
  refine (finishes_expect _ _).bind fun _ s₂ l₂ _ => ?_
  refine (finishes_nextIs _).bind fun b s₃ l₃ _ => ?_
  cases b with
  | true => exact .pure_bind (hbody [] s₃ (l₂.trans l₃))
  | false =>
    have hparams : Finishes s₃ (commaList .tooManyParameters (expect .identifier .noParameterName))
        (.commaList .tooManyParameters (Rule.expect .identifier .noParameterName))
        fun _ _ => True :=
      finishes_commaList _ fun s₄ _ => (finishes_expect _ _).mono fun _ _ _ _ => trivial
    refine hparams.bind fun params s₄ l₄ _ => ?_
    exact hbody params s₄ ((l₂.trans l₃).trans l₄)

include hstatement in
theorem finishes_forStatement (hless : s.rest.length < n) :
    Finishes s (forStatement statement) .forStatement fun _ _ => True := by
  refine (finishes_expect _ _).bind fun _ s₁ l₁ _ => ?_
  refine finishes_forInitializer.bind fun _ s₂ l₂ _ => ?_
  refine (finishes_expressionUnless _).bind fun _ s₃ l₃ _ => ?_
  refine (finishes_expect _ _).bind fun _ s₄ l₄ _ => ?_
  refine (finishes_expressionUnless _).bind fun _ s₅ l₅ _ => ?_
  refine (finishes_expect _ _).bind fun _ s₆ l₆ _ => ?_
  have l : s.LeadsTo s₆ := (((l₁.trans l₂).trans l₃).trans l₄).trans (l₅.trans l₆)
  exact (hstatement s₆ (Nat.lt_of_le_of_lt l.length_le hless)).bind fun _ _ _ _ => .pure trivial

include hstatement in
theorem finishes_ifStatement (hless : s.rest.length < n) :
    Finishes s (ifStatement statement) .ifStatement fun _ _ => True := by
  refine (finishes_expect _ _).bind fun _ s₁ l₁ _ => ?_
  refine finishes_expression.bind fun _ s₂ l₂ _ => ?_
  refine (finishes_expect _ _).bind fun _ s₃ l₃ _ => ?_
  have l : s.LeadsTo s₃ := (l₁.trans l₂).trans l₃
  refine (hstatement s₃ (Nat.lt_of_le_of_lt l.length_le hless)).bind fun _ s₄ l₄ _ => ?_
  refine (finishes_take? _).bind fun word s₅ l₅ _ => ?_
  cases word with
  | none => exact .pure_bind (.pure trivial)
  | some _ =>
    have l' : s.LeadsTo s₅ := (l.trans l₄).trans l₅
    exact (hstatement s₅ (Nat.lt_of_le_of_lt l'.length_le hless)).map.bind fun _ _ _ _ =>
      .pure trivial

include hstatement in
theorem finishes_whileStatement (hless : s.rest.length < n) :
    Finishes s (whileStatement statement) .whileStatement fun _ _ => True := by
  refine (finishes_expect _ _).bind fun _ s₁ l₁ _ => ?_
  refine finishes_expression.bind fun _ s₂ l₂ _ => ?_
  refine (finishes_expect _ _).bind fun _ s₃ l₃ _ => ?_
  have l : s.LeadsTo s₃ := (l₁.trans l₂).trans l₃
  exact (hstatement s₃ (Nat.lt_of_le_of_lt l.length_le hless)).bind fun _ _ _ _ => .pure trivial

theorem finishes_returnStatement (keyword : Token) :
    Finishes s (returnStatement keyword) (.returnStatement keyword) fun _ _ => True := by
  refine (finishes_expressionUnless _).bind fun _ _ _ _ => ?_
  refine (finishes_expect _ _).bind fun _ _ _ _ => ?_
  exact .pure trivial

theorem finishes_breakStatement (keyword : Token) :
    Finishes s (breakStatement keyword) (.breakStatement keyword) fun _ _ => True :=
  (finishes_expect _ _).bind fun _ _ _ _ => .pure trivial

theorem finishes_printStatement : Finishes s printStatement .printStatement fun _ _ => True := by
  refine finishes_expression.bind fun _ _ _ _ => ?_
  refine (finishes_expect _ _).bind fun _ _ _ _ => ?_
  exact .pure trivial

include hdeclaration in
theorem finishes_classDeclaration (hless : s.rest.length < n) :
    Finishes s (classDeclaration declaration) .classDeclaration fun _ _ => True := by
  refine (finishes_expect _ _).bind fun name s₁ l₁ _ => ?_
  refine (finishes_take? _).bind fun less s₂ l₂ _ => ?_
  have hbody : ∀ (superclass : Option Superclass) (s₃ : State), s.LeadsTo s₃ → Finishes s₃
      (do
        let _ ← expect .leftBrace .noBraceBeforeClassBody
        let methods ← upToBrace fun methods =>
          return methods.push (← function .method declaration)
        let _ ← expect .rightBrace .noBraceAfterClassBody
        return Stmt.classDef name superclass methods)
      (do
        let _ ← Rule.expect .leftBrace .noBraceBeforeClassBody
        let methods ← Rule.upToBrace fun methods => return methods.push (← Rule.function .method)
        let _ ← Rule.expect .rightBrace .noBraceAfterClassBody
        return Stmt.classDef name superclass methods)
      fun _ _ => True := by
    intro superclass s₃ l₃
    refine (finishes_expect _ _).bind fun _ s₄ l₄ _ => ?_
    refine (finishes_upToBrace fun methods s₅ l₅ => ?_).bind fun _ _ _ _ => ?_
    · have l : s.LeadsTo s₅ := (l₃.trans l₄).trans l₅
      have hless₅ : s₅.rest.length < n := Nat.lt_of_le_of_lt l.length_le hless
      exact (finishes_function hdeclaration .method hless₅).bind fun _ _ _ h => .pure fun _ => h
    · exact (finishes_expect _ _).bind fun _ _ _ _ => .pure trivial
  cases less with
  | none => exact .pure_bind (hbody none s₂ (l₁.trans l₂))
  | some _ =>
    refine (finishes_expect _ _).bind fun _ s₃ l₃ _ => ?_
    refine finishes_freshId.bind fun _ s₄ l₄ _ => ?_
    exact .pure_bind (hbody _ s₄ ((l₁.trans l₂).trans (l₃.trans l₄)))

theorem Finishes.behind_word {t : Token} {p : Parser α} {rule : Rule α}
    (hrest : s.rest = t :: s.rest.tail)
    (hp : ∀ s₁, s₁.rest.length < s.rest.length → Finishes s₁ p rule fun _ _ => True) :
    Finishes s (do advance; p) (do Rule.advance; rule) (Shorter s) :=
  (finishes_advance hrest).shorter_bind fun _ s₁ hless => hp s₁ hless

include hstatement hdeclaration

theorem finishes_statementOf (hle : s.rest.length ≤ n) :
    Finishes s (statementOf statement declaration) .statementBody (Shorter s) := by
  refine .after_peek fun token hnext => ?_
  have hless : ∀ {s₁ : State}, s₁.rest.length < s.rest.length → s₁.rest.length < n :=
    fun h => Nat.lt_of_lt_of_le h hle
  cases hkind : token.kind with
  | forKw =>
    exact .behind_word (hnext (by simp [hkind])) fun _ h => finishes_forStatement hstatement (hless h)
  | ifKw =>
    exact .behind_word (hnext (by simp [hkind])) fun _ h => finishes_ifStatement hstatement (hless h)
  | whileKw =>
    exact .behind_word (hnext (by simp [hkind])) fun _ h =>
      finishes_whileStatement hstatement (hless h)
  | returnKw =>
    exact .behind_word (hnext (by simp [hkind])) fun _ _ => finishes_returnStatement token
  | breakKw =>
    exact .behind_word (hnext (by simp [hkind])) fun _ _ => finishes_breakStatement token
  | leftBrace =>
    exact .behind_word (hnext (by simp [hkind])) fun _ h =>
      (finishes_block hdeclaration (hless h)).map
  | printKw => exact .behind_word (hnext (by simp [hkind])) fun _ _ => finishes_printStatement
  | _ => exact finishes_expressionStatement

theorem finishes_declarationOf (hle : s.rest.length ≤ n) :
    Finishes s (declarationOf statement declaration) .declarationBody (Shorter s) := by
  refine .after_peek fun token hnext => ?_
  have hless : ∀ {s₁ : State}, s₁.rest.length < s.rest.length → s₁.rest.length < n :=
    fun h => Nat.lt_of_lt_of_le h hle
  cases hkind : token.kind with
  | classKw =>
    exact .behind_word (hnext (by simp [hkind])) fun _ h =>
      finishes_classDeclaration hdeclaration (hless h)
  | funKw =>
    exact .behind_word (hnext (by simp [hkind])) fun _ h =>
      (finishes_function hdeclaration .function (hless h)).map
  | varKw => exact .behind_word (hnext (by simp [hkind])) fun _ _ => finishes_varDeclaration
  | _ => exact finishes_statementOf hstatement hdeclaration hle

end

/-! ## At the end -/

section

variable (statement : Parser Stmt) (declaration : Parser (Option Stmt))

/-- Where no token is left, there is no statement. -/
theorem statementOf_of_nil (hend : s.HasEnd) (hnil : s.rest = []) :
    statementOf statement declaration s = fail .noExpression s := by
  obtain ⟨t, hfinal, hkind⟩ := hend
  have hpeek : peek s = .ok t s := peek_of_nil hfinal hnil
  have hexpression : expression s = .error (.mistake ⟨t, .noExpression⟩) s := by
    unfold expression
    rw [hnil, expressionWithin, fail_eq _ hpeek]
  unfold statementOf
  rw [bind_of_ok hpeek, hkind, fail_eq _ hpeek]
  exact bind_of_error hexpression

theorem declarationOf_of_nil (hend : s.HasEnd) (hnil : s.rest = []) :
    declarationOf statement declaration s = fail .noExpression s := by
  rw [← statementOf_of_nil statement declaration hend hnil]
  obtain ⟨t, hfinal, hkind⟩ := hend
  unfold declarationOf
  rw [bind_of_ok (peek_of_nil hfinal hnil), hkind]

end

/-! ## Nested statements -/

theorem finishes_within (bound : List Token) : ∀ s : State, s.rest.length ≤ bound.length →
    Finishes s (statementWithin bound) .statement (Shorter s) ∧
      Finishes s (declarationWithin bound) .declaration (ShorterIfAny s) := by
  induction bound with
  | nil =>
    intro s hle
    have hnil : s.rest = [] := List.length_eq_zero_iff.1 (Nat.le_zero.1 hle)
    -- nothing is nested at the end, so whatever is put for what is nested finishes
    have hstatement : ∀ s : State, s.rest.length < 0 →
        Finishes s (statementWithin []) .statement fun _ _ => True :=
      fun _ h => absurd h (Nat.not_lt_zero _)
    have hdeclaration : ∀ s : State, s.rest.length < 0 →
        Finishes s (declarationWithin []) .declaration (ShorterIfAny s) :=
      fun _ h => absurd h (Nat.not_lt_zero _)
    constructor
    · intro hend
      have h : Finishes s (statementOf _ _) .statement (Shorter s) :=
        (finishes_statementOf hstatement hdeclaration hle).nested
      have h := h hend
      rwa [statementOf_of_nil _ _ hend hnil] at h
    · intro hend
      have h : Finishes s (recovering _) .declaration (ShorterIfAny s) :=
        (finishes_recovering (finishes_declarationOf hstatement hdeclaration hle)).nested
      have h := h hend
      rw [recovering_congr (declarationOf_of_nil _ _ hend hnil)] at h
      rwa [declarationWithin]
  | cons t bound ih =>
    intro s hle
    have hstatement : ∀ s : State, s.rest.length < bound.length + 1 →
        Finishes s (statementWithin bound) .statement fun _ _ => True :=
      fun s h => (ih s (Nat.le_of_lt_succ h)).1.mono fun _ _ _ _ => trivial
    have hdeclaration : ∀ s : State, s.rest.length < bound.length + 1 →
        Finishes s (declarationWithin bound) .declaration (ShorterIfAny s) :=
      fun s h => (ih s (Nat.le_of_lt_succ h)).2
    rw [statementWithin, declarationWithin]
    constructor
    · exact (finishes_statementOf hstatement hdeclaration hle).nested
    · exact (finishes_recovering (finishes_declarationOf hstatement hdeclaration hle)).nested

theorem finishes_declaration : Finishes s declaration .declaration (ShorterIfAny s) :=
  (finishes_within s.rest s (Nat.le_refl _)).2

/-! ## Whole inputs -/

theorem finishes_declarations : Finishes s declarations .declarations fun _ _ => True := by
  refine (finishes_repeatFrom #[] (fun program n => ?_) fun program s₁ _ => ?_).bind
    fun _ _ _ _ => .pure trivial
  · exact succeeds_atEnd.bind (.pure none)
  refine finishes_atEnd.bind fun e s₂ _ h => ?_
  obtain ⟨rfl, rfl⟩ := h
  cases hstop : s₂.rest.isEmpty with
  | true => exact .pure fun h => absurd rfl h
  | false =>
    exact finishes_declaration.bind fun _ _ _ h => .pure fun _ =>
      h (List.isEmpty_eq_false_iff.1 hstop)

theorem finishes_onlyExpression : Finishes s onlyExpression .onlyExpression fun _ _ => True := by
  refine finishes_expression.bind fun e _ _ _ => ?_
  refine finishes_atEnd.bind fun b _ _ _ => ?_
  cases b with
  | true => exact .pure trivial
  | false => exact finishes_fail _ _

end Lox.Parse
