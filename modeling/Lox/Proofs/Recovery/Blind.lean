import Lox.Parse.Program
import Lox.Proofs.Recovery.Expressions

set_option autoImplicit false

/-! # What was reported before

No rule looks at what has been reported: with other mistakes reported before it does the same, and
they are there besides when it has ended (`Blind`). -/

namespace Lox.Parse

variable {α β : Type}

/-- A state in which more was reported before. -/
def State.after (reported : Array Mistake) (s : State) : State :=
  { s with reported := reported ++ s.reported }

/-- A result with another state. -/
def endingIn (f : State → State) :
    EStateM.Result Failure State α → EStateM.Result Failure State α
  | .ok a s => .ok a (f s)
  | .error failure s => .error failure (f s)

/-- A rule that does not look at what was reported before. -/
def Blind (p : Parser α) : Prop :=
  ∀ reported s, p (s.after reported) = endingIn (State.after reported) (p s)

namespace Blind

variable {p : Parser α}

theorem pure (a : α) : Blind (Pure.pure a : Parser α) := fun _ _ => rfl

theorem bind {k : α → Parser β} (hp : Blind p) (hk : ∀ a, Blind (k a)) : Blind (p >>= k) := by
  intro reported s
  simp only [Bind.bind, EStateM.bind]
  rw [hp]
  cases p s with
  | error failure s' => rfl
  | ok a s' => exact hk a reported s'

theorem map {f : α → β} (hp : Blind p) : Blind (f <$> p) := hp.bind fun a => .pure (f a)

/-- A rule that does the same in every setting does so if only more was reported before. -/
theorem of_agrees {P : Setting → State → α → State → Prop} (h : ∀ c s, Agrees c s p p (P c s)) :
    Blind p := by
  intro reported s
  have hamid : ∀ s' : State, s'.amid ⟨reported, [], s'.final⟩ = s'.after reported := by
    intro s'
    simp [State.amid, State.after]
  -- a setting with nothing behind and with the same end
  have h := h ⟨reported, [], s.final⟩ s (.inl ⟨rfl, rfl⟩)
  rw [hamid] at h
  cases hrun : p s with
  | error failure s' =>
    rw [hrun] at h
    obtain ⟨heq, hpass⟩ := h
    rw [heq, ← hpass.final, hamid]
    rfl
  | ok a s' =>
    rw [hrun] at h
    obtain ⟨heq, hpass, -⟩ := h
    rw [heq, ← hpass.final, hamid]
    rfl

end Blind

/-! ## Steps -/

theorem blind_peek : Blind peek := .of_agrees fun _ _ => agrees_peek

theorem blind_fail (problem : SyntaxProblem) : Blind (fail problem : Parser α) :=
  blind_peek.bind fun _ _ _ => rfl

theorem blind_advance : Blind advance := blind_peek.bind fun _ _ _ => rfl

theorem blind_atEnd : Blind atEnd := blind_peek.bind fun _ _ _ => rfl

theorem blind_nextIs (kind : Kind) : Blind (nextIs kind) := .of_agrees fun _ _ => agrees_nextIs kind

theorem blind_freshId : Blind freshId := .of_agrees fun _ _ => agrees_freshId

theorem blind_take? (kind : Kind) : Blind (take? kind) := by
  refine blind_peek.bind fun _ reported s => ?_
  obtain ⟨rest, final, nextId, reported'⟩ := s
  cases rest with
  | nil => rfl
  | cons t ts =>
    show (if kind.sameAs t.kind then _ else _) = endingIn _ (if kind.sameAs t.kind then _ else _)
    cases kind.sameAs t.kind <;> rfl

theorem blind_expect (kind : Kind) (problem : SyntaxProblem) : Blind (expect kind problem) := by
  refine (blind_take? kind).bind fun t => ?_
  cases t with
  | none => exact blind_fail problem
  | some t => exact .pure t

theorem blind_repeatOver {step : α → Parser (Option α)} (hstep : ∀ a, Blind (step a)) :
    ∀ (bound : List Token) (a : α), Blind (repeatOver step bound a) := by
  intro bound
  induction bound with
  | nil => exact .pure
  | cons _ bound ih =>
    intro a
    refine (hstep a).bind fun a? => ?_
    cases a? with
    | none => exact .pure a
    | some a' => exact ih a'

theorem blind_repeatFrom {step : α → Parser (Option α)} (hstep : ∀ a, Blind (step a)) (a : α) :
    Blind (repeatFrom a step) :=
  fun reported s => blind_repeatOver hstep s.rest a reported s

theorem blind_recovering {rule : Parser α} (hrule : Blind rule) : Blind (recovering rule) := by
  intro reported s
  unfold recovering
  rw [hrule]
  cases rule s with
  | ok a s' => rfl
  | error failure s' =>
    cases failure with
    | outOfTokens => rfl
    | mistake m =>
      have hpeek : Blind (do let _ ← peek; return (none : Option α)) :=
        blind_peek.bind fun _ => .pure none
      have hpush : (s'.after reported).reported.push m = reported ++ s'.reported.push m := by
        simp [State.after]
      dsimp only [endingIn]
      rw [hpush]
      exact hpeek reported { s' with rest := resume s'.rest, reported := s'.reported.push m }

/-! ## Parts of statements -/

theorem blind_expression : Blind expression := .of_agrees fun _ _ => agrees_expression

theorem blind_parameters :
    Blind (commaList .tooManyParameters (expect .identifier .noParameterName)) := by
  refine .of_agrees fun _ _ => agrees_commaList _ fun _ _ => ?_
  exact (agrees_expect rfl _).mono fun _ _ _ => trivial

theorem blind_expressionUnless (kind : Kind) : Blind (expressionUnless kind) := by
  refine (blind_nextIs kind).bind fun b => ?_
  cases b with
  | true => exact .pure none
  | false => exact blind_expression.map

theorem blind_varDeclaration : Blind varDeclaration := by
  refine (blind_expect _ _).bind fun name => ?_
  refine (blind_take? _).bind fun equals => ?_
  have hend : ∀ e, Blind (do
      let _ ← expect .semicolon .noSemicolonAfterVariable
      return Stmt.var name e) := by
    intro e
    exact (blind_expect _ _).bind fun _ => .pure _
  cases equals with
  | none => exact hend none
  | some _ => exact blind_expression.map.bind hend

theorem blind_expressionStatement : Blind expressionStatement := by
  refine blind_expression.bind fun _ => ?_
  refine (blind_expect _ _).bind fun _ => ?_
  exact .pure _

theorem blind_forInitializer : Blind forInitializer := by
  refine blind_peek.bind fun token => ?_
  split
  · exact blind_advance.bind fun _ => .pure none
  · exact blind_advance.bind fun _ => blind_varDeclaration.map
  · exact blind_expressionStatement.map

theorem blind_upToBrace {item : Array α → Parser (Array α)} (hitem : ∀ items, Blind (item items)) :
    Blind (upToBrace item) := by
  refine Blind.bind (blind_repeatFrom (fun items => ?_) #[]) fun items => .pure items.toList
  refine (blind_nextIs _).bind fun b => ?_
  refine blind_atEnd.bind fun e => ?_
  cases b || e with
  | true => exact .pure none
  | false => exact (hitem items).bind fun _ => .pure _

/-! ## Statements -/

section

variable {statement : Parser Stmt} {declaration : Parser (Option Stmt)}
  (hstatement : Blind statement) (hdeclaration : Blind declaration)

include hdeclaration in
theorem blind_block : Blind (block declaration) := by
  refine (blind_upToBrace fun _ => hdeclaration.bind fun _ => .pure _).bind fun _ => ?_
  refine (blind_expect _ _).bind fun _ => ?_
  exact .pure _

include hdeclaration in
theorem blind_function (sort : FunctionSort) : Blind (function sort declaration) := by
  refine (blind_expect _ _).bind fun name => ?_
  refine (blind_expect _ _).bind fun _ => ?_
  refine (blind_nextIs _).bind fun b => ?_
  have hbody : ∀ params, Blind (do
      let _ ← expect .rightParen .noParenAfterParameters
      let _ ← expect .leftBrace (.noBraceBeforeBody sort)
      return FunctionDef.mk name params (← block declaration)) := by
    intro params
    refine (blind_expect _ _).bind fun _ => ?_
    refine (blind_expect _ _).bind fun _ => ?_
    refine (blind_block hdeclaration).bind fun _ => ?_
    exact .pure _
  cases b with
  | true => exact hbody []
  | false => exact blind_parameters.bind hbody

include hstatement in
theorem blind_forStatement : Blind (forStatement statement) := by
  refine (blind_expect _ _).bind fun _ => ?_
  refine blind_forInitializer.bind fun _ => ?_
  refine (blind_expressionUnless _).bind fun _ => ?_
  refine (blind_expect _ _).bind fun _ => ?_
  refine (blind_expressionUnless _).bind fun _ => ?_
  refine (blind_expect _ _).bind fun _ => ?_
  refine hstatement.bind fun _ => ?_
  exact .pure _

include hstatement in
theorem blind_ifStatement : Blind (ifStatement statement) := by
  refine (blind_expect _ _).bind fun _ => ?_
  refine blind_expression.bind fun _ => ?_
  refine (blind_expect _ _).bind fun _ => ?_
  refine hstatement.bind fun _ => ?_
  refine (blind_take? _).bind fun word => ?_
  cases word with
  | none => exact .pure _
  | some _ => exact hstatement.map.bind fun _ => .pure _

include hstatement in
theorem blind_whileStatement : Blind (whileStatement statement) := by
  refine (blind_expect _ _).bind fun _ => ?_
  refine blind_expression.bind fun _ => ?_
  refine (blind_expect _ _).bind fun _ => ?_
  refine hstatement.bind fun _ => ?_
  exact .pure _

theorem blind_returnStatement (keyword : Token) : Blind (returnStatement keyword) := by
  refine (blind_expressionUnless _).bind fun _ => ?_
  refine (blind_expect _ _).bind fun _ => ?_
  exact .pure _

theorem blind_breakStatement (keyword : Token) : Blind (breakStatement keyword) :=
  (blind_expect _ _).bind fun _ => .pure _

theorem blind_printStatement : Blind printStatement := by
  refine blind_expression.bind fun _ => ?_
  refine (blind_expect _ _).bind fun _ => ?_
  exact .pure _

include hdeclaration in
theorem blind_classDeclaration : Blind (classDeclaration declaration) := by
  refine (blind_expect _ _).bind fun name => ?_
  refine (blind_take? _).bind fun less => ?_
  have hbody : ∀ superclass, Blind (do
      let _ ← expect .leftBrace .noBraceBeforeClassBody
      let methods ← upToBrace fun methods =>
        return methods.push (← function .method declaration)
      let _ ← expect .rightBrace .noBraceAfterClassBody
      return Stmt.classDef name superclass methods) := by
    intro superclass
    refine (blind_expect _ _).bind fun _ => ?_
    have hmethods : ∀ methods : Array FunctionDef,
        Blind (return methods.push (← function .method declaration)) := by
      intro methods
      exact (blind_function hdeclaration .method).bind fun _ => .pure _
    refine (blind_upToBrace hmethods).bind fun _ => ?_
    refine (blind_expect _ _).bind fun _ => ?_
    exact .pure _
  cases less with
  | none => exact hbody none
  | some _ =>
    refine (blind_expect _ _).bind fun _ => ?_
    refine blind_freshId.bind fun _ => ?_
    exact hbody _

include hstatement hdeclaration

theorem blind_statementOf : Blind (statementOf statement declaration) := by
  refine blind_peek.bind fun token => ?_
  split
  · exact blind_advance.bind fun _ => blind_forStatement hstatement
  · exact blind_advance.bind fun _ => blind_ifStatement hstatement
  · exact blind_advance.bind fun _ => blind_whileStatement hstatement
  · exact blind_advance.bind fun _ => blind_returnStatement token
  · exact blind_advance.bind fun _ => blind_breakStatement token
  · exact blind_advance.bind fun _ => (blind_block hdeclaration).map
  · exact blind_advance.bind fun _ => blind_printStatement
  · exact blind_expressionStatement

theorem blind_declarationOf : Blind (declarationOf statement declaration) := by
  refine blind_peek.bind fun token => ?_
  split
  · exact blind_advance.bind fun _ => blind_classDeclaration hdeclaration
  · exact blind_advance.bind fun _ => (blind_function hdeclaration .function).map
  · exact blind_advance.bind fun _ => blind_varDeclaration
  · exact blind_statementOf hstatement hdeclaration

end

theorem blind_within (bound : List Token) :
    Blind (statementWithin bound) ∧ Blind (declarationWithin bound) := by
  induction bound with
  | nil => exact ⟨blind_fail _, blind_recovering (blind_fail _)⟩
  | cons t bound ih =>
    obtain ⟨hstatement, hdeclaration⟩ := ih
    exact ⟨blind_statementOf hstatement hdeclaration,
      blind_recovering (blind_declarationOf hstatement hdeclaration)⟩

theorem blind_declaration : Blind declaration :=
  fun reported s => (blind_within s.rest).2 reported s

end Lox.Parse
