import Lox.Parse.Program

set_option autoImplicit false

/-! # The rules as they are written down

A `Parser` is a function, and nothing shows in it of how it is put together. Here the rules of the
grammar are written down as data (`Rule`), from single steps (`Step`), one rule behind the other,
loops, and the rules by name that are nested in themselves. Unlike the parsers they have no bounds: no
loop is told how often it may go on, and no rule how deep it may be nested. Nor is it said how the
tokens are kept that are to be read. What such a rule does, if it comes to an end, is said in
`Lox.Proofs.Progress.Unfolding`. -/

namespace Lox.Parse

/-- What is done at once: one token is read at most. -/
inductive Step : Type → Type 1
  | pure {α : Type} (a : α) : Step α
  | fail {α : Type} (problem : SyntaxProblem) : Step α
  | peek : Step Token
  | advance : Step Unit
  | atEnd : Step Bool
  | nextIs (kind : Kind) : Step Bool
  | takeIf (test : Kind → Bool) : Step (Option Token)
  | freshId : Step RefId
  | reportAt (token : Token) (problem : SyntaxProblem) : Step Unit

/-- The rules that are nested in themselves, with what they read. -/
inductive Nested : Type → Type
  | expression : Nested Expr
  | statement : Nested Stmt
  | declaration : Nested (Option Stmt)

/-- A rule of the grammar, written down. -/
inductive Rule : Type → Type 1
  | step {α : Type} (step : Step α) : Rule α
  /-- One rule behind the other. -/
  | bind {α β : Type} (rule : Rule α) (k : α → Rule β) : Rule β
  /-- A loop, which goes on as long as its step gives something. -/
  | repeatFrom {α : Type} (a : α) (step : α → Rule (Option α)) : Rule α
  /-- A rule whose mistake is reported, and what is made of its tree, if there is one. -/
  | recovering {α β : Type} (rule : Rule α) (f : Option α → β) : Rule β
  | nested {α : Type} (name : Nested α) : Rule α

namespace Rule

instance : Monad Rule where
  pure a := .step (.pure a)
  bind := .bind

variable {α : Type}

/-! ## Steps, lists and names -/

def fail (problem : SyntaxProblem) : Rule α := .step (.fail problem)

def peek : Rule Token := .step .peek

def advance : Rule Unit := .step .advance

def atEnd : Rule Bool := .step .atEnd

def nextIs (kind : Kind) : Rule Bool := .step (.nextIs kind)

def takeIf (test : Kind → Bool) : Rule (Option Token) := .step (.takeIf test)

def freshId : Rule RefId := .step .freshId

def reportAt (token : Token) (problem : SyntaxProblem) : Rule Unit := .step (.reportAt token problem)

def report (problem : SyntaxProblem) : Rule Unit := do reportAt (← peek) problem

def take? (kind : Kind) : Rule (Option Token) := takeIf kind.sameAs

def expect (kind : Kind) (problem : SyntaxProblem) : Rule Token := do
  match ← take? kind with
  | some t => return t
  | none => fail problem

def commaList (tooMany : SyntaxProblem) (item : Rule α) : Rule (List α) := do
  let first ← item
  let items ← repeatFrom #[first] fun items => do
    match ← take? .comma with
    | none => return none
    | some _ =>
      if maxArity ≤ items.size then report tooMany
      return some (items.push (← item))
  return items.toList

def expression : Rule Expr := .nested .expression

def statement : Rule Stmt := .nested .statement

def declaration : Rule (Option Stmt) := .nested .declaration

/-! ## Expressions -/

def primary : Rule Expr := do
  let token ← peek
  match token.kind with
  | .falseKw => advance; return .literal (.bool false)
  | .trueKw => advance; return .literal (.bool true)
  | .nilKw => advance; return .literal .nil
  | .number x => advance; return .literal (.number x)
  | .string s => advance; return .literal (.string s)
  | .thisKw => advance; return .thisRef (← freshId) token
  | .superKw =>
    advance
    let _ ← expect .dot .noDotAfterSuper
    let method ← expect .identifier .noSuperclassMethodName
    return .superRef (← freshId) token method
  | .identifier => advance; return .var (← freshId) token
  | .leftParen =>
    advance
    let e ← expression
    let _ ← expect .rightParen .noParenAfterExpression
    return .grouping e
  | _ => fail .noExpression

def finishCall (callee : Expr) : Rule Expr := do
  let arguments ← if ← nextIs .rightParen then pure [] else commaList .tooManyArguments expression
  let paren ← expect .rightParen .noParenAfterArguments
  return .call callee paren arguments

def call : Rule Expr := do
  repeatFrom (← primary) fun e => do
    match (← peek).kind with
    | .leftParen => advance; return some (← finishCall e)
    | .dot => advance; return some (.get e (← expect .identifier .noPropertyName))
    | _ => return none

def unary : Rule Expr := do
  let operators ← repeatFrom [] fun operators => do
    return (← takeIf isPrefixOperator).map (· :: operators)
  let operand ← call
  return operators.foldl (fun e operator => .unary operator e) operand

def chain (operand : Rule Expr) (level : Level) : Rule Expr := do
  repeatFrom (← operand) fun left => do
    match ← takeIf fun kind => level.operators.any kind.sameAs with
    | none => return none
    | some operator => return some (level.node left operator (← operand))

def operation : Rule Expr := levels.foldl chain unary

def assignment : Rule Expr := do
  let target ← operation
  match ← take? .equal with
  | none => return target
  | some equals =>
    let value ← expression
    match target with
    | .var _ name => return .assign (← freshId) name value
    | .get object name => return .set object name value
    | _ =>
      reportAt equals .invalidTarget
      return target

/-! ## Parts of statements -/

def upToBrace (item : Array α → Rule (Array α)) : Rule (List α) := do
  let items ← repeatFrom #[] fun items => do
    if (← nextIs .rightBrace) || (← atEnd) then return none
    return some (← item items)
  return items.toList

def block : Rule (List Stmt) := do
  let body ← upToBrace fun body => return body ++ (← declaration).toList
  let _ ← expect .rightBrace .noBraceAfterBlock
  return body

def function (sort : FunctionSort) : Rule FunctionDef := do
  let name ← expect .identifier (.noFunctionName sort)
  let _ ← expect .leftParen (.noParenAfterFunctionName sort)
  let params ←
    if ← nextIs .rightParen then pure []
    else commaList .tooManyParameters (expect .identifier .noParameterName)
  let _ ← expect .rightParen .noParenAfterParameters
  let _ ← expect .leftBrace (.noBraceBeforeBody sort)
  let body ← block
  return ⟨name, params, body⟩

def varDeclaration : Rule Stmt := do
  let name ← expect .identifier .noVariableName
  let initializer ← if (← take? .equal).isSome then some <$> expression else pure none
  let _ ← expect .semicolon .noSemicolonAfterVariable
  return .var name initializer

def expressionStatement : Rule Stmt := do
  let value ← expression
  let _ ← expect .semicolon .noSemicolonAfterExpression
  return .expression value

def expressionUnless (kind : Kind) : Rule (Option Expr) := do
  if ← nextIs kind then return none else some <$> expression

/-! ## Statements -/

def forInitializer : Rule (Option Stmt) := do
  match (← peek).kind with
  | .semicolon => advance; return none
  | .varKw => advance; some <$> varDeclaration
  | _ => some <$> expressionStatement

def forStatement : Rule Stmt := do
  let _ ← expect .leftParen .noParenAfterFor
  let initializer ← forInitializer
  let condition ← expressionUnless .semicolon
  let _ ← expect .semicolon .noSemicolonAfterLoopCondition
  let increment ← expressionUnless .rightParen
  let _ ← expect .rightParen .noParenAfterForClauses
  let body ← statement
  return .forLoop initializer condition increment body

def ifStatement : Rule Stmt := do
  let _ ← expect .leftParen .noParenAfterIf
  let condition ← expression
  let _ ← expect .rightParen .noParenAfterIfCondition
  let thenBranch ← statement
  let elseBranch ← if (← take? .elseKw).isSome then some <$> statement else pure none
  return .ifElse condition thenBranch elseBranch

def whileStatement : Rule Stmt := do
  let _ ← expect .leftParen .noParenAfterWhile
  let condition ← expression
  let _ ← expect .rightParen .noParenAfterWhileCondition
  let body ← statement
  return .loop condition body

def returnStatement (keyword : Token) : Rule Stmt := do
  let value ← expressionUnless .semicolon
  let _ ← expect .semicolon .noSemicolonAfterReturnValue
  return .ret keyword value

def breakStatement (keyword : Token) : Rule Stmt := do
  let _ ← expect .semicolon .noSemicolonAfterBreak
  return .brk keyword

def printStatement : Rule Stmt := do
  let value ← expression
  let _ ← expect .semicolon .noSemicolonAfterValue
  return .print value

/-- A statement, as it is written down. -/
def statementBody : Rule Stmt := do
  let token ← peek
  match token.kind with
  | .forKw => advance; forStatement
  | .ifKw => advance; ifStatement
  | .whileKw => advance; whileStatement
  | .returnKw => advance; returnStatement token
  | .breakKw => advance; breakStatement token
  | .leftBrace => advance; .block <$> block
  | .printKw => advance; printStatement
  | _ => expressionStatement

/-! ## Declarations -/

def classDeclaration : Rule Stmt := do
  let name ← expect .identifier .noClassName
  let superclass ←
    if (← take? .less).isSome then
      let name ← expect .identifier .noSuperclassName
      pure (some ⟨← freshId, name⟩)
    else pure none
  let _ ← expect .leftBrace .noBraceBeforeClassBody
  let methods ← upToBrace fun methods => return methods.push (← function .method)
  let _ ← expect .rightBrace .noBraceAfterClassBody
  return .classDef name superclass methods

/-- A declaration or a statement, as it is written down. -/
def declarationBody : Rule Stmt := do
  let token ← peek
  match token.kind with
  | .classKw => advance; classDeclaration
  | .funKw => advance; .function <$> function .function
  | .varKw => advance; varDeclaration
  | _ => statementBody

/-! ## Whole inputs -/

/-- All declarations up to the end of input. -/
def declarations : Rule (List Stmt) := do
  let program ← repeatFrom #[] fun program => do
    if ← atEnd then return none
    return some (program ++ (← declaration).toList)
  return program.toList

/-- An expression and nothing behind it. -/
def onlyExpression : Rule Expr := do
  let e ← expression
  if ← atEnd then return e else fail .noEndOfExpression

end Rule

/-- What a name stands for. -/
def Nested.body : {α : Type} → Nested α → Rule α
  | _, .expression => Rule.assignment
  | _, .statement => Rule.statementBody
  | _, .declaration => .recovering Rule.declarationBody id

end Lox.Parse
