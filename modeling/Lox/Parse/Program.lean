import Lox.Parse.Expression

set_option autoImplicit false

/-! # Parsing programs

Declarations and statements. When a declaration fails, the failure is reported and the parse goes
on at the next place where a statement is likely to begin (`resume`), so that one mistake hides
neither the statements behind it nor their mistakes.

Rules that contain statements are given the parsers of statements and declarations. -/

namespace Lox.Parse

/-! ## Recovery -/

/-- The words with which statements begin. -/
def startsStatement (kind : Kind) : Bool :=
  [Kind.classKw, .funKw, .varKw, .forKw, .ifKw, .whileKw, .printKw, .returnKw, .breakKw].any
    kind.sameAs

/-- The tokens from the next likely start of a statement on, once a token has been dropped: it is
    behind a semicolon or at a word with which statements begin. -/
def resumeAfter (dropped : Token) : List Token → List Token
  | [] => []
  | t :: ts =>
    if dropped.kind.sameAs .semicolon || startsStatement t.kind then t :: ts
    else resumeAfter t ts

/-- Drop one token at least. -/
def resume : List Token → List Token
  | [] => []
  | t :: ts => resumeAfter t ts

/-- Run a rule; report its mistake and drop the tokens that belong to it. -/
def recovering {α : Type} (rule : Parser α) : Parser (Option α) := fun s =>
  match rule s with
  | .ok a s => .ok (some a) s
  | .error (.mistake m) s =>
    (do let _ ← peek; return none)
      { s with rest := resume s.rest, reported := s.reported.push m }
  | .error .outOfTokens s => .error .outOfTokens s

/-! ## Parts of statements -/

/-- Repeat an item up to a closing brace or the end of input. -/
def upToBrace {α : Type} (item : Array α → Parser (Array α)) : Parser (List α) := do
  let items ← repeatFrom #[] fun items => do
    if (← nextIs .rightBrace) || (← atEnd) then return none
    return some (← item items)
  return items.toList

/-- The declarations of a block up to its closing brace. -/
def block (declaration : Parser (Option Stmt)) : Parser (List Stmt) := do
  let body ← upToBrace fun body => return body ++ (← declaration).toList
  let _ ← expect .rightBrace .noBraceAfterBlock
  return body

/-- A function from its name on. -/
def function (sort : FunctionSort) (declaration : Parser (Option Stmt)) : Parser FunctionDef := do
  let name ← expect .identifier (.noFunctionName sort)
  let _ ← expect .leftParen (.noParenAfterFunctionName sort)
  let params ←
    if ← nextIs .rightParen then pure []
    else commaList .tooManyParameters (expect .identifier .noParameterName)
  let _ ← expect .rightParen .noParenAfterParameters
  let _ ← expect .leftBrace (.noBraceBeforeBody sort)
  let body ← block declaration
  return ⟨name, params, body⟩

/-- A variable declaration from its name on. -/
def varDeclaration : Parser Stmt := do
  let name ← expect .identifier .noVariableName
  let initializer ← if (← take? .equal).isSome then some <$> expression else pure none
  let _ ← expect .semicolon .noSemicolonAfterVariable
  return .var name initializer

def expressionStatement : Parser Stmt := do
  let value ← expression
  let _ ← expect .semicolon .noSemicolonAfterExpression
  return .expression value

/-- An expression, unless a token of a kind comes first. -/
def expressionUnless (kind : Kind) : Parser (Option Expr) := do
  if ← nextIs kind then return none else some <$> expression

/-! ## Statements -/

/-- The initializer of a `for` loop with its semicolon. -/
def forInitializer : Parser (Option Stmt) := do
  match (← peek).kind with
  | .semicolon => advance; return none
  | .varKw => advance; some <$> varDeclaration
  | _ => some <$> expressionStatement

/-- A `for` loop from its parenthesis on. -/
def forStatement (statement : Parser Stmt) : Parser Stmt := do
  let _ ← expect .leftParen .noParenAfterFor
  let initializer ← forInitializer
  let condition ← expressionUnless .semicolon
  let _ ← expect .semicolon .noSemicolonAfterLoopCondition
  let increment ← expressionUnless .rightParen
  let _ ← expect .rightParen .noParenAfterForClauses
  let body ← statement
  return .forLoop initializer condition increment body

/-- An `if` statement from its parenthesis on. An `else` belongs to the nearest `if`. -/
def ifStatement (statement : Parser Stmt) : Parser Stmt := do
  let _ ← expect .leftParen .noParenAfterIf
  let condition ← expression
  let _ ← expect .rightParen .noParenAfterIfCondition
  let thenBranch ← statement
  let elseBranch ← if (← take? .elseKw).isSome then some <$> statement else pure none
  return .ifElse condition thenBranch elseBranch

/-- A `while` loop from its parenthesis on. -/
def whileStatement (statement : Parser Stmt) : Parser Stmt := do
  let _ ← expect .leftParen .noParenAfterWhile
  let condition ← expression
  let _ ← expect .rightParen .noParenAfterWhileCondition
  let body ← statement
  return .loop condition body

/-- The rest of a statement behind its first word. -/
def returnStatement (keyword : Token) : Parser Stmt := do
  let value ← expressionUnless .semicolon
  let _ ← expect .semicolon .noSemicolonAfterReturnValue
  return .ret keyword value

def breakStatement (keyword : Token) : Parser Stmt := do
  let _ ← expect .semicolon .noSemicolonAfterBreak
  return .brk keyword

def printStatement : Parser Stmt := do
  let value ← expression
  let _ ← expect .semicolon .noSemicolonAfterValue
  return .print value

/-- A statement that is no declaration. -/
def statementOf (statement : Parser Stmt) (declaration : Parser (Option Stmt)) : Parser Stmt := do
  let token ← peek
  match token.kind with
  | .forKw => advance; forStatement statement
  | .ifKw => advance; ifStatement statement
  | .whileKw => advance; whileStatement statement
  | .returnKw => advance; returnStatement token
  | .breakKw => advance; breakStatement token
  | .leftBrace => advance; .block <$> block declaration
  | .printKw => advance; printStatement
  | _ => expressionStatement

/-! ## Declarations -/

/-- A class from its name on. -/
def classDeclaration (declaration : Parser (Option Stmt)) : Parser Stmt := do
  let name ← expect .identifier .noClassName
  let superclass ←
    if (← take? .less).isSome then
      let name ← expect .identifier .noSuperclassName
      pure (some ⟨← freshId, name⟩)
    else pure none
  let _ ← expect .leftBrace .noBraceBeforeClassBody
  let methods ← upToBrace fun methods => return methods.push (← function .method declaration)
  let _ ← expect .rightBrace .noBraceAfterClassBody
  return .classDef name superclass methods

/-- A declaration or a statement. -/
def declarationOf (statement : Parser Stmt) (declaration : Parser (Option Stmt)) : Parser Stmt := do
  let token ← peek
  match token.kind with
  | .classKw => advance; classDeclaration declaration
  | .funKw => advance; .function <$> function .function declaration
  | .varKw => advance; varDeclaration
  | _ => statementOf statement declaration

mutual

/-- A statement nested at most as deep as a list of tokens is long. -/
def statementWithin : List Token → Parser Stmt
  | [] => fail .noExpression
  | _ :: bound => statementOf (statementWithin bound) (declarationWithin bound)

/-- A declaration nested at most as deep as a list of tokens is long; nothing if it failed and the
    parse has gone on behind it. -/
def declarationWithin : List Token → Parser (Option Stmt)
  | [] => recovering (fail .noExpression)
  | _ :: bound => recovering (declarationOf (statementWithin bound) (declarationWithin bound))

end

/-- A declaration. -/
def declaration : Parser (Option Stmt) := fun s => declarationWithin s.rest s

/-! ## Whole inputs -/

/-- All declarations up to the end of input, those that failed left out. -/
def declarations : Parser (List Stmt) := do
  let program ← repeatFrom #[] fun program => do
    if ← atEnd then return none
    return some (program ++ (← declaration).toList)
  return program.toList

/-- An expression and nothing behind it. -/
def onlyExpression : Parser Expr := do
  let e ← expression
  if ← atEnd then return e else fail .noEndOfExpression

/-- What a parse leads to: a tree, all mistakes in the order of their discovery, and the identity
    that the next parse may start from. -/
structure Outcome (α : Type) where
  tree : α
  errors : List Error
  nextId : RefId
  /-- Whether the parse looked for a token where there is none. -/
  ranOut : Bool

/-- The mistakes reported in a state. -/
def State.errors (s : State) : List Error := s.reported.toList.map Mistake.error

/-- Parse a program. The tree holds every statement that was read without a failure. -/
def program (tokens : List Token) (firstId : RefId) : Outcome (List Stmt) :=
  match declarations (.start tokens firstId) with
  | .ok statements s => ⟨statements, s.errors, s.nextId, false⟩
  | .error (.mistake m) s => ⟨[], s.errors ++ [m.error], s.nextId, false⟩
  | .error .outOfTokens s => ⟨[], s.errors, s.nextId, true⟩

/-- Parse a single expression. There may be a tree although there are mistakes. -/
def singleExpression (tokens : List Token) (firstId : RefId) : Outcome (Option Expr) :=
  match onlyExpression (.start tokens firstId) with
  | .ok e s => ⟨some e, s.errors, s.nextId, false⟩
  | .error (.mistake m) s => ⟨none, s.errors ++ [m.error], s.nextId, false⟩
  | .error .outOfTokens s => ⟨none, s.errors, s.nextId, true⟩

end Lox.Parse
