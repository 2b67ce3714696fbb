import Lox.Parse.Basic

set_option autoImplicit false

/-! # Parsing expressions

From the tightest to the loosest rule: primary expressions, calls and properties, operators in
front, six levels of left-associative operators, assignments. A rule that needs whole expressions
(in parentheses, as arguments, behind an equals sign) is given the parser of these, `inner`. -/

namespace Lox.Parse

/-! ## Primary expressions -/

/-- A constant, `this`, a method of the superclass, a name, or an expression in parentheses. -/
def primary (inner : Parser Expr) : Parser Expr := do
  let token ← peek
  match token.kind with
  | .falseKw => advance; return .literal (.bool false)
  | .trueKw => advance; return .literal (.bool true)
  | .nilKw => advance; return .literal .nil
  | .number x => advance; return .literal (.number x)
  | .string s => advance; return .literal (.string s)
  | .thisKw => advance; return .thisRef (← freshId) token
  | .superKw =>
    advance
    let _ ← expect .dot .noDotAfterSuper
    let method ← expect .identifier .noSuperclassMethodName
    return .superRef (← freshId) token method
  | .identifier => advance; return .var (← freshId) token
  | .leftParen =>
    advance
    let e ← inner
    let _ ← expect .rightParen .noParenAfterExpression
    return .grouping e
  | _ => fail .noExpression

/-! ## Calls and properties -/

/-- The arguments of a call up to its closing parenthesis. -/
def finishCall (inner : Parser Expr) (callee : Expr) : Parser Expr := do
  let arguments ← if ← nextIs .rightParen then pure [] else commaList .tooManyArguments inner
  let paren ← expect .rightParen .noParenAfterArguments
  return .call callee paren arguments

/-- A primary expression with any number of calls and properties behind it. -/
def call (inner : Parser Expr) : Parser Expr := do
  repeatFrom (← primary inner) fun e => do
    match (← peek).kind with
    | .leftParen => advance; return some (← finishCall inner e)
    | .dot => advance; return some (.get e (← expect .identifier .noPropertyName))
    | _ => return none

/-! ## Operators -/

/-- The operators that stand in front of their operand. -/
def isPrefixOperator (kind : Kind) : Bool := kind.sameAs .bang || kind.sameAs .minus

/-- Any number of operators in front of a call. The last of them is applied first. -/
def unary (inner : Parser Expr) : Parser Expr := do
  let operators ← repeatFrom [] fun operators => do
    return (← takeIf isPrefixOperator).map (· :: operators)
  let operand ← call inner
  return operators.foldl (fun e operator => .unary operator e) operand

/-- A level of left-associative operators. -/
structure Level where
  operators : List Kind
  node : Expr → Token → Expr → Expr

/-- The levels, the tightest first. -/
def levels : List Level :=
  [⟨[.star, .slash], .binary⟩,
   ⟨[.minus, .plus], .binary⟩,
   ⟨[.greater, .greaterEqual, .less, .lessEqual], .binary⟩,
   ⟨[.bangEqual, .equalEqual], .binary⟩,
   ⟨[.andKw], .logical⟩,
   ⟨[.orKw], .logical⟩]

/-- Operands with operators of one level between them, taken together from the left. -/
def Level.chain (operand : Parser Expr) (level : Level) : Parser Expr := do
  repeatFrom (← operand) fun left => do
    match ← takeIf fun kind => level.operators.any kind.sameAs with
    | none => return none
    | some operator => return some (level.node left operator (← operand))

/-- An expression without an assignment at its top. -/
def operation (inner : Parser Expr) : Parser Expr := levels.foldl Level.chain (unary inner)

/-! ## Assignments -/

/-- An operation, or an assignment to a variable or a property. Whether the left side can be
    assigned to is known only when it has been read; any other left side is reported at the equals
    sign and the assignment dropped. -/
def assignment (inner : Parser Expr) : Parser Expr := do
  let target ← operation inner
  match ← take? .equal with
  | none => return target
  | some equals =>
    let value ← inner
    match target with
    | .var _ name => return .assign (← freshId) name value
    | .get object name => return .set object name value
    | _ =>
      reportAt equals .invalidTarget
      return target

/-- An expression nested at most as deep as a list of tokens is long. -/
def expressionWithin : List Token → Parser Expr
  | [] => fail .noExpression
  | _ :: bound => assignment (expressionWithin bound)

/-- An expression. -/
def expression : Parser Expr := fun s => expressionWithin s.rest s

end Lox.Parse
