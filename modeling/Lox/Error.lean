import Lox.Token

set_option autoImplicit false

/-! # Errors

An error is a problem at a place. The problem says what is wrong as data; its wording is given
once, here. The place is a line (lexical errors), a token (all others) or none (the output). -/

namespace Lox

/-! ## Problems -/

/-- What can be wrong with a piece of the source that is no token. -/
inductive LexicalProblem where
  | unexpectedCharacter (text : String)
  | unterminatedString
  /-- The bytes between the quotes of a string are no text. -/
  | unreadableString

def LexicalProblem.message : LexicalProblem → String
  | unexpectedCharacter text => "Unexpected character: " ++ text
  | unterminatedString => "Unterminated string."
  | unreadableString => "Invalid UTF-8 in string literal."

/-- The two sorts of declarations with parameters. -/
inductive FunctionSort where
  | function
  | method

def FunctionSort.name : FunctionSort → String
  | function => "function"
  | method => "method"

/-- What can be wrong with a sequence of tokens: nearly always, something is missing. -/
inductive SyntaxProblem where
  | noExpression
  | noEndOfExpression
  | noParenAfterExpression
  | noPropertyName
  | noParenAfterArguments
  | noDotAfterSuper
  | noSuperclassMethodName
  | invalidTarget
  | tooManyArguments
  | noClassName
  | noSuperclassName
  | noBraceBeforeClassBody
  | noBraceAfterClassBody
  | noFunctionName (sort : FunctionSort)
  | noParenAfterFunctionName (sort : FunctionSort)
  | tooManyParameters
  | noParameterName
  | noParenAfterParameters
  | noBraceBeforeBody (sort : FunctionSort)
  | noVariableName
  | noSemicolonAfterVariable
  | noParenAfterFor
  | noSemicolonAfterLoopCondition
  | noParenAfterForClauses
  | noSemicolonAfterValue
  | noSemicolonAfterExpression
  | noParenAfterIf
  | noParenAfterIfCondition
  | noParenAfterWhile
  | noParenAfterWhileCondition
  | noSemicolonAfterReturnValue
  | noSemicolonAfterBreak
  | noBraceAfterBlock

def SyntaxProblem.message : SyntaxProblem → String
  | noExpression => "Expected expression."
  | noEndOfExpression => "Expected end of expression."
  | noParenAfterExpression => "Expected ')' after expression."
  | noPropertyName => "Expected property name after '.'."
  | noParenAfterArguments => "Expected ')' after arguments."
  | noDotAfterSuper => "Expected '.' after 'super'."
  | noSuperclassMethodName => "Expected superclass method name."
  | invalidTarget => "Invalid assignment target."
  | tooManyArguments => "Can't have more than 255 arguments."
  | noClassName => "Expected class name."
  | noSuperclassName => "Expected superclass name."
  | noBraceBeforeClassBody => "Expected '\x7b' before class body."
  | noBraceAfterClassBody => "Expected '\x7d' after class body."
  | noFunctionName sort => "Expected " ++ sort.name ++ " name."
  | noParenAfterFunctionName sort => "Expected '(' after " ++ sort.name ++ " name."
  | tooManyParameters => "Can't have more than 255 parameters."
  | noParameterName => "Expected parameter name."
  | noParenAfterParameters => "Expected ')' after parameters."
  | noBraceBeforeBody sort => "Expected '\x7b' before " ++ sort.name ++ " body."
  | noVariableName => "Expected variable name."
  | noSemicolonAfterVariable => "Expected ';' after variable declaration."
  | noParenAfterFor => "Expected '(' after 'for'."
  | noSemicolonAfterLoopCondition => "Expected ';' after loop condition."
  | noParenAfterForClauses => "Expected ')' after for clauses."
  | noSemicolonAfterValue => "Expected ';' after value."
  | noSemicolonAfterExpression => "Expected ';' after expression."
  | noParenAfterIf => "Expected '(' after 'if'."
  | noParenAfterIfCondition => "Expected ')' after if condition."
  | noParenAfterWhile => "Expected '(' after 'while'."
  | noParenAfterWhileCondition => "Expected ')' after condition."
  | noSemicolonAfterReturnValue => "Expected ';' after return value."
  | noSemicolonAfterBreak => "Expected ';' after 'break'."
  | noBraceAfterBlock => "Expected '\x7d' after block."

/-- What can be wrong with a program before it runs, although its syntax is right. -/
inductive StaticProblem where
  | returnOutsideFunction
  | returnValueFromInitializer
  | breakOutsideLoop
  | thisOutsideClass
  | superOutsideClass
  | superWithoutSuperclass
  | inheritsFromItself
  | alreadyDeclared
  | readInOwnInitializer
  deriving DecidableEq

def StaticProblem.message : StaticProblem → String
  | returnOutsideFunction => "Can't return from top-level code."
  | returnValueFromInitializer => "Can't return a value from an initializer."
  | breakOutsideLoop => "Can't use 'break' outside of a loop."
  | thisOutsideClass => "Can't use 'this' outside of a class."
  | superOutsideClass => "Can't use 'super' outside of a class."
  | superWithoutSuperclass => "Can't use 'super' in a class with no superclass."
  | inheritsFromItself => "A class can't inherit from itself."
  | alreadyDeclared => "Already a variable with this name in this scope."
  | readInOwnInitializer => "Can't read local variable in its own initializer."

/-- What can go wrong in a running program. -/
inductive RuntimeProblem where
  | operandNotNumber
  | operandsNotNumbers
  | operandsNotAddable
  | notUnaryOperator
  | notBinaryOperator
  | notCallable
  | wrongArity (expected got : Nat)
  | noProperties
  | noFields
  | undefinedProperty (name : String)
  | undefinedVariable (name : String)
  | superOutsideClass
  | superclassNotClass
  deriving DecidableEq

def RuntimeProblem.message : RuntimeProblem → String
  | operandNotNumber => "Operand must be a number."
  | operandsNotNumbers => "Operands must be numbers."
  | operandsNotAddable => "Operands must be two numbers or two strings."
  | notUnaryOperator => "Invalid unary operator."
  | notBinaryOperator => "Invalid binary operator."
  | notCallable => "Can only call functions and classes."
  | wrongArity expected got =>
    "Expected " ++ toString expected ++ " arguments but got " ++ toString got ++ "."
  | noProperties => "Only instances have properties."
  | noFields => "Only instances have fields."
  | undefinedProperty name => "Undefined property '" ++ name ++ "'."
  | undefinedVariable name => "Undefined variable '" ++ name ++ "'."
  | superOutsideClass => "Can't use 'super' outside of a class."
  | superclassNotClass => "Superclass must be a class."

/-- What can go wrong with the output. -/
inductive OutputProblem where
  | full
  | notFlushed
  deriving DecidableEq

def OutputProblem.message : OutputProblem → String
  | full => "output is full"
  | notFlushed => "flush failed"

/-! ## Errors -/

/-- A problem at a place. -/
inductive Error where
  | lexical (line : Nat) (problem : LexicalProblem)
  | parse (token : Token) (problem : SyntaxProblem)
  | resolve (token : Token) (problem : StaticProblem)
  | runtime (token : Token) (problem : RuntimeProblem)
  | output (problem : OutputProblem)

namespace Error

/-- What is wrong, without the place. -/
def message : Error → String
  | lexical _ problem => problem.message
  | parse _ problem => problem.message
  | resolve _ problem => problem.message
  | runtime _ problem => problem.message
  | output problem => problem.message

/-- The line of the source on which an error lies; the output has none. -/
def line? : Error → Option Nat
  | lexical line _ => some line
  | parse token _ => some token.line
  | resolve token _ => some token.line
  | runtime token _ => some token.line
  | output _ => none

/-- How a static error cites its token. -/
def citation (t : Token) : String :=
  match t.kind with
  | .endOfInput => " at end"
  | _ => " at '" ++ t.lexeme ++ "'"

/-- The report of an error before the program runs. -/
def located (line : Nat) (place message : String) : String :=
  "[line " ++ toString line ++ "] Error" ++ place ++ ": " ++ message

/-- An error as it is reported. -/
def text : Error → String
  | lexical line problem => located line "" problem.message
  | parse token problem => located token.line (citation token) problem.message
  | resolve token problem => located token.line (citation token) problem.message
  | runtime token problem =>
    problem.message ++ "\n[line " ++ toString token.line ++ "] at '" ++ token.lexeme ++ "'"
  | output problem => problem.message

end Error

end Lox
