import Lox.Number.Format

set_option autoImplicit false

/-! # Tokens

The words of the language. A token has a kind, the text it was read from and the line on which it
ends. String and number literals carry their value in the kind; where kinds are compared
(`Kind.sameAs`), the value does not count. -/

namespace Lox

/-- What a token is. -/
inductive Kind where
  | leftParen | rightParen | leftBrace | rightBrace
  | comma | dot | minus | plus | semicolon | slash | star
  | bang | bangEqual | equal | equalEqual
  | greater | greaterEqual | less | lessEqual
  | identifier
  /-- A string literal with the text between its quotes. -/
  | string (value : String)
  | number (value : Float)
  | andKw | breakKw | classKw | elseKw | falseKw | funKw | forKw | ifKw | nilKw | orKw
  | printKw | returnKw | superKw | thisKw | trueKw | varKw | whileKw
  | endOfInput

namespace Kind

/-- The name under which a kind is listed. -/
def name : Kind → String
  | leftParen => "LEFT_PAREN" | rightParen => "RIGHT_PAREN"
  | leftBrace => "LEFT_BRACE" | rightBrace => "RIGHT_BRACE"
  | comma => "COMMA" | dot => "DOT" | minus => "MINUS" | plus => "PLUS"
  | semicolon => "SEMICOLON" | slash => "SLASH" | star => "STAR"
  | bang => "BANG" | bangEqual => "BANG_EQUAL"
  | equal => "EQUAL" | equalEqual => "EQUAL_EQUAL"
  | greater => "GREATER" | greaterEqual => "GREATER_EQUAL"
  | less => "LESS" | lessEqual => "LESS_EQUAL"
  | identifier => "IDENTIFIER" | string _ => "STRING" | number _ => "NUMBER"
  | andKw => "AND" | breakKw => "BREAK" | classKw => "CLASS" | elseKw => "ELSE"
  | falseKw => "FALSE" | funKw => "FUN" | forKw => "FOR" | ifKw => "IF" | nilKw => "NIL"
  | orKw => "OR" | printKw => "PRINT" | returnKw => "RETURN" | superKw => "SUPER"
  | thisKw => "THIS" | trueKw => "TRUE" | varKw => "VAR" | whileKw => "WHILE"
  | endOfInput => "EOF"

/-- Whether two kinds are the same up to the value of a literal. -/
def sameAs (a b : Kind) : Bool := a.ctorIdx == b.ctorIdx

@[simp] theorem sameAs_self (k : Kind) : k.sameAs k = true := by simp [sameAs]

theorem sameAs_comm (a b : Kind) : a.sameAs b = b.sameAs a := by
  simp only [sameAs]; exact BEq.comm

/-- The operators and separators by their text. -/
def symbols : List (String × Kind) :=
  [("(", leftParen), (")", rightParen), ("\x7b", leftBrace), ("\x7d", rightBrace),
   (",", comma), (".", dot), ("-", minus), ("+", plus), (";", semicolon), ("/", slash),
   ("*", star), ("!", bang), ("!=", bangEqual), ("=", equal), ("==", equalEqual),
   (">", greater), (">=", greaterEqual), ("<", less), ("<=", lessEqual)]

/-- The reserved words. -/
def keywords : List (String × Kind) :=
  [("and", andKw), ("break", breakKw), ("class", classKw), ("else", elseKw), ("false", falseKw),
   ("fun", funKw), ("for", forKw), ("if", ifKw), ("nil", nilKw), ("or", orKw),
   ("print", printKw), ("return", returnKw), ("super", superKw), ("this", thisKw),
   ("true", trueKw), ("var", varKw), ("while", whileKw)]

/-- The kind of a word: a reserved word or a name. -/
def ofWord (text : String) : Kind := (keywords.lookup text).getD identifier

end Kind

/-- A word of the source. -/
structure Token where
  kind : Kind
  /-- The text of the token as written. -/
  lexeme : String
  /-- The line on which the token ends, counted from 1. -/
  line : Nat

namespace Token

/-- A name that stands at no place of its own. -/
def ofName (name : String) (line : Nat) : Token := ⟨.identifier, name, line⟩

/-- Whether two tokens have the same kind, text and line, the value of a literal left aside. -/
def sameAs (a b : Token) : Bool :=
  a.kind.sameAs b.kind && a.lexeme == b.lexeme && a.line == b.line

/-- The value of a literal as text, `null` for any other token. -/
def literal (t : Token) : String :=
  match t.kind with
  | .string s => s
  | .number x => Number.literal.write x
  | _ => "null"

/-- A token as one line of a listing. -/
def describe (t : Token) : String := t.kind.name ++ " " ++ t.lexeme ++ " " ++ t.literal

end Token

end Lox
