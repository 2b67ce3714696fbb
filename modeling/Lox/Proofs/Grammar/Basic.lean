import Lox.Parse.Program

set_option autoImplicit false

/-! # The grammar

```text
program     → declaration* END
declaration → "class" NAME ( "<" NAME )? "{" function* "}" | "fun" function | variable | statement
function    → NAME "(" ( NAME ( "," NAME )* )? ")" "{" declaration* "}"
variable    → "var" NAME ( "=" expression )? ";"
statement   → expression ";" | "print" expression ";" | "return" expression? ";" | "break" ";"
            | "{" declaration* "}" | "while" "(" expression ")" statement
            | "if" "(" expression ")" statement ( "else" statement )?
            | "for" "(" ( variable | expression ";" | ";" ) expression? ";" expression? ")" statement
expression  → ( call "." )? NAME "=" expression | or
or          → and ( "or" and )*                 and    → equality ( "and" equality )*
equality    → comparison ( ( "!=" | "==" ) comparison )*
comparison  → term ( ( ">" | ">=" | "<" | "<=" ) term )*
term        → factor ( ( "-" | "+" ) factor )*   factor → unary ( ( "/" | "*" ) unary )*
unary       → ( "!" | "-" ) unary | call
call        → primary ( "(" ( expression ( "," expression )* )? ")" | "." NAME )*
primary     → NUMBER | STRING | "true" | "false" | "nil" | "this" | NAME | "(" expression ")"
            | "super" "." NAME
```

`Reads` derives trees by these rules. The operators of one level are taken together from the left,
assignments and the operators in front of an operand from the right, and no list of parameters or
arguments is longer than 255. References are numbered in the order in which they are read; the one
that an assignment changes counts once as a variable and, behind the value, once as the target.

The rules leave open to which of two `if`s an `else` belongs. With `nearest`, it belongs to the
nearest one that can take it: a statement that could take an `else` itself does not stand between an
`if` and its `else`. -/

namespace Lox.Grammar

/-! ## Symbols -/

/-- The levels of operators between two operands, the tightest first. -/
inductive Precedence where
  | factor | term | comparison | equality | and | or

namespace Precedence

def operators : Precedence → List Kind
  | factor => [.star, .slash]
  | term => [.minus, .plus]
  | comparison => [.greater, .greaterEqual, .less, .lessEqual]
  | equality => [.bangEqual, .equalEqual]
  | and => [.andKw]
  | or => [.orKw]

/-- The level of the operands; those of factors have no operators between them. -/
def tighter? : Precedence → Option Precedence
  | factor => none
  | term => some factor
  | comparison => some term
  | equality => some comparison
  | and => some equality
  | or => some and

def node : Precedence → Expr → Token → Expr → Expr
  | and | or => .logical
  | _ => .binary

end Precedence

/-- What the rules are about. The `Bool` of a statement says whether it could take an `else` that
    follows it. -/
inductive Symbol where
  | primary | call | arguments | unary
  | operand (level : Precedence) | operation (level : Precedence) | expression
  | optional | parameters | function | functions
  | varDeclaration | expressionStatement | forInitializer | statement (takesElse : Bool)
  | declaration | declarations

/-- The trees of a symbol. -/
@[reducible]
def Symbol.Tree : Symbol → Type
  | primary | call | unary | operand _ | operation _ | expression => Expr
  | arguments => List Expr
  | optional => Option Expr
  | parameters => List Token
  | function => FunctionDef
  | functions => List FunctionDef
  | forInitializer => Option Stmt
  | varDeclaration | expressionStatement | statement _ | declaration => Stmt
  | declarations => List Stmt

/-- The constant that a token stands for. -/
def constant? : Kind → Option Literal
  | .number x => some (.number x)
  | .string s => some (.string s)
  | .trueKw => some (.bool true)
  | .falseKw => some (.bool false)
  | .nilKw => some .nil
  | _ => none

/-! ## Rules -/

/-- `Reads nearest symbol n ts tree n' ts'`: a tree of the symbol can be read from the front of the
    tokens `ts`, which leaves the tokens `ts'`; its references are numbered from `n` on, and the next
    one will be `n'`. -/
inductive Reads (nearest : Bool) :
    (symbol : Symbol) → RefId → List Token → symbol.Tree → RefId → List Token → Prop where
  -- primary expressions
  | constant {n ts t v} : constant? t.kind = some v →
      Reads nearest .primary n (t :: ts) (.literal v) n ts
  | this {n ts t} : t.kind = .thisKw → Reads nearest .primary n (t :: ts) (.thisRef n t) (n + 1) ts
  | name {n ts t} : t.kind = .identifier →
      Reads nearest .primary n (t :: ts) (.var n t) (n + 1) ts
  | super {n ts k d m} : k.kind = .superKw → d.kind = .dot → m.kind = .identifier →
      Reads nearest .primary n (k :: d :: m :: ts) (.superRef n k m) (n + 1) ts
  | grouping {n n' l r ts ts' e} : l.kind = .leftParen →
      Reads nearest .expression n ts e n' (r :: ts') → r.kind = .rightParen →
      Reads nearest .primary n (l :: ts) (.grouping e) n' ts'
  -- calls and properties
  | primaryCall {n n' ts ts' e} : Reads nearest .primary n ts e n' ts' →
      Reads nearest .call n ts e n' ts'
  | applyNone {n n' l r ts ts' f} : Reads nearest .call n ts f n' (l :: r :: ts') →
      l.kind = .leftParen → r.kind = .rightParen →
      Reads nearest .call n ts (.call f r []) n' ts'
  | apply {n n₁ n' l r ts ts₁ ts' f es} : Reads nearest .call n ts f n₁ (l :: ts₁) →
      l.kind = .leftParen → Reads nearest .arguments n₁ ts₁ es n' (r :: ts') →
      r.kind = .rightParen → es.length ≤ 255 →
      Reads nearest .call n ts (.call f r es) n' ts'
  | property {n n' d m ts ts' o} : Reads nearest .call n ts o n' (d :: m :: ts') →
      d.kind = .dot → m.kind = .identifier →
      Reads nearest .call n ts (.get o m) n' ts'
  | firstArgument {n n' ts ts' e} : Reads nearest .expression n ts e n' ts' →
      Reads nearest .arguments n ts [e] n' ts'
  | nextArgument {n n₁ n' c ts ts₁ ts' es e} : Reads nearest .arguments n ts es n₁ (c :: ts₁) →
      c.kind = .comma → Reads nearest .expression n₁ ts₁ e n' ts' →
      Reads nearest .arguments n ts (es ++ [e]) n' ts'
  -- operators
  | callUnary {n n' ts ts' e} : Reads nearest .call n ts e n' ts' →
      Reads nearest .unary n ts e n' ts'
  | negate {n n' o ts ts' e} : o.kind = .bang ∨ o.kind = .minus →
      Reads nearest .unary n ts e n' ts' →
      Reads nearest .unary n (o :: ts) (.unary o e) n' ts'
  | unaryOperand {n n' ts ts' e level} : level.tighter? = none →
      Reads nearest .unary n ts e n' ts' →
      Reads nearest (.operand level) n ts e n' ts'
  | tighterOperand {n n' ts ts' e level tighter} : level.tighter? = some tighter →
      Reads nearest (.operation tighter) n ts e n' ts' →
      Reads nearest (.operand level) n ts e n' ts'
  | firstOperand {n n' ts ts' e level} : Reads nearest (.operand level) n ts e n' ts' →
      Reads nearest (.operation level) n ts e n' ts'
  | nextOperand {n n₁ n' o ts ts₁ ts' e₁ e₂ level} :
      Reads nearest (.operation level) n ts e₁ n₁ (o :: ts₁) →
      o.kind ∈ level.operators → Reads nearest (.operand level) n₁ ts₁ e₂ n' ts' →
      Reads nearest (.operation level) n ts (level.node e₁ o e₂) n' ts'
  -- assignments
  | operations {n n' ts ts' e} : Reads nearest (.operation .or) n ts e n' ts' →
      Reads nearest .expression n ts e n' ts'
  | assign {n n' t q ts ts' e} : t.kind = .identifier → q.kind = .equal →
      Reads nearest .expression (n + 1) ts e n' ts' →
      Reads nearest .expression n (t :: q :: ts) (.assign n' t e) (n' + 1) ts'
  | assignProperty {n n₁ n' d m q ts ts₁ ts' o e} :
      Reads nearest .call n ts o n₁ (d :: m :: q :: ts₁) →
      d.kind = .dot → m.kind = .identifier → q.kind = .equal →
      Reads nearest .expression n₁ ts₁ e n' ts' →
      Reads nearest .expression n ts (.set o m e) n' ts'
  | absent {n ts} : Reads nearest .optional n ts none n ts
  | present {n n' ts ts' e} : Reads nearest .expression n ts e n' ts' →
      Reads nearest .optional n ts (some e) n' ts'
  -- simple statements
  | varDeclaration {n v t s ts} : v.kind = .varKw → t.kind = .identifier → s.kind = .semicolon →
      Reads nearest .varDeclaration n (v :: t :: s :: ts) (.var t none) n ts
  | varInitializer {n n' v t q s ts ts' e} : v.kind = .varKw → t.kind = .identifier →
      q.kind = .equal → Reads nearest .expression n ts e n' (s :: ts') → s.kind = .semicolon →
      Reads nearest .varDeclaration n (v :: t :: q :: ts) (.var t (some e)) n' ts'
  | expressionStatement {n n' s ts ts' e} : Reads nearest .expression n ts e n' (s :: ts') →
      s.kind = .semicolon → Reads nearest .expressionStatement n ts (.expression e) n' ts'
  | expressionAsStatement {n n' ts ts' s} : Reads nearest .expressionStatement n ts s n' ts' →
      Reads nearest (.statement false) n ts s n' ts'
  | print {n n' p s ts ts' e} : p.kind = .printKw →
      Reads nearest .expression n ts e n' (s :: ts') → s.kind = .semicolon →
      Reads nearest (.statement false) n (p :: ts) (.print e) n' ts'
  | ret {n n' k s ts ts' e} : k.kind = .returnKw →
      Reads nearest .optional n ts e n' (s :: ts') → s.kind = .semicolon →
      Reads nearest (.statement false) n (k :: ts) (.ret k e) n' ts'
  | brk {n k s ts} : k.kind = .breakKw → s.kind = .semicolon →
      Reads nearest (.statement false) n (k :: s :: ts) (.brk k) n ts
  | block {n n' l r ts ts' body} : l.kind = .leftBrace →
      Reads nearest .declarations n ts body n' (r :: ts') → r.kind = .rightBrace →
      Reads nearest (.statement false) n (l :: ts) (.block body) n' ts'
  -- statements that contain a statement
  | loop {n n₁ n' w l r ts ts₁ ts' c s open₁} : w.kind = .whileKw → l.kind = .leftParen →
      Reads nearest .expression n ts c n₁ (r :: ts₁) → r.kind = .rightParen →
      Reads nearest (.statement open₁) n₁ ts₁ s n' ts' →
      Reads nearest (.statement open₁) n (w :: l :: ts) (.loop c s) n' ts'
  | ifOnly {n n₁ n' i l r ts ts₁ ts' c s open₁} : i.kind = .ifKw → l.kind = .leftParen →
      Reads nearest .expression n ts c n₁ (r :: ts₁) → r.kind = .rightParen →
      Reads nearest (.statement open₁) n₁ ts₁ s n' ts' →
      Reads nearest (.statement true) n (i :: l :: ts) (.ifElse c s none) n' ts'
  | ifElse {n n₁ n₂ n' i l r k ts ts₁ ts₂ ts' c s₁ s₂ open₁ open₂} : i.kind = .ifKw →
      l.kind = .leftParen → Reads nearest .expression n ts c n₁ (r :: ts₁) → r.kind = .rightParen →
      Reads nearest (.statement open₁) n₁ ts₁ s₁ n₂ (k :: ts₂) →
      (nearest = true → open₁ = false) → k.kind = .elseKw →
      Reads nearest (.statement open₂) n₂ ts₂ s₂ n' ts' →
      Reads nearest (.statement open₂) n (i :: l :: ts) (.ifElse c s₁ (some s₂)) n' ts'
  | noInitializer {n s ts} : s.kind = .semicolon →
      Reads nearest .forInitializer n (s :: ts) none n ts
  | varForInitializer {n n' ts ts' s} : Reads nearest .varDeclaration n ts s n' ts' →
      Reads nearest .forInitializer n ts (some s) n' ts'
  | expressionForInitializer {n n' ts ts' s} : Reads nearest .expressionStatement n ts s n' ts' →
      Reads nearest .forInitializer n ts (some s) n' ts'
  | forLoop {n n₁ n₂ n₃ n' f l s r ts ts₁ ts₂ ts₃ ts' i c e b open₁} : f.kind = .forKw →
      l.kind = .leftParen → Reads nearest .forInitializer n ts i n₁ ts₁ →
      Reads nearest .optional n₁ ts₁ c n₂ (s :: ts₂) → s.kind = .semicolon →
      Reads nearest .optional n₂ ts₂ e n₃ (r :: ts₃) → r.kind = .rightParen →
      Reads nearest (.statement open₁) n₃ ts₃ b n' ts' →
      Reads nearest (.statement open₁) n (f :: l :: ts) (.forLoop i c e b) n' ts'
  -- functions and classes
  | firstParameter {n t ts} : t.kind = .identifier → Reads nearest .parameters n (t :: ts) [t] n ts
  | nextParameter {n c t ts ts' ps} : Reads nearest .parameters n ts ps n (c :: t :: ts') →
      c.kind = .comma → t.kind = .identifier →
      Reads nearest .parameters n ts (ps ++ [t]) n ts'
  | functionNone {n n' t l r b q ts ts' body} : t.kind = .identifier → l.kind = .leftParen →
      r.kind = .rightParen → b.kind = .leftBrace →
      Reads nearest .declarations n ts body n' (q :: ts') → q.kind = .rightBrace →
      Reads nearest .function n (t :: l :: r :: b :: ts) ⟨t, [], body⟩ n' ts'
  | function {n n' t l r b q ts ts₁ ts' ps body} : t.kind = .identifier → l.kind = .leftParen →
      Reads nearest .parameters n ts ps n (r :: b :: ts₁) → ps.length ≤ 255 →
      r.kind = .rightParen → b.kind = .leftBrace →
      Reads nearest .declarations n ts₁ body n' (q :: ts') → q.kind = .rightBrace →
      Reads nearest .function n (t :: l :: ts) ⟨t, ps, body⟩ n' ts'
  | noFunctions {n ts} : Reads nearest .functions n ts [] n ts
  | nextFunction {n n₁ n' ts ts₁ ts' f fs} : Reads nearest .function n ts f n₁ ts₁ →
      Reads nearest .functions n₁ ts₁ fs n' ts' →
      Reads nearest .functions n ts (f :: fs) n' ts'
  -- declarations
  | classDeclaration {n n' k t l r ts ts' fs} : k.kind = .classKw → t.kind = .identifier →
      l.kind = .leftBrace → Reads nearest .functions n ts fs n' (r :: ts') → r.kind = .rightBrace →
      Reads nearest .declaration n (k :: t :: l :: ts) (.classDef t none fs) n' ts'
  | derivedClass {n n' k t q s l r ts ts' fs} : k.kind = .classKw → t.kind = .identifier →
      q.kind = .less → s.kind = .identifier → l.kind = .leftBrace →
      Reads nearest .functions (n + 1) ts fs n' (r :: ts') → r.kind = .rightBrace →
      Reads nearest .declaration n (k :: t :: q :: s :: l :: ts) (.classDef t (some ⟨n, s⟩) fs) n' ts'
  | functionDeclaration {n n' k ts ts' f} : k.kind = .funKw →
      Reads nearest .function n ts f n' ts' →
      Reads nearest .declaration n (k :: ts) (.function f) n' ts'
  | variableDeclaration {n n' ts ts' s} : Reads nearest .varDeclaration n ts s n' ts' →
      Reads nearest .declaration n ts s n' ts'
  | statement {n n' ts ts' s open₁} : Reads nearest (.statement open₁) n ts s n' ts' →
      Reads nearest .declaration n ts s n' ts'
  | noDeclarations {n ts} : Reads nearest .declarations n ts [] n ts
  | nextDeclaration {n n₁ n' ts ts₁ ts' s ss} : Reads nearest .declaration n ts s n₁ ts₁ →
      Reads nearest .declarations n₁ ts₁ ss n' ts' →
      Reads nearest .declarations n ts (s :: ss) n' ts'

/-! ## How much is read -/

/-- The least number of tokens that a tree of a symbol is read from. -/
def Symbol.least : Symbol → Nat
  | optional | functions | declarations => 0
  | _ => 1

theorem Reads.length_le {nearest : Bool} {symbol : Symbol} {n n' : RefId} {ts ts' : List Token}
    {tree : symbol.Tree} (h : Reads nearest symbol n ts tree n' ts') :
    ts'.length + symbol.least ≤ ts.length := by
  induction h <;> simp only [Symbol.least, List.length_cons] at * <;> omega

end Lox.Grammar
