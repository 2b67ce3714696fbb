import Lox.Proofs.Forms.Words
import Lox.Proofs.Grammar.Basic
import Lox.Token.Lexer

set_option autoImplicit false

/-! # Trees and forms

What is printed of a tree is a form (`Expr.form`, `Stmt.form`), and a tree can be found again in its
form (`Form.expr?`, `Form.stmt?`): the first word of a form and the number of its parts tell what it
is a form of. Found again are not the identities of references and the lines of tokens, which are not
printed; without them a tree is bare (`Expr.bare`, `Stmt.bare`). -/

namespace Lox

/-! ## Bare trees -/

/-- The token on no line. -/
def Token.bare (t : Token) : Token := { t with line := 0 }

mutual

/-- The expression without identities and lines. -/
def Expr.bare : Expr → Expr
  | .literal value => .literal value
  | .grouping inner => .grouping inner.bare
  | .unary operator right => .unary operator.bare right.bare
  | .binary left operator right => .binary left.bare operator.bare right.bare
  | .logical left operator right => .logical left.bare operator.bare right.bare
  | .var _ name => .var 0 name.bare
  | .assign _ name value => .assign 0 name.bare value.bare
  | .call callee paren arguments => .call callee.bare paren.bare (bareExprs arguments)
  | .get object name => .get object.bare name.bare
  | .set object name value => .set object.bare name.bare value.bare
  | .thisRef _ keyword => .thisRef 0 keyword.bare
  | .superRef _ keyword method => .superRef 0 keyword.bare method.bare

def bareExprs : List Expr → List Expr
  | [] => []
  | e :: es => e.bare :: bareExprs es

end

def Superclass.bare (s : Superclass) : Superclass := ⟨0, s.name.bare⟩

mutual

/-- The statement without identities and lines. -/
def Stmt.bare : Stmt → Stmt
  | .expression value => .expression value.bare
  | .print value => .print value.bare
  | .var name initializer => .var name.bare (initializer.map Expr.bare)
  | .block body => .block (bareStmts body)
  | .ifElse condition thenBranch none => .ifElse condition.bare thenBranch.bare none
  | .ifElse condition thenBranch (some elseBranch) =>
    .ifElse condition.bare thenBranch.bare (some elseBranch.bare)
  | .loop condition body => .loop condition.bare body.bare
  | .function definition => .function definition.bare
  | .ret keyword value => .ret keyword.bare (value.map Expr.bare)
  | .brk keyword => .brk keyword.bare
  | .classDef name superclass methods =>
    .classDef name.bare (superclass.map Superclass.bare) (bareMethods methods)

def bareStmts : List Stmt → List Stmt
  | [] => []
  | s :: ss => s.bare :: bareStmts ss

def FunctionDef.bare : FunctionDef → FunctionDef
  | { name, params, body } => ⟨name.bare, params.map Token.bare, bareStmts body⟩

def bareMethods : List FunctionDef → List FunctionDef
  | [] => []
  | f :: fs => f.bare :: bareMethods fs

end

/-! ## The forms of trees -/

mutual

def Expr.form : Expr → Form
  | .literal value => .word value.printed
  | .grouping inner => .list [.word "group", inner.form]
  | .unary operator right => .list [.word operator.lexeme, right.form]
  | .binary left operator right => .list [.word operator.lexeme, left.form, right.form]
  | .logical left operator right => .list [.word operator.lexeme, left.form, right.form]
  | .var _ name => .word name.lexeme
  | .assign _ name value => .list [.word "=", .word name.lexeme, value.form]
  | .call callee _ arguments => .list (.word "call" :: callee.form :: exprForms arguments)
  | .get object name => .list [.word ".", object.form, .word name.lexeme]
  | .set object name value =>
    .list [.word "=", .list [.word ".", object.form, .word name.lexeme], value.form]
  | .thisRef _ _ => .word "this"
  | .superRef _ _ method => .list [.word "super", .word method.lexeme]

def exprForms : List Expr → List Form
  | [] => []
  | e :: es => e.form :: exprForms es

end

/-- What a class declaration has before its methods. -/
def Superclass.forms : Option Superclass → List Form
  | none => []
  | some s => [.word "<", .word s.name.lexeme]

mutual

def Stmt.form : Stmt → Form
  | .expression value => .list [.word ";", value.form]
  | .print value => .list [.word "print", value.form]
  | .var name none => .list [.word "var", .word name.lexeme]
  | .var name (some value) => .list [.word "var", .word name.lexeme, .word "=", value.form]
  | .block body => .list (.word "block" :: stmtForms body)
  | .ifElse condition thenBranch none =>
    .list [.word "if", condition.form, thenBranch.form]
  | .ifElse condition thenBranch (some elseBranch) =>
    .list [.word "if", condition.form, thenBranch.form, elseBranch.form]
  | .loop condition body => .list [.word "while", condition.form, body.form]
  | .function definition => .list (.word "fun" :: definition.formParts)
  | .ret _ none => .list [.word "return"]
  | .ret _ (some value) => .list [.word "return", value.form]
  | .brk _ => .list [.word "break"]
  | .classDef name superclass methods =>
    .list (.word "class" :: .word name.lexeme :: (Superclass.forms superclass ++ methodForms methods))

def stmtForms : List Stmt → List Form
  | [] => []
  | s :: ss => s.form :: stmtForms ss

def FunctionDef.formParts : FunctionDef → List Form
  | { name, params, body } =>
    .word name.lexeme :: .list (params.map fun p => .word p.lexeme) :: stmtForms body

def methodForms : List FunctionDef → List Form
  | [] => []
  | f :: fs => .list f.formParts :: methodForms fs

end

theorem formTexts_append (fs gs : List Form) :
    formTexts (fs ++ gs) = formTexts fs ++ formTexts gs := by
  induction fs with
  | nil => rfl
  | cons f fs ih => rw [List.cons_append, formTexts, ih, formTexts, List.cons_append]

theorem formTexts_words (ts : List Token) :
    formTexts (ts.map fun t => .word t.lexeme) = ts.map (·.lexeme) := by
  induction ts with
  | nil => rfl
  | cons t ts ih => rw [List.map_cons, formTexts, ih, Form.text, List.map_cons]

mutual

/-- An expression is printed as its form. -/
theorem Expr.text_form (e : Expr) : e.form.text = e.printed := by
  cases e with
  | literal _ => rfl
  | grouping inner => simp only [Expr.form, Form.text, formTexts, inner.text_form, Expr.printed]
  | unary _ right => simp only [Expr.form, Form.text, formTexts, right.text_form, Expr.printed]
  | binary left _ right | logical left _ right =>
    simp only [Expr.form, Form.text, formTexts, left.text_form, right.text_form, Expr.printed]
  | var _ _ => rfl
  | assign _ _ value => simp only [Expr.form, Form.text, formTexts, value.text_form, Expr.printed]
  | call callee _ arguments =>
    simp only [Expr.form, Form.text, formTexts, callee.text_form, texts_exprForms arguments,
      Expr.printed]
  | get object _ => simp only [Expr.form, Form.text, formTexts, object.text_form, Expr.printed]
  | set object _ value =>
    simp only [Expr.form, Form.text, formTexts, object.text_form, value.text_form, Expr.printed]
  | thisRef _ _ => rfl
  | superRef _ _ _ => rfl
termination_by structural e

theorem texts_exprForms (es : List Expr) : formTexts (exprForms es) = printedExprs es := by
  cases es with
  | nil => rfl
  | cons e es => rw [exprForms, formTexts, e.text_form, texts_exprForms es, printedExprs]

end

mutual

/-- A statement is printed as its form. -/
theorem Stmt.text_form (s : Stmt) : s.form.text = s.printed := by
  cases s with
  | expression value | print value =>
    simp only [Stmt.form, Form.text, formTexts, value.text_form, Stmt.printed]
  | var _ initializer =>
    cases initializer with
    | none => rfl
    | some value => simp only [Stmt.form, Form.text, formTexts, value.text_form, Stmt.printed]
  | block body => simp only [Stmt.form, Form.text, formTexts, texts_stmtForms body, Stmt.printed]
  | ifElse condition thenBranch elseBranch? =>
    cases elseBranch? with
    | none =>
      simp only [Stmt.form, Form.text, formTexts, condition.text_form, thenBranch.text_form,
        Stmt.printed]
    | some elseBranch =>
      simp only [Stmt.form, Form.text, formTexts, condition.text_form, thenBranch.text_form,
        elseBranch.text_form, Stmt.printed]
  | loop condition body =>
    simp only [Stmt.form, Form.text, formTexts, condition.text_form, body.text_form, Stmt.printed]
  | function definition =>
    simp only [Stmt.form, Form.text, formTexts, definition.texts_formParts, Stmt.printed]
  | ret _ value =>
    cases value with
    | none => rfl
    | some value => simp only [Stmt.form, Form.text, formTexts, value.text_form, Stmt.printed]
  | brk _ => rfl
  | classDef _ superclass methods =>
    cases superclass with
    | none | some _ =>
      simp only [Stmt.form, Form.text, formTexts, formTexts_append, Superclass.forms,
        texts_methodForms methods, Stmt.printed]
      rfl
termination_by structural s

theorem texts_stmtForms (ss : List Stmt) : formTexts (stmtForms ss) = printedStmts ss := by
  cases ss with
  | nil => rfl
  | cons s ss => rw [stmtForms, formTexts, s.text_form, texts_stmtForms ss, printedStmts]

theorem FunctionDef.texts_formParts (f : FunctionDef) : formTexts f.formParts = f.printedParts := by
  cases f with
  | mk name params body =>
    rw [FunctionDef.formParts, formTexts, formTexts, Form.text, Form.text, formTexts_words,
      texts_stmtForms body, FunctionDef.printedParts]
termination_by structural f

theorem texts_methodForms (fs : List FunctionDef) :
    formTexts (methodForms fs) = printedMethods fs := by
  cases fs with
  | nil => rfl
  | cons f fs =>
    rw [methodForms, formTexts, Form.text, f.texts_formParts, texts_methodForms fs, printedMethods]

end

end Lox
