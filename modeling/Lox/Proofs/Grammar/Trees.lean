import Lox.Proofs.Grammar.Soundness.Expression

set_option autoImplicit false

/-! # What the grammar makes of trees

Not every tree can be read from tokens. Where the reserved words are spelled as such, nothing that a
tree declares or refers to by name is called `this` or `super`, and no declaration stands where only
a statement may: as a branch of an `if` or as the body of a loop. -/

namespace Lox

/-! ## Names -/

/-- Names that a program can choose. -/
def Chosen (name : String) : Prop := name ≠ "this" ∧ name ≠ "super"

/-- Reserved words are spelled as such, and names are not. -/
structure Token.Spelled (t : Token) : Prop where
  chosen : t.kind = .identifier → Chosen t.lexeme
  this : t.kind = .thisKw → t.lexeme = "this"
  super : t.kind = .superKw → t.lexeme = "super"

/-- The name of a reference is one that its sort allows. -/
def Reference.Spelled (r : Reference) : Prop :=
  match r.sort with
  | .this => r.token.lexeme = "this"
  | .super => r.token.lexeme = "super"
  | _ => Chosen r.token.lexeme

/-! ## Trees -/

/-- Whether a statement declares a name where it stands. -/
def Stmt.declares : Stmt → Bool
  | .var .. | .function _ | .classDef .. => true
  | _ => false

mutual

/-- Names are spelled as they must be, and branches and loop bodies declare nothing. -/
def Stmt.Proper : Stmt → Prop
  | .expression value => ∀ r ∈ value.references, r.Spelled
  | .print value => ∀ r ∈ value.references, r.Spelled
  | .var name initializer =>
    Chosen name.lexeme ∧ ∀ r ∈ optionReferences initializer, r.Spelled
  | .block body => ProperStmts body
  | .ifElse condition thenBranch none =>
    (∀ r ∈ condition.references, r.Spelled) ∧ thenBranch.Proper ∧ thenBranch.declares = false
  | .ifElse condition thenBranch (some elseBranch) =>
    (∀ r ∈ condition.references, r.Spelled) ∧ (thenBranch.Proper ∧ thenBranch.declares = false) ∧
      elseBranch.Proper ∧ elseBranch.declares = false
  | .loop condition body =>
    (∀ r ∈ condition.references, r.Spelled) ∧ body.Proper ∧ body.declares = false
  | .function definition => Chosen definition.name.lexeme ∧ definition.Proper
  | .ret _ value => ∀ r ∈ optionReferences value, r.Spelled
  | .brk _ => True
  | .classDef name none methods => Chosen name.lexeme ∧ ProperMethods methods
  | .classDef name (some s) methods =>
    Chosen name.lexeme ∧ Chosen s.name.lexeme ∧ ProperMethods methods

def ProperStmts : List Stmt → Prop
  | [] => True
  | s :: ss => s.Proper ∧ ProperStmts ss

/-- The name of a function is left to where it is declared; a method is not looked up by name. -/
def FunctionDef.Proper : FunctionDef → Prop
  | { params, body, .. } => (∀ p ∈ params, Chosen p.lexeme) ∧ ProperStmts body

def ProperMethods : List FunctionDef → Prop
  | [] => True
  | f :: fs => f.Proper ∧ ProperMethods fs

end

namespace Grammar

variable {nearest : Bool} {symbol : Symbol} {n n' : RefId} {ts ts' : List Token}
  {tree : symbol.Tree}

theorem Reads.mem_of_mem (h : Reads nearest symbol n ts tree n' ts') : ∀ t ∈ ts', t ∈ ts := by
  induction h <;> grind

/-- What is proper of a tree. -/
def Symbol.Proper : (symbol : Symbol) → symbol.Tree → Prop
  | .primary, e | .call, e | .unary, e | .operand _, e | .operation _, e | .expression, e =>
    ∀ r ∈ Expr.references e, r.Spelled
  | .arguments, es => ∀ r ∈ exprReferences es, r.Spelled
  | .optional, e => ∀ r ∈ optionReferences e, r.Spelled
  | .parameters, ps => ∀ p ∈ ps, Chosen p.lexeme
  | .function, f => FunctionDef.Proper f ∧ Chosen f.name.lexeme
  | .functions, fs => ProperMethods fs
  | .forInitializer, none => True
  | .forInitializer, some s | .varDeclaration, s | .declaration, s => Stmt.Proper s
  | .expressionStatement, s | .statement _, s => Stmt.Proper s ∧ s.declares = false
  | .declarations, ss => ProperStmts ss

theorem proper_forLoop {i : Option Stmt} {c e : Option Expr} {b : Stmt}
    (hi : Symbol.Proper .forInitializer i) (hc : ∀ r ∈ optionReferences c, r.Spelled)
    (he : ∀ r ∈ optionReferences e, r.Spelled) (hb : b.Proper ∧ b.declares = false) :
    (Stmt.forLoop i c e b).Proper ∧ (Stmt.forLoop i c e b).declares = false := by
  cases i <;> cases c <;> cases e <;>
    simp_all [Stmt.forLoop, Stmt.Proper, ProperStmts, Stmt.declares, Symbol.Proper, optionReferences,
      Expr.references]

/-- Trees read from spelled tokens are proper. -/
theorem Reads.proper (h : Reads nearest symbol n ts tree n' ts') (hts : ∀ t ∈ ts, t.Spelled) :
    symbol.Proper tree := by
  induction h with
  -- the rules that read a name, beginning with those of a reference
  | @this _ _ t ht =>
    intro r hr
    obtain rfl := List.mem_singleton.1 hr
    exact (hts t List.mem_cons_self).this ht
  | @name _ _ t ht =>
    intro r hr
    obtain rfl := List.mem_singleton.1 hr
    exact (hts t List.mem_cons_self).chosen ht
  | @super _ _ k _ _ hk =>
    intro r hr
    obtain rfl := List.mem_singleton.1 hr
    exact (hts k List.mem_cons_self).super hk
  | @assign _ _ t _ _ _ _ ht _ _ ih =>
    intro r hr
    rcases List.mem_cons.1 hr with rfl | hr
    · exact (hts t List.mem_cons_self).chosen ht
    · exact ih (fun u hu => hts u (by simp [hu])) r hr
  | @varDeclaration _ _ t _ _ _ ht =>
    exact ⟨(hts t (by simp)).chosen ht, by simp [optionReferences]⟩
  | @varInitializer _ _ _ t _ _ _ _ _ _ ht _ _ _ ih =>
    exact ⟨(hts t (by simp)).chosen ht, ih fun u hu => hts u (by simp [hu])⟩
  | @firstParameter _ t _ ht =>
    intro p hp
    obtain rfl := List.mem_singleton.1 hp
    exact (hts p List.mem_cons_self).chosen ht
  | @nextParameter _ _ t _ _ _ h _ ht ih =>
    intro p hp
    rcases List.mem_append.1 hp with hp | hp
    · exact ih hts p hp
    · obtain rfl := List.mem_singleton.1 hp
      exact (hts p (h.mem_of_mem p (by simp))).chosen ht
  | @functionNone _ _ t _ _ _ _ _ _ _ ht _ _ _ _ _ ih =>
    exact ⟨⟨by simp, ih fun u hu => hts u (by simp [hu])⟩, (hts t List.mem_cons_self).chosen ht⟩
  | @function _ _ t _ _ _ _ _ _ _ _ _ ht _ hps _ _ _ _ _ ihps ih =>
    refine ⟨⟨ihps fun u hu => hts u (by simp [hu]), ih fun u hu => hts u ?_⟩,
      (hts t List.mem_cons_self).chosen ht⟩
    simp [hps.mem_of_mem u (by simp [hu])]
  | @classDeclaration _ _ _ t _ _ _ _ _ _ ht _ _ _ ih =>
    exact ⟨(hts t (by simp)).chosen ht, ih fun u hu => hts u (by simp [hu])⟩
  | @derivedClass _ _ _ t _ s _ _ _ _ _ _ ht _ hs _ _ _ ih =>
    exact ⟨(hts t (by simp)).chosen ht, (hts s (by simp)).chosen hs,
      ih fun u hu => hts u (by simp [hu])⟩
  -- the other rules put proper parts together
  | _ =>
    grind [Symbol.Proper, Stmt.Proper, Expr.references, exprReferences, exprReferences_append,
      Precedence.references_node, Reads.mem_of_mem, optionReferences, Stmt.declares, ProperStmts,
      ProperMethods, proper_forLoop]

end Grammar

end Lox
