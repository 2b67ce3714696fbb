import Lox.Proofs.Alike.Programs
import Lox.Proofs.Scoping.Violations

set_option autoImplicit false

/-! # The tokens that a tree keeps

An error is reported at a token, and a tree keeps the tokens at which its errors are reported.
`Expr.Written` and `Stmt.Written` say of all tokens that a tree keeps what is to be known of them.
Whatever is known of the tokens of a source is known of those in its tree, and of those at which the
parser reports a mistake (`Parse.program_written`) or the walk over the tree a broken rule
(`resolveProgram_written`). -/

namespace Lox

variable {p : Token → Prop}

/-! ## Trees -/

mutual

/-- All tokens that an expression keeps are as `p` says. -/
def Expr.Written (p : Token → Prop) : Expr → Prop
  | .literal _ => True
  | .grouping inner => inner.Written p
  | .unary operator right => p operator ∧ right.Written p
  | .binary left operator right => p operator ∧ left.Written p ∧ right.Written p
  | .logical left operator right => p operator ∧ left.Written p ∧ right.Written p
  | .var _ name => p name
  | .assign _ name value => p name ∧ value.Written p
  | .call callee paren arguments => p paren ∧ callee.Written p ∧ ExprsWritten p arguments
  | .get object name => p name ∧ object.Written p
  | .set object name value => p name ∧ object.Written p ∧ value.Written p
  | .thisRef _ keyword => p keyword
  | .superRef _ keyword method => p keyword ∧ p method

def ExprsWritten (p : Token → Prop) : List Expr → Prop
  | [] => True
  | e :: es => e.Written p ∧ ExprsWritten p es

end

def OptionWritten (p : Token → Prop) : Option Expr → Prop
  | none => True
  | some e => e.Written p

mutual

/-- All tokens that a statement keeps are as `p` says. -/
def Stmt.Written (p : Token → Prop) : Stmt → Prop
  | .expression value => value.Written p
  | .print value => value.Written p
  | .var name initializer => p name ∧ OptionWritten p initializer
  | .block body => StmtsWritten p body
  | .ifElse condition thenBranch none => condition.Written p ∧ thenBranch.Written p
  | .ifElse condition thenBranch (some elseBranch) =>
    condition.Written p ∧ thenBranch.Written p ∧ elseBranch.Written p
  | .loop condition body => condition.Written p ∧ body.Written p
  | .function definition => definition.Written p
  | .ret keyword value => p keyword ∧ OptionWritten p value
  | .brk keyword => p keyword
  | .classDef name superclass methods =>
    p name ∧ (∀ s ∈ superclass, p s.name) ∧ MethodsWritten p methods

def StmtsWritten (p : Token → Prop) : List Stmt → Prop
  | [] => True
  | s :: ss => s.Written p ∧ StmtsWritten p ss

def FunctionDef.Written (p : Token → Prop) : FunctionDef → Prop
  | ⟨name, params, body⟩ => p name ∧ (∀ t ∈ params, p t) ∧ StmtsWritten p body

def MethodsWritten (p : Token → Prop) : List FunctionDef → Prop
  | [] => True
  | f :: fs => f.Written p ∧ MethodsWritten p fs

end

theorem exprsWritten_iff {es : List Expr} : ExprsWritten p es ↔ ∀ e ∈ es, e.Written p := by
  induction es with
  | nil => simp [ExprsWritten]
  | cons e es ih => simp [ExprsWritten, ih]

theorem methodsWritten_iff {fs : List FunctionDef} :
    MethodsWritten p fs ↔ ∀ f ∈ fs, f.Written p := by
  induction fs with
  | nil => simp [MethodsWritten]
  | cons f fs ih => simp [MethodsWritten, ih]

namespace FunctionDef.Written

variable {f : FunctionDef}

theorem name (h : f.Written p) : p f.name := by
  cases f
  exact h.1

theorem body (h : f.Written p) : StmtsWritten p f.body := by
  cases f
  exact h.2.2

end FunctionDef.Written

/-! ## References -/

mutual

theorem Expr.Written.references {e : Expr} (h : e.Written p) :
    ∀ r ∈ e.references, p r.token := by
  cases e with
  | literal value => exact List.forall_mem_nil _
  | grouping inner => exact Expr.Written.references (e := inner) h
  | unary operator right => exact Expr.Written.references (e := right) h.2
  | binary left operator right | logical left operator right =>
    have hleft := h.2.1.references
    have hright := h.2.2.references
    exact List.forall_mem_append.2 ⟨hleft, hright⟩
  | var id name | thisRef id name => exact List.forall_mem_singleton.2 h
  | assign id name value => exact List.forall_mem_cons.2 ⟨h.1, h.2.references⟩
  | call callee paren arguments =>
    have hcallee := h.2.1.references
    have harguments := exprsWritten_references h.2.2
    exact List.forall_mem_append.2 ⟨hcallee, harguments⟩
  | get object name => exact Expr.Written.references (e := object) h.2
  | set object name value =>
    have hobject := h.2.1.references
    have hvalue := h.2.2.references
    exact List.forall_mem_append.2 ⟨hobject, hvalue⟩
  | superRef id keyword method => exact List.forall_mem_singleton.2 h.1
termination_by structural e

theorem exprsWritten_references {es : List Expr} (h : ExprsWritten p es) :
    ∀ r ∈ exprReferences es, p r.token := by
  cases es with
  | nil => exact List.forall_mem_nil _
  | cons e es => exact List.forall_mem_append.2 ⟨h.1.references, exprsWritten_references h.2⟩
termination_by structural es

end

theorem optionWritten_references {e : Option Expr} (h : OptionWritten p e) :
    ∀ r ∈ optionReferences e, p r.token := by
  cases e with
  | none => exact List.forall_mem_nil _
  | some e => exact Expr.Written.references h

mutual

theorem Stmt.Written.references {s : Stmt} (h : s.Written p) :
    ∀ r ∈ s.references, p r.token := by
  cases s with
  | expression value | print value => exact Expr.Written.references (e := value) h
  | var name initializer => exact optionWritten_references h.2
  | block body => exact stmtsWritten_references (show StmtsWritten p body from h)
  | ifElse condition thenBranch elseBranch? =>
    cases elseBranch? with
    | none => exact List.forall_mem_append.2 ⟨h.1.references, h.2.references⟩
    | some elseBranch =>
      have hthen := List.forall_mem_append.2 ⟨h.1.references, h.2.1.references⟩
      exact List.forall_mem_append.2 ⟨hthen, h.2.2.references⟩
  | loop condition body => exact List.forall_mem_append.2 ⟨h.1.references, h.2.references⟩
  | function definition => exact FunctionDef.Written.references (f := definition) h
  | ret keyword value => exact optionWritten_references h.2
  | brk keyword => exact List.forall_mem_nil _
  | classDef name superclass methods =>
    have hmethods := methodsWritten_references h.2.2
    cases superclass with
    | none => exact hmethods
    | some clause => exact List.forall_mem_cons.2 ⟨h.2.1 clause rfl, hmethods⟩
termination_by structural s

theorem stmtsWritten_references {ss : List Stmt} (h : StmtsWritten p ss) :
    ∀ r ∈ stmtReferences ss, p r.token := by
  cases ss with
  | nil => exact List.forall_mem_nil _
  | cons s ss => exact List.forall_mem_append.2 ⟨h.1.references, stmtsWritten_references h.2⟩
termination_by structural ss

theorem FunctionDef.Written.references {f : FunctionDef} (h : f.Written p) :
    ∀ r ∈ f.references, p r.token := by
  cases f with
  | mk name params body => exact stmtsWritten_references h.2.2
termination_by structural f

theorem methodsWritten_references {fs : List FunctionDef} (h : MethodsWritten p fs) :
    ∀ r ∈ methodReferences fs, p r.token := by
  cases fs with
  | nil => exact List.forall_mem_nil _
  | cons f fs => exact List.forall_mem_append.2 ⟨h.1.references, methodsWritten_references h.2⟩
termination_by structural fs

end

/-! ## Trees that are read -/

section

variable {lines : Nat} {ids : RefId → RefId → Prop}

mutual

/-- The tokens of a tree that may lie further down are those that it keeps. -/
theorem Expr.Alike.written {e e' : Expr} (h : e.Alike lines p ids e') : e.Written p := by
  cases e with
  | literal value => trivial
  | grouping inner =>
    cases h with | grouping h => exact h.written
  | unary operator right =>
    cases h with | unary ht h => exact ⟨ht, h.written⟩
  | binary left operator right =>
    cases h with | binary ht hl hr => exact ⟨ht, hl.written, hr.written⟩
  | logical left operator right =>
    cases h with | logical ht hl hr => exact ⟨ht, hl.written, hr.written⟩
  | var id name =>
    cases h with | var ht _ => exact ht
  | assign id name value =>
    cases h with | assign ht _ hv => exact ⟨ht, hv.written⟩
  | call callee paren arguments =>
    cases h with | call ht hf hes => exact ⟨ht, hf.written, exprs_alike_written hes⟩
  | get object name =>
    cases h with | get ht ho => exact ⟨ht, ho.written⟩
  | set object name value =>
    cases h with | set ht ho hv => exact ⟨ht, ho.written, hv.written⟩
  | thisRef id keyword =>
    cases h with | thisRef ht _ => exact ht
  | superRef id keyword method =>
    cases h with | superRef ht hm _ => exact ⟨ht, hm⟩
termination_by structural e

theorem exprs_alike_written {es es' : List Expr}
    (h : List.Forall₂ (Expr.Alike lines p ids) es es') : ExprsWritten p es := by
  cases es with
  | nil => trivial
  | cons e es =>
    cases h with | cons he hes => exact ⟨he.written, exprs_alike_written hes⟩
termination_by structural es

end

theorem option_alike_written {e e' : Option Expr} (h : Option.Rel (Expr.Alike lines p ids) e e') :
    OptionWritten p e := by
  cases h with
  | none => trivial
  | some h => exact h.written

theorem superclass_alike_written {c c' : Option Superclass}
    (h : Option.Rel (Superclass.Alike lines p ids) c c') : ∀ s ∈ c, p s.name := by
  intro s hs
  cases hs
  cases h with
  | some h =>
    cases h with
    | mk ht _ => exact ht

mutual

theorem Stmt.Alike.written {s s' : Stmt} (h : s.Alike lines p ids s') : s.Written p := by
  cases s with
  | expression value =>
    cases h with | expression h => exact h.written
  | print value =>
    cases h with | print h => exact h.written
  | var name initializer =>
    cases h with | var ht h => exact ⟨ht, option_alike_written h⟩
  | block body =>
    cases h with | block h => exact stmts_alike_written h
  | ifElse condition thenBranch elseBranch? =>
    cases h with
    | ifElse hc ht ho =>
      have hthen := ht.written
      cases elseBranch? with
      | none => exact ⟨hc.written, hthen⟩
      | some elseBranch =>
        cases ho with | some ho => exact ⟨hc.written, hthen, ho.written⟩
  | loop condition body =>
    cases h with | loop hc hb => exact ⟨hc.written, hb.written⟩
  | function definition =>
    cases h with | function hf => exact FunctionDef.Alike.written hf
  | ret keyword value =>
    cases h with | ret ht h => exact ⟨ht, option_alike_written h⟩
  | brk keyword =>
    cases h with | brk ht => exact ht
  | classDef name superclass methods =>
    cases h with
    | classDef ht hc hfs =>
      have hclause := superclass_alike_written hc
      exact ⟨ht, hclause, methods_alike_written hfs⟩
termination_by structural s

theorem stmts_alike_written {ss ss' : List Stmt}
    (h : List.Forall₂ (Stmt.Alike lines p ids) ss ss') : StmtsWritten p ss := by
  cases ss with
  | nil => trivial
  | cons s ss =>
    cases h with | cons hs hss => exact ⟨hs.written, stmts_alike_written hss⟩
termination_by structural ss

theorem FunctionDef.Alike.written {f f' : FunctionDef} (h : f.Alike lines p ids f') :
    f.Written p := by
  cases f with
  | mk name params body =>
    cases h with | mk ht hps hss => exact ⟨ht, hps, stmts_alike_written hss⟩
termination_by structural f

theorem methods_alike_written {fs fs' : List FunctionDef}
    (h : List.Forall₂ (FunctionDef.Alike lines p ids) fs fs') : MethodsWritten p fs := by
  cases fs with
  | nil => trivial
  | cons f fs =>
    cases h with | cons hf hfs => exact ⟨hf.written, methods_alike_written hfs⟩
termination_by structural fs

end

end

namespace Parse

variable {tokens : List Token} (h : tokens ≠ []) (hp : ∀ t ∈ terminated tokens, p t)
  (firstId : RefId)

include h hp

/-- What is known of the tokens of a source is known of those in its tree and in its errors. -/
theorem program_written :
    StmtsWritten p (program tokens firstId).tree ∧
      ∀ e ∈ (program tokens firstId).errors, ∃ m : Mistake, e = m.error ∧ p m.token := by
  have halike : Outcome.Alike 0 p (fun _ _ => True) (List.Forall₂ (Stmt.Alike 0 p fun _ _ => True))
      (program tokens firstId) (program (tokens.map (Token.down 0)) firstId) :=
    program_alike h hp fun _ => trivial
  exact ⟨stmts_alike_written halike.tree, halike.moved⟩

theorem singleExpression_written :
    OptionWritten p (singleExpression tokens firstId).tree ∧
      ∀ e ∈ (singleExpression tokens firstId).errors, ∃ m : Mistake, e = m.error ∧ p m.token := by
  have halike : Outcome.Alike 0 p (fun _ _ => True) (Option.Rel (Expr.Alike 0 p fun _ _ => True))
      (singleExpression tokens firstId) (singleExpression (tokens.map (Token.down 0)) firstId) :=
    singleExpression_alike h hp fun _ => trivial
  exact ⟨option_alike_written halike.tree, halike.moved⟩

end Parse

/-! ## Rules that are broken -/

/-- The token at which a construct breaks its rule. -/
def Construct.token : Construct → Token
  | ret keyword _ => keyword
  | brk keyword => keyword
  | this keyword => keyword
  | super keyword => keyword
  | superclass name _ => name
  | declaration name => name
  | read name => name

theorem Occurrence.token_of_violation? {o : Occurrence} {t : Token} {problem : StaticProblem}
    (h : o.violation? = some (t, problem)) : t = o.construct.token := by
  unfold violation? at h
  grind [Construct.token]

mutual

theorem Expr.Written.constructs {e : Expr} (h : e.Written p) :
    ∀ c ∈ e.constructs, p c.token := by
  cases e with
  | literal value => exact List.forall_mem_nil _
  | grouping inner => exact Expr.Written.constructs (e := inner) h
  | unary operator right => exact Expr.Written.constructs (e := right) h.2
  | binary left operator right | logical left operator right =>
    have hleft := h.2.1.constructs
    have hright := h.2.2.constructs
    exact List.forall_mem_append.2 ⟨hleft, hright⟩
  | var id name | thisRef id name => exact List.forall_mem_singleton.2 h
  | assign id name value => exact Expr.Written.constructs (e := value) h.2
  | call callee paren arguments =>
    have hcallee := h.2.1.constructs
    have harguments := exprsWritten_constructs h.2.2
    exact List.forall_mem_append.2 ⟨hcallee, harguments⟩
  | get object name => exact Expr.Written.constructs (e := object) h.2
  | set object name value =>
    -- the value is resolved before the object
    have hvalue := h.2.2.constructs
    have hobject := h.2.1.constructs
    exact List.forall_mem_append.2 ⟨hvalue, hobject⟩
  | superRef id keyword method => exact List.forall_mem_singleton.2 h.1
termination_by structural e

theorem exprsWritten_constructs {es : List Expr} (h : ExprsWritten p es) :
    ∀ c ∈ exprConstructs es, p c.token := by
  cases es with
  | nil => exact List.forall_mem_nil _
  | cons e es => exact List.forall_mem_append.2 ⟨h.1.constructs, exprsWritten_constructs h.2⟩
termination_by structural es

end

theorem optionWritten_constructs {e : Option Expr} (h : OptionWritten p e) :
    ∀ c ∈ optionConstructs e, p c.token := by
  cases e with
  | none => exact List.forall_mem_nil _
  | some e => exact Expr.Written.constructs h

theorem forall_occurrencesAt {cs : List Construct} (h : ∀ c ∈ cs, p c.token)
    (around : Surroundings) : ∀ o ∈ occurrencesAt around cs, p o.construct.token :=
  List.forall_mem_map.2 h

theorem paramOccurrences_written {ps : List Token} (around : Surroundings) (h : ∀ t ∈ ps, p t) :
    ∀ o ∈ paramOccurrences around ps, p o.construct.token := by
  induction ps generalizing around with
  | nil => exact List.forall_mem_nil _
  | cons t ps ih =>
    obtain ⟨ht, hps⟩ := List.forall_mem_cons.1 h
    exact List.forall_mem_cons.2 ⟨ht, ih _ hps⟩

mutual

theorem Stmt.Written.occurrences {s : Stmt} (around : Surroundings) (h : s.Written p) :
    ∀ o ∈ s.occurrences around, p o.construct.token := by
  cases s with
  | expression value | print value =>
    exact forall_occurrencesAt (Expr.Written.constructs (e := value) h) _
  | var name initializer =>
    have hvalue := optionWritten_constructs h.2
    exact List.forall_mem_cons.2 ⟨h.1, forall_occurrencesAt hvalue _⟩
  | block body => exact stmtsWritten_occurrences _ (show StmtsWritten p body from h)
  | ifElse condition thenBranch elseBranch? =>
    cases elseBranch? with
    | none =>
      have hcondition := h.1.constructs
      exact List.forall_mem_append.2 ⟨forall_occurrencesAt hcondition _, h.2.occurrences _⟩
    | some elseBranch =>
      refine List.forall_mem_append.2 ⟨List.forall_mem_append.2 ⟨?_, ?_⟩, h.2.2.occurrences _⟩
      · exact forall_occurrencesAt h.1.constructs _
      · exact h.2.1.occurrences _
  | loop condition body =>
    have hcondition := h.1.constructs
    exact List.forall_mem_append.2 ⟨forall_occurrencesAt hcondition _, h.2.occurrences _⟩
  | function definition =>
    refine List.forall_mem_cons.2 ⟨FunctionDef.Written.name h, ?_⟩
    exact FunctionDef.Written.occurrences (f := definition) _ _ h
  | ret keyword value =>
    have hvalue := optionWritten_constructs h.2
    exact List.forall_mem_cons.2 ⟨h.1, forall_occurrencesAt hvalue _⟩
  | brk keyword => exact List.forall_mem_singleton.2 h
  | classDef name superclass methods =>
    cases superclass with
    | none => exact List.forall_mem_cons.2 ⟨h.1, methodsWritten_occurrences _ h.2.2⟩
    | some clause =>
      refine List.forall_mem_cons.2 ⟨h.1, List.forall_mem_cons.2 ⟨h.2.1 clause rfl, ?_⟩⟩
      exact methodsWritten_occurrences _ h.2.2
termination_by structural s

theorem stmtsWritten_occurrences {ss : List Stmt} (around : Surroundings)
    (h : StmtsWritten p ss) : ∀ o ∈ stmtOccurrences around ss, p o.construct.token := by
  cases ss with
  | nil => exact List.forall_mem_nil _
  | cons s ss =>
    exact List.forall_mem_append.2 ⟨h.1.occurrences _, stmtsWritten_occurrences _ h.2⟩
termination_by structural ss

theorem FunctionDef.Written.occurrences {f : FunctionDef} (around : Surroundings)
    (sort : BodySort) (h : f.Written p) :
    ∀ o ∈ f.occurrences around sort, p o.construct.token := by
  cases f with
  | mk name params body =>
    refine List.forall_mem_append.2 ⟨?_, ?_⟩
    · exact paramOccurrences_written _ h.2.1
    · exact stmtsWritten_occurrences _ h.2.2
termination_by structural f

theorem methodsWritten_occurrences {fs : List FunctionDef} (around : Surroundings)
    (h : MethodsWritten p fs) : ∀ o ∈ methodOccurrences around fs, p o.construct.token := by
  cases fs with
  | nil => exact List.forall_mem_nil _
  | cons f fs =>
    exact List.forall_mem_append.2 ⟨h.1.occurrences _ _, methodsWritten_occurrences _ h.2⟩
termination_by structural fs

end

/-- The walk over a program reports at tokens that the program keeps. -/
theorem resolveProgram_written {program : List Stmt} (h : StmtsWritten p program)
    (distances : Distances) : ∀ e ∈ (resolveProgram program distances).errors,
      ∃ t problem, e = .resolve t problem ∧ p t := by
  intro e he
  obtain ⟨⟨t, problem⟩, hfound, rfl⟩ := List.mem_map.1 he
  rw [(resolveStmts_start program distances).1] at hfound
  obtain ⟨o, ho, hviolation⟩ := List.mem_filterMap.1 hfound
  rw [o.token_of_violation? hviolation]
  exact ⟨_, problem, rfl, stmtsWritten_occurrences _ h o ho⟩

end Lox
