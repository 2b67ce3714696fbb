import Lox.Proofs.Forms.Readers
import Lox.Proofs.Grammar.Acceptance
import Lox.Proofs.Lexer.Longest

set_option autoImplicit false

/-! # Printed programs are found again

A tree that is read from the tokens of a source has in it what the lemmas on its nodes ask for: names
where names stand, operators where operators do. So the bare program is found again in its text
(`readProgram?_printed`), and two programs that are printed alike are the same but for identities and
lines. This is said of programs without strings, whose texts may be anything, and without infinite
numbers, which are printed as names are. -/

namespace Lox

open Lexer (tokens)

/-! ## Programs that can be read -/

mutual

/-- There are no strings in the expression, and its numbers are finite. -/
def Expr.Legible : Expr → Prop
  | .literal value => value.Legible
  | .grouping inner => inner.Legible
  | .unary _ right => right.Legible
  | .binary left _ right | .logical left _ right => left.Legible ∧ right.Legible
  | .var .. | .thisRef .. | .superRef .. => True
  | .assign _ _ value => value.Legible
  | .call callee _ arguments => callee.Legible ∧ LegibleExprs arguments
  | .get object _ => object.Legible
  | .set object _ value => object.Legible ∧ value.Legible

def LegibleExprs : List Expr → Prop
  | [] => True
  | e :: es => e.Legible ∧ LegibleExprs es

end

mutual

/-- There are no strings in the statement, and its numbers are finite. -/
def Stmt.Legible : Stmt → Prop
  | .expression value | .print value => value.Legible
  | .var _ value | .ret _ value => ∀ e ∈ value, e.Legible
  | .block body => LegibleStmts body
  | .ifElse condition thenBranch none => condition.Legible ∧ thenBranch.Legible
  | .ifElse condition thenBranch (some elseBranch) =>
    condition.Legible ∧ thenBranch.Legible ∧ elseBranch.Legible
  | .loop condition body => condition.Legible ∧ body.Legible
  | .function definition => definition.Legible
  | .brk _ => True
  | .classDef _ _ methods => LegibleMethods methods

def LegibleStmts : List Stmt → Prop
  | [] => True
  | s :: ss => s.Legible ∧ LegibleStmts ss

def FunctionDef.Legible : FunctionDef → Prop
  | { body, .. } => LegibleStmts body

def LegibleMethods : List FunctionDef → Prop
  | [] => True
  | f :: fs => f.Legible ∧ LegibleMethods fs

end

theorem legibleExprs_iff {es : List Expr} : LegibleExprs es ↔ ∀ e ∈ es, e.Legible := by
  induction es with
  | nil => simp [LegibleExprs]
  | cons e es ih => rw [LegibleExprs, ih, List.forall_mem_cons]

theorem legibleStmts_iff {ss : List Stmt} : LegibleStmts ss ↔ ∀ s ∈ ss, s.Legible := by
  induction ss with
  | nil => simp [LegibleStmts]
  | cons s ss ih => rw [LegibleStmts, ih, List.forall_mem_cons]

theorem legibleMethods_iff {fs : List FunctionDef} :
    LegibleMethods fs ↔ ∀ f ∈ fs, f.Legible := by
  induction fs with
  | nil => simp [LegibleMethods]
  | cons f fs ih => rw [LegibleMethods, ih, List.forall_mem_cons]

mutual

def Expr.decidableLegible : (e : Expr) → Decidable e.Legible
  | .literal value => inferInstanceAs (Decidable value.Legible)
  | .grouping e | .unary _ e | .assign _ _ e | .get e _ => e.decidableLegible
  | .binary l _ r | .logical l _ r | .set l _ r =>
    @instDecidableAnd _ _ l.decidableLegible r.decidableLegible
  | .var .. | .thisRef .. | .superRef .. => .isTrue trivial
  | .call e _ es => @instDecidableAnd _ _ e.decidableLegible (decidableLegibleExprs es)

def decidableLegibleExprs : (es : List Expr) → Decidable (LegibleExprs es)
  | [] => .isTrue trivial
  | e :: es => @instDecidableAnd _ _ e.decidableLegible (decidableLegibleExprs es)

end

instance : DecidablePred Expr.Legible := Expr.decidableLegible

mutual

def Stmt.decidableLegible : (s : Stmt) → Decidable s.Legible
  | .expression e | .print e => inferInstanceAs (Decidable e.Legible)
  | .var _ v | .ret _ v => inferInstanceAs (Decidable (∀ e ∈ v, e.Legible))
  | .block ss => decidableLegibleStmts ss
  | .ifElse _ s none => @instDecidableAnd _ _ inferInstance s.decidableLegible
  | .ifElse _ s (some s') => @instDecidableAnd _ _ inferInstance
      (@instDecidableAnd _ _ s.decidableLegible s'.decidableLegible)
  | .loop _ s => @instDecidableAnd _ _ inferInstance s.decidableLegible
  | .function f => f.decidableLegible
  | .brk _ => .isTrue trivial
  | .classDef _ _ fs => decidableLegibleMethods fs

def decidableLegibleStmts : (ss : List Stmt) → Decidable (LegibleStmts ss)
  | [] => .isTrue trivial
  | s :: ss => @instDecidableAnd _ _ s.decidableLegible (decidableLegibleStmts ss)

def FunctionDef.decidableLegible : (f : FunctionDef) → Decidable f.Legible
  | { body, .. } => decidableLegibleStmts body

def decidableLegibleMethods : (fs : List FunctionDef) → Decidable (LegibleMethods fs)
  | [] => .isTrue trivial
  | f :: fs => @instDecidableAnd _ _ f.decidableLegible (decidableLegibleMethods fs)

end

instance : DecidablePred LegibleStmts := decidableLegibleStmts

/-! ## Trees of a source -/

namespace Grammar

variable {nearest : Bool} {symbol : Symbol} {n n' : RefId} {ts ts' : List Token}
  {tree : symbol.Tree}

/-- What a tree that can be read is found again in. -/
def Symbol.ReadsBack : (symbol : Symbol) → symbol.Tree → Prop
  | .primary, e | .call, e | .unary, e | .operand _, e | .operation _, e | .expression, e =>
    Expr.Legible e → Expr.ReadsBack e
  | .arguments, es => ∀ e ∈ es, Expr.Legible e → Expr.ReadsBack e
  | .optional, e => ∀ e' ∈ e, Expr.Legible e' → Expr.ReadsBack e'
  | .parameters, ps => ∀ p ∈ ps, Token.IsName p
  | .function, f => FunctionDef.Legible f → FunctionDef.ReadsBack f
  | .functions, fs => ∀ f ∈ fs, FunctionDef.Legible f → FunctionDef.ReadsBack f
  | .forInitializer, i => ∀ s ∈ i, Stmt.Legible s → Stmt.ReadsBack s
  | .varDeclaration, s | .expressionStatement, s | .statement _, s | .declaration, s =>
    Stmt.Legible s → Stmt.ReadsBack s
  | .declarations, ss => ∀ s ∈ ss, Stmt.Legible s → Stmt.ReadsBack s

theorem legible_node {l r : Expr} {o : Token} {level : Precedence} :
    (level.node l o r).Legible ↔ l.Legible ∧ r.Legible := by
  cases level <;> exact Iff.rfl

theorem isWord_of_mem_operators {level : Precedence} : ∀ k ∈ level.operators, k.isWord = true := by
  cases level <;> simp [Precedence.operators, Kind.isWord]

section

variable {s s' : Stmt} {i : Option Stmt} {c e : Option Expr} {b : Stmt}

theorem readsBack_pair (hs : s.Legible → s.ReadsBack) (hs' : s'.Legible → s'.ReadsBack)
    (h : (Stmt.block [s, s']).Legible) : (Stmt.block [s, s']).ReadsBack := by
  obtain ⟨h, h', -⟩ := h
  exact .block (List.forall_mem_cons.2 ⟨hs h, List.forall_mem_singleton.2 (hs' h')⟩)

theorem readsBack_forLoop (hi : ∀ s ∈ i, s.Legible → s.ReadsBack)
    (hc : ∀ e ∈ c, e.Legible → e.ReadsBack) (he : ∀ e' ∈ e, e'.Legible → e'.ReadsBack)
    (hb : b.Legible → b.ReadsBack) : (Stmt.forLoop i c e b).Legible →
      (Stmt.forLoop i c e b).ReadsBack := by
  have hmem : ("true", Kind.trueKw) ∈ Kind.keywords := by simp [Kind.keywords]
  have htrue : (Expr.literal (.bool true)).ReadsBack := .constant (.keyword hmem) rfl trivial
  have hloop : ∀ b : Stmt, (b.Legible → b.ReadsBack) →
      (Stmt.loop (c.getD (.literal (.bool true))) b).Legible →
        (Stmt.loop (c.getD (.literal (.bool true))) b).ReadsBack := by
    intro b hb hlegible
    refine .loop ?_ (hb hlegible.2)
    cases c with
    | none => exact htrue
    | some c => exact hc c rfl hlegible.1
  have hbehind : ∀ b : Stmt, (b.Legible → b.ReadsBack) →
      (Stmt.forLoop i c none b).Legible → (Stmt.forLoop i c none b).ReadsBack := by
    intro b hb
    cases i with
    | none => exact hloop b hb
    | some s => exact readsBack_pair (hi s rfl) (hloop b hb)
  cases e with
  | none => exact hbehind b hb
  | some e => exact hbehind _ (readsBack_pair hb fun h => .expression (he e rfl h))

end

/-- Legible trees of the tokens of a source are found again. -/
theorem Reads.readsBack (h : Reads nearest symbol n ts tree n' ts')
    (hts : ∀ t ∈ ts, t.IsLexeme) : symbol.ReadsBack tree := by
  induction h with
  -- expressions
  | constant hv => exact fun hlegible => .constant (hts _ List.mem_cons_self) hv hlegible
  | @this _ _ t ht =>
    exact fun _ => .thisRef ((hts t List.mem_cons_self).bare_eq ht (by simp [Kind.keywords])) _
  | @name _ _ t ht => exact fun _ => .var ⟨hts t List.mem_cons_self, ht⟩ _
  | @super _ _ k _ m hk _ hm =>
    exact fun _ => .superRef ((hts k (by simp)).bare_eq hk (by simp [Kind.keywords]))
      ⟨hts m (by simp), hm⟩ _
  | grouping _ _ _ ih =>
    exact fun hlegible => (ih (fun u hu => hts u (by simp [hu])) hlegible).grouping
  | @applyNone _ _ _ r _ _ _ h _ hr ih =>
    exact fun hlegible => .call ((hts r (h.mem_of_mem r (by simp))).bare_rightParen hr)
      (ih hts hlegible.1) (List.forall_mem_nil _)
  | @apply _ _ _ _ r _ ts₁ _ _ _ h _ hes hr _ ih ihes =>
    have hts₁ : ∀ u ∈ ts₁, u.IsLexeme := fun u hu =>
      hts u (h.mem_of_mem u (List.mem_cons_of_mem _ hu))
    exact fun hlegible => .call ((hts₁ r (hes.mem_of_mem r (by simp))).bare_rightParen hr)
      (ih hts hlegible.1) fun e he => ihes hts₁ e he (legibleExprs_iff.1 hlegible.2 e he)
  | @property _ _ _ m _ _ _ h _ hm ih =>
    exact fun hlegible => .get ⟨hts m (h.mem_of_mem m (by simp)), hm⟩ (ih hts hlegible)
  | firstArgument _ ih => exact List.forall_mem_singleton.2 (ih hts)
  | nextArgument h _ _ ihes ih =>
    refine List.forall_mem_append.2 ⟨ihes hts, List.forall_mem_singleton.2 (ih fun u hu => ?_)⟩
    exact hts u (h.mem_of_mem u (by simp [hu]))
  | @negate _ _ o _ _ _ ho _ ih =>
    have hword : o.kind.isWord = true := by rcases ho with ho | ho <;> rw [ho] <;> rfl
    exact fun hlegible => .unary ho ((hts o (by simp)).spells hword)
      (ih (fun u hu => hts u (by simp [hu])) hlegible)
  | @nextOperand _ _ _ o _ _ _ _ _ level h ho _ ih₁ ih₂ =>
    intro hlegible
    obtain ⟨hl, hr⟩ := legible_node.1 hlegible
    exact .node ho ((hts o (h.mem_of_mem o (by simp))).spells (isWord_of_mem_operators _ ho))
      (ih₁ hts hl) (ih₂ (fun u hu => hts u (h.mem_of_mem u (by simp [hu]))) hr)
  | @assign _ _ t _ _ _ _ ht _ _ ih =>
    exact fun hlegible => .assign ⟨hts t (by simp), ht⟩
      (ih (fun u hu => hts u (by simp [hu])) hlegible) _
  | @assignProperty _ _ _ _ m _ _ _ _ _ _ h _ hm _ _ ih₁ ih₂ =>
    exact fun hlegible => .set ⟨hts m (h.mem_of_mem m (by simp)), hm⟩ (ih₁ hts hlegible.1)
      (ih₂ (fun u hu => hts u (h.mem_of_mem u (by simp [hu]))) hlegible.2)
  | absent => exact fun e he => absurd he (Option.not_mem_none e)
  | present _ ih => rintro _ ⟨⟩; exact ih hts
  -- statements
  | @varDeclaration _ _ t _ _ _ ht =>
    intro _
    refine .var ⟨hts t (by simp), ht⟩ fun e he => ?_
    exact absurd he (Option.not_mem_none e)
  | @varInitializer _ _ _ t _ _ _ _ _ _ ht _ _ _ ih =>
    intro hlegible
    refine .var ⟨hts t (by simp), ht⟩ ?_
    rintro _ ⟨⟩
    exact ih (fun u hu => hts u (by simp [hu])) (hlegible _ rfl)
  | expressionStatement _ _ ih => exact fun hlegible => .expression (ih hts hlegible)
  | print _ _ _ ih =>
    exact fun hlegible => .print (ih (fun u hu => hts u (by simp [hu])) hlegible)
  | @ret _ _ k _ _ _ _ hk _ _ ih =>
    exact fun hlegible => .ret ((hts k (by simp)).bare_eq hk (by simp [Kind.keywords]))
      fun e he => ih (fun u hu => hts u (by simp [hu])) e he (hlegible e he)
  | @brk _ k _ _ hk _ =>
    exact fun _ => .brk ((hts k (by simp)).bare_eq hk (by simp [Kind.keywords]))
  | block _ _ _ ih =>
    exact fun hlegible => .block fun s hs =>
      ih (fun u hu => hts u (by simp [hu])) s hs (legibleStmts_iff.1 hlegible s hs)
  | loop _ _ h _ _ ihc ihs =>
    exact fun hlegible => .loop (ihc (fun u hu => hts u (by simp [hu])) hlegible.1)
      (ihs (fun u hu => hts u (by simp [h.mem_of_mem u (List.mem_cons_of_mem _ hu)])) hlegible.2)
  | ifOnly _ _ h _ _ ihc ihs =>
    exact fun hlegible => .ifOnly (ihc (fun u hu => hts u (by simp [hu])) hlegible.1)
      (ihs (fun u hu => hts u (by simp [h.mem_of_mem u (List.mem_cons_of_mem _ hu)])) hlegible.2)
  | @ifElse _ _ _ _ _ _ _ _ _ ts₁ _ _ _ _ _ _ _ _ _ h _ h₁ _ _ _ ihc ihs₁ ihs₂ =>
    have hts₁ : ∀ u ∈ ts₁, u.IsLexeme := fun u hu =>
      hts u (by simp [h.mem_of_mem u (List.mem_cons_of_mem _ hu)])
    exact fun hlegible => .ifElse (ihc (fun u hu => hts u (by simp [hu])) hlegible.1)
      (ihs₁ hts₁ hlegible.2.1)
      (ihs₂ (fun u hu => hts₁ u (h₁.mem_of_mem u (List.mem_cons_of_mem _ hu))) hlegible.2.2)
  | noInitializer _ => exact fun s hs => absurd hs (Option.not_mem_none s)
  | varForInitializer _ ih | expressionForInitializer _ ih => rintro _ ⟨⟩; exact ih hts
  | @forLoop _ _ _ _ _ _ _ _ _ _ ts₁ ts₂ ts₃ _ _ _ _ _ _ _ _ hi hc _ he _ _ ihi ihc ihe ihb =>
    have hts₁ : ∀ u ∈ ts₁, u.IsLexeme := fun u hu => hts u (by simp [hi.mem_of_mem u hu])
    have hts₂ : ∀ u ∈ ts₂, u.IsLexeme := fun u hu =>
      hts₁ u (hc.mem_of_mem u (List.mem_cons_of_mem _ hu))
    have hts₃ : ∀ u ∈ ts₃, u.IsLexeme := fun u hu =>
      hts₂ u (he.mem_of_mem u (List.mem_cons_of_mem _ hu))
    exact readsBack_forLoop (ihi fun u hu => hts u (by simp [hu])) (ihc hts₁) (ihe hts₂) (ihb hts₃)
  -- functions and classes
  | @firstParameter _ t _ ht => exact List.forall_mem_singleton.2 ⟨hts t (by simp), ht⟩
  | @nextParameter _ _ t _ _ _ h _ ht ih =>
    exact List.forall_mem_append.2 ⟨ih hts, List.forall_mem_singleton.2
      ⟨hts t (h.mem_of_mem t (by simp)), ht⟩⟩
  | @functionNone _ _ t _ _ _ _ _ _ _ ht _ _ _ _ _ ih =>
    exact fun hlegible => .of_parts ⟨hts t (by simp), ht⟩ (List.forall_mem_nil _) fun s hs =>
      ih (fun u hu => hts u (by simp [hu])) s hs (legibleStmts_iff.1 hlegible s hs)
  | @function _ _ t _ _ _ _ _ ts₁ _ _ _ ht _ hps _ _ _ _ _ ihps ih =>
    have hts₁ : ∀ u ∈ ts₁, u.IsLexeme := fun u hu =>
      hts u (by simp [hps.mem_of_mem u (by simp [hu])])
    exact fun hlegible => .of_parts ⟨hts t (by simp), ht⟩
      (ihps fun u hu => hts u (by simp [hu])) fun s hs =>
        ih hts₁ s hs (legibleStmts_iff.1 hlegible s hs)
  | noFunctions => exact List.forall_mem_nil _
  | nextFunction h _ ih ihs =>
    exact List.forall_mem_cons.2 ⟨ih hts, ihs fun u hu => hts u (h.mem_of_mem u hu)⟩
  | @classDeclaration _ _ _ t _ _ _ _ _ _ ht _ _ _ ih =>
    exact fun hlegible => .classDef ⟨hts t (by simp), ht⟩
      (fun s hs => absurd hs (Option.not_mem_none s)) fun f hf =>
        ih (fun u hu => hts u (by simp [hu])) f hf (legibleMethods_iff.1 hlegible f hf)
  | @derivedClass _ _ _ t _ s _ _ _ _ _ _ ht _ hs _ _ _ ih =>
    intro hlegible
    refine .classDef ⟨hts t (by simp), ht⟩ ?_ fun f hf =>
      ih (fun u hu => hts u (by simp [hu])) f hf (legibleMethods_iff.1 hlegible f hf)
    rintro _ ⟨⟩
    exact ⟨hts s (by simp), hs⟩
  | functionDeclaration _ _ ih =>
    exact fun hlegible => .function (ih (fun u hu => hts u (by simp [hu])) hlegible)
  | noDeclarations => exact List.forall_mem_nil _
  | nextDeclaration h _ ih ihs =>
    exact List.forall_mem_cons.2 ⟨ih hts, ihs fun u hu => hts u (h.mem_of_mem u hu)⟩
  -- the other rules leave the tree as it is
  | primaryCall _ ih | callUnary _ ih | unaryOperand _ _ ih | tighterOperand _ _ ih
  | firstOperand _ ih | operations _ ih | expressionAsStatement _ ih | variableDeclaration _ ih
  | statement _ ih => exact ih hts

end Grammar

/-! ## Printed programs -/

/-- A program that was read without a mistake is found again in what is printed of it. -/
theorem readProgram?_printed {source : List UInt8} {firstId : RefId}
    (herrors : (Parse.program (tokens source) firstId).errors = [])
    (hlegible : LegibleStmts (Parse.program (tokens source) firstId).tree) :
    readProgram? (printedProgram (Parse.program (tokens source) firstId).tree) =
      some (bareStmts (Parse.program (tokens source) firstId).tree) := by
  obtain ⟨body, hbody, hinside⟩ := Lexer.exists_tokens_eq source
  have hlexemes : ∀ t ∈ body, t.IsLexeme := fun t ht =>
    Lexer.lexeme_of_mem_tokens (by rw [hbody]; exact List.mem_append_left _ ht) (hinside t ht)
  rw [hbody] at herrors hlegible ⊢
  have hreads := (Grammar.reads_of_program hinside rfl herrors).readsBack hlexemes
  generalize (Parse.program (body ++ _) firstId).tree = tree at hlegible hreads ⊢
  have hback : ∀ s ∈ tree, s.ReadsBack := fun s hs =>
    hreads s hs (legibleStmts_iff.1 hlegible s hs)
  obtain ⟨hproper, hread⟩ := stmtForms_readBack hback
  rw [readProgram?, printedProgram, ← texts_stmtForms, formsOf_intercalate rfl (.inr rfl) hproper,
    hread]

section

variable {source source' : List UInt8} {firstId firstId' : RefId}

/-- **The printed program determines the tree.** Of two programs that are read without a mistake, in
    which there are no strings and all numbers are finite, and of which the same is printed, the
    trees differ in nothing but the identities of their references and the lines of their tokens.
    Trees do not keep how a number was spelled. -/
theorem printed_program_determines_tree
    (herrors : (Parse.program (tokens source) firstId).errors = [])
    (herrors' : (Parse.program (tokens source') firstId').errors = [])
    (hlegible : LegibleStmts (Parse.program (tokens source) firstId).tree)
    (hlegible' : LegibleStmts (Parse.program (tokens source') firstId').tree)
    (hprinted : printedProgram (Parse.program (tokens source) firstId).tree =
      printedProgram (Parse.program (tokens source') firstId').tree) :
    bareStmts (Parse.program (tokens source) firstId).tree =
      bareStmts (Parse.program (tokens source') firstId').tree := by
  have hread := readProgram?_printed herrors hlegible
  rw [hprinted, readProgram?_printed herrors' hlegible'] at hread
  exact (Option.some.inj hread).symm

end

/-- Two minus signs, and a number. -/
def twoMinuses : List UInt8 := bytesOf "print -a - 1;"

/-- The same on two lines, and the number spelled in another way. -/
def twoMinusesApart : List UInt8 := bytesOf "print\n-a-1.0;"

theorem printed_program_determines_tree_twoMinuses :
    printedProgram (Parse.program (tokens twoMinuses) 0).tree = "(print (- (- a) 1.0))" ∧
      bareStmts (Parse.program (tokens twoMinuses) 0).tree =
        bareStmts (Parse.program (tokens twoMinusesApart) 5).tree := by
  have hprinted : printedProgram (Parse.program (tokens twoMinuses) 0).tree =
      "(print (- (- a) 1.0))" := by decide +kernel
  have hprinted' : printedProgram (Parse.program (tokens twoMinusesApart) 5).tree =
      "(print (- (- a) 1.0))" := by decide +kernel
  exact ⟨hprinted, printed_program_determines_tree (by decide +kernel) (by decide +kernel)
    (by decide +kernel) (by decide +kernel) (hprinted.trans hprinted'.symm)⟩

end Lox
