import Lox.Proofs.Grammar.Runs
import Lox.Proofs.Grammar.Soundness.Expression

set_option autoImplicit false

/-! # What is in the grammar the parser reads

The parser decides by the next token alone, so that a rule run where a tree of its symbol can be
read must not be led astray by that token: neither by the first token of the tree (`Reads.starts`)
nor by the first token behind it (`Ends`). The trees that the grammar builds up from the left are
read by loops; such a loop, started where the tree begins, gets to the end of the tree with the tree
in hand (`LoopsTo`), and whether it stops there depends on what follows. -/

namespace Lox.Grammar

open Parse

/-! ## First tokens -/

/-- The kinds with which primary expressions begin. -/
def startsPrimary : Kind → Bool
  | .number _ | .string _ | .trueKw | .falseKw | .nilKw | .thisKw | .superKw | .identifier
  | .leftParen => true
  | _ => false

/-- The kinds with which expressions begin. -/
def startsExpression (k : Kind) : Bool :=
  match k with
  | .bang | .minus => true
  | k => startsPrimary k

/-- The kinds with which statements begin. -/
def startsPlain (k : Kind) : Bool :=
  match k with
  | .forKw | .ifKw | .whileKw | .returnKw | .breakKw | .leftBrace | .printKw => true
  | k => startsExpression k

/-- The kinds with which trees of a symbol begin, if they cannot be empty. -/
def Symbol.starts (symbol : Symbol) (k : Kind) : Bool :=
  match symbol, k with
  | primary, k | call, k => startsPrimary k
  | arguments, k | unary, k | operand _, k | operation _, k | expression, k
  | expressionStatement, k => startsExpression k
  | parameters, .identifier | function, .identifier => true
  | varDeclaration, .varKw => true
  | forInitializer, .semicolon | forInitializer, .varKw => true
  | forInitializer, k => startsExpression k
  | statement _, k => startsPlain k
  | declaration, .classKw | declaration, .funKw | declaration, .varKw => true
  | declaration, k => startsPlain k
  | _, _ => false

theorem startsPrimary_of_constant {k : Kind} {v : Literal} (h : constant? k = some v) :
    startsPrimary k = true := by
  cases k <;> first | rfl | exact nomatch h

theorem startsExpression_of_primary {k : Kind} (h : startsPrimary k = true) :
    startsExpression k = true := by
  cases k <;> first | rfl | exact h

theorem startsPlain_of_expression {k : Kind} (h : startsExpression k = true) :
    startsPlain k = true := by
  cases k <;> first | rfl | exact h

theorem starts_forInitializer_of_expression {k : Kind} (h : startsExpression k = true) :
    Symbol.forInitializer.starts k = true := by
  cases k <;> first | rfl | exact h

theorem starts_declaration_of_plain {k : Kind} (h : startsPlain k = true) :
    Symbol.declaration.starts k = true := by
  cases k <;> first | rfl | exact h

theorem kind_of_starts_varDeclaration {k : Kind} (h : Symbol.varDeclaration.starts k = true) :
    k = .varKw := by
  cases k <;> first | rfl | exact nomatch h

/-- A tree that cannot be empty is read from a first token. -/
theorem Reads.starts {nearest : Bool} {symbol : Symbol} {n n' : RefId} {ts ts' : List Token}
    {tree : symbol.Tree} (h : Reads nearest symbol n ts tree n' ts') (hs : symbol.least ≠ 0) :
    ∃ t rest, ts = t :: rest ∧ symbol.starts t.kind = true := by
  induction h with
  | constant ht => exact ⟨_, _, rfl, startsPrimary_of_constant ht⟩
  | negate ho => exact ⟨_, _, rfl, by rcases ho with ho | ho <;> rw [ho] <;> rfl⟩
  | primaryCall _ ih | applyNone _ _ _ ih | property _ _ _ ih | firstArgument _ ih
  | unaryOperand _ _ ih | tighterOperand _ _ ih | firstOperand _ ih | operations _ ih
  | expressionStatement _ _ ih | nextParameter _ _ _ ih =>
    obtain ⟨t, rest, hts, ht⟩ := ih Nat.one_ne_zero
    exact ⟨t, rest, hts, ht⟩
  | varForInitializer _ ih | variableDeclaration _ ih =>
    obtain ⟨t, rest, hts, ht⟩ := ih Nat.one_ne_zero
    exact ⟨t, rest, hts, by rw [kind_of_starts_varDeclaration ht]; rfl⟩
  | apply _ _ _ _ _ ih | nextArgument _ _ _ ih | nextOperand _ _ _ ih =>
    obtain ⟨t, rest, hts, ht⟩ := ih Nat.one_ne_zero
    exact ⟨t, rest, hts, ht⟩
  | callUnary _ ih =>
    obtain ⟨t, rest, hts, ht⟩ := ih Nat.one_ne_zero
    exact ⟨t, rest, hts, startsExpression_of_primary ht⟩
  | assignProperty _ _ _ _ _ ih =>
    obtain ⟨t, rest, hts, ht⟩ := ih Nat.one_ne_zero
    exact ⟨t, rest, hts, startsExpression_of_primary ht⟩
  | expressionAsStatement _ ih =>
    obtain ⟨t, rest, hts, ht⟩ := ih Nat.one_ne_zero
    exact ⟨t, rest, hts, startsPlain_of_expression ht⟩
  | expressionForInitializer _ ih =>
    obtain ⟨t, rest, hts, ht⟩ := ih Nat.one_ne_zero
    exact ⟨t, rest, hts, starts_forInitializer_of_expression ht⟩
  | statement _ ih =>
    obtain ⟨t, rest, hts, ht⟩ := ih Nat.one_ne_zero
    exact ⟨t, rest, hts, starts_declaration_of_plain ht⟩
  | absent | present | noFunctions | nextFunction | noDeclarations | nextDeclaration =>
    exact absurd rfl hs
  | this ht | name ht | super ht | grouping ht | assign ht | varDeclaration ht | varInitializer ht
  | print ht | ret ht | brk ht | block ht | loop ht | ifOnly ht | ifElse ht | noInitializer ht
  | forLoop ht | firstParameter ht | functionNone ht | function ht | classDeclaration ht
  | derivedClass ht | functionDeclaration ht =>
    exact ⟨_, _, rfl, by rw [ht]; rfl⟩

/-! ## Tokens behind a tree -/

/-- How loosely a token can continue an expression: 0 for calls and properties, then the operators
    from the tightest to the loosest, then the equals sign, and 8 for all other tokens. -/
def looseness : Kind → Nat
  | .leftParen | .dot => 0
  | .star | .slash => 1
  | .minus | .plus => 2
  | .greater | .greaterEqual | .less | .lessEqual => 3
  | .bangEqual | .equalEqual => 4
  | .andKw => 5
  | .orKw => 6
  | .equal => 7
  | _ => 8

/-- An expression of some looseness ends before these tokens. -/
def Ends (k : Nat) (ts : List Token) : Prop := ∀ t ∈ ts.head?, k ≤ looseness t.kind

theorem Ends.mono {k k' : Nat} {ts : List Token} (h : Ends k ts) (hk : k' ≤ k) : Ends k' ts :=
  fun t ht => Nat.le_trans hk (h t ht)

theorem ends_of_kind {k : Nat} {t : Token} {ts : List Token} {kind : Kind} (ht : t.kind = kind)
    (hk : k ≤ looseness kind) : Ends k (t :: ts) := by
  intro t' ht'
  cases ht'
  rwa [ht]

theorem looseness_of_mem {p : Precedence} {k : Kind} (h : k ∈ p.operators) :
    looseness k = p.rank + 1 := by
  cases p <;> simp only [Precedence.operators, List.mem_cons, List.not_mem_nil, or_false] at h <;>
    rcases h with rfl | rfl | rfl | rfl <;> rfl

/-! ## The loops of the parser -/

/-- One call or property behind an expression. -/
def callStep (inner : Parser Expr) (e : Expr) : Parser (Option Expr) := do
  match (← peek).kind with
  | .leftParen => advance; return some (← finishCall inner e)
  | .dot => advance; return some (.get e (← expect .identifier .noPropertyName))
  | _ => return none

/-- One item behind a comma. -/
def commaStep {α : Type} (tooMany : SyntaxProblem) (item : Parser α) (items : Array α) :
    Parser (Option (Array α)) := do
  match ← take? .comma with
  | none => return none
  | some _ =>
    if maxArity ≤ items.size then report tooMany
    return some (items.push (← item))

/-- One operator in front of an operand. -/
def operatorStep (operators : List Token) : Parser (Option (List Token)) := do
  return (← takeIf isPrefixOperator).map (· :: operators)

/-- An operand with the operators in front of it applied. -/
def operandBehind (inner : Parser Expr) (operators : List Token) : Parser Expr := do
  let operand ← call inner
  return operators.foldl (fun e operator => .unary operator e) operand

/-- One operator with an operand behind it. -/
def chainStep (operand : Parser Expr) (level : Level) (left : Expr) : Parser (Option Expr) := do
  match ← takeIf fun kind => level.operators.any kind.sameAs with
  | none => return none
  | some operator => return some (level.node left operator (← operand))

/-- The items of a list with commas, before they are put into a list. -/
def commaItems {α : Type} (tooMany : SyntaxProblem) (item : Parser α) : Parser (Array α) := do
  repeatFrom #[← item] (commaStep tooMany item)

theorem commaList_eq {α : Type} (tooMany : SyntaxProblem) (item : Parser α) :
    commaList tooMany item = do return (← commaItems tooMany item).toList :=
  (bind_assoc _ _ _).symm

theorem unary_eq (inner : Parser Expr) :
    unary inner = repeatFrom [] operatorStep >>= operandBehind inner := rfl

/-! ## Expressions -/

/-- What the parser does with a tree of the grammar, in nested expressions as deep as a list of
    tokens is long. -/
def Completes : (symbol : Symbol) → RefId → List Token → symbol.Tree → RefId → List Token → Prop
  | .primary, n, ts, e, n', ts' => ∀ bound : List Token, ts.length ≤ bound.length + 1 →
    Succeeds (primary (expressionWithin bound)) n ts e n' ts'
  | .call, n, ts, e, n', ts' => ∀ bound : List Token, ts.length ≤ bound.length + 1 →
    LoopsTo (call (expressionWithin bound)) (callStep (expressionWithin bound)) n ts e n' ts'
  | .arguments, n, ts, es, n', ts' => ∀ bound : List Token, ts.length ≤ bound.length →
    es.length ≤ 255 → Ends 8 ts' →
    LoopsTo (commaItems .tooManyArguments (expressionWithin bound))
      (commaStep .tooManyArguments (expressionWithin bound)) n ts es.toArray n' ts'
  | .unary, n, ts, e, n', ts' => ∀ bound : List Token, ts.length ≤ bound.length + 1 → Ends 1 ts' →
    ∀ (steps operators : List Token), ts.length ≤ steps.length →
    Succeeds (repeatOver operatorStep steps operators >>= operandBehind (expressionWithin bound))
      n ts (operators.foldl (fun e operator => .unary operator e) e) n' ts'
  | .operand p, n, ts, e, n', ts' => ∀ bound : List Token, ts.length ≤ bound.length + 1 →
    Ends (p.rank + 1) ts' → Succeeds (p.operandRule (expressionWithin bound)) n ts e n' ts'
  | .operation p, n, ts, e, n', ts' => ∀ bound : List Token, ts.length ≤ bound.length + 1 →
    Ends (p.rank + 1) ts' →
    LoopsTo (Level.chain (p.operandRule (expressionWithin bound)) p.level)
      (chainStep (p.operandRule (expressionWithin bound)) p.level) n ts e n' ts'
  | .expression, n, ts, e, n', ts' => ∀ bound : List Token, ts.length ≤ bound.length →
    Ends 8 ts' → Succeeds (expressionWithin bound) n ts e n' ts'
  | _, _, _, _, _, _ => True

section

variable {n n₁ n' : RefId} {ts ts₁ ts' : List Token}

theorem completes_constant {t : Token} {v : Literal} (ht : constant? t.kind = some v) :
    Completes .primary n (t :: ts) (.literal v) n ts := by
  intro bound _
  refine succeeds_peek.bind ?_
  split <;> rename_i hk <;> simp only [hk, constant?] at ht <;> cases ht <;>
    exact succeeds_advance.bind (.pure _)

theorem completes_this {t : Token} (ht : t.kind = .thisKw) :
    Completes .primary n (t :: ts) (.thisRef n t) (n + 1) ts := by
  intro bound _
  refine succeeds_peek.bind ?_
  rw [ht]
  exact succeeds_advance.bind (succeeds_freshId.bind (.pure _))

theorem completes_name {t : Token} (ht : t.kind = .identifier) :
    Completes .primary n (t :: ts) (.var n t) (n + 1) ts := by
  intro bound _
  refine succeeds_peek.bind ?_
  rw [ht]
  exact succeeds_advance.bind (succeeds_freshId.bind (.pure _))

theorem completes_super {k d m : Token} (hk : k.kind = .superKw) (hd : d.kind = .dot)
    (hm : m.kind = .identifier) :
    Completes .primary n (k :: d :: m :: ts) (.superRef n k m) (n + 1) ts := by
  intro bound _
  refine succeeds_peek.bind ?_
  rw [hk]
  exact succeeds_advance.bind ((succeeds_expect hd).bind ((succeeds_expect hm).bind
    (succeeds_freshId.bind (.pure _))))

theorem completes_grouping {l r : Token} {e : Expr} (hl : l.kind = .leftParen)
    (h : Completes .expression n ts e n' (r :: ts')) (hr : r.kind = .rightParen) :
    Completes .primary n (l :: ts) (.grouping e) n' ts' := by
  intro bound hbound
  have hinner := h bound (Nat.le_of_succ_le_succ hbound) (ends_of_kind hr (by decide))
  refine succeeds_peek.bind ?_
  rw [hl]
  exact succeeds_advance.bind (hinner.bind ((succeeds_expect hr).bind (.pure _)))

theorem completes_primaryCall {e : Expr} (h : Completes .primary n ts e n' ts') :
    Completes .call n ts e n' ts' :=
  fun bound hbound => (h bound hbound).loop

theorem completes_applyNone {l r : Token} {f : Expr}
    (h : Completes .call n ts f n' (l :: r :: ts')) (hl : l.kind = .leftParen)
    (hr : r.kind = .rightParen) : Completes .call n ts (.call f r []) n' ts' := by
  intro bound hbound
  refine (h bound hbound).again (succeeds_peek.bind ?_) (Nat.le_succ _)
  rw [hl]
  refine succeeds_advance.bind (Succeeds.bind (a := .call f r []) ?_ (.pure _))
  exact (succeeds_nextIs hr).bind ((succeeds_expect hr).bind (.pure _))

theorem completes_apply {l r : Token} {f : Expr} {es : List Expr}
    (hf : Completes .call n ts f n₁ (l :: ts₁)) (hl : l.kind = .leftParen)
    (hstart : ∀ t ∈ ts₁.head?, startsExpression t.kind = true)
    (hes : Completes .arguments n₁ ts₁ es n' (r :: ts')) (hr : r.kind = .rightParen)
    (hsize : es.length ≤ 255) (hlength : ts₁.length + 1 ≤ ts.length)
    (hlength' : ts'.length + 2 ≤ ts₁.length) :
    Completes .call n ts (.call f r es) n' ts' := by
  intro bound hbound
  refine (hf bound hbound).again (succeeds_peek.bind ?_) (by omega)
  rw [hl]
  refine succeeds_advance.bind (Succeeds.bind (a := .call f r es) ?_ (.pure _))
  have hes := hes bound (by omega) hsize (ends_of_kind hr (by decide))
  have hstop : Succeeds (commaStep .tooManyArguments (expressionWithin bound) es.toArray) n'
      (r :: ts') none n' (r :: ts') :=
    (succeeds_take?_none rfl (by rintro _ ⟨⟩; simp [hr])).bind (.pure _)
  have hlist : Succeeds (commaList .tooManyArguments (expressionWithin bound)) n₁ ts₁ es n'
      (r :: ts') := by
    rw [commaList_eq]
    exact (hes.stop hstop).bind (.pure _)
  refine (succeeds_nextIs_not rfl fun t ht hk => ?_).bind
    (hlist.bind ((succeeds_expect hr).bind (.pure _)))
  have := hstart t ht
  rw [hk] at this
  exact nomatch this

theorem completes_property {d m : Token} {o : Expr} (h : Completes .call n ts o n' (d :: m :: ts'))
    (hd : d.kind = .dot) (hm : m.kind = .identifier) :
    Completes .call n ts (.get o m) n' ts' := by
  intro bound hbound
  refine (h bound hbound).again (succeeds_peek.bind ?_) (Nat.le_succ _)
  rw [hd]
  exact succeeds_advance.bind ((succeeds_expect hm).bind (.pure _))

theorem completes_firstArgument {e : Expr} (h : Completes .expression n ts e n' ts') :
    Completes .arguments n ts [e] n' ts' :=
  fun bound hbound _ hends => (h bound hbound hends).loop (f := fun e => #[e])

theorem completes_nextArgument {c : Token} {es : List Expr} {e : Expr}
    (hes : Completes .arguments n ts es n₁ (c :: ts₁)) (hc : c.kind = .comma)
    (h : Completes .expression n₁ ts₁ e n' ts') (hlength : ts₁.length + 1 ≤ ts.length)
    (hlength' : ts'.length ≤ ts₁.length) :
    Completes .arguments n ts (es ++ [e]) n' ts' := by
  intro bound hbound hsize hends
  rw [List.length_append, List.length_singleton] at hsize
  rw [← List.push_toArray]
  have hes := hes bound hbound (by omega) (ends_of_kind hc (by decide))
  refine hes.again ((succeeds_take? hc).bind ?_) hlength'
  have hfew : ¬ maxArity ≤ es.toArray.size := by simp only [maxArity, List.size_toArray]; omega
  simp only [hfew, if_false]
  exact (h bound (by omega) hends).bind (.pure _)

/-- Nothing continues a call before a token that is looser. -/
theorem stop_call {inner : Parser Expr} {e : Expr} (hends : Ends 1 ts) :
    Succeeds (callStep inner e) n ts none n ts := by
  cases ts with
  | nil =>
    rintro s ⟨final, hfinal, hkind⟩
    have hpeek : peek (s.moved n []) = .ok final (s.moved n []) := by
      simp only [peek, State.next?, State.moved, hfinal, List.head?_nil, Option.none_or]
    simp only [callStep, bind_of_ok hpeek, hkind]
    rfl
  | cons t ts =>
    refine succeeds_peek.bind ?_
    have ht : 1 ≤ looseness t.kind := hends t rfl
    split
    case h_1 hk => rw [hk] at ht; exact absurd ht (by decide)
    case h_2 hk => rw [hk] at ht; exact absurd ht (by decide)
    case h_3 => exact .pure _

theorem completes_callUnary {e : Expr} (h : Completes .call n ts e n' ts')
    (hstart : ∀ t ∈ ts.head?, startsPrimary t.kind = true) : Completes .unary n ts e n' ts' := by
  intro bound hbound hends steps operators hsteps
  have hnone : Succeeds (operatorStep operators) n ts none n ts := by
    refine (succeeds_takeIf_none fun t ht => Bool.eq_false_iff.2 fun hp => ?_).bind (.pure _)
    have := hstart t ht
    rcases isPrefixOperator_iff.1 hp with hk | hk <;> rw [hk] at this <;> exact nomatch this
  have hcall := (h bound hbound).stop (stop_call hends)
  exact ((LoopsTo.start hsteps).stop hnone).bind (hcall.bind (.pure _))

theorem completes_negate {o : Token} {e : Expr} (ho : o.kind = .bang ∨ o.kind = .minus)
    (h : Completes .unary n ts e n' ts') : Completes .unary n (o :: ts) (.unary o e) n' ts' := by
  intro bound hbound hends steps operators hsteps
  cases steps with
  | nil => exact absurd hsteps (by simp)
  | cons t steps =>
    have hstep : Succeeds (operatorStep operators) n (o :: ts) (some (o :: operators)) n ts :=
      (succeeds_takeIf (isPrefixOperator_iff.2 ho)).bind (.pure _)
    exact hstep.loop_bind (h bound (Nat.le_of_succ_le hbound) hends steps (o :: operators)
      (Nat.le_of_succ_le_succ hsteps))

theorem completes_unaryOperand {p : Precedence} {e : Expr} (hp : p.tighter? = none)
    (h : Completes .unary n ts e n' ts') : Completes (.operand p) n ts e n' ts' := by
  intro bound hbound hends
  rw [Precedence.operandRule_of_none hp, unary_eq]
  exact h bound hbound (hends.mono (Nat.le_add_left 1 _)) ts [] (Nat.le_refl _)

theorem stop_chain {operand : Parser Expr} {p : Precedence} {e : Expr}
    (hends : Ends (p.rank + 2) ts) : Succeeds (chainStep operand p.level e) n ts none n ts := by
  refine (succeeds_takeIf_none fun t ht => Bool.eq_false_iff.2 fun ho => ?_).bind (.pure _)
  have := hends t ht
  rw [looseness_of_mem (Precedence.any_operators_iff.1 ho)] at this
  omega

theorem completes_tighterOperand {p q : Precedence} {e : Expr} (hp : p.tighter? = some q)
    (h : Completes (.operation q) n ts e n' ts') : Completes (.operand p) n ts e n' ts' := by
  intro bound hbound hends
  rw [Precedence.operandRule_of_some hp]
  rw [Precedence.rank_of_tighter hp] at hends
  exact (h bound hbound (hends.mono (Nat.le_succ _))).stop (stop_chain hends)

theorem completes_firstOperand {p : Precedence} {e : Expr}
    (h : Completes (.operand p) n ts e n' ts') : Completes (.operation p) n ts e n' ts' :=
  fun bound hbound hends => (h bound hbound hends).loop

theorem completes_nextOperand {p : Precedence} {o : Token} {e₁ e₂ : Expr}
    (h₁ : Completes (.operation p) n ts e₁ n₁ (o :: ts₁)) (ho : o.kind ∈ p.operators)
    (h₂ : Completes (.operand p) n₁ ts₁ e₂ n' ts') (hlength : ts₁.length + 1 ≤ ts.length)
    (hlength' : ts'.length ≤ ts₁.length) :
    Completes (.operation p) n ts (p.node e₁ o e₂) n' ts' := by
  intro bound hbound hends
  have h₁ := h₁ bound hbound (ends_of_kind rfl (Nat.le_of_eq (looseness_of_mem ho).symm))
  refine h₁.again ((succeeds_takeIf (Precedence.any_operators_iff.2 ho)).bind ?_) hlength'
  exact (h₂ bound (by omega) hends).bind (.pure _)

theorem completes_operations {e : Expr} (h : Completes (.operation .or) n ts e n' ts')
    (hne : ts ≠ []) : Completes .expression n ts e n' ts' := by
  intro bound hbound hends
  cases bound with
  | nil => exact absurd (List.eq_nil_of_length_eq_zero (Nat.le_zero.1 hbound)) hne
  | cons t bound =>
    have h := (h bound hbound (hends.mono (by decide))).stop (stop_chain (hends.mono (by decide)))
    refine Succeeds.bind h ((succeeds_take?_none rfl fun t ht hk => ?_).bind (.pure _))
    have := hends t ht
    rw [hk] at this
    exact absurd this (by decide)

/-- An operation that is a variable or a property, up to an equals sign. -/
theorem operation_of_call {q : Token} {e : Expr} (h : Completes .call n ts e n' (q :: ts'))
    (hstart : ∀ t ∈ ts.head?, startsPrimary t.kind = true) (hq : q.kind = .equal)
    (bound : List Token) (hbound : ts.length ≤ bound.length + 1) :
    Succeeds (operation (expressionWithin bound)) n ts e n' (q :: ts') := by
  have hfactor : Completes (.operation .factor) n ts e n' (q :: ts') :=
    completes_firstOperand (completes_unaryOperand rfl (completes_callUnary h hstart))
  have hequality : Completes (.operation .equality) n ts e n' (q :: ts') :=
    completes_firstOperand (completes_tighterOperand rfl (completes_firstOperand
      (completes_tighterOperand rfl (completes_firstOperand
        (completes_tighterOperand rfl hfactor)))))
  have hor : Completes (.operation .or) n ts e n' (q :: ts') :=
    completes_firstOperand (completes_tighterOperand rfl (completes_firstOperand
      (completes_tighterOperand rfl hequality)))
  exact (hor bound hbound (ends_of_kind hq (by decide))).stop
    (stop_chain (ends_of_kind hq (by decide)))

theorem completes_assign {t q : Token} {e : Expr} (ht : t.kind = .identifier)
    (hq : q.kind = .equal) (h : Completes .expression (n + 1) ts e n' ts') :
    Completes .expression n (t :: q :: ts) (.assign n' t e) (n' + 1) ts' := by
  intro bound hbound hends
  cases bound with
  | nil => exact absurd hbound (by simp)
  | cons u bound =>
    have hbound : ts.length + 1 ≤ bound.length := Nat.le_of_succ_le_succ hbound
    have htarget : Succeeds (operation (expressionWithin bound)) n (t :: q :: ts) (.var n t) (n + 1)
        (q :: ts) := operation_of_call (completes_primaryCall (completes_name ht))
      (by rintro _ ⟨⟩; rw [ht]; rfl) hq bound (by simp only [List.length_cons]; omega)
    refine Succeeds.bind htarget ((succeeds_take? hq).bind ?_)
    exact (h bound (by omega) hends).bind (succeeds_freshId.bind (.pure _))

theorem completes_assignProperty {d m q : Token} {o e : Expr}
    (ho : Completes .call n ts o n₁ (d :: m :: q :: ts₁))
    (hstart : ∀ t ∈ ts.head?, startsPrimary t.kind = true) (hd : d.kind = .dot)
    (hm : m.kind = .identifier) (hq : q.kind = .equal)
    (h : Completes .expression n₁ ts₁ e n' ts') (hlength : ts₁.length + 4 ≤ ts.length) :
    Completes .expression n ts (.set o m e) n' ts' := by
  intro bound hbound hends
  cases bound with
  | nil => exact absurd hbound (by rw [List.length_nil]; omega)
  | cons u bound =>
    have htarget := operation_of_call (completes_property ho hd hm) hstart hq bound hbound
    have hbound : ts.length ≤ bound.length + 1 := hbound
    refine Succeeds.bind htarget ((succeeds_take? hq).bind ?_)
    exact (h bound (by omega) hends).bind (.pure _)

theorem Reads.starts_head {nearest : Bool} {symbol : Symbol} {tree : symbol.Tree}
    (h : Reads nearest symbol n ts tree n' ts') (hs : symbol.least ≠ 0) :
    ∀ t ∈ ts.head?, symbol.starts t.kind = true := by
  obtain ⟨t, rest, rfl, ht⟩ := h.starts hs
  rintro _ ⟨⟩
  exact ht

/-- The parser reads every expression of the grammar. -/
theorem Reads.completes {nearest : Bool} {symbol : Symbol} {tree : symbol.Tree}
    (h : Reads nearest symbol n ts tree n' ts') : Completes symbol n ts tree n' ts' := by
  induction h with
  | constant ht => exact completes_constant ht
  | this ht => exact completes_this ht
  | name ht => exact completes_name ht
  | super hk hd hm => exact completes_super hk hd hm
  | grouping hl _ hr ih => exact completes_grouping hl ih hr
  | primaryCall _ ih => exact completes_primaryCall ih
  | applyNone _ hl hr ih => exact completes_applyNone ih hl hr
  | apply hf hl hes hr hsize ihf ihes =>
    have hlength := hf.length_le
    have hlength' := hes.length_le
    simp only [Symbol.least, List.length_cons] at hlength hlength'
    exact completes_apply ihf hl (hes.starts_head Nat.one_ne_zero) ihes hr hsize (by omega) (by omega)
  | property _ hd hm ih => exact completes_property ih hd hm
  | firstArgument _ ih => exact completes_firstArgument ih
  | nextArgument hes hc he ihes ihe =>
    have hlength := hes.length_le
    have hlength' := he.length_le
    simp only [Symbol.least, List.length_cons] at hlength hlength'
    exact completes_nextArgument ihes hc ihe (by omega) (by omega)
  | callUnary h ih => exact completes_callUnary ih (h.starts_head Nat.one_ne_zero)
  | negate ho _ ih => exact completes_negate ho ih
  | unaryOperand hp _ ih => exact completes_unaryOperand hp ih
  | tighterOperand hp _ ih => exact completes_tighterOperand hp ih
  | firstOperand _ ih => exact completes_firstOperand ih
  | nextOperand h₁ ho h₂ ih₁ ih₂ =>
    have hlength := h₁.length_le
    have hlength' := h₂.length_le
    simp only [Symbol.least, List.length_cons] at hlength hlength'
    exact completes_nextOperand ih₁ ho ih₂ (by omega) (by omega)
  | operations h ih =>
    obtain ⟨t, rest, rfl, -⟩ := h.starts Nat.one_ne_zero
    exact completes_operations ih (List.cons_ne_nil _ _)
  | assign ht hq _ ih => exact completes_assign ht hq ih
  | assignProperty ho hd hm hq _ iho ih =>
    have hlength := ho.length_le
    simp only [Symbol.least, List.length_cons] at hlength
    exact completes_assignProperty iho (ho.starts_head Nat.one_ne_zero) hd hm hq ih (by omega)
  | _ => trivial

theorem Reads.succeeds_expression {nearest : Bool} {e : Expr}
    (h : Reads nearest .expression n ts e n' ts') (hends : Ends 8 ts') :
    Succeeds expression n ts e n' ts' :=
  h.completes ts (Nat.le_refl _) hends

end

end Lox.Grammar
