import Lox.Proofs.Grammar.Basic
import Lox.Proofs.Grammar.Steps
import Lox.Tree.References

set_option autoImplicit false

/-! # What the parser reads is in the grammar

Whatever a rule of the parser gives, mistakes or not, the identities of its references are new and
given out once (`Drawn`). If nothing was reported on the way, the tree is derived by the grammar from
the tokens that were read, with each `else` at the nearest `if`. Both are proved together, rule by
rule (`Gives`), for any parser of the nested parts that does the same. -/

namespace Lox.Grammar

open Parse

/-! ## Identities -/

/-- Identities from a range, each used once. -/
structure Drawn (ids : List Nat) (first next : Nat) : Prop where
  le : first ≤ next
  mem : ∀ id ∈ ids, first ≤ id ∧ id < next
  nodup : ids.Nodup

namespace Drawn

variable {ids ids' : List Nat} {n n₁ n' : Nat}

theorem nil (h : n ≤ n') : Drawn [] n n' := ⟨h, by simp, List.nodup_nil⟩

theorem append (h : Drawn ids n n₁) (h' : Drawn ids' n₁ n') : Drawn (ids ++ ids') n n' := by
  refine ⟨Nat.le_trans h.le h'.le, fun id hid => ?_, ?_⟩
  · rcases List.mem_append.1 hid with hid | hid
    · exact ⟨(h.mem id hid).1, Nat.lt_of_lt_of_le (h.mem id hid).2 h'.le⟩
    · exact ⟨Nat.le_trans h.le (h'.mem id hid).1, (h'.mem id hid).2⟩
  · refine List.nodup_append.2 ⟨h.nodup, h'.nodup, fun a ha b hb hab => ?_⟩
    exact absurd (h.mem a ha).2 (by have := (h'.mem b hb).1; omega)

theorem perm (h : Drawn ids n n') (hp : ids.Perm ids') : Drawn ids' n n' :=
  ⟨h.le, fun id hid => h.mem id (hp.mem_iff.2 hid), hp.nodup_iff.1 h.nodup⟩

theorem fresh (n : Nat) : Drawn [n] n (n + 1) := ⟨Nat.le_succ n, by simp, by simp⟩

/-- An identity taken last may stand in front. -/
theorem cons_last (h : Drawn ids n n') : Drawn (n' :: ids) n (n' + 1) :=
  (h.append (.fresh n')).perm List.perm_append_comm

theorem widen {m m' : Nat} (h : Drawn ids n n') (hm : m ≤ n) (hm' : n' ≤ m') :
    Drawn ids m m' :=
  ⟨by have := h.le; omega, fun id hid => by have := h.mem id hid; omega, h.nodup⟩

end Drawn

@[simp]
theorem exprReferences_append (es es' : List Expr) :
    exprReferences (es ++ es') = exprReferences es ++ exprReferences es' := by
  induction es with
  | nil => rfl
  | cons e es ih => simp [exprReferences, ih]

@[simp]
theorem stmtReferences_append (ss ss' : List Stmt) :
    stmtReferences (ss ++ ss') = stmtReferences ss ++ stmtReferences ss' := by
  induction ss with
  | nil => rfl
  | cons s ss ih => simp [stmtReferences, ih]

@[simp]
theorem methodReferences_append (fs fs' : List FunctionDef) :
    methodReferences (fs ++ fs') = methodReferences fs ++ methodReferences fs' := by
  induction fs with
  | nil => rfl
  | cons f fs ih => simp [methodReferences, ih]

/-- The references of a tree of any symbol. -/
def Symbol.references : (symbol : Symbol) → symbol.Tree → List Reference
  | .primary, e | .call, e | .unary, e | .operand _, e | .operation _, e | .expression, e =>
    Expr.references e
  | .arguments, es => exprReferences es
  | .optional, e => optionReferences e
  | .parameters, _ => []
  | .function, f => FunctionDef.references f
  | .functions, fs => methodReferences fs
  | .forInitializer, none => []
  | .forInitializer, some s | .varDeclaration, s | .expressionStatement, s | .statement _, s
  | .declaration, s => Stmt.references s
  | .declarations, ss => stmtReferences ss

/-- The identities of the references of a tree. -/
def Symbol.ids (symbol : Symbol) (tree : symbol.Tree) : List RefId :=
  (symbol.references tree).map Reference.id

/-! ## Rules -/

/-- What a rule for a symbol gives on the way from one state to another. -/
structure Gives (symbol : Symbol) (s : State) (tree : symbol.Tree) (s' : State) : Prop where
  drawn : Drawn (symbol.ids tree) s.nextId s'.nextId
  reads : s'.reported = s.reported → Reads true symbol s.nextId s.rest tree s'.nextId s'.rest

/-- A parser of a symbol. -/
def IsRule (symbol : Symbol) (p : Parser symbol.Tree) : Prop :=
  ∀ s, YieldsAt s p (Gives symbol s)

variable {inner : Parser Expr}

/-! ## Primary expressions and calls -/

theorem isRule_primary (hinner : IsRule .expression inner) : IsRule .primary (primary inner) := by
  intro s
  refine yieldsAt_peek.bind fun t s₁ _ h => ?_
  obtain ⟨rfl, hrest⟩ := h
  have constant : ∀ v, constant? t.kind = some v →
      YieldsAt s₁ (do advance; return Expr.literal v) (Gives .primary s₁) := by
    intro v hv
    have ht : t.kind ≠ .endOfInput := fun ht => by simp [ht, constant?] at hv
    refine (yieldsAt_advance (hrest ht)).bind fun _ s₂ _ h => .pure ?_
    subst h
    exact ⟨.nil (Nat.le_refl _), fun _ => .constant hv⟩
  split
  case h_1 ht => exact constant _ (by rw [ht]; rfl)
  case h_2 ht => exact constant _ (by rw [ht]; rfl)
  case h_3 ht => exact constant _ (by rw [ht]; rfl)
  case h_4 x ht => exact constant _ (by rw [ht]; rfl)
  case h_5 x ht => exact constant _ (by rw [ht]; rfl)
  case h_6 ht =>
    refine (yieldsAt_advance (hrest (by simp [ht]))).bind fun _ s₂ _ h => ?_
    subst h
    refine yieldsAt_freshId.bind fun id s₃ _ h => .pure ?_
    obtain ⟨rfl, rfl⟩ := h
    exact ⟨.fresh _, fun _ => .this ht⟩
  case h_7 ht =>
    refine (yieldsAt_advance (hrest (by simp [ht]))).bind fun _ s₂ _ h => ?_
    subst h
    refine (yieldsAt_expect rfl _).bind fun d s₃ _ ⟨hd, h⟩ => ?_
    subst h
    refine (yieldsAt_expect rfl _).bind fun m s₄ _ ⟨hm, h⟩ => ?_
    subst h
    refine yieldsAt_freshId.bind fun id s₅ _ h => .pure ?_
    obtain ⟨rfl, rfl⟩ := h
    exact ⟨.fresh _, fun _ => .super ht hd hm⟩
  case h_8 ht =>
    refine (yieldsAt_advance (hrest (by simp [ht]))).bind fun _ s₂ _ h => ?_
    subst h
    refine yieldsAt_freshId.bind fun id s₃ _ h => .pure ?_
    obtain ⟨rfl, rfl⟩ := h
    exact ⟨.fresh _, fun _ => .name ht⟩
  case h_9 ht =>
    refine (yieldsAt_advance (hrest (by simp [ht]))).bind fun _ s₂ _ h => ?_
    subst h
    refine (hinner _).bind fun e s₃ _ g => ?_
    refine (yieldsAt_expect rfl _).bind fun r s₄ _ ⟨hr, h⟩ => .pure ?_
    subst h
    exact ⟨g.drawn, fun hq => .grouping ht (g.reads hq) hr⟩
  case h_10 => exact yieldsAt_fail _ _

/-- Arguments, and no more than 255 of them unless that was reported. -/
theorem yieldsAt_arguments (hinner : IsRule .expression inner) (s : State) :
    YieldsAt s (commaList .tooManyArguments inner) fun es s' =>
      Gives .arguments s es s' ∧ (s'.reported = s.reported → es.length ≤ 255) := by
  refine yieldsAt_commaList _ ?_ ?_
  · refine (hinner s).mono fun e s' _ g => ⟨⟨?_, fun hq => .firstArgument (g.reads hq)⟩, by simp⟩
    simpa [Symbol.ids, Symbol.references, exprReferences] using g.drawn
  · intro es c s₁ s₂ l₁ ⟨g, _⟩ hc l₂ hr hn hsize
    have l₁ := l₁.trans (.of_unread c s₁)
    refine (hinner s₂).mono fun e s₃ l₃ g₃ => ⟨⟨?_, fun hq => ?_⟩, fun hq => ?_⟩
    · have := g.drawn.append (hn ▸ g₃.drawn)
      simpa [Symbol.ids, Symbol.references, exprReferences] using this
    · obtain ⟨q₁, q₃⟩ := l₁.quiet (l₂.trans l₃) hq
      obtain ⟨q₂, q₃⟩ := l₂.quiet l₃ q₃
      have h₃ := g₃.reads q₃
      rw [hr, hn] at h₃
      exact .nextArgument (g.reads q₁) hc h₃
    · obtain ⟨q₁, q₃⟩ := l₁.quiet (l₂.trans l₃) hq
      obtain ⟨q₂, q₃⟩ := l₂.quiet l₃ q₃
      have := hsize q₂
      simp
      omega

/-- The arguments of a call and its closing parenthesis, behind what is called and the opening
    parenthesis. -/
theorem yieldsAt_finishCall (hinner : IsRule .expression inner) {s₀ s : State} {f : Expr}
    {l : Token} (l₀ : s₀.LeadsTo s) (gf : Gives .call s₀ f (s.unread l)) (hl : l.kind = .leftParen) :
    YieldsAt s (finishCall inner f) (Gives .call s₀) := by
  refine (yieldsAt_nextIs _).bind fun b s₁ _ h => ?_
  subst h
  cases b with
  | true =>
    refine (yieldsAt_expect rfl _).bind fun r s₂ _ ⟨hr, h⟩ => .pure ?_
    subst h
    refine ⟨?_, fun hq => .applyNone (gf.reads hq) hl hr⟩
    simpa [Symbol.ids, Symbol.references, Expr.references, exprReferences] using gf.drawn
  | false =>
    refine (yieldsAt_arguments hinner _).bind fun es s₂ l₂ ⟨g, hsize⟩ => ?_
    refine (yieldsAt_expect rfl _).bind fun r s₃ _ ⟨hr, h⟩ => .pure ?_
    subst h
    refine ⟨?_, fun hq => ?_⟩
    · have := gf.drawn.append g.drawn
      simpa [Symbol.ids, Symbol.references, Expr.references] using this
    · obtain ⟨q₀, q₁⟩ := l₀.quiet l₂ hq
      exact .apply (gf.reads q₀) hl (g.reads q₁) hr (hsize q₁)

theorem isRule_call (hinner : IsRule .expression inner) : IsRule .call (call inner) := by
  intro s
  refine (isRule_primary hinner s).bind fun e s₁ l₁ g₁ => ?_
  refine yieldsAt_repeatFrom (s := s) l₁ ⟨g₁.drawn, fun hq => .primaryCall (g₁.reads hq)⟩ ?_
  intro e s₂ l₂ g₂
  refine yieldsAt_peek.bind fun t s₃ _ h => ?_
  obtain ⟨rfl, hrest⟩ := h
  split
  case h_1 ht =>
    refine (yieldsAt_advance (hrest (by simp [ht]))).bind fun _ s₄ l₄ h => ?_
    subst h
    refine (yieldsAt_finishCall hinner (l₂.trans l₄) g₂ ht).bind fun e s₅ _ g₅ => ?_
    exact .pure (.inl ⟨e, rfl, g₅⟩)
  case h_2 ht =>
    refine (yieldsAt_advance (hrest (by simp [ht]))).bind fun _ s₄ _ h => ?_
    subst h
    refine (yieldsAt_expect rfl _).bind fun m s₅ _ ⟨hm, h⟩ => .pure (.inl ⟨_, rfl, ?_⟩)
    subst h
    exact ⟨g₂.drawn, fun hq => .property (g₂.reads hq) ht hm⟩
  case h_3 => exact .pure (.inr ⟨rfl, g₂⟩)

/-! ## Operators -/

theorem references_foldl_unary (operators : List Token) (e : Expr) :
    (operators.foldl (fun e operator => .unary operator e) e).references = e.references := by
  induction operators generalizing e with
  | nil => rfl
  | cons o operators ih => rw [List.foldl_cons, ih, Expr.references]

theorem Reads.unaries {nearest : Bool} {n n' : RefId} {ts ts' operators : List Token} {e : Expr}
    (ho : ∀ o ∈ operators, o.kind = .bang ∨ o.kind = .minus)
    (h : Reads nearest .unary n ts e n' ts') :
    Reads nearest .unary n (operators.reverse ++ ts)
      (operators.foldl (fun e operator => .unary operator e) e) n' ts' := by
  induction operators generalizing ts e with
  | nil => exact h
  | cons o operators ih =>
    rw [List.reverse_cons, List.append_assoc, List.foldl_cons]
    exact ih (fun o' h' => ho o' (List.mem_cons_of_mem _ h')) (.negate (ho o List.mem_cons_self) h)

theorem isPrefixOperator_iff {kind : Kind} :
    isPrefixOperator kind = true ↔ kind = .bang ∨ kind = .minus := by
  simp only [isPrefixOperator, Bool.or_eq_true]
  constructor
  · intro h
    rcases h with h | h <;> rw [Kind.sameAs_comm] at h
    · exact .inl (Kind.eq_of_sameAs rfl h)
    · exact .inr (Kind.eq_of_sameAs rfl h)
  · intro h
    rcases h with rfl | rfl <;> simp

theorem isRule_unary (hinner : IsRule .expression inner) : IsRule .unary (unary inner) := by
  intro s
  have hoperators : YieldsAt s (repeatFrom [] fun operators => do
      return (← takeIf isPrefixOperator).map (· :: operators)) fun operators s' =>
        (∀ o ∈ operators, o.kind = .bang ∨ o.kind = .minus) ∧
          s'.nextId = s.nextId ∧ s'.reported = s.reported ∧
            s.rest = operators.reverse ++ s'.rest := by
    refine yieldsAt_repeatFrom (.refl s) ⟨by simp, rfl, rfl, rfl⟩ ?_
    intro operators s₁ _ ⟨ho, hn, hq, hrest⟩
    refine (yieldsAt_takeIf _).bind fun t? s₂ _ h => .pure ?_
    rcases h with ⟨t, rfl, ht, rfl⟩ | ⟨rfl, rfl, -⟩
    · refine .inl ⟨t :: operators, rfl, ?_, hn, hq, ?_⟩
      · exact List.forall_mem_cons.2 ⟨isPrefixOperator_iff.1 ht, ho⟩
      · rw [hrest, List.reverse_cons, List.append_assoc]
        rfl
    · exact .inr ⟨rfl, ho, hn, hq, hrest⟩
  refine hoperators.bind fun operators s₁ _ ⟨ho, hn, hquiet, hrest⟩ => ?_
  refine (isRule_call hinner s₁).bind fun e s₂ _ g => .pure ⟨?_, fun hq => ?_⟩
  · have := g.drawn
    rw [hn] at this
    simpa only [Symbol.ids, Symbol.references, references_foldl_unary] using this
  · rw [hrest, ← hn]
    exact .unaries ho (.callUnary (g.reads (hq.trans hquiet.symm)))

namespace Precedence

def rank : Precedence → Nat
  | factor => 0
  | term => 1
  | comparison => 2
  | equality => 3
  | and => 4
  | or => 5

/-- The parser's level of the same operators. -/
def level (p : Precedence) : Level := ⟨p.operators, p.node⟩

/-- The parser of the operands of a level. -/
def operandRule (inner : Parser Expr) (p : Precedence) : Parser Expr :=
  (levels.take p.rank).foldl Level.chain (unary inner)

theorem operandRule_of_none {p : Precedence} (h : p.tighter? = none) :
    p.operandRule inner = unary inner := by
  cases p <;> first | rfl | exact nomatch h

theorem operandRule_of_some {p q : Precedence} (h : p.tighter? = some q) :
    p.operandRule inner = Level.chain (q.operandRule inner) q.level := by
  cases p <;> cases h <;> rfl

theorem rank_of_tighter {p q : Precedence} (h : p.tighter? = some q) : p.rank = q.rank + 1 := by
  cases p <;> cases h <;> rfl

theorem isPlain_of_mem {p : Precedence} {k : Kind} (h : k ∈ p.operators) : k.isPlain = true := by
  cases p <;> simp only [operators, List.mem_cons, List.not_mem_nil, or_false] at h <;>
    rcases h with rfl | rfl | rfl | rfl <;> rfl

theorem any_operators_iff {p : Precedence} {k : Kind} :
    p.operators.any k.sameAs = true ↔ k ∈ p.operators := by
  rw [List.any_eq_true]
  refine ⟨fun ⟨k', hk', h⟩ => ?_, fun h => ⟨k, h, Kind.sameAs_self k⟩⟩
  rw [Kind.sameAs_comm] at h
  exact Kind.eq_of_sameAs (isPlain_of_mem hk') h ▸ hk'

theorem references_node (p : Precedence) (e e' : Expr) (o : Token) :
    (p.node e o e').references = e.references ++ e'.references := by
  cases p <;> rfl

end Precedence

theorem isRule_chain {p : Precedence} {operand : Parser Expr} (h : IsRule (.operand p) operand) :
    IsRule (.operation p) (Level.chain operand p.level) := by
  intro s
  refine (h s).bind fun e s₁ l₁ g₁ => ?_
  refine yieldsAt_repeatFrom (s := s) l₁ ⟨g₁.drawn, fun hq => .firstOperand (g₁.reads hq)⟩ ?_
  intro e s₂ l₂ g₂
  refine (yieldsAt_takeIf _).bind fun t? s₃ l₃ h₃ => ?_
  rcases h₃ with ⟨o, rfl, ho, rfl⟩ | ⟨rfl, rfl, -⟩
  · refine (h _).bind fun e' s₄ l₄ g₄ => .pure (.inl ⟨_, rfl, ?_, fun hq => ?_⟩)
    · have := g₂.drawn.append g₄.drawn
      simpa [Symbol.ids, Symbol.references, Precedence.level, Precedence.references_node] using this
    · obtain ⟨q₂, q₄⟩ := l₂.quiet (l₃.trans l₄) hq
      exact .nextOperand (g₂.reads q₂) (Precedence.any_operators_iff.1 ho) (g₄.reads q₄)
  · exact .pure (.inr ⟨rfl, g₂⟩)

theorem isRule_operand (hinner : IsRule .expression inner) (p : Precedence) :
    IsRule (.operand p) (p.operandRule inner) := by
  intro s
  match h : p.tighter? with
  | none =>
    rw [Precedence.operandRule_of_none h]
    exact (isRule_unary hinner s).mono fun e s' _ g =>
      ⟨g.drawn, fun hq => .unaryOperand h (g.reads hq)⟩
  | some q =>
    rw [Precedence.operandRule_of_some h]
    exact (isRule_chain (isRule_operand hinner q) s).mono fun e s' _ g =>
      ⟨g.drawn, fun hq => .tighterOperand h (g.reads hq)⟩
termination_by p.rank
decreasing_by exact Precedence.rank_of_tighter h ▸ Nat.lt_succ_self _

theorem isRule_operation (hinner : IsRule .expression inner) :
    IsRule (.operation .or) (operation inner) :=
  isRule_chain (isRule_operand hinner .or)

/-! ## Assignments -/

/-- How an expression that can be assigned to was read. -/
def ReadsTarget (nearest : Bool) (n : RefId) (ts : List Token) (e : Expr) (n' : RefId)
    (ts' : List Token) : Prop :=
  match e with
  | .var id name => id = n ∧ n' = n + 1 ∧ ts = name :: ts' ∧ name.kind = .identifier
  | .get o m => ∃ d, d.kind = .dot ∧ m.kind = .identifier ∧
      Reads nearest .call n ts o n' (d :: m :: ts')
  | _ => True

/-- No operators and no parentheses stand around a variable or a property. -/
theorem Reads.target {nearest : Bool} {symbol : Symbol} {n n' : RefId} {ts ts' : List Token}
    {tree : symbol.Tree} (h : Reads nearest symbol n ts tree n' ts') :
    match symbol, tree with
    | .primary, e | .call, e | .unary, e | .operand _, e | .operation _, e =>
      ReadsTarget nearest n ts e n' ts'
    | _, _ => True := by
  induction h with
  | name ht => exact ⟨rfl, rfl, rfl, ht⟩
  | property ho hd hm => exact ⟨_, hd, hm, ho⟩
  | primaryCall _ ih | callUnary _ ih | unaryOperand _ _ ih | tighterOperand _ _ ih
  | firstOperand _ ih => exact ih
  | @nextOperand _ _ _ _ _ _ _ _ _ level => cases level <;> trivial
  | _ => trivial

theorem isRule_assignment (hinner : IsRule .expression inner) :
    IsRule .expression (assignment inner) := by
  intro s
  refine (isRule_operation hinner s).bind fun target s₁ l₁ g₁ => ?_
  refine (yieldsAt_take? rfl).bind fun q? s₂ l₂ h₂ => ?_
  rcases h₂ with ⟨q, rfl, hq, rfl⟩ | ⟨rfl, rfl, -⟩
  · refine (hinner _).bind fun value s₃ l₃ g₃ => ?_
    have reads : s₃.reported = s.reported →
        Reads true (.operation .or) s.nextId s.rest target s₂.nextId (q :: s₂.rest) ∧
          Reads true .expression s₂.nextId s₂.rest value s₃.nextId s₃.rest := by
      intro hquiet
      obtain ⟨q₁, q₃⟩ := l₁.quiet (l₂.trans l₃) hquiet
      exact ⟨g₁.reads q₁, g₃.reads q₃⟩
    split
    · refine yieldsAt_freshId.bind fun id s₄ _ h => .pure ?_
      obtain ⟨rfl, rfl⟩ := h
      refine ⟨(g₃.drawn.widen g₁.drawn.le (Nat.le_refl _)).cons_last, fun hquiet => ?_⟩
      obtain ⟨htarget, hvalue⟩ := reads hquiet
      obtain ⟨-, hn, hts, hname⟩ := htarget.target
      rw [hts]
      rw [hn] at hvalue
      exact .assign hname hq hvalue
    · refine .pure ⟨?_, fun hquiet => ?_⟩
      · have := g₁.drawn.append g₃.drawn
        simpa [Symbol.ids, Symbol.references, Expr.references] using this
      · obtain ⟨htarget, hvalue⟩ := reads hquiet
        obtain ⟨d, hd, hm, hcall⟩ := htarget.target
        exact .assignProperty hcall hd hm hq hvalue
    · refine (yieldsAt_reportAt _ _).bind fun _ s₄ l₄ h => .pure ?_
      obtain ⟨-, hn, hreported⟩ := h
      refine ⟨g₁.drawn.widen (Nat.le_refl _) (hn ▸ g₃.drawn.le), fun hquiet => ?_⟩
      exact absurd ((l₁.trans (l₂.trans l₃)).quiet l₄ hquiet).2 hreported
  · exact .pure ⟨g₁.drawn, fun hq => .operations (g₁.reads hq)⟩

theorem isRule_expressionWithin (bound : List Token) :
    IsRule .expression (expressionWithin bound) := by
  induction bound with
  | nil => exact fun s => yieldsAt_fail _ _
  | cons t bound ih => exact isRule_assignment ih

theorem isRule_expression : IsRule .expression expression :=
  fun s => isRule_expressionWithin s.rest s

end Lox.Grammar
