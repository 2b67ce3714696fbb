import Lox.Proofs.Grammar.Acceptance
import Lox.Proofs.Renaming.Trees

set_option autoImplicit false

/-! # Renaming in the tokens

The rules of the grammar look at the kinds of tokens only. So where a tree is read, what becomes of
it under a renaming is read from the same tokens, some of them respelled. -/

namespace Lox

/-- A token, and what stands in its place: itself, or the new name for the old one. -/
def Renaming.Respelled (ρ : Renaming) (t t' : Token) : Prop :=
  t' = t ∨ t.kind = .identifier ∧ t.lexeme = ρ.old ∧ t' = { t with lexeme := ρ.new }

theorem Renaming.Respelled.kind {ρ : Renaming} {t t' : Token} (h : ρ.Respelled t t') :
    t'.kind = t.kind := by
  rcases h with rfl | ⟨-, -, rfl⟩ <;> rfl

theorem Renaming.respelled_respell (ρ : Renaming) (marked : Bool) {t : Token}
    (h : t.kind = .identifier) : ρ.Respelled t (ρ.respell marked t) := by
  unfold respell
  split
  · next heq =>
    rw [Bool.and_eq_true, beq_iff_eq] at heq
    exact .inr ⟨h, heq.2, rfl⟩
  · exact .inl rfl

namespace Grammar

variable {ρ : Renaming} {nearest : Bool} {n n' : RefId} {ts ts' : List Token}

/-- A tree of a symbol, and what becomes of it. Parameters stand in the first of the scopes. -/
def Symbol.Renamed (ρ : Renaming) (marks : List Bool) :
    (symbol : Symbol) → symbol.Tree → symbol.Tree → Prop
  | .primary, e, e' | .call, e, e' | .unary, e, e' | .operand _, e, e' | .operation _, e, e'
  | .expression, e, e' => Expr.Renamed ρ marks e e'
  | .arguments, es, es' => List.Forall₂ (Expr.Renamed ρ marks) es es'
  | .optional, e, e' => Option.Rel (Expr.Renamed ρ marks) e e'
  | .parameters, ps, ps' => ps' = ps.map (ρ.respell (marks.headD false))
  | .function, f, f' => FunctionDef.Renamed ρ marks f f'
  | .functions, fs, fs' => MethodsRenamed ρ marks fs fs'
  | .forInitializer, i, i' => Option.Rel (Stmt.Renamed ρ marks) i i'
  | .varDeclaration, s, s' | .expressionStatement, s, s' | .statement _, s, s'
  | .declaration, s, s' => Stmt.Renamed ρ marks s s'
  | .declarations, ss, ss' => StmtsRenamed ρ marks ss ss'

/-- A condition that is true when it is left out. -/
theorem renamed_condition {marks : List Bool} {c : Option Expr} {v : Literal} {e' : Expr}
    (h : (c.getD (.literal v)).Renamed ρ marks e') :
    ∃ c', e' = c'.getD (.literal v) ∧ Option.Rel (Expr.Renamed ρ marks) c c' := by
  cases c with
  | none =>
    cases h
    exact ⟨none, rfl, .none⟩
  | some c => exact ⟨some e', rfl, .some h⟩

/-- A loop with three clauses, and what becomes of it. -/
theorem renamed_forLoop {marks : List Bool} {i : Option Stmt} {c e : Option Expr} {b s' : Stmt}
    (h : (Stmt.forLoop i c e b).Renamed ρ marks s') : ∃ marks₁ marks₂ i' c' e' b',
      s' = .forLoop i' c' e' b' ∧ Option.Rel (Stmt.Renamed ρ marks₁) i i' ∧
        Option.Rel (Expr.Renamed ρ marks₁) c c' ∧ Option.Rel (Expr.Renamed ρ marks₂) e e' ∧
        b.Renamed ρ marks₂ b' := by
  have hloop : ∀ {marks : List Bool} {s' : Stmt},
      (Stmt.forLoop none c e b).Renamed ρ marks s' → ∃ marks₂ c' e' b',
        s' = .forLoop none c' e' b' ∧ Option.Rel (Expr.Renamed ρ marks) c c' ∧
          Option.Rel (Expr.Renamed ρ marks₂) e e' ∧ b.Renamed ρ marks₂ b' := by
    intro marks s' h
    cases h with
    | loop hc hb =>
      obtain ⟨c', rfl, hcondition⟩ := renamed_condition hc
      cases e with
      | none => exact ⟨marks, c', none, _, rfl, hcondition, .none, hb⟩
      | some e =>
        cases hb with
        | block marked hss =>
          obtain _ | ⟨hb, _ | ⟨he, _ | _⟩⟩ := hss
          cases he with
          | expression he => exact ⟨marked :: marks, c', some _, _, rfl, hcondition, .some he, hb⟩
  cases i with
  | none =>
    obtain ⟨marks₂, c', e', b', rfl, hc, he, hb⟩ := hloop h
    exact ⟨marks, marks₂, none, c', e', b', rfl, .none, hc, he, hb⟩
  | some start =>
    cases h with
    | block marked hss =>
      obtain _ | ⟨hstart, _ | ⟨hs, _ | _⟩⟩ := hss
      obtain ⟨marks₂, c', e', b', rfl, hc, he, hb⟩ := hloop hs
      exact ⟨marked :: marks, marks₂, some _, c', e', b', rfl, .some hstart, hc, he, hb⟩

theorem exists_append_of_forall₂ {α β : Type} {R : α → β → Prop} {as as' : List α} {bs : List β}
    (h : List.Forall₂ R (as ++ as') bs) :
    ∃ cs cs', bs = cs ++ cs' ∧ List.Forall₂ R as cs ∧ List.Forall₂ R as' cs' := by
  induction as generalizing bs with
  | nil => exact ⟨[], bs, rfl, .nil, h⟩
  | cons a as ih =>
    cases h with
    | cons hab h =>
      obtain ⟨cs, cs', rfl, hcs, hcs'⟩ := ih h
      exact ⟨_ :: cs, cs', rfl, .cons hab hcs, hcs'⟩

theorem renamed_node {marks : List Bool} {level : Precedence} {l r e' : Expr} {o : Token}
    (h : (level.node l o r).Renamed ρ marks e') : ∃ l' r', e' = level.node l' o r' ∧
      l.Renamed ρ marks l' ∧ r.Renamed ρ marks r' := by
  cases level with
  | and | or =>
    cases h with
    | logical hl hr => exact ⟨_, _, rfl, hl, hr⟩
  | factor | term | comparison | equality =>
    cases h with
    | binary hl hr => exact ⟨_, _, rfl, hl, hr⟩

theorem same (t : Token) : ρ.Respelled t t := .inl rfl

/-- Where a tree is read, what becomes of it is read from the same tokens, some of them respelled,
    whatever is respelled behind them. -/
theorem Reads.renamed {symbol : Symbol} {tree : symbol.Tree}
    (hreads : Reads nearest symbol n ts tree n' ts') {marks : List Bool} {tree' : symbol.Tree}
    (h : symbol.Renamed ρ marks tree tree') {us' : List Token}
    (hus : List.Forall₂ ρ.Respelled ts' us') :
    ∃ us, List.Forall₂ ρ.Respelled ts us ∧ Reads nearest symbol n us tree' n' us' := by
  induction hreads generalizing marks us' with
  | @constant _ _ t v ht =>
    cases h
    exact ⟨_, .cons (same t) hus, .constant ht⟩
  | @this _ _ t ht =>
    cases h
    exact ⟨_, .cons (same t) hus, .this ht⟩
  | @name _ _ t ht =>
    cases h with
    | var _ =>
      exact ⟨_, .cons (ρ.respelled_respell _ ht) hus, .name ((ρ.respell_kind _ t).trans ht)⟩
  | super hk hd hm =>
    cases h
    exact ⟨_, .cons (same _) (.cons (same _) (.cons (same _) hus)), .super hk hd hm⟩
  | grouping hl _ hr ih =>
    cases h with
    | grouping h =>
      obtain ⟨us, hts, hreads⟩ := ih h (.cons (same _) hus)
      exact ⟨_, .cons (same _) hts, .grouping hl hreads hr⟩
  | primaryCall _ ih =>
    obtain ⟨us, hts, hreads⟩ := ih h hus
    exact ⟨us, hts, .primaryCall hreads⟩
  | applyNone _ hl hr ih =>
    cases h with
    | call h hes =>
      cases hes
      obtain ⟨us, hts, hreads⟩ := ih h (.cons (same _) (.cons (same _) hus))
      exact ⟨us, hts, .applyNone hreads hl hr⟩
  | apply _ hl _ hr hsize ihf ih =>
    cases h with
    | call h hes =>
      obtain ⟨us₁, hts₁, hreads₁⟩ := ih hes (.cons (same _) hus)
      obtain ⟨us, hts, hreads⟩ := ihf h (.cons (same _) hts₁)
      exact ⟨us, hts, .apply hreads hl hreads₁ hr (hes.length_eq ▸ hsize)⟩
  | property _ hd hm ih =>
    cases h with
    | get h =>
      obtain ⟨us, hts, hreads⟩ := ih h (.cons (same _) (.cons (same _) hus))
      exact ⟨us, hts, .property hreads hd hm⟩
  | firstArgument _ ih =>
    obtain _ | ⟨he, _ | _⟩ := h
    obtain ⟨us, hts, hreads⟩ := ih he hus
    exact ⟨us, hts, .firstArgument hreads⟩
  | nextArgument _ hc _ ihes ih =>
    obtain ⟨es, es', rfl, hes, he⟩ := exists_append_of_forall₂ h
    obtain _ | ⟨he, _ | _⟩ := he
    obtain ⟨us₁, hts₁, hreads₁⟩ := ih he hus
    obtain ⟨us, hts, hreads⟩ := ihes hes (.cons (same _) hts₁)
    exact ⟨us, hts, .nextArgument hreads hc hreads₁⟩
  | callUnary _ ih =>
    obtain ⟨us, hts, hreads⟩ := ih h hus
    exact ⟨us, hts, .callUnary hreads⟩
  | negate ho _ ih =>
    cases h with
    | unary h =>
      obtain ⟨us, hts, hreads⟩ := ih h hus
      exact ⟨_, .cons (same _) hts, .negate ho hreads⟩
  | unaryOperand hp _ ih =>
    obtain ⟨us, hts, hreads⟩ := ih h hus
    exact ⟨us, hts, .unaryOperand hp hreads⟩
  | tighterOperand hp _ ih =>
    obtain ⟨us, hts, hreads⟩ := ih h hus
    exact ⟨us, hts, .tighterOperand hp hreads⟩
  | firstOperand _ ih =>
    obtain ⟨us, hts, hreads⟩ := ih h hus
    exact ⟨us, hts, .firstOperand hreads⟩
  | nextOperand _ ho _ ih₁ ih₂ =>
    obtain ⟨l', r', rfl, hl, hr⟩ := renamed_node h
    obtain ⟨us₁, hts₁, hreads₁⟩ := ih₂ hr hus
    obtain ⟨us, hts, hreads⟩ := ih₁ hl (.cons (same _) hts₁)
    exact ⟨us, hts, .nextOperand hreads ho hreads₁⟩
  | operations _ ih =>
    obtain ⟨us, hts, hreads⟩ := ih h hus
    exact ⟨us, hts, .operations hreads⟩
  | @assign _ _ t _ _ _ _ ht hq _ ih =>
    cases h with
    | assign _ h =>
      obtain ⟨us, hts, hreads⟩ := ih h hus
      exact ⟨_, .cons (ρ.respelled_respell _ ht) (.cons (same _) hts),
        .assign ((ρ.respell_kind _ t).trans ht) hq hreads⟩
  | assignProperty _ hd hm hq _ iho ih =>
    cases h with
    | set ho h =>
      obtain ⟨us₁, hts₁, hreads₁⟩ := ih h hus
      obtain ⟨us, hts, hreads⟩ := iho ho (.cons (same _) (.cons (same _) (.cons (same _) hts₁)))
      exact ⟨us, hts, .assignProperty hreads hd hm hq hreads₁⟩
  | absent =>
    cases h
    exact ⟨us', hus, .absent⟩
  | present _ ih =>
    cases h with
    | some h =>
      obtain ⟨us, hts, hreads⟩ := ih h hus
      exact ⟨us, hts, .present hreads⟩
  | @varDeclaration _ _ t _ _ hv ht hs =>
    cases h with
    | var _ h =>
      cases h
      exact ⟨_, .cons (same _) (.cons (ρ.respelled_respell _ ht) (.cons (same _) hus)),
        .varDeclaration hv ((ρ.respell_kind _ t).trans ht) hs⟩
  | @varInitializer _ _ _ t _ _ _ _ _ hv ht hq _ hs ih =>
    cases h with
    | var _ h =>
      cases h with
      | some h =>
        obtain ⟨us, hts, hreads⟩ := ih h (.cons (same _) hus)
        exact ⟨_, .cons (same _) (.cons (ρ.respelled_respell _ ht) (.cons (same _) hts)),
          .varInitializer hv ((ρ.respell_kind _ t).trans ht) hq hreads hs⟩
  | expressionStatement _ hs ih =>
    cases h with
    | expression h =>
      obtain ⟨us, hts, hreads⟩ := ih h (.cons (same _) hus)
      exact ⟨us, hts, .expressionStatement hreads hs⟩
  | expressionAsStatement _ ih =>
    obtain ⟨us, hts, hreads⟩ := ih h hus
    exact ⟨us, hts, .expressionAsStatement hreads⟩
  | print hp _ hs ih =>
    cases h with
    | print h =>
      obtain ⟨us, hts, hreads⟩ := ih h (.cons (same _) hus)
      exact ⟨_, .cons (same _) hts, .print hp hreads hs⟩
  | ret hk _ hs ih =>
    cases h with
    | ret h =>
      obtain ⟨us, hts, hreads⟩ := ih h (.cons (same _) hus)
      exact ⟨_, .cons (same _) hts, .ret hk hreads hs⟩
  | brk hk hs =>
    cases h
    exact ⟨_, .cons (same _) (.cons (same _) hus), .brk hk hs⟩
  | block hl _ hr ih =>
    cases h with
    | block marked h =>
      obtain ⟨us, hts, hreads⟩ := ih h (.cons (same _) hus)
      exact ⟨_, .cons (same _) hts, .block hl hreads hr⟩
  | loop hw hl _ hr _ ihc ih =>
    cases h with
    | loop hc h =>
      obtain ⟨us₁, hts₁, hreads₁⟩ := ih h hus
      obtain ⟨us, hts, hreads⟩ := ihc hc (.cons (same _) hts₁)
      exact ⟨_, .cons (same _) (.cons (same _) hts), .loop hw hl hreads hr hreads₁⟩
  | ifOnly hi hl _ hr _ ihc ih =>
    cases h with
    | ifOnly hc h =>
      obtain ⟨us₁, hts₁, hreads₁⟩ := ih h hus
      obtain ⟨us, hts, hreads⟩ := ihc hc (.cons (same _) hts₁)
      exact ⟨_, .cons (same _) (.cons (same _) hts), .ifOnly hi hl hreads hr hreads₁⟩
  | ifElse hi hl _ hr _ hnearest hk _ ihc ih₁ ih₂ =>
    cases h with
    | ifElse hc h₁ h₂ =>
      obtain ⟨us₂, hts₂, hreads₂⟩ := ih₂ h₂ hus
      obtain ⟨us₁, hts₁, hreads₁⟩ := ih₁ h₁ (.cons (same _) hts₂)
      obtain ⟨us, hts, hreads⟩ := ihc hc (.cons (same _) hts₁)
      exact ⟨_, .cons (same _) (.cons (same _) hts),
        .ifElse hi hl hreads hr hreads₁ hnearest hk hreads₂⟩
  | noInitializer hs =>
    cases h
    exact ⟨_, .cons (same _) hus, .noInitializer hs⟩
  | varForInitializer _ ih =>
    cases h with
    | some h =>
      obtain ⟨us, hts, hreads⟩ := ih h hus
      exact ⟨us, hts, .varForInitializer hreads⟩
  | expressionForInitializer _ ih =>
    cases h with
    | some h =>
      obtain ⟨us, hts, hreads⟩ := ih h hus
      exact ⟨us, hts, .expressionForInitializer hreads⟩
  | forLoop hf hl _ _ hs _ hr _ ihi ihc ihe ih =>
    obtain ⟨marks₁, marks₂, i', c', e', b', rfl, hi, hc, he, hb⟩ := renamed_forLoop h
    obtain ⟨us₃, hts₃, hreads₃⟩ := ih hb hus
    obtain ⟨us₂, hts₂, hreads₂⟩ := ihe he (.cons (same _) hts₃)
    obtain ⟨us₁, hts₁, hreads₁⟩ := ihc hc (.cons (same _) hts₂)
    obtain ⟨us, hts, hreads⟩ := ihi hi hts₁
    exact ⟨_, .cons (same _) (.cons (same _) hts),
      .forLoop hf hl hreads hreads₁ hs hreads₂ hr hreads₃⟩
  | @firstParameter _ t _ ht =>
    obtain rfl := h
    exact ⟨_, .cons (ρ.respelled_respell _ ht) hus,
      .firstParameter ((ρ.respell_kind (marks.headD false) t).trans ht)⟩
  | @nextParameter _ _ t _ _ ps _ hc ht ih =>
    obtain rfl : tree' = (ps ++ [t]).map (ρ.respell (marks.headD false)) := h
    obtain ⟨us, hts, hreads⟩ := @ih marks _ rfl _
      (.cons (same _) (.cons (ρ.respelled_respell (marks.headD false) ht) hus))
    rw [List.map_append]
    exact ⟨us, hts, .nextParameter hreads hc ((ρ.respell_kind _ t).trans ht)⟩
  | functionNone ht hl hr hb _ hq ih =>
    cases h with
    | mk marked _ h =>
      obtain ⟨us, hts, hreads⟩ := ih h (.cons (same _) hus)
      exact ⟨_, .cons (same _) (.cons (same _) (.cons (same _) (.cons (same _) hts))),
        .functionNone ht hl hr hb hreads hq⟩
  | function ht hl _ hsize hr hb _ hq ihps ih =>
    cases h with
    | mk marked _ h =>
      obtain ⟨us₁, hts₁, hreads₁⟩ := ih h (.cons (same _) hus)
      obtain ⟨us, hts, hreads⟩ := @ihps [marked] _ rfl _ (.cons (same _) (.cons (same _) hts₁))
      exact ⟨_, .cons (same _) (.cons (same _) hts),
        .function ht hl hreads (by rwa [List.length_map]) hr hb hreads₁ hq⟩
  | noFunctions =>
    cases h
    exact ⟨us', hus, .noFunctions⟩
  | nextFunction _ _ ihf ih =>
    cases h with
    | cons hf hfs =>
      obtain ⟨us₁, hts₁, hreads₁⟩ := ih hfs hus
      obtain ⟨us, hts, hreads⟩ := ihf hf hts₁
      exact ⟨us, hts, .nextFunction hreads hreads₁⟩
  | classDeclaration hk ht hl _ hr ih =>
    cases h with
    | plainClass _ hfs =>
      obtain ⟨us, hts, hreads⟩ := ih hfs (.cons (same _) hus)
      exact ⟨_, .cons (same _) (.cons (same _) (.cons (same _) hts)),
        .classDeclaration hk ht hl hreads hr⟩
  | @derivedClass _ _ _ _ _ s _ _ _ _ _ hk ht hq hs hl _ hr ih =>
    cases h with
    | derivedClass _ _ hfs =>
      obtain ⟨us, hts, hreads⟩ := ih hfs (.cons (same _) hus)
      exact ⟨_, .cons (same _) (.cons (same _) (.cons (same _)
          (.cons (ρ.respelled_respell _ hs) (.cons (same _) hts)))),
        .derivedClass hk ht hq ((ρ.respell_kind _ s).trans hs) hl hreads hr⟩
  | functionDeclaration hk _ ih =>
    cases h with
    | function _ hf =>
      obtain ⟨us, hts, hreads⟩ := ih hf hus
      exact ⟨_, .cons (same _) hts, .functionDeclaration hk hreads⟩
  | variableDeclaration _ ih =>
    obtain ⟨us, hts, hreads⟩ := ih h hus
    exact ⟨us, hts, .variableDeclaration hreads⟩
  | statement _ ih =>
    obtain ⟨us, hts, hreads⟩ := ih h hus
    exact ⟨us, hts, .statement hreads⟩
  | noDeclarations =>
    cases h
    exact ⟨us', hus, .noDeclarations⟩
  | nextDeclaration _ _ ihd ih =>
    cases h with
    | cons hs hss =>
      obtain ⟨us₁, hts₁, hreads₁⟩ := ih hss hus
      obtain ⟨us, hts, hreads⟩ := ihd hs hts₁
      exact ⟨us, hts, .nextDeclaration hreads hreads₁⟩

end Grammar

end Lox
