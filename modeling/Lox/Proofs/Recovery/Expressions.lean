import Lox.Parse.Expression
import Lox.Proofs.Recovery.Settings

set_option autoImplicit false

/-! # Expressions in another setting

No rule of expressions reads a semicolon, so each agrees with itself in every setting. A rule may be
nested once more than the rule that it is given for whole expressions, as a token is used up before
this one runs. -/

namespace Lox.Parse

variable {c : Setting} {s : State}

section

variable {inner inner' : Parser Expr} {bound : List Token} {t : Token}
  (hinner : ∀ s, c.AtMost s bound → Agrees c s inner inner' fun _ _ => True)

include hinner

theorem agrees_primary (hmost : c.AtMost s (t :: bound)) :
    Agrees c s (primary inner) (primary inner') fun _ _ => True := by
  refine .after_peek fun token hnext => ?_
  have hadvance : token.kind ≠ .semicolon → Agrees c s advance advance fun _ s' => c.Fewer s s' :=
    agrees_advance hnext
  split
  case h_1 hkind | h_2 hkind | h_3 hkind | h_4 hkind | h_5 hkind =>
    exact (hadvance (by simp [hkind])).bind fun _ _ _ _ => .pure trivial
  case h_6 hkind | h_8 hkind =>
    refine (hadvance (by simp [hkind])).bind fun _ _ _ _ => ?_
    refine agrees_freshId.bind fun _ _ _ _ => ?_
    exact .pure trivial
  case h_7 hkind =>
    refine (hadvance (by simp [hkind])).bind fun _ _ _ _ => ?_
    refine (agrees_expect rfl _).bind fun _ _ _ _ => ?_
    refine (agrees_expect rfl _).bind fun _ _ _ _ => ?_
    refine agrees_freshId.bind fun _ _ _ _ => ?_
    exact .pure trivial
  case h_9 hkind =>
    refine (hadvance (by simp [hkind])).bind fun _ s₁ _ hfewer => ?_
    refine (hinner s₁ (hmost.fewer hfewer)).bind fun _ _ _ _ => ?_
    refine (agrees_expect rfl _).bind fun _ _ _ _ => ?_
    exact .pure trivial
  case h_10 => exact agrees_fail _

theorem agrees_finishCall (hmost : c.AtMost s bound) (callee : Expr) :
    Agrees c s (finishCall inner callee) (finishCall inner' callee) fun _ _ => True := by
  refine (agrees_nextIs _).bind fun b s₁ _ h => ?_
  subst h
  have hclose : ∀ es s₂, Agrees c s₂
      (do return .call callee (← expect .rightParen .noParenAfterArguments) es)
      (do return .call callee (← expect .rightParen .noParenAfterArguments) es)
      fun (_ : Expr) _ => True :=
    fun es s₂ => (agrees_expect rfl _).bind fun _ _ _ _ => .pure trivial
  cases b with
  | true => exact hclose [] s₁
  | false =>
    exact (agrees_commaList _ fun s₂ hle => hinner s₂ (hmost.mono hle)).bind fun es s₂ _ _ =>
      hclose es s₂

theorem agrees_call (hmost : c.AtMost s (t :: bound)) :
    Agrees c s (call inner) (call inner') fun _ _ => True := by
  refine (agrees_primary hinner hmost).bind fun e s₁ hle₁ _ =>
    agrees_repeatFrom e fun e s₂ hle₂ => ?_
  have hmost₂ : c.AtMost s₂ (t :: bound) := hmost.mono (Nat.le_trans hle₂ hle₁)
  refine .after_peek fun token hnext => ?_
  split
  case h_1 hkind =>
    refine (agrees_advance hnext (by simp [hkind])).bind fun _ s₃ _ hfewer => ?_
    exact (agrees_finishCall hinner (hmost₂.fewer hfewer) e).bind fun _ _ hle _ =>
      .pure fun _ => hfewer.trans_le hle
  case h_2 hkind =>
    refine (agrees_advance hnext (by simp [hkind])).bind fun _ s₃ _ hfewer => ?_
    refine (agrees_expect rfl _).bind fun _ _ hle _ => ?_
    exact .pure fun _ => hfewer.trans_le hle
  case h_3 => exact .pure fun h => absurd rfl h

theorem agrees_unary (hmost : c.AtMost s (t :: bound)) :
    Agrees c s (unary inner) (unary inner') fun _ _ => True := by
  have hoperators : ∀ (operators : List Token) (s₁ : State), Agrees c s₁
      (do return (← takeIf isPrefixOperator).map (· :: operators))
      (do return (← takeIf isPrefixOperator).map (· :: operators))
      fun operators? s₂ => operators? ≠ none → c.Fewer s₁ s₂ := by
    refine fun operators s₁ => (agrees_takeIf rfl).bind fun operator s₂ _ h => .pure fun hne => ?_
    exact h.2 fun heq => hne (by rw [heq]; rfl)
  refine (agrees_repeatFrom [] fun operators s₁ _ => hoperators operators s₁).bind
    fun operators s₁ hle _ => ?_
  exact (agrees_call hinner (hmost.mono hle)).bind fun _ _ _ _ => .pure trivial

end

theorem agrees_chain {operand operand' : Parser Expr} {level : Level}
    (hlevel : level.operators.any Kind.semicolon.sameAs = false)
    (hoperand : ∀ s₁, s₁.rest.length ≤ s.rest.length →
      Agrees c s₁ operand operand' fun _ _ => True) :
    Agrees c s (level.chain operand) (level.chain operand') fun _ _ => True := by
  refine (hoperand s (Nat.le_refl _)).bind fun e s₁ hle₁ _ =>
    agrees_repeatFrom e fun left s₂ hle₂ => ?_
  refine (agrees_takeIf hlevel).bind fun operator s₃ hle₃ h => ?_
  cases operator with
  | none => exact .pure fun h => absurd rfl h
  | some operator =>
    have hle : s₃.rest.length ≤ s.rest.length := Nat.le_trans hle₃ (Nat.le_trans hle₂ hle₁)
    exact (hoperand s₃ hle).bind fun _ _ hle₄ _ => .pure fun _ => (h.2 nofun).trans_le hle₄

theorem agrees_chains (ls : List Level)
    (hls : ∀ level ∈ ls, level.operators.any Kind.semicolon.sameAs = false)
    {operand operand' : Parser Expr} (hoperand : ∀ s₁, s₁.rest.length ≤ s.rest.length →
      Agrees c s₁ operand operand' fun _ _ => True) :
    Agrees c s (ls.foldl Level.chain operand) (ls.foldl Level.chain operand') fun _ _ => True := by
  induction ls generalizing operand operand' with
  | nil => exact hoperand s (Nat.le_refl _)
  | cons level ls ih =>
    rw [List.forall_mem_cons] at hls
    refine ih hls.2 fun _ hle => ?_
    exact agrees_chain hls.1 fun _ hle' => hoperand _ (Nat.le_trans hle' hle)

theorem agrees_assignment {inner inner' : Parser Expr} {bound : List Token} {t : Token}
    (hinner : ∀ s, c.AtMost s bound → Agrees c s inner inner' fun _ _ => True)
    (hmost : c.AtMost s (t :: bound)) :
    Agrees c s (assignment inner) (assignment inner') fun _ _ => True := by
  have hoperation : Agrees c s (operation inner) (operation inner') fun _ _ => True :=
    agrees_chains levels (by decide) fun s₁ hle => agrees_unary hinner (hmost.mono hle)
  refine hoperation.bind fun target s₁ hle₁ _ => ?_
  refine (agrees_take? rfl).bind fun equals s₂ _ h => ?_
  cases equals with
  | none => exact .pure trivial
  | some equals =>
    refine (hinner s₂ ((hmost.mono hle₁).fewer (h.2 nofun))).bind fun value s₃ _ _ => ?_
    cases target with
    | var => exact agrees_freshId.bind fun _ _ _ _ => .pure trivial
    | get => exact .pure trivial
    | _ => exact (agrees_reportAt equals _).bind fun _ _ _ _ => .pure trivial

theorem agrees_expressionWithin (bound : List Token) : ∀ s : State, c.AtMost s bound →
    Agrees c s (expressionWithin bound) (expressionWithin (bound ++ c.behind)) fun _ _ => True := by
  induction bound with
  | nil =>
    -- where the bound is used up nothing stands behind, so both rules fail
    intro s hmost hs
    rw [hmost.behind_eq_nil hs]
    exact agrees_fail _ hs
  | cons t bound ih => exact fun s hmost => agrees_assignment ih hmost

theorem agrees_expression : Agrees c s expression expression fun _ _ => True :=
  agrees_expressionWithin s.rest s fun _ => Nat.le_refl _

end Lox.Parse
