import Lox.Proofs.Alike.Parsing
import Lox.Proofs.Grammar.Soundness.Program

set_option autoImplicit false

/-! # Alike sources have alike programs

What holds of the rules for expressions holds of those for statements and declarations, also where
they fail and the parse goes on behind a mistake: two parses drop the same tokens. -/

namespace Lox.Parse

variable {lines : Nat} {moved : Token → Prop} {ids : RefId → RefId → Prop} {α β : Type}
  {R : α → β → Prop}

/-! ## Parts of statements -/

theorem resumeAfter_down (lines : Nat) (dropped : Token) (ts : List Token) :
    resumeAfter (dropped.down lines) (ts.map (Token.down lines)) =
      (resumeAfter dropped ts).map (Token.down lines) := by
  induction ts generalizing dropped with
  | nil => rfl
  | cons t ts ih =>
    rw [List.map_cons, resumeAfter, resumeAfter, Token.down_kind, Token.down_kind, ih]
    split <;> rfl

theorem resume_down (lines : Nat) (ts : List Token) :
    resume (ts.map (Token.down lines)) = (resume ts).map (Token.down lines) := by
  cases ts with
  | nil => rfl
  | cons t ts => exact resumeAfter_down lines t ts

theorem recovering_alike {rule : Parser α} {rule' : Parser β}
    (h : Alike lines moved ids R rule rule') :
    Alike lines moved ids (Option.Rel R) (recovering rule) (recovering rule') := by
  intro s s' hs
  have h := h s s' hs
  unfold recovering
  generalize rule s = r at h ⊢
  generalize rule' s' = r' at h ⊢
  cases h with
  | ok hab hs => exact .ok (.some hab) hs
  | @error f _ s₁ s₁' hf hs =>
    obtain ⟨rfl, hmoved⟩ := hf
    cases f with
    | outOfTokens => exact .error ⟨rfl, fun _ hm => nomatch hm⟩ hs
    | mistake m =>
      refine (peek_alike.bind fun _ _ _ => .pure .none) _ _ { hs with
        rest := ?_
        rest_moved := fun t ht => hs.rest_moved t ((Grammar.resume_suffix _).subset ht)
        reported := ?_
        reported_moved := fun m' hm' => ?_ }
      · show resume s₁'.rest = (resume s₁.rest).map (Token.down lines)
        rw [hs.rest, resume_down]
      · show s₁'.reported.push _ = _
        rw [hs.reported, Array.map_push]
      · rcases Array.mem_push.1 hm' with hm' | rfl
        · exact hs.reported_moved m' hm'
        · exact hmoved m' rfl

theorem upToBrace_alike {item : Array α → Parser (Array α)} {item' : Array β → Parser (Array β)}
    (h : ∀ as bs, Items R as bs → Alike lines moved ids (Items R) (item as) (item' bs)) :
    Alike lines moved ids (List.Forall₂ R) (upToBrace item) (upToBrace item') := by
  refine (repeatFrom_alike (show Items R #[] #[] from .nil) fun as bs has => ?_).bind
    fun as bs has => .pure has
  refine (nextIs_alike .rightBrace).bind fun b _ hb => ?_
  refine atEnd_alike.bind fun e _ he => ?_
  subst hb he
  cases b || e with
  | true => exact .pure .none
  | false => exact (h as bs has).bind fun _ _ h => .pure (.some h)

section

variable {declaration declaration' : Parser (Option Stmt)}
  (hdeclaration :
    Alike lines moved ids (Option.Rel (Stmt.Alike lines moved ids)) declaration declaration')

include hdeclaration

theorem block_alike :
    Alike lines moved ids (List.Forall₂ (Stmt.Alike lines moved ids)) (block declaration)
      (block declaration') := by
  refine (upToBrace_alike fun as bs h => hdeclaration.bind fun _ _ hd =>
    .pure (h.append hd)).bind fun body body' h => ?_
  exact (expect_alike _ _).bind fun _ _ _ => .pure h

theorem function_alike (sort : FunctionSort) :
    Alike lines moved ids (FunctionDef.Alike lines moved ids) (function sort declaration)
      (function sort declaration') := by
  refine (expect_alike _ _).bind fun name _ hname => ?_
  refine (expect_alike _ _).bind fun _ _ _ => ?_
  obtain ⟨hname, rfl⟩ := hname
  have hbody : ∀ ps ps', (∀ t ∈ ps, moved t) ∧ ps' = ps.map (Token.down lines) →
      Alike lines moved ids (FunctionDef.Alike lines moved ids)
        (do
          let _ ← expect .rightParen .noParenAfterParameters
          let _ ← expect .leftBrace (.noBraceBeforeBody sort)
          return ⟨name, ps, ← block declaration⟩)
        (do
          let _ ← expect .rightParen .noParenAfterParameters
          let _ ← expect .leftBrace (.noBraceBeforeBody sort)
          return ⟨name.down lines, ps', ← block declaration'⟩) := by
    rintro ps _ ⟨hps, rfl⟩
    refine (expect_alike _ _).bind fun _ _ _ => ?_
    refine (expect_alike _ _).bind fun _ _ _ => ?_
    refine (block_alike hdeclaration).bind fun _ _ h => ?_
    exact .pure (.mk hname hps h)
  refine (nextIs_alike .rightParen).bind fun b _ hb => ?_
  subst hb
  cases b with
  | true => exact hbody [] [] ⟨nofun, rfl⟩
  | false =>
    refine (commaList_alike _ (expect_alike _ _)).bind fun ps ps' hps => hbody ps ps' ?_
    induction hps with
    | nil => exact ⟨nofun, rfl⟩
    | cons h _ ih =>
      exact ⟨List.forall_mem_cons.2 ⟨h.1, ih.1⟩, by rw [h.2, ih.2, List.map_cons]⟩

end

theorem varDeclaration_alike :
    Alike lines moved ids (Stmt.Alike lines moved ids) varDeclaration varDeclaration := by
  refine (expect_alike _ _).bind fun name _ hname => ?_
  obtain ⟨hname, rfl⟩ := hname
  have hend : ∀ e e', Option.Rel (Expr.Alike lines moved ids) e e' →
      Alike lines moved ids (Stmt.Alike lines moved ids)
        (do
          let _ ← expect .semicolon .noSemicolonAfterVariable
          return .var name e)
        (do
          let _ ← expect .semicolon .noSemicolonAfterVariable
          return .var (name.down lines) e') :=
    fun e e' he => (expect_alike _ _).bind fun _ _ _ => .pure (.var hname he)
  refine (take?_alike .equal).bind fun equals _ h => ?_
  obtain ⟨-, rfl⟩ := h
  cases equals with
  | none => exact hend none none .none
  | some _ => exact (expression_alike.map fun _ _ he => .some he).bind hend

theorem expressionStatement_alike :
    Alike lines moved ids (Stmt.Alike lines moved ids) expressionStatement expressionStatement := by
  refine expression_alike.bind fun _ _ he => ?_
  refine (expect_alike _ _).bind fun _ _ _ => ?_
  exact .pure (.expression he)

theorem expressionUnless_alike (kind : Kind) :
    Alike lines moved ids (Option.Rel (Expr.Alike lines moved ids)) (expressionUnless kind)
      (expressionUnless kind) := by
  refine (nextIs_alike kind).bind fun b _ hb => ?_
  subst hb
  cases b with
  | true => exact .pure .none
  | false => exact expression_alike.map fun _ _ he => .some he

/-! ## Statements -/

theorem forInitializer_alike :
    Alike lines moved ids (Option.Rel (Stmt.Alike lines moved ids)) forInitializer
      forInitializer := by
  refine peek_alike.bind fun token _ h => ?_
  obtain ⟨-, rfl⟩ := h
  rw [Token.down_kind]
  cases token.kind with
  | semicolon => exact advance_alike.bind fun _ _ _ => .pure .none
  | varKw => exact advance_alike.bind fun _ _ _ => varDeclaration_alike.map fun _ _ h => .some h
  | _ => exact expressionStatement_alike.map fun _ _ h => .some h

theorem forLoop_alike {i i' : Option Stmt} {c c' e e' : Option Expr} {b b' : Stmt}
    (hi : Option.Rel (Stmt.Alike lines moved ids) i i')
    (hc : Option.Rel (Expr.Alike lines moved ids) c c')
    (he : Option.Rel (Expr.Alike lines moved ids) e e') (hb : b.Alike lines moved ids b') :
    (Stmt.forLoop i c e b).Alike lines moved ids (.forLoop i' c' e' b') := by
  have hcondition : (c.getD (.literal (.bool true))).Alike lines moved ids
      (c'.getD (.literal (.bool true))) := by
    cases hc with
    | none => exact .literal _
    | some hc => exact hc
  cases hi with
  | none =>
    cases he with
    | none => exact .loop hcondition hb
    | some he => exact .loop hcondition (.block (.cons hb (.cons (.expression he) .nil)))
  | some hi =>
    cases he with
    | none => exact .block (.cons hi (.cons (.loop hcondition hb) .nil))
    | some he =>
      exact .block (.cons hi (.cons
        (.loop hcondition (.block (.cons hb (.cons (.expression he) .nil)))) .nil))

section

variable {statement statement' : Parser Stmt}
  (hstatement : Alike lines moved ids (Stmt.Alike lines moved ids) statement statement')

include hstatement

theorem forStatement_alike :
    Alike lines moved ids (Stmt.Alike lines moved ids) (forStatement statement)
      (forStatement statement') := by
  refine (expect_alike _ _).bind fun _ _ _ => ?_
  refine forInitializer_alike.bind fun _ _ hi => ?_
  refine (expressionUnless_alike _).bind fun _ _ hc => ?_
  refine (expect_alike _ _).bind fun _ _ _ => ?_
  refine (expressionUnless_alike _).bind fun _ _ he => ?_
  refine (expect_alike _ _).bind fun _ _ _ => ?_
  refine hstatement.bind fun _ _ hb => ?_
  exact .pure (forLoop_alike hi hc he hb)

theorem ifStatement_alike :
    Alike lines moved ids (Stmt.Alike lines moved ids) (ifStatement statement)
      (ifStatement statement') := by
  refine (expect_alike _ _).bind fun _ _ _ => ?_
  refine expression_alike.bind fun c c' hc => ?_
  refine (expect_alike _ _).bind fun _ _ _ => ?_
  refine hstatement.bind fun s s' hs => ?_
  refine (take?_alike .elseKw).bind fun token _ h => ?_
  obtain ⟨-, rfl⟩ := h
  cases token with
  | none => exact .pure (.ifElse hc hs .none)
  | some _ =>
    exact (hstatement.map fun _ _ h => Option.Rel.some h).bind fun _ _ ho =>
      .pure (.ifElse hc hs ho)

theorem whileStatement_alike :
    Alike lines moved ids (Stmt.Alike lines moved ids) (whileStatement statement)
      (whileStatement statement') := by
  refine (expect_alike _ _).bind fun _ _ _ => ?_
  refine expression_alike.bind fun _ _ hc => ?_
  refine (expect_alike _ _).bind fun _ _ _ => ?_
  refine hstatement.bind fun _ _ hs => ?_
  exact .pure (.loop hc hs)

end

theorem returnStatement_alike {keyword : Token} (hkeyword : moved keyword) :
    Alike lines moved ids (Stmt.Alike lines moved ids) (returnStatement keyword)
      (returnStatement (keyword.down lines)) := by
  refine (expressionUnless_alike _).bind fun _ _ he => ?_
  refine (expect_alike _ _).bind fun _ _ _ => ?_
  exact .pure (.ret hkeyword he)

theorem breakStatement_alike {keyword : Token} (hkeyword : moved keyword) :
    Alike lines moved ids (Stmt.Alike lines moved ids) (breakStatement keyword)
      (breakStatement (keyword.down lines)) :=
  (expect_alike _ _).bind fun _ _ _ => .pure (.brk hkeyword)

theorem printStatement_alike :
    Alike lines moved ids (Stmt.Alike lines moved ids) printStatement printStatement := by
  refine expression_alike.bind fun _ _ he => ?_
  refine (expect_alike _ _).bind fun _ _ _ => ?_
  exact .pure (.print he)

section

variable {statement statement' : Parser Stmt} {declaration declaration' : Parser (Option Stmt)}
  (hstatement : Alike lines moved ids (Stmt.Alike lines moved ids) statement statement')
  (hdeclaration :
    Alike lines moved ids (Option.Rel (Stmt.Alike lines moved ids)) declaration declaration')

include hstatement hdeclaration

theorem statementOf_alike :
    Alike lines moved ids (Stmt.Alike lines moved ids) (statementOf statement declaration)
      (statementOf statement' declaration') := by
  refine peek_alike.bind fun token _ h => ?_
  obtain ⟨ht, rfl⟩ := h
  rw [Token.down_kind]
  cases token.kind with
  | forKw => exact advance_alike.bind fun _ _ _ => forStatement_alike hstatement
  | ifKw => exact advance_alike.bind fun _ _ _ => ifStatement_alike hstatement
  | whileKw => exact advance_alike.bind fun _ _ _ => whileStatement_alike hstatement
  | returnKw => exact advance_alike.bind fun _ _ _ => returnStatement_alike ht
  | breakKw => exact advance_alike.bind fun _ _ _ => breakStatement_alike ht
  | leftBrace =>
    exact advance_alike.bind fun _ _ _ => (block_alike hdeclaration).map fun _ _ h => .block h
  | printKw => exact advance_alike.bind fun _ _ _ => printStatement_alike
  | _ => exact expressionStatement_alike

/-! ## Declarations -/

omit hstatement in
theorem classDeclaration_alike :
    Alike lines moved ids (Stmt.Alike lines moved ids) (classDeclaration declaration)
      (classDeclaration declaration') := by
  refine (expect_alike _ _).bind fun name _ hname => ?_
  obtain ⟨hname, rfl⟩ := hname
  have hbody : ∀ s s', Option.Rel (Superclass.Alike lines moved ids) s s' →
      Alike lines moved ids (Stmt.Alike lines moved ids)
        (do
          let _ ← expect .leftBrace .noBraceBeforeClassBody
          let methods ← upToBrace fun methods =>
            return methods.push (← function .method declaration)
          let _ ← expect .rightBrace .noBraceAfterClassBody
          return .classDef name s methods)
        (do
          let _ ← expect .leftBrace .noBraceBeforeClassBody
          let methods ← upToBrace fun methods =>
            return methods.push (← function .method declaration')
          let _ ← expect .rightBrace .noBraceAfterClassBody
          return .classDef (name.down lines) s' methods) := by
    intro s s' hs
    refine (expect_alike _ _).bind fun _ _ _ => ?_
    have hmethods := upToBrace_alike fun as bs has =>
      (function_alike hdeclaration .method).bind fun f f' hf => .pure (has.push hf)
    refine hmethods.bind fun fs fs' hfs => ?_
    exact (expect_alike _ _).bind fun _ _ _ => .pure (.classDef hname hs hfs)
  refine (take?_alike .less).bind fun less _ h => ?_
  obtain ⟨-, rfl⟩ := h
  cases less with
  | none => exact hbody none none .none
  | some _ =>
    refine (expect_alike _ _).bind fun parent _ hparent => ?_
    obtain ⟨hparent, rfl⟩ := hparent
    exact freshId_alike.bind fun id id' hid => hbody (some ⟨id, parent⟩) _ (.some (.mk hparent hid))

theorem declarationOf_alike :
    Alike lines moved ids (Stmt.Alike lines moved ids) (declarationOf statement declaration)
      (declarationOf statement' declaration') := by
  refine peek_alike.bind fun token _ h => ?_
  obtain ⟨-, rfl⟩ := h
  rw [Token.down_kind]
  cases token.kind with
  | classKw => exact advance_alike.bind fun _ _ _ => classDeclaration_alike hdeclaration
  | funKw =>
    exact advance_alike.bind fun _ _ _ => (function_alike hdeclaration .function).map
      fun _ _ h => .function h
  | varKw => exact advance_alike.bind fun _ _ _ => varDeclaration_alike
  | _ => exact statementOf_alike hstatement hdeclaration

end

mutual

theorem statementWithin_alike (bound : List Token) :
    Alike lines moved ids (Stmt.Alike lines moved ids)
      (statementWithin bound) (statementWithin (bound.map (Token.down lines))) := by
  cases bound with
  | nil => exact fail_alike _
  | cons _ bound =>
    exact statementOf_alike (statementWithin_alike bound) (declarationWithin_alike bound)
termination_by structural bound

theorem declarationWithin_alike (bound : List Token) :
    Alike lines moved ids (Option.Rel (Stmt.Alike lines moved ids)) (declarationWithin bound)
      (declarationWithin (bound.map (Token.down lines))) := by
  cases bound with
  | nil => exact recovering_alike (fail_alike _)
  | cons _ bound =>
    have hstatement := statementWithin_alike bound
    exact recovering_alike (declarationOf_alike hstatement (declarationWithin_alike bound))
termination_by structural bound

end

theorem declaration_alike :
    Alike lines moved ids (Option.Rel (Stmt.Alike lines moved ids)) declaration declaration := by
  intro s s' h
  unfold declaration
  rw [h.rest]
  exact declarationWithin_alike s.rest s s' h

/-! ## Whole inputs -/

theorem declarations_alike :
    Alike lines moved ids (List.Forall₂ (Stmt.Alike lines moved ids)) declarations
      declarations := by
  refine (repeatFrom_alike (show Items (Stmt.Alike lines moved ids) #[] #[] from .nil)
    fun as bs has => ?_).bind fun as bs has => .pure has
  refine atEnd_alike.bind fun e _ he => ?_
  subst he
  cases e with
  | true => exact .pure .none
  | false => exact declaration_alike.bind fun d d' hd => .pure (.some (has.append hd))

theorem onlyExpression_alike :
    Alike lines moved ids (Expr.Alike lines moved ids) onlyExpression onlyExpression := by
  refine expression_alike.bind fun e e' h => ?_
  refine atEnd_alike.bind fun b _ hb => ?_
  subst hb
  cases b with
  | true => exact .pure h
  | false => exact fail_alike _

theorem terminated_down (lines : Nat) {tokens : List Token} (h : tokens ≠ []) :
    terminated (tokens.map (Token.down lines)) = (terminated tokens).map (Token.down lines) := by
  obtain ⟨front, last, rfl⟩ := List.eq_nil_or_concat tokens |>.resolve_left h
  unfold terminated
  simp only [List.concat_eq_append, List.map_append, List.map_cons, List.map_nil,
    List.getLast?_append, List.getLast?_singleton, Option.some_or, Option.any_some, Option.map_some,
    Option.getD_some]
  have hend : isEnd (last.down lines) = isEnd last := rfl
  rw [hend]
  split <;> simp [Token.down]

theorem start_alike {tokens : List Token} (h : tokens ≠ [])
    (hmoved : ∀ t ∈ terminated tokens, moved t) {firstId firstId' : RefId}
    (hfresh : ∀ j, ids (firstId + j) (firstId' + j)) :
    (State.start tokens firstId).Alike lines moved ids
      (.start (tokens.map (Token.down lines)) firstId') where
  rest := by
    rw [State.start, State.start, terminated_down lines h, List.takeWhile_map]
    rfl
  final := by
    rw [State.start, State.start, terminated_down lines h, List.find?_map]
    rfl
  rest_moved := fun t ht => hmoved t ((List.takeWhile_sublist _).subset ht)
  final_moved := fun t ht => hmoved t (List.mem_of_find?_eq_some ht)
  fresh := hfresh
  reported := Array.map_empty.symm
  reported_moved := fun _ h => absurd h (Array.not_mem_empty _)

/-- Two outcomes with trees that are related, the same errors in other lines, and corresponding
    identities behind them. -/
structure Outcome.Alike (lines : Nat) (moved : Token → Prop) (ids : RefId → RefId → Prop)
    (R : α → β → Prop) (o : Outcome α) (o' : Outcome β) : Prop where
  tree : R o.tree o'.tree
  errors : o'.errors = o.errors.map (Error.down lines)
  /-- All errors are mistakes at tokens of the text. -/
  moved : ∀ e ∈ o.errors, ∃ m : Mistake, e = m.error ∧ moved m.token
  fresh : ∀ j, ids (o.nextId + j) (o'.nextId + j)
  ranOut : o'.ranOut = o.ranOut

theorem State.Alike.errors {s s' : State} (h : s.Alike lines moved ids s') :
    s'.errors = s.errors.map (Error.down lines) := by
  simp only [State.errors, h.reported, Array.toList_map, List.map_map]
  rfl

theorem State.Alike.errors_moved {s s' : State} (h : s.Alike lines moved ids s') :
    ∀ e ∈ s.errors, ∃ m : Mistake, e = m.error ∧ moved m.token := by
  intro e he
  obtain ⟨m, hm, rfl⟩ := List.mem_map.1 he
  exact ⟨m, rfl, h.reported_moved m (Array.mem_def.2 hm)⟩

/-- An outcome that ends with a mistake. -/
theorem State.Alike.outcome {s s' : State} (h : s.Alike lines moved ids s') {a : α} {b : β}
    (hab : R a b) {m : Mistake} (hm : moved m.token) :
    Outcome.Alike lines moved ids R ⟨a, s.errors ++ [m.error], s.nextId, false⟩
      ⟨b, s'.errors ++ [(m.down lines).error], s'.nextId, false⟩ where
  tree := hab
  errors := by
    rw [h.errors, List.map_append]
    rfl
  moved := List.forall_mem_append.2 ⟨h.errors_moved, List.forall_mem_singleton.2 ⟨m, rfl, hm⟩⟩
  fresh := h.fresh
  ranOut := rfl

/-- Alike sources have alike programs. -/
theorem program_alike {tokens : List Token} (h : tokens ≠ [])
    (hmoved : ∀ t ∈ terminated tokens, moved t) {firstId firstId' : RefId}
    (hfresh : ∀ j, ids (firstId + j) (firstId' + j)) :
    Outcome.Alike lines moved ids (List.Forall₂ (Stmt.Alike lines moved ids)) (program tokens firstId)
      (program (tokens.map (Token.down lines)) firstId') := by
  have hstart : (State.start tokens firstId).Alike lines moved ids
      (.start (tokens.map (Token.down lines)) firstId') := start_alike h hmoved hfresh
  have hruns := declarations_alike _ _ hstart
  unfold program
  generalize declarations (.start tokens firstId) = r at hruns ⊢
  generalize declarations (.start (tokens.map (Token.down lines)) firstId') = r' at hruns ⊢
  cases hruns with
  | ok htree hs => exact ⟨htree, hs.errors, hs.errors_moved, hs.fresh, rfl⟩
  | @error f _ _ _ hf hs =>
    obtain ⟨rfl, hm⟩ := hf
    cases f with
    | mistake m => exact hs.outcome .nil (hm m rfl)
    | outOfTokens => exact ⟨.nil, hs.errors, hs.errors_moved, hs.fresh, rfl⟩

theorem singleExpression_alike {tokens : List Token} (h : tokens ≠ [])
    (hmoved : ∀ t ∈ terminated tokens, moved t) {firstId firstId' : RefId}
    (hfresh : ∀ j, ids (firstId + j) (firstId' + j)) :
    Outcome.Alike lines moved ids (Option.Rel (Expr.Alike lines moved ids))
      (singleExpression tokens firstId)
      (singleExpression (tokens.map (Token.down lines)) firstId') := by
  have hstart : (State.start tokens firstId).Alike lines moved ids
      (.start (tokens.map (Token.down lines)) firstId') := start_alike h hmoved hfresh
  have hruns := onlyExpression_alike _ _ hstart
  unfold singleExpression
  generalize onlyExpression (.start tokens firstId) = r at hruns ⊢
  generalize onlyExpression (.start (tokens.map (Token.down lines)) firstId') = r' at hruns ⊢
  cases hruns with
  | ok htree hs => exact ⟨.some htree, hs.errors, hs.errors_moved, hs.fresh, rfl⟩
  | @error f _ _ _ hf hs =>
    obtain ⟨rfl, hm⟩ := hf
    cases f with
    | mistake m => exact hs.outcome .none (hm m rfl)
    | outOfTokens => exact ⟨.none, hs.errors, hs.errors_moved, hs.fresh, rfl⟩

end Lox.Parse
