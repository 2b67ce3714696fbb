import Lox.Proofs.Grammar.Soundness.Expression

set_option autoImplicit false

/-! # What the parser reads is in the grammar: programs

The rules of statements are run behind the word with which the statement begins; what they give is
said of the state before that word (`State.unread`). A statement that could take an `else` is never
followed by one, so the `else` that follows a statement belongs to the `if` around it. -/

namespace Lox.Grammar

open Parse

variable {statement : Parser Stmt} {declaration : Parser (Option Stmt)}

/-! ## Simple statements -/

theorem yieldsAt_expressionUnless (kind : Kind) (s : State) :
    YieldsAt s (expressionUnless kind) (Gives .optional s) := by
  refine (yieldsAt_nextIs _).bind fun b s₁ _ h => ?_
  subst h
  cases b with
  | true => exact .pure ⟨.nil (Nat.le_refl _), fun _ => .absent⟩
  | false =>
    refine (isRule_expression s₁).map.mono fun _ s' _ h => ?_
    obtain ⟨e, rfl, g⟩ := h
    exact ⟨g.drawn, fun hq => .present (g.reads hq)⟩

theorem yieldsAt_varDeclaration {v : Token} (hv : v.kind = .varKw) (s : State) :
    YieldsAt s varDeclaration (Gives .varDeclaration (s.unread v)) := by
  refine (yieldsAt_expect rfl _).bind fun t s₁ _ ⟨ht, h⟩ => ?_
  subst h
  refine (yieldsAt_take? rfl).bind fun q? s₂ _ h => ?_
  rcases h with ⟨q, rfl, hq, rfl⟩ | ⟨rfl, rfl, -⟩
  · refine (isRule_expression _).map.bind fun _ s₃ _ h => ?_
    obtain ⟨e, rfl, g⟩ := h
    refine (yieldsAt_expect rfl _).bind fun r s₄ _ ⟨hr, h⟩ => .pure ?_
    subst h
    exact ⟨g.drawn, fun hquiet => .varInitializer hv ht hq (g.reads hquiet) hr⟩
  · refine (yieldsAt_expect rfl _).bind fun r s₄ _ ⟨hr, h⟩ => .pure ?_
    subst h
    exact ⟨.nil (Nat.le_refl _), fun _ => .varDeclaration hv ht hr⟩

theorem isRule_expressionStatement : IsRule .expressionStatement expressionStatement := by
  intro s
  refine (isRule_expression _).bind fun e s₁ _ g => ?_
  refine (yieldsAt_expect rfl _).bind fun r s₂ _ ⟨hr, h⟩ => .pure ?_
  subst h
  exact ⟨g.drawn, fun hq => .expressionStatement (g.reads hq) hr⟩

/-! ## Statements -/

/-- What the rule of a statement gives: if it could take an `else`, none follows. -/
def GivesStatement (s : State) (tree : Stmt) (s' : State) : Prop :=
  ∃ takesElse, Gives (.statement takesElse) s tree s' ∧
    (takesElse = true → ∀ t ∈ s'.rest.head?, t.kind ≠ .elseKw)

/-- A parser of statements. -/
def IsStatementRule (p : Parser Stmt) : Prop := ∀ s, YieldsAt s p (GivesStatement s)

/-- A parser of declarations. If it gives none, something was reported. -/
def IsDeclarationRule (p : Parser (Option Stmt)) : Prop :=
  ∀ s, YieldsAt s p fun d s' =>
    Drawn (Symbol.ids .declarations d.toList) s.nextId s'.nextId ∧
      (s'.reported = s.reported → ∃ tree, d = some tree ∧
        Reads true .declaration s.nextId s.rest tree s'.nextId s'.rest)

theorem isRule_forInitializer : IsRule .forInitializer forInitializer := by
  intro s
  refine yieldsAt_peek.bind fun t s₁ _ h => ?_
  obtain ⟨rfl, hrest⟩ := h
  split
  case h_1 ht =>
    refine (yieldsAt_advance (hrest (by simp [ht]))).bind fun _ s₂ _ h => .pure ?_
    subst h
    exact ⟨.nil (Nat.le_refl _), fun _ => .noInitializer ht⟩
  case h_2 ht =>
    refine (yieldsAt_advance (hrest (by simp [ht]))).bind fun _ s₂ _ h => ?_
    subst h
    refine (yieldsAt_varDeclaration ht s₂).map.mono fun _ s₃ _ h => ?_
    obtain ⟨d, rfl, g⟩ := h
    exact ⟨g.drawn, fun hq => .varForInitializer (g.reads hq)⟩
  case h_3 =>
    refine (isRule_expressionStatement s₁).map.mono fun _ s₃ _ h => ?_
    obtain ⟨d, rfl, g⟩ := h
    exact ⟨g.drawn, fun hq => .expressionForInitializer (g.reads hq)⟩

theorem references_forLoop (initializer : Option Stmt) (condition increment : Option Expr)
    (body : Stmt) :
    (Stmt.forLoop initializer condition increment body).references =
      Symbol.references .forInitializer initializer ++ optionReferences condition ++
        body.references ++ optionReferences increment := by
  cases initializer <;> cases condition <;> cases increment <;>
    simp [Stmt.forLoop, Stmt.references, stmtReferences, Symbol.references, optionReferences,
      Expr.references]

theorem yieldsAt_forStatement (hstatement : IsStatementRule statement) {f : Token}
    (hf : f.kind = .forKw) (s : State) :
    YieldsAt s (forStatement statement) (GivesStatement (s.unread f)) := by
  refine (yieldsAt_expect rfl _).bind fun l s₁ _ ⟨hl, h⟩ => ?_
  subst h
  refine (isRule_forInitializer s₁).bind fun i s₂ l₂ gi => ?_
  refine (yieldsAt_expressionUnless _ s₂).bind fun c s₃ l₃ gc => ?_
  refine (yieldsAt_expect rfl _).bind fun m s₄ _ ⟨hm, h⟩ => ?_
  subst h
  refine (yieldsAt_expressionUnless _ s₄).bind fun e s₅ l₅ ge => ?_
  refine (yieldsAt_expect rfl _).bind fun r s₆ _ ⟨hr, h⟩ => ?_
  subst h
  refine (hstatement s₆).bind fun b s₇ l₇ ⟨takesElse, gb, helse⟩ => ?_
  refine .pure ⟨takesElse, ⟨?_, fun hq => ?_⟩, helse⟩
  · have hdrawn := ((gi.drawn.append gc.drawn).append ge.drawn).append gb.drawn
    refine hdrawn.perm ?_
    simp only [Symbol.ids, Symbol.references, references_forLoop, List.map_append,
      List.append_assoc]
    exact .append_left _ (.append_left _ List.perm_append_comm)
  · obtain ⟨q₂, hq⟩ := l₂.quiet (l₃.trans ((State.LeadsTo.of_unread m s₄).trans
      (l₅.trans ((State.LeadsTo.of_unread r s₆).trans l₇)))) hq
    obtain ⟨q₃, hq⟩ := l₃.quiet ((State.LeadsTo.of_unread m s₄).trans
      (l₅.trans ((State.LeadsTo.of_unread r s₆).trans l₇))) hq
    obtain ⟨q₅, q₇⟩ := l₅.quiet ((State.LeadsTo.of_unread r s₆).trans l₇) hq
    exact .forLoop hf hl (gi.reads q₂) (gc.reads q₃) hm (ge.reads q₅) hr (gb.reads q₇)

theorem yieldsAt_whileStatement (hstatement : IsStatementRule statement) {w : Token}
    (hw : w.kind = .whileKw) (s : State) :
    YieldsAt s (whileStatement statement) (GivesStatement (s.unread w)) := by
  refine (yieldsAt_expect rfl _).bind fun l s₁ _ ⟨hl, h⟩ => ?_
  subst h
  refine (isRule_expression s₁).bind fun c s₂ l₂ gc => ?_
  refine (yieldsAt_expect rfl _).bind fun r s₃ _ ⟨hr, h⟩ => ?_
  subst h
  refine (hstatement s₃).bind fun b s₄ l₄ ⟨takesElse, gb, helse⟩ => ?_
  refine .pure ⟨takesElse, ⟨?_, fun hq => ?_⟩, helse⟩
  · have := gc.drawn.append gb.drawn
    simpa [Symbol.ids, Symbol.references, Stmt.references] using this
  · obtain ⟨q₂, q₄⟩ := l₂.quiet ((State.LeadsTo.of_unread r s₃).trans l₄) hq
    exact .loop hw hl (gc.reads q₂) hr (gb.reads q₄)

theorem yieldsAt_ifStatement (hstatement : IsStatementRule statement) {i : Token}
    (hi : i.kind = .ifKw) (s : State) :
    YieldsAt s (ifStatement statement) (GivesStatement (s.unread i)) := by
  refine (yieldsAt_expect rfl _).bind fun l s₁ _ ⟨hl, h⟩ => ?_
  subst h
  refine (isRule_expression s₁).bind fun c s₂ l₂ gc => ?_
  refine (yieldsAt_expect rfl _).bind fun r s₃ _ ⟨hr, h⟩ => ?_
  subst h
  refine (hstatement s₃).bind fun b s₄ l₄ ⟨takesElse, gb, helse⟩ => ?_
  have l₄ := (State.LeadsTo.of_unread r s₃).trans l₄
  refine (yieldsAt_take? rfl).bind fun k? s₅ l₅ h => ?_
  rcases h with ⟨k, rfl, hk, rfl⟩ | ⟨rfl, rfl, hnext⟩
  · refine (hstatement s₅).map.bind fun _ s₆ l₆ h => ?_
    obtain ⟨b', rfl, takesElse', gb', helse'⟩ := h
    refine .pure ⟨takesElse', ⟨?_, fun hq => ?_⟩, helse'⟩
    · have := (gc.drawn.append gb.drawn).append gb'.drawn
      simpa [Symbol.ids, Symbol.references, Stmt.references] using this
    · obtain ⟨q₂, hq⟩ := l₂.quiet (l₄.trans (l₅.trans l₆)) hq
      obtain ⟨q₄, q₆⟩ := l₄.quiet (l₅.trans l₆) hq
      refine .ifElse hi hl (gc.reads q₂) hr (gb.reads q₄) (fun _ => ?_) hk (gb'.reads q₆)
      exact Bool.eq_false_iff.2 fun ht => helse ht k rfl hk
  · refine .pure ⟨true, ⟨?_, fun hq => ?_⟩, fun _ => hnext⟩
    · have := gc.drawn.append gb.drawn
      simpa [Symbol.ids, Symbol.references, Stmt.references] using this
    · obtain ⟨q₂, q₄⟩ := l₂.quiet l₄ hq
      exact .ifOnly hi hl (gc.reads q₂) hr (gb.reads q₄)

theorem yieldsAt_returnStatement {k : Token} (hk : k.kind = .returnKw) (s : State) :
    YieldsAt s (returnStatement k) (GivesStatement (s.unread k)) := by
  refine (yieldsAt_expressionUnless _ s).bind fun e s₁ _ g => ?_
  refine (yieldsAt_expect rfl _).bind fun r s₂ _ ⟨hr, h⟩ => .pure ?_
  subst h
  exact ⟨false, ⟨g.drawn, fun hq => .ret hk (g.reads hq) hr⟩, nofun⟩

theorem yieldsAt_breakStatement {k : Token} (hk : k.kind = .breakKw) (s : State) :
    YieldsAt s (breakStatement k) (GivesStatement (s.unread k)) := by
  refine (yieldsAt_expect rfl _).bind fun r s₂ _ ⟨hr, h⟩ => .pure ?_
  subst h
  exact ⟨false, ⟨.nil (Nat.le_refl _), fun _ => .brk hk hr⟩, nofun⟩

theorem yieldsAt_printStatement {p : Token} (hp : p.kind = .printKw) (s : State) :
    YieldsAt s printStatement (GivesStatement (s.unread p)) := by
  refine (isRule_expression s).bind fun e s₁ _ g => ?_
  refine (yieldsAt_expect rfl _).bind fun r s₂ _ ⟨hr, h⟩ => .pure ?_
  subst h
  exact ⟨false, ⟨g.drawn, fun hq => .print hp (g.reads hq) hr⟩, nofun⟩

/-! ## Blocks, functions and classes -/

theorem Reads.snoc_declaration {nearest : Bool} {n n₁ n' : RefId} {ts ts₁ ts' : List Token}
    {ss : List Stmt} {d : Stmt} (h : Reads nearest .declarations n ts ss n₁ ts₁)
    (hd : Reads nearest .declaration n₁ ts₁ d n' ts') :
    Reads nearest .declarations n ts (ss ++ [d]) n' ts' := by
  induction ss generalizing n ts with
  | nil => cases h; exact .nextDeclaration hd .noDeclarations
  | cons s ss ih => cases h with | nextDeclaration hs h => exact .nextDeclaration hs (ih h)

theorem Reads.snoc_function {nearest : Bool} {n n₁ n' : RefId} {ts ts₁ ts' : List Token}
    {fs : List FunctionDef} {f : FunctionDef} (h : Reads nearest .functions n ts fs n₁ ts₁)
    (hf : Reads nearest .function n₁ ts₁ f n' ts') :
    Reads nearest .functions n ts (fs ++ [f]) n' ts' := by
  induction fs generalizing n ts with
  | nil => cases h; exact .nextFunction hf .noFunctions
  | cons s ss ih => cases h with | nextFunction hs h => exact .nextFunction hs (ih h)

/-- Items up to a brace keep what each of them keeps. -/
theorem yieldsAt_upToBrace {α : Type} {item : Array α → Parser (Array α)} {s : State}
    {I : List α → State → Prop} (hnil : I [] s)
    (hitem : ∀ as s₁, s.LeadsTo s₁ → I as.toList s₁ →
      YieldsAt s₁ (item as) fun as s' => I as.toList s') :
    YieldsAt s (upToBrace item) I := by
  refine (yieldsAt_repeatFrom (I := fun as s => I as.toList s) (.refl s) hnil ?_).bind
    fun as s₁ _ h => .pure h
  intro as s₁ l₁ h₁
  refine (yieldsAt_nextIs _).bind fun _ s₂ _ h => ?_
  subst h
  refine yieldsAt_atEnd.bind fun _ s₃ _ h => ?_
  obtain ⟨rfl, -⟩ := h
  split
  · exact .pure (.inr ⟨rfl, h₁⟩)
  · exact (hitem as s₃ l₁ h₁).bind fun as s₄ _ h₄ => .pure (.inl ⟨as, rfl, h₄⟩)

/-- The declarations of a block and its closing brace. -/
theorem yieldsAt_block (hdeclaration : IsDeclarationRule declaration) (s : State) :
    YieldsAt s (block declaration) fun body s' =>
      ∃ r, r.kind = .rightBrace ∧ Gives .declarations s body (s'.unread r) := by
  refine YieldsAt.bind (P := Gives .declarations s) ?_ fun body s₁ _ g => ?_
  · refine yieldsAt_upToBrace ⟨.nil (Nat.le_refl _), fun _ => .noDeclarations⟩ ?_
    intro body s₁ l₁ g
    refine (hdeclaration s₁).bind fun d s₂ l₂ h => ?_
    obtain ⟨hdrawn, hreads⟩ := h
    refine .pure ⟨?_, fun hq => ?_⟩
    · have := g.drawn.append hdrawn
      simpa [Symbol.ids, Symbol.references] using this
    · obtain ⟨q₁, q₂⟩ := l₁.quiet l₂ hq
      obtain ⟨tree, rfl, h⟩ := hreads q₂
      have := (g.reads q₁).snoc_declaration h
      simpa using this
  · refine (yieldsAt_expect rfl _).bind fun r s₂ _ h => ?_
    obtain ⟨hr, rfl⟩ := h
    exact .pure ⟨r, hr, g⟩

/-- Parameters, which have no identities; no more than 255 of them unless that was reported. -/
theorem yieldsAt_parameters (s : State) :
    YieldsAt s (commaList .tooManyParameters (expect .identifier .noParameterName)) fun ps s' =>
      s'.nextId = s.nextId ∧ (s'.reported = s.reported →
        Reads true .parameters s.nextId s.rest ps s.nextId s'.rest ∧ ps.length ≤ 255) := by
  refine yieldsAt_commaList _ ?_ ?_
  · refine (yieldsAt_expect rfl _).mono fun t s' _ ⟨ht, h⟩ => ?_
    subst h
    exact ⟨rfl, fun _ => ⟨.firstParameter ht, by simp⟩⟩
  · intro ps c s₁ s₂ l₁ ⟨hn, hreads⟩ hc l₂ hr hn' hsize
    have l₁ := l₁.trans (.of_unread c s₁)
    refine (yieldsAt_expect rfl _).mono fun t s₃ l₃ ⟨ht, h⟩ => ?_
    subst h
    refine ⟨hn'.trans hn, fun hq => ?_⟩
    obtain ⟨q₁, q₂⟩ := l₁.quiet l₂ hq
    obtain ⟨h, -⟩ := hreads q₁
    rw [State.unread_rest, ← hr] at h
    have := hsize q₂
    exact ⟨.nextParameter h hc ht, by simp; omega⟩

theorem isRule_function (hdeclaration : IsDeclarationRule declaration) (sort : FunctionSort) :
    IsRule .function (function sort declaration) := by
  intro s
  refine (yieldsAt_expect rfl _).bind fun t s₁ _ ⟨ht, h⟩ => ?_
  subst h
  refine (yieldsAt_expect rfl _).bind fun l s₂ _ ⟨hl, h⟩ => ?_
  subst h
  refine (yieldsAt_nextIs _).bind fun b s₃ _ h => ?_
  subst h
  cases b with
  | true =>
    refine (yieldsAt_expect rfl _).bind fun r s₄ _ ⟨hr, h⟩ => ?_
    subst h
    refine (yieldsAt_expect rfl _).bind fun b s₅ _ ⟨hb, h⟩ => ?_
    subst h
    refine (yieldsAt_block hdeclaration s₅).bind fun body s₆ _ ⟨q, hq, g⟩ => .pure ?_
    exact ⟨g.drawn, fun hquiet => .functionNone ht hl hr hb (g.reads hquiet) hq⟩
  | false =>
    refine (yieldsAt_parameters s₃).bind fun ps s₄ l₄ ⟨hn, hreads⟩ => ?_
    refine (yieldsAt_expect rfl _).bind fun r s₅ _ ⟨hr, h⟩ => ?_
    subst h
    refine (yieldsAt_expect rfl _).bind fun b s₆ _ ⟨hb, h⟩ => ?_
    subst h
    refine (yieldsAt_block hdeclaration s₆).bind fun body s₇ l₇ ⟨q, hq, g⟩ => .pure ?_
    have l₇ := (State.LeadsTo.of_unread r (s₆.unread b)).trans
      ((State.LeadsTo.of_unread b s₆).trans l₇)
    have hn : s₆.nextId = s₃.nextId := hn
    have hdrawn := g.drawn
    rw [hn] at hdrawn
    refine ⟨hdrawn, fun hquiet => ?_⟩
    obtain ⟨q₄, q₇⟩ := l₄.quiet l₇ hquiet
    obtain ⟨hps, hsize⟩ := hreads q₄
    exact .function ht hl hps hsize hr hb (hn ▸ g.reads q₇) hq

theorem yieldsAt_classDeclaration (hdeclaration : IsDeclarationRule declaration) {k : Token}
    (hk : k.kind = .classKw) (s : State) :
    YieldsAt s (classDeclaration declaration) (Gives .declaration (s.unread k)) := by
  refine (yieldsAt_expect rfl _).bind fun t s₁ _ h => ?_
  obtain ⟨ht, rfl⟩ := h
  have methods : ∀ s₂, YieldsAt s₂ (upToBrace fun methods =>
      return methods.push (← function .method declaration)) (Gives .functions s₂) := by
    intro s₂
    refine yieldsAt_upToBrace ⟨.nil (Nat.le_refl _), fun _ => .noFunctions⟩ ?_
    intro fs s₃ l₃ g
    refine (isRule_function hdeclaration _ s₃).bind fun f s₄ l₄ gf => .pure ⟨?_, fun hq => ?_⟩
    · have := g.drawn.append gf.drawn
      simpa [Symbol.ids, Symbol.references, methodReferences] using this
    · obtain ⟨q₃, q₄⟩ := l₃.quiet l₄ hq
      have := (g.reads q₃).snoc_function (gf.reads q₄)
      simpa using this
  refine (yieldsAt_take? rfl).bind fun q? s₂ _ h => ?_
  rcases h with ⟨q, rfl, hq, rfl⟩ | ⟨rfl, rfl, -⟩
  · refine (yieldsAt_expect rfl _).bind fun u s₃ _ h => ?_
    obtain ⟨hu, rfl⟩ := h
    refine yieldsAt_freshId.bind fun id s₄ l₄ h => ?_
    obtain ⟨rfl, rfl⟩ := h
    refine (yieldsAt_expect rfl _).bind fun l s₅ _ h => ?_
    obtain ⟨hl, h⟩ := h
    have hrest : s₃.rest = l :: s₅.rest := (congrArg State.rest h :)
    have hn : s₃.nextId + 1 = s₅.nextId := (congrArg State.nextId h :)
    have hreported : s₃.reported = s₅.reported := (congrArg State.reported h :)
    refine (methods s₅).bind fun fs s₆ _ g => ?_
    refine (yieldsAt_expect rfl _).bind fun r s₇ _ h => .pure ?_
    obtain ⟨hr, rfl⟩ := h
    refine ⟨?_, fun hquiet => ?_⟩
    · exact (Drawn.fresh s₃.nextId).append (hn ▸ g.drawn)
    · have hfs := g.reads (hquiet.trans hreported)
      rw [← hn] at hfs
      have := Reads.derivedClass hk ht hq hu hl hfs hr
      rwa [← hrest] at this
  · refine (yieldsAt_expect rfl _).bind fun l s₃ _ h => ?_
    obtain ⟨hl, rfl⟩ := h
    refine (methods s₃).bind fun fs s₄ _ g => ?_
    refine (yieldsAt_expect rfl _).bind fun r s₅ _ h => .pure ?_
    obtain ⟨hr, rfl⟩ := h
    exact ⟨g.drawn, fun hquiet => .classDeclaration hk ht hl (g.reads hquiet) hr⟩

/-! ## Declarations -/

theorem isStatementRule_statementOf (hstatement : IsStatementRule statement)
    (hdeclaration : IsDeclarationRule declaration) :
    IsStatementRule (statementOf statement declaration) := by
  intro s
  refine yieldsAt_peek.bind fun t s₁ _ h => ?_
  obtain ⟨rfl, hrest⟩ := h
  have behind : ∀ {rule : Parser Stmt}, t.kind ≠ .endOfInput →
      (∀ s, YieldsAt s rule (GivesStatement (s.unread t))) →
      YieldsAt s₁ (do advance; rule) (GivesStatement s₁) := by
    intro rule ht hrule
    refine (yieldsAt_advance (hrest ht)).bind fun _ s₂ _ h => ?_
    subst h
    exact hrule s₂
  split
  case h_1 ht => exact behind (by simp [ht]) (yieldsAt_forStatement hstatement ht)
  case h_2 ht => exact behind (by simp [ht]) (yieldsAt_ifStatement hstatement ht)
  case h_3 ht => exact behind (by simp [ht]) (yieldsAt_whileStatement hstatement ht)
  case h_4 ht => exact behind (by simp [ht]) (yieldsAt_returnStatement ht)
  case h_5 ht => exact behind (by simp [ht]) (yieldsAt_breakStatement ht)
  case h_6 ht =>
    refine behind (by simp [ht]) fun s₂ => ?_
    refine (yieldsAt_block hdeclaration s₂).map.mono fun _ s₃ _ h => ?_
    obtain ⟨body, rfl, r, hr, g⟩ := h
    exact ⟨false, ⟨g.drawn, fun hq => .block ht (g.reads hq) hr⟩, nofun⟩
  case h_7 ht => exact behind (by simp [ht]) (yieldsAt_printStatement ht)
  case h_8 =>
    refine (isRule_expressionStatement s₁).mono fun e s₂ _ g => ?_
    exact ⟨false, ⟨g.drawn, fun hq => .expressionAsStatement (g.reads hq)⟩, nofun⟩

theorem isRule_declarationOf (hstatement : IsStatementRule statement)
    (hdeclaration : IsDeclarationRule declaration) :
    IsRule .declaration (declarationOf statement declaration) := by
  intro s
  refine yieldsAt_peek.bind fun t s₁ _ h => ?_
  obtain ⟨rfl, hrest⟩ := h
  split
  case h_1 ht =>
    refine (yieldsAt_advance (hrest (by simp [ht]))).bind fun _ s₂ _ h => ?_
    subst h
    exact yieldsAt_classDeclaration hdeclaration ht s₂
  case h_2 ht =>
    refine (yieldsAt_advance (hrest (by simp [ht]))).bind fun _ s₂ _ h => ?_
    subst h
    refine (isRule_function hdeclaration _ s₂).map.mono fun _ s₃ _ h => ?_
    obtain ⟨f, rfl, g⟩ := h
    exact ⟨g.drawn, fun hq => .functionDeclaration ht (g.reads hq)⟩
  case h_3 ht =>
    refine (yieldsAt_advance (hrest (by simp [ht]))).bind fun _ s₂ _ h => ?_
    subst h
    refine (yieldsAt_varDeclaration ht s₂).mono fun d s₃ _ g => ?_
    exact ⟨g.drawn, fun hq => .variableDeclaration (g.reads hq)⟩
  case h_4 =>
    refine (isStatementRule_statementOf hstatement hdeclaration s₁).mono fun d s₂ _ h => ?_
    obtain ⟨takesElse, g, -⟩ := h
    exact ⟨g.drawn, fun hq => .statement (g.reads hq)⟩

theorem resumeAfter_suffix (dropped : Token) (ts : List Token) : resumeAfter dropped ts <:+ ts := by
  induction ts generalizing dropped with
  | nil => exact List.suffix_rfl
  | cons t ts ih =>
    rw [resumeAfter]
    split
    · exact List.suffix_rfl
    · exact (ih t).trans (List.suffix_cons t ts)

theorem resume_suffix (ts : List Token) : resume ts <:+ ts := by
  cases ts with
  | nil => exact List.suffix_rfl
  | cons t ts => exact (resumeAfter_suffix t ts).trans (List.suffix_cons t ts)

theorem isDeclarationRule_recovering {rule : Parser Stmt} (hrule : IsRule .declaration rule) :
    IsDeclarationRule (recovering rule) := by
  intro s hend
  have h := hrule s hend
  simp only [recovering]
  cases hr : rule s with
  | ok d s₁ =>
    rw [hr] at h
    refine ⟨h.1, ?_, fun hq => ⟨d, rfl, h.2.reads hq⟩⟩
    simpa [Symbol.ids, Symbol.references, stmtReferences] using h.2.drawn
  | error failure s₁ =>
    rw [hr] at h
    cases failure with
    | outOfTokens => exact absurd rfl h.2
    | mistake m =>
      have hreport : s.LeadsTo { s₁ with
          rest := resume s₁.rest, reported := s₁.reported.push m } :=
        h.1.trans ⟨resume_suffix _, rfl, Nat.le_refl _, #[m], by simp⟩
      obtain ⟨t, ht⟩ := (hreport.hasEnd hend).peek
      simp only [Bind.bind, EStateM.bind, ht]
      refine ⟨hreport, .nil h.1.nextId, fun hq => ?_⟩
      obtain ⟨more, hmore⟩ := h.1.reported
      have := congrArg Array.size (hmore ▸ hq)
      simp at this

mutual

theorem isStatementRule_statementWithin (bound : List Token) :
    IsStatementRule (statementWithin bound) := by
  cases bound with
  | nil => exact fun _ => yieldsAt_fail _ _
  | cons _ bound =>
    have hdeclaration := isDeclarationRule_declarationWithin bound
    exact isStatementRule_statementOf (isStatementRule_statementWithin bound) hdeclaration
termination_by structural bound

theorem isDeclarationRule_declarationWithin (bound : List Token) :
    IsDeclarationRule (declarationWithin bound) := by
  cases bound with
  | nil => exact isDeclarationRule_recovering fun _ => yieldsAt_fail _ _
  | cons _ bound =>
    have hstatement := isStatementRule_statementWithin bound
    have hdeclaration := isDeclarationRule_declarationWithin bound
    exact isDeclarationRule_recovering (isRule_declarationOf hstatement hdeclaration)
termination_by structural bound

end

/-! ## Whole inputs -/

/-- All declarations. Each of them uses up a token, so none is left behind them. -/
theorem yieldsAt_declarations (s : State) :
    YieldsAt s declarations fun tree s' =>
      Gives .declarations s tree s' ∧ (s'.reported = s.reported → s'.rest = []) := by
  refine YieldsAt.bind (P := fun ss s' =>
    Gives .declarations s ss.toList s' ∧ (s'.reported = s.reported → s'.rest = []))
    (yieldsAt_repeatOver (s := s) (I := fun n ss s' => Gives .declarations s ss.toList s' ∧
      (s'.reported = s.reported → s'.rest.length ≤ n)) ?_ ?_ s.rest #[] s (.refl s) ?_)
    fun _ s₁ _ g => .pure g
  · intro n ss s₁ l₁ h
    obtain ⟨g, hlength⟩ := h
    refine yieldsAt_atEnd.bind fun b s₂ _ h => ?_
    obtain ⟨rfl, hb⟩ := h
    split
    · next hend => exact .pure (.inr ⟨rfl, g, fun _ => by simpa [hb] using hend⟩)
    · refine (isDeclarationRule_declarationWithin s₂.rest s₂).bind fun d s₃ l₃ h => ?_
      obtain ⟨hdrawn, hreads⟩ := h
      have reads : s₃.reported = s.reported → ∃ tree, d = some tree ∧ s₂.rest.length ≤ n + 1 ∧
          Reads true .declarations s.nextId s.rest ss.toList s₂.nextId s₂.rest ∧
            Reads true .declaration s₂.nextId s₂.rest tree s₃.nextId s₃.rest := by
        intro hq
        obtain ⟨q₁, q₃⟩ := l₁.quiet l₃ hq
        obtain ⟨tree, hd, h⟩ := hreads q₃
        exact ⟨tree, hd, hlength q₁, g.reads q₁, h⟩
      refine .pure (.inl ⟨_, rfl, ⟨?_, fun hq => ?_⟩, fun hq => ?_⟩)
      · have := g.drawn.append hdrawn
        simpa [Symbol.ids, Symbol.references] using this
      · obtain ⟨tree, rfl, -, hss, h⟩ := reads hq
        have := hss.snoc_declaration h
        simpa using this
      · obtain ⟨tree, rfl, hle, -, h⟩ := reads hq
        have := h.length_le
        simp only [Symbol.least] at this
        omega
  · rintro ss s₁ - ⟨g, hlength⟩
    exact ⟨g, fun hq => List.eq_nil_of_length_eq_zero (Nat.le_zero.1 (hlength hq))⟩
  · exact ⟨⟨.nil (Nat.le_refl _), fun _ => .noDeclarations⟩, fun _ => Nat.le_refl _⟩

end Lox.Grammar
