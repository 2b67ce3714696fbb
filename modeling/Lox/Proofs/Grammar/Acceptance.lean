import Lox.Proofs.Grammar.Completeness.Program
import Lox.Proofs.Grammar.Soundness.Whole

set_option autoImplicit false

/-! # The parser accepts the grammar

A token list is parsed without a mistake exactly if the grammar derives a tree from it, and the tree
that the parser gives is the one derivation in which each `else` belongs to the nearest `if`. That
there is such a derivation whenever there is any is a fact about the grammar: an `else` that stands
behind a statement that could take it is handed down to the innermost `if` of that statement that
has none (`Reads.handDown`). -/

namespace Lox.Grammar

open Parse

variable {n n₁ n₂ n' : RefId} {ts ts₁ ts₂ ts' : List Token}

/-! ## The nearest `if` -/

/-- An `else` behind a statement that could take it, with its own statement, can be read as a part
    of that statement. -/
theorem Reads.handDown {symbol : Symbol} {tree : symbol.Tree} {k : Token} {d : Stmt}
    {takesElse : Bool} (h : Reads true symbol n ts tree n₁ ts₁) (hs : symbol = .statement true)
    (hts : ts₁ = k :: ts₂) (hk : k.kind = .elseKw)
    (hd : Reads true (.statement takesElse) n₁ ts₂ d n' ts') :
    ∃ b tree', Reads true (.statement b) n ts tree' n' ts' := by
  induction h with
  | loop hw hl hc hr h _ ih =>
    obtain ⟨b, tree', h⟩ := ih hs hts hd
    exact ⟨b, _, .loop hw hl hc hr h⟩
  | @ifOnly _ _ _ _ _ _ _ _ _ _ _ open₁ hi hl hc hr h _ ih =>
    cases open₁ with
    | true =>
      obtain ⟨b, tree', h⟩ := ih rfl hts hd
      exact ⟨true, _, .ifOnly hi hl hc hr h⟩
    | false => exact ⟨takesElse, _, .ifElse hi hl hc hr (hts ▸ h) (fun _ => rfl) hk hd⟩
  | ifElse hi hl hc hr h₁ hclosed hk₁ h₂ _ _ ih =>
    obtain ⟨b, tree', h⟩ := ih hs hts hd
    exact ⟨b, _, .ifElse hi hl hc hr h₁ hclosed hk₁ h⟩
  | forLoop hf hl hi hc hs' he hr h _ _ _ ih =>
    obtain ⟨b, tree', h⟩ := ih hs hts hd
    exact ⟨b, _, .forLoop hf hl hi hc hs' he hr h⟩
  | _ => cases hs

/-- Whether the trees of a symbol can hold statements that an `else` could belong to. -/
def Symbol.branches : Symbol → Bool
  | function | functions | statement _ | declaration | declarations => true
  | _ => false

/-- Where no `else` can occur there is nothing to choose, and a reading that chooses is a reading. -/
theorem Reads.change {nearest nearest' : Bool} {symbol : Symbol} {tree : symbol.Tree}
    (h : Reads nearest symbol n ts tree n' ts') (hn : nearest' = true → symbol.branches = false) :
    Reads nearest' symbol n ts tree n' ts' := by
  induction h with
  | constant ht => exact .constant ht
  | this ht => exact .this ht
  | name ht => exact .name ht
  | super hk hd hm => exact .super hk hd hm
  | grouping hl _ hr ih => exact .grouping hl (ih fun _ => rfl) hr
  | primaryCall _ ih => exact .primaryCall (ih fun _ => rfl)
  | applyNone _ hl hr ih => exact .applyNone (ih fun _ => rfl) hl hr
  | apply _ hl _ hr hsize ihf ih =>
    exact .apply (ihf fun _ => rfl) hl (ih fun _ => rfl) hr hsize
  | property _ hd hm ih => exact .property (ih fun _ => rfl) hd hm
  | firstArgument _ ih => exact .firstArgument (ih fun _ => rfl)
  | nextArgument _ hc _ ihes ih => exact .nextArgument (ihes fun _ => rfl) hc (ih fun _ => rfl)
  | callUnary _ ih => exact .callUnary (ih fun _ => rfl)
  | negate ho _ ih => exact .negate ho (ih fun _ => rfl)
  | unaryOperand hp _ ih => exact .unaryOperand hp (ih fun _ => rfl)
  | tighterOperand hp _ ih => exact .tighterOperand hp (ih fun _ => rfl)
  | firstOperand _ ih => exact .firstOperand (ih fun _ => rfl)
  | nextOperand _ ho _ ih₁ ih₂ => exact .nextOperand (ih₁ fun _ => rfl) ho (ih₂ fun _ => rfl)
  | operations _ ih => exact .operations (ih fun _ => rfl)
  | assign ht hq _ ih => exact .assign ht hq (ih fun _ => rfl)
  | assignProperty _ hd hm hq _ iho ih =>
    exact .assignProperty (iho fun _ => rfl) hd hm hq (ih fun _ => rfl)
  | absent => exact .absent
  | present _ ih => exact .present (ih fun _ => rfl)
  | varDeclaration hv ht hs => exact .varDeclaration hv ht hs
  | varInitializer hv ht hq _ hs ih => exact .varInitializer hv ht hq (ih fun _ => rfl) hs
  | expressionStatement _ hs ih => exact .expressionStatement (ih fun _ => rfl) hs
  | expressionAsStatement _ ih => exact .expressionAsStatement (ih fun _ => rfl)
  | print hp _ hs ih => exact .print hp (ih fun _ => rfl) hs
  | ret hk _ hs ih => exact .ret hk (ih fun _ => rfl) hs
  | brk hk hs => exact .brk hk hs
  | block hl _ hr ih => exact .block hl (ih fun h => nomatch hn h) hr
  | loop hw hl _ hr _ ihc ih =>
    exact .loop hw hl (ihc fun _ => rfl) hr (ih fun h => nomatch hn h)
  | ifOnly hi hl _ hr _ ihc ih =>
    exact .ifOnly hi hl (ihc fun _ => rfl) hr (ih fun h => nomatch hn h)
  | ifElse hi hl _ hr _ _ hk _ ihc ih₁ ih₂ =>
    exact .ifElse hi hl (ihc fun _ => rfl) hr (ih₁ fun h => nomatch hn h)
      (fun h => nomatch hn h) hk (ih₂ fun h => nomatch hn h)
  | noInitializer hs => exact .noInitializer hs
  | varForInitializer _ ih => exact .varForInitializer (ih fun _ => rfl)
  | expressionForInitializer _ ih => exact .expressionForInitializer (ih fun _ => rfl)
  | forLoop hf hl _ _ hs _ hr _ ihi ihc ihe ih =>
    exact .forLoop hf hl (ihi fun _ => rfl) (ihc fun _ => rfl) hs (ihe fun _ => rfl) hr
      (ih fun h => nomatch hn h)
  | firstParameter ht => exact .firstParameter ht
  | nextParameter _ hc ht ih => exact .nextParameter (ih fun _ => rfl) hc ht
  | functionNone ht hl hr hb _ hq ih =>
    exact .functionNone ht hl hr hb (ih fun h => nomatch hn h) hq
  | function ht hl _ hsize hr hb _ hq ihps ih =>
    exact .function ht hl (ihps fun _ => rfl) hsize hr hb (ih fun h => nomatch hn h) hq
  | noFunctions => exact .noFunctions
  | nextFunction _ _ ihf ih =>
    exact .nextFunction (ihf fun h => nomatch hn h) (ih fun h => nomatch hn h)
  | classDeclaration hk ht hl _ hr ih =>
    exact .classDeclaration hk ht hl (ih fun h => nomatch hn h) hr
  | derivedClass hk ht hq hs hl _ hr ih =>
    exact .derivedClass hk ht hq hs hl (ih fun h => nomatch hn h) hr
  | functionDeclaration hk _ ih => exact .functionDeclaration hk (ih fun h => nomatch hn h)
  | variableDeclaration _ ih => exact .variableDeclaration (ih fun _ => rfl)
  | statement _ ih => exact .statement (ih fun h => nomatch hn h)
  | noDeclarations => exact .noDeclarations
  | nextDeclaration _ _ ihd ih =>
    exact .nextDeclaration (ihd fun h => nomatch hn h) (ih fun h => nomatch hn h)

/-- Tokens from which a tree of a symbol can be read with each `else` at the nearest `if`. -/
def ReadsNearest (symbol : Symbol) (n : RefId) (ts : List Token) (n' : RefId) (ts' : List Token) :
    Prop :=
  match symbol with
  | .statement _ => ∃ b tree, Reads true (.statement b) n ts tree n' ts'
  | symbol => ∃ tree, Reads true symbol n ts tree n' ts'

/-- If a tree can be read at all, one can be read with each `else` at the nearest `if`. -/
theorem Reads.readsNearest {symbol : Symbol} {tree : symbol.Tree}
    (h : Reads false symbol n ts tree n' ts') (hb : symbol.branches = true) :
    ReadsNearest symbol n ts n' ts' := by
  induction h with
  | expressionAsStatement h => exact ⟨_, _, .expressionAsStatement (h.change fun _ => rfl)⟩
  | print hp h hs => exact ⟨_, _, .print hp (h.change fun _ => rfl) hs⟩
  | ret hk h hs => exact ⟨_, _, .ret hk (h.change fun _ => rfl) hs⟩
  | brk hk hs => exact ⟨_, _, .brk hk hs⟩
  | block hl _ hr ih =>
    obtain ⟨_, h⟩ := ih rfl
    exact ⟨_, _, .block hl h hr⟩
  | loop hw hl hc hr _ _ ih =>
    obtain ⟨_, _, h⟩ := ih rfl
    exact ⟨_, _, .loop hw hl (hc.change fun _ => rfl) hr h⟩
  | ifOnly hi hl hc hr _ _ ih =>
    obtain ⟨_, _, h⟩ := ih rfl
    exact ⟨_, _, .ifOnly hi hl (hc.change fun _ => rfl) hr h⟩
  | ifElse hi hl hc hr _ _ hk _ _ ih₁ ih₂ =>
    obtain ⟨b₁, _, h₁⟩ := ih₁ rfl
    obtain ⟨_, _, h₂⟩ := ih₂ rfl
    cases b₁ with
    | false => exact ⟨_, _, .ifElse hi hl (hc.change fun _ => rfl) hr h₁ (fun _ => rfl) hk h₂⟩
    | true =>
      obtain ⟨_, _, h⟩ := h₁.handDown rfl rfl hk h₂
      exact ⟨_, _, .ifOnly hi hl (hc.change fun _ => rfl) hr h⟩
  | forLoop hf hl hi hc hs he hr _ _ _ _ ih =>
    obtain ⟨_, _, h⟩ := ih rfl
    exact ⟨_, _, .forLoop hf hl (hi.change fun _ => rfl) (hc.change fun _ => rfl) hs
      (he.change fun _ => rfl) hr h⟩
  | functionNone ht hl hr hl' _ hq ih =>
    obtain ⟨_, h⟩ := ih rfl
    exact ⟨_, .functionNone ht hl hr hl' h hq⟩
  | function ht hl hps hsize hr hl' _ hq _ ih =>
    obtain ⟨_, h⟩ := ih rfl
    exact ⟨_, .function ht hl (hps.change fun _ => rfl) hsize hr hl' h hq⟩
  | noFunctions => exact ⟨_, .noFunctions⟩
  | nextFunction _ _ ihf ih =>
    obtain ⟨_, hf⟩ := ihf rfl
    obtain ⟨_, h⟩ := ih rfl
    exact ⟨_, .nextFunction hf h⟩
  | classDeclaration hk ht hl _ hr ih =>
    obtain ⟨_, h⟩ := ih rfl
    exact ⟨_, .classDeclaration hk ht hl h hr⟩
  | derivedClass hk ht hq hs hl _ hr ih =>
    obtain ⟨_, h⟩ := ih rfl
    exact ⟨_, .derivedClass hk ht hq hs hl h hr⟩
  | functionDeclaration hk _ ih =>
    obtain ⟨_, h⟩ := ih rfl
    exact ⟨_, .functionDeclaration hk h⟩
  | variableDeclaration h => exact ⟨_, .variableDeclaration (h.change fun _ => rfl)⟩
  | statement _ ih =>
    obtain ⟨_, _, h⟩ := ih rfl
    exact ⟨_, .statement h⟩
  | noDeclarations => exact ⟨_, .noDeclarations⟩
  | nextDeclaration _ _ ihd ih =>
    obtain ⟨_, hd⟩ := ihd rfl
    obtain ⟨_, h⟩ := ih rfl
    exact ⟨_, .nextDeclaration hd h⟩
  | _ => exact nomatch hb

/-! ## Token lists -/

section

variable {tokens : List Token} {final : Token}

theorem start_append_final (htokens : ∀ t ∈ tokens, t.kind ≠ .endOfInput)
    (hfinal : final.kind = .endOfInput) (firstId : RefId) :
    State.start (tokens ++ [final]) firstId = ⟨tokens, some final, firstId, #[]⟩ := by
  have hend : isEnd final = true := by rw [isEnd, hfinal]; rfl
  have htokens : ∀ t ∈ tokens, isEnd t = false := fun t ht => Bool.eq_false_iff.2 fun h =>
    htokens t ht (Kind.eq_of_sameAs rfl (Kind.sameAs_comm _ _ ▸ h))
  have hterminated : terminated (tokens ++ [final]) = tokens ++ [final] := by
    simp [terminated, hend]
  have hfind : tokens.find? isEnd = none :=
    List.find?_eq_none.2 fun t ht => by simp [htokens t ht]
  have htake : (tokens ++ [final]).takeWhile (fun t => !isEnd t) = tokens := by
    rw [List.takeWhile_append_of_pos fun t ht => by simp [htokens t ht]]
    simp [hend]
  simp [State.start, hterminated, List.find?_append, hfind, htake, hend]

/-- Without a mistake, a program is read to its end by the grammar. -/
theorem reads_of_program (htokens : ∀ t ∈ tokens, t.kind ≠ .endOfInput)
    (hfinal : final.kind = .endOfInput) {firstId : RefId}
    (h : (program (tokens ++ [final]) firstId).errors = []) :
    Reads true .declarations firstId tokens (program (tokens ++ [final]) firstId).tree
      (program (tokens ++ [final]) firstId).nextId [] := by
  have hreads := (program_follows (tokens ++ [final]) firstId).fact h
  rwa [start_append_final htokens hfinal] at hreads

theorem reads_of_singleExpression (htokens : ∀ t ∈ tokens, t.kind ≠ .endOfInput)
    (hfinal : final.kind = .endOfInput) {firstId : RefId}
    (h : (singleExpression (tokens ++ [final]) firstId).errors = []) :
    ∃ e, (singleExpression (tokens ++ [final]) firstId).tree = some e ∧
      Reads true .expression firstId tokens e
        (singleExpression (tokens ++ [final]) firstId).nextId [] := by
  have hreads := (singleExpression_follows (tokens ++ [final]) firstId).fact h
  rwa [start_append_final htokens hfinal] at hreads

theorem program_of_reads (htokens : ∀ t ∈ tokens, t.kind ≠ .endOfInput)
    (hfinal : final.kind = .endOfInput) {firstId n : RefId} {tree : List Stmt}
    (h : Reads true .declarations firstId tokens tree n []) :
    program (tokens ++ [final]) firstId = ⟨tree, [], n, false⟩ := by
  have hrun := h.succeeds_declarations ⟨tokens, some final, firstId, #[]⟩ ⟨final, rfl, hfinal⟩
  simp only [State.moved] at hrun
  rw [program, start_append_final htokens hfinal, hrun]
  rfl

theorem singleExpression_of_reads (htokens : ∀ t ∈ tokens, t.kind ≠ .endOfInput)
    (hfinal : final.kind = .endOfInput) {firstId n : RefId} {tree : Expr}
    (h : Reads true .expression firstId tokens tree n []) :
    singleExpression (tokens ++ [final]) firstId = ⟨some tree, [], n, false⟩ := by
  have hends : Ends 8 [] := by rintro _ ⟨⟩
  have hexpression := h.succeeds_expression hends
  have hrun : Succeeds onlyExpression firstId tokens tree n [] :=
    hexpression.bind (succeeds_atEnd.bind (.pure _))
  have hrun := hrun ⟨tokens, some final, firstId, #[]⟩ ⟨final, rfl, hfinal⟩
  simp only [State.moved] at hrun
  rw [singleExpression, start_append_final htokens hfinal, hrun]
  rfl

/-- **The parser accepts exactly the grammar.** A token list with its only end token at its end is
    parsed without a mistake if and only if a program can be derived from the tokens before the end,
    and then the parse gives the derived tree in which each `else` belongs to the nearest `if`, which
    is the only one. The same holds for single expressions. -/
theorem parse_iff_reads (htokens : ∀ t ∈ tokens, t.kind ≠ .endOfInput)
    (hfinal : final.kind = .endOfInput) (firstId : RefId) :
    ((program (tokens ++ [final]) firstId).errors = [] ↔
        ∃ tree n, Reads false .declarations firstId tokens tree n []) ∧
      (∀ tree n, program (tokens ++ [final]) firstId = ⟨tree, [], n, false⟩ ↔
        Reads true .declarations firstId tokens tree n []) ∧
      ((singleExpression (tokens ++ [final]) firstId).errors = [] ↔
        ∃ tree n, Reads false .expression firstId tokens tree n []) ∧
      (∀ tree n, singleExpression (tokens ++ [final]) firstId = ⟨some tree, [], n, false⟩ ↔
        Reads true .expression firstId tokens tree n []) := by
  refine ⟨⟨fun h => ?_, fun h => ?_⟩, fun tree n => ⟨fun h => ?_, fun h => ?_⟩,
    ⟨fun h => ?_, fun h => ?_⟩, fun tree n => ⟨fun h => ?_, fun h => ?_⟩⟩
  · exact ⟨_, _, (reads_of_program htokens hfinal h).change nofun⟩
  · obtain ⟨tree, n, h⟩ := h
    obtain ⟨tree', h⟩ := h.readsNearest rfl
    rw [program_of_reads htokens hfinal h]
  · have hreads := reads_of_program htokens hfinal (by rw [h])
    rwa [h] at hreads
  · exact program_of_reads htokens hfinal h
  · obtain ⟨e, -, h⟩ := reads_of_singleExpression htokens hfinal h
    exact ⟨_, _, h.change nofun⟩
  · obtain ⟨tree, n, h⟩ := h
    rw [singleExpression_of_reads htokens hfinal (h.change fun _ => rfl)]
  · obtain ⟨e, he, hreads⟩ := reads_of_singleExpression htokens hfinal (by rw [h])
    rw [h] at he hreads
    cases he
    exact hreads
  · exact singleExpression_of_reads htokens hfinal h

/-- An operand without operators around it is an expression. -/
theorem Reads.expression_of_unary {nearest : Bool} {e : Expr}
    (h : Reads nearest .unary n ts e n' ts') : Reads nearest .expression n ts e n' ts' := by
  have hfactor : Reads nearest (.operation .factor) n ts e n' ts' :=
    .firstOperand (.unaryOperand rfl h)
  have hcomparison : Reads nearest (.operation .comparison) n ts e n' ts' :=
    .firstOperand (.tighterOperand rfl (.firstOperand (.tighterOperand rfl hfactor)))
  have hand : Reads nearest (.operation .and) n ts e n' ts' :=
    .firstOperand (.tighterOperand rfl (.firstOperand (.tighterOperand rfl hcomparison)))
  exact .operations (.firstOperand (.tighterOperand rfl hand))

/-- A call without operators around it is an expression. -/
theorem Reads.expression_of_call {nearest : Bool} {e : Expr}
    (h : Reads nearest .call n ts e n' ts') : Reads nearest .expression n ts e n' ts' :=
  .expression_of_unary (.callUnary h)

/-- The tokens of `if (a) if (b) print c; else d.e = f;`. -/
def danglingElse : List Token :=
  [⟨.ifKw, "if", 1⟩, ⟨.leftParen, "(", 1⟩, ⟨.identifier, "a", 1⟩, ⟨.rightParen, ")", 1⟩,
   ⟨.ifKw, "if", 1⟩, ⟨.leftParen, "(", 1⟩, ⟨.identifier, "b", 1⟩, ⟨.rightParen, ")", 1⟩,
   ⟨.printKw, "print", 1⟩, ⟨.identifier, "c", 1⟩, ⟨.semicolon, ";", 1⟩, ⟨.elseKw, "else", 1⟩,
   ⟨.identifier, "d", 1⟩, ⟨.dot, ".", 1⟩, ⟨.identifier, "e", 1⟩, ⟨.equal, "=", 1⟩,
   ⟨.identifier, "f", 1⟩, ⟨.semicolon, ";", 1⟩]

/-- The `else` belongs to the inner `if`. -/
theorem program_danglingElse :
    (∀ t ∈ danglingElse, t.kind ≠ .endOfInput) ∧
      program (danglingElse ++ [⟨.endOfInput, "", 1⟩]) 0 =
        ⟨[.ifElse (.var 0 ⟨.identifier, "a", 1⟩)
            (.ifElse (.var 1 ⟨.identifier, "b", 1⟩) (.print (.var 2 ⟨.identifier, "c", 1⟩))
              (some (.expression (.set (.var 3 ⟨.identifier, "d", 1⟩) ⟨.identifier, "e", 1⟩
                (.var 4 ⟨.identifier, "f", 1⟩)))))
            none], [], 5, false⟩ := by
  have htokens : ∀ t ∈ danglingElse, t.kind ≠ .endOfInput := by simp [danglingElse]
  refine ⟨htokens, ((parse_iff_reads htokens rfl 0).2.1 _ _).2 ?_⟩
  have name : ∀ {n t ts}, t.kind = .identifier →
      Reads true .expression n (t :: ts) (.var n t) (n + 1) ts :=
    fun ht => .expression_of_call (.primaryCall (.name ht))
  have hset : Reads true (.statement false) 3 (danglingElse.drop 12) _ 5 [] :=
    .expressionAsStatement (.expressionStatement
      (.assignProperty (.primaryCall (.name rfl)) rfl rfl rfl (name rfl)) rfl)
  exact .nextDeclaration (.statement (.ifOnly rfl rfl (name rfl) rfl
    (.ifElse rfl rfl (name rfl) rfl (.print rfl (name rfl) rfl) (fun _ => rfl) rfl hset)))
    .noDeclarations

end

end Lox.Grammar
