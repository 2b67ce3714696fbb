import Lox.Proofs.Grammar.Joined
import Lox.Proofs.Recovery.Programs

set_option autoImplicit false

/-! # A missing semicolon

Where the semicolon of a statement is missing and a word stands behind that begins another one, the
mistake is found at this word. A parse that goes on behind a mistake drops the token of the mistake
before it looks for the start of a statement, so that the word is lost and with it the statement that
it begins (`missing_semicolon_costs_both`): what is left of that statement is dropped up to the next
boundary, and the parse goes on from there. -/

namespace Lox

/-- The statements that end with a semicolon and hold no other statement. -/
def Stmt.isSimple : Stmt → Bool
  | .expression _ | .print _ | .var _ _ | .ret _ _ => true
  | _ => false

/-- What is wrong where the semicolon of a simple statement is missing and a statement begins. -/
def Stmt.unclosed : Stmt → SyntaxProblem
  | .print _ => .noSemicolonAfterValue
  | .var _ _ => .noSemicolonAfterVariable
  | .ret _ (some _) => .noSemicolonAfterReturnValue
  | .ret _ none => .noExpression
  | _ => .noSemicolonAfterExpression

namespace Parse

open Grammar

variable {α β : Type} {n n₁ m : RefId} {t : Token} {ts ts₁ ts' : List Token} {e : Mistake}

/-! ## Rules that fail -/

/-- From some tokens on, a rule fails with a mistake where others are left. -/
def Fails (p : Parser α) (n : RefId) (ts : List Token) (e : Mistake) (n' : RefId)
    (ts' : List Token) : Prop :=
  ∀ s : State, s.HasEnd → p (s.moved n ts) = .error (.mistake e) (s.moved n' ts')

theorem Fails.bind {p : Parser α} (h : Fails p n ts e m ts') (k : α → Parser β) :
    Fails (p >>= k) n ts e m ts' := by
  intro s hs
  simp only [Bind.bind, EStateM.bind, h s hs]

theorem Fails.map {p : Parser α} (h : Fails p n ts e m ts') (f : α → β) :
    Fails (f <$> p) n ts e m ts' :=
  h.bind _

theorem Fails.behind {p : Parser α} {k : α → Parser β} {a : α}
    (hp : Succeeds p n ts a n₁ ts₁) (hk : Fails (k a) n₁ ts₁ e m ts') :
    Fails (p >>= k) n ts e m ts' :=
  fun s hs => (bind_of_ok (hp s hs)).trans (hk s hs)

theorem fails_fail (problem : SyntaxProblem) :
    Fails (fail problem : Parser α) n (t :: ts) ⟨t, problem⟩ n (t :: ts) := fun _ _ => rfl

theorem fails_expect {kind : Kind} (problem : SyntaxProblem) (hplain : kind.isPlain = true)
    (ht : t.kind ≠ kind) : Fails (expect kind problem) n (t :: ts) ⟨t, problem⟩ n (t :: ts) :=
  fun _ _ => expect_eq_error problem rfl hplain ht

/-- Operands come first in a chain of them. -/
theorem fails_chains (ls : List Level) {operand : Parser Expr} (h : Fails operand n ts e m ts') :
    Fails (ls.foldl Level.chain operand) n ts e m ts' := by
  induction ls generalizing operand with
  | nil => exact h
  | cons level ls ih => exact ih (h.bind _)

/-! ### Where a statement begins, no expression does -/

section

variable (hword : startsStatement t.kind = true)

include hword

/-- A word that begins statements is none of the kinds that expressions are made of. -/
theorem kind_ne_of_startsStatement {kind : Kind} (h : startsStatement kind = false) :
    t.kind ≠ kind := by
  rintro rfl
  rw [hword] at h
  cases h

theorem fails_primary (inner : Parser Expr) :
    Fails (primary inner) n (t :: ts) ⟨t, .noExpression⟩ n (t :: ts) := by
  refine .behind succeeds_peek ?_
  split
  case h_10 => exact fails_fail _
  all_goals exact absurd ‹t.kind = _› (kind_ne_of_startsStatement hword rfl)

theorem fails_unary (inner : Parser Expr) :
    Fails (unary inner) n (t :: ts) ⟨t, .noExpression⟩ n (t :: ts) := by
  have hoperator : isPrefixOperator t.kind = false := by
    cases hkind : t.kind <;> first | rfl | (rw [hkind] at hword; cases hword)
  have hnone : Succeeds (operatorStep []) n (t :: ts) none n (t :: ts) :=
    (succeeds_takeIf_none fun u hu => by cases hu; exact hoperator).bind (.pure _)
  have hoperators : Succeeds (repeatFrom [] operatorStep) n (t :: ts) [] n (t :: ts) :=
    hnone.bind (.pure _)
  exact .behind hoperators (((fails_primary hword inner).bind _).bind _)

theorem fails_expression : Fails expression n (t :: ts) ⟨t, .noExpression⟩ n (t :: ts) :=
  (fails_chains levels (fails_unary hword (expressionWithin ts))).bind _

end

/-! ## Statements without their semicolon -/

/-- The tokens of a simple statement before its semicolon. An expression among them is read whatever
    stands behind it. -/
inductive Unclosed : RefId → List Token → Stmt → RefId → Prop
  | expression {n m ts v} : (∀ us, Reads true .expression n (ts ++ us) v m us) →
      Unclosed n ts (.expression v) m
  | print {n m k ts v} : k.kind = .printKw → (∀ us, Reads true .expression n (ts ++ us) v m us) →
      Unclosed n (k :: ts) (.print v) m
  | var {n k name} : k.kind = .varKw → name.kind = .identifier →
      Unclosed n [k, name] (.var name none) n
  | varInitializer {n m k name q ts v} : k.kind = .varKw → name.kind = .identifier →
      q.kind = .equal → (∀ us, Reads true .expression n (ts ++ us) v m us) →
      Unclosed n (k :: name :: q :: ts) (.var name (some v)) m
  | ret {n k} : k.kind = .returnKw → Unclosed n [k] (.ret k none) n
  | retValue {n m k ts v} : k.kind = .returnKw →
      (∀ us, Reads true .expression n (ts ++ us) v m us) →
      Unclosed n (k :: ts) (.ret k (some v)) m

/-- A simple statement without its last token is one without its semicolon. -/
theorem unclosed_of_reads {P : List Token} {last : Token} {s : Stmt}
    (h : Reads true .declaration n (P ++ [last]) s m []) (hs : s.isSimple = true) :
    Unclosed n P s m := by
  have hfront : ∀ (front : List Token) {u : Token}, P ++ [last] = front ++ [u] → P = front :=
    fun _ _ h => (List.append_inj' h rfl).1
  generalize hts : P ++ [last] = ts at h
  cases h with
  | classDeclaration | derivedClass | functionDeclaration => cases hs
  | variableDeclaration h =>
    cases h with
    | @varDeclaration _ v name u _ hv hname _ =>
      rw [hfront [v, name] hts]
      exact .var hv hname
    | @varInitializer _ _ v name q u _ _ value hv hname hq hvalue _ =>
      obtain ⟨front, rfl, hread⟩ := hvalue.exists_front
      rw [hfront (v :: name :: q :: front) hts]
      exact .varInitializer hv hname hq hread
  | statement h =>
    cases h with
    | expressionAsStatement h =>
      cases h with
      | expressionStatement hvalue _ =>
        obtain ⟨front, rfl, hread⟩ := hvalue.exists_front
        rw [hfront front hts]
        exact .expression hread
    | @print _ _ k _ _ _ _ hk hvalue _ =>
      obtain ⟨front, rfl, hread⟩ := hvalue.exists_front
      rw [hfront (k :: front) hts]
      exact .print hk hread
    | @ret _ _ k _ _ _ _ hk hvalue _ =>
      cases hvalue with
      | absent =>
        rw [hfront [k] hts]
        exact .ret hk
      | present hvalue =>
        obtain ⟨front, rfl, hread⟩ := hvalue.exists_front
        rw [hfront (k :: front) hts]
        exact .retValue hk hread
    | forLoop =>
      unfold Stmt.forLoop at hs
      dsimp only at hs
      split at hs <;> cases hs
    | _ => cases hs

section

variable (hword : startsStatement t.kind = true)

include hword

theorem ends_of_startsStatement : Grammar.Ends 8 (t :: ts) := by
  rintro _ ⟨⟩
  cases hkind : t.kind <;> first | exact Nat.le_refl 8 | (rw [hkind] at hword; cases hword)

/-- At the word, there is no semicolon behind an expression. -/
theorem fails_behind_expression {v : Expr} (problem : SyntaxProblem) (k : Expr → Token → Parser β)
    (h : ∀ us, Reads true .expression n (ts ++ us) v m us) (ts' : List Token) :
    Fails (do let v ← expression; let u ← expect .semicolon problem; k v u) n (ts ++ t :: ts')
      ⟨t, problem⟩ m (t :: ts') :=
  .behind ((h _).succeeds_expression (ends_of_startsStatement hword))
    ((fails_expect problem rfl (kind_ne_of_startsStatement hword rfl)).bind _)

theorem succeeds_value {v : Expr} (h : ∀ us, Reads true .expression n (ts ++ us) v m us)
    (ts' : List Token) : Succeeds (expressionUnless .semicolon) n (ts ++ t :: ts') (some v) m
      (t :: ts') := by
  have hnot : startsExpression .semicolon = false := rfl
  have hfirst := ne_of_startsExpression hnot ((h (t :: ts')).starts_head Nat.one_ne_zero)
  exact (succeeds_nextIs_not rfl hfirst).bind
    ((h _).succeeds_expression (ends_of_startsStatement hword)).map

/-- A simple statement without its semicolon fails at the word behind it. -/
theorem Unclosed.fails {P : List Token} {s : Stmt} (h : Unclosed n P s m) (ts : List Token) :
    Fails simpleStatement n (P ++ t :: ts) ⟨t, s.unclosed⟩ m (t :: ts) := by
  have hne : ∀ {kind : Kind}, startsStatement kind = false → t.kind ≠ kind :=
    kind_ne_of_startsStatement hword
  cases h with
  | expression hread =>
    obtain ⟨u, us, heq, hu⟩ := (hread (t :: ts)).starts Nat.one_ne_zero
    have hfails : Fails expressionStatement n (P ++ t :: ts) ⟨t, .noSemicolonAfterExpression⟩ m
        (t :: ts) :=
      fails_behind_expression hword _ _ hread ts
    rw [heq] at hfails ⊢
    refine .behind succeeds_peek ?_
    split
    case h_5 => exact hfails
    all_goals
      rw [‹u.kind = _›] at hu
      cases hu
  | print hk hread =>
    refine .behind succeeds_peek ?_
    rw [hk]
    exact .behind succeeds_advance (fails_behind_expression hword _ _ hread ts)
  | var hk hname =>
    refine .behind succeeds_peek ?_
    rw [hk]
    refine .behind succeeds_advance (.behind (succeeds_expect hname) ?_)
    refine .behind (succeeds_take?_none rfl fun u hu => ?_) ?_
    · cases hu
      exact hne rfl
    · exact .behind (.pure none) ((fails_expect _ rfl (hne rfl)).bind _)
  | varInitializer hk hname hq hread =>
    refine .behind succeeds_peek ?_
    rw [hk]
    refine .behind succeeds_advance (.behind (succeeds_expect hname) ?_)
    refine .behind (succeeds_take? hq) ?_
    exact .behind ((hread _).succeeds_expression (ends_of_startsStatement hword)).map
      ((fails_expect _ rfl (hne rfl)).bind _)
  | ret hk =>
    refine .behind succeeds_peek ?_
    rw [hk]
    refine .behind succeeds_advance (.bind ?_ _)
    refine .behind (succeeds_nextIs_not rfl fun u hu => ?_) ((fails_expression hword).map _)
    cases hu
    exact hne rfl
  | retValue hk hread =>
    refine .behind succeeds_peek ?_
    rw [hk]
    exact .behind succeeds_advance (.behind (succeeds_value hword hread ts)
      ((fails_expect _ rfl (hne rfl)).bind _))

end

/-- A simple statement begins neither a block nor a statement with others in it. -/
theorem Unclosed.exists_cons {P : List Token} {s : Stmt} (h : Unclosed n P s m) :
    ∃ u us, P = u :: us ∧ startsNested u.kind = false := by
  cases h with
  | expression hread =>
    obtain ⟨u, us, heq, hu⟩ := (hread []).starts Nat.one_ne_zero
    rw [List.append_nil] at heq
    refine ⟨u, us, heq, ?_⟩
    cases hkind : u.kind <;> first | rfl | (rw [hkind] at hu; cases hu)
  | print hk | var hk _ | varInitializer hk _ _ _ | ret hk | retValue hk _ =>
    exact ⟨_, _, rfl, by rw [hk]; rfl⟩

/-! ## Where the parse goes on -/

/-- What is dropped behind the token of a mistake, and what is left: nothing dropped begins a
    statement, and a semicolon ends it. It ends with one if not, behind it, a statement begins or the
    input ends. -/
structure Boundary (dropped rest : List Token) : Prop where
  noWord : ∀ u ∈ dropped, startsStatement u.kind = false
  noSemicolon : ∀ u ∈ dropped.dropLast, u.kind ≠ .semicolon
  reached : (∃ u ∈ dropped.getLast?, u.kind = .semicolon) ∨
    ∃ u ∈ rest.head?, isEnd u = true ∨ startsStatement u.kind = true

theorem resumeAfter_boundary {final : Token} (hfinal : isEnd final = true) (ts : List Token) :
    ∀ {t : Token}, t.kind ≠ .semicolon →
      ∃ dropped, ts = dropped ++ resumeAfter t ts ∧
        Boundary dropped (resumeAfter t ts ++ [final]) := by
  induction ts with
  | nil =>
    intro t _
    exact ⟨[], rfl, List.forall_mem_nil _, List.forall_mem_nil _, .inr ⟨final, rfl, .inl hfinal⟩⟩
  | cons u us ih =>
    intro t ht
    have hsame : t.kind.sameAs .semicolon = false := Bool.eq_false_iff.2 fun h =>
      ht (Kind.eq_of_sameAs rfl (Kind.sameAs_comm _ _ ▸ h))
    rw [resumeAfter, hsame, Bool.false_or]
    by_cases hword : startsStatement u.kind = true
    · rw [if_pos hword]
      exact ⟨[], rfl, List.forall_mem_nil _, List.forall_mem_nil _, .inr ⟨u, rfl, .inr hword⟩⟩
    rw [if_neg hword]
    by_cases hu : u.kind = .semicolon
    · -- behind the semicolon nothing more is dropped
      have hstop : resumeAfter u us = us := by
        cases us with
        | nil => rfl
        | cons v us => simp [resumeAfter, hu]
      rw [hstop]
      refine ⟨[u], rfl, ?_, List.forall_mem_nil _, .inl ⟨u, rfl, hu⟩⟩
      exact List.forall_mem_singleton.2 (Bool.eq_false_iff.2 hword)
    · obtain ⟨dropped, hsplit, hboundary⟩ := ih hu
      refine ⟨u :: dropped, congrArg (u :: ·) hsplit, ?_, ?_, ?_⟩
      · exact List.forall_mem_cons.2 ⟨Bool.eq_false_iff.2 hword, hboundary.noWord⟩
      · cases dropped with
        | nil => exact List.forall_mem_nil _
        | cons v dropped => exact List.forall_mem_cons.2 ⟨hu, hboundary.noSemicolon⟩
      · refine hboundary.reached.imp_left ?_
        rintro ⟨v, hv, hkind⟩
        refine ⟨v, ?_, hkind⟩
        cases dropped with
        | nil => cases hv
        | cons w dropped => exact hv

/-! ## Flat statements that are read -/

section

variable {nearest : Bool} {symbol : Symbol} {n' : RefId} {us us' : List Token}

/-- The symbols of expressions and their parts. -/
def isExpression : Symbol → Bool
  | .primary | .call | .arguments | .unary | .operand _ | .operation _ | .expression => true
  | _ => false

theorem isInner_of_constant {kind : Kind} {v : Literal} (h : constant? kind = some v) :
    isInner kind = true := by
  cases kind <;> first | rfl | cases h

theorem isInner_of_mem_operators {level : Precedence} {kind : Kind} (h : kind ∈ level.operators) :
    isInner kind = true := by
  cases level <;> simp only [Precedence.operators, List.mem_cons, List.not_mem_nil, or_false] at h <;>
    rcases h with rfl | rfl | rfl | rfl <;> rfl

theorem isInner_of_mem : ∀ kind ∈ [Kind.leftParen, .rightParen, .comma, .dot, .identifier, .thisKw,
    .superKw, .bang, .minus, .equal], isInner kind = true := by
  decide

/-- An expression is read from tokens that may stand within flat statements. -/
theorem isInner_of_reads {tree : symbol.Tree} (h : Reads nearest symbol n us tree n' us')
    (hsymbol : isExpression symbol = true) : ∀ u ∈ us, u ∈ us' ∨ isInner u.kind = true := by
  have hinner := isInner_of_mem
  simp only [List.forall_mem_cons] at hinner
  induction h with
  | _ => grind [isExpression, isInner_of_constant, isInner_of_mem_operators]

theorem exists_inner_of_reads {v : Expr} (h : Reads nearest .expression n us v n' us') :
    ∃ front, us = front ++ us' ∧ ∀ u ∈ front, isInner u.kind = true := by
  obtain ⟨front, rfl, hread⟩ := h.exists_front
  refine ⟨front, rfl, fun u hu => ?_⟩
  have hmem := isInner_of_reads (hread []) rfl u (List.mem_append_left [] hu)
  exact hmem.resolve_left List.not_mem_nil

theorem flat_of_inner {k last : Token} {body : List Token} (hk : startsFlat k.kind = true)
    (hbody : ∀ u ∈ body, isInner u.kind = true) (hlast : last.kind = .semicolon) :
    Flat (k :: (body ++ [last])) := by
  have hdrop : (k :: (body ++ [last])).dropLast = k :: body := by
    rw [← List.cons_append, List.dropLast_concat]
  refine ⟨?_, ?_, ?_⟩
  · rw [hdrop]
    rintro _ ⟨⟩
    rw [hk, Bool.or_true]
  · rw [hdrop]
    exact hbody
  · rw [← List.cons_append, List.getLast?_concat, Option.any_some, hlast]
    rfl

theorem startsFlat_of_startsExpression {kind : Kind} (h : startsExpression kind = true) :
    startsFlat kind = false := by
  cases kind <;> first | rfl | cases h

/-- A statement that is read and begins with the word of a flat one is flat. -/
theorem exists_flat_of_reads {s : Stmt} (h : Reads nearest .declaration n (t :: us) s n' us')
    (ht : startsFlat t.kind = true) : ∃ flat, t :: us = flat ++ us' ∧ Flat flat := by
  have hother : ∀ {kind : Kind}, t.kind = kind → startsFlat kind = false →
      ∃ flat, t :: us = flat ++ us' ∧ Flat flat := by
    intro kind hkind hnot
    rw [hkind, hnot] at ht
    cases ht
  generalize hts : t :: us = ts at h hother ⊢
  cases h with
  | classDeclaration hk | derivedClass hk | functionDeclaration hk =>
    cases hts
    exact hother hk rfl
  | variableDeclaration h =>
    cases h with
    | varDeclaration hv hname hsemicolon =>
      cases hts
      refine ⟨_ :: ([_] ++ [_]), rfl, flat_of_inner ht ?_ hsemicolon⟩
      exact List.forall_mem_singleton.2 (by rw [hname]; rfl)
    | @varInitializer _ _ _ name q last _ _ _ hv hname hq hvalue hsemicolon =>
      cases hts
      obtain ⟨front, rfl, hfront⟩ := exists_inner_of_reads hvalue
      refine ⟨t :: (name :: q :: front ++ [last]), by simp, flat_of_inner ht ?_ hsemicolon⟩
      exact List.forall_mem_cons.2 ⟨by rw [hname]; rfl,
        List.forall_mem_cons.2 ⟨by rw [hq]; rfl, hfront⟩⟩
  | statement h =>
    cases h with
    | expressionAsStatement h =>
      obtain ⟨u, rest, hu, hstart⟩ := h.starts Nat.one_ne_zero
      cases hts.trans hu
      exact hother rfl (startsFlat_of_startsExpression hstart)
    | print hk hvalue hsemicolon =>
      cases hts
      obtain ⟨front, rfl, hfront⟩ := exists_inner_of_reads hvalue
      exact ⟨_ :: (front ++ [_]), by simp, flat_of_inner ht hfront hsemicolon⟩
    | ret hk hvalue hsemicolon =>
      cases hts
      cases hvalue with
      | absent => exact ⟨_ :: ([] ++ [_]), rfl, flat_of_inner ht nofun hsemicolon⟩
      | present hvalue =>
        obtain ⟨front, rfl, hfront⟩ := exists_inner_of_reads hvalue
        exact ⟨_ :: (front ++ [_]), by simp, flat_of_inner ht hfront hsemicolon⟩
    | brk hk hsemicolon =>
      cases hts
      exact ⟨_ :: ([] ++ [_]), rfl, flat_of_inner ht nofun hsemicolon⟩
    | block hk | loop hk | ifOnly hk | ifElse hk | forLoop hk =>
      cases hts
      exact hother hk rfl

end

/-! ## Whole programs -/

theorem kind_of_isEnd (h : isEnd t = true) : t.kind = .endOfInput :=
  Kind.eq_of_sameAs rfl (Kind.sameAs_comm _ _ ▸ h)

theorem kind_ne_of_isEnd (h : isEnd t = false) : t.kind ≠ .endOfInput := by
  intro hkind
  rw [isEnd, hkind] at h
  cases h

section

variable {P T : List Token} {last : Token} {s : Stmt}

/-- The tokens of a program that is one simple statement, but for the last of them. -/
theorem unclosed_of_program (hP : ∀ u ∈ P, isEnd u = false) (hlast : last.kind = .semicolon)
    (h : program (P ++ [last]) n = ⟨[s], [], m, false⟩) (hs : s.isSimple = true) :
    Unclosed n P s m := by
  have hopen : ∀ u ∈ P ++ [last], isEnd u = false :=
    List.forall_mem_append.2 ⟨hP, List.forall_mem_singleton.2 (by rw [isEnd, hlast]; rfl)⟩
  obtain ⟨final, hstart⟩ := exists_start hopen n
  have hreads := (program_follows (P ++ [last]) n).fact (by rw [h])
  rw [h, hstart] at hreads
  cases hreads with
  | nextDeclaration hdeclaration hnone =>
    cases hnone
    exact unclosed_of_reads hdeclaration hs

/-- Behind a statement whose semicolon is missing, the word of the next one is dropped, and with it
    what belongs to the mistake. -/
theorem Unclosed.program_append (h : Unclosed n P s m) (hP : ∀ u ∈ P, isEnd u = false)
    {front : List Token} {final : Token} (hfront : ∀ u ∈ t :: front, isEnd u = false)
    (hfinal : isEnd final = true) (hword : startsStatement t.kind = true) :
    program (P ++ (t :: front ++ [final])) n =
      (⟨[], [.parse t s.unclosed], m, false⟩ : Outcome (List Stmt)).followedBy
        (program (resume (t :: front) ++ [final]) m) := by
  have hstart : State.start (P ++ (t :: front ++ [final])) n =
      ⟨P ++ t :: front, some final, n, #[]⟩ := by
    rw [← List.append_assoc]
    exact start_concat (List.forall_mem_append.2 ⟨hP, hfront⟩) hfinal
  obtain ⟨u, us, rfl, hsimple⟩ := h.exists_cons
  have hend := hasEnd_start (u :: us ++ (t :: front ++ [final])) n
  rw [hstart] at hend
  have hfails := h.fails hword front ⟨u :: us ++ t :: front, some final, n, #[]⟩ hend
  have hd : declaration (.start (u :: us ++ (t :: front ++ [final])) n) =
      .ok none ⟨resume (t :: front), some final, m, #[⟨t, s.unclosed⟩]⟩ := by
    rw [hstart, declaration_eq rfl hsimple]
    exact recovering_of_mistake hfails hend
  have hresume : ∀ u ∈ resume (t :: front), isEnd u = false := fun u hu =>
    hfront u (List.mem_cons_of_mem _ ((resumeAfter_suffix t front).subset hu))
  refine program_of_declaration ?_ hd hresume hfinal
  rw [hstart]
  exact List.cons_ne_nil _ _

/-- A program that begins with a flat statement, read from the second one on. -/
theorem program_behind_flat {front : List Token} {final : Token} {n' : RefId}
    (hfront : ∀ u ∈ t :: front, isEnd u = false) (hfinal : isEnd final = true)
    (ht : startsFlat t.kind = true) (h : (program (t :: front ++ [final]) n').errors = []) :
    ∃ i k, program (resume (t :: front) ++ [final]) i =
      ⟨(program (t :: front ++ [final]) n').tree.tail, [], k, false⟩ := by
  have hreads := reads_of_program (fun u hu => kind_ne_of_isEnd (hfront u hu))
    (kind_of_isEnd hfinal) h
  generalize (program (t :: front ++ [final]) n').tree = tree at hreads ⊢
  generalize (program (t :: front ++ [final]) n').nextId = k at hreads
  cases hreads with
  | @nextDeclaration _ i _ _ behind _ _ _ hdeclaration hrest =>
    obtain ⟨flat, hsplit, hflat⟩ := exists_flat_of_reads hdeclaration ht
    have hsemicolon : UpToSemicolon flat := by
      obtain ⟨_, _, rfl, hsemicolon, -⟩ := hflat.exists_cons
      exact hsemicolon
    have hresume : resume (t :: front) = behind := by
      rw [hsplit]
      exact hflat.resume_append (List.suffix_refl flat) hsemicolon behind
    rw [hresume]
    refine ⟨i, _, program_of_reads (fun u hu => kind_ne_of_isEnd (hfront u ?_))
      (kind_of_isEnd hfinal) hrest⟩
    rw [hsplit]
    exact List.mem_append_right _ hu

/-- **A missing semicolon costs two statements.** Where the semicolon of a simple statement is missing
    and a word stands behind it that begins another statement, the mistake is reported at this word.
    The word is dropped, and so are the tokens behind it up to the next boundary, where the parse goes
    on as if a program began there. If the statement behind is flat and the program that it begins has
    no mistake of its own, nothing else is reported, and the statements are those of that program but
    the first, up to renumbering. -/
theorem missing_semicolon_costs_both (hP : ∀ u ∈ P, isEnd u = false)
    (hlast : last.kind = .semicolon) (h : program (P ++ [last]) n = ⟨[s], [], m, false⟩)
    (hs : s.isSimple = true) (hT : EndsOnce (t :: T)) (hword : startsStatement t.kind = true) :
    (∃ dropped rest, T = dropped ++ rest ∧ Boundary dropped rest ∧
      program (P ++ t :: T) n =
        (⟨[], [.parse t s.unclosed], m, false⟩ : Outcome (List Stmt)).followedBy
          (program rest m)) ∧
    (startsFlat t.kind = true → ∀ n', (program (t :: T) n').errors = [] →
      (program (P ++ t :: T) n).errors = [.parse t s.unclosed] ∧
      ∃ i, List.Forall₂ (Stmt.Alike 0 (fun _ => True) fun id id' => ∃ j, id = i + j ∧ id' = m + j)
        (program (t :: T) n').tree.tail (program (P ++ t :: T) n).tree) := by
  have hunclosed := unclosed_of_program hP hlast h hs
  obtain ⟨front, final, heq, hfront, hfinal⟩ := hT.exists_concat
  obtain ⟨front, rfl⟩ : ∃ front', front = t :: front' := by
    cases front with
    | nil =>
      obtain ⟨rfl, -⟩ := List.cons.inj heq
      rw [kind_of_isEnd hfinal] at hword
      cases hword
    | cons u us =>
      obtain ⟨rfl, -⟩ := List.cons.inj heq
      exact ⟨us, rfl⟩
  obtain rfl : T = front ++ [final] := (List.cons.inj heq).2
  have hprogram := hunclosed.program_append hP hfront hfinal hword
  constructor
  · have ht : t.kind ≠ .semicolon := kind_ne_of_startsStatement hword rfl
    obtain ⟨dropped, hsplit, hboundary⟩ := resumeAfter_boundary hfinal front ht
    refine ⟨dropped, resume (t :: front) ++ [final], ?_, hboundary, hprogram⟩
    rw [← List.append_assoc]
    exact congrArg (· ++ [final]) hsplit
  · intro ht n' hnone
    obtain ⟨i, k, hbehind⟩ := program_behind_flat hfront hfinal ht hnone
    obtain ⟨htree, herrors, -⟩ := program_renumbered (resume (t :: front) ++ [final]) i m
    rw [hbehind] at htree herrors
    rw [List.cons_append] at hprogram htree
    rw [hprogram]
    refine ⟨?_, i, htree⟩
    rw [Outcome.followedBy, herrors]
    rfl

end

/-- `a`, without a semicolon. -/
def bareName : List Token := [⟨.identifier, "a", 1⟩]

/-- `print b;` and the end of input. -/
def printBehind : List Token :=
  [⟨.printKw, "print", 1⟩, ⟨.identifier, "b", 1⟩, ⟨.semicolon, ";", 1⟩, ⟨.endOfInput, "", 1⟩]

theorem missing_semicolon_costs_both_print :
    EndsOnce printBehind ∧ (program printBehind 0).errors = [] ∧
      (program (bareName ++ printBehind) 0).errors =
        [.parse ⟨.printKw, "print", 1⟩ .noSemicolonAfterExpression] ∧
      (program (bareName ++ printBehind) 0).tree.length = 0 := by
  have hT : EndsOnce printBehind := by decide +kernel
  have halone : program (bareName ++ [⟨.semicolon, ";", 1⟩]) 0 =
      ⟨[.expression (.var 0 ⟨.identifier, "a", 1⟩)], [], 1, false⟩ := rfl
  have hnone : (program printBehind 0).errors = [] := by decide +kernel
  have hone : (program printBehind 0).tree.length = 1 := by decide +kernel
  have h := (missing_semicolon_costs_both (by decide) rfl halone rfl hT rfl).2 rfl 0 hnone
  obtain ⟨herrors, i, htree⟩ := h
  have hlength := htree.length_eq
  rw [List.length_tail] at hlength
  refine ⟨hT, hnone, herrors, hlength.symm.trans ?_⟩
  show (program printBehind 0).tree.length - 1 = 0
  rw [hone]

/-- The statement behind is not read, though it is correct. -/
theorem print_lost_behind_bareName :
    program (bareName ++ [⟨.semicolon, ";", 1⟩]) 0 =
        ⟨[.expression (.var 0 ⟨.identifier, "a", 1⟩)], [], 1, false⟩ ∧
      (program printBehind 0).errors = [] ∧ (program printBehind 0).tree.length = 1 ∧
      (program (bareName ++ printBehind) 0).tree.length = 0 :=
  ⟨rfl, by decide +kernel, by decide +kernel, by decide +kernel⟩

end Parse

end Lox
