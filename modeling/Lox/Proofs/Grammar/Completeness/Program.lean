import Lox.Proofs.Grammar.Completeness.Expression

set_option autoImplicit false

/-! # What is in the grammar the parser reads: programs

A statement that could take an `else` is read up to its end only if no `else` follows it; nothing
else that can follow a statement or a declaration leads the parser astray. -/

namespace Lox.Grammar

open Parse

variable {nearest : Bool} {n n₁ n₂ n' : RefId} {ts ts₁ ts₂ ts' : List Token}

/-! ## Simple statements -/

theorem ne_of_startsExpression {kind : Kind} (hkind : startsExpression kind = false)
    {ts : List Token} (h : ∀ t ∈ ts.head?, startsExpression t.kind = true) :
    ∀ t ∈ ts.head?, t.kind ≠ kind := by
  intro t ht hk
  have := h t ht
  rw [hk, hkind] at this
  exact nomatch this

theorem Reads.succeeds_optional {e : Option Expr} {r : Token} {kind : Kind}
    (h : Reads nearest .optional n ts e n' (r :: ts')) (hr : r.kind = kind)
    (hplain : kind.isPlain = true) (hstart : startsExpression kind = false)
    (hends : looseness kind = 8) : Succeeds (expressionUnless kind) n ts e n' (r :: ts') := by
  cases h with
  | absent => exact (succeeds_nextIs hr).bind (.pure _)
  | present h =>
    refine (succeeds_nextIs_not hplain ?_).bind
      (h.succeeds_expression (ends_of_kind hr (Nat.le_of_eq hends.symm))).map
    exact ne_of_startsExpression hstart (h.starts_head Nat.one_ne_zero)

theorem Reads.succeeds_varDeclaration {d : Stmt} (h : Reads nearest .varDeclaration n ts d n' ts') :
    ∃ v rest, ts = v :: rest ∧ v.kind = .varKw ∧ Succeeds Parse.varDeclaration n rest d n' ts' := by
  cases h with
  | varDeclaration hv ht hs =>
    refine ⟨_, _, rfl, hv, (succeeds_expect ht).bind ?_⟩
    refine (succeeds_take?_none rfl (by rintro _ ⟨⟩; simp [hs])).bind ?_
    exact (Succeeds.pure _).bind ((succeeds_expect hs).bind (.pure _))
  | varInitializer hv ht hq he hs =>
    refine ⟨_, _, rfl, hv, (succeeds_expect ht).bind ((succeeds_take? hq).bind ?_)⟩
    have he := he.succeeds_expression (ends_of_kind hs (by decide))
    exact he.map.bind ((succeeds_expect hs).bind (.pure _))

theorem Reads.succeeds_expressionStatement {d : Stmt}
    (h : Reads nearest .expressionStatement n ts d n' ts') :
    Succeeds Parse.expressionStatement n ts d n' ts' := by
  cases h with
  | expressionStatement he hs =>
    have he := he.succeeds_expression (ends_of_kind hs (by decide))
    exact he.bind ((succeeds_expect hs).bind (.pure _))

theorem Reads.succeeds_forInitializer {i : Option Stmt}
    (h : Reads nearest .forInitializer n ts i n' ts') : Succeeds forInitializer n ts i n' ts' := by
  cases h with
  | noInitializer hs =>
    refine succeeds_peek.bind ?_
    rw [hs]
    exact succeeds_advance.bind (.pure _)
  | varForInitializer h =>
    obtain ⟨v, rest, rfl, hv, h⟩ := h.succeeds_varDeclaration
    refine succeeds_peek.bind ?_
    rw [hv]
    exact succeeds_advance.bind h.map
  | expressionForInitializer h =>
    obtain ⟨t, rest, rfl, ht⟩ := h.starts Nat.one_ne_zero
    refine succeeds_peek.bind ?_
    split
    case h_1 hk => rw [hk] at ht; exact nomatch ht
    case h_2 hk => rw [hk] at ht; exact nomatch ht
    case h_3 => exact h.succeeds_expressionStatement.map

/-! ## Loops -/

/-- One item up to a brace. -/
def braceStep {α : Type} (item : Array α → Parser (Array α)) (items : Array α) :
    Parser (Option (Array α)) := do
  if (← nextIs .rightBrace) || (← atEnd) then return none
  return some (← item items)

/-- One declaration of a program. -/
def programStep (program : Array Stmt) : Parser (Option (Array Stmt)) := do
  if ← atEnd then return none
  return some (program ++ (← declaration).toList)

theorem succeeds_braceStep {α : Type} {item : Array α → Parser (Array α)} {items items' : Array α}
    (hstart : ∃ t rest, ts = t :: rest ∧ t.kind ≠ .rightBrace)
    (h : Succeeds (item items) n ts items' n' ts') :
    Succeeds (braceStep item items) n ts (some items') n' ts' := by
  obtain ⟨t, rest, rfl, ht⟩ := hstart
  refine (succeeds_nextIs_not rfl (by rintro _ ⟨⟩; exact ht)).bind (succeeds_atEnd.bind ?_)
  exact h.bind (.pure _)

theorem succeeds_braceStep_none {α : Type} {item : Array α → Parser (Array α)} {items : Array α}
    {r : Token} (hr : r.kind = .rightBrace) :
    Succeeds (braceStep item items) n (r :: ts) none n (r :: ts) :=
  (succeeds_nextIs hr).bind (succeeds_atEnd.bind (.pure _))

theorem succeeds_upToBrace {α : Type} {item : Array α → Parser (Array α)} {items : List α}
    {r : Token} (hr : r.kind = .rightBrace)
    (h : LoopsTo (repeatOver (braceStep item) ts #[]) (braceStep item) n ts items.toArray n'
      (r :: ts')) : Succeeds (upToBrace item) n ts items n' (r :: ts') :=
  Succeeds.bind (h.stop (succeeds_braceStep_none hr)) (.pure _)

/-! ## Statements and declarations -/

/-- No `else` comes next. -/
def NoElse (ts : List Token) : Prop := ∀ t ∈ ts.head?, t.kind ≠ .elseKw

theorem noElse_of_kind {t : Token} {kind : Kind} (ht : t.kind = kind) (hk : kind ≠ .elseKw) :
    NoElse (t :: ts) := by
  rintro _ ⟨⟩
  rwa [ht]

/-- A step of a loop that reads the declarations of a list that are read from no more than some
    number of tokens. -/
def ReadsDeclarations (step : Array Stmt → Parser (Option (Array Stmt))) (most : Nat) : Prop :=
  ∀ (ss : Array Stmt) (n n' : RefId) (ts ts' : List Token) (d : Stmt), ts.length ≤ most →
    (∃ t rest, ts = t :: rest ∧ t.kind ≠ .rightBrace) →
    (∀ bound : List Token, ts.length ≤ bound.length →
      Succeeds (declarationWithin bound) n ts (some d) n' ts') →
    Succeeds (step ss) n ts (some (ss ++ #[d])) n' ts'

/-- What the parser does with the parts of a program, nested as deep as a list of tokens is long. -/
def CompletesPart : (symbol : Symbol) → RefId → List Token → symbol.Tree → RefId → List Token → Prop
  | .statement takesElse, n, ts, d, n', ts' => ∀ bound : List Token, ts.length ≤ bound.length →
    (takesElse = true → NoElse ts') → Succeeds (statementWithin bound) n ts d n' ts'
  | .parameters, n, ts, ps, n', ts' => ps.length ≤ 255 →
    LoopsTo (commaItems .tooManyParameters (expect .identifier .noParameterName))
      (commaStep .tooManyParameters (expect .identifier .noParameterName)) n ts ps.toArray n' ts'
  | .function, n, ts, f, n', ts' => ∀ (bound : List Token) (sort : FunctionSort),
    ts.length ≤ bound.length + 1 →
    Succeeds (function sort (declarationWithin bound)) n ts f n' ts'
  | .functions, n, ts, fs, n', ts' => ∀ (bound steps : List Token) (acc : Array FunctionDef),
    ts.length ≤ bound.length + 1 → ts.length ≤ steps.length →
    let step := braceStep fun fs => return fs.push (← function .method (declarationWithin bound))
    LoopsTo (repeatOver step steps acc) step n ts (acc ++ fs.toArray) n' ts'
  | .declaration, n, ts, d, n', ts' => ∀ bound : List Token, ts.length ≤ bound.length →
    NoElse ts' → Succeeds (declarationWithin bound) n ts (some d) n' ts'
  | .declarations, n, ts, ds, n', ts' => ∀ step, ReadsDeclarations step ts.length → NoElse ts' →
    ∀ (steps : List Token) (acc : Array Stmt), ts.length ≤ steps.length →
    LoopsTo (repeatOver step steps acc) step n ts (acc ++ ds.toArray) n' ts'
  | _, _, _, _, _, _ => True

theorem readsDeclarations_braceStep {bound : List Token} {most : Nat} (h : most ≤ bound.length) :
    ReadsDeclarations
      (braceStep fun body => return body ++ (← declarationWithin bound).toList) most := by
  intro ss n n' ts ts' d hmost hstart hd
  refine succeeds_braceStep hstart (Succeeds.bind (hd bound (Nat.le_trans hmost h)) ?_)
  intro s hs
  simp [Pure.pure, EStateM.pure]

theorem readsDeclarations_programStep (most : Nat) : ReadsDeclarations programStep most := by
  intro ss n n' ts ts' d _ hstart hd
  obtain ⟨t, rest, rfl, -⟩ := hstart
  have hd : Succeeds declaration n (t :: rest) (some d) n' ts' := hd (t :: rest) (Nat.le_refl _)
  refine succeeds_atEnd.bind (hd.bind ?_)
  intro s hs
  simp [Pure.pure, EStateM.pure]

/-- The declarations of a block and its closing brace. -/
theorem succeeds_block {bound : List Token} {body : List Stmt} {r : Token}
    (h : CompletesPart .declarations n ts body n' (r :: ts')) (hr : r.kind = .rightBrace)
    (hbound : ts.length ≤ bound.length) :
    Succeeds (block (declarationWithin bound)) n ts body n' ts' := by
  have hloop := h _ (readsDeclarations_braceStep hbound) (noElse_of_kind hr nofun) ts #[]
    (Nat.le_refl _)
  rw [Array.empty_append] at hloop
  exact (succeeds_upToBrace hr hloop).bind ((succeeds_expect hr).bind (.pure _))

theorem exists_cons_of_length {t : Token} {bound : List Token}
    (h : (t :: ts).length ≤ bound.length) :
    ∃ u rest, bound = u :: rest ∧ ts.length ≤ rest.length := by
  cases bound with
  | nil => exact absurd h (by simp)
  | cons u rest => exact ⟨u, rest, rfl, Nat.le_of_succ_le_succ h⟩

theorem part_expressionAsStatement {d : Stmt} (h : Reads nearest .expressionStatement n ts d n' ts') :
    CompletesPart (.statement false) n ts d n' ts' := by
  intro bound hbound _
  obtain ⟨t, rest, rfl, ht⟩ := h.starts Nat.one_ne_zero
  obtain ⟨u, bound, rfl, -⟩ := exists_cons_of_length hbound
  rw [statementWithin]
  refine succeeds_peek.bind ?_
  split
  case h_8 => exact h.succeeds_expressionStatement
  all_goals rename_i hk; rw [hk] at ht; exact nomatch ht

theorem part_print {p s : Token} {e : Expr} (hp : p.kind = .printKw)
    (he : Reads nearest .expression n ts e n' (s :: ts')) (hs : s.kind = .semicolon) :
    CompletesPart (.statement false) n (p :: ts) (.print e) n' ts' := by
  intro bound hbound _
  obtain ⟨u, bound, rfl, -⟩ := exists_cons_of_length hbound
  rw [statementWithin]
  refine succeeds_peek.bind ?_
  rw [hp]
  have he := he.succeeds_expression (ends_of_kind hs (by decide))
  exact succeeds_advance.bind (he.bind ((succeeds_expect hs).bind (.pure _)))

theorem part_ret {k s : Token} {e : Option Expr} (hk : k.kind = .returnKw)
    (he : Reads nearest .optional n ts e n' (s :: ts')) (hs : s.kind = .semicolon) :
    CompletesPart (.statement false) n (k :: ts) (.ret k e) n' ts' := by
  intro bound hbound _
  obtain ⟨u, bound, rfl, -⟩ := exists_cons_of_length hbound
  rw [statementWithin]
  refine succeeds_peek.bind ?_
  rw [hk]
  have he := he.succeeds_optional hs rfl rfl rfl
  exact succeeds_advance.bind (he.bind ((succeeds_expect hs).bind (.pure _)))

theorem part_brk {k s : Token} (hk : k.kind = .breakKw) (hs : s.kind = .semicolon) :
    CompletesPart (.statement false) n (k :: s :: ts) (.brk k) n ts := by
  intro bound hbound _
  obtain ⟨u, bound, rfl, -⟩ := exists_cons_of_length hbound
  rw [statementWithin]
  refine succeeds_peek.bind ?_
  rw [hk]
  exact succeeds_advance.bind ((succeeds_expect hs).bind (.pure _))

theorem part_block {l r : Token} {body : List Stmt} (hl : l.kind = .leftBrace)
    (h : CompletesPart .declarations n ts body n' (r :: ts')) (hr : r.kind = .rightBrace) :
    CompletesPart (.statement false) n (l :: ts) (.block body) n' ts' := by
  intro bound hbound _
  obtain ⟨u, bound, rfl, hrest⟩ := exists_cons_of_length hbound
  rw [statementWithin]
  refine succeeds_peek.bind ?_
  rw [hl]
  exact succeeds_advance.bind (succeeds_block h hr hrest).map

theorem part_loop {w l r : Token} {c : Expr} {d : Stmt} {takesElse : Bool} (hw : w.kind = .whileKw)
    (hl : l.kind = .leftParen) (hc : Reads nearest .expression n ts c n₁ (r :: ts₁))
    (hr : r.kind = .rightParen) (h : CompletesPart (.statement takesElse) n₁ ts₁ d n' ts') :
    CompletesPart (.statement takesElse) n (w :: l :: ts) (.loop c d) n' ts' := by
  intro bound hbound helse
  obtain ⟨u, bound, rfl, hrest⟩ := exists_cons_of_length hbound
  have hlength := hc.length_le
  simp only [Symbol.least, List.length_cons] at hlength hrest
  rw [statementWithin]
  refine succeeds_peek.bind ?_
  rw [hw]
  refine succeeds_advance.bind ((succeeds_expect hl).bind ?_)
  refine (hc.succeeds_expression (ends_of_kind hr (by decide))).bind ((succeeds_expect hr).bind ?_)
  exact (h bound (by omega) helse).bind (.pure _)

theorem part_ifOnly {i l r : Token} {c : Expr} {d : Stmt} {takesElse : Bool} (hi : i.kind = .ifKw)
    (hl : l.kind = .leftParen) (hc : Reads nearest .expression n ts c n₁ (r :: ts₁))
    (hr : r.kind = .rightParen) (h : CompletesPart (.statement takesElse) n₁ ts₁ d n' ts') :
    CompletesPart (.statement true) n (i :: l :: ts) (.ifElse c d none) n' ts' := by
  intro bound hbound helse
  obtain ⟨u, bound, rfl, hrest⟩ := exists_cons_of_length hbound
  have hlength := hc.length_le
  simp only [Symbol.least, List.length_cons] at hlength hrest
  rw [statementWithin]
  refine succeeds_peek.bind ?_
  rw [hi]
  refine succeeds_advance.bind ((succeeds_expect hl).bind ?_)
  refine (hc.succeeds_expression (ends_of_kind hr (by decide))).bind ((succeeds_expect hr).bind ?_)
  refine (h bound (by omega) fun _ => helse rfl).bind ?_
  exact (succeeds_take?_none rfl (helse rfl)).bind ((Succeeds.pure none).bind (.pure _))

theorem part_ifElse {i l r k : Token} {c : Expr} {d₁ d₂ : Stmt} {takesElse : Bool}
    (hi : i.kind = .ifKw) (hl : l.kind = .leftParen)
    (hc : Reads nearest .expression n ts c n₁ (r :: ts₁)) (hr : r.kind = .rightParen)
    (h₁ : CompletesPart (.statement false) n₁ ts₁ d₁ n₂ (k :: ts₂)) (hk : k.kind = .elseKw)
    (h₂ : CompletesPart (.statement takesElse) n₂ ts₂ d₂ n' ts')
    (hlength₁ : ts₂.length + 1 ≤ ts₁.length) :
    CompletesPart (.statement takesElse) n (i :: l :: ts) (.ifElse c d₁ (some d₂)) n' ts' := by
  intro bound hbound helse
  obtain ⟨u, bound, rfl, hrest⟩ := exists_cons_of_length hbound
  have hlength := hc.length_le
  simp only [Symbol.least, List.length_cons] at hlength hrest
  rw [statementWithin]
  refine succeeds_peek.bind ?_
  rw [hi]
  refine succeeds_advance.bind ((succeeds_expect hl).bind ?_)
  refine (hc.succeeds_expression (ends_of_kind hr (by decide))).bind ((succeeds_expect hr).bind ?_)
  refine (h₁ bound (by omega) (absurd · Bool.false_ne_true)).bind ((succeeds_take? hk).bind ?_)
  exact (h₂ bound (by omega) helse).map.bind (.pure _)

theorem part_forLoop {f l s r : Token} {n₃ : RefId} {ts₃ : List Token} {i : Option Stmt}
    {c e : Option Expr} {b : Stmt} {takesElse : Bool} (hf : f.kind = .forKw)
    (hl : l.kind = .leftParen) (hi : Reads nearest .forInitializer n ts i n₁ ts₁)
    (hc : Reads nearest .optional n₁ ts₁ c n₂ (s :: ts₂)) (hs : s.kind = .semicolon)
    (he : Reads nearest .optional n₂ ts₂ e n₃ (r :: ts₃)) (hr : r.kind = .rightParen)
    (h : CompletesPart (.statement takesElse) n₃ ts₃ b n' ts') :
    CompletesPart (.statement takesElse) n (f :: l :: ts) (.forLoop i c e b) n' ts' := by
  intro bound hbound helse
  obtain ⟨u, bound, rfl, hrest⟩ := exists_cons_of_length hbound
  have hlength := hi.length_le
  have hlength₁ := hc.length_le
  have hlength₂ := he.length_le
  simp only [Symbol.least, List.length_cons] at hlength hlength₁ hlength₂ hrest
  rw [statementWithin]
  refine succeeds_peek.bind ?_
  rw [hf]
  refine succeeds_advance.bind ((succeeds_expect hl).bind (hi.succeeds_forInitializer.bind ?_))
  refine (hc.succeeds_optional hs rfl rfl rfl).bind ((succeeds_expect hs).bind ?_)
  refine (he.succeeds_optional hr rfl rfl rfl).bind ((succeeds_expect hr).bind ?_)
  exact (h bound (by omega) helse).bind (.pure _)

/-! ## Functions and classes -/

theorem part_firstParameter {t : Token} (ht : t.kind = .identifier) :
    CompletesPart .parameters n (t :: ts) [t] n ts :=
  fun _ => (succeeds_expect ht).loop (f := fun t => #[t])

theorem part_nextParameter {c t : Token} {ps : List Token}
    (h : CompletesPart .parameters n ts ps n (c :: t :: ts')) (hc : c.kind = .comma)
    (ht : t.kind = .identifier) : CompletesPart .parameters n ts (ps ++ [t]) n ts' := by
  intro hsize
  rw [List.length_append, List.length_singleton] at hsize
  rw [← List.push_toArray]
  refine (h (by omega)).again ((succeeds_take? hc).bind ?_) (Nat.le_succ _)
  have hfew : ¬ maxArity ≤ ps.toArray.size := by simp only [maxArity, List.size_toArray]; omega
  simp only [hfew, if_false]
  exact (succeeds_expect ht).bind (.pure _)

theorem part_functionNone {t l r b q : Token} {body : List Stmt} (ht : t.kind = .identifier)
    (hl : l.kind = .leftParen) (hr : r.kind = .rightParen) (hb : b.kind = .leftBrace)
    (h : CompletesPart .declarations n ts body n' (q :: ts')) (hq : q.kind = .rightBrace) :
    CompletesPart .function n (t :: l :: r :: b :: ts) ⟨t, [], body⟩ n' ts' := by
  intro bound sort hbound
  simp only [List.length_cons] at hbound
  refine (succeeds_expect ht).bind ((succeeds_expect hl).bind ((succeeds_nextIs hr).bind ?_))
  refine (Succeeds.pure []).bind ((succeeds_expect hr).bind ((succeeds_expect hb).bind ?_))
  exact (succeeds_block h hq (by omega)).bind (.pure _)

theorem part_function {t l r b q : Token} {ps : List Token} {body : List Stmt}
    (ht : t.kind = .identifier) (hl : l.kind = .leftParen)
    (hstart : ∀ t ∈ ts.head?, t.kind ≠ .rightParen)
    (hps : CompletesPart .parameters n ts ps n (r :: b :: ts₁)) (hsize : ps.length ≤ 255)
    (hr : r.kind = .rightParen) (hb : b.kind = .leftBrace)
    (h : CompletesPart .declarations n ts₁ body n' (q :: ts')) (hq : q.kind = .rightBrace)
    (hlength : ts₁.length ≤ ts.length) :
    CompletesPart .function n (t :: l :: ts) ⟨t, ps, body⟩ n' ts' := by
  intro bound sort hbound
  simp only [List.length_cons] at hbound
  have hstop : Succeeds (commaStep .tooManyParameters (expect .identifier .noParameterName)
      ps.toArray) n (r :: b :: ts₁) none n (r :: b :: ts₁) :=
    (succeeds_take?_none rfl (by rintro _ ⟨⟩; simp [hr])).bind (.pure _)
  have hlist : Succeeds (commaList .tooManyParameters (expect .identifier .noParameterName)) n ts ps
      n (r :: b :: ts₁) := by
    rw [commaList_eq]
    exact ((hps hsize).stop hstop).bind (.pure _)
  refine (succeeds_expect ht).bind ((succeeds_expect hl).bind ?_)
  refine (succeeds_nextIs_not rfl hstart).bind (hlist.bind ?_)
  refine (succeeds_expect hr).bind ((succeeds_expect hb).bind ?_)
  exact (succeeds_block h hq (by omega)).bind (.pure _)

theorem part_noFunctions : CompletesPart .functions n ts [] n ts :=
  fun _ _ _ _ hsteps => LoopsTo.start hsteps

theorem part_nextFunction {f : FunctionDef} {fs : List FunctionDef}
    (hstart : ∃ t rest, ts = t :: rest ∧ t.kind ≠ .rightBrace)
    (hf : CompletesPart .function n ts f n₁ ts₁) (hfs : CompletesPart .functions n₁ ts₁ fs n' ts')
    (hlength : ts₁.length + 1 ≤ ts.length) :
    CompletesPart .functions n ts (f :: fs) n' ts' := by
  intro bound steps acc hbound hsteps
  cases steps with
  | nil => exact absurd hsteps (by rw [List.length_nil]; omega)
  | cons u steps =>
    rw [List.length_cons] at hsteps
    have hstep : Succeeds (braceStep (fun fs =>
        return fs.push (← function .method (declarationWithin bound))) acc) n ts
          (some (acc.push f)) n₁ ts₁ :=
      succeeds_braceStep hstart ((hf bound .method hbound).bind (.pure _))
    have h := hstep.loop_first (u := u) (hfs bound steps (acc.push f) (by omega) (by omega))
    simpa using h

/-- The methods of a class and its closing brace. -/
theorem succeeds_methods {bound : List Token} {fs : List FunctionDef} {r : Token}
    (h : CompletesPart .functions n ts fs n' (r :: ts')) (hr : r.kind = .rightBrace)
    (hbound : ts.length ≤ bound.length + 1) :
    Succeeds (upToBrace fun fs => return fs.push (← function .method (declarationWithin bound)))
      n ts fs n' (r :: ts') := by
  have hloop := h bound ts #[] hbound (Nat.le_refl _)
  rw [Array.empty_append] at hloop
  exact succeeds_upToBrace hr hloop

/-! ## Declarations -/

theorem succeeds_recovering {rule : Parser Stmt} {d : Stmt} (h : Succeeds rule n ts d n' ts') :
    Succeeds (recovering rule) n ts (some d) n' ts' := by
  intro s hs
  simp only [recovering, h s hs]

theorem part_classDeclaration {k t l r : Token} {fs : List FunctionDef} (hk : k.kind = .classKw)
    (ht : t.kind = .identifier) (hl : l.kind = .leftBrace)
    (h : CompletesPart .functions n ts fs n' (r :: ts')) (hr : r.kind = .rightBrace) :
    CompletesPart .declaration n (k :: t :: l :: ts) (.classDef t none fs) n' ts' := by
  intro bound hbound _
  obtain ⟨u, bound, rfl, hrest⟩ := exists_cons_of_length hbound
  simp only [List.length_cons] at hrest
  rw [declarationWithin]
  refine succeeds_recovering (succeeds_peek.bind ?_)
  rw [hk]
  refine succeeds_advance.bind ((succeeds_expect ht).bind ?_)
  refine (succeeds_take?_none rfl (by rintro _ ⟨⟩; simp [hl])).bind ((Succeeds.pure none).bind ?_)
  refine (succeeds_expect hl).bind ((succeeds_methods h hr (by omega)).bind ?_)
  exact (succeeds_expect hr).bind (.pure _)

theorem part_derivedClass {k t q s l r : Token} {fs : List FunctionDef} (hk : k.kind = .classKw)
    (ht : t.kind = .identifier) (hq : q.kind = .less) (hs : s.kind = .identifier)
    (hl : l.kind = .leftBrace) (h : CompletesPart .functions (n + 1) ts fs n' (r :: ts'))
    (hr : r.kind = .rightBrace) :
    CompletesPart .declaration n (k :: t :: q :: s :: l :: ts) (.classDef t (some ⟨n, s⟩) fs) n'
      ts' := by
  intro bound hbound _
  obtain ⟨u, bound, rfl, hrest⟩ := exists_cons_of_length hbound
  simp only [List.length_cons] at hrest
  rw [declarationWithin]
  refine succeeds_recovering (succeeds_peek.bind ?_)
  rw [hk]
  refine succeeds_advance.bind ((succeeds_expect ht).bind ((succeeds_take? hq).bind ?_))
  refine (succeeds_expect hs).bind (succeeds_freshId.bind ((Succeeds.pure _).bind ?_))
  refine (succeeds_expect hl).bind ((succeeds_methods h hr (by omega)).bind ?_)
  exact (succeeds_expect hr).bind (.pure _)

theorem part_functionDeclaration {k : Token} {f : FunctionDef} (hk : k.kind = .funKw)
    (h : CompletesPart .function n ts f n' ts') :
    CompletesPart .declaration n (k :: ts) (.function f) n' ts' := by
  intro bound hbound _
  obtain ⟨u, bound, rfl, hrest⟩ := exists_cons_of_length hbound
  rw [declarationWithin]
  refine succeeds_recovering (succeeds_peek.bind ?_)
  rw [hk]
  exact succeeds_advance.bind (h bound .function (Nat.le_succ_of_le hrest)).map

theorem part_variableDeclaration {d : Stmt} (h : Reads nearest .varDeclaration n ts d n' ts') :
    CompletesPart .declaration n ts d n' ts' := by
  intro bound hbound _
  obtain ⟨v, rest, rfl, hv, h⟩ := h.succeeds_varDeclaration
  obtain ⟨u, bound, rfl, -⟩ := exists_cons_of_length hbound
  rw [declarationWithin]
  refine succeeds_recovering (succeeds_peek.bind ?_)
  rw [hv]
  exact succeeds_advance.bind h

theorem part_statement {d : Stmt} {takesElse : Bool}
    (hstart : ∃ t rest, ts = t :: rest ∧ startsPlain t.kind = true)
    (h : CompletesPart (.statement takesElse) n ts d n' ts') :
    CompletesPart .declaration n ts d n' ts' := by
  intro bound hbound helse
  have h := h bound hbound fun _ => helse
  obtain ⟨t, rest, rfl, ht⟩ := hstart
  obtain ⟨u, bound, rfl, -⟩ := exists_cons_of_length hbound
  rw [statementWithin] at h
  rw [declarationWithin]
  refine succeeds_recovering (succeeds_peek.bind ?_)
  split
  case h_4 => exact h
  all_goals rename_i hk; rw [hk] at ht; exact nomatch ht

theorem part_noDeclarations : CompletesPart .declarations n ts [] n ts :=
  fun _ _ _ _ _ hsteps => LoopsTo.start hsteps

theorem part_nextDeclaration {d : Stmt} {ds : List Stmt}
    (hstart : ∃ t rest, ts = t :: rest ∧ t.kind ≠ .rightBrace)
    (hd : CompletesPart .declaration n ts d n₁ ts₁)
    (hnext : NoElse ts' → NoElse ts₁) (hds : CompletesPart .declarations n₁ ts₁ ds n' ts')
    (hlength : ts₁.length + 1 ≤ ts.length) :
    CompletesPart .declarations n ts (d :: ds) n' ts' := by
  intro step hstep helse steps acc hsteps
  cases steps with
  | nil => exact absurd hsteps (by rw [List.length_nil]; omega)
  | cons u steps =>
    rw [List.length_cons] at hsteps
    have hfirst := hstep acc n n₁ ts ts₁ d (Nat.le_refl _) hstart fun bound hbound =>
      hd bound hbound (hnext helse)
    have hrest := hds step (fun ss n n' ts ts' d hmost => hstep ss n n' ts ts' d (by omega)) helse
      steps (acc ++ #[d]) (by omega)
    have h := hfirst.loop_first (u := u) hrest
    simpa using h

theorem Reads.noElse {ds : List Stmt} (h : Reads nearest .declarations n ts ds n' ts')
    (helse : NoElse ts') : NoElse ts := by
  cases h with
  | noDeclarations => exact helse
  | nextDeclaration h _ =>
    obtain ⟨t, rest, rfl, ht⟩ := h.starts Nat.one_ne_zero
    rintro _ ⟨⟩ hk
    rw [hk] at ht
    exact nomatch ht

/-- The parser reads every program of the grammar in which each `else` belongs to the nearest
    `if`. -/
theorem Reads.completesPart {symbol : Symbol} {tree : symbol.Tree}
    (h : Reads true symbol n ts tree n' ts') : CompletesPart symbol n ts tree n' ts' := by
  induction h with
  | expressionAsStatement h => exact part_expressionAsStatement h
  | print hp he hs => exact part_print hp he hs
  | ret hk he hs => exact part_ret hk he hs
  | brk hk hs => exact part_brk hk hs
  | block hl _ hr ih => exact part_block hl ih hr
  | loop hw hl hc hr _ _ ih => exact part_loop hw hl hc hr ih
  | ifOnly hi hl hc hr _ _ ih => exact part_ifOnly hi hl hc hr ih
  | ifElse hi hl hc hr h₁ hclosed hk _ _ ih₁ ih₂ =>
    have hlength := h₁.length_le
    simp only [Symbol.least, List.length_cons] at hlength
    obtain rfl := hclosed rfl
    exact part_ifElse hi hl hc hr ih₁ hk ih₂ (by omega)
  | forLoop hf hl hi hc hs he hr _ _ _ _ ih => exact part_forLoop hf hl hi hc hs he hr ih
  | firstParameter ht => exact part_firstParameter ht
  | nextParameter _ hc ht ih => exact part_nextParameter ih hc ht
  | functionNone ht hl hr hb _ hq ih => exact part_functionNone ht hl hr hb ih hq
  | function ht hl hps hsize hr hb _ hq ihps ih =>
    have hlength := hps.length_le
    simp only [Symbol.least, List.length_cons] at hlength
    refine part_function ht hl ?_ ihps hsize hr hb ih hq (by omega)
    intro t ht hk
    have := hps.starts_head Nat.one_ne_zero t ht
    rw [hk] at this
    exact Bool.false_ne_true this
  | noFunctions => exact part_noFunctions
  | nextFunction hf _ ihf ih =>
    have hlength := hf.length_le
    obtain ⟨t, rest, rfl, ht⟩ := hf.starts Nat.one_ne_zero
    refine part_nextFunction ⟨t, rest, rfl, fun hk => ?_⟩ ihf ih hlength
    rw [hk] at ht
    exact Bool.false_ne_true ht
  | classDeclaration hk ht hl _ hr ih => exact part_classDeclaration hk ht hl ih hr
  | derivedClass hk ht hq hs hl _ hr ih => exact part_derivedClass hk ht hq hs hl ih hr
  | functionDeclaration hk _ ih => exact part_functionDeclaration hk ih
  | variableDeclaration h => exact part_variableDeclaration h
  | statement h ih => exact part_statement (h.starts Nat.one_ne_zero) ih
  | noDeclarations => exact part_noDeclarations
  | nextDeclaration hd hds ihd ih =>
    have hlength := hd.length_le
    obtain ⟨t, rest, rfl, ht⟩ := hd.starts Nat.one_ne_zero
    refine part_nextDeclaration ⟨t, rest, rfl, fun hk => ?_⟩ ihd hds.noElse ih hlength
    rw [hk] at ht
    exact Bool.false_ne_true ht
  | _ => trivial

/-! ## Whole inputs -/

/-- A program of the grammar is read up to the end of the input. -/
theorem Reads.succeeds_declarations {ds : List Stmt} (h : Reads true .declarations n ts ds n' []) :
    Succeeds declarations n ts ds n' [] := by
  have hloop := h.completesPart programStep (readsDeclarations_programStep _) (by rintro _ ⟨⟩) ts #[]
    (Nat.le_refl _)
  rw [Array.empty_append] at hloop
  have hstop : Succeeds (programStep ds.toArray) n' [] none n' [] := succeeds_atEnd.bind (.pure _)
  exact Succeeds.bind (p := repeatFrom #[] programStep) (hloop.stop hstop) (.pure _)

end Lox.Grammar
