import Lox.Proofs.Recovery.Declarations

set_option autoImplicit false

/-! # Flat statements

A flat statement has one semicolon, at its end, and no braces; nothing in it looks like the start of
another statement. Right or wrong, it is read up to the semicolon and not further: a rule of simple
statements stops behind the semicolon, and one that fails does so at a token of the statement, at
the semicolon at last (`StopsBehind`). The tokens dropped for the failure are then all that is left
of the statement, so the parse goes on at the token behind it. -/

namespace Lox.Parse

open Grammar

variable {α β : Type} {c : Setting} {s s' : State}

/-! ## Which statements are flat -/

/-- Whether a token of a kind may stand anywhere before the semicolon of a flat statement. -/
def isInner (kind : Kind) : Bool :=
  !([Kind.semicolon, .leftBrace, .rightBrace, .endOfInput].any kind.sameAs) && !startsStatement kind

/-- The words with which flat statements begin. -/
def startsFlat (kind : Kind) : Bool :=
  [Kind.varKw, .printKw, .returnKw, .breakKw].any kind.sameAs

/-- Tokens of a simple statement, which need not be correct. -/
structure Flat (tokens : List Token) : Prop where
  first : ∀ t ∈ tokens.dropLast.head?, isInner t.kind || startsFlat t.kind
  inner : ∀ t ∈ tokens.dropLast.tail, isInner t.kind
  last : tokens.getLast?.any fun t => Kind.semicolon.sameAs t.kind

instance (tokens : List Token) : Decidable (Flat tokens) :=
  decidable_of_iff ((∀ t ∈ tokens.dropLast.head?, isInner t.kind || startsFlat t.kind) ∧
    (∀ t ∈ tokens.dropLast.tail, isInner t.kind) ∧
      tokens.getLast?.any fun t => Kind.semicolon.sameAs t.kind)
    ⟨fun h => ⟨h.1, h.2.1, h.2.2⟩, fun h => ⟨h.first, h.inner, h.last⟩⟩

/-- The words that begin a statement which is not flat. -/
def startsNested (kind : Kind) : Bool :=
  [Kind.classKw, .funKw, .forKw, .ifKw, .whileKw, .leftBrace].any kind.sameAs

theorem kind_of_isInner {kind : Kind} (h : isInner kind = true) :
    kind ≠ .semicolon ∧ kind.sameAs .endOfInput = false ∧ startsNested kind = false ∧
      startsStatement kind = false := by
  refine ⟨?_, ?_⟩
  · rintro rfl
    cases h
  · cases kind <;> first | exact ⟨rfl, rfl, rfl⟩ | cases h

theorem kind_of_startsFlat {kind : Kind} (h : startsFlat kind = true) :
    kind ≠ .semicolon ∧ kind.sameAs .endOfInput = false ∧ startsNested kind = false := by
  refine ⟨?_, ?_⟩
  · rintro rfl
    cases h
  · cases kind <;> first | exact ⟨rfl, rfl⟩ | cases h

theorem upToSemicolon_concat {last : Token} (hlast : last.kind = .semicolon) {body : List Token}
    (h : ∀ t ∈ body, t.kind ≠ .semicolon) : UpToSemicolon (body ++ [last]) := by
  induction body with
  | nil => exact .last hlast
  | cons t body ih =>
    rw [List.forall_mem_cons] at h
    exact .cons h.1 (ih h.2)

namespace Flat

variable {tokens : List Token}

/-- A flat statement with its first token apart. -/
theorem exists_cons (h : Flat tokens) :
    ∃ t ts, tokens = t :: ts ∧ UpToSemicolon tokens ∧ isEnd t = false ∧
      startsNested t.kind = false ∧ ∀ u ∈ ts, isEnd u = false ∧ startsStatement u.kind = false := by
  obtain ⟨hfirst, hinner, hsemicolon⟩ := h
  obtain ⟨last, hmem, hsame⟩ := (Option.any_eq_true _ _).1 hsemicolon
  obtain ⟨body, rfl⟩ := List.getLast?_eq_some_iff.1 hmem
  have hlast : last.kind = .semicolon := Kind.eq_of_sameAs rfl hsame
  have hend : isEnd last = false := by
    rw [isEnd, hlast]
    rfl
  rw [List.dropLast_concat] at hfirst hinner
  cases body with
  | nil => exact ⟨last, [], rfl, .last hlast, hend, by rw [hlast]; rfl, nofun⟩
  | cons t ts =>
    have ht : t.kind ≠ .semicolon ∧ isEnd t = false ∧ startsNested t.kind = false := by
      rcases Bool.or_eq_true_iff.1 (hfirst t rfl) with hmiddle | hstart
      · have := kind_of_isInner hmiddle
        exact ⟨this.1, this.2.1, this.2.2.1⟩
      · exact kind_of_startsFlat hstart
    refine ⟨t, ts ++ [last], rfl, upToSemicolon_concat hlast ?_, ht.2.1, ht.2.2, ?_⟩
    · exact List.forall_mem_cons.2 ⟨ht.1, fun u hu => (kind_of_isInner (hinner u hu)).1⟩
    · refine List.forall_mem_append.2 ⟨fun u hu => ?_, List.forall_mem_singleton.2 ⟨hend, ?_⟩⟩
      · have := kind_of_isInner (hinner u hu)
        exact ⟨this.2.1, this.2.2.2⟩
      · rw [hlast]
        rfl

theorem ne_nil (h : Flat tokens) : tokens ≠ [] := by
  obtain ⟨_, _, rfl, -⟩ := h.exists_cons
  exact List.cons_ne_nil _ _

theorem isEnd_eq_false (h : Flat tokens) : ∀ t ∈ tokens, isEnd t = false := by
  obtain ⟨t, ts, rfl, -, ht, -, hts⟩ := h.exists_cons
  exact List.forall_mem_cons.2 ⟨ht, fun u hu => (hts u hu).1⟩

end Flat

/-! ## Dropping the rest of a statement -/

/-- From within a statement up to a semicolon, the parse goes on behind it. -/
theorem resume_upToSemicolon {ts : List Token} (h : UpToSemicolon ts)
    (hstart : ∀ t ∈ ts.tail, startsStatement t.kind = false) (us : List Token) :
    resume (ts ++ us) = us := by
  induction h with
  | @last t ht =>
    show resumeAfter t us = us
    cases us with
    | nil => rfl
    | cons u us => simp [resumeAfter, ht]
  | @cons t ts ht h ih =>
    obtain ⟨u, ts, rfl, -⟩ := h.exists_cons
    have hdropped : t.kind.sameAs .semicolon = false :=
      Bool.eq_false_iff.2 fun h => ht (Kind.eq_of_sameAs rfl (Kind.sameAs_comm _ _ ▸ h))
    have hgo : resume (t :: u :: ts ++ us) = resume (u :: ts ++ us) := by
      show resumeAfter t (u :: (ts ++ us)) = resumeAfter u (ts ++ us)
      rw [resumeAfter, hdropped, hstart u List.mem_cons_self]
      rfl
    rw [hgo]
    exact ih fun v hv => hstart v (List.mem_cons_of_mem _ hv)

/-- Wherever in a flat statement a rule fails, the rest of the statement is dropped and no more. -/
theorem Flat.resume_append {tokens ts : List Token} (h : Flat tokens) (hsuffix : ts <:+ tokens)
    (hts : UpToSemicolon ts) (us : List Token) : resume (ts ++ us) = us := by
  obtain ⟨first, more, rfl, -, -, -, hmore⟩ := h.exists_cons
  refine resume_upToSemicolon hts (fun t ht => ?_) us
  -- only the first token of the statement may look like the start of one, and it is dropped unseen
  rcases List.suffix_cons_iff.1 hsuffix with rfl | hsuffix
  · exact (hmore t ht).2
  · exact (hmore t (hsuffix.subset (List.mem_of_mem_tail ht))).2

/-! ## Rules that stop at the semicolon -/

/-- A rule stops behind a semicolon, with the same result in a setting, or fails there or before. -/
def StopsBehind (c : Setting) (s : State) (p : Parser α) : Prop :=
  UpToSemicolon s.rest →
    match p s with
    | .ok a s' => p (s.amid c) = .ok a (s'.amid c) ∧ s'.rest = []
    | .error failure s' => p (s.amid c) = .error failure (s'.amid c) ∧ UpToSemicolon s'.rest

/-- A setting in which something stands behind tells whether the semicolon has been read. -/
theorem Agrees.upToSemicolon {p p' : Parser α} {P : α → State → Prop} {reported : Array Mistake}
    {t : Token} {final : Option Token} (h : Agrees ⟨reported, [t], final⟩ s p p' P)
    (hs : UpToSemicolon s.rest) :
    match p s with
    | .ok _ s' => UpToSemicolon s'.rest
    | .error _ s' => UpToSemicolon s'.rest := by
  have h := h (.inr hs)
  cases hrun : p s with
  | ok a s' =>
    rw [hrun] at h
    exact h.2.1.suits.upToSemicolon (List.cons_ne_nil t [])
  | error failure s' =>
    rw [hrun] at h
    exact h.2.suits.upToSemicolon (List.cons_ne_nil t [])

/-- A rule that does not read the semicolon, and behind it one that stops there. -/
theorem StopsBehind.bind {p : Parser α} {k : α → Parser β} {P : Setting → α → State → Prop}
    (hp : ∀ c, Agrees c s p p (P c)) (hk : ∀ a s', P c a s' → StopsBehind c s' (k a)) :
    StopsBehind c s (p >>= k) := by
  intro hs
  have hagree := hp c (.inr hs)
  -- this setting may have nothing behind; that the semicolon is still there shows in another one
  have hrest := (hp ⟨#[], [⟨.endOfInput, "", 0⟩], none⟩).upToSemicolon hs
  simp only [Bind.bind, EStateM.bind]
  cases hrun : p s with
  | error failure s₁ =>
    rw [hrun] at hagree hrest
    rw [hagree.1]
    exact ⟨rfl, hrest⟩
  | ok a s₁ =>
    rw [hrun] at hagree hrest
    rw [hagree.1]
    exact hk a s₁ hagree.2.2 hrest

section

variable {kind : Kind} (problem : SyntaxProblem) {t : Token} {ts : List Token}

theorem take?_eq (hrest : s.rest = t :: ts) :
    take? kind s =
      if kind.sameAs t.kind then .ok (some t) { s with rest := ts } else .ok none s := by
  obtain ⟨_, final, nextId, reported⟩ := s
  subst hrest
  rfl

theorem expect_eq_ok (hrest : s.rest = t :: ts) (hkind : t.kind = kind) :
    expect kind problem s = .ok t { s with rest := ts } := by
  have htake : take? kind s = .ok (some t) { s with rest := ts } := by
    rw [take?_eq hrest, hkind, if_pos (Kind.sameAs_self kind)]
  exact bind_of_ok htake

theorem expect_eq_error (hrest : s.rest = t :: ts) (hplain : kind.isPlain = true)
    (hkind : t.kind ≠ kind) : expect kind problem s = .error (.mistake ⟨t, problem⟩) s := by
  have htake : take? kind s = .ok none s := by
    rw [take?_eq hrest, if_neg fun h => hkind (Kind.eq_of_sameAs hplain h)]
  have hpeek : peek s = .ok t s := by simp [peek, State.next?, hrest]
  refine (bind_of_ok htake).trans ?_
  exact bind_of_ok hpeek

end

/-- At a semicolon, or at a token before it. -/
theorem stopsBehind_semicolon (problem : SyntaxProblem) (a : α) :
    StopsBehind c s (do let _ ← expect .semicolon problem; return a) := by
  intro hs
  obtain ⟨t, ts, hrest, -⟩ := hs.exists_cons
  have hamid : (s.amid c).rest = t :: (ts ++ c.behind) := by simp [State.amid, hrest]
  by_cases hkind : t.kind = .semicolon
  · obtain rfl : ts = [] := by
      rw [hrest] at hs
      cases hs with
      | last => rfl
      | cons hne => exact absurd hkind hne
    have hok := expect_eq_ok problem hrest hkind
    have hok' := expect_eq_ok problem hamid hkind
    rw [bind_of_ok hok, bind_of_ok hok']
    exact ⟨rfl, rfl⟩
  · have hfail := expect_eq_error problem hrest rfl hkind
    have hfail' := expect_eq_error problem hamid rfl hkind
    simp only [Bind.bind, EStateM.bind, hfail, hfail']
    exact ⟨trivial, hs⟩

theorem stopsBehind_varDeclaration : StopsBehind c s varDeclaration := by
  refine .bind (fun _ => agrees_expect rfl _) fun name s₁ _ => ?_
  refine .bind (fun _ => agrees_take? rfl) fun equals s₂ _ => ?_
  cases equals with
  | none => exact stopsBehind_semicolon _ _
  | some _ => exact .bind (fun _ => agrees_expression.map) fun _ _ _ => stopsBehind_semicolon _ _

theorem stopsBehind_expressionStatement : StopsBehind c s expressionStatement :=
  .bind (fun _ => agrees_expression) fun _ _ _ => stopsBehind_semicolon _ _

theorem stopsBehind_printStatement : StopsBehind c s printStatement :=
  .bind (fun _ => agrees_expression) fun _ _ _ => stopsBehind_semicolon _ _

theorem agrees_expressionUnless (kind : Kind) :
    Agrees c s (expressionUnless kind) (expressionUnless kind) fun _ _ => True := by
  refine (agrees_nextIs kind).bind fun b s₁ _ _ => ?_
  cases b with
  | true => exact .pure trivial
  | false => exact agrees_expression.map

theorem stopsBehind_returnStatement (keyword : Token) :
    StopsBehind c s (returnStatement keyword) :=
  .bind (fun _ => agrees_expressionUnless _) fun _ _ _ => stopsBehind_semicolon _ _

theorem stopsBehind_breakStatement (keyword : Token) : StopsBehind c s (breakStatement keyword) :=
  stopsBehind_semicolon _ _

/-! ## Simple statements -/

/-- A statement or declaration that contains no other. -/
def simpleStatement : Parser Stmt := do
  let token ← peek
  match token.kind with
  | .varKw => advance; varDeclaration
  | .returnKw => advance; returnStatement token
  | .breakKw => advance; breakStatement token
  | .printKw => advance; printStatement
  | _ => expressionStatement

theorem statementOf_eq {statement : Parser Stmt} {declaration : Parser (Option Stmt)} {t : Token}
    (hnext : s.next? = some t) (hsimple : startsNested t.kind = false) (hvar : t.kind ≠ .varKw) :
    statementOf statement declaration s = simpleStatement s := by
  have hpeek : peek s = .ok t s := by rw [peek, hnext]
  refine (bind_of_ok hpeek).trans (Eq.trans ?_ (bind_of_ok hpeek).symm)
  cases hkind : t.kind with
  | forKw | ifKw | whileKw | leftBrace =>
    rw [hkind] at hsimple
    cases hsimple
  | varKw => exact absurd hkind hvar
  | _ => rfl

/-- No token of a simple statement is for the rules of statements within it. -/
theorem declarationOf_eq {statement : Parser Stmt} {declaration : Parser (Option Stmt)} {t : Token}
    (hnext : s.next? = some t) (hsimple : startsNested t.kind = false) :
    declarationOf statement declaration s = simpleStatement s := by
  have hpeek : peek s = .ok t s := by rw [peek, hnext]
  by_cases hvar : t.kind = .varKw
  · refine (bind_of_ok hpeek).trans (Eq.trans ?_ (bind_of_ok hpeek).symm)
    rw [hvar]
  · have hstatement : statementOf statement declaration s = simpleStatement s :=
      statementOf_eq hnext hsimple hvar
    rw [← hstatement]
    refine (bind_of_ok hpeek).trans ?_
    cases hkind : t.kind with
    | classKw | funKw =>
      rw [hkind] at hsimple
      cases hsimple
    | varKw => exact absurd hkind hvar
    | _ => rfl

theorem stopsBehind_simpleStatement : StopsBehind c s simpleStatement := by
  refine .bind (fun _ => agrees_peek) fun t s₁ h => ?_
  obtain ⟨rfl, hnext⟩ := h
  have behind : ∀ {rule : Parser Stmt}, t.kind ≠ .semicolon → (∀ s, StopsBehind c s rule) →
      StopsBehind c s₁ (do advance; rule) := fun hkind hrule =>
    .bind (fun _ => agrees_advance hnext hkind) fun _ s₂ _ => hrule s₂
  split
  case h_1 hkind => exact behind (by simp [hkind]) fun _ => stopsBehind_varDeclaration
  case h_2 hkind => exact behind (by simp [hkind]) fun _ => stopsBehind_returnStatement t
  case h_3 hkind => exact behind (by simp [hkind]) fun _ => stopsBehind_breakStatement t
  case h_4 hkind => exact behind (by simp [hkind]) fun _ => stopsBehind_printStatement
  case h_5 => exact stopsBehind_expressionStatement

/-! ## Declarations -/

theorem declaration_eq {t : Token} {ts : List Token} (hrest : s.rest = t :: ts)
    (hsimple : startsNested t.kind = false) : declaration s = recovering simpleStatement s := by
  have hnext : s.next? = some t := by simp [State.next?, hrest]
  unfold declaration
  rw [hrest, declarationWithin, recovering, recovering, declarationOf_eq hnext hsimple]

theorem simpleStatement_leads {t : Token} (hnext : s.next? = some t)
    (hsimple : startsNested t.kind = false) : YieldsAt s simpleStatement fun _ _ => True := by
  have hrule : YieldsAt s (declarationOf (statementWithin []) (declarationWithin []))
      fun _ _ => True :=
    (isRule_declarationOf (isStatementRule_statementWithin [])
      (isDeclarationRule_declarationWithin []) s).mono fun _ _ _ _ => trivial
  intro hend
  have h := hrule hend
  rwa [declarationOf_eq hnext hsimple] at h

/-- A flat statement is read, or dropped after its failure, and nothing behind it. -/
theorem declaration_of_flat (hflat : Flat s.rest) (hend : s.HasEnd) (hc : (s.amid c).HasEnd) :
    ∃ d s', declaration s = .ok d s' ∧ s'.rest = [] ∧
      declaration (s.amid c) = .ok d (s'.amid c) := by
  obtain ⟨t, ts, hrest, hsemicolon, -, hsimple, -⟩ := hflat.exists_cons
  have hrest' : (s.amid c).rest = t :: (ts ++ c.behind) := by simp [State.amid, hrest]
  have hleads := simpleStatement_leads (by simp [State.next?, hrest]) hsimple hend
  have hstops : StopsBehind c s simpleStatement := stopsBehind_simpleStatement
  have hstops := hstops hsemicolon
  rw [declaration_eq hrest hsimple, declaration_eq hrest' hsimple]
  cases hrun : simpleStatement s with
  | ok d s₁ =>
    rw [hrun] at hstops
    refine ⟨some d, s₁, ?_, hstops.2, ?_⟩
    · simp only [recovering, hrun]
    · simp only [recovering, hstops.1]
  | error failure s₁ =>
    rw [hrun] at hleads hstops
    cases failure with
    | outOfTokens => exact absurd rfl hleads.2
    | mistake m =>
      have hend' : (s₁.amid c).HasEnd := hc
      have hresume := hflat.resume_append hleads.1.rest hstops.2
      have hnil : resume s₁.rest = [] := by simpa using hresume []
      refine ⟨none, _, recovering_of_mistake hrun (hleads.1.hasEnd hend), hnil, ?_⟩
      rw [recovering_of_mistake hstops.1 hend']
      simp [State.amid, hresume, hnil]

end Lox.Parse
