import Lox.Proofs.Forms.Trees
import Lox.Proofs.Numbers.ReadBack

set_option autoImplicit false

/-! # Trees found again in their forms

The first word of a form is scanned, and its kind and the number of parts tell what the form is of
(`Form.expr?`, `Form.stmt?`). A tree is found again if its form is read as the bare tree
(`Expr.ReadsBack`, `Stmt.ReadsBack`); there is one lemma for each kind of node. -/

namespace Lox

open Lexer (Lexeme byte)

/-! ## Words -/

/-- The token of a word, on no line. -/
def Token.ofText (text : String) : Token :=
  match Lexer.Reading.ofText (Utf8.encode text) with
  | .token kind => ⟨kind, text, 0⟩
  | _ => ⟨.endOfInput, text, 0⟩

theorem Token.ofText_eq {text : String} {kind : Kind}
    (htext : Utf8.decode? (bytesOf text) = some text)
    (h : Lexer.Reading.ofText (bytesOf text) = .token kind) : Token.ofText text = ⟨kind, text, 0⟩ := by
  rw [Token.ofText, Utf8.encode_of_decode? htext, h]

/-- A word that is read as a token. -/
structure Spells (text : String) (t : Token) : Prop where
  isWord : IsWord text
  token : Token.ofText text = t

theorem Spells.word (text : String) (kind : Kind) (hword : IsWord text)
    (htext : Utf8.decode? (bytesOf text) = some text)
    (h : Lexer.Reading.ofText (bytesOf text) = .token kind) : Spells text ⟨kind, text, 0⟩ :=
  ⟨hword, Token.ofText_eq htext h⟩

/-! ### Words of a source -/

/-- Whether a token is a word of a form. -/
def Kind.isWord : Kind → Bool
  | .leftParen | .rightParen | .string _ => false
  | _ => true

theorem delimiter_not_mem {kind : Kind} {text : List UInt8} (h : Lexeme kind text)
    (hkind : kind.isWord = true) {c : Char} (hc : isDelimiter c = true) : byte c ∉ text := by
  have hcases : c = '(' ∨ c = ')' ∨ c = ' ' ∨ c = '\n' := by
    simpa [isDelimiter, or_assoc] using hc
  have hpart : ∀ x, Lexer.isWordPart x = true → byte c ≠ x := by
    rintro _ hpart rfl
    rcases hcases with rfl | rfl | rfl | rfl <;> cases hpart
  have hdigit : ∀ x, Lexer.isDigit x = true → byte c ≠ x := fun x hx =>
    hpart x (Bool.or_eq_true_iff.2 (.inr hx))
  cases h with
  | symbol hmem =>
    have hsymbols : Kind.symbols.all (fun p => !p.2.isWord ||
        ['(', ')', ' ', '\n'].all fun d => !(bytesOf p.1).contains (byte d)) = true := by decide
    have hsymbol := List.all_eq_true.1 hsymbols _ hmem
    rw [hkind, Bool.not_true, Bool.false_or] at hsymbol
    simpa using List.all_eq_true.1 hsymbol c (by simpa using hcases)
  | keyword hmem => exact fun h => hpart _ ((Lexer.word_of_mem_keywords _ hmem).2 _ h) rfl
  | name hfirst hrest _ =>
    rw [List.mem_cons]
    rintro (h | h)
    · exact hpart _ (Lexer.isWordPart_of_isWordStart hfirst) h
    · exact hpart _ (hrest _ h) rfl
  | whole hfirst hdigits =>
    rw [List.mem_cons]
    rintro (h | h)
    · exact hdigit _ hfirst h
    · exact hdigit _ (hdigits _ h) rfl
  | fraction hfirst hdigits hdecimal hdecimals =>
    rw [List.mem_cons, List.mem_append, List.mem_cons, List.mem_cons]
    rintro (h | h | h | h | h)
    · exact hdigit _ hfirst h
    · exact hdigit _ (hdigits _ h) rfl
    · rcases hcases with rfl | rfl | rfl | rfl <;> cases h
    · exact hdigit _ hdecimal h
    · exact hdigit _ (hdecimals _ h) rfl
  | string _ _ => cases hkind

/-- A token of a source that is no parenthesis and no string is a word. -/
theorem spells_of_lexeme {kind : Kind} {text : String} (h : Lexeme kind (Utf8.encode text))
    (hkind : kind.isWord = true) : Spells text ⟨kind, text, 0⟩ := by
  refine ⟨⟨fun hnil => ?_, fun c hc => ?_⟩, by rw [Token.ofText, h.ofText]⟩
  · obtain ⟨first, rest, heq⟩ := h.eq_cons
    rw [Utf8.encode_eq, hnil] at heq
    cases heq
  · refine Bool.eq_false_iff.2 fun hdelimiter => ?_
    refine delimiter_not_mem h hkind hdelimiter ?_
    rw [Utf8.encode_eq]
    refine Lexer.byte_mem_ofChars ?_ hc
    simp only [isDelimiter, Bool.or_eq_true, beq_iff_eq] at hdelimiter
    obtain ((rfl | rfl) | rfl) | rfl := hdelimiter <;> decide

/-- The text of a token is a lexeme of its kind. -/
def Token.IsLexeme (t : Token) : Prop := Lexeme t.kind (Utf8.encode t.lexeme)

theorem Token.IsLexeme.spells {t : Token} (h : t.IsLexeme) (hkind : t.kind.isWord = true) :
    Spells t.lexeme t.bare :=
  spells_of_lexeme h hkind

/-- A name of a source. -/
structure Token.IsName (t : Token) : Prop where
  isLexeme : t.IsLexeme
  kind_eq : t.kind = .identifier

theorem Token.IsName.spells {t : Token} (h : t.IsName) : Spells t.lexeme t.bare :=
  h.isLexeme.spells (by rw [h.kind_eq]; rfl)

theorem text_eq_of_bytes {text word : String} (hword : Utf8.decode? (bytesOf word) = some word)
    (h : Utf8.encode text = bytesOf word) : text = word := by
  rw [← h, Utf8.decode?_encode] at hword
  exact Option.some.inj hword

/-- A reserved word of a source is the one that its kind says. -/
theorem Token.IsLexeme.bare_eq {t : Token} (h : t.IsLexeme) {word : String} {kind : Kind}
    (hkind : t.kind = kind) (hmem : (word, kind) ∈ Kind.keywords) : t.bare = ⟨kind, word, 0⟩ := by
  subst hkind
  rw [Token.bare, text_eq_of_bytes (Lexer.decode?_of_mem_keywords _ hmem)
    (Lexer.Lexeme.eq_bytesOf h hmem)]

theorem eq_bytesOf_of_rightParen {text : List UInt8} (h : Lexeme .rightParen text) :
    text = bytesOf ")" := by
  have hsymbols : ∀ p ∈ Kind.symbols, p.2 = .rightParen → p.1 = ")" := by simp [Kind.symbols]
  generalize hkind : Kind.rightParen = kind at h
  cases h with
  | symbol hmem => exact congrArg bytesOf (hsymbols _ hmem hkind.symm)
  | keyword hmem => subst hkind; simp [Kind.keywords] at hmem
  | name _ _ _ | whole _ _ | fraction _ _ _ _ | string _ _ => cases hkind

theorem Token.IsLexeme.bare_rightParen {t : Token} (h : t.IsLexeme) (hkind : t.kind = .rightParen) :
    t.bare = .ofText ")" := by
  rw [Token.ofText_eq (by decide) rfl, ← hkind, Token.bare]
  have h : Lexeme t.kind (Utf8.encode t.lexeme) := h
  rw [hkind] at h
  rw [text_eq_of_bytes (by decide) (eq_bytesOf_of_rightParen h)]

/-! ## Readers -/

/-- The expression that a word is. -/
def Expr.ofWord? (t : Token) : Option Expr :=
  match Grammar.constant? t.kind, t.kind with
  | some v, _ => some (.literal v)
  | none, .identifier => some (.var 0 t)
  | none, .thisKw => some (.thisRef 0 t)
  | none, _ => none

/-- The expression that a word and expressions behind it are. -/
def Expr.ofParts? (head : Token) (parts : List Expr) : Option Expr :=
  match head.kind, parts with
  | .identifier, [e] =>
    some (if head.lexeme = "group" then .grouping e else .call e (.ofText ")") [])
  | .identifier, f :: es => some (.call f (.ofText ")") es)
  | .superKw, [.var _ method] => some (.superRef 0 head method)
  | .dot, [object, .var _ name] => some (.get object name)
  | .equal, [.var _ name, value] => some (.assign 0 name value)
  | .equal, [.get object name, value] => some (.set object name value)
  | .andKw, [left, right] | .orKw, [left, right] => some (.logical left head right)
  | _, [right] => some (.unary head right)
  | _, [left, right] => some (.binary left head right)
  | _, _ => none

mutual

/-- The expression of a form. -/
def Form.expr? : Form → Option Expr
  | .word text => Expr.ofWord? (.ofText text)
  | .list (.word head :: parts) => do Expr.ofParts? (.ofText head) (← exprs? parts)
  | .list _ => none

def exprs? : List Form → Option (List Expr)
  | [] => some []
  | f :: fs => do return (← f.expr?) :: (← exprs? fs)

end

def names? : List Form → Option (List Token)
  | [] => some []
  | .word name :: fs => do return .ofText name :: (← names? fs)
  | .list _ :: _ => none

mutual

/-- The statement of a form. -/
def Form.stmt? : Form → Option Stmt
  | .word _ => none
  | .list forms =>
    match forms with
    | .word head :: _ => statement? (.ofText head) forms
    | _ => none

/-- The statement that forms are, of which the first is a word read as a token. -/
def statement? (head : Token) : List Form → Option Stmt
  | [] => none
  | _ :: parts =>
    match head.kind, parts with
    | .semicolon, [e] => do return .expression (← e.expr?)
    | .printKw, [e] => do return .print (← e.expr?)
    | .varKw, [.word name] => some (.var (.ofText name) none)
    | .varKw, [.word name, _, e] => do return .var (.ofText name) (some (← e.expr?))
    | .identifier, body => do return .block (← stmts? body)
    | .ifKw, [c, s] => do return .ifElse (← c.expr?) (← s.stmt?) none
    | .ifKw, [c, s, s'] => do return .ifElse (← c.expr?) (← s.stmt?) (some (← s'.stmt?))
    | .whileKw, [c, s] => do return .loop (← c.expr?) (← s.stmt?)
    | .funKw, parts => do return .function (← function? parts)
    | .returnKw, [] => some (.ret head none)
    | .returnKw, [e] => do return .ret head (some (← e.expr?))
    | .breakKw, [] => some (.brk head)
    | .classKw, .word name :: .word _ :: .word parent :: methods => do
      return .classDef (.ofText name) (some ⟨0, .ofText parent⟩) (← methods? methods)
    | .classKw, .word name :: methods => do
      return .classDef (.ofText name) none (← methods? methods)
    | _, _ => none

def stmts? : List Form → Option (List Stmt)
  | [] => some []
  | f :: fs => do return (← f.stmt?) :: (← stmts? fs)

/-- The function of a name, parameters and a body. -/
def function? : List Form → Option FunctionDef
  | .word name :: .list params :: body => do
    return ⟨.ofText name, ← names? params, ← stmts? body⟩
  | _ => none

def methods? : List Form → Option (List FunctionDef)
  | [] => some []
  | .list f :: fs => do return (← function? f) :: (← methods? fs)
  | .word _ :: _ => none

end

/-- The program of a text. -/
def readProgram? (text : String) : Option (List Stmt) := stmts? (formsOf text)

/-! ## Expressions -/

/-- The text of a literal is a word that tells its value. -/
def Literal.Legible : Literal → Prop
  | .string _ => False
  | .number x => x.isFinite = true
  | .bool _ | .nil => True

instance : DecidablePred Literal.Legible
  | .string _ => .isFalse id
  | .number x => inferInstanceAs (Decidable (x.isFinite = true))
  | .bool _ | .nil => .isTrue trivial

/-- The form of an expression is read as the bare expression. -/
structure Expr.ReadsBack (e : Expr) : Prop where
  proper : e.form.Proper
  read : e.form.expr? = some e.bare

section

variable {e l r : Expr} {es : List Expr}

theorem exprForms_readBack (h : ∀ e ∈ es, e.ReadsBack) :
    ProperForms (exprForms es) ∧ exprs? (exprForms es) = some (bareExprs es) := by
  induction es with
  | nil => exact ⟨trivial, rfl⟩
  | cons e es ih =>
    obtain ⟨he, hes⟩ := List.forall_mem_cons.1 h
    obtain ⟨hproper, hread⟩ := ih hes
    refine ⟨⟨he.proper, hproper⟩, ?_⟩
    rw [exprForms, exprs?, he.read, hread, bareExprs]
    rfl

/-- An expression is found again if its form begins with a word, that of expressions that are found
    again follow, and the word and the expressions tell what it is. -/
theorem Expr.readsBack_of_parts {head : String} {t : Token} (hhead : Spells head t) (es : List Expr)
    (hes : ∀ e ∈ es, e.ReadsBack) (hform : e.form = .list (.word head :: exprForms es))
    (hbare : Expr.ofParts? t (bareExprs es) = some e.bare) : e.ReadsBack := by
  obtain ⟨hproper, hread⟩ := exprForms_readBack hes
  constructor
  · rw [hform]
    exact ⟨hhead.isWord, hproper⟩
  · rw [hform, Form.expr?, hhead.token, hread]
    exact hbare

namespace Expr.ReadsBack

theorem constant {kind : Kind} {text : List UInt8} {v : Literal} (h : Lexeme kind text)
    (hconstant : Grammar.constant? kind = some v) (hv : v.Legible) : (Expr.literal v).ReadsBack := by
  have hspells : ∀ {text kind}, Spells text ⟨kind, text, 0⟩ → v.printed = text →
      Grammar.constant? kind = some v → (Expr.literal v).ReadsBack := by
    rintro text kind hspells rfl hconstant
    refine ⟨hspells.isWord, ?_⟩
    rw [Expr.form, Form.expr?, hspells.token, Expr.ofWord?, hconstant]
    rfl
  cases v with
  | string _ => cases hv
  | number x =>
    obtain rfl : kind = .number x := by
      unfold Grammar.constant? at hconstant
      split at hconstant
      all_goals cases hconstant
      rfl
    have hwritten := Lexer.lexeme_write Number.readable_inTree hv (h.toBits_lt hv)
    exact hspells (spells_of_lexeme hwritten rfl) rfl rfl
  | bool b =>
    cases b with
    | true => exact hspells (.word "true" .trueKw (by decide) (by decide) rfl) rfl rfl
    | false => exact hspells (.word "false" .falseKw (by decide) (by decide) rfl) rfl rfl
  | nil => exact hspells (.word "nil" .nilKw (by decide) (by decide) rfl) rfl rfl

theorem var {t : Token} (ht : t.IsName) (id : RefId) : (Expr.var id t).ReadsBack := by
  have hspells := ht.spells
  refine ⟨hspells.isWord, ?_⟩
  rw [Expr.form, Form.expr?, hspells.token]
  obtain ⟨kind, lexeme, line⟩ := t
  obtain rfl : kind = .identifier := ht.kind_eq
  rfl

theorem thisRef {k : Token} (hk : k.bare = ⟨.thisKw, "this", 0⟩) (id : RefId) :
    (Expr.thisRef id k).ReadsBack := by
  have hspells := Spells.word "this" .thisKw (by decide) (by decide) rfl
  refine ⟨hspells.isWord, ?_⟩
  rw [Expr.form, Form.expr?, hspells.token, Expr.bare, hk]
  rfl

theorem grouping (h : e.ReadsBack) : (Expr.grouping e).ReadsBack :=
  readsBack_of_parts (.word "group" .identifier (by decide) (by decide) rfl) [e]
    (by simpa using h) rfl rfl

theorem unary {o : Token} (hkind : o.kind = .bang ∨ o.kind = .minus)
    (ho : Spells o.lexeme o.bare) (h : e.ReadsBack) : (Expr.unary o e).ReadsBack := by
  refine readsBack_of_parts ho [e] (by simpa using h) rfl ?_
  obtain ⟨kind, lexeme, line⟩ := o
  rcases hkind with rfl | rfl <;> rfl

theorem node {o : Token} {level : Grammar.Precedence} (hkind : o.kind ∈ level.operators)
    (ho : Spells o.lexeme o.bare) (hl : l.ReadsBack) (hr : r.ReadsBack) :
    (level.node l o r).ReadsBack := by
  have hform : (level.node l o r).form = .list (.word o.lexeme :: exprForms [l, r]) := by
    cases level <;> rfl
  refine readsBack_of_parts ho [l, r] (by simpa using ⟨hl, hr⟩) hform ?_
  obtain ⟨kind, lexeme, line⟩ := o
  refine (?_ : ∀ k ∈ level.operators, Expr.ofParts? ⟨k, lexeme, 0⟩ [l.bare, r.bare] =
    some (level.node l ⟨k, lexeme, line⟩ r).bare) kind hkind
  cases level <;> simp only [Grammar.Precedence.operators, List.forall_mem_cons]
  case comparison => exact ⟨rfl, rfl, rfl, rfl, List.forall_mem_nil _⟩
  case and => exact ⟨rfl, List.forall_mem_nil _⟩
  case or => exact ⟨rfl, List.forall_mem_nil _⟩
  all_goals exact ⟨rfl, rfl, List.forall_mem_nil _⟩

theorem get {m : Token} (hm : m.IsName) (h : e.ReadsBack) : (Expr.get e m).ReadsBack :=
  readsBack_of_parts (.word "." .dot (by decide) (by decide) rfl) [e, .var 0 m]
    (by simpa using ⟨h, .var hm 0⟩) rfl rfl

theorem superRef {k m : Token} (hk : k.bare = ⟨.superKw, "super", 0⟩) (hm : m.IsName) (id : RefId) :
    (Expr.superRef id k m).ReadsBack :=
  readsBack_of_parts (.word "super" .superKw (by decide) (by decide) rfl) [.var 0 m]
    (by simpa using .var hm 0) rfl (by rw [Expr.bare, hk]; rfl)

theorem assign {t : Token} (ht : t.IsName) (h : e.ReadsBack) (id : RefId) :
    (Expr.assign id t e).ReadsBack :=
  readsBack_of_parts (.word "=" .equal (by decide) (by decide) rfl) [.var 0 t, e]
    (by simpa using ⟨.var ht 0, h⟩) rfl rfl

theorem set {m : Token} (hm : m.IsName) (hl : l.ReadsBack) (hr : r.ReadsBack) :
    (Expr.set l m r).ReadsBack :=
  readsBack_of_parts (.word "=" .equal (by decide) (by decide) rfl) [.get l m, r]
    (by simpa using ⟨hl.get hm, hr⟩) rfl rfl

theorem call {paren : Token} (hparen : paren.bare = .ofText ")") (h : e.ReadsBack)
    (hes : ∀ e ∈ es, e.ReadsBack) : (Expr.call e paren es).ReadsBack := by
  refine readsBack_of_parts (.word "call" .identifier (by decide) (by decide) rfl)
    (e :: es) (List.forall_mem_cons.2 ⟨h, hes⟩) rfl ?_
  rw [Expr.bare, hparen]
  cases es <;> rfl

end Expr.ReadsBack

end

/-! ## Statements -/

/-- The form of a statement is read as the bare statement. -/
structure Stmt.ReadsBack (s : Stmt) : Prop where
  proper : s.form.Proper
  read : s.form.stmt? = some s.bare

/-- The forms of a function are read as the bare function. -/
structure FunctionDef.ReadsBack (f : FunctionDef) : Prop where
  proper : ProperForms f.formParts
  read : function? f.formParts = some f.bare

section

variable {e c : Expr} {s s' : Stmt} {ss : List Stmt} {f : FunctionDef} {fs : List FunctionDef}

theorem stmtForms_readBack (h : ∀ s ∈ ss, s.ReadsBack) :
    ProperForms (stmtForms ss) ∧ stmts? (stmtForms ss) = some (bareStmts ss) := by
  induction ss with
  | nil => exact ⟨trivial, rfl⟩
  | cons s ss ih =>
    obtain ⟨hs, hss⟩ := List.forall_mem_cons.1 h
    obtain ⟨hproper, hread⟩ := ih hss
    refine ⟨⟨hs.proper, hproper⟩, ?_⟩
    rw [stmtForms, stmts?, hs.read, hread, bareStmts]
    rfl

theorem methodForms_readBack (h : ∀ f ∈ fs, f.ReadsBack) :
    ProperForms (methodForms fs) ∧ methods? (methodForms fs) = some (bareMethods fs) := by
  induction fs with
  | nil => exact ⟨trivial, rfl⟩
  | cons f fs ih =>
    obtain ⟨hf, hfs⟩ := List.forall_mem_cons.1 h
    obtain ⟨hproper, hread⟩ := ih hfs
    refine ⟨⟨hf.proper, hproper⟩, ?_⟩
    rw [methodForms, methods?, hf.read, hread, bareMethods]
    rfl

theorem names_readBack {ts : List Token} (h : ∀ t ∈ ts, t.IsName) :
    ProperForms (ts.map fun t => .word t.lexeme) ∧
      names? (ts.map fun t => .word t.lexeme) = some (ts.map Token.bare) := by
  induction ts with
  | nil => exact ⟨trivial, rfl⟩
  | cons t ts ih =>
    obtain ⟨ht, hts⟩ := List.forall_mem_cons.1 h
    obtain ⟨hproper, hread⟩ := ih hts
    refine ⟨⟨ht.spells.isWord, hproper⟩, ?_⟩
    rw [List.map_cons, names?, ht.spells.token, hread]
    rfl

theorem FunctionDef.ReadsBack.of_parts {name : Token} {params : List Token} (hname : name.IsName)
    (hparams : ∀ p ∈ params, p.IsName) (hbody : ∀ s ∈ ss, s.ReadsBack) :
    FunctionDef.ReadsBack ⟨name, params, ss⟩ := by
  obtain ⟨hproper, hread⟩ := names_readBack hparams
  obtain ⟨hproper', hread'⟩ := stmtForms_readBack hbody
  refine ⟨⟨hname.spells.isWord, hproper, hproper'⟩, ?_⟩
  rw [FunctionDef.formParts, function?, hname.spells.token, hread, hread']
  rfl

/-- A statement is found again if its form begins with a word, and the word and the forms behind it
    tell what it is. -/
theorem Stmt.readsBack_of_parts {head : String} {t : Token} {parts : List Form}
    (hhead : Spells head t) (hform : s.form = .list (.word head :: parts))
    (hparts : ProperForms parts) (hread : statement? t (.word head :: parts) = some s.bare) :
    s.ReadsBack := by
  constructor
  · rw [hform]
    exact ⟨hhead.isWord, hparts⟩
  · rw [hform, Form.stmt?, hhead.token, hread]

namespace Stmt.ReadsBack

theorem expression (h : e.ReadsBack) : (Stmt.expression e).ReadsBack := by
  refine readsBack_of_parts (.word ";" .semicolon (by decide) (by decide) rfl) rfl
    ⟨h.proper, trivial⟩ ?_
  show (do return Stmt.expression (← e.form.expr?)) = _
  rw [h.read]
  rfl

theorem print (h : e.ReadsBack) : (Stmt.print e).ReadsBack := by
  refine readsBack_of_parts (.word "print" .printKw (by decide) (by decide) rfl) rfl
    ⟨h.proper, trivial⟩ ?_
  show (do return Stmt.print (← e.form.expr?)) = _
  rw [h.read]
  rfl

theorem var {t : Token} (ht : t.IsName) {i : Option Expr} (hi : ∀ e ∈ i, e.ReadsBack) :
    (Stmt.var t i).ReadsBack := by
  have hhead := Spells.word "var" .varKw (by decide) (by decide) rfl
  have hname := ht.spells
  cases i with
  | none =>
    refine readsBack_of_parts hhead rfl ⟨hname.isWord, trivial⟩ ?_
    show some (Stmt.var (.ofText t.lexeme) none) = _
    rw [hname.token]
    rfl
  | some e =>
    have he := hi e rfl
    refine readsBack_of_parts hhead rfl
      ⟨hname.isWord, (by decide : IsWord "="), he.proper, trivial⟩ ?_
    show (do return Stmt.var (.ofText t.lexeme) (some (← e.form.expr?))) = _
    rw [hname.token, he.read]
    rfl

theorem block (h : ∀ s ∈ ss, s.ReadsBack) : (Stmt.block ss).ReadsBack := by
  obtain ⟨hproper, hread⟩ := stmtForms_readBack h
  refine readsBack_of_parts (.word "block" .identifier (by decide) (by decide) rfl) rfl hproper ?_
  show (do return Stmt.block (← stmts? (stmtForms ss))) = _
  rw [hread]
  rfl

theorem ifOnly (hc : c.ReadsBack) (hs : s.ReadsBack) : (Stmt.ifElse c s none).ReadsBack := by
  refine readsBack_of_parts (.word "if" .ifKw (by decide) (by decide) rfl) rfl
    ⟨hc.proper, hs.proper, trivial⟩ ?_
  show (do return Stmt.ifElse (← c.form.expr?) (← s.form.stmt?) none) = _
  rw [hc.read, hs.read]
  rfl

theorem ifElse (hc : c.ReadsBack) (hs : s.ReadsBack) (hs' : s'.ReadsBack) :
    (Stmt.ifElse c s (some s')).ReadsBack := by
  refine readsBack_of_parts (.word "if" .ifKw (by decide) (by decide) rfl) rfl
    ⟨hc.proper, hs.proper, hs'.proper, trivial⟩ ?_
  show (do return Stmt.ifElse (← c.form.expr?) (← s.form.stmt?) (some (← s'.form.stmt?))) = _
  rw [hc.read, hs.read, hs'.read]
  rfl

theorem loop (hc : c.ReadsBack) (hs : s.ReadsBack) : (Stmt.loop c s).ReadsBack := by
  refine readsBack_of_parts (.word "while" .whileKw (by decide) (by decide) rfl) rfl
    ⟨hc.proper, hs.proper, trivial⟩ ?_
  show (do return Stmt.loop (← c.form.expr?) (← s.form.stmt?)) = _
  rw [hc.read, hs.read]
  rfl

theorem function (h : f.ReadsBack) : (Stmt.function f).ReadsBack := by
  refine readsBack_of_parts (.word "fun" .funKw (by decide) (by decide) rfl) rfl h.proper ?_
  show (do return Stmt.function (← function? f.formParts)) = _
  rw [h.read]
  rfl

theorem ret {k : Token} (hk : k.bare = ⟨.returnKw, "return", 0⟩) {v : Option Expr}
    (hv : ∀ e ∈ v, e.ReadsBack) : (Stmt.ret k v).ReadsBack := by
  have hhead := Spells.word "return" .returnKw (by decide) (by decide) rfl
  cases v with
  | none => exact readsBack_of_parts hhead rfl trivial (by rw [Stmt.bare, hk]; rfl)
  | some e =>
    have he := hv e rfl
    refine readsBack_of_parts hhead rfl ⟨he.proper, trivial⟩ ?_
    show (do return Stmt.ret ⟨.returnKw, "return", 0⟩ (some (← e.form.expr?))) = _
    rw [he.read, Stmt.bare, hk]
    rfl

theorem brk {k : Token} (hk : k.bare = ⟨.breakKw, "break", 0⟩) : (Stmt.brk k).ReadsBack :=
  readsBack_of_parts (.word "break" .breakKw (by decide) (by decide) rfl) rfl trivial
    (by rw [Stmt.bare, hk]; rfl)

theorem classDef {t : Token} (ht : t.IsName) {parent : Option Superclass}
    (hparent : ∀ s ∈ parent, s.name.IsName) (h : ∀ f ∈ fs, f.ReadsBack) :
    (Stmt.classDef t parent fs).ReadsBack := by
  have hhead := Spells.word "class" .classKw (by decide) (by decide) rfl
  have hname := ht.spells
  obtain ⟨hproper, hfs⟩ := methodForms_readBack h
  cases parent with
  | none =>
    refine readsBack_of_parts hhead rfl ⟨hname.isWord, hproper⟩ ?_
    -- no word follows the name, as methods are lists
    have hread : statement? ⟨.classKw, "class", 0⟩ (.word "class" :: .word t.lexeme ::
        methodForms fs) = (do
      return .classDef (.ofText t.lexeme) none (← methods? (methodForms fs))) := by
      cases fs <;> rfl
    rw [Superclass.forms, List.nil_append, hread, hname.token, hfs]
    rfl
  | some s =>
    have hs := (hparent s rfl).spells
    refine readsBack_of_parts hhead rfl
      ⟨hname.isWord, (by decide : IsWord "<"), hs.isWord, hproper⟩ ?_
    show (do
      return Stmt.classDef (.ofText t.lexeme) (some ⟨0, .ofText s.name.lexeme⟩)
        (← methods? (methodForms fs))) = _
    rw [hname.token, hs.token, hfs]
    rfl

end Stmt.ReadsBack

end

end Lox
