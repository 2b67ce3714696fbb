import Mathlib.Data.List.Forall2
import Lox.Error
import Lox.Tree.References

set_option autoImplicit false

/-! # Trees that differ in places and identities only

The same text may be read twice, from different lines on and with different identities for its
references. The two trees are then alike (`Expr.Alike`, `Stmt.Alike`): of the same form, each token
of the second some lines further down, and the identities of corresponding references related. What
tokens are moved is part of the relation, so that one can tell them apart from others. -/

namespace Lox

/-- A token some lines further down. -/
def Token.down (lines : Nat) (t : Token) : Token := { t with line := t.line + lines }

@[simp] theorem Token.down_zero (t : Token) : t.down 0 = t := rfl

@[simp] theorem Token.down_kind (lines : Nat) (t : Token) : (t.down lines).kind = t.kind := rfl

@[simp] theorem Token.down_lexeme (lines : Nat) (t : Token) : (t.down lines).lexeme = t.lexeme :=
  rfl

@[simp] theorem Token.map_down_zero (ts : List Token) : ts.map (Token.down 0) = ts := List.map_id ts

/-- An error some lines further down. -/
def Error.down (lines : Nat) : Error → Error
  | lexical line problem => lexical (line + lines) problem
  | parse token problem => parse (token.down lines) problem
  | resolve token problem => resolve (token.down lines) problem
  | runtime token problem => runtime (token.down lines) problem
  | output problem => output problem

section

variable (lines : Nat) (moved : Token → Prop) (ids : RefId → RefId → Prop)

/-- Two expressions of the same form. -/
inductive Expr.Alike : Expr → Expr → Prop
  | literal (value : Literal) : Expr.Alike (.literal value) (.literal value)
  | grouping {e e' : Expr} : Expr.Alike e e' → Expr.Alike (.grouping e) (.grouping e')
  | unary {operator : Token} {e e' : Expr} : moved operator → Expr.Alike e e' →
      Expr.Alike (.unary operator e) (.unary (operator.down lines) e')
  | binary {operator : Token} {l l' r r' : Expr} : moved operator → Expr.Alike l l' →
      Expr.Alike r r' → Expr.Alike (.binary l operator r) (.binary l' (operator.down lines) r')
  | logical {operator : Token} {l l' r r' : Expr} : moved operator → Expr.Alike l l' →
      Expr.Alike r r' → Expr.Alike (.logical l operator r) (.logical l' (operator.down lines) r')
  | var {id id' : RefId} {name : Token} : moved name → ids id id' →
      Expr.Alike (.var id name) (.var id' (name.down lines))
  | assign {id id' : RefId} {name : Token} {e e' : Expr} : moved name → ids id id' →
      Expr.Alike e e' → Expr.Alike (.assign id name e) (.assign id' (name.down lines) e')
  | call {paren : Token} {e e' : Expr} {es es' : List Expr} : moved paren → Expr.Alike e e' →
      List.Forall₂ Expr.Alike es es' →
      Expr.Alike (.call e paren es) (.call e' (paren.down lines) es')
  | get {name : Token} {e e' : Expr} : moved name → Expr.Alike e e' →
      Expr.Alike (.get e name) (.get e' (name.down lines))
  | set {name : Token} {o o' e e' : Expr} : moved name → Expr.Alike o o' → Expr.Alike e e' →
      Expr.Alike (.set o name e) (.set o' (name.down lines) e')
  | thisRef {id id' : RefId} {keyword : Token} : moved keyword → ids id id' →
      Expr.Alike (.thisRef id keyword) (.thisRef id' (keyword.down lines))
  | superRef {id id' : RefId} {keyword method : Token} : moved keyword → moved method →
      ids id id' →
      Expr.Alike (.superRef id keyword method)
        (.superRef id' (keyword.down lines) (method.down lines))

inductive Superclass.Alike : Superclass → Superclass → Prop
  | mk {id id' : RefId} {name : Token} : moved name → ids id id' →
      Superclass.Alike ⟨id, name⟩ ⟨id', name.down lines⟩

mutual

/-- Two statements of the same form. -/
inductive Stmt.Alike : Stmt → Stmt → Prop
  | expression {e e' : Expr} : e.Alike lines moved ids e' →
      Stmt.Alike (.expression e) (.expression e')
  | print {e e' : Expr} : e.Alike lines moved ids e' → Stmt.Alike (.print e) (.print e')
  | var {name : Token} {e e' : Option Expr} : moved name →
      Option.Rel (Expr.Alike lines moved ids) e e' →
      Stmt.Alike (.var name e) (.var (name.down lines) e')
  | block {ss ss' : List Stmt} : List.Forall₂ Stmt.Alike ss ss' →
      Stmt.Alike (.block ss) (.block ss')
  | ifElse {c c' : Expr} {s s' : Stmt} {o o' : Option Stmt} : c.Alike lines moved ids c' →
      Stmt.Alike s s' → Option.Rel Stmt.Alike o o' → Stmt.Alike (.ifElse c s o) (.ifElse c' s' o')
  | loop {c c' : Expr} {s s' : Stmt} : c.Alike lines moved ids c' → Stmt.Alike s s' →
      Stmt.Alike (.loop c s) (.loop c' s')
  | function {f f' : FunctionDef} : FunctionDef.Alike f f' →
      Stmt.Alike (.function f) (.function f')
  | ret {keyword : Token} {e e' : Option Expr} : moved keyword →
      Option.Rel (Expr.Alike lines moved ids) e e' →
      Stmt.Alike (.ret keyword e) (.ret (keyword.down lines) e')
  | brk {keyword : Token} : moved keyword → Stmt.Alike (.brk keyword) (.brk (keyword.down lines))
  | classDef {name : Token} {s s' : Option Superclass} {fs fs' : List FunctionDef} : moved name →
      Option.Rel (Superclass.Alike lines moved ids) s s' → List.Forall₂ FunctionDef.Alike fs fs' →
      Stmt.Alike (.classDef name s fs) (.classDef (name.down lines) s' fs')

/-- Two functions of the same form. -/
inductive FunctionDef.Alike : FunctionDef → FunctionDef → Prop
  | mk {name : Token} {params : List Token} {ss ss' : List Stmt} : moved name →
      (∀ t ∈ params, moved t) → List.Forall₂ Stmt.Alike ss ss' →
      FunctionDef.Alike ⟨name, params, ss⟩ ⟨name.down lines, params.map (Token.down lines), ss'⟩

end

end

theorem rel_eq_of_eq {α : Type} {a b : Option α} (h : b = a) : Option.Rel Eq a b := by
  subst h
  cases b with
  | none => exact .none
  | some b => exact .some rfl

theorem rel_mono {α β : Type} {R R' : α → β → Prop} (hR : ∀ a b, R a b → R' a b) {a : Option α}
    {b : Option β} (h : Option.Rel R a b) : Option.Rel R' a b := by
  cases h with
  | none => exact .none
  | some h => exact .some (hR _ _ h)

theorem isSome_of_rel {α β : Type} {R : α → β → Prop} {a : Option α} {b : Option β}
    (h : Option.Rel R a b) : b.isSome = a.isSome := by
  cases h <;> rfl

section

variable {lines : Nat} {moved : Token → Prop} {ids : RefId → RefId → Prop} {f f' : FunctionDef}

theorem FunctionDef.Alike.moved_name (h : f.Alike lines moved ids f') : moved f.name := by
  cases h with
  | mk hname _ _ => exact hname

theorem FunctionDef.Alike.name (h : f.Alike lines moved ids f') :
    f'.name = f.name.down lines := by
  cases h
  rfl

theorem FunctionDef.Alike.params (h : f.Alike lines moved ids f') :
    f'.params = f.params.map (Token.down lines) := by
  cases h
  rfl

theorem FunctionDef.Alike.body (h : f.Alike lines moved ids f') :
    List.Forall₂ (Stmt.Alike lines moved ids) f.body f'.body := by
  cases h with
  | mk _ _ hss => exact hss

theorem FunctionDef.Alike.isInitializer (h : f.Alike lines moved ids f') :
    f'.isInitializer = f.isInitializer := by
  rw [FunctionDef.isInitializer, h.name]
  rfl

end

/-! ## More tokens moved, more identities related -/

/-- What is related to the identities of some references still is. -/
def Widens (ids ids' : RefId → RefId → Prop) (references : List Reference) : Prop :=
  ∀ r ∈ references, ∀ id', ids r.id id' → ids' r.id id'

section

variable {ids ids' : RefId → RefId → Prop} {r : Reference} {rs rs' : List Reference}

theorem Widens.left (h : Widens ids ids' (rs ++ rs')) : Widens ids ids' rs := by
  intro r hr
  exact h r (List.mem_append_left _ hr)

theorem Widens.right (h : Widens ids ids' (rs ++ rs')) : Widens ids ids' rs' := by
  intro r hr
  exact h r (List.mem_append_right _ hr)

theorem Widens.tail (h : Widens ids ids' (r :: rs)) : Widens ids ids' rs := by
  intro r' hr'
  exact h r' (List.mem_cons_of_mem _ hr')

theorem Widens.head (h : Widens ids ids' (r :: rs)) : ∀ id', ids r.id id' → ids' r.id id' :=
  h r List.mem_cons_self

end

section

variable {lines : Nat} {moved moved' : Token → Prop} {ids ids' : RefId → RefId → Prop}

mutual

/-- Trees are alike for all identities that correspond to those of their references. -/
theorem Expr.Alike.mono (hmoved : ∀ t, moved t → moved' t) {e e' : Expr}
    (h : e.Alike lines moved ids e') (hids : Widens ids ids' e.references) :
    e.Alike lines moved' ids' e' := by
  cases e with
  | literal value =>
    cases h
    exact .literal value
  | grouping inner =>
    cases h with | grouping h => exact .grouping (h.mono hmoved hids)
  | unary operator right =>
    cases h with | unary ht h => exact .unary (hmoved _ ht) (h.mono hmoved hids)
  | binary left operator right =>
    cases h with
    | binary ht hl hr =>
      have hleft := hl.mono hmoved hids.left
      have hright := hr.mono hmoved hids.right
      exact .binary (hmoved _ ht) hleft hright
  | logical left operator right =>
    cases h with
    | logical ht hl hr =>
      have hleft := hl.mono hmoved hids.left
      have hright := hr.mono hmoved hids.right
      exact .logical (hmoved _ ht) hleft hright
  | var id name =>
    cases h with | var ht h => exact .var (hmoved _ ht) (hids.head _ h)
  | assign id name value =>
    cases h with
    | assign ht h hv => exact .assign (hmoved _ ht) (hids.head _ h) (hv.mono hmoved hids.tail)
  | call callee paren arguments =>
    cases h with
    | call ht hf hes =>
      have hcallee := hf.mono hmoved hids.left
      have harguments := exprs_alike_mono hmoved hes hids.right
      exact .call (hmoved _ ht) hcallee harguments
  | get object name =>
    cases h with | get ht h => exact .get (hmoved _ ht) (h.mono hmoved hids)
  | set object name value =>
    cases h with
    | set ht ho hv =>
      have hobject := ho.mono hmoved hids.left
      have hvalue := hv.mono hmoved hids.right
      exact .set (hmoved _ ht) hobject hvalue
  | thisRef id keyword =>
    cases h with | thisRef ht h => exact .thisRef (hmoved _ ht) (hids.head _ h)
  | superRef id keyword method =>
    cases h with
    | superRef ht hm h => exact .superRef (hmoved _ ht) (hmoved _ hm) (hids.head _ h)
termination_by structural e

theorem exprs_alike_mono (hmoved : ∀ t, moved t → moved' t) {es es' : List Expr}
    (h : List.Forall₂ (Expr.Alike lines moved ids) es es')
    (hids : Widens ids ids' (exprReferences es)) :
    List.Forall₂ (Expr.Alike lines moved' ids') es es' := by
  cases es with
  | nil =>
    cases h
    exact .nil
  | cons e es =>
    cases h with
    | cons he hes =>
      have hfirst := he.mono hmoved hids.left
      exact .cons hfirst (exprs_alike_mono hmoved hes hids.right)
termination_by structural es

end

theorem option_alike_mono (hmoved : ∀ t, moved t → moved' t) {e e' : Option Expr}
    (h : Option.Rel (Expr.Alike lines moved ids) e e')
    (hids : Widens ids ids' (optionReferences e)) :
    Option.Rel (Expr.Alike lines moved' ids') e e' := by
  cases h with
  | none => exact .none
  | some h => exact .some (h.mono hmoved hids)

theorem superclass_alike_mono (hmoved : ∀ t, moved t → moved' t) {c c' : Option Superclass}
    (h : Option.Rel (Superclass.Alike lines moved ids) c c')
    (hids : Widens ids ids' (c.toList.map fun c => ⟨.superclass, c.id, c.name⟩)) :
    Option.Rel (Superclass.Alike lines moved' ids') c c' := by
  cases h with
  | none => exact .none
  | some h =>
    cases h with
    | mk ht h => exact .some (.mk (hmoved _ ht) (hids.head _ h))

mutual

theorem Stmt.Alike.mono (hmoved : ∀ t, moved t → moved' t) {s s' : Stmt}
    (h : s.Alike lines moved ids s') (hids : Widens ids ids' s.references) :
    s.Alike lines moved' ids' s' := by
  cases s with
  | expression value =>
    cases h with | expression h => exact .expression (h.mono hmoved hids)
  | print value =>
    cases h with | print h => exact .print (h.mono hmoved hids)
  | var name initializer =>
    cases h with | var ht h => exact .var (hmoved _ ht) (option_alike_mono hmoved h hids)
  | block body =>
    cases h with | block h => exact .block (stmts_alike_mono hmoved h hids)
  | ifElse condition thenBranch elseBranch? =>
    cases h with
    | ifElse hc ht ho =>
      cases elseBranch? with
      | none =>
        cases ho
        have hcondition := hc.mono hmoved hids.left
        have hthen := ht.mono hmoved hids.right
        exact .ifElse hcondition hthen .none
      | some elseBranch =>
        cases ho with
        | some ho =>
          have hcondition := hc.mono hmoved hids.left.left
          have hthen := ht.mono hmoved hids.left.right
          have helse := ho.mono hmoved hids.right
          exact .ifElse hcondition hthen (.some helse)
  | loop condition body =>
    cases h with
    | loop hc hb =>
      have hcondition := hc.mono hmoved hids.left
      have hbody := hb.mono hmoved hids.right
      exact .loop hcondition hbody
  | function definition =>
    cases h with | function h => exact .function (h.mono hmoved hids)
  | ret keyword value =>
    cases h with | ret ht h => exact .ret (hmoved _ ht) (option_alike_mono hmoved h hids)
  | brk keyword =>
    cases h with | brk ht => exact .brk (hmoved _ ht)
  | classDef name superclass methods =>
    cases h with
    | classDef ht hc hfs =>
      have hclause := superclass_alike_mono hmoved hc hids.left
      have hmethods := methods_alike_mono hmoved hfs hids.right
      exact .classDef (hmoved _ ht) hclause hmethods
termination_by structural s

theorem stmts_alike_mono (hmoved : ∀ t, moved t → moved' t) {ss ss' : List Stmt}
    (h : List.Forall₂ (Stmt.Alike lines moved ids) ss ss')
    (hids : Widens ids ids' (stmtReferences ss)) :
    List.Forall₂ (Stmt.Alike lines moved' ids') ss ss' := by
  cases ss with
  | nil =>
    cases h
    exact .nil
  | cons s ss =>
    cases h with
    | cons hs hss =>
      have hfirst := hs.mono hmoved hids.left
      exact .cons hfirst (stmts_alike_mono hmoved hss hids.right)
termination_by structural ss

theorem FunctionDef.Alike.mono (hmoved : ∀ t, moved t → moved' t) {f f' : FunctionDef}
    (h : f.Alike lines moved ids f') (hids : Widens ids ids' f.references) :
    f.Alike lines moved' ids' f' := by
  cases f with
  | mk name params body =>
    cases h with
    | mk ht hps hss =>
      have hparams : ∀ t ∈ params, moved' t := fun t ht => hmoved t (hps t ht)
      exact .mk (hmoved _ ht) hparams (stmts_alike_mono hmoved hss hids)
termination_by structural f

theorem methods_alike_mono (hmoved : ∀ t, moved t → moved' t) {fs fs' : List FunctionDef}
    (h : List.Forall₂ (FunctionDef.Alike lines moved ids) fs fs')
    (hids : Widens ids ids' (methodReferences fs)) :
    List.Forall₂ (FunctionDef.Alike lines moved' ids') fs fs' := by
  cases fs with
  | nil =>
    cases h
    exact .nil
  | cons f fs =>
    cases h with
    | cons hf hfs =>
      have hfirst := hf.mono hmoved hids.left
      exact .cons hfirst (methods_alike_mono hmoved hfs hids.right)
termination_by structural fs

end

end

end Lox
