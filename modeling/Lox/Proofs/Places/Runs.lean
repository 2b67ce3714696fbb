import Lox.Proofs.Alike.Machines
import Lox.Proofs.Places.Trees
import Lox.Proofs.Run.Calls
import Lox.Proofs.Run.Rounds

set_option autoImplicit false

/-! # The tokens that a run cites

A run finds the tokens at which it can stop in the tree and in the functions and classes of the
machine (`Machine.Written`). What is known of all these is known of the token of every runtime error,
with one exception: where the machine itself looks for a `this` that is not there, it cites a token
that nobody wrote (`Stop.Cites`). That this never happens is another matter. -/

namespace Lox

variable {p : Token → Prop} {α β : Type}

/-! ## Machines -/

/-- All tokens in the methods of a class are as `p` says. -/
def Class.Written (p : Token → Prop) (c : Class) : Prop :=
  ∀ body ∈ c.lineage, ∀ name m, body.methods.find? name = some m → m.definition.Written p

def Value.Written (p : Token → Prop) : Value → Prop
  | .function f => f.definition.Written p
  | .class c => c.Written p
  | .object _ c => c.Written p
  | _ => True

structure Machine.Written (p : Token → Prop) (m : Machine) : Prop where
  values : ∀ frame name v, m.store.lookup? frame name = some v → v.Written p
  fields : ∀ identity name v, fieldOf? m.objects identity name = some v → v.Written p

theorem Class.Written.method? {c : Class} (h : c.Written p) {name : String} {m : Method}
    (hm : c.method? name = some m) : m.definition.Written p := by
  obtain ⟨body, hbody, hfind⟩ := List.exists_of_findSome?_eq_some hm
  exact h body hbody name m hfind

/-- A machine that differs in other things than values. -/
theorem Machine.Written.of_eq {m m' : Machine} (h : m.Written p) (hstore : m'.store = m.store)
    (hobjects : m'.objects = m.objects) : m'.Written p where
  values := by rw [hstore]; exact h.values
  fields := by rw [hobjects]; exact h.fields

/-! ## Steps -/

/-- A runtime error is at a token that is as `p` says, or made up for a `this` that is missing. -/
def Stop.Cites (p : Token → Prop) : Stop → Prop
  | .error (.runtime t problem) =>
    p t ∨ ∃ line, t = .ofName "this" line ∧ problem = .undefinedVariable "this"
  | .error (.output _) | .impossible | .outOfFuel => True
  | .error _ => False

/-- A step that adds nothing to what is known of a machine, and stops at a token of it. -/
def Eval.Cites (p : Token → Prop) (x : Eval α) (P : α → Prop) : Prop :=
  ∀ m : Machine, m.Written p →
    match x m with
    | .ok a m' => m'.Written p ∧ P a
    | .error stop m' => m'.Written p ∧ stop.Cites p

namespace Eval.Cites

variable {x : Eval α} {P : α → Prop}

theorem pure {a : α} (h : P a) : Cites p (Pure.pure a) P := fun _ hm => ⟨hm, h⟩

theorem throw {stop : Stop} (h : stop.Cites p) :
    Cites p (MonadExcept.throw stop : Eval α) P := fun _ hm => ⟨hm, h⟩

theorem bind {k : α → Eval β} {Q : β → Prop} (hx : Cites p x P)
    (hk : ∀ a, P a → Cites p (k a) Q) : Cites p (x >>= k) Q := by
  intro m hm
  have hx := hx m hm
  simp only [Bind.bind, EStateM.bind]
  cases hrun : x m with
  | error stop m' =>
    rw [hrun] at hx
    exact hx
  | ok a m' =>
    rw [hrun] at hx
    exact hk a hx.2 m' hx.1

theorem map {f : α → β} {Q : β → Prop} (hx : Cites p x P) (h : ∀ a, P a → Q (f a)) :
    Cites p (f <$> x) Q :=
  hx.bind fun a ha => .pure (h a ha)

/-- A step that looks at the machine first. -/
theorem get {k : Machine → Eval α} (h : ∀ m : Machine, m.Written p → Cites p (k m) P) :
    Cites p (MonadState.get >>= k) P := fun m hm => h m hm m hm

theorem within (hx : Cites p x P) (chain : Chain) : Cites p (Eval.within chain x) P := by
  intro m hm
  have hx := hx { m with chain } (hm.of_eq rfl rfl)
  unfold Eval.within
  cases hrun : x { m with chain } with
  | error stop m' =>
    rw [hrun] at hx
    exact ⟨hx.1.of_eq rfl rfl, hx.2⟩
  | ok a m' =>
    rw [hrun] at hx
    exact ⟨hx.1.of_eq rfl rfl, hx.2⟩

theorem mapM {f : β → Eval α} {bs : List β} (h : ∀ b ∈ bs, Cites p (f b) P) :
    Cites p (bs.mapM f) fun as => ∀ a ∈ as, P a := by
  induction bs with
  | nil =>
    rw [List.mapM_nil]
    exact .pure (List.forall_mem_nil _)
  | cons b bs ih =>
    rw [List.mapM_cons]
    obtain ⟨hb, hbs⟩ := List.forall_mem_cons.1 h
    refine hb.bind fun a ha => ?_
    refine (ih hbs).bind fun as has => ?_
    exact .pure (List.forall_mem_cons.2 ⟨ha, has⟩)

end Eval.Cites

/-! ## Steps of the machine -/

namespace Eval

variable {P : α → Prop} {t : Token}

theorem raise_cites (ht : p t) (problem : RuntimeProblem) :
    Cites p (raise t problem : Eval α) P :=
  .throw (.inl ht)

theorem orUndefined_cites (ht : p t) {o : Option α} (ho : ∀ a, o = some a → P a) :
    Cites p (orUndefined t o) P := by
  cases o with
  | none => exact raise_cites ht _
  | some a => exact .pure (ho a rfl)

/-- The token of a `this` that the machine looks for itself is made up. -/
theorem orUndefined_this_cites (line : Nat) {o : Option α} (ho : ∀ a, o = some a → P a) :
    Cites p (orUndefined (.ofName "this" line) o) P := by
  cases o with
  | none => exact .throw (.inr ⟨line, rfl, rfl⟩)
  | some a => exact .pure (ho a rfl)

theorem bindIn_cites (frame : FrameId) (name : String) {v : Value} (hv : v.Written p) :
    Cites p (bindIn frame name v) fun _ => True := by
  refine fun m hm => ⟨⟨fun other key w hw => ?_, hm.fields⟩, trivial⟩
  rcases Store.lookup?_of_bindIn m.store frame hw with ⟨-, -, rfl⟩ | hw
  · exact hv
  · exact hm.values other key w hw

theorem define_cites (name : String) {v : Value} (hv : v.Written p) :
    Cites p (define name v) fun _ => True := by
  rintro ⟨store, objects, nextIdentity, chain, distances, output, clock⟩ hm
  cases chain with
  | nil => exact ⟨hm, trivial⟩
  | cons frame _ => exact bindIn_cites frame name hv _ hm

theorem lookUp_cites (id : RefId) (ht : p t) : Cites p (lookUp id t) (Value.Written p) := by
  refine .get fun m hm => orUndefined_cites ht fun v hv => ?_
  have hfound : ∃ frame, m.store.lookup? frame t.lexeme = some v := by
    split at hv
    · exact Store.lookup?_of_getAt? hv
    · exact Store.lookup?_of_get? hv
  obtain ⟨frame, hv⟩ := hfound
  exact hm.values _ _ _ hv

theorem assign_cites (id : RefId) (ht : p t) {v : Value} (hv : v.Written p) :
    Cites p (assign id t v) fun _ => True :=
  .get fun _ _ => (orUndefined_cites (P := fun _ => True) ht fun _ _ => trivial).bind
    fun frame _ => bindIn_cites frame _ hv

theorem assignInnermost_cites (ht : p t) {v : Value} (hv : v.Written p) :
    Cites p (assignInnermost t v) fun _ => True :=
  .get fun _ _ => (orUndefined_cites (P := fun _ => True) ht fun _ _ => trivial).bind
    fun frame _ => bindIn_cites frame _ hv

theorem openScope_cites (outer : Chain) {bindings : List (String × Value)}
    (hb : ∀ b ∈ bindings, b.2.Written p) : Cites p (openScope outer bindings) fun _ => True := by
  refine fun m hm => ⟨⟨fun frame name v hv => ?_, hm.fields⟩, trivial⟩
  have hv : ((m.store.openIn outer).2.bindAll m.store.frames.size bindings).lookup? frame name =
      some v := hv
  rcases Store.lookup?_of_bindAll hv with ⟨-, hmem⟩ | hv
  · exact hb _ hmem
  · rw [Store.lookup?_openIn] at hv
    exact hm.values frame name v hv

theorem freshIdentity_cites : Cites p freshIdentity fun _ => True :=
  fun _ hm => ⟨hm.of_eq rfl rfl, trivial⟩

theorem close_cites {f : FunctionDef} (hf : f.Written p) :
    Cites p (close f) (Value.Written p) := by
  refine freshIdentity_cites.bind fun _ _ => .get fun _ _ => ?_
  exact .pure (show Value.Written p (.function _) from hf)

theorem bindMethod_cites {f : Method} (hf : f.definition.Written p) {object : Value}
    (ho : object.Written p) : Cites p (bindMethod f object) fun g => g.definition.Written p := by
  refine (openScope_cites f.chain (List.forall_mem_singleton.2 ho)).bind fun _ _ => ?_
  refine freshIdentity_cites.bind fun _ _ => ?_
  exact .pure hf

theorem newObject_cites {c : Class} (hc : c.Written p) :
    Cites p (newObject c) (Value.Written p) := by
  refine fun m hm => ⟨⟨hm.values, fun identity name v hv => ?_⟩, hc⟩
  refine hm.fields identity name v ?_
  have hv : fieldOf? (m.objects.push []) identity name = some v := hv
  unfold fieldOf? at hv ⊢
  rw [Array.getElem?_push] at hv
  split at hv
  · cases hv
  · exact hv

theorem getProperty_cites (identity : Nat) {c : Class} (hc : c.Written p) (ht : p t) :
    Cites p (getProperty identity c t) (Value.Written p) := by
  refine .get fun m hm => ?_
  cases hfield : m.objects[identity]?.bind (·.find? t.lexeme) with
  | some v => exact .pure (hm.fields identity t.lexeme v hfield)
  | none =>
    cases hmethod : c.method? t.lexeme with
    | none => exact raise_cites ht _
    | some f =>
      have hobject : (Value.object identity c).Written p := hc
      exact (bindMethod_cites (hc.method? hmethod) hobject).map fun _ h => h

theorem setField_cites (identity : Nat) (name : String) {v : Value} (hv : v.Written p) :
    Cites p (setField identity name v) fun _ => True := by
  refine fun m hm => ⟨⟨hm.values, fun other key w hw => ?_⟩, trivial⟩
  have hw : fieldOf? (m.objects.modify identity (·.bind name v)) other key = some w := hw
  rw [fieldOf?_modify] at hw
  split at hw
  · cases hw
    exact hv
  · exact hm.fields other key w hw

theorem write_cites (chunk : String) : Cites p (write chunk) fun _ => True := by
  refine .get fun m _ => ?_
  split
  · exact fun m hm => ⟨hm.of_eq rfl rfl, trivial⟩
  · exact .throw trivial

theorem printLine_cites (text : String) : Cites p (printLine text) fun _ => True :=
  (write_cites text).bind fun _ _ => write_cites "\n"

theorem flush_cites : Cites p flush fun _ => True := by
  refine .get fun m _ => ?_
  split
  · exact .throw trivial
  · exact .pure trivial

theorem readClock_cites : Cites p readClock (Value.Written p) :=
  fun _ hm => ⟨hm.of_eq rfl rfl, trivial⟩

end Eval

open Eval

/-! ## Operators, calls and classes -/

theorem Value.Simple.written {v : Value} (h : v.Simple) : v.Written p := by
  cases v <;> trivial

section

variable {t : Token} (ht : p t)

include ht

theorem applyUnary_cites (v : Value) : Cites p (applyUnary t v) (Value.Written p) := by
  unfold applyUnary
  split <;> first | exact .pure trivial | exact raise_cites ht _

theorem applyBinary_cites (a b : Value) : Cites p (applyBinary t a b) (Value.Written p) := by
  unfold applyBinary
  split
  case h_6 =>
    split
    · next hv => exact .pure (simple_of_arithmetic? hv).written
    · exact raise_cites ht _
  all_goals first | exact .pure trivial | exact raise_cites ht _

end

def Flow.Written (p : Token → Prop) : Flow → Prop
  | .returned v => v.Written p
  | _ => True

section

variable {run : Stmt → Eval Flow} (hrun : ∀ s : Stmt, s.Written p → Cites p (run s) (Flow.Written p))

include hrun

theorem runAll_cites {ss : List Stmt} (h : StmtsWritten p ss) :
    Cites p (runAll run ss) (Flow.Written p) := by
  induction ss with
  | nil => exact .pure trivial
  | cons s ss ih =>
    refine (hrun s h.1).bind fun flow hflow => ?_
    cases flow with
    | normal => exact ih h.2
    | returned v => exact .pure hflow
    | broken => exact .pure trivial

theorem callFunction_cites {f : Closure} (hf : f.definition.Written p) {arguments : List Value}
    (ha : ∀ v ∈ arguments, v.Written p) :
    Cites p (callFunction run f arguments) (Value.Written p) := by
  refine (openScope_cites f.chain fun b hb => ha _ (List.of_mem_zip hb).2).bind fun chain _ => ?_
  refine ((runAll_cites hrun hf.body).within chain).bind fun flow hflow => ?_
  unfold result
  split
  · refine .get fun m hm => orUndefined_this_cites _ fun v hv => ?_
    obtain ⟨frame, hv⟩ := Store.lookup?_of_getAt? hv
    exact hm.values _ _ _ hv
  · cases flow with
    | normal => exact .pure trivial
    | returned v => exact .pure hflow
    | broken => exact .throw trivial

theorem construct_cites {c : Class} (hc : c.Written p) {arguments : List Value}
    (ha : ∀ v ∈ arguments, v.Written p) : Cites p (construct run c arguments) (Value.Written p) := by
  refine (newObject_cites hc).bind fun object hobject => ?_
  cases hmethod : c.method? initializerName with
  | none => exact .pure hobject
  | some f =>
    refine (bindMethod_cites (hc.method? hmethod) hobject).bind fun g hg => ?_
    exact (callFunction_cites hrun hg ha).bind fun _ _ => .pure hobject

theorem applyCall_cites {t : Token} (ht : p t) {callee : Value} (hf : callee.Written p)
    {arguments : List Value} (ha : ∀ v ∈ arguments, v.Written p) :
    Cites p (applyCall run t callee arguments) (Value.Written p) := by
  unfold applyCall
  cases callee.arity? with
  | none => exact raise_cites ht _
  | some arity =>
    dsimp only
    split
    · exact raise_cites ht _
    · cases callee with
      | function f => exact callFunction_cites hrun hf ha
      | «class» c => exact construct_cites hrun hf ha
      | native f =>
        cases f
        exact readClock_cites
      | _ => exact raise_cites ht _

end

theorem superclassValue_cites {s : Superclass} (hs : p s.name) :
    Cites p (superclassValue s) (Class.Written p) := by
  refine (lookUp_cites s.id hs).bind fun v hv => ?_
  cases v with
  | «class» c => exact .pure hv
  | _ => exact raise_cites hs _

theorem declareClass_cites {name : Token} (hname : p name) {superclass : Option Superclass}
    (hs : ∀ s ∈ superclass, p s.name) {methods : List FunctionDef}
    (hmethods : MethodsWritten p methods) :
    Cites p (declareClass name superclass methods) fun _ => True := by
  have hmake : ∀ (chain : Chain) {parents : List ClassBody},
      (∀ body ∈ parents, ∀ key m, body.methods.find? key = some m → m.definition.Written p) →
        Cites p (do
          let identity ← freshIdentity
          let body : ClassBody := ⟨identity, name.lexeme, methodsOf chain methods⟩
          assignInnermost name (.class ⟨body, parents⟩)) fun _ => True := by
    refine fun chain parents hparents => freshIdentity_cites.bind fun identity _ =>
      assignInnermost_cites hname (show Class.Written p _ from ?_)
    refine List.forall_mem_cons.2 ⟨fun key m hm => ?_, hparents⟩
    exact methodsWritten_iff.1 hmethods _ (of_find?_methodsOf hm).2
  unfold declareClass
  cases superclass with
  | none =>
    exact (define_cites _ (v := .nil) trivial).bind fun _ _ =>
      .get fun m _ => hmake m.chain (List.forall_mem_nil _)
  | some s =>
    simp only [bind_map_left]
    refine (superclassValue_cites (hs s rfl)).bind fun parent hparent => ?_
    refine (define_cites _ (v := .nil) trivial).bind fun _ _ => ?_
    refine .get fun m _ => ?_
    have hsuper : ∀ b ∈ [("super", Value.class parent)], b.2.Written p :=
      List.forall_mem_singleton.2 hparent
    exact (openScope_cites _ hsuper).bind fun chain _ => hmake chain hparent

theorem superMethod_cites (id : RefId) {keyword method : Token} (hkeyword : p keyword)
    (hmethod : p method) : Cites p (superMethod id keyword method) (Value.Written p) := by
  refine .get fun m hm => ?_
  cases m.distances.get? id with
  | none => exact raise_cites hkeyword _
  | some distance =>
    have hfound : ∀ (d : Nat) (name : String) v, m.store.getAt? m.chain d name = some v →
        v.Written p := by
      intro d name v hv
      obtain ⟨frame, hv⟩ := Store.lookup?_of_getAt? hv
      exact hm.values _ _ _ hv
    refine (orUndefined_cites hkeyword fun v hv => hfound _ _ v hv).bind fun parent hparent => ?_
    cases distance with
    | zero => exact .throw trivial
    | succ inner =>
      refine (orUndefined_this_cites _ fun v hv => hfound _ _ v hv).bind fun object hobject => ?_
      cases parent with
      | «class» c =>
        cases object with
        | object identity origin =>
          cases hfind : c.method? method.lexeme with
          | none =>
            simp only [hfind]
            exact raise_cites hmethod _
          | some f =>
            simp only [hfind]
            exact (bindMethod_cites (Class.Written.method? hparent hfind) hobject).map fun _ h => h
        | _ => exact raise_cites hmethod _
      | _ => exact raise_cites hmethod _

/-! ## Expressions and statements -/

section

variable {ev : Expr → Eval Value} {run : Stmt → Eval Flow}
  (hev : ∀ e : Expr, e.Written p → Cites p (ev e) (Value.Written p))
  (hrun : ∀ s : Stmt, s.Written p → Cites p (run s) (Flow.Written p))

include hev hrun

theorem evaluateRound_cites {e : Expr} (h : e.Written p) :
    Cites p (evaluateRound ev run e) (Value.Written p) := by
  cases e with
  | literal value => exact .pure value.simple_toValue.written
  | grouping inner => exact hev inner h
  | unary operator right =>
    obtain ⟨hoperator, hright⟩ := h
    refine (hev right hright).bind fun v _ => ?_
    exact applyUnary_cites hoperator v
  | binary left operator right =>
    obtain ⟨hoperator, hleft, hright⟩ := h
    refine (hev left hleft).bind fun a _ => ?_
    refine (hev right hright).bind fun b _ => ?_
    exact applyBinary_cites hoperator a b
  | logical left operator right =>
    obtain ⟨-, hleft, hright⟩ := h
    refine (hev left hleft).bind fun a ha => ?_
    cases shortCircuits operator a with
    | true => exact .pure ha
    | false => exact hev right hright
  | var id name => exact lookUp_cites id h
  | thisRef id keyword => exact lookUp_cites id h
  | superRef id keyword method => exact superMethod_cites id h.1 h.2
  | assign id name value =>
    obtain ⟨hname, hvalue⟩ := h
    refine (hev value hvalue).bind fun v hv => ?_
    refine (assign_cites id hname hv).bind fun _ _ => ?_
    exact .pure hv
  | call callee paren arguments =>
    obtain ⟨hparen, hcallee, harguments⟩ := h
    refine (hev callee hcallee).bind fun f hf => ?_
    have hall := Cites.mapM fun e he => hev e (exprsWritten_iff.1 harguments e he)
    refine hall.bind fun vs hvs => ?_
    exact applyCall_cites hrun hparen hf hvs
  | get object name =>
    obtain ⟨hname, hobject⟩ := h
    refine (hev object hobject).bind fun v hv => ?_
    cases v with
    | object identity c => exact getProperty_cites identity hv hname
    | _ => exact raise_cites hname _
  | set object name value =>
    obtain ⟨hname, hobject, hvalue⟩ := h
    refine (hev object hobject).bind fun target _ => ?_
    cases target with
    | object identity c =>
      refine (hev value hvalue).bind fun v hv => ?_
      refine (setField_cites identity _ hv).bind fun _ _ => ?_
      exact .pure hv
    | _ => exact raise_cites hname _

theorem executeRound_cites {s : Stmt} (h : s.Written p) :
    Cites p (executeRound ev run s) (Flow.Written p) := by
  cases s with
  | expression value =>
    refine (hev value h).bind fun v _ => ?_
    exact .pure trivial
  | print value =>
    refine (hev value h).bind fun v _ => ?_
    refine (printLine_cites v.text).bind fun _ _ => ?_
    exact .pure trivial
  | var name initializer =>
    cases initializer with
    | none =>
      refine (define_cites _ (v := .nil) trivial).bind fun _ _ => ?_
      exact .pure trivial
    | some initializer =>
      refine (hev initializer h.2).bind fun v hv => ?_
      refine (define_cites _ hv).bind fun _ _ => ?_
      exact .pure trivial
  | block body =>
    refine .get fun m _ => ?_
    refine (openScope_cites m.chain (List.forall_mem_nil _)).bind fun chain _ => ?_
    exact (runAll_cites hrun h).within chain
  | ifElse condition thenBranch elseBranch =>
    cases elseBranch with
    | none =>
      refine (hev condition h.1).bind fun v _ => ?_
      cases v.isTruthy with
      | true => exact hrun thenBranch h.2
      | false => exact .pure trivial
    | some elseBranch =>
      refine (hev condition h.1).bind fun v _ => ?_
      cases v.isTruthy with
      | true => exact hrun thenBranch h.2.1
      | false => exact hrun elseBranch h.2.2
  | loop condition body =>
    refine (hev condition h.1).bind fun v _ => ?_
    cases v.isTruthy with
    | false => exact .pure trivial
    | true =>
      refine (hrun body h.2).bind fun flow hflow => ?_
      cases flow with
      | normal => exact hrun (.loop condition body) h
      | broken => exact .pure trivial
      | returned v => exact .pure hflow
  | function definition =>
    refine (close_cites h).bind fun v hv => ?_
    refine (define_cites _ hv).bind fun _ _ => ?_
    exact .pure trivial
  | ret keyword value =>
    cases value with
    | none => exact .pure trivial
    | some value =>
      refine (hev value h.2).bind fun v hv => ?_
      exact .pure hv
  | brk keyword => exact .pure trivial
  | classDef name superclass methods =>
    obtain ⟨hname, hsuperclass, hmethods⟩ := h
    refine (declareClass_cites hname hsuperclass hmethods).bind fun _ _ => ?_
    exact .pure trivial

end

theorem evaluate_execute_cites (fuel : Nat) :
    (∀ e : Expr, e.Written p → Cites p (evaluate fuel e) (Value.Written p)) ∧
      ∀ s : Stmt, s.Written p → Cites p (execute fuel s) (Flow.Written p) :=
  evaluate_execute_induction (P := fun e x => e.Written p → Cites p x (Value.Written p))
    (Q := fun s x => s.Written p → Cites p x (Flow.Written p))
    ⟨fun _ _ => .throw trivial, fun _ _ => .throw trivial⟩
    (fun _ _ hev hrun => ⟨fun _ => evaluateRound_cites hev hrun, fun _ => executeRound_cites hev hrun⟩)
    fuel

/-- Evaluating an expression stops at tokens of the expression or of the machine only. -/
theorem evaluate_cites (fuel : Nat) {e : Expr} (h : e.Written p) :
    Cites p (evaluate fuel e) (Value.Written p) :=
  (evaluate_execute_cites fuel).1 e h

theorem runProgram_cites (fuel : Nat) {program : List Stmt} (h : StmtsWritten p program) :
    Cites p (runProgram fuel program) fun _ => True := by
  refine (runAll_cites (evaluate_execute_cites fuel).2 h).bind fun flow _ => ?_
  cases flow with
  | normal => exact flush_cites
  | _ => exact .throw trivial

end Lox
