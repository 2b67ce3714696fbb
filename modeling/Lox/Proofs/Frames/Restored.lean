import Lox.Proofs.Frames.Sessions
import Lox.Proofs.Run.Binding

set_option autoImplicit false

/-! # The scope is restored

However what is run ends, the scope is afterwards the one that it was before (`Eval.Moves.chain`),
for only `within` enters another, and it leaves it again on every way out. So between the steps of a
session the scope is the global one (`Session.chain_after`), and what the next program declares at
its top becomes global (`Stmt.bindsTo_of_execute`). -/

namespace Lox

open Eval

/-! ## Ways out -/

theorem Eval.Moves.chain {α : Type} {x : Eval α} (hx : x.Moves) (m : Machine) :
    (endOf (x m)).chain = m.chain :=
  (hx.reaches_end m).chain

/-- What is run from a machine comes back to the scope of this machine. -/
structure Machine.ComesBack (m : Machine) : Prop where
  evaluate : ∀ fuel e, (endOf (evaluate fuel e m)).chain = m.chain
  execute : ∀ fuel s, (endOf (execute fuel s m)).chain = m.chain
  runAll : ∀ fuel ss, (endOf (runAll (Lox.execute fuel) ss m)).chain = m.chain
  callFunction : ∀ fuel f vs, (endOf (callFunction (Lox.execute fuel) f vs m)).chain = m.chain
  construct : ∀ fuel c vs, (endOf (construct (Lox.execute fuel) c vs m)).chain = m.chain

theorem Machine.comesBack (m : Machine) : m.ComesBack where
  evaluate fuel e := (evaluate_moves fuel e).chain m
  execute fuel s := (execute_moves fuel s).chain m
  runAll fuel ss := (runAll_moves (execute_moves fuel) ss).chain m
  callFunction fuel f vs := (callFunction_moves (execute_moves fuel) f vs).chain m
  construct fuel c vs := (construct_moves (execute_moves fuel) c vs).chain m

/-! ## Between steps -/

namespace Session

theorem chain_step (session : Session) (s : Step) :
    (session.step s).machine.chain = session.machine.chain := by
  rcases session.step_cases s with ⟨fuel, program, distances, h⟩ | ⟨fuel, e, h⟩ | ⟨_, _, h⟩
  · rw [h]
    exact (runProgram_moves fuel program).chain { session.machine with distances }
  · rw [h]
    exact (evaluate_moves fuel e).chain session.machine
  · rw [h]

theorem chain_after (session : Session) (steps : List Step) :
    (session.after steps).machine.chain = session.machine.chain := by
  induction steps generalizing session with
  | nil => rfl
  | cons s steps ih => exact (ih (session.step s)).trans (session.chain_step s)

end Session

/-! ## Declarations -/

/-- What a declaration that is executed in the global scope binds its name to. -/
inductive Stmt.BindsTo (m : Machine) : Stmt → String → Value → Prop
  | var {name : Token} : BindsTo m (.var name none) name.lexeme .nil
  | initialized {fuel : Nat} {name : Token} {e : Expr} {v : Value} {m' : Machine} :
      evaluate fuel e m = .ok v m' → BindsTo m (.var name (some e)) name.lexeme v
  | function {definition : FunctionDef} {identity : Nat} :
      BindsTo m (.function definition) definition.name.lexeme
        (.function ⟨identity, definition, globalChain, false⟩)
  | class {name : Token} {superclass : Option Superclass} {methods : List FunctionDef}
      {identity : Nat} {chain : Chain} {ancestors : List ClassBody} :
      (superclass = none → chain = globalChain) → chain.getLast? = some 0 →
      BindsTo m (.classDef name superclass methods) name.lexeme
        (.class ⟨⟨identity, name.lexeme, methodsOf chain methods⟩, ancestors⟩)

/-- The name that a declaration declares. -/
def Stmt.declaration? : Stmt → Option String
  | .var name _ | .classDef name _ _ => some name.lexeme
  | .function definition => some definition.name.lexeme
  | _ => none

theorem Eval.of_bind_eq_ok {α β : Type} {x : Eval α} {k : α → Eval β} {m m' : Machine} {b : β}
    (h : (x >>= k) m = .ok b m') : ∃ a m₁, x m = .ok a m₁ ∧ k a m₁ = .ok b m' := by
  simp only [Bind.bind, EStateM.bind] at h
  cases hrun : x m with
  | error stop m₁ =>
    rw [hrun] at h
    cases h
  | ok a m₁ =>
    rw [hrun] at h
    exact ⟨a, m₁, rfl, h⟩

/-- What is defined in the global scope is bound there. -/
theorem lookup?_of_define {name : String} {v : Value} {m m' : Machine}
    (hchain : m.chain = globalChain) (hsize : 0 < m.store.frames.size)
    (h : define name v m = .ok () m') :
    m'.store.lookup? 0 name = some v := by
  injection h with _ h
  subst h
  show (m.store.define m.chain name v).lookup? 0 name = some v
  rw [hchain]
  show (m.store.bindIn 0 name v).lookup? 0 name = some v
  rw [Store.lookup?_bindIn _ _ _ _ _ _ hsize, if_pos ⟨rfl, rfl⟩]

/-- A run closes no frame. -/
theorem Machine.Reaches.frames {m m' : Machine} (h : m.Reaches m') :
    m.store.frames.size ≤ m'.store.frames.size := by
  induction h with
  | trans _ _ ih ih' => exact Nat.le_trans ih ih'
  | within _ _ ih => exact ih
  | bindIn m frame name v => exact Nat.le_of_eq (Store.size_bindIn ..).symm
  | openIn m chain => exact (Array.size_push ..).symm ▸ Nat.le_succ _
  | _ => exact Nat.le_refl _

/-- A machine in the global scope. -/
structure Machine.InGlobal (m : Machine) : Prop where
  chain : m.chain = globalChain
  opened : 0 < m.store.frames.size

/-- What is run in the global scope ends in it. -/
theorem Machine.InGlobal.of_ok {α : Type} {x : Eval α} {a : α} {m m' : Machine} (h : m.InGlobal)
    (hx : x.Moves) (hrun : x m = .ok a m') : m'.InGlobal ∧ m.LosesNone m' :=
  have hreaches := hx.of_ok hrun
  ⟨⟨hreaches.chain.trans h.chain, Nat.lt_of_lt_of_le h.opened hreaches.frames⟩,
    hreaches.losesNone⟩

section

variable {m m' : Machine}

/-- The last steps of declaring a class, behind which its name is bound to it. -/
theorem lookup?_of_makeClass {name : Token} {methods : List FunctionDef} {chain : Chain}
    {ancestors : List ClassBody} (hm : m.InGlobal) (hbound : (m.store.lookup? 0 name.lexeme).isSome)
    (h : (do
      let identity ← freshIdentity
      let body : ClassBody := ⟨identity, name.lexeme, methodsOf chain methods⟩
      assignInnermost name (.class ⟨body, ancestors⟩)) m = .ok () m') :
    ∃ identity, m'.store.lookup? 0 name.lexeme =
      some (.class ⟨⟨identity, name.lexeme, methodsOf chain methods⟩, ancestors⟩) := by
  obtain ⟨identity, m₁, hfresh, h⟩ := of_bind_eq_ok h
  obtain ⟨hm₁, hnone⟩ := hm.of_ok freshIdentity_moves hfresh
  -- the name is bound already, so the assignment finds it in the global frame
  dsimp only at h
  rw [assignInnermost_eq_define hm₁.chain (hnone.names 0 _ hbound)] at h
  exact ⟨identity, lookup?_of_define hm₁.chain hm₁.opened h⟩

/-- A class that is declared in the global scope is bound there. -/
theorem lookup?_of_declareClass {name : Token} {superclass : Option Superclass}
    {methods : List FunctionDef} (hm : m.InGlobal)
    (h : declareClass name superclass methods m = .ok () m') :
    ∃ v, Stmt.BindsTo m (.classDef name superclass methods) name.lexeme v ∧
      m'.store.lookup? 0 name.lexeme = some v := by
  unfold declareClass at h
  cases superclass with
  | none =>
    simp only [pure_bind] at h
    obtain ⟨_, m₁, hdefine, h⟩ := of_bind_eq_ok h
    obtain ⟨hm₁, -⟩ := hm.of_ok (define_moves _ _) hdefine
    have hbound := lookup?_of_define hm.chain hm.opened hdefine
    obtain ⟨_, _, hget, h⟩ := of_bind_eq_ok h
    cases hget
    obtain ⟨identity, h⟩ := lookup?_of_makeClass hm₁ (hbound ▸ rfl) h
    rw [hm₁.chain] at h
    exact ⟨_, .class (fun _ => rfl) rfl, h⟩
  | some s =>
    simp only [bind_map_left] at h
    obtain ⟨parent, m₁, hparent, h⟩ := of_bind_eq_ok h
    obtain ⟨hm₁, -⟩ := hm.of_ok (superclassValue_moves s) hparent
    obtain ⟨_, m₂, hdefine, h⟩ := of_bind_eq_ok h
    obtain ⟨hm₂, -⟩ := hm₁.of_ok (define_moves _ _) hdefine
    have hbound := lookup?_of_define hm₁.chain hm₁.opened hdefine
    obtain ⟨_, _, hget, h⟩ := of_bind_eq_ok h
    cases hget
    obtain ⟨chain, m₃, hopen, h⟩ := of_bind_eq_ok h
    obtain ⟨hm₃, hnone⟩ := hm₂.of_ok (openScope_moves _ _) hopen
    obtain ⟨identity, h⟩ := lookup?_of_makeClass hm₃ (hnone.names 0 _ (hbound ▸ rfl)) h
    have hlast : chain.getLast? = some 0 := by
      injection hopen with hchain _
      rw [← hchain, hm₂.chain]
      rfl
    exact ⟨_, .class nofun hlast, h⟩

/-- A declaration that is executed in the global scope declares something there. -/
theorem Stmt.bindsTo_of_execute {fuel : Nat} {s : Stmt} {name : String}
    (hname : s.declaration? = some name) (hm : m.InGlobal) (h : execute fuel s m = .ok .normal m') :
    ∃ v, s.BindsTo m name v ∧ m'.store.lookup? 0 name = some v := by
  obtain _ | fuel := fuel
  · cases h
  rw [execute_succ] at h
  cases s with
  | var t initializer =>
    cases hname
    cases initializer with
    | none =>
      obtain ⟨_, m₁, hdefine, h⟩ := of_bind_eq_ok h
      cases h
      exact ⟨.nil, .var, lookup?_of_define hm.chain hm.opened hdefine⟩
    | some e =>
      obtain ⟨v, m₁, hv, h⟩ := of_bind_eq_ok h
      obtain ⟨_, m₂, hdefine, h⟩ := of_bind_eq_ok h
      cases h
      obtain ⟨hm₁, -⟩ := hm.of_ok (evaluate_moves fuel e) hv
      exact ⟨v, .initialized hv, lookup?_of_define hm₁.chain hm₁.opened hdefine⟩
  | function definition =>
    cases hname
    obtain ⟨v, m₁, hclose, h⟩ := of_bind_eq_ok h
    obtain ⟨_, m₂, hdefine, h⟩ := of_bind_eq_ok h
    cases h
    obtain ⟨hm₁, -⟩ := hm.of_ok (close_moves definition) hclose
    have hv : v = .function ⟨m.nextIdentity, definition, globalChain, false⟩ := by
      injection hclose with hv _
      rw [← hv, ← hm.chain]
    exact ⟨v, hv ▸ .function, lookup?_of_define hm₁.chain hm₁.opened hdefine⟩
  | classDef t superclass methods =>
    cases hname
    obtain ⟨_, m₁, hclass, h⟩ := of_bind_eq_ok h
    cases h
    exact lookup?_of_declareClass hm hclass
  | _ => cases hname

/-- The statements before another lead to the moment at which it begins. -/
theorem Point.contains_of_runAll {fuel : Nat} {before : List Stmt} (rest : List Stmt)
    (h : runAll (execute fuel) before m = .ok .normal m') :
    Point.Contains (.runAll fuel (before ++ rest), m) (.runAll fuel rest, m') := by
  induction before generalizing m with
  | nil =>
    cases h
    exact .refl _
  | cons s before ih =>
    obtain ⟨flow, m₁, hs, h⟩ := of_bind_eq_ok h
    cases flow with
    | normal => exact (Part.otherStatements hs).contains (ih h)
    | _ => cases h

end

/-- **The scope is restored.** Whatever is run at a moment of a session, and however it ends, the
    scope is afterwards the one that it was before. So whatever became of the steps so far, the
    scope is then the global one, also between the statements of the next program. A declaration
    among these that is executed is bound in the global frame, to what it declares, and its name is
    bound there from then on. -/
theorem scope_is_restored (output : Output) (reading : Nat → Float) :
    (∀ m, Machine.Reachable output reading m → m.ComesBack) ∧
    ∀ steps : List Step,
      let session := (Session.start output reading).after steps
      session.machine.chain = globalChain ∧
      ∀ fuel source, session.staticErrors source = [] →
        ∀ before s rest, (session.parsed source).tree = before ++ s :: rest →
          ∀ m, runAll (execute fuel) before (session.prepared source) = .ok .normal m →
            m.chain = globalChain ∧
            ∀ name m', s.declaration? = some name → execute fuel s m = .ok .normal m' →
              (∃ v, s.BindsTo m name v ∧ m'.store.lookup? 0 name = some v) ∧
              ∀ more, ((session.after (.run fuel source :: more)).machine.store.lookup? 0
                name).isSome := by
  refine ⟨fun m _ => m.comesBack, fun steps => ?_⟩
  intro session
  have hchain : session.machine.chain = globalChain := Session.chain_after _ steps
  obtain ⟨L, hL⟩ := Session.exists_follows output reading steps
  have hprepared : ∀ source, (session.prepared source).InGlobal := fun source =>
    ⟨hchain, hL.frames ▸ (Array.getElem?_eq_some_iff.1 hL.proper.global).1⟩
  refine ⟨hchain, fun fuel source hstatic before s rest htree m hbefore => ?_⟩
  obtain ⟨hm, -⟩ := (hprepared source).of_ok (runAll_moves (execute_moves fuel) before) hbefore
  refine ⟨hm.chain, fun name m' hname hs => ?_⟩
  obtain ⟨v, hbinds, hv⟩ := Stmt.bindsTo_of_execute hname hm hs
  refine ⟨⟨v, hbinds, hv⟩, fun more => ?_⟩
  have hmoment : (session.starting fuel source).Contains (.runAll fuel rest, m') := by
    show Point.Contains (.runAll fuel (session.parsed source).tree, session.prepared source) _
    rw [htree]
    exact (Point.contains_of_runAll (s :: rest) hbefore).tail (.otherStatements hs)
  have hstarts : session.Starts (.run fuel source) (session.starting fuel source) := .run hstatic
  have hended := hstarts.losesNone hmoment
  have hlater := (session.step (.run fuel source)).losesNone_after more
  exact (hended.trans hlater).names 0 name (hv ▸ rfl)

/-- A program that fails in the loop of an initializer. -/
def failing : List UInt8 :=
  bytesOf "class A\x7binit()\x7bwhile(true)\x7bnil();\x7d\x7d\x7dA();"

/-- A program that declares a variable. -/
def declaring : List UInt8 := bytesOf "var g;"

/-- A session in which the one was run and failed. -/
def failed : Session := (Session.start (.start none false) fun _ => 0).after [.run 30 failing]

/-- Whether a program is the declaration of a variable without initializer. -/
def declaresOnly (name : String) : List Stmt → Bool
  | [.var t none] => t.lexeme == name
  | _ => false

theorem scope_is_restored_failing :
    ((Session.start (.start none false) fun _ => 0).run 30 failing).1.status = .runtimeError ∧
      failed.machine.chain = globalChain ∧ failed.staticErrors declaring = [] ∧
      ∀ more, ((failed.after (.run 30 declaring :: more)).machine.store.lookup? 0 "g").isSome := by
  have hfailed : failed = (Session.start (.start none false) fun _ => 0).after [.run 30 failing] :=
    by rw [failed]
  have hstatus : ((Session.start (.start none false) fun _ => 0).run 30 failing).1.status =
      .runtimeError := by decide +kernel
  have hstatic : failed.staticErrors declaring = [] := List.isEmpty_iff.1 (by decide +kernel)
  have htree : declaresOnly "g" (failed.parsed declaring).tree = true := by decide +kernel
  have hsteps := (scope_is_restored (.start none false) fun _ => 0).2 [.run 30 failing]
  rw [← hfailed] at hsteps
  obtain ⟨hchain, hdeclared⟩ := hsteps
  refine ⟨hstatus, hchain, hstatic, ?_⟩
  unfold declaresOnly at htree
  split at htree
  · next t hparsed =>
    rw [← beq_iff_eq.1 htree]
    obtain ⟨-, hg⟩ := hdeclared 30 declaring hstatic [] _ [] hparsed _ rfl
    exact (hg t.lexeme _ rfl rfl).2
  · cases htree

end Lox
