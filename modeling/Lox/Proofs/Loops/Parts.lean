import Lox.Proofs.Loops.Evaluation
import Lox.Proofs.Run.Parts
import Lox.Proofs.Run.Reaching

set_option autoImplicit false

/-! # The parts of a run without idle frames

Where a run begins that follows a direct one, there is a machine without the idle frames to run on.
There is one where any part of the run begins (`Point.Contains.thins`). -/

namespace Lox

open Eval Tables

variable {T : Tables} {opened : List Bool} {chain chain' : Chain}

/-! ## Tasks -/

/-- A task stands in a chain of frames: its text is checked for the scopes of these frames, or what it
    calls and the arguments are the same as others but for idle frames. -/
def Task.Thins (T : Tables) (opened : List Bool) (chain chain' : Chain) : Task → Prop
  | .evaluate _ e => ∃ scopes : Scopes, chain.Thins opened chain' scopes.marks ∧
      ∀ r ∈ e.references, T.Knows ⟨r, scopes⟩
  | .evaluateAll _ es => ∃ scopes : Scopes, chain.Thins opened chain' scopes.marks ∧
      ∀ r ∈ exprReferences es, T.Knows ⟨r, scopes⟩
  | .execute _ s => ∃ (scopes : Scopes) (inFunction inLoop : Bool),
      chain.Thins opened chain' scopes.marks ∧ s.Checked T.Knows scopes inFunction inLoop ∧
        (s.declares = true → scopes.idle = false)
  | .runAll _ ss => ∃ (scopes : Scopes) (inFunction inLoop : Bool),
      chain.Thins opened chain' scopes.marks ∧ CheckedStmts T.Knows scopes inFunction inLoop ss ∧
        ∀ s ∈ ss, s.declares = true → scopes.idle = false
  | .call _ f vs => (∃ f', f.Thins T opened f') ∧
      ∃ vs', List.Forall₂ (Value.Thins T opened) vs vs'
  | .construct _ c vs => (∃ c', c.Under (T.correspondence opened) c') ∧
      ∃ vs', List.Forall₂ (Value.Thins T opened) vs vs'
  | .print _ => True

/-- A point of a run, with the chain of a machine without the idle frames. -/
structure Point.Thins (T : Tables) (opened : List Bool) (chain' : Chain) (p : Point) : Prop where
  machine : ∃ m', p.2.Thins T opened p.2.chain chain' m'
  task : p.1.Thins T opened p.2.chain chain'

/-! ## Behind a step -/

section

variable {m m' m₁ : Machine} {fuel : Nat} {α β : Type} {R : List Bool → α → β → Prop}

/-- A machine without the idle frames behind a step, and the same of its result. -/
theorem Tables.Follows.of_ok {x : Eval α} {y : Eval β} (h : T.Follows opened chain chain' R x y)
    (hm : m.Thins T opened chain chain' m') {a : α} (hx : x m = .ok a m₁) :
    ∃ opened' b m₁', opened <+: opened' ∧ R opened' a b ∧ m₁.Thins T opened' chain chain' m₁' := by
  have hends := h m m' hm
  rw [hx] at hends
  generalize y m' = r' at hends
  cases hends with
  | ok hle hb hm₁ => exact ⟨_, _, _, hle, hb, hm₁⟩

variable {scopes : Scopes} (hm : m.Thins T opened m.chain chain' m')
  (hchain : m.chain.Thins opened chain' scopes.marks)

include hm hchain

theorem evaluated_thins {e : Expr} (hk : ∀ r ∈ e.references, T.Knows ⟨r, scopes⟩) {v : Value}
    (hv : evaluate fuel e m = .ok v m₁) :
    ∃ opened' v' m₁', v.Thins T opened' v' ∧ m₁.Thins T opened' m₁.chain chain' m₁' ∧
      m₁.chain.Thins opened' chain' scopes.marks := by
  obtain ⟨opened', v', m₁', hle, hv, hm₁⟩ :=
    ((evaluate_execute_follows fuel).1 hchain hk).of_ok hm hv
  rw [hm₁.chain]
  exact ⟨opened', v', m₁', hv, hm₁, hchain.mono hle⟩

/-- Behind the callee and the arguments of a call. -/
theorem called_thins {e : Expr} {es : List Expr} (hk : ∀ r ∈ e.references, T.Knows ⟨r, scopes⟩)
    (hks : ∀ r ∈ exprReferences es, T.Knows ⟨r, scopes⟩) {v : Value} {vs : List Value}
    {m₂ : Machine} (hv : evaluate fuel e m = .ok v m₁)
    (hvs : es.mapM (evaluate fuel) m₁ = .ok vs m₂) :
    ∃ opened' v' vs' m₂', v.Thins T opened' v' ∧ List.Forall₂ (Value.Thins T opened') vs vs' ∧
      m₂.Thins T opened' m₂.chain chain' m₂' := by
  obtain ⟨opened₁, v', m₁', hle, hv, hm₁⟩ :=
    ((evaluate_execute_follows fuel).1 hchain hk).of_ok hm hv
  have harguments : T.Follows opened₁ m.chain chain'
      (fun opened => List.Forall₂ (Value.Thins T opened)) (es.mapM (evaluate fuel))
      (es.mapM (Direct.evaluate fuel)) :=
    .mapM (fun _ _ _ _ hle hv => hv.further hle) fun e he _ hle' =>
      (evaluate_execute_follows fuel).1 (hchain.mono (hle.trans hle'))
        fun r hr => hks r (mem_exprReferences he hr)
  obtain ⟨opened₂, vs', m₂', hle', hvs, hm₂⟩ := harguments.of_ok hm₁ hvs
  rw [hm₂.chain]
  exact ⟨opened₂, v', vs', m₂', hv.further hle', hvs, hm₂⟩

theorem executed_thins {s : Stmt} {inFunction inLoop : Bool}
    (hs : s.Checked T.Knows scopes inFunction inLoop)
    (hdeclares : s.declares = true → scopes.idle = false) {flow : Flow}
    (hflow : execute fuel s m = .ok flow m₁) :
    ∃ opened' m₁', m₁.Thins T opened' m₁.chain chain' m₁' ∧
      m₁.chain.Thins opened' chain' scopes.marks := by
  obtain ⟨opened', -, m₁', hle, -, hm₁⟩ :=
    ((evaluate_execute_follows fuel).2 hchain hs hdeclares).of_ok hm hflow
  rw [hm₁.chain]
  exact ⟨opened', m₁', hm₁, hchain.mono hle⟩

end

/-! ## Parts -/

namespace Point

theorem Part.thins {p q : Point} (hpart : p.Part q) (hp : p.Thins T opened chain') :
    ∃ opened' chain'', q.Thins T opened' chain'' := by
  obtain ⟨⟨m', hm⟩, hp⟩ := hp
  cases hpart with
  -- parts that begin where the whole begins
  | grouping | operand | object => exact ⟨_, _, ⟨m', hm⟩, hp⟩
  | left | first | target | callee | argument =>
    obtain ⟨scopes, hchain, hk⟩ := hp
    exact ⟨_, _, ⟨m', hm⟩, scopes, hchain, (List.forall_mem_append.1 hk).1⟩
  | assigned =>
    obtain ⟨scopes, hchain, hk⟩ := hp
    exact ⟨_, _, ⟨m', hm⟩, scopes, hchain, fun r hr => hk r (List.mem_cons_of_mem _ hr)⟩
  | expression | printed =>
    obtain ⟨scopes, _, _, hchain, hc, -⟩ := hp
    exact ⟨_, _, ⟨m', hm⟩, scopes, hchain, hc⟩
  | bound =>
    obtain ⟨scopes, _, _, hchain, ⟨-, hc⟩, -⟩ := hp
    rw [← Scopes.marks_put] at hchain
    exact ⟨_, _, ⟨m', hm⟩, _, hchain, hc⟩
  | @condition _ _ _ _ o =>
    obtain ⟨scopes, _, _, hchain, hc, -⟩ := hp
    cases o with
    | none => exact ⟨_, _, ⟨m', hm⟩, scopes, hchain, hc.1⟩
    | some _ => exact ⟨_, _, ⟨m', hm⟩, scopes, hchain, hc.1⟩
  | loopCondition =>
    obtain ⟨scopes, _, _, hchain, hc, -⟩ := hp
    exact ⟨_, _, ⟨m', hm⟩, scopes, hchain, hc.1⟩
  | returned =>
    obtain ⟨scopes, _, _, hchain, hc, -⟩ := hp
    exact ⟨_, _, ⟨m', hm⟩, scopes, hchain, hc.2⟩
  | statement =>
    obtain ⟨scopes, inFunction, inLoop, hchain, hc, hdeclares⟩ := hp
    exact ⟨_, _, ⟨m', hm⟩, scopes, inFunction, inLoop, hchain, hc.1,
      hdeclares _ List.mem_cons_self⟩
  -- parts behind an expression
  | right hv | second hv | value hv | otherArguments hv =>
    obtain ⟨scopes, hchain, hk⟩ := hp
    obtain ⟨hleft, hright⟩ := List.forall_mem_append.1 hk
    obtain ⟨_, _, m₁', -, hm₁, hchain₁⟩ := evaluated_thins hm hchain hleft hv
    exact ⟨_, _, ⟨m₁', hm₁⟩, scopes, hchain₁, hright⟩
  | arguments hv =>
    obtain ⟨scopes, hchain, hk⟩ := hp
    obtain ⟨hcallee, harguments⟩ := List.forall_mem_append.1 hk
    obtain ⟨_, _, m₁', -, hm₁, hchain₁⟩ := evaluated_thins hm hchain hcallee hv
    exact ⟨_, _, ⟨m₁', hm₁⟩, scopes, hchain₁, harguments⟩
  | print hv =>
    obtain ⟨scopes, _, _, hchain, hc, -⟩ := hp
    obtain ⟨_, _, m₁', -, hm₁, -⟩ := evaluated_thins hm hchain hc hv
    exact ⟨_, _, ⟨m₁', hm₁⟩, trivial⟩
  | @thenBranch _ _ _ _ _ o _ hv =>
    obtain ⟨scopes, inFunction, inLoop, hchain, hc, -⟩ := hp
    cases o with
    | none =>
      obtain ⟨_, _, m₁', -, hm₁, hchain₁⟩ := evaluated_thins hm hchain hc.1 hv
      exact ⟨_, _, ⟨m₁', hm₁⟩, scopes, inFunction, inLoop, hchain₁, hc.2.1, by simp [hc.2.2]⟩
    | some _ =>
      obtain ⟨_, _, m₁', -, hm₁, hchain₁⟩ := evaluated_thins hm hchain hc.1 hv
      exact ⟨_, _, ⟨m₁', hm₁⟩, scopes, inFunction, inLoop, hchain₁, hc.2.1.1,
        by simp [hc.2.1.2]⟩
  | elseBranch hv =>
    obtain ⟨scopes, inFunction, inLoop, hchain, hc, -⟩ := hp
    obtain ⟨_, _, m₁', -, hm₁, hchain₁⟩ := evaluated_thins hm hchain hc.1 hv
    exact ⟨_, _, ⟨m₁', hm₁⟩, scopes, inFunction, inLoop, hchain₁, hc.2.2.1, by simp [hc.2.2.2]⟩
  | loopBody hv =>
    obtain ⟨scopes, inFunction, _, hchain, hc, -⟩ := hp
    obtain ⟨_, _, m₁', -, hm₁, hchain₁⟩ := evaluated_thins hm hchain hc.1 hv
    exact ⟨_, _, ⟨m₁', hm₁⟩, scopes, inFunction, true, hchain₁, hc.2.1, by simp [hc.2.2]⟩
  | loopAgain hv _ hbody =>
    obtain ⟨scopes, inFunction, inLoop, hchain, hc, hdeclares⟩ := hp
    obtain ⟨_, _, _, -, hm₁, hchain₁⟩ := evaluated_thins hm hchain hc.1 hv
    obtain ⟨_, m₂', hm₂, hchain₂⟩ :=
      executed_thins hm₁ hchain₁ hc.2.1 (by simp [hc.2.2]) hbody
    exact ⟨_, _, ⟨m₂', hm₂⟩, scopes, inFunction, inLoop, hchain₂, hc, hdeclares⟩
  | @otherStatements _ _ _ s _ hflow =>
    obtain ⟨scopes, inFunction, inLoop, hchain, hc, hdeclares⟩ := hp
    rw [List.forall_mem_cons] at hdeclares
    obtain ⟨_, m₁', hm₁, hchain₁⟩ := executed_thins hm hchain hc.1 hdeclares.1 hflow
    rw [← Scopes.marks_after s] at hchain₁
    refine ⟨_, _, ⟨m₁', hm₁⟩, _, inFunction, inLoop, hchain₁, hc.2, fun s' hs' hd => ?_⟩
    exact (Scopes.idle_after s scopes).trans (hdeclares.2 s' hs' hd)
  -- parts in a scope of their own
  | @block _ m m₁ ss inner hopen =>
    obtain ⟨scopes, inFunction, inLoop, hchain, hc, -⟩ := hp
    by_cases hidle : isTurn ss = true
    · -- the machine without the idle frames stays where it is
      obtain ⟨_, _, hopen', hm₁, hinner⟩ := openScope_idle hm hchain
      cases hopen.symm.trans hopen'
      refine ⟨_, _, ⟨m', { hm₁ with chain := rfl }⟩, _, inFunction, inLoop, ?_, hc,
        fun s hs hd => ?_⟩
      · rwa [Scopes.marks_cons, show Scope.isIdle (.block ss) = true from hidle]
      · exact Bool.noConfusion (hd.symm.trans (not_declares_of_isTurn hidle s hs))
    · rw [Bool.not_eq_true] at hidle
      obtain ⟨_, inner', m₁', -, hinner, hm₁⟩ := (openScope_follows hchain [] .nil).of_ok hm hopen
      refine ⟨_, _, ⟨{ m₁' with chain := inner' }, { hm₁ with chain := rfl, chain' := rfl }⟩, _,
        inFunction, inLoop, ?_, hc, fun _ _ _ => hidle⟩
      rwa [Scopes.marks_cons, show Scope.isIdle (.block ss) = false from hidle]
  | @body _ _ _ f _ _ hopen =>
    obtain ⟨⟨f', hf⟩, vs', hvs⟩ := hp
    obtain ⟨scopes, hchain, hchecked, -⟩ := hf.scopes
    obtain ⟨_, inner', m₁', -, hinner, hm₁⟩ := (openScope_follows hchain _ hvs).of_ok hm hopen
    exact ⟨_, _, ⟨{ m₁' with chain := inner' }, { hm₁ with chain := rfl, chain' := rfl }⟩,
      f.definition.scope :: scopes, true, false, hinner, hchecked.body, fun _ _ _ => rfl⟩
  -- calls
  | call hv hvs _ | construct hv hvs _ =>
    obtain ⟨scopes, hchain, hk⟩ := hp
    obtain ⟨hcallee, harguments⟩ := List.forall_mem_append.1 hk
    obtain ⟨_, v', vs', m₂', hv, hvs, hm₂⟩ := called_thins hm hchain hcallee harguments hv hvs
    cases hv
    exact ⟨_, _, ⟨m₂', hm₂⟩, ⟨_, ‹_›⟩, vs', hvs⟩
  | @initializer _ m _ _ c vs _ method f hobject hmethod hf =>
    obtain ⟨⟨c', hc⟩, vs', hvs⟩ := hp
    obtain ⟨_, object', m₁', hle, hobject, hm₁⟩ := (newObject_follows hc).of_ok hm hobject
    have hfound := (hc.further hle).method? initializerName
    rw [hmethod] at hfound
    generalize c'.method? initializerName = found at hfound
    cases hfound with
    | some hmethod =>
      obtain ⟨_, f', m₂', hle', hf, hm₂⟩ := (bindMethod_follows hmethod hobject).of_ok hm₁ hf
      have hvs' := List.Forall₂.imp (fun _ _ hv => hv.further (hle.trans hle')) hvs
      rw [← hm₂.chain] at hm₂
      exact ⟨_, _, ⟨m₂', hm₂⟩, ⟨f', hf⟩, vs', hvs'⟩

/-- Where any part of such a run begins, there is a machine without the idle frames. -/
theorem Contains.thins {p q : Point} (h : p.Contains q) (hp : p.Thins T opened chain') :
    ∃ opened' chain'', q.Thins T opened' chain'' := by
  induction h with
  | refl => exact ⟨opened, chain', hp⟩
  | tail _ hpart ih =>
    obtain ⟨_, _, hp'⟩ := ih
    exact hpart.thins hp'

/-! ## Where functions are made -/

/-- Parts of parts, but for those in the body of a function that is called. -/
def ContainsHere : Point → Point → Prop :=
  Relation.ReflTransGen fun p q => p.Part q ∧ ∀ fuel f vs, p.1 ≠ .call fuel f vs

theorem ContainsHere.contains {p q : Point} (h : p.ContainsHere q) : p.Contains q := by
  induction h with
  | refl => exact .refl p
  | tail _ hpart ih => exact ih.tail hpart.1

/-- A part that is not in the body of a function that is called begins in the scopes of the whole, or
    inside of them. -/
theorem Part.suffix {p q : Point} (hpart : p.Part q)
    (hcall : ∀ fuel f vs, p.1 ≠ .call fuel f vs) : p.2.chain <:+ q.2.chain := by
  have hback : ∀ {m m' : Machine}, m.Reaches m' → m.chain <:+ m'.chain := fun h =>
    h.chain ▸ List.suffix_refl _
  cases hpart with
  | body => exact absurd rfl (hcall _ _ _)
  | block hopen =>
    cases hopen
    exact List.suffix_cons _ _
  | right hv | second hv | value hv | arguments hv | otherArguments hv | print hv
  | thenBranch hv | elseBranch hv | loopBody hv => exact hback ((evaluate_moves _ _).of_ok hv)
  | loopAgain hv _ hbody =>
    exact hback (((evaluate_moves _ _).of_ok hv).trans ((execute_moves _ _).of_ok hbody))
  | otherStatements hflow => exact hback ((execute_moves _ _).of_ok hflow)
  | call hv hvs | construct hv hvs =>
    have harguments := (Moves.mapM (evaluate_moves _) _).of_ok hvs
    exact hback (((evaluate_moves _ _).of_ok hv).trans harguments)
  | initializer hobject _ hf =>
    exact hback (((newObject_moves _).of_ok hobject).trans ((bindMethod_moves _ _).of_ok hf))
  | _ => exact List.suffix_refl _

/-- A function that is declared in a part of a run, outside of calls, is made in the scopes in which
    the part began, or inside of them. -/
theorem ContainsHere.suffix {p q : Point} (h : p.ContainsHere q) : p.2.chain <:+ q.2.chain := by
  induction h with
  | refl => exact List.suffix_refl _
  | tail _ hpart ih => exact ih.trans (hpart.1.suffix hpart.2)

end Point

end Lox
