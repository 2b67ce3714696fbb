import Lox.Proofs.Run.Parts
import Lox.Proofs.Run.Receivers

set_option autoImplicit false

/-! # The parts of a sound run

Where the run of an accepted program begins, the moment is sound and the text is checked. So it is
where any part of this run begins (`Point.Contains.placed`), and from the one to the other nothing is
lost, above all no `this`. -/

namespace Lox

open Noted

variable {K : Site → Prop} {μ : Moment} {α : Type}

/-- What is kept by a step that takes notes is kept by the step without notes. -/
theorem Keeps.of_erased {x : Noting α} {y : Eval α} {Q : α → Moment → Prop} (h : Keeps K μ x Q)
    (herases : Erases x y) (hs : μ.Sound K) {a : α} {m : Machine} (hy : y μ.machine = .ok a m) :
    ∃ log, μ.Leads ⟨log, m⟩ ∧ Moment.Sound K ⟨log, m⟩ ∧ Q a ⟨log, m⟩ := by
  have h := h hs
  have herases := herases μ
  rw [hy] at herases
  cases hx : x μ with
  | error stop μ' =>
    rw [hx] at herases
    cases herases
  | ok a' μ' =>
    rw [hx] at herases h
    cases herases
    exact ⟨μ'.log, h⟩

/-! ## Tasks -/

/-- A task belongs where a run stands: its text is checked for the scopes there, or what it calls and
    the arguments fit. -/
def Task.Placed (K : Site → Prop) (μ : Moment) : Task → Prop
  | .evaluate _ e => ∃ running scopes, Stands μ running scopes ∧ ∀ r ∈ e.references, K ⟨r, scopes⟩
  | .evaluateAll _ es =>
    ∃ running scopes, Stands μ running scopes ∧ ∀ r ∈ exprReferences es, K ⟨r, scopes⟩
  | .execute _ s => ∃ running scopes inFunction inLoop,
      Stands μ running scopes ∧ scopes.Open ∧ s.Checked K scopes inFunction inLoop
  | .runAll _ ss => ∃ running scopes inFunction inLoop,
      Stands μ running scopes ∧ scopes.Open ∧ CheckedStmts K scopes inFunction inLoop ss
  | .call _ f vs =>
    f.Fits K μ ∧ (∀ v ∈ vs, v.Fits K μ) ∧ vs.length = f.definition.params.length
  | .construct _ c vs => c.Fits K μ ∧ (∀ v ∈ vs, v.Fits K μ) ∧ vs.length = c.arity
  | .print _ => True

/-- A point of a run in which a log was kept. -/
structure Point.Placed (K : Site → Prop) (log : List Event) (p : Point) : Prop where
  sound : Moment.Sound K ⟨log, p.2⟩
  task : p.1.Placed K ⟨log, p.2⟩

section

variable {fuel : Nat} {e : Expr} {running : Option Closure} {scopes : Scopes} {m m' : Machine}
  {log : List Event}

/-- Behind an expression that was evaluated. -/
theorem evaluated_placed {v : Value} (h : Stands ⟨log, m⟩ running scopes)
    (hk : ∀ r ∈ e.references, K ⟨r, scopes⟩) (hs : Moment.Sound K ⟨log, m⟩)
    (hv : evaluate fuel e m = .ok v m') :
    ∃ log', Moment.Leads ⟨log, m⟩ ⟨log', m'⟩ ∧ Moment.Sound K ⟨log', m'⟩ ∧ v.Fits K ⟨log', m'⟩ :=
  (keeps_evaluate fuel h hk).of_erased (erases_evaluate running fuel e) hs hv

theorem evaluatedAll_placed {es : List Expr} {vs : List Value} (h : Stands ⟨log, m⟩ running scopes)
    (hk : ∀ r ∈ exprReferences es, K ⟨r, scopes⟩) (hs : Moment.Sound K ⟨log, m⟩)
    (hvs : es.mapM (evaluate fuel) m = .ok vs m') :
    ∃ log', Moment.Leads ⟨log, m⟩ ⟨log', m'⟩ ∧ Moment.Sound K ⟨log', m'⟩ ∧
      ∀ v ∈ vs, v.Fits K ⟨log', m'⟩ := by
  have hkeeps : Keeps K ⟨log, m⟩ (es.mapM (Noted.evaluate running fuel))
      fun vs μ' => ∀ v ∈ vs, v.Fits K μ' :=
    .mapM (fun _ _ _ hv hl => hv.leads hl) fun e he μ' hl =>
      keeps_evaluate fuel (h.leads hl) fun r hr => hk r (mem_exprReferences he hr)
  exact hkeeps.of_erased (.mapM (erases_evaluate running fuel) es) hs hvs

/-- Behind a statement that ended normally. -/
theorem executed_placed {s : Stmt} {inFunction inLoop : Bool} (h : Stands ⟨log, m⟩ running scopes)
    (hscopes : scopes.Open) (hc : s.Checked K scopes inFunction inLoop)
    (hs : Moment.Sound K ⟨log, m⟩) (hflow : execute fuel s m = .ok .normal m') :
    ∃ log', Moment.Leads ⟨log, m⟩ ⟨log', m'⟩ ∧ Moment.Sound K ⟨log', m'⟩ ∧
      Stands ⟨log', m'⟩ running (s.after scopes) :=
  (keeps_execute fuel h hscopes hc).of_erased (erases_execute running fuel s) hs hflow

end

/-! ## Parts -/

namespace Point

theorem Part.placed {p q : Point} (hpart : p.Part q) {log : List Event} (hp : p.Placed K log) :
    ∃ log', Moment.Grows ⟨log, p.2⟩ ⟨log', q.2⟩ ∧ q.Placed K log' := by
  obtain ⟨hs, hp⟩ := hp
  cases hpart with
  -- parts that begin where the whole begins
  | grouping | operand | object => exact ⟨log, .refl _, hs, hp⟩
  | left | first | target | callee | argument =>
    obtain ⟨running, scopes, h, hk⟩ := hp
    exact ⟨log, .refl _, hs, running, scopes, h, (forall_known_append hk).1⟩
  | assigned =>
    obtain ⟨running, scopes, h, hk⟩ := hp
    exact ⟨log, .refl _, hs, running, scopes, h, fun r hr => hk r (List.mem_cons_of_mem _ hr)⟩
  | expression | printed =>
    obtain ⟨running, scopes, _, _, h, -, hc⟩ := hp
    exact ⟨log, .refl _, hs, running, scopes, h, hc⟩
  | bound =>
    obtain ⟨running, scopes, _, _, ⟨owner, hm, ho⟩, hscopes, hname, hc⟩ := hp
    exact ⟨log, .refl _, hs, running, _, ⟨owner, hm.put_false hscopes hname, ho⟩, hc⟩
  | @condition _ _ _ _ o =>
    obtain ⟨running, scopes, _, _, h, -, hc⟩ := hp
    cases o with
    | none => exact ⟨log, .refl _, hs, running, scopes, h, hc.1⟩
    | some _ => exact ⟨log, .refl _, hs, running, scopes, h, hc.1⟩
  | loopCondition =>
    obtain ⟨running, scopes, _, _, h, -, hc⟩ := hp
    exact ⟨log, .refl _, hs, running, scopes, h, hc.1⟩
  | returned =>
    obtain ⟨running, scopes, _, _, h, -, hc⟩ := hp
    exact ⟨log, .refl _, hs, running, scopes, h, hc.2⟩
  | statement =>
    obtain ⟨running, scopes, inFunction, inLoop, h, hscopes, hc⟩ := hp
    exact ⟨log, .refl _, hs, running, scopes, inFunction, inLoop, h, hscopes, hc.1⟩
  -- parts behind an expression
  | right hv | second hv | value hv | otherArguments hv =>
    obtain ⟨running, scopes, h, hk⟩ := hp
    obtain ⟨hleft, hright⟩ := forall_known_append hk
    obtain ⟨log', hl, hs', -⟩ := evaluated_placed h hleft hs hv
    exact ⟨log', hl.toGrows, hs', running, scopes, h.leads hl, hright⟩
  | arguments hv =>
    obtain ⟨running, scopes, h, hk⟩ := hp
    obtain ⟨hcallee, harguments⟩ := forall_known_append hk
    obtain ⟨log', hl, hs', -⟩ := evaluated_placed h hcallee hs hv
    exact ⟨log', hl.toGrows, hs', running, scopes, h.leads hl, harguments⟩
  | print hv =>
    obtain ⟨running, scopes, _, _, h, -, hc⟩ := hp
    obtain ⟨log', hl, hs', -⟩ := evaluated_placed h hc hs hv
    exact ⟨log', hl.toGrows, hs', trivial⟩
  | @thenBranch _ _ _ _ _ o _ hv =>
    obtain ⟨running, scopes, inFunction, inLoop, h, hscopes, hc⟩ := hp
    cases o with
    | none =>
      obtain ⟨log', hl, hs', -⟩ := evaluated_placed h hc.1 hs hv
      exact ⟨log', hl.toGrows, hs', running, scopes, inFunction, inLoop, h.leads hl, hscopes, hc.2.1⟩
    | some _ =>
      obtain ⟨log', hl, hs', -⟩ := evaluated_placed h hc.1 hs hv
      exact ⟨log', hl.toGrows, hs', running, scopes, inFunction, inLoop, h.leads hl, hscopes,
        hc.2.1.1⟩
  | elseBranch hv =>
    obtain ⟨running, scopes, inFunction, inLoop, h, hscopes, hc⟩ := hp
    obtain ⟨log', hl, hs', -⟩ := evaluated_placed h hc.1 hs hv
    exact ⟨log', hl.toGrows, hs', running, scopes, inFunction, inLoop, h.leads hl, hscopes,
      hc.2.2.1⟩
  | loopBody hv =>
    obtain ⟨running, scopes, inFunction, _, h, hscopes, hc⟩ := hp
    obtain ⟨log', hl, hs', -⟩ := evaluated_placed h hc.1 hs hv
    exact ⟨log', hl.toGrows, hs', running, scopes, inFunction, true, h.leads hl, hscopes, hc.2.1⟩
  | loopAgain hv _ hbody =>
    obtain ⟨running, scopes, inFunction, inLoop, h, hscopes, hc⟩ := hp
    obtain ⟨_, hl, hs', -⟩ := evaluated_placed h hc.1 hs hv
    obtain ⟨log', hl', hs', -⟩ := executed_placed (h.leads hl) hscopes hc.2.1 hs' hbody
    have hl := hl.trans hl'
    exact ⟨log', hl.toGrows, hs', running, scopes, inFunction, inLoop, h.leads hl, hscopes, hc⟩
  | otherStatements hflow =>
    obtain ⟨running, scopes, inFunction, inLoop, h, hscopes, hc⟩ := hp
    obtain ⟨log', hl, hs', h'⟩ := executed_placed h hscopes hc.1 hs hflow
    exact ⟨log', hl.toGrows, hs', running, _, inFunction, inLoop, h', hscopes.after _, hc.2⟩
  -- parts in a scope of their own
  | @block _ m _ ss _ hopen =>
    obtain ⟨running, scopes, inFunction, inLoop, h, hscopes, hc⟩ := hp
    cases hopen
    have hl := Moment.leads_opening ⟨log, m⟩ (.block ss) []
    have hs' : Moment.Sound K (Moment.opening ⟨log, m⟩ (.block ss) []) :=
      hs.opening (List.forall_mem_nil _)
    exact ⟨_, hl.toGrows.trans (Moment.grows_inChain _ _), hs'.inChain _, running, _, inFunction,
      inLoop, h.block ss, fun s hs => by cases hs; trivial, hc⟩
  | @body _ m _ f vs _ hopen =>
    obtain ⟨hf, hvs, hsize⟩ := hp
    cases hopen
    obtain ⟨scopes, hchecked, h⟩ := stands_call hf hsize rfl
    have hl := Moment.leads_opening ⟨log, m⟩ (.call f.definition)
      ((f.definition.params.map (·.lexeme)).zip vs)
    have hs' : Moment.Sound K (Moment.opening ⟨log, m⟩ (.call f.definition)
        ((f.definition.params.map (·.lexeme)).zip vs)) :=
      hs.opening fun b hb => hvs _ (List.of_mem_zip hb).2
    exact ⟨_, hl.toGrows.trans (Moment.grows_inChain _ _), hs'.inChain _, some f, _, true, false,
      h, fun s hs => by cases hs; trivial, hchecked.body⟩
  -- calls
  | call hv hvs hsize | construct hv hvs hsize =>
    obtain ⟨running, scopes, h, hk⟩ := hp
    obtain ⟨hcallee, harguments⟩ := forall_known_append hk
    obtain ⟨_, hl, hs', hf⟩ := evaluated_placed h hcallee hs hv
    obtain ⟨log', hl', hs', hvs⟩ := evaluatedAll_placed (h.leads hl) harguments hs' hvs
    exact ⟨log', (hl.trans hl').toGrows, hs', hf.leads hl', hvs, hsize⟩
  | @initializer _ m _ _ c vs _ method f hobject hmethod hf =>
    obtain ⟨hc, hvs, hsize⟩ := hp
    obtain ⟨⟨home, found⟩, hhome, rfl⟩ := Option.map_eq_some_iff.1 ((c.map_home? _).trans hmethod)
    cases hobject
    obtain ⟨_, hl, hs', -, hobject⟩ :=
      (keeps_newObject hc).of_erased (erases_lift (Eval.newObject c)) hs rfl
    obtain ⟨log', hl', hs', hfits, hdefinition⟩ :=
      (keeps_bindHome hobject hobject hhome).of_erased (erases_bindMethod _ _) hs' hf
    have hl := hl.trans hl'
    refine ⟨log', hl.toGrows, hs', hfits, fun v hv => (hvs v hv).leads hl, ?_⟩
    rw [hsize, hdefinition, Class.arity, hmethod]

/-- Where any part of a sound run begins, the moment is sound and the text is checked. -/
theorem Contains.placed {p q : Point} (h : p.Contains q) {log : List Event} (hp : p.Placed K log) :
    ∃ log', Moment.Grows ⟨log, p.2⟩ ⟨log', q.2⟩ ∧ q.Placed K log' := by
  induction h with
  | refl => exact ⟨log, .refl _, hp⟩
  | tail _ hpart ih =>
    obtain ⟨log₁, hg₁, hp₁⟩ := ih
    obtain ⟨log', hg, hp'⟩ := hpart.placed hp₁
    exact ⟨log', hg₁.trans hg, hp'⟩

end Point

end Lox
