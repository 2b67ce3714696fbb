import Lox.Proofs.Run.Calls

set_option autoImplicit false

/-! # Runs keep the invariant

By induction on the fuel: evaluating an expression and executing a statement whose text is checked
keeps a moment sound. A `break` is met only inside a loop of the same function and a `return` only
inside a function, so neither gets out of where it belongs. -/

namespace Lox

open Noted

variable {K : Site → Prop} {μ μ' : Moment} {running : Option Closure} {scopes : Scopes}
  {inFunction inLoop : Bool}

/-! ## How statements end -/

/-- A statement ends at a `break` only inside a loop, and at a `return` only inside a function. -/
def Ends (K : Site → Prop) (inFunction inLoop : Bool) (P : Moment → Prop) (flow : Flow)
    (μ' : Moment) : Prop :=
  match flow with
  | .normal => P μ'
  | .returned v => inFunction = true ∧ v.Fits K μ'
  | .broken => inLoop = true

theorem Ends.grows {P Q : Moment → Prop} {flow : Flow} (h : Ends K inFunction inLoop P flow μ)
    (hg : μ.Grows μ') (hPQ : P μ → Q μ') : Ends K inFunction inLoop Q flow μ' := by
  cases flow with
  | normal => exact hPQ h
  | returned v => exact ⟨h.1, h.2.mono (fun _ h => h) hg⟩
  | broken => exact h

/-- Expressions of known references keep the invariant where they stand, and give values that fit. -/
def Evaluates (K : Site → Prop) (ev : Option Closure → Expr → Noting Value) : Prop :=
  ∀ {running e μ scopes}, Stands μ running scopes → (∀ r ∈ e.references, K ⟨r, scopes⟩) →
    Keeps K μ (ev running e) fun v μ' => v.Fits K μ'

/-- Statements whose text is checked keep the invariant where they stand. -/
def Executes (K : Site → Prop) (run : Option Closure → Stmt → Noting Flow) : Prop :=
  ∀ {running s μ scopes inFunction inLoop}, Stands μ running scopes → scopes.Open →
    s.Checked K scopes inFunction inLoop → Keeps K μ (run running s)
      (Ends K inFunction inLoop fun μ' => Stands μ' running (s.after scopes))

section

variable {run : Option Closure → Stmt → Noting Flow} (hrun : Executes K run)

include hrun

theorem keeps_runAll {ss : List Stmt} (h : Stands μ running scopes) (hscopes : scopes.Open)
    (hc : CheckedStmts K scopes inFunction inLoop ss) :
    Keeps K μ (Noted.runAll (run running) ss) (Ends K inFunction inLoop fun _ => True) := by
  induction ss generalizing μ scopes with
  | nil => exact .pure trivial
  | cons s ss ih =>
    refine (hrun h hscopes hc.1).bind fun flow μ₁ _ _ hends => ?_
    cases flow with
    | normal => exact ih hends (hscopes.after s) hc.2
    | returned v => exact .pure hends
    | broken => exact .pure hends

omit hrun in
/-- The scope of a block has an empty frame. -/
theorem Stands.block (h : Stands μ running scopes) (body : List Stmt) :
    Stands ((μ.opening (.block body) []).inChain
      (μ.machine.store.frames.size :: μ.machine.chain)) running (⟨.block body, []⟩ :: scopes) := by
  obtain ⟨owner, hm, ho⟩ := h
  have hg := (μ.leads_opening (.block body) []).toGrows.trans (Moment.grows_inChain _
    (μ.machine.store.frames.size :: μ.machine.chain))
  refine ⟨owner, .plain (hm.grows hg) trivial ?_ (by simp [Bindings.find?]), fun x hx => ?_⟩
  · simp [Moment.opening, Moment.inChain]
  · obtain ⟨f, hf, ho⟩ := ho x hx
    exact ⟨f, hf, ho.mono hg.log⟩

/-! ## Calls -/

omit hrun in
/-- The names of the parameters. -/
theorem FunctionDef.of_find?_names {ps : List Token} {name : String} :
    ∀ {names : DeclaredNames} {ready : Bool},
      (ps.foldl (fun names p => names.bind p.lexeme true) names).find? name = some ready →
        names.find? name = some ready ∨ ∃ p ∈ ps, p.lexeme = name := by
  induction ps with
  | nil => exact fun h => .inl h
  | cons p ps ih =>
    intro names ready h
    rcases ih h with h | ⟨p', hp', heq⟩
    · rw [Bindings.find?_bind] at h
      split at h
      · next heq => exact .inr ⟨p, List.mem_cons_self, heq.symm⟩
      · exact .inl h
    · exact .inr ⟨p', List.mem_cons_of_mem _ hp', heq⟩

omit hrun in
/-- The scope of a call has a frame with its parameters. -/
theorem stands_call {f : Closure} (hf : f.Fits K μ) {arguments : List Value}
    (hsize : arguments.length = f.definition.params.length) {bindings : List (String × Value)}
    (hbindings : bindings = (f.definition.params.map (·.lexeme)).zip arguments) :
    ∃ scopes, f.definition.Checked K scopes ∧
      Stands ((μ.opening (.call f.definition) bindings).inChain
        (μ.machine.store.frames.size :: f.chain)) (some f) (f.definition.scope :: scopes) := by
  obtain ⟨owner, scopes, hm, hchecked, ho⟩ := hf.body
  have hl := μ.leads_opening (.call f.definition) bindings
  have hg := hl.toGrows.trans (Moment.grows_inChain _ (μ.machine.store.frames.size :: f.chain))
  refine ⟨scopes, hchecked, owner, .plain (hm.grows hg) trivial ?_ fun name ready hfind => ?_,
    fun x hx => ⟨f, rfl, (ho x hx).mono hl.log⟩⟩
  · simp [Moment.opening, Moment.inChain, FunctionDef.scope]
  · rcases FunctionDef.of_find?_names hfind with h | ⟨p, hp, rfl⟩
    · cases h
    · have hchosen : Chosen p.lexeme := hchecked.chosen hp
      obtain ⟨i, hi, heq⟩ := List.getElem_of_mem hp
      have hmem : (p.lexeme, arguments[i]) ∈ bindings := by
        rw [hbindings, List.mem_iff_getElem]
        exact ⟨i, by simp; omega, by simp [heq]⟩
      exact ⟨hchosen, fun _ => μ.lookup?_opening (.call f.definition) hmem⟩

/-- The body of a function is run in a new scope with the parameters. -/
theorem keeps_body {f : Closure} (hf : f.Fits K μ) {arguments : List Value}
    (ha : ∀ v ∈ arguments, v.Fits K μ) (hsize : arguments.length = f.definition.params.length) :
    Keeps K μ (do
        let chain ← openScope (.call f.definition) f.chain
          ((f.definition.params.map (·.lexeme)).zip arguments)
        Noted.within chain (Noted.runAll (run (some f)) f.definition.body))
      (Ends K true false fun _ => True) := by
  have hbindings : ∀ b ∈ (f.definition.params.map (·.lexeme)).zip arguments, b.2.Fits K μ :=
    fun b hb => ha _ (List.of_mem_zip hb).2
  obtain ⟨scopes, hchecked, hstands⟩ := stands_call hf hsize rfl
  refine (keeps_openScope (.call f.definition) f.chain hbindings).bind
    fun chain μ₁ _ _ hopened => ?_
  obtain ⟨rfl, rfl⟩ := hopened
  have hbody := keeps_runAll hrun hstands (fun s hs => by cases hs; trivial) hchecked.body
  exact hbody.within fun flow μ' chain hends => hends.grows (μ'.grows_inChain chain) id

theorem keeps_callFunction {f : Closure} (hf : f.Fits K μ) {arguments : List Value}
    (ha : ∀ v ∈ arguments, v.Fits K μ) (hsize : arguments.length = f.definition.params.length) :
    Keeps K μ (Noted.callFunction run f arguments) fun v μ' => v.Fits K μ' := by
  unfold Noted.callFunction
  dsimp only
  rw [← bind_assoc]
  refine (keeps_body hrun hf ha hsize).bind fun flow μ₂ hl₂ _ hends => ?_
  have hflow : flow ≠ .broken := fun h => by
    rw [h] at hends
    exact nomatch hends
  refine (keeps_note (e := .ended f flow) rfl rfl fun _ => hflow).bind fun _ μ₃ hl₃ hs₃ _ => ?_
  unfold result
  by_cases hinit : f.isInitializer = true
  · simp only [hinit, if_true, lift_bind]
    obtain ⟨frame, outer, r, hchain, -, hthis⟩ :=
      (hf.mono (fun _ h => h) (hl₂.trans hl₃).toGrows).initializes hinit
    have hobject : μ₃.machine.store.getAt? f.chain 0 "this" = some r.object := by
      rw [hchain]
      exact hthis
    refine .lift_get <| (keeps_orUndefined_some hobject).mono fun v μ₄ hl₄ _ hv => ?_
    exact hv ▸ (hs₃.values _ _ _ hthis).leads hl₄
  · simp only [if_neg hinit]
    cases flow with
    | normal => exact .congr (.pure (show Value.Fits K μ₃ .nil from trivial)) rfl
    | returned v => exact .congr (.pure (hends.2.leads hl₃)) rfl
    | broken => exact absurd rfl hflow

theorem keeps_construct {c : Class} (hc : c.Fits K μ) {arguments : List Value}
    (ha : ∀ v ∈ arguments, v.Fits K μ) (hsize : arguments.length = c.arity) :
    Keeps K μ (Noted.construct run c arguments) fun v μ' => v.Fits K μ' := by
  refine .get <| (keeps_newObject hc).bind fun object μ₁ hl₁ _ hobject => ?_
  obtain ⟨rfl, hobject⟩ := hobject
  split
  · exact .pure hobject
  · next home method hhome =>
    have hc₁ : c.Fits K μ₁ := hobject
    refine (keeps_bindHome hc₁ hc₁ hhome).bind fun f μ₂ hl₂ _ hf => ?_
    have hsize : arguments.length = f.definition.params.length := by
      rw [hsize, hf.2, Class.arity, ← c.map_home?, hhome]
      rfl
    refine (keeps_callFunction hrun hf.1 (fun v hv => (ha v hv).leads (hl₁.trans hl₂)) hsize).bind
      fun _ μ₃ hl₃ _ _ => .pure (hobject.leads (hl₂.trans hl₃))

theorem keeps_applyCall {callee : Value} (hf : callee.Fits K μ) {arguments : List Value}
    (ha : ∀ v ∈ arguments, v.Fits K μ) (paren : Token) :
    Keeps K μ (Noted.applyCall run paren callee arguments) fun v μ' => v.Fits K μ' := by
  unfold Noted.applyCall
  cases harity : callee.arity? with
  | none => exact keeps_raise _ _ _ (by simp)
  | some arity =>
    by_cases hsize : arguments.length ≠ arity
    · simp only [if_pos hsize]
      exact keeps_raise _ _ _ (by simp)
    · simp only [if_neg hsize]
      rw [not_not] at hsize
      subst hsize
      cases callee with
      | function f => exact keeps_callFunction hrun hf ha (Option.some.inj harity).symm
      | «class» c => exact keeps_construct hrun hf ha (Option.some.inj harity).symm
      | native f =>
        cases f
        exact aside_readClock.keeps.mono fun _ _ _ _ hv => hv.fits
      | _ => exact keeps_raise _ _ _ (by simp)

end

/-! ## Expressions and statements -/

theorem forall_known_append {rs rs' : List Reference} (h : ∀ r ∈ rs ++ rs', K ⟨r, scopes⟩) :
    (∀ r ∈ rs, K ⟨r, scopes⟩) ∧ ∀ r ∈ rs', K ⟨r, scopes⟩ := List.forall_mem_append.1 h

theorem mem_exprReferences {es : List Expr} {e : Expr} (he : e ∈ es) {r : Reference}
    (hr : r ∈ e.references) : r ∈ exprReferences es := by
  induction es with
  | nil => exact nomatch he
  | cons e' es ih =>
    rcases List.mem_cons.1 he with rfl | he
    · exact List.mem_append_left _ hr
    · exact List.mem_append_right _ (ih he)

section

variable {fuel : Nat} (hevaluate : Evaluates K fun running => Noted.evaluate running fuel)
  (hexecute : Executes K fun running => Noted.execute running fuel)

include hevaluate

theorem keeps_evaluateAll {es : List Expr} (h : Stands μ running scopes)
    (hk : ∀ r ∈ exprReferences es, K ⟨r, scopes⟩) :
    Keeps K μ (es.mapM (Noted.evaluate running fuel)) fun vs μ' => ∀ v ∈ vs, v.Fits K μ' := by
  refine .mapM (fun _ _ _ hv hl => hv.leads hl) fun e he μ' hl => ?_
  exact hevaluate (h.leads hl) fun r hr => hk r (mem_exprReferences he hr)

include hexecute

/-- An expression, if what is one step less deep keeps the invariant. -/
theorem Evaluates.succ : Evaluates K fun running => Noted.evaluate running (fuel + 1) := by
  intro running e μ scopes h hk
  cases e with
  | literal l => exact .pure l.simple_toValue.fits
  | grouping inner => exact hevaluate (e := inner) h hk
  | unary operator right =>
    refine (hevaluate (e := right) h hk).bind fun a μ₁ _ _ _ => ?_
    exact (aside_applyUnary operator a).keeps.mono fun _ _ _ _ hv => hv.fits
  | binary left operator right =>
    obtain ⟨hleft, hright⟩ := forall_known_append hk
    refine (hevaluate h hleft).bind fun a μ₁ hl₁ _ _ => ?_
    refine (hevaluate (h.leads hl₁) hright).bind fun b μ₂ _ _ _ => ?_
    exact (aside_applyBinary operator a b).keeps.mono fun _ _ _ _ hv => hv.fits
  | logical left operator right =>
    obtain ⟨hleft, hright⟩ := forall_known_append hk
    refine (hevaluate h hleft).bind fun a μ₁ hl₁ _ ha => ?_
    cases shortCircuits operator a with
    | true => exact .pure ha
    | false => exact hevaluate (h.leads hl₁) hright
  | var id name => exact keeps_lookUp h (hk _ List.mem_cons_self) nofun
  | thisRef id keyword => exact keeps_lookUp h (hk _ List.mem_cons_self) nofun
  | superRef id keyword method => exact keeps_superMethod h (hk _ List.mem_cons_self) method
  | assign id name value =>
    have hr := hk _ List.mem_cons_self
    have hvalue : ∀ r ∈ value.references, K ⟨r, scopes⟩ :=
      fun r hr => hk r (List.mem_cons_of_mem _ hr)
    refine (hevaluate h hvalue).bind fun v μ₁ hl₁ hs hv => ?_
    have hname : Chosen name.lexeme := (hs.right _ hr).spelled
    refine (keeps_noteAssigned fun hs => ⟨_, (h.leads hl₁).standsAt hr hs⟩).bind
      fun _ μ₂ hl₂ _ _ => ?_
    refine (keeps_assign id hname (hv.leads hl₂)).bind fun _ μ₃ hl₃ _ _ => ?_
    exact .pure (hv.leads (hl₂.trans hl₃))
  | call callee paren arguments =>
    obtain ⟨hcallee, harguments⟩ := forall_known_append hk
    refine (hevaluate h hcallee).bind fun f μ₁ hl₁ _ hf => ?_
    refine (keeps_evaluateAll hevaluate (h.leads hl₁) harguments).bind fun vs μ₂ hl₂ _ hvs => ?_
    exact keeps_applyCall hexecute (hf.leads hl₂) hvs paren
  | get object name =>
    refine (hevaluate (e := object) h hk).bind fun v μ₁ _ _ hv => ?_
    cases v with
    | object identity c => exact keeps_getProperty hv name
    | _ => exact keeps_raise _ _ _ (by simp)
  | set object name value =>
    obtain ⟨hobject, hvalue⟩ := forall_known_append hk
    refine (hevaluate h hobject).bind fun target μ₁ hl₁ _ _ => ?_
    cases target with
    | object identity c =>
      refine (hevaluate (h.leads hl₁) hvalue).bind fun v μ₂ _ _ hv => ?_
      refine (keeps_setField identity name.lexeme hv).bind fun _ μ₃ hl₃ _ _ => ?_
      exact .pure (hv.leads hl₃)
    | _ => exact keeps_raise _ _ _ (by simp)

/-- A statement, if what is one step less deep keeps the invariant. -/
theorem Executes.succ : Executes K fun running => Noted.execute running (fuel + 1) := by
  intro running s μ scopes inFunction inLoop h hscopes hc
  cases s with
  | expression value =>
    refine (hevaluate (e := value) h hc).bind fun v μ₁ hl₁ _ _ => ?_
    exact .pure (h.leads hl₁)
  | print value =>
    refine (hevaluate (e := value) h hc).bind fun v μ₁ hl₁ _ _ => ?_
    refine (aside_printLine v.text).keeps.bind fun _ μ₂ hl₂ _ _ => ?_
    exact .pure (h.leads (hl₁.trans hl₂))
  | var name initializer =>
    cases initializer with
    | none =>
      refine (keeps_define (v := .nil) h hscopes hc.1 fun _ _ _ => trivial).bind
        fun _ μ₁ _ _ h₁ => ?_
      exact .pure h₁
    | some initializer =>
      obtain ⟨hname, hk⟩ := hc
      have hinitializer : Stands μ running (scopes.put name.lexeme false) := by
        obtain ⟨owner, hm, ho⟩ := h
        exact ⟨owner, hm.put_false hscopes hname, ho⟩
      refine (hevaluate hinitializer hk).bind fun v μ₁ hl₁ _ hv => ?_
      refine (keeps_define (h.leads hl₁) hscopes hname fun _ hl _ => hv.leads hl).bind
        fun _ μ₂ _ _ h₂ => ?_
      exact .pure h₂
  | block body =>
    have hempty : ∀ b ∈ ([] : List (String × Value)), b.2.Fits K μ := nofun
    refine .get <| (keeps_openScope (.block body) _ hempty).bind fun chain μ₁ hl₁ _ hopened => ?_
    obtain ⟨rfl, rfl⟩ := hopened
    have hbody := keeps_runAll hexecute (h.block body) (fun s hs => by cases hs; trivial) hc
    have hbody : Keeps K _ _ (Ends K inFunction inLoop fun _ => True) :=
      hbody.within fun flow μ' chain hends => hends.grows (μ'.grows_inChain chain) id
    refine hbody.mono fun flow μ₂ hl₂ _ hends => ?_
    exact hends.grows (.refl μ₂) fun _ => h.leads (hl₁.trans hl₂)
  | ifElse condition thenBranch elseBranch =>
    cases elseBranch with
    | none =>
      obtain ⟨hk, hthen, hdeclares⟩ := hc
      refine (hevaluate h hk).bind fun v μ₁ hl₁ _ _ => ?_
      cases v.isTruthy with
      | true =>
        refine (hexecute (h.leads hl₁) hscopes hthen).mono fun flow μ₂ _ _ hends => ?_
        rw [Stmt.after_of_not_declares hdeclares] at hends
        exact hends
      | false => exact .pure (h.leads hl₁)
    | some elseBranch =>
      obtain ⟨hk, ⟨hthen, hdeclares⟩, helse, hdeclares'⟩ := hc
      refine (hevaluate h hk).bind fun v μ₁ hl₁ _ _ => ?_
      cases v.isTruthy with
      | true =>
        refine (hexecute (h.leads hl₁) hscopes hthen).mono fun flow μ₂ _ _ hends => ?_
        rw [Stmt.after_of_not_declares hdeclares] at hends
        exact hends
      | false =>
        refine (hexecute (h.leads hl₁) hscopes helse).mono fun flow μ₂ _ _ hends => ?_
        rw [Stmt.after_of_not_declares hdeclares'] at hends
        exact hends
  | loop condition body =>
    obtain ⟨hk, hbody, hdeclares⟩ := hc
    refine (hevaluate h hk).bind fun v μ₁ hl₁ _ _ => ?_
    have h₁ := h.leads hl₁
    cases v.isTruthy with
    | false => exact .pure h₁
    | true =>
      refine (hexecute h₁ hscopes hbody).bind fun flow μ₂ hl₂ _ hends => ?_
      cases flow with
      | normal => exact hexecute (h₁.leads hl₂) hscopes ⟨hk, hbody, hdeclares⟩
      -- the loop consumes the `break`, whatever is around it
      | broken => exact .pure (h₁.leads hl₂)
      | returned v => exact .pure hends
  | function definition =>
    obtain ⟨hname, hchecked⟩ := hc
    refine (keeps_close running definition).bind fun v μ₁ hl₁ _ hv => ?_
    obtain ⟨f, rfl, hdefinition, hchain, hplain, hdeclared⟩ := hv
    refine (keeps_define (h.leads hl₁) hscopes hname fun μ₂ hl₂ h₂ => ?_).bind
      fun _ μ₃ _ _ h₃ => .pure h₃
    obtain ⟨owner, hm, ho⟩ := h₂
    rw [(hl₁.trans hl₂).chain, ← hchain] at hm
    refine ⟨⟨owner, _, hm, hdefinition ▸ hchecked, fun r hr => ?_⟩, fun hinit => ?_⟩
    · obtain ⟨g, rfl, hg⟩ := ho r hr
      exact .declared (hl₂.log _ hdeclared) hg
    · exact nomatch hplain.symm.trans hinit
  | ret keyword value =>
    cases value with
    | none => exact .pure ⟨hc.1, trivial⟩
    | some value =>
      obtain ⟨hinside, hk⟩ := hc
      refine (hevaluate h hk).bind fun v μ₁ _ _ hv => ?_
      exact .pure ⟨hinside, hv⟩
  | brk keyword => exact .pure hc
  | classDef name superclass methods =>
    refine (keeps_declareClass h hscopes hc).bind fun _ μ₁ _ _ h₁ => ?_
    exact .pure h₁

end

theorem keeps_evaluate_execute (fuel : Nat) :
    (Evaluates K fun running => Noted.evaluate running fuel) ∧
      Executes K fun running => Noted.execute running fuel := by
  induction fuel with
  | zero =>
    refine ⟨?_, ?_⟩
    · intro running e μ scopes _ _
      exact .throw Stop.expected_outOfFuel
    · intro running s μ scopes inFunction inLoop _ _ _
      exact .throw Stop.expected_outOfFuel
  | succ fuel ih =>
    obtain ⟨hevaluate, hexecute⟩ := ih
    exact ⟨Evaluates.succ hevaluate hexecute, Executes.succ hevaluate hexecute⟩

/-- Evaluating an expression of known references keeps the invariant and gives a value that fits. -/
theorem keeps_evaluate (fuel : Nat) {e : Expr} (h : Stands μ running scopes)
    (hk : ∀ r ∈ e.references, K ⟨r, scopes⟩) :
    Keeps K μ (Noted.evaluate running fuel e) fun v μ' => v.Fits K μ' :=
  (keeps_evaluate_execute fuel).1 h hk

/-- Executing a statement whose text is checked keeps the invariant, and the statement ends as its
    place allows. -/
theorem keeps_execute (fuel : Nat) : Executes K fun running => Noted.execute running fuel :=
  (keeps_evaluate_execute fuel).2

/-- Running an accepted program keeps the invariant; neither a `break` nor a `return` gets out of
    it. -/
theorem keeps_runProgram (fuel : Nat) {program : List Stmt} (hchain : μ.machine.chain = globalChain)
    (hc : CheckedStmts K [] false false program) :
    Keeps K μ (Noted.runProgram fuel program) fun _ _ => True := by
  have hstands : Stands μ none [] := ⟨none, hchain ▸ .global, nofun⟩
  refine (keeps_runAll (keeps_execute fuel) hstands nofun hc).bind fun flow μ' _ _ hends => ?_
  cases flow with
  | normal => exact aside_flush.keeps
  | returned v => exact nomatch hends.1
  | broken => exact nomatch hends

end Lox
