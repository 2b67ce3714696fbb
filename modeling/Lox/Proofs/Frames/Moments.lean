import Lox.Proofs.Frames.Evaluation
import Lox.Proofs.Run.Order

set_option autoImplicit false

/-! # The moments of a run

Whatever begins at a moment of a run begins in a machine that follows a ledger
(`Point.Contains.follows`). What is bound at such a moment is bound at every later one
(`Point.Before.losesNone`) and until the run ends, however it ends: what begins at a part comes to an
end before the whole does (`Point.Contains.last`) and before the next part begins
(`Point.isChain_parts`), and nothing of what a run does unbinds a name
(`Machine.Reaches.losesNone`). -/

namespace Lox

open Eval

/-! ## Nothing is lost -/

/-- A later machine in which all names are bound that were, and objects have all fields that they
    had. -/
structure Machine.LosesNone (m m' : Machine) : Prop where
  names : ∀ frame name, (m.store.lookup? frame name).isSome → (m'.store.lookup? frame name).isSome
  fields : ∀ identity name, (fieldOf? m.objects identity name).isSome →
    (fieldOf? m'.objects identity name).isSome

namespace Machine.LosesNone

variable {m m' m'' : Machine}

theorem refl (m : Machine) : m.LosesNone m := ⟨fun _ _ h => h, fun _ _ h => h⟩

theorem trans (h : m.LosesNone m') (h' : m'.LosesNone m'') : m.LosesNone m'' :=
  ⟨fun frame name hn => h'.names frame name (h.names frame name hn),
    fun identity name hf => h'.fields identity name (h.fields identity name hf)⟩

theorem of_eq (hstore : m'.store = m.store) (hobjects : m'.objects = m.objects) :
    m.LosesNone m' :=
  ⟨fun _ _ h => hstore ▸ h, fun _ _ h => hobjects ▸ h⟩

end Machine.LosesNone

/-- None of the changes of a run loses anything. -/
theorem Machine.Reaches.losesNone {m m' : Machine} (h : m.Reaches m') : m.LosesNone m' := by
  induction h with
  | refl m => exact .refl m
  | trans _ _ ih ih' => exact ih.trans ih'
  | within _ _ ih => exact ⟨ih.names, ih.fields⟩
  | bindIn m frame name v =>
    refine ⟨fun other key h => ?_, fun _ _ h => h⟩
    obtain ⟨w, hw⟩ := Option.isSome_iff_exists.1 h
    exact (Store.lookup?_bindIn_of_some m.store frame v hw).1
  | openIn m chain =>
    refine ⟨fun frame name h => ?_, fun _ _ h => h⟩
    rw [Store.lookup?_openIn]
    exact h
  | object m =>
    refine ⟨fun _ _ h => h, fun identity name h => ?_⟩
    obtain ⟨v, hv⟩ := Option.isSome_iff_exists.1 h
    obtain ⟨fields, hfields, hv⟩ := Option.bind_eq_some_iff.1 hv
    rw [fieldOf?, Ledger.getElem?_push_of_some [] hfields, Option.bind_some, hv]
    rfl
  | field m identity name v =>
    refine ⟨fun _ _ h => h, fun other key h => ?_⟩
    show (fieldOf? (m.objects.modify identity (·.bind name v)) other key).isSome
    rw [fieldOf?_modify]
    split
    · rfl
    · exact h
  | identity m | write m | clock m => exact .of_eq rfl rfl

section

variable {α β : Type} {x : Eval α}

/-- However a step ends, it has only made changes. -/
theorem Eval.Moves.reaches_end (hx : x.Moves) (m : Machine) : m.Reaches (endOf (x m)) := by
  have h := hx m
  generalize x m = r at h ⊢
  cases h with
  | ok h => exact h
  | error h => exact h

theorem Eval.Moves.losesNone (hx : x.Moves) (m : Machine) : m.LosesNone (endOf (x m)) :=
  (hx.reaches_end m).losesNone

/-- What a step leaves behind is there when what follows it has ended. -/
theorem Eval.losesNone_bind {k : α → Eval β} (hk : ∀ a, (k a).Moves) (m : Machine) :
    (endOf (x m)).LosesNone (endOf ((x >>= k) m)) := by
  simp only [Bind.bind, EStateM.bind]
  cases x m with
  | error stop m' => exact .refl m'
  | ok a m' => exact (hk a).losesNone m'

/-- What is there at some time in what follows a step is there in the end. -/
theorem Eval.losesNone_bind_of_ok {k : α → Eval β} {m m' m'' : Machine} {a : α}
    (h : x m = .ok a m') (hrest : m''.LosesNone (endOf (k a m'))) :
    m''.LosesNone (endOf ((x >>= k) m)) := by
  simp only [Bind.bind, EStateM.bind, h]
  exact hrest

/-- What a step in another scope leaves behind is there when this scope is left. -/
theorem Eval.losesNone_within (chain : Chain) (m : Machine) :
    (endOf (x { m with chain })).LosesNone (endOf (within chain x m)) := by
  rw [(within_cases chain x m).1]
  exact .of_eq rfl rfl

end

/-! ## The end of what begins at a point -/

/-- The machine when what begins at a point has ended. -/
def Point.last : Point → Machine
  | (.evaluate fuel e, m) => endOf (evaluate fuel e m)
  | (.evaluateAll fuel es, m) => endOf (es.mapM (evaluate fuel) m)
  | (.execute fuel s, m) => endOf (execute fuel s m)
  | (.runAll fuel ss, m) => endOf (runAll (execute fuel) ss m)
  | (.call fuel f vs, m) => endOf (callFunction (execute fuel) f vs m)
  | (.construct fuel c vs, m) => endOf (construct (execute fuel) c vs m)
  | (.print text, m) => endOf (printLine text m)

theorem Point.losesNone_last (p : Point) : p.2.LosesNone p.last := by
  obtain ⟨task, m⟩ := p
  cases task with
  | evaluate fuel e => exact (evaluate_moves fuel e).losesNone m
  | evaluateAll fuel es => exact (Moves.mapM (evaluate_moves fuel) es).losesNone m
  | execute fuel s => exact (execute_moves fuel s).losesNone m
  | runAll fuel ss => exact (runAll_moves (execute_moves fuel) ss).losesNone m
  | call fuel f vs => exact (callFunction_moves (execute_moves fuel) f vs).losesNone m
  | construct fuel c vs => exact (construct_moves (execute_moves fuel) c vs).losesNone m
  | print text => exact (printLine_moves text).losesNone m

/-- What a part of an expression leaves behind is there when the expression has ended. -/
theorem Point.Part.last_evaluate {fuel : Nat} {e : Expr} {m : Machine} {q : Point}
    (hpart : Part (.evaluate fuel e, m) q) :
    q.last.LosesNone (endOf (Lox.evaluate fuel e m)) := by
  have hev := fun fuel e => evaluate_moves fuel e
  have hcall := fun fuel t f vs => applyCall_moves (execute_moves fuel) t f vs
  cases fuel with
  | zero => cases hpart
  | succ fuel =>
    rw [evaluate_succ]
    cases hpart with
    | grouping => exact .refl _
    | operand => exact losesNone_bind (fun _ => applyUnary_moves _ _) _
    | left =>
      exact losesNone_bind (fun _ => (hev fuel _).bind fun _ => applyBinary_moves _ _ _) _
    | right h => exact losesNone_bind_of_ok h (losesNone_bind (fun _ => applyBinary_moves _ _ _) _)
    | first =>
      refine losesNone_bind (fun v => ?_) _
      split
      · exact .pure _
      · exact hev fuel _
    | second h hnot =>
      refine losesNone_bind_of_ok h ?_
      rw [hnot]
      exact .refl _
    | assigned =>
      exact losesNone_bind (fun _ => (assign_moves _ _ _).bind fun _ => .pure _) _
    | object =>
      refine losesNone_bind (fun v => ?_) _
      split
      · exact getProperty_moves _ _ _
      · exact raise_moves _ _
    | target =>
      refine losesNone_bind (fun v => ?_) _
      split
      · refine (hev fuel _).bind fun _ => ?_
        refine (setField_moves _ _ _).bind fun _ => ?_
        exact .pure _
      · exact raise_moves _ _
    | value h =>
      exact losesNone_bind_of_ok h
        (losesNone_bind (fun _ => (setField_moves _ _ _).bind fun _ => .pure _) _)
    | callee =>
      exact losesNone_bind (fun _ => (Moves.mapM (hev fuel) _).bind fun _ => hcall fuel _ _ _) _
    | arguments h => exact losesNone_bind_of_ok h (losesNone_bind (fun _ => hcall fuel _ _ _) _)
    | call h hargs hsize | construct h hargs hsize =>
      refine losesNone_bind_of_ok h (losesNone_bind_of_ok hargs ?_)
      simp only [applyCall, Value.arity?, hsize, ne_eq, not_true_eq_false, if_false]
      exact .refl _

/-- What a part of a statement leaves behind is there when the statement has ended. -/
theorem Point.Part.last_execute {fuel : Nat} {s : Stmt} {m : Machine} {q : Point}
    (hpart : Part (.execute fuel s, m) q) :
    q.last.LosesNone (endOf (Lox.execute fuel s m)) := by
  have hrun := fun fuel s => execute_moves fuel s
  cases fuel with
  | zero => cases hpart
  | succ fuel =>
    rw [execute_succ]
    cases hpart with
    | expression => exact losesNone_bind (fun _ => .pure _) _
    | printed => exact losesNone_bind (fun _ => (printLine_moves _).bind fun _ => .pure _) _
    | print h => exact losesNone_bind_of_ok h (losesNone_bind (fun _ => .pure _) _)
    | bound => exact losesNone_bind (fun _ => (define_moves _ _).bind fun _ => .pure _) _
    | block hopen =>
      exact losesNone_bind_of_ok (x := MonadState.get) rfl
        (losesNone_bind_of_ok hopen (losesNone_within _ _))
    | @condition _ _ _ s o =>
      refine losesNone_bind (fun v => ?_) _
      cases v.isTruthy with
      | true => exact hrun fuel s
      | false =>
        cases o with
        | none => exact .pure _
        | some s' => exact hrun fuel s'
    | thenBranch h hv =>
      refine losesNone_bind_of_ok h ?_
      rw [if_pos hv]
      exact .refl _
    | elseBranch h hv =>
      refine losesNone_bind_of_ok h ?_
      rw [hv]
      exact .refl _
    | @loopCondition _ _ e s =>
      refine losesNone_bind (fun v => ?_) _
      cases v.isTruthy with
      | false => exact .pure _
      | true =>
        refine (hrun fuel s).bind fun flow => ?_
        cases flow with
        | normal => exact hrun fuel (.loop e s)
        | _ => exact .pure _
    -- behind the body, the loop may go on
    | @loopBody _ _ _ e s _ h hv =>
      refine losesNone_bind_of_ok h ?_
      rw [if_pos hv]
      refine losesNone_bind (fun flow => ?_) _
      cases flow with
      | normal => exact hrun fuel (.loop e s)
      | _ => exact .pure _
    | loopAgain h hv hbody =>
      refine losesNone_bind_of_ok h ?_
      rw [if_pos hv]
      exact losesNone_bind_of_ok hbody (.refl _)
    | returned => exact losesNone_bind (fun _ => .pure _) _

/-- What a part of a run leaves behind is there when the run has ended. -/
theorem Point.Part.last {p q : Point} (hpart : p.Part q) : q.last.LosesNone p.last := by
  obtain ⟨task, m⟩ := p
  cases task with
  | evaluate fuel e => exact hpart.last_evaluate
  | execute fuel s => exact hpart.last_execute
  | evaluateAll fuel es =>
    cases hpart with
    | @argument _ _ e es =>
      show Machine.LosesNone _ (endOf ((e :: es).mapM (evaluate fuel) m))
      rw [List.mapM_cons]
      exact losesNone_bind
        (fun _ => (Moves.mapM (evaluate_moves fuel) es).bind fun _ => .pure _) _
    | @otherArguments _ _ _ e es v h =>
      show Machine.LosesNone _ (endOf ((e :: es).mapM (evaluate fuel) m))
      rw [List.mapM_cons]
      exact losesNone_bind_of_ok h (losesNone_bind (fun _ => .pure _) _)
  | runAll fuel ss =>
    cases hpart with
    | @statement _ _ s ss =>
      refine losesNone_bind (fun flow => ?_) _
      cases flow with
      | normal => exact runAll_moves (execute_moves fuel) ss
      | _ => exact .pure _
    | otherStatements h => exact losesNone_bind_of_ok h (.refl _)
  | call fuel f vs =>
    cases hpart with
    | body hopen =>
      refine losesNone_bind_of_ok hopen (Machine.LosesNone.trans (losesNone_within _ _) ?_)
      exact losesNone_bind (fun _ => result_moves f _) _
  | construct fuel c vs =>
    cases hpart with
    | initializer hobject hmethod hf =>
      refine losesNone_bind_of_ok hobject ?_
      rw [hmethod]
      exact losesNone_bind_of_ok hf (losesNone_bind (fun _ => .pure _) _)
  | print text => cases hpart

theorem Point.Contains.last {p q : Point} (h : p.Contains q) : q.last.LosesNone p.last := by
  induction h with
  | refl => exact .refl _
  | tail _ hpart ih => exact hpart.last.trans ih

/-! ## One moment after another -/

namespace Point

/-- What begins at one point has ended where the other is. -/
def GoesOn (p q : Point) : Prop := q.2 = p.last

section

variable {α : Type} {x : Eval α} {m : Machine} {next : α → Machine → List Point}

theorem isChain_behind (h : ∀ a m', x m = .ok a m' → (next a m').IsChain GoesOn) :
    (behind x m next).IsChain GoesOn := by
  unfold behind
  cases hx : x m with
  | error stop m' => exact .nil
  | ok a m' => exact h a m' hx

theorem isChain_cons_behind {p : Point}
    (h : ∀ a m', x m = .ok a m' → (p :: next a m').IsChain GoesOn) :
    (p :: behind x m next).IsChain GoesOn := by
  unfold behind
  cases hx : x m with
  | error stop m' => exact .singleton p
  | ok a m' => exact h a m' hx

end

theorem isChain_called {fuel : Nat} {callee : Value} {vs : List Value} {m : Machine} {p : Point}
    (h : p.last = m) : (p :: called fuel callee vs m).IsChain GoesOn := by
  unfold called
  split
  · split
    · exact .cons_cons h.symm (.singleton _)
    · exact .singleton p
  · split
    · exact .cons_cons h.symm (.singleton _)
    · exact .singleton p
  · exact .singleton p

section

variable {fuel : Nat} {m m' : Machine}

theorem last_evaluate_of_ok {e : Expr} {v : Value} (h : Lox.evaluate fuel e m = .ok v m') :
    last (.evaluate fuel e, m) = m' := by
  rw [last, h]
  rfl

theorem last_evaluateAll_of_ok {es : List Expr} {vs : List Value}
    (h : es.mapM (Lox.evaluate fuel) m = .ok vs m') : last (.evaluateAll fuel es, m) = m' := by
  rw [last, h]
  rfl

theorem last_execute_of_ok {s : Stmt} {flow : Flow} (h : Lox.execute fuel s m = .ok flow m') :
    last (.execute fuel s, m) = m' := by
  rw [last, h]
  rfl

end

theorem isChain_partsOfExpr (fuel : Nat) (m : Machine) (e : Expr) :
    (partsOfExpr fuel m e).IsChain GoesOn := by
  cases e with
  | literal | var | thisRef | superRef => exact .nil
  | grouping | unary | assign | get => exact .singleton _
  | binary =>
    refine isChain_cons_behind fun v m' hv => ?_
    exact .cons_cons (last_evaluate_of_ok hv).symm (.singleton _)
  | logical a t b =>
    refine isChain_cons_behind fun v m' hv => ?_
    cases shortCircuits t v with
    | true => exact .singleton _
    | false => exact .cons_cons (last_evaluate_of_ok hv).symm (.singleton _)
  | set a t b =>
    refine isChain_cons_behind fun v m' hv => ?_
    cases v with
    | object identity c => exact .cons_cons (last_evaluate_of_ok hv).symm (.singleton _)
    | _ => exact .singleton _
  | call e t es =>
    refine isChain_cons_behind fun callee m' hv => ?_
    refine .cons_cons (last_evaluate_of_ok hv).symm (isChain_cons_behind fun vs m'' hvs => ?_)
    exact isChain_called (last_evaluateAll_of_ok hvs)

theorem isChain_partsOfStmt (fuel : Nat) (m : Machine) (s : Stmt) :
    (partsOfStmt fuel m s).IsChain GoesOn := by
  cases s with
  | function | brk | classDef => exact .nil
  | expression => exact .singleton _
  | var t o | ret t o =>
    cases o with
    | none => exact .nil
    | some e => exact .singleton _
  | print e =>
    refine isChain_cons_behind fun v m' hv => ?_
    exact .cons_cons (last_evaluate_of_ok hv).symm (.singleton _)
  | block ss =>
    rw [partsOfStmt]
    exact isChain_behind fun _ _ _ => .singleton _
  | ifElse e s o =>
    refine isChain_cons_behind fun v m' hv => ?_
    have hlast := (last_evaluate_of_ok hv).symm
    cases v.isTruthy with
    | true => exact .cons_cons hlast (.singleton _)
    | false =>
      cases o with
      | none => exact .singleton _
      | some s' => exact .cons_cons hlast (.singleton _)
  | loop e s =>
    refine isChain_cons_behind fun v m' hv => ?_
    have hlast := (last_evaluate_of_ok hv).symm
    cases v.isTruthy with
    | false => exact .singleton _
    | true =>
      refine .cons_cons hlast (isChain_cons_behind fun flow m'' hflow => ?_)
      cases flow with
      | normal => exact .cons_cons (last_execute_of_ok hflow).symm (.singleton _)
      | _ => exact .singleton _

/-- Each part of a run goes on from the one before it. -/
theorem isChain_parts (p : Point) : p.parts.IsChain GoesOn := by
  obtain ⟨task, m⟩ := p
  cases task with
  | evaluate fuel e =>
    cases fuel with
    | zero => exact .nil
    | succ fuel => exact isChain_partsOfExpr fuel m e
  | execute fuel s =>
    cases fuel with
    | zero => exact .nil
    | succ fuel => exact isChain_partsOfStmt fuel m s
  | evaluateAll fuel es =>
    cases es with
    | nil => exact .nil
    | cons e es =>
      refine isChain_cons_behind fun v m' hv => ?_
      exact .cons_cons (last_evaluate_of_ok hv).symm (.singleton _)
  | runAll fuel ss =>
    cases ss with
    | nil => exact .nil
    | cons s ss =>
      refine isChain_cons_behind fun flow m' hflow => ?_
      cases flow with
      | normal => exact .cons_cons (last_execute_of_ok hflow).symm (.singleton _)
      | _ => exact .singleton _
  | call fuel f vs =>
    rw [parts]
    exact isChain_behind fun _ _ _ => .singleton _
  | construct fuel c vs =>
    rw [parts]
    refine isChain_behind fun object m' _ => ?_
    cases c.method? initializerName with
    | none => exact .nil
    | some method => exact isChain_behind fun _ _ _ => .singleton _
  | print text => exact .nil

/-- Nothing is lost until a part begins. -/
theorem Part.losesNone {p q : Point} (hpart : p.Part q) : p.2.LosesNone q.2 := by
  cases hpart with
  | right h | value h | arguments h | otherArguments h | print h | thenBranch h | elseBranch h
  | loopBody h | second h => exact ((evaluate_moves _ _).of_ok h).losesNone
  | loopAgain h _ hbody =>
    have hcondition := ((evaluate_moves _ _).of_ok h).losesNone
    exact hcondition.trans ((execute_moves _ _).of_ok hbody).losesNone
  | otherStatements h => exact ((execute_moves _ _).of_ok h).losesNone
  | call h harguments | construct h harguments =>
    have hcallee := ((evaluate_moves _ _).of_ok h).losesNone
    exact hcallee.trans ((Moves.mapM (evaluate_moves _) _).of_ok harguments).losesNone
  | body hopen | block hopen =>
    have hopened := ((openScope_moves _ _).of_ok hopen).losesNone
    exact ⟨hopened.names, hopened.fields⟩
  | initializer hobject _ hbind =>
    have hmade := ((newObject_moves _).of_ok hobject).losesNone
    exact hmade.trans ((bindMethod_moves _ _).of_ok hbind).losesNone
  -- all other parts begin where the whole does
  | _ => exact .refl _

theorem Contains.losesNone {p q : Point} (h : p.Contains q) : p.2.LosesNone q.2 := by
  induction h with
  | refl => exact .refl _
  | tail _ hpart ih => exact ih.trans hpart.losesNone

/-- When a part has ended, nothing is lost until a later part begins. -/
theorem losesNone_of_sublist_parts {whole p q : Point} (h : [p, q].Sublist whole.parts) :
    p.last.LosesNone q.2 := by
  have htrans : IsTrans Point fun p q => p.last.LosesNone q.2 :=
    ⟨fun _ q _ hpq hqr => (hpq.trans q.losesNone_last).trans hqr⟩
  have hchain : whole.parts.IsChain fun p q => p.last.LosesNone q.2 :=
    whole.isChain_parts.imp fun p q hgoes => by
      rw [hgoes]
      exact .refl _
  exact List.pairwise_iff_forall_sublist.1 hchain.pairwise h

/-- Nothing is lost from one moment of a run to a later one. -/
theorem Before.losesNone {start p q : Point} (h : start.Before p q) : p.2.LosesNone q.2 := by
  cases h with
  | within _ hq => exact hq.losesNone
  | @earlier whole a b _ _ _ hsub hp hq =>
    have hended : p.2.LosesNone a.last := p.losesNone_last.trans hp.last
    exact hended.trans ((losesNone_of_sublist_parts hsub).trans hq.losesNone)

end Point

/-! ## Following a ledger -/

/-- The values with which something is called hold chains and objects as is settled. -/
def Task.Follows (L : Ledger) : Task → Prop
  | .call _ f vs => L.Lists f.chain ∧ ∀ v ∈ vs, v.Follows L
  | .construct _ c vs => c.Follows L ∧ ∀ v ∈ vs, v.Follows L
  | _ => True

/-- What begins at a point begins as is settled. -/
structure Point.Follows (L : Ledger) (p : Point) : Prop where
  machine : p.2.Follows L
  task : p.1.Follows L

/-- What a step that retains leads to if it succeeds. -/
theorem Eval.Retains.of_ok {α : Type} {L : Ledger} {x : Eval α} {P : Ledger → α → Prop}
    (hx : Retains true L x P) {m m' : Machine} {a : α}
    (h : x m = .ok a m') (hm : m.Follows L) : ∃ L', L.Le L' ∧ m'.Follows L' ∧ P L' a := by
  obtain ⟨L', hle, hm', -, hP⟩ := hx m hm
  rw [h] at hm'
  exact ⟨L', hle, hm', hP a m' h⟩

/-- A part of a run begins in a machine in which more is settled. -/
theorem Point.Part.follows {p q : Point} (hpart : p.Part q) {L : Ledger} (hp : p.Follows L) :
    ∃ L', L.Le L' ∧ q.Follows L' := by
  obtain ⟨hm, htask⟩ := hp
  cases hpart with
  | right h | value h | arguments h | otherArguments h | print h | thenBranch h | elseBranch h
  | loopBody h | second h =>
    obtain ⟨L', hle, hm', -⟩ := (evaluate_retains _ L _).weaken.of_ok h hm
    exact ⟨L', hle, hm', trivial⟩
  | loopAgain h _ hbody =>
    obtain ⟨L₁, hle₁, hm₁, -⟩ := (evaluate_retains _ L _).weaken.of_ok h hm
    obtain ⟨L₂, hle₂, hm₂, -⟩ := (execute_retains _ L₁ _).of_ok hbody hm₁
    exact ⟨L₂, hle₁.trans hle₂, hm₂, trivial⟩
  | otherStatements h =>
    obtain ⟨L', hle, hm', -⟩ := (execute_retains _ L _).of_ok h hm
    exact ⟨L', hle, hm', trivial⟩
  | call h hmap | construct h hmap =>
    obtain ⟨L₁, hle₁, hm₁, hcallee⟩ := (evaluate_retains _ L _).weaken.of_ok h hm
    obtain ⟨L₂, hle₂, hm₂, hvs⟩ :=
      (Retains.mapM (evaluate_retains _) L₁ _).weaken.of_ok hmap hm₁
    exact ⟨L₂, hle₁.trans hle₂, hm₂, Value.Follows.mono hcallee hle₂, hvs⟩
  | body hopen =>
    obtain ⟨L', hle, hm', hchain⟩ := (openScope_retains htask.1
      fun b hb => htask.2 _ (List.of_mem_zip hb).2).of_ok hopen hm
    exact ⟨L', hle, hm'.of_eq rfl rfl hchain, trivial⟩
  | block hopen =>
    obtain ⟨L', hle, hm', hchain⟩ := (openScope_retains hm.chain
      (List.forall_mem_nil _)).of_ok hopen hm
    exact ⟨L', hle, hm'.of_eq rfl rfl hchain, trivial⟩
  | initializer hobject hmethod hf =>
    obtain ⟨L₁, hle₁, hm₁, hv⟩ := (newObject_retains htask.1).of_ok hobject hm
    have hmethod := (htask.1.method hmethod).mono hle₁
    obtain ⟨L₂, hle₂, hm₂, hchain⟩ := (bindMethod_retains hmethod hv).of_ok hf hm₁
    have hle := hle₁.trans hle₂
    exact ⟨L₂, hle, hm₂, hchain, fun v hmem => (htask.2 v hmem).mono hle⟩
  -- all other parts begin where the whole does
  | _ => exact ⟨L, .refl L, hm, trivial⟩

theorem Point.Contains.follows {p q : Point} (h : p.Contains q) {L : Ledger} (hp : p.Follows L) :
    ∃ L', L.Le L' ∧ q.Follows L' := by
  induction h with
  | refl => exact ⟨L, .refl L, hp⟩
  | tail _ hpart ih =>
    obtain ⟨L₁, hle₁, hq₁⟩ := ih
    obtain ⟨L₂, hle₂, hq₂⟩ := hpart.follows hq₁
    exact ⟨L₂, hle₁.trans hle₂, hq₂⟩

end Lox
