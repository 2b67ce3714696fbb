import Lox.Proofs.Places.Runs
import Lox.Proofs.Run.Known

set_option autoImplicit false

/-! # Errors cite what was written

Each error that is reported lies in its source (`Error.Cites`): a lexical error in one of the lines,
a static error at a token of the source, and a runtime error at a token of the source or of one that
was given to the session before, from which a function may stem. The `this` that the machine looks for
itself where an initializer ends, or where `super` is met, is always there, so that no error is
reported at a token that nobody wrote. -/

namespace Lox

/-! ## Citations -/

/-- A token at which a static error is reported in a source. -/
structure Token.Cited (source : List UInt8) (t : Token) : Prop where
  mem : t ∈ Lexer.tokens source
  /-- The last token, and no other one, is cited as the end. -/
  atEnd : Error.citation t = " at end" ↔ (Lexer.tokens source).getLast? = some t
  /-- Any other token is cited by its lexeme. -/
  quoted : (Lexer.tokens source).getLast? ≠ some t →
    Error.citation t = " at '" ++ t.lexeme ++ "'"

/-- An error cites its source, or one that was given earlier. -/
def Error.Cites (source : List UInt8) (earlier : List Token) : Error → Prop
  | .lexical line _ => 1 ≤ line ∧ line ≤ 1 + source.count Lexer.newline
  | .parse t _ | .resolve t _ => t.Cited source
  | .runtime t _ => t ∈ earlier ++ Lexer.tokens source ∧ ∀ line, t ≠ .ofName "this" line
  | .output _ => True

theorem Token.cited_of_mem {source : List UInt8} {t : Token} (ht : t ∈ Lexer.tokens source) :
    t.Cited source := by
  obtain ⟨body, htokens, hbody⟩ := Lexer.exists_tokens_eq source
  have hlast : (Lexer.tokens source).getLast? = some t ↔ t.kind = .endOfInput := by
    rw [htokens, List.getLast?_concat, Option.some_inj]
    refine ⟨fun h => h ▸ rfl, fun hkind => ?_⟩
    rw [htokens] at ht
    rcases List.mem_append.1 ht with ht | ht
    · exact absurd hkind (hbody t ht)
    · exact (List.mem_singleton.1 ht).symm
  have hquoted : t.kind ≠ .endOfInput → Error.citation t = " at '" ++ t.lexeme ++ "'" := by
    intro hkind
    unfold Error.citation
    split
    · contradiction
    · rfl
  refine ⟨ht, ?_, fun hne => hquoted fun hkind => hne (hlast.2 hkind)⟩
  rw [hlast]
  refine ⟨fun hcitation => ?_, fun hkind => by simp [Error.citation, hkind]⟩
  by_contra hkind
  -- the fifth character tells a quotation from the end
  have hfifth := congrArg (fun s => s.toList[4]?) ((hquoted hkind).symm.trans hcitation)
  simp [String.toList_append] at hfifth

theorem Lexer.cites_of_mem_errors {source : List UInt8} {e : Error} (h : e ∈ errors source)
    (earlier : List Token) : e.Cites source earlier := by
  obtain ⟨place, problem, rfl⟩ := of_mem_errors h
  exact ⟨Nat.le_add_right 1 _, Nat.add_le_add_left ((List.take_sublist _ _).count_le _) 1⟩

namespace Session

variable (session : Session) (source : List UInt8)

theorem terminated_mem : ∀ t ∈ Parse.terminated (Lexer.tokens source), t ∈ Lexer.tokens source :=
  fun _ ht => Lexer.terminated_tokens source ▸ ht

/-- A tree keeps tokens of its source. -/
theorem parsed_written {p : Token → Prop} (hp : ∀ t ∈ Lexer.tokens source, p t) :
    StmtsWritten p (session.parsed source).tree :=
  (Parse.program_written (Lexer.tokens_ne_nil source)
    (fun t ht => hp t (terminated_mem source t ht)) session.nextId).1

theorem cites_of_mem_staticErrors {e : Error} (h : e ∈ session.staticErrors source)
    (earlier : List Token) : e.Cites source earlier := by
  simp only [staticErrors, List.mem_append] at h
  rcases h with (h | h) | h
  · exact Lexer.cites_of_mem_errors h earlier
  · obtain ⟨m, rfl, hm⟩ := (Parse.program_written (Lexer.tokens_ne_nil source)
      (terminated_mem source) session.nextId).2 e h
    exact Token.cited_of_mem hm
  · have hwritten := session.parsed_written source fun _ ht => ht
    obtain ⟨t, problem, rfl, ht⟩ :=
      resolveProgram_written hwritten session.machine.distances e h
    exact Token.cited_of_mem ht

/-! ## What a session keeps -/

variable {session source} {p : Token → Prop} (h : session.machine.Written p)
  (hp : ∀ t ∈ Lexer.tokens source, p t) (fuel : Nat)

include h hp

theorem run_written : (session.run fuel source).2.machine.Written p := by
  have hrun := runProgram_cites fuel (session.parsed_written source hp) (session.prepared source)
    (h.of_eq rfl rfl)
  rw [run_eq]
  split
  · cases hresult : runProgram fuel (session.parsed source).tree (session.prepared source) with
    | ok a m =>
      rw [hresult] at hrun
      exact hrun.1
    | error stop m =>
      rw [hresult] at hrun
      exact hrun.1
  · exact h.of_eq rfl rfl

theorem evaluate_written : (session.evaluate fuel source).2.machine.Written p := by
  obtain ⟨htree, -⟩ := Parse.singleExpression_written (Lexer.tokens_ne_nil source)
    (fun t ht => hp t (terminated_mem source t ht)) session.nextId
  unfold Session.evaluate
  dsimp only
  generalize Parse.singleExpression (Lexer.tokens source) session.nextId = parsed at htree ⊢
  split
  · exact h
  · split
    · next e heq _ =>
      rw [heq] at htree
      have hrun := evaluate_cites fuel htree session.machine h
      cases hresult : Lox.evaluate fuel e session.machine with
      | ok v m =>
        rw [hresult] at hrun
        exact hrun.1
      | error stop m =>
        rw [hresult] at hrun
        exact hrun.1
    · exact h

end Session

namespace Record

/-- All that a record keeps of the text of its sources is as `p` says. -/
structure Written (p : Token → Prop) (record : Record) : Prop where
  machine : record.session.machine.Written p
  sites : ∀ site ∈ record.sites, p site.reference.token

variable {p : Token → Prop} {record : Record}

theorem forall_stmtSites {program : List Stmt} (h : StmtsWritten p program) :
    ∀ site ∈ stmtSites [] program, p site.reference.token := by
  intro site hsite
  have hmem : site.reference ∈ stmtReferences program := by
    rw [← map_reference_stmtSites program []]
    exact List.mem_map_of_mem hsite
  exact stmtsWritten_references h _ hmem

theorem Written.withProgram (h : record.Written p) {program : List Stmt}
    (hprogram : StmtsWritten p program) :
    ∀ site ∈ (record.withProgram program).sites, p site.reference.token := fun site hsite =>
  (List.mem_append.1 ((sites_withProgram program).mem_iff.1 hsite)).elim (h.sites site)
    (forall_stmtSites hprogram site)

theorem Written.withExpression (h : record.Written p) {e : Expr} (he : e.Written p) :
    ∀ site ∈ (record.withExpression e).sites, p site.reference.token := by
  rw [sites_withExpression]
  exact List.forall_mem_append.2 ⟨h.sites, List.forall_mem_map.2 he.references⟩

theorem Written.run (h : record.Written p) {source : List UInt8}
    (hp : ∀ t ∈ Lexer.tokens source, p t) (fuel : Nat) : (record.run fuel source).2.Written p := by
  refine ⟨(record.run_erase fuel source).2 ▸ Session.run_written h.machine hp fuel, ?_⟩
  have hprogram := h.withProgram (record.session.parsed_written source hp)
  unfold Record.run
  dsimp only
  rw [show Parse.program (Lexer.tokens source) record.session.nextId =
    record.session.parsed source from rfl]
  split
  · exact h.sites
  · split
    · cases Noted.runProgram fuel (record.session.parsed source).tree _ <;> exact hprogram
    · exact h.sites

theorem Written.evaluate (h : record.Written p) {source : List UInt8}
    (hp : ∀ t ∈ Lexer.tokens source, p t) (fuel : Nat) :
    (record.evaluate fuel source).2.Written p := by
  refine ⟨(record.evaluate_erase fuel source).2 ▸ Session.evaluate_written h.machine hp fuel, ?_⟩
  obtain ⟨htree, -⟩ := Parse.singleExpression_written (Lexer.tokens_ne_nil source)
    (fun t ht => hp t (Session.terminated_mem source t ht)) record.session.nextId
  unfold Record.evaluate
  dsimp only
  generalize Parse.singleExpression (Lexer.tokens source) record.session.nextId = parsed at htree ⊢
  split
  · exact h.sites
  · split
    · next e heq _ =>
      rw [heq] at htree
      have hexpression := h.withExpression htree
      cases Noted.evaluate none fuel e record.moment <;> exact hexpression
    · exact h.sites

theorem Written.after {steps : List Step} (h : record.Written p)
    (hp : ∀ t ∈ steps.flatMap Step.tokens, p t) : (record.after steps).Written p := by
  induction steps generalizing record with
  | nil => exact h
  | cons s steps ih =>
    rw [List.flatMap_cons, List.forall_mem_append] at hp
    refine @ih (record.step s) ?_ hp.2
    cases s with
    | run fuel source => exact h.run hp.1 fuel
    | evaluate fuel source => exact h.evaluate hp.1 fuel
    | takeText => exact ⟨h.machine.of_eq rfl rfl, h.sites⟩

/-- A record keeps tokens of the sources that were given to it. -/
theorem written_of (output : Output) (reading : Nat → Float) {steps : List Step}
    (hp : ∀ t ∈ steps.flatMap Step.tokens, p t) : (Record.of output reading steps).Written p := by
  refine Written.after ⟨⟨fun frame name v hv => ?_, fun identity name v hv => ?_⟩,
    List.forall_mem_nil _⟩ hp
  · exact (simple_of_start hv).written
  · simp [fieldOf?, Record.start, Session.start, Machine.start] at hv

/-! ## Stops -/

/-- Where a program stops that was accepted. -/
theorem Valid.run_expected (h : record.Valid) {fuel : Nat} {source : List UInt8}
    (hclean : record.session.staticErrors source = []) {stop : Stop} {m : Machine}
    (hrun : Lox.runProgram fuel (record.session.parsed source).tree
      (record.session.prepared source) = .error stop m) :
    stop.Expected (· ∈ (record.withProgram (record.session.parsed source).tree).sites) := by
  have hparse := record.session.parsed_follows source
  obtain ⟨herrors, hstatic⟩ := List.append_eq_nil_iff.1 hclean
  have hproper := (hparse.fact (List.append_eq_nil_iff.1 herrors).2).proper
    fun _ ht => spelled_of_mem_start ht
  have hnoted := h.runProgram hproper hparse.drawn hstatic fuel
  have herase : Noted.erase (Noted.runProgram fuel (record.session.parsed source).tree
      ⟨record.log, record.resolving (record.session.parsed source).tree⟩) = .error stop m :=
    (Noted.erases_runProgram ..).trans hrun
  cases hresult : Noted.runProgram fuel (record.session.parsed source).tree
    ⟨record.log, record.resolving (record.session.parsed source).tree⟩ with
  | ok a μ =>
    rw [hresult] at herase
    cases herase
  | error stop' μ =>
    rw [hresult] at herase hnoted
    cases herase
    exact hnoted.2

/-- Where an expression stops. -/
theorem Valid.evaluate_expected (h : record.Valid) {fuel : Nat} {source : List UInt8} {e : Expr}
    (htree : (Parse.singleExpression (Lexer.tokens source) record.session.nextId).tree = some e)
    (herrors : (Parse.singleExpression (Lexer.tokens source) record.session.nextId).errors = [])
    {stop : Stop} {m : Machine} (hrun : Lox.evaluate fuel e record.session.machine = .error stop m) :
    stop.Expected (· ∈ (record.withExpression e).sites) := by
  have hparse := Grammar.singleExpression_follows (Lexer.tokens source) record.session.nextId
  obtain ⟨e', he', hreads⟩ := hparse.fact herrors
  cases htree.symm.trans he'
  have hdrawn : Grammar.Drawn (e.references.map Reference.id) _ _ := htree ▸ hparse.drawn
  have hnoted := h.evaluateExpression (hreads.proper fun _ ht => spelled_of_mem_start ht) hdrawn fuel
  have herase : Noted.erase (Noted.evaluate none fuel e record.moment) = .error stop m :=
    (Noted.erases_evaluate ..).trans hrun
  cases hresult : Noted.evaluate none fuel e record.moment with
  | ok a μ =>
    rw [hresult] at herase
    cases herase
  | error stop' μ =>
    rw [hresult] at herase hnoted
    cases herase
    exact hnoted.2

/-- A made-up `this` is missing only where the program has a `this` at that token, so that no error
    cites it. -/
theorem cites_of_stop {source : List UInt8} {earlier : List Token} {K : Site → Prop} {e : Error}
    (hcites : (Stop.error e).Cites (· ∈ earlier ++ Lexer.tokens source))
    (hexpected : (Stop.error e).Expected K)
    (hsites : ∀ site, K site → site.reference.token ∈ earlier ++ Lexer.tokens source)
    (hearlier : ∀ t ∈ earlier, t.Spelled) : e.Cites source earlier := by
  cases e with
  | runtime t problem =>
    have ht : t ∈ earlier ++ Lexer.tokens source := by
      rcases hcites with ht | ⟨line, -, rfl⟩
      · exact ht
      · obtain ⟨site, hsite, heq⟩ := hexpected.this t rfl
        exact heq ▸ hsites site hsite
    refine ⟨ht, fun line hthis => ?_⟩
    have hspelled : t.Spelled :=
      (List.mem_append.1 ht).elim (hearlier t) Lexer.spelled_of_mem_tokens
    subst hthis
    exact (hspelled.chosen rfl).1 rfl
  | output => trivial
  | lexical | parse | resolve => exact hcites.elim

section

variable {source : List UInt8} {earlier : List Token} {fuel : Nat} {e : Error} (h : record.Valid)
  (hwritten : record.Written (· ∈ earlier ++ Lexer.tokens source))
  (hearlier : ∀ t ∈ earlier, t.Spelled)
  (hsource : ∀ t ∈ Lexer.tokens source, t ∈ earlier ++ Lexer.tokens source)

include h hwritten hearlier hsource

theorem Valid.cites_of_run (he : e ∈ (record.session.run fuel source).1.errors) :
    e.Cites source earlier := by
  have hparsed := record.session.parsed_written source hsource
  have hrun := runProgram_cites fuel hparsed (record.session.prepared source)
    (hwritten.machine.of_eq rfl rfl)
  rw [Session.run_eq] at he
  split at he
  · next hclean =>
    cases hresult : Lox.runProgram fuel (record.session.parsed source).tree
      (record.session.prepared source) with
    | ok a m =>
      rw [hresult] at he
      cases he
    | error stop m =>
      rw [hresult] at he hrun
      have hexpected := h.run_expected (List.isEmpty_iff.1 hclean) hresult
      cases stop with
      | error e' =>
        cases List.mem_singleton.1 he
        exact cites_of_stop hrun.2 hexpected (hwritten.withProgram hparsed) hearlier
      | impossible | outOfFuel => cases he
  · exact record.session.cites_of_mem_staticErrors source he earlier

/-- The errors that are found before an expression is evaluated, and the one that stops it. -/
theorem Valid.cites_of_evaluate :
    (∀ e ∈ (record.session.evaluate fuel source).1.errors, e.Cites source earlier) ∧
      ∀ e, (record.session.evaluate fuel source).1.result = some (.error (.error e)) →
        e.Cites source earlier := by
  obtain ⟨-, herrors⟩ := Parse.singleExpression_written (Lexer.tokens_ne_nil source)
    (Session.terminated_mem source) record.session.nextId
  obtain ⟨htree, -⟩ := Parse.singleExpression_written (Lexer.tokens_ne_nil source)
    (fun t ht => hsource t (Session.terminated_mem source t ht)) record.session.nextId
  have hcites : ∀ e ∈ Lexer.errors source ++
      (Parse.singleExpression (Lexer.tokens source) record.session.nextId).errors,
      e.Cites source earlier := by
    refine List.forall_mem_append.2 ⟨fun e he => Lexer.cites_of_mem_errors he earlier, fun e he => ?_⟩
    obtain ⟨m, rfl, hm⟩ := herrors e he
    exact Token.cited_of_mem hm
  unfold Session.evaluate
  dsimp only
  split
  · exact ⟨List.forall_mem_nil _, fun e he => by cases he⟩
  · split
    · next expression hexpression hnone =>
      rw [hexpression] at htree
      have hrun := Lox.evaluate_cites fuel htree record.session.machine hwritten.machine
      refine ⟨?_, fun e he => ?_⟩
      · cases Lox.evaluate fuel expression record.session.machine <;> exact List.forall_mem_nil _
      · cases hresult : Lox.evaluate fuel expression record.session.machine with
        | ok v m =>
          rw [hresult] at he
          cases he
        | error stop m =>
          rw [hresult] at he hrun
          cases he
          have hexpected :=
            h.evaluate_expected hexpression (List.append_eq_nil_iff.1 hnone).2 hresult
          exact cites_of_stop hrun.2 hexpected (hwritten.withExpression htree) hearlier
    · exact ⟨hcites, fun e he => by cases he⟩

end

end Record

/-- The tokens of all sources are spelled as their kinds say. -/
theorem spelled_of_mem_steps {steps : List Step} {t : Token} (ht : t ∈ steps.flatMap Step.tokens) :
    t.Spelled := by
  obtain ⟨s, -, ht⟩ := List.mem_flatMap.1 ht
  cases s with
  | run fuel source => exact Lexer.spelled_of_mem_tokens ht
  | evaluate fuel source => exact Lexer.spelled_of_mem_tokens ht
  | takeText => cases ht

/-- **Errors cite what was written.** Whatever has been done with a session, each error that is
    reported for a source given to it next lies in one of the lines of the source if it is lexical,
    and cites a token of the source if it is found before the source runs. An error that stops the
    run, or the evaluation of a single expression, cites a token of the source or of one that was
    given before, never one that was made up. -/
theorem errors_cite_sources (output : Output) (reading : Nat → Float) (before : List Step)
    (fuel : Nat) (source : List UInt8) :
    let session := (Session.start output reading).after before
    let earlier := before.flatMap Step.tokens
    (∀ e ∈ (session.run fuel source).1.errors, e.Cites source earlier) ∧
      (∀ e ∈ (session.evaluate fuel source).1.errors, e.Cites source earlier) ∧
      ∀ e, (session.evaluate fuel source).1.result = some (.error (.error e)) →
        e.Cites source earlier := by
  intro session earlier
  have hvalid := Record.valid_of output reading before
  have hp : ∀ t ∈ Lexer.tokens source, t ∈ earlier ++ Lexer.tokens source :=
    fun _ ht => List.mem_append_right _ ht
  have hwritten : (Record.of output reading before).Written (· ∈ earlier ++ Lexer.tokens source) :=
    Record.written_of output reading fun _ ht => List.mem_append_left _ ht
  have hearlier : ∀ t ∈ earlier, t.Spelled := fun _ => spelled_of_mem_steps
  rw [show session = (Record.of output reading before).session from
    (Record.session_of output reading before).symm]
  clear_value session earlier
  generalize Record.of output reading before = record at hvalid hwritten ⊢
  exact ⟨fun e he => hvalid.cites_of_run hwritten hearlier hp he,
    hvalid.cites_of_evaluate hwritten hearlier hp⟩

/-- The token at which a program stopped. -/
def Error.stoppedAt? : Error → Option Token
  | .runtime t _ => some t
  | .lexical .. | .parse .. | .resolve .. | .output .. => none

/-- A function that fails when it is called. -/
def failingFunction : List Step := [.run 20 (bytesOf "fun f()\x7breturn -nil;\x7d")]

/-- The call is rejected at a token of the function, which the source of the call has not. -/
theorem errors_cite_sources_failingFunction :
    ∃ e ∈ (((Session.start (.start none false) fun _ => 0).after failingFunction).run 20
        (bytesOf "f();")).1.errors,
      e.Cites (bytesOf "f();") (failingFunction.flatMap Step.tokens) ∧
        ¬ e.Cites (bytesOf "f();") [] := by
  have hfails : ((((Session.start (.start none false) fun _ => 0).after failingFunction).run 20
      (bytesOf "f();")).1.errors.any fun e => e.stoppedAt?.any fun t =>
        (Lexer.tokens (bytesOf "f();")).all fun t' => t'.lexeme != t.lexeme) = true := by
    decide +kernel
  obtain ⟨e, he, hstopped⟩ := List.any_eq_true.1 hfails
  refine ⟨e, he, (errors_cite_sources (.start none false) (fun _ => 0) failingFunction 20
    (bytesOf "f();")).1 e he, fun hcites => ?_⟩
  cases e with
  | runtime t problem =>
    have hne := List.all_eq_true.1 hstopped t hcites.1
    simp at hne
  | lexical | parse | resolve | output => cases hstopped

end Lox
