import Lox.Proofs.Grammar.Joined
import Lox.Proofs.Grammar.Tokens
import Lox.Proofs.Lexer.Seam
import Lox.Proofs.Run.Reaching
import Lox.Proofs.Run.Records
import Lox.Proofs.Run.Sources

set_option autoImplicit false

/-! # Evaluating an expression and printing it

An expression can be evaluated by itself, and then none of its names is resolved, or be printed by a
statement of a program, whose names all are. Where the expression has no `this` and no `super`, both
come to the same: the statement has the tree of the expression (`Session.parsed_printing`), outside
of all scopes resolving records nothing (`Expr.resolve_global`), and so the same machine evaluates
the same tree. -/

namespace Lox

/-- The source that prints the value of an expression. -/
def printing (source : List UInt8) : List UInt8 := bytesOf "print " ++ source ++ bytesOf "\n;"

/-! ## Tokens -/

namespace Lexer

theorem pieces_print (source : List UInt8) :
    pieces (bytesOf "print " ++ source) =
      ⟨bytesOf "print", .token .printKw⟩ :: ⟨[byte ' '], .blank⟩ :: pieces source := by
  have hrun : runLength isWordPart (bytesOf "rint" ++ byte ' ' :: source) = (bytesOf "rint").length :=
    runLength_run (by decide +kernel) (by simp; decide)
  have hextent : extent (byte 'p') (bytesOf "rint" ++ byte ' ' :: source) = 4 := hrun
  have hsource : bytesOf "print " ++ source = byte 'p' :: (bytesOf "rint" ++ byte ' ' :: source) := rfl
  rw [hsource, pieces_cons, hextent]
  show _ :: pieces (byte ' ' :: source) = _
  rw [pieces_cons, extent_of_isBlank (by decide)]
  rfl

theorem items_print (source : List UInt8) :
    items (bytesOf "print " ++ source) = .ok ⟨.printKw, "print", 1⟩ :: items source := by
  rw [items, pieces_print]
  rfl

theorem errors_print (source : List UInt8) :
    errors (bytesOf "print " ++ source) = errors source := by
  rw [errors, items_print]
  rfl

theorem tokens_print (source : List UInt8) :
    tokens (bytesOf "print " ++ source) = ⟨.printKw, "print", 1⟩ :: tokens source := by
  rw [tokens, items_print]
  rfl

theorem errors_printing {source : List UInt8} (h : errors source = []) :
    errors (printing source) = [] :=
  errors_append (by rw [errors_print, h]) rfl

/-- What is put in front of an expression and behind it does not change its tokens. -/
theorem exists_tokens_printing {source : List UInt8} (h : errors source = []) :
    ∃ body final line, tokens source = body ++ [final] ∧ final.kind = .endOfInput ∧
      (∀ t ∈ body, t.kind ≠ .endOfInput) ∧
      tokens (printing source) = ⟨.printKw, "print", 1⟩ :: body ++ [⟨.semicolon, ";", line⟩] ++
        [⟨.endOfInput, "", line⟩] := by
  obtain ⟨body, htokens, hbody⟩ := exists_tokens_eq source
  refine ⟨body, _, 1 + ((bytesOf "print " ++ source).count newline + 1), htokens, rfl, hbody, ?_⟩
  have hprint : errors (bytesOf "print " ++ source) = [] := by rw [errors_print, h]
  refine (tokens_append hprint (bytesOf ";")).trans ?_
  rw [tokens_print, htokens, ← List.cons_append, List.dropLast_concat, List.append_assoc]
  rfl

end Lexer

/-! ## The tree -/

/-- An expression that can be evaluated can be printed, with the same tree. -/
theorem Session.parsed_printing {session : Session} {source : List UInt8}
    (hlexical : Lexer.errors source = [])
    (hparsed : (Parse.singleExpression (Lexer.tokens source) session.nextId).errors = []) :
    ∃ e n, Parse.singleExpression (Lexer.tokens source) session.nextId = ⟨some e, [], n, false⟩ ∧
      (∀ r ∈ e.references, ∃ t ∈ Lexer.tokens source, t.kind = r.sort.kind) ∧
      session.parsed (printing source) = ⟨[.print e], [], n, false⟩ := by
  obtain ⟨body, final, line, htokens, hfinal, hbody, hprinting⟩ :=
    Lexer.exists_tokens_printing hlexical
  rw [htokens] at hparsed ⊢
  obtain ⟨e, -, hreads⟩ := Grammar.reads_of_singleExpression hbody hfinal hparsed
  refine ⟨e, _, Grammar.singleExpression_of_reads hbody hfinal hreads, fun r hr => ?_, ?_⟩
  · obtain ⟨ht, hkind⟩ := hreads.of_mem_references r hr
    exact ⟨r.token, List.mem_append_left _ ht, hkind⟩
  · rw [parsed, hprinting]
    refine Grammar.program_of_reads ?_ rfl (.nextDeclaration
      (.statement (.print rfl (hreads.append _) rfl)) .noDeclarations)
    rw [List.forall_mem_append, List.forall_mem_cons, List.forall_mem_singleton]
    exact ⟨⟨by simp, hbody⟩, by simp⟩

/-! ## Names -/

mutual

/-- Outside of all scopes, a name is looked for nowhere, so that resolving it does nothing. -/
theorem Expr.resolve_global (e : Expr) {w : Walk} (hw : w.scopes = [])
    (h : ∀ r ∈ e.references, r.sort ≠ .this ∧ r.sort ≠ .super) : e.resolve w = w := by
  cases e with
  | literal _ => rfl
  | grouping inner => exact inner.resolve_global hw h
  | unary _ right => exact right.resolve_global hw h
  | binary left _ right | logical left _ right =>
    obtain ⟨hleft, hright⟩ := List.forall_mem_append.1 h
    have hfirst := left.resolve_global hw hleft
    exact (congrArg right.resolve hfirst).trans (right.resolve_global hw hright)
  | var id name =>
    simp [Expr.resolve, Walk.innermost?, Walk.reportIf, Walk.locate, Walk.distance?, hw]
  | assign id name value =>
    rw [Expr.resolve, value.resolve_global hw (List.forall_mem_cons.1 h).2]
    simp [Walk.locate, Walk.distance?, hw]
  | call callee _ arguments =>
    obtain ⟨hcallee, harguments⟩ := List.forall_mem_append.1 h
    have hfirst := callee.resolve_global hw hcallee
    have hrest := resolveExprs_global arguments hw harguments
    exact (congrArg (resolveExprs arguments) hfirst).trans hrest
  | get object _ => exact object.resolve_global hw h
  | set object _ value =>
    obtain ⟨hobject, hvalue⟩ := List.forall_mem_append.1 h
    have hfirst := value.resolve_global hw hvalue
    exact (congrArg object.resolve hfirst).trans (object.resolve_global hw hobject)
  | thisRef _ _ => exact absurd rfl (h _ List.mem_cons_self).1
  | superRef _ _ _ => exact absurd rfl (h _ List.mem_cons_self).2
termination_by structural e

theorem resolveExprs_global (es : List Expr) {w : Walk} (hw : w.scopes = [])
    (h : ∀ r ∈ exprReferences es, r.sort ≠ .this ∧ r.sort ≠ .super) : resolveExprs es w = w := by
  cases es with
  | nil => rfl
  | cons e es =>
    obtain ⟨he, hes⟩ := List.forall_mem_append.1 h
    have hfirst := e.resolve_global hw he
    exact (congrArg (resolveExprs es) hfirst).trans (resolveExprs_global es hw hes)
termination_by structural es

end

theorem resolveProgram_print {e : Expr}
    (h : ∀ r ∈ e.references, r.sort ≠ .this ∧ r.sort ≠ .super) (distances : Distances) :
    resolveProgram [.print e] distances = ⟨true, [], distances⟩ := by
  have hresolve : resolveStmts [.print e] (.start distances) = .start distances :=
    e.resolve_global rfl h
  rw [resolveProgram, hresolve]
  rfl

/-! ## The run -/

open Eval

theorem bind_eq {α β : Type} (x : Eval α) (k : α → Eval β) (m : Machine) :
    (x >>= k) m = match x m with
      | .ok a m' => k a m'
      | .error stop m' => .error stop m' := by
  simp only [Bind.bind, EStateM.bind]
  cases x m <;> rfl

theorem runProgram_print (fuel : Nat) (e : Expr) :
    runProgram (fuel + 1) [.print e] = (do
      printLine (← Lox.evaluate fuel e).text
      flush) := by
  simp only [runProgram, runAll, execute, bind_assoc, pure_bind]

theorem write_cases (chunk : String) (m : Machine) :
    write chunk m = .ok () { m with output := m.output.append chunk } ∨
      write chunk m = .error (.error (.output .full)) m := by
  unfold write
  rw [get_bind]
  split
  · exact .inl rfl
  · exact .inr rfl

/-- Printing a line goes wrong only at the output. -/
theorem printLine_cases (text : String) (m : Machine) :
    (do printLine text; flush) m = .ok () { m with output := m.output.append (text ++ "\n") } ∨
      ∃ problem m', (do printLine text; flush) m = .error (.error (.output problem)) m' := by
  simp only [printLine, Bind.bind, EStateM.bind]
  rcases write_cases text m with h | h
  · rw [h]
    dsimp only
    rcases write_cases "\n" { m with output := m.output.append text } with h | h
    · rw [h]
      dsimp only
      rw [flush, get_bind, Output.append_append]
      split
      · exact .inr ⟨.notFlushed, _, rfl⟩
      · exact .inl rfl
    · rw [h]
      exact .inr ⟨.full, _, rfl⟩
  · rw [h]
    exact .inr ⟨.full, _, rfl⟩

/-- What is printed is what was evaluated. -/
theorem Session.run_printing {session : Session} {source : List UInt8} {e : Expr} {n : RefId}
    (hlexical : Lexer.errors source = [])
    (hparsed : session.parsed (printing source) = ⟨[.print e], [], n, false⟩)
    (hplain : ∀ r ∈ e.references, r.sort ≠ .this ∧ r.sort ≠ .super) (fuel : Nat) :
    session.run (fuel + 1) (printing source) =
      match Lox.evaluate fuel e session.machine with
      | .error stop m => (stop.report, ⟨m, n⟩)
      | .ok value m =>
        match (do printLine value.text; flush) m with
        | .ok () m => (⟨.completed, []⟩, ⟨m, n⟩)
        | .error stop m => (stop.report, ⟨m, n⟩) := by
  unfold run
  rw [show Parse.program (Lexer.tokens (printing source)) session.nextId = _ from hparsed]
  dsimp only
  rw [resolveProgram_print hplain, Lexer.errors_printing hlexical, runProgram_print,
    bind_eq]
  cases Lox.evaluate fuel e session.machine <;> rfl

theorem Stop.eq_of_output_mem {stop : Stop} {problem : OutputProblem}
    (h : .output problem ∈ stop.report.errors) : stop = .error (.output problem) := by
  cases stop with
  | error e => rw [List.mem_singleton.1 h]
  | _ => cases h

/-- **An expression is evaluated as it is printed.** In whatever state a session is, for an
    expression that is read without an error and has no `this` and no `super`: unless the output
    fails, which it does not if it takes everything, printing the expression writes what evaluating
    it writes and then, if there is a value, its text on a line; both stop for the same reason
    otherwise, and both leave the same session. -/
theorem evaluated_as_printed (session : Session) (fuel : Nat) (source : List UInt8) :
    let evaluated := session.evaluate fuel source
    let printed := session.run (fuel + 1) (printing source)
    Lexer.errors source = [] →
    (Parse.singleExpression (Lexer.tokens source) session.nextId).errors = [] →
    (∀ t ∈ Lexer.tokens source, t.kind ≠ .thisKw ∧ t.kind ≠ .superKw) →
    (session.machine.output.Unfailing → ∀ problem, .output problem ∉ printed.1.errors) ∧
    ((∀ problem, .output problem ∉ printed.1.errors) →
      match evaluated.1.result with
      | some (.ok value) =>
        let m := evaluated.2.machine
        printed = (⟨.completed, []⟩,
          ⟨{ m with output := m.output.append (value.text ++ "\n") }, evaluated.2.nextId⟩)
      | some (.error stop) => printed = (stop.report, evaluated.2)
      | none => False) := by
  intro evaluated printed hlexical hparsed hplain
  obtain ⟨e, n, hexpression, hreferences, hprogram⟩ := Session.parsed_printing hlexical hparsed
  have hsorts : ∀ r ∈ e.references, r.sort ≠ .this ∧ r.sort ≠ .super := by
    intro r hr
    obtain ⟨t, ht, hkind⟩ := hreferences r hr
    obtain ⟨hthis, hsuper⟩ := hplain t ht
    rw [hkind] at hthis hsuper
    exact ⟨fun h => hthis (by rw [h]; rfl), fun h => hsuper (by rw [h]; rfl)⟩
  rw [show printed = _ from Session.run_printing hlexical hprogram hsorts fuel,
    show evaluated = _ from Session.evaluate_of_parsed hlexical hexpression fuel]
  have hmoves := evaluate_moves fuel e
  cases hvalue : Lox.evaluate fuel e session.machine with
  | error stop m =>
    refine ⟨fun hout problem hmem => ?_, fun _ => rfl⟩
    rw [Stop.eq_of_output_mem hmem] at hvalue
    exact hmoves.ne_output hout problem hvalue
  | ok value m =>
    have hprint : (do printLine value.text; flush).Moves :=
      (printLine_moves _).bind fun _ => flush_moves
    dsimp only
    rcases printLine_cases value.text m with h | ⟨problem, m', h⟩
    · rw [h]
      exact ⟨fun _ _ => nofun, fun _ => rfl⟩
    · rw [h]
      refine ⟨fun hout => absurd h ?_, fun hnone => absurd List.mem_cons_self (hnone problem)⟩
      exact hprint.ne_output (hmoves.unfailing hout hvalue) problem

/-- The text of the value of an expression, if it has one. -/
def Evaluation.text? (evaluation : Evaluation) : Option String :=
  match evaluation.result with
  | some (.ok value) => some value.text
  | _ => none

/-- A function that prints what it gives back. -/
def printingFunction : List Step :=
  [.run 20 (bytesOf "fun f(x)\x7bprint x;return x;\x7d")]

/-- Its value is printed once more by the statement. -/
theorem evaluated_as_printed_printingFunction :
    let session := (Session.start (.start none false) fun _ => 0).after printingFunction
    let call := bytesOf "f(\"a\")"
    (session.evaluate 20 call).2.machine.output.text = "a\n" ∧
      (session.run 21 (printing call)).1.status = .completed ∧
      (session.run 21 (printing call)).2.machine.output.text = "a\na\n" := by
  intro session call
  have hlexical : (Lexer.errors call).isEmpty = true := by decide +kernel
  have hparsed : (Parse.singleExpression (Lexer.tokens call) session.nextId).errors.isEmpty = true := by
    decide +kernel
  have hplain : ((Lexer.tokens call).all fun t =>
      !t.kind.sameAs .thisKw && !t.kind.sameAs .superKw) = true := by decide +kernel
  have hout : session.machine.output.Unfailing := ⟨by decide +kernel, by decide +kernel⟩
  have hvalue : (session.evaluate 20 call).1.text? = some "a" := by decide +kernel
  have htext : (session.evaluate 20 call).2.machine.output.text = "a\n" := by decide +kernel
  clear_value session call
  obtain ⟨hholds, hprinted⟩ := evaluated_as_printed session 20 call (List.isEmpty_iff.1 hlexical)
    (List.isEmpty_iff.1 hparsed) fun t ht => by
      have hkind := List.all_eq_true.1 hplain t ht
      constructor <;> intro h <;> simp [h] at hkind
  specialize hprinted (hholds hout)
  generalize session.evaluate 20 call = evaluated at hvalue htext hprinted ⊢
  obtain ⟨⟨tree, errors, result⟩, behind⟩ := evaluated
  rcases result with _ | stop | value
  · exact hprinted.elim
  · cases hvalue
  · have hvalue : value.text = "a" := Option.some.inj hvalue
    rw [show session.run 21 (printing call) = _ from hprinted]
    refine ⟨htext, rfl, ?_⟩
    show behind.machine.output.text ++ (value.text ++ "\n") = _
    rw [hvalue, show behind.machine.output.text = _ from htext]
    rfl

end Lox
