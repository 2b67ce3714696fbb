import Lox.Proofs.Alike.Sessions
import Lox.Proofs.Run.Sources

set_option autoImplicit false

/-! # What a session refers to

The functions and classes of a session come from the sources that were given to it: their tokens are
tokens of these sources, and their references have identities that were given out with them. Said as
a likeness of the session to itself (`Session.Known`), this is kept by every step, because a step
does the same on machines that are alike. -/

namespace Lox

/-! ## Tokens of sources -/

/-- A token is one of some others, or the name `this` in the place of one. -/
def Token.Of (ts : List Token) (t : Token) : Prop := t ∈ ts ∨ ∃ u ∈ ts, t = .ofName "this" u.line

namespace Token.Of

variable {ts ts' : List Token} {t : Token}

theorem this (h : t.Of ts) : (Token.ofName "this" t.line).Of ts := by
  rcases h with h | ⟨u, hu, rfl⟩
  · exact .inr ⟨t, h, rfl⟩
  · exact .inr ⟨u, hu, rfl⟩

theorem mono (h : t.Of ts) (hts : ∀ t ∈ ts, t ∈ ts') : t.Of ts' := by
  rcases h with h | ⟨u, hu, rfl⟩
  · exact .inl (hts t h)
  · exact .inr ⟨u, hts u hu, rfl⟩

end Token.Of

/-- The tokens of the source that a step is given. -/
def Step.tokens : Step → List Token
  | .run _ source | .evaluate _ source => Lexer.tokens source
  | .takeText => []

/-! ## Machines like themselves -/

/-- Machines that differ in nothing, with identities below a bound and tokens among some only. -/
def Likeness.below (bound : RefId) (written : List Token) (flushFails : Bool) : Likeness where
  ids id id' := id' = id ∧ id < bound
  moves lines t := lines = 0 ∧ t.Of written
  moves_this _ _ h := ⟨h.1, h.2.this⟩
  flushFails := flushFails

theorem Likeness.below_le {bound bound' : RefId} (h : bound ≤ bound')
    {written written' : List Token} (hw : ∀ t ∈ written, t ∈ written') (flushFails : Bool) :
    (Likeness.below bound written flushFails).Le (.below bound' written' flushFails) :=
  ⟨fun _ _ hid => ⟨hid.1, Nat.lt_of_lt_of_le hid.2 h⟩, fun _ _ h => ⟨h.1, h.2.mono hw⟩⟩

theorem Distances.alike_below (distances : Distances) (bound : RefId) (written : List Token)
    (flushFails : Bool) :
    distances.Alike (Likeness.below bound written flushFails).ids distances := by
  rintro id _ ⟨rfl, -⟩
  rfl

theorem Machine.alike_start (output : Output) (reading : Nat → Float) :
    (Machine.start output reading).Alike (.below 0 [] output.flushFails) .empty .empty
      (.start output reading) := by
  have hempty : Store.Alike (.below 0 [] output.flushFails) .empty .empty := ⟨rfl, fun _ _ => .none⟩
  exact {
    store := (hempty.openIn []).2.define globalChain Native.clock.name (.native .clock)
    objects := rfl
    fields := fun _ _ => .none
    nextIdentity := rfl
    chain := rfl
    known := rfl
    known' := rfl
    output := rfl
    flushFails := rfl
    clock := rfl }

namespace Session

/-- A session refers only to identities that were given out, in tokens that were written. -/
def Known (written : List Token) (flushFails : Bool) (session : Session) : Prop :=
  session.machine.Alike (.below session.nextId written flushFails) session.machine.distances
    session.machine.distances session.machine

namespace Known

variable {session : Session} {written : List Token} {flushFails : Bool}

/-- With more identities and tokens, and whatever distances are known, machines stay alike. -/
theorem widen (h : session.Known written flushFails) {nextId : RefId}
    (hle : session.nextId ≤ nextId) (more : List Token) (distances distances' : Distances) :
    { session.machine with distances }.Alike (.below nextId (written ++ more) flushFails)
      distances distances' { session.machine with distances := distances' } :=
  h.mono (Likeness.below_le hle (fun _ ht => List.mem_append_left _ ht) flushFails) rfl _ _

/-- A session whose machine is like itself, whatever distances are known, is known. -/
theorem of_machine {machine : Machine} {nextId : RefId} {known known' : Distances}
    (h : machine.Alike (.below nextId written flushFails) known known' machine) :
    Known written flushFails ⟨machine, nextId⟩ :=
  { h with known := rfl, known' := rfl }

/-- A program refers to identities that were given out with it, in tokens of its source. -/
theorem program (session : Session) (source : List UInt8) (written : List Token)
    (flushFails : Bool) :
    let L := Likeness.below (session.parsed source).nextId (written ++ Lexer.tokens source) flushFails
    List.Forall₂ (Stmt.Alike 0 (L.moves 0) L.ids) (session.parsed source).tree
      (session.parsed source).tree := by
  have hdrawn := (session.parsed_follows source).drawn
  have hparse : Parse.Outcome.Alike 0 _ Eq
      (List.Forall₂ (Stmt.Alike 0 (Token.Of (Lexer.tokens source)) Eq)) (session.parsed source)
      (Parse.program ((Lexer.tokens source).map (Token.down 0)) session.nextId) :=
    Parse.program_alike (Lexer.tokens_ne_nil source)
      (fun t ht => .inl (Lexer.terminated_tokens source ▸ ht)) fun _ => rfl
  rw [Token.map_down_zero] at hparse
  exact stmts_alike_mono (fun _ ht => ⟨rfl, ht.mono fun _ ht => List.mem_append_right _ ht⟩)
    hparse.tree fun r hr _ hid => ⟨hid.symm, (hdrawn.mem _ (List.mem_map_of_mem hr)).2⟩

/-- A program of a session does the same whatever distances are known of what will be read later. -/
theorem executeAll (h : session.Known written flushFails) (fuel : Nat) (source : List UInt8)
    {distances : Distances} (hd : ∀ id < (session.parsed source).nextId,
      distances.get? id = (session.resolved source).distances.get? id) :
    let L := Likeness.below (session.parsed source).nextId (written ++ Lexer.tokens source) flushFails
    EndAlike (Stop.Alike L) (Machine.Alike L (session.resolved source).distances distances)
      (Flow.Alike L) (runAll (execute fuel) (session.parsed source).tree (session.prepared source))
      (runAll (execute fuel) (session.parsed source).tree { session.machine with distances }) := by
  refine executeAll_runs ?_ fuel (program session source written flushFails) _ _
    (h.widen (session.parsed_follows source).drawn.le _ _ _)
  rintro _ id ⟨rfl, hid⟩
  exact hd id hid

theorem runProgram (h : session.Known written flushFails) (fuel : Nat) (source : List UInt8) :
    let L := Likeness.below (session.parsed source).nextId (written ++ Lexer.tokens source) flushFails
    EndAlike (Stop.Alike L)
      (Machine.Alike L (session.resolved source).distances (session.resolved source).distances)
      (fun _ _ => True)
      (runProgram fuel (session.parsed source).tree (session.prepared source))
      (runProgram fuel (session.parsed source).tree (session.prepared source)) :=
  runProgram_runs (Distances.alike_below _ _ _ _) fuel (program session source written flushFails)
    _ _ (h.widen (session.parsed_follows source).drawn.le _ _ _)

theorem run (h : session.Known written flushFails) (fuel : Nat) (source : List UInt8) :
    (session.run fuel source).2.Known (written ++ Lexer.tokens source) flushFails := by
  have hrun := h.runProgram fuel source
  rw [run_eq]
  split
  · generalize Lox.runProgram fuel (session.parsed source).tree (session.prepared source) = r
      at hrun ⊢
    cases hrun with
    | ok _ hm => exact .of_machine hm
    | error _ hm => exact .of_machine hm
  · exact h.widen (session.parsed_follows source).drawn.le _ _ _

theorem evaluate (h : session.Known written flushFails) (fuel : Nat) (source : List UInt8) :
    (session.evaluate fuel source).2.Known (written ++ Lexer.tokens source) flushFails := by
  have hdrawn := (Grammar.singleExpression_follows (Lexer.tokens source) session.nextId).drawn
  have hparse : Parse.Outcome.Alike 0 _ Eq
      (Option.Rel (Expr.Alike 0 (Token.Of (written ++ Lexer.tokens source)) Eq))
      (Parse.singleExpression (Lexer.tokens source) session.nextId)
      (Parse.singleExpression ((Lexer.tokens source).map (Token.down 0)) session.nextId) :=
    Parse.singleExpression_alike (Lexer.tokens_ne_nil source)
      (fun t ht => .inl (List.mem_append_right _ (Lexer.terminated_tokens source ▸ ht)))
      fun _ => rfl
  rw [Token.map_down_zero] at hparse
  have htree := hparse.tree
  unfold Session.evaluate
  dsimp only
  generalize Parse.singleExpression (Lexer.tokens source) session.nextId = parsed
    at hdrawn htree ⊢
  have hwiden := h.widen hdrawn.le (Lexer.tokens source) session.machine.distances
    session.machine.distances
  split
  · exact hwiden
  · split
    · next e heq _ =>
      rw [heq] at hdrawn htree
      cases htree with
      | some he =>
        have hexpression : e.Alike 0 (fun t => 0 = 0 ∧ t.Of (written ++ Lexer.tokens source))
            (fun id id' => id' = id ∧ id < parsed.nextId) e :=
          he.mono (fun _ ht => ⟨rfl, ht⟩) fun r hr _ hid =>
            ⟨hid.symm, (hdrawn.mem _ (List.mem_map_of_mem hr)).2⟩
        have hrun := evaluate_runs
          (Distances.alike_below _ _ (written ++ Lexer.tokens source) flushFails) fuel hexpression
          _ _ hwiden
        generalize Lox.evaluate fuel e session.machine = r at hrun ⊢
        cases hrun with
        | ok _ hm => exact .of_machine hm
        | error _ hm => exact .of_machine hm
    · exact hwiden

theorem step (h : session.Known written flushFails) (s : Step) :
    (session.step s).Known (written ++ s.tokens) flushFails := by
  cases s with
  | run fuel source => exact h.run fuel source
  | evaluate fuel source => exact h.evaluate fuel source
  | takeText =>
    rw [Step.tokens, List.append_nil]
    exact { h with output := rfl, flushFails := h.flushFails }

end Known

/-- Whatever has been done with a session, it refers only to what was given out and written. -/
theorem known_after (output : Output) (reading : Nat → Float) (steps : List Step) :
    ((start output reading).after steps).Known (steps.flatMap Step.tokens) output.flushFails := by
  have hall : ∀ (session : Session) (written : List Token),
      session.Known written output.flushFails →
        (session.after steps).Known (written ++ steps.flatMap Step.tokens) output.flushFails := by
    induction steps with
    | nil => exact fun _ written h => (List.append_nil written).symm ▸ h
    | cons s steps ih =>
      intro session written h
      rw [List.flatMap_cons, ← List.append_assoc]
      exact ih (session.step s) _ (h.step s)
  exact hall _ [] (Machine.alike_start output reading)

end Session

end Lox
