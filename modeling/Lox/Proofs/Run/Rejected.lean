import Lox.Proofs.Run.Known

set_option autoImplicit false

/-! # A rejected source leaves no trace

A source with a static error is not run, but what was found out about its names stays in the
session: the distances of its references, and that their identities have been given out. Neither is
ever looked at again. The functions and classes of a session refer to identities below the next one
(`Session.Known`), where a rejected source records nothing; and what is read later gets identities
of which nothing is known, with the rejected source or without it. So the two sessions are alike for
identities that are counted from different ones on (`Session.alike_rejected`). -/

namespace Lox

/-! ## What is left of a rejected source -/

/-- The numbers from `first` on, counted from `next` on instead. -/
def renumber (first next n : Nat) : Nat := if n < first then n else n + (next - first)

section

variable {first next n : Nat}

theorem renumber_of_lt (h : n < first) : renumber first next n = n := if_pos h

theorem renumber_of_le (h : first ≤ n) : renumber first next n = n + (next - first) :=
  if_neg (Nat.not_lt.2 h)

theorem renumber_inj {m : Nat} : renumber first next n = renumber first next m ↔ n = m := by
  unfold renumber
  split <;> split <;> omega

/-- From `first` on, what is counted comes to lie from `next` on. -/
theorem renumber_add (h : first ≤ next) (j : Nat) : renumber first next (first + j) = next + j := by
  rw [renumber_of_le (Nat.le_add_right first j)]
  omega

end

/-- Machines that refer to the same identities below one, and above it to identities that are
    counted from another one on. -/
def Likeness.renumbered (first next : RefId) (flushFails : Bool) : Likeness :=
  ⟨fun id id' => id' = renumber first next id, fun lines _ => lines = 0, fun _ _ h => h, flushFails⟩

theorem Likeness.level_renumbered (first next : RefId) (flushFails : Bool) :
    (Likeness.renumbered first next flushFails).Level := by
  refine ⟨?_, fun _ _ => Iff.rfl⟩
  rintro id _ other _ rfl rfl
  exact renumber_inj

/-- Whether a source is rejected or never given to it makes no difference to a session. -/
theorem Session.alike_rejected {record : Record} (hvalid : record.Valid) {written : List Token}
    {flushFails : Bool} (hknown : record.session.Known written flushFails) (source : List UInt8) :
    record.session.Alike
      (.renumbered record.session.nextId (record.session.parsed source).nextId flushFails)
      ⟨record.session.prepared source, (record.session.parsed source).nextId⟩ := by
  have hdrawn := (record.session.parsed_follows source).drawn
  obtain ⟨-, hunknown⟩ := hvalid.resolving hdrawn
  have hbelow : (Likeness.below record.session.nextId written flushFails).Le
      (.renumbered record.session.nextId (record.session.parsed source).nextId flushFails) := by
    refine ⟨?_, fun _ _ h => h.1⟩
    rintro id _ ⟨rfl, hid⟩
    exact (renumber_of_lt hid).symm
  have hdistances : record.session.machine.distances.Alike
      (Likeness.renumbered record.session.nextId (record.session.parsed source).nextId
        flushFails).ids
      (record.session.resolved source).distances := by
    rintro id _ rfl
    rcases Nat.lt_or_ge id record.session.nextId with hid | hid
    · rw [renumber_of_lt hid]
      exact get?_resolveProgram _ _ fun hmem => absurd (hdrawn.mem id hmem).1 (Nat.not_le.2 hid)
    · obtain ⟨j, rfl⟩ := Nat.exists_eq_add_of_le hid
      rw [renumber_add hdrawn.le, hvalid.unknown _ hid]
      exact hunknown _ (Nat.le_add_right _ j)
  exact ⟨⟨_, _, hdistances, hknown.mono hbelow rfl _ _⟩, fun j => (renumber_add hdrawn.le j).symm⟩

/-! ## Reports -/

/-- An error with which a program stops is not one of its source. -/
theorem Stop.Alike.isStatic_eq_false {L : Likeness} {e : Error} {stop : Stop}
    (h : Stop.Alike L (.error e) stop) : e.isStatic = false := by
  cases h with
  | error he => cases he <;> rfl

/-- What is reported on a source: what is wrong with it before it runs, or how its run ends. -/
theorem Session.report_cases {record : Record} (hvalid : record.Valid) {written : List Token}
    {flushFails : Bool} (hknown : record.session.Known written flushFails) (fuel : Nat)
    (source : List UInt8) :
    (record.session.run fuel source =
        (⟨.staticError, record.session.staticErrors source⟩,
          ⟨record.session.prepared source, (record.session.parsed source).nextId⟩) ∧
      record.session.staticErrors source ≠ []) ∨
    (record.session.run fuel source).1 = ⟨.completed, []⟩ ∨
    (∃ e, e.isStatic = false ∧ (record.session.run fuel source).1 = ⟨.runtimeError, [e]⟩) ∨
    (record.session.run fuel source).1 = ⟨.outOfFuel, []⟩ := by
  have hrun := hknown.runProgram fuel source
  have hpossible := (hvalid.run fuel source).2
  rw [(record.run_erase fuel source).1] at hpossible
  rw [run_eq] at hpossible ⊢
  split at hpossible
  · next hclean =>
    rw [if_pos hclean]
    refine .inr ?_
    generalize Lox.runProgram fuel (record.session.parsed source).tree
      (record.session.prepared source) = r at hrun hpossible ⊢
    cases hrun with
    | ok => exact .inl rfl
    | @error stop _ _ _ hstop =>
      cases stop with
      | error e => exact .inr (.inl ⟨e, hstop.isStatic_eq_false, rfl⟩)
      | impossible => exact absurd rfl hpossible
      | outOfFuel => exact .inr (.inr rfl)
  · next hclean =>
    rw [if_neg hclean]
    exact .inl ⟨rfl, fun hnil => hclean (List.isEmpty_iff.2 hnil)⟩

/-- **A source with a static error is as if it had never been submitted.** Whatever has been done
    with a session, a source given to it next has the status `staticError` if and only if a static
    error is reported. Then no other error is; but for distances, the machine is what it was; and
    whatever is done later, a user is told the same and the same is written as without that source.
    Any other source completes if nothing is reported and its run ends within the bound on its steps,
    and stops with a runtime error if one single error is reported, one of its run or of its
    output. -/
theorem static_errors_leave_no_trace (output : Output) (reading : Nat → Float) (before : List Step)
    (fuel : Nat) (source : List UInt8) :
    let session := (Session.start output reading).after before
    let report := (session.run fuel source).1
    let rejected := (session.run fuel source).2
    (report.status = .staticError ↔ ∃ e ∈ report.errors, e.isStatic = true) ∧
      (report.status = .staticError →
        (∀ e ∈ report.errors, e.isStatic = true) ∧
        (∃ distances, rejected.machine = { session.machine with distances }) ∧
        ∀ later,
          List.Forall₂
            (Observation.Alike (.renumbered session.nextId rejected.nextId output.flushFails))
            (session.observations later) (rejected.observations later) ∧
          (rejected.after later).machine.output = (session.after later).machine.output) ∧
      (report.status ≠ .staticError →
        (report.status = .completed ↔ report.errors = [] ∧ report.status ≠ .outOfFuel) ∧
        (report.status = .runtimeError ↔ ∃ e, report.errors = [e] ∧ e.isStatic = false)) := by
  have hvalid := Record.valid_of output reading before
  have hknown := Session.known_after output reading before
  rw [← Record.session_of] at hknown ⊢
  generalize Record.of output reading before = record at hvalid hknown ⊢
  intro session report rejected
  rcases Session.report_cases hvalid hknown fuel source with
    ⟨hrun, hsome⟩ | hreport | ⟨e, he, hreport⟩ | hreport
  · have hstatic : ∀ e ∈ report.errors, e.isStatic = true := by
      intro e hmem
      rw [show report = _ from congrArg Prod.fst hrun] at hmem
      exact session.isStatic_of_mem_staticErrors source hmem
    have hstatus : report.status = .staticError := by
      rw [show report = _ from congrArg Prod.fst hrun]
    refine ⟨⟨fun _ => ?_, fun _ => hstatus⟩, fun _ => ⟨hstatic, ?_, fun later => ?_⟩,
      fun h => absurd hstatus h⟩
    · rw [show report = _ from congrArg Prod.fst hrun] at hstatic ⊢
      obtain ⟨e, hmem⟩ := List.exists_mem_of_ne_nil _ hsome
      exact ⟨e, hmem, hstatic e hmem⟩
    · rw [show rejected = _ from congrArg Prod.snd hrun]
      exact ⟨_, rfl⟩
    · have halike := Session.alike_rejected hvalid hknown source
      rw [show rejected = _ from congrArg Prod.snd hrun]
      have hlevel := Likeness.level_renumbered session.nextId (session.parsed source).nextId
        output.flushFails
      obtain ⟨_, _, -, hlater⟩ := (halike.after hlevel later).machine
      exact ⟨halike.observations hlevel later, hlater.output⟩
  · simp [show report = _ from hreport]
  · simp [show report = _ from hreport, he]
  · simp [show report = _ from hreport]

/-- A block in which the variable is found, before there is a `return` in the wrong place. -/
def returningBlock : List UInt8 := bytesOf "\x7bvar a; a; return;\x7d"

/-- The distance of the variable is known afterwards, and makes no difference. -/
theorem static_errors_leave_no_trace_returningBlock :
    let session := Session.start (.start none false) fun _ => 0
    let rejected := (session.run 10 returningBlock).2
    rejected.machine.distances.get? 0 = some 0 ∧
      ∀ later, (rejected.after later).machine.output = (session.after later).machine.output := by
  have htrace := (static_errors_leave_no_trace (.start none false) (fun _ => 0) [] 10
    returningBlock).2.1 (by decide +kernel)
  exact ⟨by decide +kernel, fun later => (htrace.2.2 later).2⟩

end Lox
