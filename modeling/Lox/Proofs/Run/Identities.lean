import Lox.Proofs.Run.Reaching
import Lox.Proofs.Run.Records
import Lox.Proofs.Run.Sources
import Lox.Proofs.Scoping.Visits
import Mathlib.Data.List.Nodup
import Mathlib.Data.List.Perm.Subperm

set_option autoImplicit false

/-! # Every identity is used once

The trees that are read in a session, with mistakes or without, share no identity of a reference:
each parse starts behind the identities that the one before it handed out. A walk over one of these
trees comes by each of its references once, so it records each identity at most once, and none that
belongs to another tree (`identities_used_once`). -/

namespace Lox

namespace Session

/-! ## What the steps of a session read -/

/-- The references of the tree that is read in a step. -/
def references (session : Session) : Step → List Reference
  | .run _ source => stmtReferences (session.parsed source).tree
  | .evaluate _ source =>
    optionReferences (Parse.singleExpression (Lexer.tokens source) session.nextId).tree
  | .takeText => []

/-- The visits of the walk over the tree that is read in a step. There is no walk over an expression
    that is only evaluated. -/
def visits (session : Session) : Step → List Visit
  | .run _ source => stmtVisits (session.parsed source).tree (.start session.machine.distances)
  | .evaluate _ _ | .takeText => []

/-- What is found in some steps, one after the other. -/
def gather {α : Type} (find : Session → Step → List α) : Session → List Step → List α
  | _, [] => []
  | session, s :: steps => find session s ++ gather find (session.step s) steps

/-! ## One step -/

section

variable (session : Session)

theorem visits_subperm (s : Step) :
    List.Subperm ((session.visits s).map Visit.reference) (session.references s) := by
  cases s with
  | run fuel source => exact (stmtVisits_perm _ _).subperm
  | evaluate fuel source => exact List.nil_subperm
  | takeText => exact List.nil_subperm

theorem nextId_run (fuel : Nat) (source : List UInt8) :
    (session.run fuel source).2.nextId = (session.parsed source).nextId := by
  rw [run_eq]
  split
  · split <;> rfl
  · rfl

theorem nextId_evaluate (fuel : Nat) (source : List UInt8) :
    (session.evaluate fuel source).2.nextId =
      (Parse.singleExpression (Lexer.tokens source) session.nextId).nextId := by
  unfold Session.evaluate
  dsimp only
  split
  · rfl
  · split
    · split <;> rfl
    · rfl

/-- The next parse starts behind the identities that a step gave out. -/
theorem drawn_step (s : Step) :
    Grammar.Drawn ((session.references s).map Reference.id) session.nextId
      (session.step s).nextId := by
  cases s with
  | run fuel source =>
    show Grammar.Drawn _ _ (session.run fuel source).2.nextId
    rw [nextId_run]
    exact (session.parsed_follows source).drawn
  | evaluate fuel source =>
    show Grammar.Drawn _ _ (session.evaluate fuel source).2.nextId
    rw [nextId_evaluate]
    exact (Grammar.singleExpression_follows (Lexer.tokens source) session.nextId).drawn
  | takeText => exact .nil (Nat.le_refl _)

/-- Whether a source is run or not, the machine behind it is one that a run can reach from the
    machine that knows its distances. -/
theorem reaches_run (fuel : Nat) (source : List UInt8) :
    (session.prepared source).Reaches (session.run fuel source).2.machine := by
  rw [run_eq]
  split
  · have hmoves := runProgram_moves fuel (session.parsed source).tree (session.prepared source)
    generalize runProgram fuel (session.parsed source).tree (session.prepared source) = r
      at hmoves ⊢
    cases hmoves with
    | ok hreaches => exact hreaches
    | error hreaches => exact hreaches
  · exact .refl _

theorem reaches_evaluate (fuel : Nat) (source : List UInt8) :
    session.machine.Reaches (session.evaluate fuel source).2.machine := by
  unfold Session.evaluate
  dsimp only
  split
  · exact .refl _
  · split
    · next e _ _ =>
      have hmoves := evaluate_moves fuel e session.machine
      generalize Lox.evaluate fuel e session.machine = r at hmoves ⊢
      cases hmoves with
      | ok hreaches => exact hreaches
      | error hreaches => exact hreaches
    · exact .refl _

/-- All that is recorded in a step is what is found at its visits, whether the source is run
    afterwards or not. -/
theorem distances_step (s : Step) :
    (session.step s).machine.distances = session.machine.distances.noteAll (session.visits s) := by
  cases s with
  | run fuel source =>
    have hresolved : (session.prepared source).distances =
        session.machine.distances.noteAll (session.visits (.run fuel source)) :=
      resolveProgram_distances _ _
    exact (session.reaches_run fuel source).distances.trans hresolved
  | evaluate fuel source => exact (session.reaches_evaluate fuel source).distances
  | takeText => rfl

end

/-! ## All steps -/

/-- What some steps of a session do to identities and distances. -/
structure Settles (session : Session) (steps : List Step) : Prop where
  drawn : Grammar.Drawn ((session.gather references steps).map Reference.id) session.nextId
    (session.after steps).nextId
  visited : List.Subperm ((session.gather visits steps).map Visit.reference)
    (session.gather references steps)
  recorded : (session.after steps).machine.distances =
    session.machine.distances.noteAll (session.gather visits steps)

theorem settles (session : Session) (steps : List Step) : session.Settles steps := by
  induction steps generalizing session with
  | nil => exact ⟨.nil (Nat.le_refl _), List.nil_subperm, rfl⟩
  | cons s steps ih =>
    have hrest := ih (session.step s)
    refine ⟨?_, ?_, ?_⟩
    · rw [gather, List.map_append]
      exact (session.drawn_step s).append hrest.drawn
    · rw [gather, gather, List.map_append]
      exact (session.visits_subperm s).append hrest.visited
    · show ((session.step s).after steps).machine.distances = _
      rw [hrest.recorded, distances_step, gather, Distances.noteAll_append]

theorem Settles.nodup_visits {session : Session} {steps : List Step} (h : session.Settles steps) :
    ((session.gather visits steps).map (·.reference.id)).Nodup := by
  obtain ⟨found, hperm, hsublist⟩ := h.visited
  have hids := hperm.map Reference.id
  rw [List.map_map] at hids
  exact hids.nodup_iff.1 ((hsublist.map Reference.id).nodup h.drawn.nodup)

end Session

/-- **Every identity is used once.** Whatever sources are given to a session, with mistakes or
    without, no two references in all their trees have the same identity. For each reference that was
    resolved, the table holds what was found where it stands, and nothing for any other one. The walk
    over the next source comes by each of its references once, records at most this reference there,
    and changes nothing of what is known of those that were read before. -/
theorem identities_used_once (output : Output) (reading : Nat → Float) (steps : List Step) :
    let start := Session.start output reading
    let session := start.after steps
    let references := start.gather Session.references steps
    let visits := start.gather Session.visits steps
    (references.map Reference.id).Nodup ∧
      (∀ v ∈ visits, session.machine.distances.get? v.reference.id = v.distance?) ∧
      (∀ r ∈ references, r ∉ visits.map Visit.reference →
        session.machine.distances.get? r.id = none) ∧
      ∀ source,
        let tree := (session.parsed source).tree
        let pass := stmtVisits tree (.start session.machine.distances)
        let found := (session.resolved source).distances
        (pass.map Visit.reference).Perm (stmtReferences tree) ∧
          (pass.map (·.reference.id)).Nodup ∧
          found = session.machine.distances.noteAll pass ∧
          ∀ r ∈ references, found.get? r.id = session.machine.distances.get? r.id := by
  intro start session references visits
  have hsettles : start.Settles steps := start.settles steps
  have hnothing : ∀ id, start.machine.distances.get? id = none := fun _ => rfl
  refine ⟨hsettles.drawn.nodup, fun v hv => ?_, fun r hr hnew => ?_, fun source => ?_⟩
  · rw [show session.machine.distances = _ from hsettles.recorded,
      Distances.get?_noteAll_of_mem hsettles.nodup_visits hv, hnothing, Option.or_none]
  · have hid : r.id ∉ visits.map (·.reference.id) := by
      intro hmem
      obtain ⟨v, hv, hid⟩ := List.mem_map.1 hmem
      have hmem : v.reference ∈ references :=
        hsettles.visited.subset (List.mem_map_of_mem hv)
      have heq : v.reference = r := List.inj_on_of_nodup_map hsettles.drawn.nodup hmem hr hid
      exact hnew (heq ▸ List.mem_map_of_mem hv)
    rw [show session.machine.distances = _ from hsettles.recorded,
      Distances.get?_noteAll_of_not_mem hid, hnothing]
  · have hperm := stmtVisits_perm (session.parsed source).tree (.start session.machine.distances)
    have hids := hperm.map Reference.id
    rw [List.map_map] at hids
    have hdrawn : Grammar.Drawn ((stmtReferences (session.parsed source).tree).map Reference.id)
        session.nextId (session.parsed source).nextId := (session.parsed_follows source).drawn
    have hdistances := resolveProgram_distances (session.parsed source).tree
      session.machine.distances
    refine ⟨hperm, hids.nodup_iff.2 hdrawn.nodup, hdistances, fun r hr => ?_⟩
    refine get?_resolveProgram _ _ fun hmem => ?_
    -- what was read before has smaller identities
    have hbefore := (hsettles.drawn.mem _ (List.mem_map_of_mem hr)).2
    exact absurd hbefore (Nat.not_lt.2 (hdrawn.mem _ hmem).1)

end Lox
