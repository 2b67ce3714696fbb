import Lox.Proofs.Loops.Scopes
import Lox.Proofs.Run.Reads
import Lox.Proofs.Scoping.Visits

set_option autoImplicit false

/-! # Distances without the idle scopes

When a program runs directly, a reference is as far out as its name is declared among the scopes that
are opened then. Two tables agree on a reference if both lead out to one scope, in the one table with
the idle scopes on the way and in the other without them (`Site.Agrees`). -/

namespace Lox

/-! ## Tables -/

/-- How far out the name of a reference is declared when the program runs directly. -/
def Site.directDistance? (site : Site) : Option Nat :=
  site.scopes.kept.distance? site.reference.token.lexeme

/-- The distances of a program that runs directly, besides those known before. -/
def directDistances (program : List Stmt) (distances : Distances) : Distances :=
  distances.fill ((stmtSites [] program).map fun site => (site.reference.id, site.directDistance?))

/-- A distance with the idle scopes and one without them that lead out from a site to one scope. The
    scope just inside that of a `super` is not idle. -/
inductive Site.Agrees (site : Site) : Option Nat → Option Nat → Prop
  | global : Agrees site none none
  | scope {d : Nat} {s : OpenScope} : site.scopes[d]? = some s → s.scope.isIdle = false →
      (site.reference.sort = .super →
        ∃ inner s', d = inner + 1 ∧ site.scopes[inner]? = some s' ∧ s'.scope.isIdle = false) →
      Agrees site (some d) (some (Scopes.kept (site.scopes.take d)).length)

/-- A table for programs that run with all scopes, one for programs that run directly, and the
    identity of the next reference. -/
structure Tables where
  nested : Distances
  direct : Distances
  bound : RefId

namespace Tables

/-- Both tables know a reference, and agree on it. -/
structure Knows (T : Tables) (site : Site) : Prop where
  below : site.reference.id < T.bound
  agrees : site.Agrees (T.nested.get? site.reference.id) (T.direct.get? site.reference.id)

/-- Tables in which further references were recorded. -/
structure Grow (T T' : Tables) : Prop where
  bound : T.bound ≤ T'.bound
  nested : ∀ id < T.bound, T'.nested.get? id = T.nested.get? id
  direct : ∀ id < T.bound, T'.direct.get? id = T.direct.get? id

variable {T T' : Tables}

theorem Grow.knows (h : T.Grow T') {site : Site} (hk : T.Knows site) : T'.Knows site :=
  ⟨Nat.lt_of_lt_of_le hk.below h.bound, by
    rw [h.nested _ hk.below, h.direct _ hk.below]
    exact hk.agrees⟩

end Tables

/-! ## Programs -/

/-- What resolving finds for a reference agrees with where its name is declared among the scopes that
    are not idle. -/
theorem Site.Right.agrees {site : Site} {distances : Distances} (h : site.Right distances)
    (hnest : site.scopes.Nest) :
    site.Agrees (distances.get? site.reference.id) site.directDistance? := by
  rw [h.distance, directDistance?, hnest.distance?_kept]
  cases hd : site.distance? with
  | none =>
    rw [show site.scopes.distance? _ = none from hd]
    exact .global
  | some d =>
    obtain ⟨⟨s, hs, hname⟩, -⟩ := Scopes.of_distance? hd
    rw [show site.scopes.distance? _ = some d from hd]
    refine .scope hs (hnest.not_idle (List.mem_of_getElem? hs) hname) fun hsort => ?_
    have hspelled : site.reference.token.lexeme = "super" := by
      have hspelled := h.spelled
      rwa [Reference.Spelled, hsort] at hspelled
    refine hnest.super (h.derived hsort (hd ▸ rfl)) ?_
    rw [← hspelled]
    exact hd

section

variable {program : List Stmt} {nested direct : Distances} {bound bound' : RefId}

theorem ids_stmtSites (program : List Stmt) :
    (stmtSites [] program).map (·.reference.id) =
      (stmtReferences program).map Reference.id := by
  rw [← map_reference_stmtSites program [], List.map_map]
  rfl

variable (hdrawn : Grammar.Drawn ((stmtReferences program).map Reference.id) bound bound')

include hdrawn

/-- Resolving a program, accepted or not, changes nothing for other references than its own. -/
theorem get?_resolveProgram_of_not_drawn {id : RefId} (h : id < bound ∨ bound' ≤ id) :
    (resolveProgram program nested).distances.get? id = nested.get? id := by
  refine get?_resolveProgram program nested fun hid => ?_
  obtain ⟨hle, hlt⟩ := hdrawn.mem id hid
  exact h.elim (fun h => Nat.not_lt.2 hle h) fun h => Nat.not_lt.2 h hlt

theorem get?_directDistances_of_not_drawn {id : RefId} (h : id < bound ∨ bound' ≤ id) :
    (directDistances program direct).get? id = direct.get? id := by
  refine Distances.get?_fill_of_not_mem ?_ direct
  rw [List.map_map]
  intro hid
  obtain ⟨hle, hlt⟩ := hdrawn.mem id ((ids_stmtSites program).subst hid)
  exact h.elim (fun h => Nat.not_lt.2 hle h) fun h => Nat.not_lt.2 h hlt

/-- The tables that know an accepted program besides what they knew before. -/
theorem Tables.knows_program (hp : ProperStmts program)
    (hunknown : ∀ id, bound ≤ id → nested.get? id = none)
    (hunknown' : ∀ id, bound ≤ id → direct.get? id = none)
    (hstatic : (resolveProgram program nested).errors = []) :
    let T : Tables :=
      ⟨(resolveProgram program nested).distances, directDistances program direct, bound'⟩
    Tables.Grow ⟨nested, direct, bound⟩ T ∧ CheckedStmts T.Knows [] false false program := by
  intro T
  refine ⟨⟨hdrawn.le, fun id hid => get?_resolveProgram_of_not_drawn hdrawn (.inl hid),
    fun id hid => get?_directDistances_of_not_drawn hdrawn (.inl hid)⟩, ?_⟩
  obtain ⟨hright, hchecked⟩ := right_and_checked_of_resolveProgram hp hdrawn.nodup
    (fun r hr => hunknown _ (hdrawn.mem _ (List.mem_map_of_mem hr)).1) hstatic
  refine hchecked T.Knows fun site hsite => ?_
  have hmem := hdrawn.mem site.reference.id
    (ids_stmtSites program ▸ List.mem_map_of_mem hsite)
  have hnodup : (((stmtSites [] program).map fun site =>
      (site.reference.id, site.directDistance?)).map Prod.fst).Nodup := by
    rw [List.map_map]
    exact (ids_stmtSites program).symm ▸ hdrawn.nodup
  -- each reference is recorded once, for the site where it stands
  have hdirect : T.direct.get? site.reference.id = site.directDistance? := by
    refine (Distances.get?_fill_of_mem hnodup (List.mem_map_of_mem hsite) direct).trans ?_
    rw [hunknown' _ hmem.1, Option.or_none]
  exact ⟨hmem.2, hdirect ▸ (hright site hsite).1.agrees (nest_programSites hp site hsite)⟩

end

end Lox
