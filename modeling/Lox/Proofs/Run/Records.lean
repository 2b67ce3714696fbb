import Lox.Proofs.Grammar.Soundness.Whole
import Lox.Proofs.Lexer.Words
import Lox.Proofs.Run.Execution
import Lox.Proofs.Scoping.Accepted
import Lox.Proofs.Scoping.Violations

set_option autoImplicit false

/-! # Sessions that take notes

A record is a session together with the programs and expressions that were run in it, and the notes
of all their runs. `Record.run` and `Record.evaluate` do what `Session.run` and `Session.evaluate` do
(`run_erase`, `evaluate_erase`), so what holds of the notes of every record holds of every session.

After any steps a record is valid (`valid_of`): its last moment is sound for the sites of all
sources that were run, no two references have the same identity, and no identity has been used that
the next parse will give out. -/

namespace Lox

/-! ## Steps -/

/-- What can be done with a session. -/
inductive Step where
  | run (fuel : Nat) (source : List UInt8)
  | evaluate (fuel : Nat) (source : List UInt8)
  | takeText

namespace Session

def step (session : Session) : Step → Session
  | .run fuel source => (session.run fuel source).2
  | .evaluate fuel source => (session.evaluate fuel source).2
  | .takeText => session.takeText.2

def after (session : Session) (steps : List Step) : Session := steps.foldl step session

end Session

/-- A session, what was run in it, and the notes of the runs. -/
structure Record where
  session : Session
  /-- The programs that were run, none of them with an error in its source. -/
  programs : List (List Stmt)
  /-- The expressions that were evaluated. -/
  expressions : List Expr
  log : List Event

namespace Record

/-- A record before its first source. -/
def start (output : Output) (reading : Nat → Float) : Record := ⟨.start output reading, [], [], []⟩

/-- The last moment of a record. -/
def moment (record : Record) : Moment := ⟨record.log, record.session.machine⟩

/-- A record behind a run that led to a moment. -/
def behind (record : Record) (μ : Moment) (nextId : RefId) : Record :=
  { record with session := ⟨μ.machine, nextId⟩, log := μ.log }

def withProgram (record : Record) (program : List Stmt) : Record :=
  { record with programs := record.programs ++ [program] }

def withExpression (record : Record) (e : Expr) : Record :=
  { record with expressions := record.expressions ++ [e] }

/-- A machine that knows the distances in a program besides those it knew. -/
def resolving (record : Record) (program : List Stmt) : Machine :=
  { record.session.machine with
    distances := (resolveProgram program record.session.machine.distances).distances }

/-- Run a source, like `Session.run`. -/
def run (fuel : Nat) (source : List UInt8) (record : Record) : Report × Record :=
  let session := record.session
  let parsed := Parse.program (Lexer.tokens source) session.nextId
  let resolved := resolveProgram parsed.tree session.machine.distances
  let machine := record.resolving parsed.tree
  let errors := Lexer.errors source ++ parsed.errors
  if parsed.ranOut then
    (⟨.impossible, []⟩, record.behind record.moment parsed.nextId)
  else if errors.isEmpty && resolved.accepted then
    let longer := record.withProgram parsed.tree
    match Noted.runProgram fuel parsed.tree ⟨record.log, machine⟩ with
    | .ok () μ => (⟨.completed, []⟩, longer.behind μ parsed.nextId)
    | .error stop μ => (stop.report, longer.behind μ parsed.nextId)
  else (⟨.staticError, errors ++ resolved.errors⟩,
    record.behind ⟨record.log, machine⟩ parsed.nextId)

/-- Evaluate an expression, like `Session.evaluate`. -/
def evaluate (fuel : Nat) (source : List UInt8) (record : Record) : Evaluation × Record :=
  let session := record.session
  let parsed := Parse.singleExpression (Lexer.tokens source) session.nextId
  let errors := Lexer.errors source ++ parsed.errors
  let unchanged := record.behind record.moment parsed.nextId
  if parsed.ranOut then (⟨none, [], some (.error .impossible)⟩, unchanged)
  else match parsed.tree, errors with
  | some e, [] =>
    let longer := record.withExpression e
    match Noted.evaluate none fuel e record.moment with
    | .ok value μ => (⟨some e, [], some (.ok value)⟩, longer.behind μ parsed.nextId)
    | .error stop μ => (⟨some e, [], some (.error stop)⟩, longer.behind μ parsed.nextId)
  | tree, errors => (⟨tree, errors, none⟩, unchanged)

def step (record : Record) : Step → Record
  | .run fuel source => (record.run fuel source).2
  | .evaluate fuel source => (record.evaluate fuel source).2
  | .takeText => { record with session := record.session.takeText.2 }

def after (record : Record) (steps : List Step) : Record := steps.foldl step record

/-- The sites of the programs that were run. -/
def programSites (record : Record) : List Site := record.programs.flatMap (stmtSites [])

/-- The sites of all sources that were run. Around an expression there are no scopes. -/
def sites (record : Record) : List Site :=
  record.programSites ++ record.expressions.flatMap fun e => sitesAt [] e.references

/-! ## A record of a session -/

variable (record : Record)

theorem run_erase (fuel : Nat) (source : List UInt8) :
    (record.run fuel source).1 = (record.session.run fuel source).1 ∧
      (record.run fuel source).2.session = (record.session.run fuel source).2 := by
  unfold run Session.run
  dsimp only
  generalize Parse.program (Lexer.tokens source) record.session.nextId = parsed
  have herase : Noted.erase (Noted.runProgram fuel parsed.tree
      ⟨record.log, record.resolving parsed.tree⟩) =
        Lox.runProgram fuel parsed.tree (record.resolving parsed.tree) :=
    Noted.erases_runProgram ..
  unfold resolving at *
  split
  · exact ⟨rfl, rfl⟩
  · split
    · rw [← herase]
      cases Noted.runProgram fuel parsed.tree ⟨record.log, _⟩ <;> exact ⟨rfl, rfl⟩
    · exact ⟨rfl, rfl⟩

theorem evaluate_erase (fuel : Nat) (source : List UInt8) :
    (record.evaluate fuel source).1 = (record.session.evaluate fuel source).1 ∧
      (record.evaluate fuel source).2.session = (record.session.evaluate fuel source).2 := by
  unfold evaluate Session.evaluate
  dsimp only
  generalize Parse.singleExpression (Lexer.tokens source) record.session.nextId = parsed
  split
  · exact ⟨rfl, rfl⟩
  · cases parsed.tree with
    | none => exact ⟨rfl, rfl⟩
    | some e =>
      cases Lexer.errors source ++ parsed.errors with
      | cons _ _ => exact ⟨rfl, rfl⟩
      | nil =>
        dsimp only
        have herase : Noted.erase (Noted.evaluate none fuel e record.moment) =
            Lox.evaluate fuel e record.session.machine := Noted.erases_evaluate ..
        rw [← herase]
        cases Noted.evaluate none fuel e record.moment <;> exact ⟨rfl, rfl⟩

/-- The steps of a record are those of its session. -/
theorem session_after (steps : List Step) :
    (record.after steps).session = record.session.after steps := by
  induction steps generalizing record with
  | nil => rfl
  | cons s steps ih =>
    have hstep : (record.step s).session = record.session.step s := by
      cases s with
      | run fuel source => exact (record.run_erase fuel source).2
      | evaluate fuel source => exact (record.evaluate_erase fuel source).2
      | takeText => rfl
    show ((record.step s).after steps).session = (record.session.step s).after steps
    rw [ih, hstep]

/-! ## Validity -/

/-- What holds of a record after any steps. -/
structure Valid : Prop where
  sound : record.moment.Sound (· ∈ record.sites)
  chain : record.session.machine.chain = globalChain
  nodup : (record.sites.map (·.reference.id)).Nodup
  below : ∀ site ∈ record.sites, site.reference.id < record.session.nextId
  unknown : ∀ id, record.session.nextId ≤ id →
    record.session.machine.distances.get? id = none
  placed : ∀ site ∈ record.programSites, site.Placed

/-- At the start there is one frame, and all it binds is the clock. -/
theorem simple_of_start {output : Output} {reading : Nat → Float} {frame : FrameId} {name : String}
    {v : Value} (h : (Machine.start output reading).store.lookup? frame name = some v) :
    v.Simple := by
  let empty : Store Value := (Store.empty.openIn []).2
  have hstore : (Machine.start output reading).store =
    empty.bindIn 0 Native.clock.name (.native .clock) := rfl
  rw [hstore] at h
  rcases Store.lookup?_of_bindIn _ _ h with ⟨-, -, rfl⟩ | h
  · trivial
  · rw [Store.lookup?_openIn] at h
    simp [Store.lookup?, Store.empty] at h

theorem sound_start (output : Output) (reading : Nat → Float) :
    Moment.Sound (fun _ => False) ⟨[], Machine.start output reading⟩ := by
  refine ⟨?_, fun frame name v hv => (simple_of_start hv).fits, fun object name v hv => ?_,
    fun e he => ?_, ⟨fun e he => ?_, .nil⟩, ⟨fun e he => ?_, .nil⟩, fun _ h => h.elim⟩
  · simp [Machine.start, Store.define, globalChain, Store.size_bindIn, Store.openIn, Store.empty]
  · simp [Moment.field?, Machine.start] at hv
  all_goals exact absurd he List.not_mem_nil

theorem valid_start (output : Output) (reading : Nat → Float) :
    (Record.start output reading).Valid where
  sound := (sound_start output reading).renew (fun _ h => h.elim) rfl rfl rfl
    fun _ h => absurd h List.not_mem_nil
  chain := rfl
  nodup := .nil
  below := fun _ h => absurd h List.not_mem_nil
  unknown := fun _ _ => rfl
  placed := fun _ h => absurd h List.not_mem_nil

variable {record}

/-- A record is valid behind a run of a new source whose references have new identities. -/
theorem Valid.behind {longer : Record} {more : List Site} {μ μ' : Moment} {nextId : RefId}
    (h : record.Valid) (hsites : longer.sites.Perm (record.sites ++ more))
    (hdrawn : Grammar.Drawn (more.map (·.reference.id)) record.session.nextId nextId)
    (hplaced : ∀ site ∈ longer.programSites, site.Placed) (hl : μ.Leads μ')
    (hs : μ'.Sound (· ∈ longer.sites)) (hchain : μ.machine.chain = globalChain)
    (hunknown : ∀ id, nextId ≤ id → μ.machine.distances.get? id = none) :
    (longer.behind μ' nextId).Valid where
  sound := hs
  chain := hl.chain.trans hchain
  nodup := by
    refine (hsites.map _).nodup_iff.2 ?_
    rw [List.map_append]
    refine List.nodup_append.2 ⟨h.nodup, hdrawn.nodup, fun id hid id' hid' heq => ?_⟩
    obtain ⟨site, hsite, rfl⟩ := List.mem_map.1 hid
    have hle := (hdrawn.mem id' hid').1
    rw [← heq] at hle
    exact absurd (h.below site hsite) (Nat.not_lt.2 hle)
  below := by
    intro site hsite
    rcases List.mem_append.1 (hsites.mem_iff.1 hsite) with hsite | hsite
    · exact Nat.lt_of_lt_of_le (h.below site hsite) hdrawn.le
    · exact (hdrawn.mem _ (List.mem_map_of_mem hsite)).2
  unknown := fun id hid => by
    show μ'.machine.distances.get? id = none
    rw [hl.distances]
    exact hunknown id hid
  placed := hplaced

/-! ### Programs -/

section

variable {program : List Stmt} {nextId : RefId}

/-- Resolving a new program, accepted or not, changes nothing for what was run before. -/
theorem Valid.resolving (h : record.Valid)
    (hdrawn : Grammar.Drawn ((stmtReferences program).map Reference.id) record.session.nextId
      nextId) :
    (∀ site ∈ record.sites, site.Right (record.resolving program).distances) ∧
      ∀ id, nextId ≤ id → (record.resolving program).distances.get? id = none := by
  have hkept : ∀ id, id ∉ (stmtReferences program).map Reference.id →
      (record.resolving program).distances.get? id = record.session.machine.distances.get? id :=
    fun id hid => get?_resolveProgram _ _ hid
  constructor
  · refine fun site hsite => (h.sound.right site hsite).of_get?_eq (hkept _ fun hid => ?_)
    exact absurd (h.below site hsite) (Nat.not_lt.2 (hdrawn.mem _ hid).1)
  · refine fun id hid => (hkept id fun hmem => ?_).trans
      (h.unknown id (Nat.le_trans hdrawn.le hid))
    exact absurd (hdrawn.mem id hmem).2 (Nat.not_lt.2 hid)

theorem sites_withProgram (program : List Stmt) :
    (record.withProgram program).sites.Perm (record.sites ++ stmtSites [] program) := by
  simp only [withProgram, sites, programSites, List.flatMap_append, List.flatMap_singleton,
    List.append_assoc]
  exact List.perm_append_comm.append_left _

theorem programSites_withProgram (program : List Stmt) :
    (record.withProgram program).programSites = record.programSites ++ stmtSites [] program := by
  simp only [withProgram, programSites, List.flatMap_append, List.flatMap_singleton]

/-- The run of an accepted program begins in a sound moment, with a text that is checked. -/
theorem Valid.starts (h : record.Valid) (hp : ProperStmts program)
    (hdrawn : Grammar.Drawn ((stmtReferences program).map Reference.id) record.session.nextId
      nextId)
    (hstatic : (resolveProgram program record.session.machine.distances).errors = []) :
    Moment.Sound (· ∈ (record.withProgram program).sites)
        ⟨record.log, record.resolving program⟩ ∧
      CheckedStmts (· ∈ (record.withProgram program).sites) [] false false program ∧
      ∀ site ∈ stmtSites [] program, site.Placed := by
  obtain ⟨hright, hchecked⟩ := right_and_checked_of_resolveProgram hp hdrawn.nodup
    (fun r hr => h.unknown _ (hdrawn.mem _ (List.mem_map_of_mem hr)).1) hstatic
  obtain ⟨hold, -⟩ := h.resolving hdrawn
  have hsites : (record.withProgram program).sites.Perm (record.sites ++ stmtSites [] program) :=
    sites_withProgram program
  refine ⟨?_, hchecked _ fun site hsite => hsites.mem_iff.2 (List.mem_append_right _ hsite),
    fun site hsite => (hright site hsite).2⟩
  refine h.sound.renew (fun site hsite => hsites.mem_iff.2 (List.mem_append_left _ hsite))
    rfl rfl rfl fun site hsite => ?_
  rcases List.mem_append.1 (hsites.mem_iff.1 hsite) with hsite | hsite
  · exact hold site hsite
  · exact (hright site hsite).1

/-- Running an accepted program keeps a record valid. -/
theorem Valid.runProgram (h : record.Valid) (hp : ProperStmts program)
    (hdrawn : Grammar.Drawn ((stmtReferences program).map Reference.id) record.session.nextId
      nextId)
    (hstatic : (resolveProgram program record.session.machine.distances).errors = [])
    (fuel : Nat) :
    match Noted.runProgram fuel program ⟨record.log, record.resolving program⟩ with
    | .ok () μ => ((record.withProgram program).behind μ nextId).Valid
    | .error stop μ => ((record.withProgram program).behind μ nextId).Valid ∧
      stop.Expected (· ∈ (record.withProgram program).sites) := by
  obtain ⟨hsound, hchecked, hright⟩ := h.starts hp hdrawn hstatic
  obtain ⟨-, hunknown⟩ := h.resolving hdrawn
  have hsites : (record.withProgram program).sites.Perm (record.sites ++ stmtSites [] program) :=
    sites_withProgram program
  have hplaced : ∀ site ∈ (record.withProgram program).programSites, site.Placed := by
    rw [programSites_withProgram]
    exact List.forall_mem_append.2 ⟨h.placed, hright⟩
  have hids : (stmtSites [] program).map (·.reference.id) =
      (stmtReferences program).map Reference.id := by
    rw [← map_reference_stmtSites program [], List.map_map]
    rfl
  have hrun := keeps_runProgram (μ := ⟨record.log, record.resolving program⟩) fuel h.chain hchecked
    hsound
  rw [← hids] at hdrawn
  cases hresult : Noted.runProgram fuel program ⟨record.log, record.resolving program⟩ with
  | ok a μ =>
    rw [hresult] at hrun
    exact h.behind hsites hdrawn hplaced hrun.1 hrun.2.1 h.chain hunknown
  | error stop μ =>
    rw [hresult] at hrun
    exact ⟨h.behind hsites hdrawn hplaced hrun.1 hrun.2.1 h.chain hunknown, hrun.2.2⟩

end

theorem Stop.report_status {stop : Stop} (h : stop ≠ .impossible) :
    stop.report.status ≠ .impossible := by
  cases stop with
  | impossible => exact absurd rfl h
  | _ => exact nofun

theorem spelled_of_mem_start {source : List UInt8} {firstId : RefId} {t : Token}
    (ht : t ∈ (Parse.State.start (Lexer.tokens source) firstId).rest) : t.Spelled :=
  Lexer.spelled_of_mem_tokens (Grammar.mem_of_mem_start _ _ ht)

/-- Running a source keeps a record valid and does not stop where no source should get. -/
theorem Valid.run (h : record.Valid) (fuel : Nat) (source : List UInt8) :
    (record.run fuel source).2.Valid ∧ (record.run fuel source).1.status ≠ .impossible := by
  have hparse := Grammar.program_follows (Lexer.tokens source) record.session.nextId
  unfold Record.run
  dsimp only
  generalize Parse.program (Lexer.tokens source) record.session.nextId = parsed at hparse ⊢
  rw [hparse.ranOut, if_neg Bool.false_ne_true]
  split
  · next herrors =>
    simp only [Bool.and_eq_true, List.isEmpty_iff, List.append_eq_nil_iff] at herrors
    obtain ⟨⟨-, hparsed⟩, haccepted⟩ := herrors
    have hstatic := resolveProgram_accepted_iff.1 haccepted
    have hproper := (hparse.fact hparsed).proper fun _ ht => spelled_of_mem_start ht
    have hrun := h.runProgram hproper hparse.drawn hstatic fuel
    cases hresult : Noted.runProgram fuel parsed.tree ⟨record.log, record.resolving _⟩ with
    | ok a μ =>
      rw [hresult] at hrun
      exact ⟨hrun, nofun⟩
    | error stop μ =>
      rw [hresult] at hrun
      exact ⟨hrun.1, Stop.report_status hrun.2.possible⟩
  · obtain ⟨hold, hunknown⟩ := h.resolving hparse.drawn
    have hsites : record.sites.Perm (record.sites ++ []) := by rw [List.append_nil]
    exact ⟨h.behind hsites (.nil hparse.drawn.le) h.placed (.refl _)
      (h.sound.renew (fun _ h => h) rfl rfl rfl hold) h.chain hunknown, nofun⟩

/-! ### Expressions -/

theorem sites_withExpression (e : Expr) :
    (record.withExpression e).sites = record.sites ++ sitesAt [] e.references := by
  simp only [withExpression, sites, List.flatMap_append, List.flatMap_singleton, List.append_assoc]
  rfl

/-- The evaluation of an expression begins in a sound moment, outside of all scopes. -/
theorem Valid.evaluates (h : record.Valid) {e : Expr} {nextId : RefId}
    (hspelled : ∀ r ∈ e.references, r.Spelled)
    (hdrawn : Grammar.Drawn (e.references.map Reference.id) record.session.nextId nextId) :
    Moment.Sound (· ∈ (record.withExpression e).sites) record.moment ∧
      Stands record.moment none [] ∧
      ∀ r ∈ e.references, ⟨r, []⟩ ∈ (record.withExpression e).sites := by
  rw [sites_withExpression]
  have hright : ∀ site ∈ sitesAt [] e.references,
      site.Right record.session.machine.distances := by
    intro site hsite
    obtain ⟨r, hr, rfl⟩ := List.mem_map.1 hsite
    have hnone := h.unknown _ (hdrawn.mem _ (List.mem_map_of_mem hr)).1
    exact ⟨hnone, fun _ _ _ hd => (nomatch hd), hspelled r hr, fun _ hd => (nomatch hd)⟩
  refine ⟨?_, ⟨none, ?_, nofun⟩, fun r hr => ?_⟩
  · exact h.sound.renew (fun site hsite => List.mem_append_left _ hsite) rfl rfl rfl
      (List.forall_mem_append.2 ⟨h.sound.right, hright⟩)
  · rw [show record.moment.machine.chain = globalChain from h.chain]
    exact .global
  · exact List.mem_append_right _ (List.mem_map_of_mem hr)

/-- Evaluating an expression keeps a record valid. All its names are global. -/
theorem Valid.evaluateExpression (h : record.Valid) {e : Expr} {nextId : RefId}
    (hspelled : ∀ r ∈ e.references, r.Spelled)
    (hdrawn : Grammar.Drawn (e.references.map Reference.id) record.session.nextId nextId)
    (fuel : Nat) :
    match Noted.evaluate none fuel e record.moment with
    | .ok _ μ => ((record.withExpression e).behind μ nextId).Valid
    | .error stop μ => ((record.withExpression e).behind μ nextId).Valid ∧
      stop.Expected (· ∈ (record.withExpression e).sites) := by
  have hsites : (record.withExpression e).sites = record.sites ++ sitesAt [] e.references :=
    sites_withExpression e
  obtain ⟨hsound, hstands, hknown⟩ := h.evaluates hspelled hdrawn
  have hrun := keeps_evaluate (K := (· ∈ (record.withExpression e).sites)) fuel hstands hknown hsound
  have hids : (sitesAt [] e.references).map (·.reference.id) = e.references.map Reference.id := by
    simp only [sitesAt, List.map_map]
    rfl
  have hunknown : ∀ id, nextId ≤ id → record.session.machine.distances.get? id = none :=
    fun id hid => h.unknown id (Nat.le_trans hdrawn.le hid)
  rw [← hids] at hdrawn
  have hperm := List.Perm.of_eq hsites
  cases hresult : Noted.evaluate none fuel e record.moment with
  | ok a μ =>
    rw [hresult] at hrun
    exact h.behind hperm hdrawn h.placed hrun.1 hrun.2.1 h.chain hunknown
  | error stop μ =>
    rw [hresult] at hrun
    exact ⟨h.behind hperm hdrawn h.placed hrun.1 hrun.2.1 h.chain hunknown, hrun.2.2⟩

theorem Valid.unchanged (h : record.Valid) {nextId : RefId}
    (hle : record.session.nextId ≤ nextId) : (record.behind record.moment nextId).Valid := by
  have hsites : record.sites.Perm (record.sites ++ []) := by rw [List.append_nil]
  exact h.behind hsites (.nil hle) h.placed (.refl _) h.sound h.chain
    fun id hid => h.unknown id (Nat.le_trans hle hid)

theorem Valid.evaluate (h : record.Valid) (fuel : Nat) (source : List UInt8) :
    (record.evaluate fuel source).2.Valid ∧
      (record.evaluate fuel source).1.result ≠ some (.error .impossible) := by
  have hparse := Grammar.singleExpression_follows (Lexer.tokens source) record.session.nextId
  unfold Record.evaluate
  dsimp only
  generalize Parse.singleExpression (Lexer.tokens source) record.session.nextId = parsed
    at hparse ⊢
  rw [hparse.ranOut, if_neg Bool.false_ne_true]
  split
  · next e htree herrors =>
    obtain ⟨e', he', hreads⟩ := hparse.fact (List.append_eq_nil_iff.1 herrors).2
    cases htree.symm.trans he'
    have hdrawn : Grammar.Drawn (e.references.map Reference.id) _ _ := htree ▸ hparse.drawn
    have hrun := h.evaluateExpression (hreads.proper fun _ ht => spelled_of_mem_start ht) hdrawn
      fuel
    cases hresult : Noted.evaluate none fuel e record.moment with
    | ok a μ =>
      rw [hresult] at hrun
      exact ⟨hrun, nofun⟩
    | error stop μ =>
      rw [hresult] at hrun
      refine ⟨hrun.1, fun heq => hrun.2.possible ?_⟩
      cases heq
      rfl
  · exact ⟨h.unchanged hparse.drawn.le, nofun⟩

/-! ### All steps -/

theorem Valid.takeText (h : record.Valid) :
    Valid { record with session := record.session.takeText.2 } where
  sound := h.sound.renew (fun _ h => h) rfl rfl rfl h.sound.right
  chain := h.chain
  nodup := h.nodup
  below := h.below
  unknown := h.unknown
  placed := h.placed

/-- The record of a new session after some steps. -/
def of (output : Output) (reading : Nat → Float) (steps : List Step) : Record :=
  (Record.start output reading).after steps

theorem session_of (output : Output) (reading : Nat → Float) (steps : List Step) :
    (Record.of output reading steps).session = (Session.start output reading).after steps :=
  (Record.start output reading).session_after steps

/-- After any steps a record is valid. -/
theorem valid_of (output : Output) (reading : Nat → Float) (steps : List Step) :
    (Record.of output reading steps).Valid := by
  have hall : ∀ record : Record, record.Valid → (record.after steps).Valid := by
    induction steps with
    | nil => exact fun _ h => h
    | cons s steps ih =>
      intro record h
      refine ih (record.step s) ?_
      cases s with
      | run fuel source => exact (h.run fuel source).1
      | evaluate fuel source => exact (h.evaluate fuel source).1
      | takeText => exact h.takeText
  exact hall _ (valid_start output reading)

end Record

end Lox
