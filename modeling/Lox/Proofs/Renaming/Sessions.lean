import Lox.Proofs.Places.Sessions
import Lox.Proofs.Renaming.Evaluation
import Lox.Proofs.Renaming.Holes
import Lox.Proofs.Renaming.Scopes
import Lox.Proofs.Renaming.Sources

set_option autoImplicit false

/-! # Running renamed programs

In a session, whatever was done with it before, nothing that is left of earlier sources has to be
renamed (`Moment.Sound.renamed_self`). So a source and the same source with a local variable renamed
start to run on machines that are the same, and run alike to the end
(`renamed_local_runs_alike`). -/

namespace Lox

variable {ρ : Renaming} {K : Site → Prop} {μ : Moment}

/-! ## What is left of earlier sources -/

theorem unmarked_replicate (n : Nat) : Unmarked (List.replicate n false) := by
  intro distance
  rw [List.getD_eq_getElem?_getD, List.getElem?_replicate]
  split <;> rfl

/-- No frame is marked, as far as frames have been opened. -/
def Moment.marks (μ : Moment) : List Bool := List.replicate μ.machine.store.frames.size false

/-- The frames of a chain that mirrors scopes have been opened. -/
theorem Mirrors.marked (hs : μ.Sound K) {owner : Option Receiver} {chain : Chain} {scopes : Scopes}
    (h : Mirrors μ owner chain scopes) :
    chain.Marked μ.marks (List.replicate chain.length false) := by
  have hmark : ∀ {frame : FrameId}, frame < μ.machine.store.frames.size →
      μ.marks[frame]? = some false := fun hlt => by
    rw [Moment.marks, List.getElem?_replicate, if_pos hlt]
  have hopened : ∀ {scope : Scope} {frame : FrameId}, .opened scope frame ∈ μ.log →
      μ.marks[frame]? = some false := fun h => hmark (hs.frames.below _ h _ rfl)
  induction h with
  | global => exact .cons (hmark hs.global) .nil
  | plain _ _ h _ ih => exact .cons (hopened h) ih
  | method _ _ _ h _ ih => exact .cons (hopened h) ih
  | derivedMethod _ houter _ _ _ h _ ih => exact .cons (hopened h) (.cons (hopened houter) ih)

namespace Moment.Sound

variable (hs : μ.Sound K)

include hs

theorem closure_renamed {f : Closure} (h : f.Fits K μ) : f.Renamed ρ μ.marks f where
  identity := rfl
  definition := by
    obtain ⟨_, _, hmirrors, -⟩ := h.body
    exact ⟨_, hmirrors.marked hs, f.definition.renamed_self (unmarked_replicate _)⟩
  chain := rfl
  isInitializer := rfl

theorem method_renamed {home : ClassBody} {m : Method} (h : m.Fits K μ home) :
    m.Renamed ρ μ.marks m := by
  refine ⟨?_, rfl⟩
  cases h with
  | plain hmirrors _ _ =>
    exact ⟨_, hmirrors.marked hs, FunctionDef.renamed_self (unmarked_replicate _).cons _⟩
  | derived hmirrors houter _ _ _ =>
    refine ⟨_, .cons ?_ (hmirrors.marked hs),
      FunctionDef.renamed_self (unmarked_replicate _).cons.cons _⟩
    rw [marks, List.getElem?_replicate, if_pos (hs.frames.below _ houter _ rfl)]

theorem class_renamed {c : Class} (h : c.Fits K μ) : c.Renamed ρ μ.marks c := by
  refine List.forall₂_same.2 fun body hbody => ⟨rfl, rfl, fun name => ?_⟩
  cases hm : body.methods.find? name with
  | none => exact .none
  | some m => exact .some (hs.method_renamed (h.methods body hbody name m hm))

theorem value_renamed {v : Value} (h : v.Fits K μ) : v.Renamed ρ μ.marks v := by
  cases v with
  | nil => exact .nil
  | bool b => exact .bool b
  | number x => exact .number x
  | string s => exact .string s
  | native f => exact .native f
  | function f => exact .function (hs.closure_renamed h)
  | «class» c => exact .class (hs.class_renamed h)
  | object identity c => exact .object identity (hs.class_renamed h)

theorem option_renamed {v : Option Value} (h : ∀ w, v = some w → w.Fits K μ) :
    Option.Rel (Value.Renamed ρ μ.marks) v v := by
  cases v with
  | none => exact .none
  | some w => exact .some (hs.value_renamed (h w rfl))

/-- Before a program runs, machines that know the same distances are the same. -/
theorem renamed_self (hchain : μ.machine.chain = globalChain) {distances distances' : Distances}
    (hknown : ∀ id, distances.get? id = ρ.distances.get? id)
    (hknown' : ∀ id, distances'.get? id = ρ.distances.get? id) :
    Machine.Renamed ρ μ.marks [false] { μ.machine with distances }
      { μ.machine with distances := distances' } where
  store := by
    refine ⟨List.length_replicate.symm, List.length_replicate.symm, fun frame marked h name => ?_⟩
    obtain rfl : marked = false := List.eq_of_mem_replicate (List.mem_of_getElem? h)
    exact hs.option_renamed (hs.values frame name)
  global := by rw [marks, List.getElem?_replicate, if_pos hs.global]
  objects := rfl
  fields := fun object name => hs.option_renamed (hs.fields object name)
  nextIdentity := rfl
  chain := rfl
  marked := by
    rw [hchain]
    exact Mirrors.global.marked hs
  known := hknown
  known' := hknown'
  output := rfl
  clock := rfl

end Moment.Sound

/-! ## Sources -/

/-- A source is one of a program: it is read as the program, without a mistake. -/
structure Session.ReadsAs (session : Session) (source : List UInt8) (program : List Stmt) :
    Prop where
  lexical : Lexer.errors source = []
  parsed : (session.parsed source).errors = []
  tree : (session.parsed source).tree = program

namespace Session.ReadsAs

variable {session : Session} {source : List UInt8} {program program' : List Stmt}

theorem reads (h : session.ReadsAs source program) :
    Grammar.Reads true .declarations session.nextId
      (Parse.State.start (Lexer.tokens source) session.nextId).rest program
      (session.parsed source).nextId [] :=
  h.tree ▸ (session.parsed_follows source).fact h.parsed

theorem proper (h : session.ReadsAs source program) : ProperStmts program :=
  h.reads.proper fun _ ht => Record.spelled_of_mem_start ht

/-- There is a source of what becomes of a program, with the same tokens but for those that are
    respelled. -/
theorem exists_renamed (h : session.ReadsAs source program) (hnew : Lexer.IsIdentifier ρ.new)
    {marks : List Bool} (hrenamed : StmtsRenamed ρ marks program program') :
    ∃ source', List.Forall₂ ρ.Respelled (Lexer.tokens source) (Lexer.tokens source') ∧
      session.ReadsAs source' program' := by
  obtain ⟨body, htokens, hbody⟩ := Lexer.exists_tokens_eq source
  have hreads := h.reads
  rw [htokens, Grammar.start_append_final hbody rfl] at hreads
  obtain ⟨us, hus, hreads'⟩ := hreads.renamed hrenamed .nil
  have hus : List.Forall₂ ρ.Respelled body us := hus
  have hkinds : us.map Token.kind = body.map Token.kind := by
    rw [← List.forall₂_eq_eq_eq, List.forall₂_map_left_iff, List.forall₂_map_right_iff]
    exact (hus.imp fun _ _ ht => ht.kind).flip
  have hbody' : ∀ u ∈ us, u.kind ≠ .endOfInput := by
    intro u hu
    obtain ⟨t, ht, heq⟩ := List.mem_map.1 (hkinds ▸ List.mem_map_of_mem hu)
    exact heq ▸ hbody t ht
  have hall : List.Forall₂ ρ.Respelled (Lexer.tokens source)
      (us ++ [⟨.endOfInput, "", 1 + source.count Lexer.newline⟩]) := by
    rw [htokens]
    exact List.rel_append hus (.cons (.inl rfl) .nil)
  obtain ⟨source', htokens', herrors⟩ := Lexer.exists_tokens_respelled hnew h.lexical hall
  have hprogram : session.parsed source' = ⟨program', [], _, false⟩ :=
    (congrArg (Parse.program · session.nextId) htokens').trans
      (Grammar.program_of_reads hbody' rfl hreads')
  exact ⟨source', htokens' ▸ hall, herrors, by rw [hprogram], by rw [hprogram]⟩

end Session.ReadsAs

/-! ## Runs -/

/-- Two reports that are the same but for the name of the variable where an error cites it. -/
structure Report.Renamed (ρ : Renaming) (report report' : Report) : Prop where
  status : report'.status = report.status
  errors : List.Forall₂ (fun e e' => ∃ ours, e' = ρ.cited ours e) report.errors report'.errors

theorem Stop.Renamed.report {stop stop' : Stop} (h : stop.Renamed ρ stop') :
    stop.report.Renamed ρ stop'.report := by
  cases h with
  | error ours e => exact ⟨rfl, .cons ⟨ours, rfl⟩ .nil⟩
  | impossible => exact ⟨rfl, .nil⟩
  | outOfFuel => exact ⟨rfl, .nil⟩

namespace Record.Valid

variable {record : Record} (h : record.Valid) {source source' : List UInt8}
  {program program' : List Stmt} (hsource : record.session.ReadsAs source program)
  (hclean : record.session.staticErrors source = [])
  (hsource' : record.session.ReadsAs source' program')
  (hρ : ρ.distances = (record.session.resolved source).distances)
  (hold : Chosen ρ.old) (hnew : Chosen ρ.new)
  (hrenamed : StmtsRenamed ρ [false] program program')

include h hsource hclean hsource' hρ hnew hrenamed

/-- What becomes of an accepted program is accepted, with the same distances. -/
theorem accepted_renamed (hw : StmtsWritten (·.lexeme ≠ ρ.new) program) :
    record.session.staticErrors source' = [] ∧
      ∀ id, (record.session.resolved source').distances.get? id = ρ.distances.get? id := by
  have hdrawn := (record.session.parsed_follows source).drawn
  have hresolved := (List.append_eq_nil_iff.1 hclean).2
  rw [Session.resolved, hsource.tree] at hresolved hρ
  rw [hsource.tree] at hdrawn
  obtain ⟨haccepted, hdistances⟩ := resolveProgram_renamed hnew hrenamed hw hsource.proper
    hsource'.proper hdrawn.nodup
    (fun r hr => h.unknown _ (hdrawn.mem _ (List.mem_map_of_mem hr)).1) hresolved hρ
  rw [Session.staticErrors, Session.resolved, hsource'.lexical, hsource'.parsed, hsource'.tree]
  exact ⟨haccepted, hdistances⟩

include hold

theorem run_renamed (hw : StmtsWritten (·.lexeme ≠ ρ.new) program) (fuel : Nat) :
    (record.session.run fuel source).1.Renamed ρ (record.session.run fuel source').1 ∧
      (record.session.run fuel source').2.machine.output =
        (record.session.run fuel source).2.machine.output := by
  obtain ⟨hclean', hknown'⟩ := h.accepted_renamed hsource hclean hsource' hρ hnew hrenamed hw
  have hmachines : Machine.Renamed ρ record.moment.marks [false] (record.session.prepared source)
      (record.session.prepared source') :=
    h.sound.renamed_self h.chain (fun _ => hρ ▸ rfl) hknown'
  have hruns := Renaming.runProgram_follows
    (fun marked => (Renaming.other_of_chosen hold hnew marked).1) fuel hrenamed _ _ hmachines
  rw [Session.run_eq, Session.run_eq, hclean, hclean', if_pos List.isEmpty_nil,
    if_pos List.isEmpty_nil, hsource.tree, hsource'.tree]
  generalize Lox.runProgram fuel program _ = result at hruns ⊢
  generalize Lox.runProgram fuel program' _ = result' at hruns ⊢
  cases hruns with
  | ok _ _ hm => exact ⟨⟨rfl, .nil⟩, hm.output⟩
  | error _ hstop hm => exact ⟨hstop.report, hm.output⟩

end Record.Valid

/-- **A local variable can be renamed.** Whatever has been done with a session, let a variable or a
    parameter of some scope of a source without static errors get a name that does not occur in the
    source. Then there is a source of the renamed program, which has the same tokens but for some
    that have the new name instead of the old one. Each source of the renamed program is without
    static errors, its references are as far out as before, and it runs with the same output and the
    same status, to the same errors but for the new name in the place of the old one. -/
theorem renamed_local_runs_alike (output : Output) (reading : Nat → Float) (before : List Step)
    (source : List UInt8) (hole : Hole (List Stmt)) (name : Token) (new : String) :
    let session := (Session.start output reading).after before
    let ρ : Renaming := ⟨name.lexeme, new, (session.resolved source).distances⟩
    let renamed := hole.fill (hole.inside.rename ρ)
    session.staticErrors source = [] → hole ∈ stmtHoles (session.parsed source).tree →
      name ∈ hole.inside.locals → Lexer.IsIdentifier new →
      (∀ t ∈ Lexer.tokens source, t.lexeme ≠ new) →
      (∃ source', List.Forall₂ ρ.Respelled (Lexer.tokens source) (Lexer.tokens source') ∧
        session.ReadsAs source' renamed) ∧
      ∀ source', session.ReadsAs source' renamed →
        session.staticErrors source' = [] ∧
        (∀ id, (session.resolved source').distances.get? id =
          (session.resolved source).distances.get? id) ∧
        ∀ fuel, (session.run fuel source).1.Renamed ρ (session.run fuel source').1 ∧
          (session.run fuel source').2.machine.output =
            (session.run fuel source).2.machine.output := by
  intro session ρ renamed hclean hole_mem hname hnew hfresh
  have hvalid := Record.valid_of output reading before
  have hsession : session = (Record.of output reading before).session :=
    (Record.session_of output reading before).symm
  obtain ⟨herrors, hresolved⟩ := List.append_eq_nil_iff.1 hclean
  obtain ⟨hlexical, hparsed⟩ := List.append_eq_nil_iff.1 herrors
  have hsource : session.ReadsAs source (session.parsed source).tree := ⟨hlexical, hparsed, rfl⟩
  have hw : StmtsWritten (·.lexeme ≠ ρ.new) (session.parsed source).tree :=
    session.parsed_written source hfresh
  obtain ⟨hold, hrenamed⟩ := renamed_of_mem_holes hole_mem hsource.proper hw
    (staticViolations_eq_nil_iff.2 hresolved) ⟨name, hname, rfl⟩
  refine ⟨hsource.exists_renamed hnew hrenamed, fun source' hsource' => ?_⟩
  clear_value session
  subst hsession
  obtain ⟨hclean', hknown'⟩ :=
    hvalid.accepted_renamed hsource hclean hsource' rfl hnew.chosen hrenamed hw
  exact ⟨hclean', hknown',
    hvalid.run_renamed hsource hclean hsource' rfl hold hnew.chosen hrenamed hw⟩

/-- A variable of a block that is assigned before it is bound, where there is a global variable of
    the same name. -/
def assignedEarly : List UInt8 := bytesOf "var a;\x7bvar a=(a=nil);\x7d"

/-- Under the name `b`, the variable of the block is assigned too early as well. -/
theorem renamed_local_runs_alike_assignedEarly :
    let session := (Session.start (.start none false) fun _ => 0).after []
    ∃ hole ∈ stmtHoles (session.parsed assignedEarly).tree, ∃ name ∈ hole.inside.locals,
      name.lexeme = "a" ∧ ∃ source', session.ReadsAs source' (hole.fill (hole.inside.rename
          ⟨name.lexeme, "b", (session.resolved assignedEarly).distances⟩)) ∧
        (session.run 20 source').1.status = .runtimeError := by
  have hclean : (((Session.start (.start none false) fun _ => 0).after []).staticErrors
      assignedEarly).isEmpty = true := by decide +kernel
  have hfails : (((Session.start (.start none false) fun _ => 0).after []).run 20
      assignedEarly).1.status = .runtimeError := by decide +kernel
  have hholes : ((stmtHoles (((Session.start (.start none false) fun _ => 0).after []).parsed
      assignedEarly).tree).any fun hole => hole.inside.locals.any (·.lexeme == "a")) = true := by
    decide +kernel
  have hfresh : ∀ t ∈ Lexer.tokens assignedEarly, t.lexeme ≠ "b" := by decide +kernel
  obtain ⟨hole, hole_mem, hlocals⟩ := List.any_eq_true.1 hholes
  obtain ⟨name, hname, hlexeme⟩ := List.any_eq_true.1 hlocals
  obtain ⟨⟨source', -, hsource'⟩, halike⟩ := renamed_local_runs_alike (.start none false)
    (fun _ => 0) [] assignedEarly hole name "b" (List.isEmpty_iff.1 hclean) hole_mem hname
    ⟨98, [], by decide, by simp, by decide +kernel, rfl⟩ hfresh
  exact ⟨hole, hole_mem, name, hname, eq_of_beq hlexeme, source', hsource',
    ((halike source' hsource').2.2 20).1.status.trans hfails⟩

end Lox
