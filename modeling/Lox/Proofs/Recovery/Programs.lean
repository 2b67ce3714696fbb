import Lox.Proofs.Alike.Sessions
import Lox.Proofs.Grammar.Soundness.Whole
import Lox.Proofs.Recovery.Statements

set_option autoImplicit false

/-! # Mistakes stay in their statements

A program of flat statements, right or wrong, and of anything behind them is parsed as if each
statement and what stands behind were programs of their own, parsed one after the other
(`flat_statements_stay_apart`). So every statement that is wrong is reported as it is when it stands
alone, and no other is lost or read differently. Only the identities of references depend on what
has been parsed before, and all of a program's move by the same amount. -/

namespace Lox.Parse

open Grammar

/-! ## Programs one after the other -/

/-- What two programs come to, the second parsed with the identities that the first has left. -/
def Outcome.followedBy (o o' : Outcome (List Stmt)) : Outcome (List Stmt) where
  tree := o.tree ++ o'.tree
  errors := o.errors ++ o'.errors
  nextId := o'.nextId
  ranOut := o.ranOut || o'.ranOut

/-- Parse programs one after the other. -/
def programs : List (List Token) → RefId → Outcome (List Stmt)
  | [], firstId => ⟨[], [], firstId, false⟩
  | tokens :: more, firstId =>
    (program tokens firstId).followedBy (programs more (program tokens firstId).nextId)

/-- Tokens with an end of input behind the last of them, and nowhere else. -/
structure EndsOnce (tokens : List Token) : Prop where
  front : ∀ t ∈ tokens.dropLast, isEnd t = false
  last : tokens.getLast?.any isEnd

instance (tokens : List Token) : Decidable (EndsOnce tokens) :=
  decidable_of_iff ((∀ t ∈ tokens.dropLast, isEnd t = false) ∧ tokens.getLast?.any isEnd)
    ⟨fun h => ⟨h.1, h.2⟩, fun h => ⟨h.front, h.last⟩⟩

variable {tokens flat front : List Token} {last : Token} {firstId : RefId}

theorem EndsOnce.exists_concat (h : EndsOnce tokens) :
    ∃ front last, tokens = front ++ [last] ∧ (∀ t ∈ front, isEnd t = false) ∧ isEnd last := by
  obtain ⟨hfront, hlast⟩ := h
  obtain ⟨last, hmem, hend⟩ := (Option.any_eq_true _ _).1 hlast
  obtain ⟨front, rfl⟩ := List.getLast?_eq_some_iff.1 hmem
  rw [List.dropLast_concat] at hfront
  exact ⟨front, last, rfl, hfront, hend⟩

/-- Where a parse starts if it is known which tokens stand before the end. -/
theorem start_of_terminated (hterminated : terminated tokens = front ++ [last])
    (hfront : ∀ t ∈ front, isEnd t = false) (hlast : isEnd last) :
    State.start tokens firstId = ⟨front, some last, firstId, #[]⟩ := by
  have hgo : ∀ t ∈ front, (!isEnd t) = true := fun t ht => by
    rw [hfront t ht]
    rfl
  have hnone : front.find? isEnd = none := List.find?_eq_none.2 fun t ht => by
    rw [hfront t ht]
    exact Bool.false_ne_true
  rw [State.start, hterminated, List.takeWhile_append_of_pos hgo, List.find?_append, hnone]
  simp [hlast]

theorem start_concat (hfront : ∀ t ∈ front, isEnd t = false) (hlast : isEnd last) :
    State.start (front ++ [last]) firstId = ⟨front, some last, firstId, #[]⟩ :=
  start_of_terminated (by simp [terminated, hlast]) hfront hlast

/-- Tokens without an end among them get one behind them. -/
theorem exists_start (h : ∀ t ∈ tokens, isEnd t = false) (firstId : RefId) :
    ∃ last, State.start tokens firstId = ⟨tokens, some last, firstId, #[]⟩ := by
  have hend : ¬ tokens.getLast?.any isEnd := by
    rw [Option.any_eq_true]
    rintro ⟨t, ht, hend⟩
    rw [h t (List.mem_of_getLast? ht)] at hend
    exact Bool.false_ne_true hend
  exact ⟨_, start_of_terminated (if_neg hend) h rfl⟩

theorem Flat.exists_start (h : Flat flat) (firstId : RefId) :
    ∃ last, State.start flat firstId = ⟨flat, some last, firstId, #[]⟩ :=
  Parse.exists_start h.isEnd_eq_false firstId

theorem Flat.endsOnce_append (h : Flat flat) (htokens : EndsOnce tokens) :
    EndsOnce (flat ++ tokens) := by
  obtain ⟨front, last, rfl, hfront, hlast⟩ := htokens.exists_concat
  rw [← List.append_assoc]
  refine ⟨?_, by simpa using hlast⟩
  rw [List.dropLast_concat]
  exact List.forall_mem_append.2 ⟨h.isEnd_eq_false, hfront⟩

/-! ## One flat statement -/

/-- What a program comes to by its declarations. -/
theorem Declares.program_eq {ds : List Stmt} {s : State}
    (h : Declares (.start tokens firstId) ds s) :
    program tokens firstId = ⟨ds, s.errors, s.nextId, false⟩ := by
  unfold program
  rw [h.declarations_eq (hasEnd_start tokens firstId)]

/-- A program is parsed as its first declaration, read or not, and then as the program behind it. -/
theorem program_of_declaration {d : Option Stmt} {n : RefId} {reported : Array Mistake}
    (hne : (State.start tokens firstId).rest ≠ [])
    (hd : declaration (.start tokens firstId) = .ok d ⟨front, some last, n, reported⟩)
    (hfront : ∀ t ∈ front, isEnd t = false) (hlast : isEnd last) :
    program tokens firstId =
      (⟨d.toList, reported.toList.map Mistake.error, n, false⟩ : Outcome (List Stmt)).followedBy
        (program (front ++ [last]) n) := by
  obtain ⟨ds, s, hds⟩ := exists_declares (hasEnd_start (front ++ [last]) n)
  -- behind the declaration, the parse starts as one of what stands behind it does
  have hbehind : (⟨front, some last, n, reported⟩ : State) =
      (State.start (front ++ [last]) n).after reported := by
    simp [start_concat hfront hlast, State.after]
  have hall : Declares (.start tokens firstId) (d.toList ++ ds) (s.after reported) :=
    .next hne hd (hbehind ▸ hds.after reported)
  rw [hall.program_eq, hds.program_eq]
  simp [Outcome.followedBy, State.errors, State.after]

/-- A flat statement and what stands behind it are parsed one after the other. -/
theorem Flat.program_append (hflat : Flat flat) (htokens : EndsOnce tokens) :
    program (flat ++ tokens) firstId =
      (program flat firstId).followedBy (program tokens (program flat firstId).nextId) := by
  obtain ⟨front, last, rfl, hfront, hlast⟩ := htokens.exists_concat
  obtain ⟨ownLast, hstart⟩ := hflat.exists_start firstId
  let c : Setting := ⟨#[], front, some last⟩
  -- the whole starts as the statement does, amid what stands behind it
  have hamid : State.start (flat ++ (front ++ [last])) firstId =
      (State.start flat firstId).amid c := by
    rw [← List.append_assoc, start_concat
      (List.forall_mem_append.2 ⟨hflat.isEnd_eq_false, hfront⟩) hlast, hstart]
    rfl
  obtain ⟨d, s, hd, hnil, hd'⟩ := declaration_of_flat (s := .start flat firstId) (c := c)
    (by rw [hstart]; exact hflat) (hasEnd_start flat firstId)
    ⟨last, rfl, Kind.eq_of_sameAs rfl (Kind.sameAs_comm _ _ ▸ hlast)⟩
  have hne : (State.start flat firstId).rest ≠ [] := by
    rw [hstart]
    exact hflat.ne_nil
  have hne' : ((State.start flat firstId).amid c).rest ≠ [] := fun h =>
    hne (List.append_eq_nil_iff.1 h).1
  have halone : Declares (.start flat firstId) (d.toList ++ []) s := .next hne hd (.done hnil)
  have hstate : s.amid c = ⟨front, some last, s.nextId, s.reported⟩ := by
    simp [State.amid, hnil, c]
  rw [← hamid] at hne' hd'
  rw [program_of_declaration hne' (hd'.trans (by rw [hstate])) hfront hlast, halone.program_eq,
    List.append_nil]
  rfl

/-- A flat statement that is not read is reported. -/
theorem Flat.read_or_reported (h : Flat flat) (firstId : RefId) :
    (∃ s, (program flat firstId).tree = [s]) ∨
      (program flat firstId).tree = [] ∧ (program flat firstId).errors ≠ [] := by
  obtain ⟨last, hstart⟩ := h.exists_start firstId
  have hend := hasEnd_start flat firstId
  obtain ⟨d, s, hd, hnil, -⟩ := declaration_of_flat
    (c := ⟨#[], [], (State.start flat firstId).final⟩) (by rw [hstart]; exact h) hend hend
  have halone : Declares (.start flat firstId) (d.toList ++ []) s :=
    .next (by rw [hstart]; exact h.ne_nil) hd (.done hnil)
  obtain ⟨-, -, hread⟩ := (isDeclarationRule_declarationWithin _ _).of_ok hend hd
  rw [halone.program_eq, List.append_nil]
  cases d with
  | some tree => exact .inl ⟨tree, rfl⟩
  | none =>
    refine .inr ⟨rfl, fun hnone => ?_⟩
    have hquiet : s.reported = (State.start flat firstId).reported := by
      rw [hstart]
      simpa [State.errors] using hnone
    obtain ⟨_, htree, -⟩ := hread hquiet
    cases htree

/-! ## Renumbering -/

/-- Two outcomes of the same statements and the same mistakes. The identities of the one are counted
    from `n` on and those of the other from `n'` on. -/
structure Outcome.Renumbered (n n' : RefId) (o o' : Outcome (List Stmt)) : Prop where
  tree : List.Forall₂ (Stmt.Alike 0 (fun _ => True) fun id id' => ∃ j, id = n + j ∧ id' = n' + j)
    o.tree o'.tree
  errors : o'.errors = o.errors
  nextId : ∃ j, o.nextId = n + j ∧ o'.nextId = n' + j

/-- It makes no difference from where on identities are counted. -/
theorem program_renumbered (tokens : List Token) (n n' : RefId) :
    Outcome.Renumbered n n' (program tokens n) (program tokens n') := by
  by_cases hnil : tokens = []
  · have hempty : ∀ m, program tokens m = ⟨[], [], m, false⟩ := fun m =>
      Declares.program_eq (.done (by rw [hnil]; rfl))
    rw [hempty, hempty]
    exact ⟨.nil, rfl, 0, rfl, rfl⟩
  · have h : Outcome.Alike 0 (fun _ => True) (fun id id' => ∃ j, id = n + j ∧ id' = n' + j) _
        (program tokens n) (program (tokens.map (Token.down 0)) n') :=
      program_alike hnil (fun _ _ => trivial) fun j => ⟨j, rfl, rfl⟩
    rw [Token.map_down_zero] at h
    exact ⟨h.tree, by rw [h.errors, Error.map_down_zero], h.fresh 0⟩

/-! ## Many flat statements -/

theorem Outcome.followedBy_empty (o : Outcome (List Stmt)) :
    o.followedBy ⟨[], [], o.nextId, false⟩ = o := by
  simp [followedBy]

section

variable {flats : List (List Token)} (hflats : ∀ flat ∈ flats, Flat flat)
  (htokens : EndsOnce tokens)

include hflats htokens

theorem endsOnce_flatten_append : EndsOnce (flats.flatten ++ tokens) := by
  induction flats with
  | nil => exact htokens
  | cons flat flats ih =>
    rw [List.forall_mem_cons] at hflats
    rw [List.flatten_cons, List.append_assoc]
    exact hflats.1.endsOnce_append (ih hflats.2)

theorem program_flatten_append (firstId : RefId) :
    program (flats.flatten ++ tokens) firstId = programs (flats ++ [tokens]) firstId := by
  induction flats generalizing firstId with
  | nil => exact (Outcome.followedBy_empty _).symm
  | cons flat flats ih =>
    rw [List.forall_mem_cons] at hflats
    rw [List.flatten_cons, List.append_assoc,
      hflats.1.program_append (endsOnce_flatten_append hflats.2 htokens), ih hflats.2]
    rfl

/-- Flat statements, right or wrong, and what stands behind them are parsed as if each were alone:
    the statements and the mistakes of a program are those of its parts, one after the other. What a
    part comes to does not depend on the identities that are left to it, and a flat statement that
    is not read is reported. -/
theorem flat_statements_stay_apart (firstId : RefId) :
    program (flats.flatten ++ tokens) firstId = programs (flats ++ [tokens]) firstId ∧
      (∀ part ∈ flats ++ [tokens], ∀ n n',
        (program part n).Renumbered n n' (program part n')) ∧
      ∀ flat ∈ flats, ∀ n, (∃ s, (program flat n).tree = [s]) ∨
        (program flat n).tree = [] ∧ (program flat n).errors ≠ [] :=
  ⟨program_flatten_append hflats htokens firstId, fun part _ => program_renumbered part,
    fun flat hflat => (hflats flat hflat).read_or_reported⟩

end

/-- `print a + ;` and `var = true;`, which are wrong, on both sides of `b = c;`. -/
def twoMistakes : List (List Token) :=
  [[⟨.printKw, "print", 1⟩, ⟨.identifier, "a", 1⟩, ⟨.plus, "+", 1⟩, ⟨.semicolon, ";", 1⟩],
   [⟨.identifier, "b", 2⟩, ⟨.equal, "=", 2⟩, ⟨.identifier, "c", 2⟩, ⟨.semicolon, ";", 2⟩],
   [⟨.varKw, "var", 3⟩, ⟨.equal, "=", 3⟩, ⟨.trueKw, "true", 3⟩, ⟨.semicolon, ";", 3⟩]]

/-- `{ d; }` and the end of input. -/
def blockBehind : List Token :=
  [⟨.leftBrace, "\x7b", 4⟩, ⟨.identifier, "d", 4⟩, ⟨.semicolon, ";", 4⟩, ⟨.rightBrace, "\x7d", 4⟩,
   ⟨.endOfInput, "", 4⟩]

theorem flat_statements_stay_apart_mistakes :
    ((∀ flat ∈ twoMistakes, Flat flat) ∧ EndsOnce blockBehind) ∧
      (program (twoMistakes.flatten ++ blockBehind) 0 = programs (twoMistakes ++ [blockBehind]) 0 ∧
        (∀ part ∈ twoMistakes ++ [blockBehind], ∀ n n',
          (program part n).Renumbered n n' (program part n')) ∧
        ∀ flat ∈ twoMistakes, ∀ n, (∃ s, (program flat n).tree = [s]) ∨
          (program flat n).tree = [] ∧ (program flat n).errors ≠ []) ∧
      (programs (twoMistakes ++ [blockBehind]) 0).errors.length = 2 ∧
      (programs (twoMistakes ++ [blockBehind]) 0).tree.length = 2 := by
  have hflats : ∀ flat ∈ twoMistakes, Flat flat := by decide +kernel
  have htokens : EndsOnce blockBehind := by decide +kernel
  exact ⟨⟨hflats, htokens⟩, flat_statements_stay_apart hflats htokens 0, by decide +kernel,
    by decide +kernel⟩

end Lox.Parse
