import Lox.Parse.Expression
import Lox.Proofs.Alike.Steps
import Lox.Proofs.Alike.Trees

set_option autoImplicit false

/-! # Alike sources are parsed alike

Two parses of the same text, from different lines on and with different identities to hand out, go
the same way: they read the same tokens and fail at the same places, and what they give is alike.
This holds of every rule of the parser, whatever tokens it is run on; here of its steps and of the
rules for expressions. -/

namespace Lox.Parse

/-! ## States -/

def Mistake.down (lines : Nat) (m : Mistake) : Mistake := { m with token := m.token.down lines }

def Failure.down (lines : Nat) : Failure → Failure
  | .mistake m => .mistake (m.down lines)
  | .outOfTokens => .outOfTokens

section

variable (lines : Nat) (moved : Token → Prop) (ids : RefId → RefId → Prop)

/-- Two states in which the same text is still to be read. The identities that will be handed out
    correspond to each other. -/
structure State.Alike (s s' : State) : Prop where
  rest : s'.rest = s.rest.map (Token.down lines)
  final : s'.final = s.final.map (Token.down lines)
  rest_moved : ∀ t ∈ s.rest, moved t
  final_moved : ∀ t ∈ s.final, moved t
  fresh : ∀ j, ids (s.nextId + j) (s'.nextId + j)
  reported : s'.reported = s.reported.map (Mistake.down lines)
  reported_moved : ∀ m ∈ s.reported, moved m.token

/-- Two failures at the same place of the text. -/
structure Failure.Alike (f f' : Failure) : Prop where
  eq : f' = f.down lines
  moved : ∀ m, f = .mistake m → moved m.token

/-- Two parsers that go the same way in alike states. -/
abbrev Alike {α β : Type} (R : α → β → Prop) (p : Parser α) (p' : Parser β) : Prop :=
  Matches (Failure.Alike lines moved) (State.Alike lines moved ids) R p p'

end

variable {lines : Nat} {moved : Token → Prop} {ids : RefId → RefId → Prop} {α β : Type}
  {R : α → β → Prop}

/-! ## Steps -/

theorem State.Alike.next? {s s' : State} (h : s.Alike lines moved ids s') :
    s'.next? = s.next?.map (Token.down lines) := by
  rw [State.next?, State.next?, h.rest, h.final]
  cases s.rest <;> rfl

theorem State.Alike.moved_of_next? {s s' : State} (h : s.Alike lines moved ids s') {t : Token}
    (ht : s.next? = some t) : moved t := by
  rcases hrest : s.rest with _ | ⟨u, us⟩
  · exact h.final_moved t (by simpa [State.next?, hrest] using ht)
  · refine h.rest_moved t ?_
    have heq : u = t := by simpa [State.next?, hrest] using ht
    rw [hrest, heq]
    exact List.mem_cons_self

theorem peek_alike :
    Alike lines moved ids (fun t t' => moved t ∧ t' = t.down lines) peek peek := by
  intro s s' h
  have hmoved := fun t => h.moved_of_next? (t := t)
  unfold peek
  rw [h.next?]
  cases hnext : s.next? with
  | none => exact .error ⟨rfl, fun _ hm => nomatch hm⟩ h
  | some t => exact .ok ⟨hmoved t hnext, rfl⟩ h

theorem advance_alike : Alike lines moved ids (fun _ _ => True) advance advance := by
  refine peek_alike.bind fun _ _ _ s s' h => ?_
  have hrest : s'.rest.tail = s.rest.tail.map (Token.down lines) := by simp [h.rest]
  have hmoved : ∀ t ∈ s.rest.tail, moved t := fun t ht => h.rest_moved t (List.mem_of_mem_tail ht)
  exact .ok trivial { h with rest := hrest, rest_moved := hmoved }

theorem atEnd_alike : Alike lines moved ids Eq atEnd atEnd := by
  refine peek_alike.bind fun _ _ _ => Matches.get_bind fun s s' h => ?_
  exact .ok (by simp [h.rest]) h

theorem fail_alike (problem : SyntaxProblem) :
    Alike lines moved ids R (fail problem) (fail problem) := by
  refine peek_alike.bind fun t t' h => .throw ⟨?_, fun m hm => ?_⟩
  · rw [h.2]
    rfl
  · cases hm
    exact h.1

theorem reportAt_alike {token : Token} (ht : moved token) (problem : SyntaxProblem) :
    Alike lines moved ids (fun _ _ => True) (reportAt token problem)
      (reportAt (token.down lines) problem) := by
  intro s s' h
  have hreported : s'.reported.push ⟨token.down lines, problem⟩ =
      (s.reported.push ⟨token, problem⟩).map (Mistake.down lines) := by
    simp [h.reported, Mistake.down]
  refine .ok trivial { h with reported := hreported, reported_moved := fun m hm => ?_ }
  rcases Array.mem_push.1 hm with hm | rfl
  · exact h.reported_moved m hm
  · exact ht

theorem report_alike (problem : SyntaxProblem) :
    Alike lines moved ids (fun _ _ => True) (report problem) (report problem) :=
  peek_alike.bind fun _ _ h => h.2 ▸ reportAt_alike h.1 problem

theorem freshId_alike : Alike lines moved ids ids freshId freshId := by
  intro s s' h
  have hfresh : ∀ j, ids (s.nextId + 1 + j) (s'.nextId + 1 + j) := by
    intro j
    rw [Nat.add_assoc, Nat.add_assoc]
    exact h.fresh (1 + j)
  exact .ok (h.fresh 0) { h with fresh := hfresh }

theorem takeIf_alike (test : Kind → Bool) :
    Alike lines moved ids (fun t t' => (∀ u ∈ t, moved u) ∧ t' = t.map (Token.down lines))
      (takeIf test) (takeIf test) := by
  refine peek_alike.bind fun _ _ _ s s' h => ?_
  obtain ⟨rest, final, nextId, reported⟩ := s
  obtain ⟨rest', final', nextId', reported'⟩ := s'
  obtain rfl : rest' = rest.map (Token.down lines) := h.rest
  cases rest with
  | nil => exact .ok ⟨nofun, rfl⟩ h
  | cons t ts =>
    have ht : moved t := h.rest_moved t List.mem_cons_self
    show EndAlike _ _ _ (if test t.kind then _ else _) (if test t.kind then _ else _)
    cases test t.kind with
    | false => exact .ok ⟨nofun, rfl⟩ h
    | true =>
      exact .ok ⟨fun u hu => Option.mem_some.1 hu ▸ ht, rfl⟩
        { h with rest := rfl, rest_moved := fun u hu => h.rest_moved u (List.mem_cons_of_mem _ hu) }

theorem take?_alike (kind : Kind) :
    Alike lines moved ids (fun t t' => (∀ u ∈ t, moved u) ∧ t' = t.map (Token.down lines))
      (take? kind) (take? kind) :=
  takeIf_alike _

theorem nextIs_alike (kind : Kind) : Alike lines moved ids Eq (nextIs kind) (nextIs kind) := by
  refine peek_alike.bind fun _ _ _ => Matches.get_bind fun s s' h => .ok ?_ h
  rw [h.rest]
  cases s.rest <;> rfl

theorem expect_alike (kind : Kind) (problem : SyntaxProblem) :
    Alike lines moved ids (fun t t' => moved t ∧ t' = t.down lines) (expect kind problem)
      (expect kind problem) := by
  refine (take?_alike kind).bind fun t _ h => ?_
  obtain ⟨ht, rfl⟩ := h
  cases t with
  | none => exact fail_alike problem
  | some t => exact .pure ⟨ht t rfl, rfl⟩

/-! ## Loops -/

theorem repeatOver_alike {step : α → Parser (Option α)} {step' : β → Parser (Option β)}
    (hstep : ∀ a a', R a a' → Alike lines moved ids (Option.Rel R) (step a) (step' a'))
    (bound : List Token) {a : α} {a' : β} (h : R a a') :
    Alike lines moved ids R (repeatOver step bound a)
      (repeatOver step' (bound.map (Token.down lines)) a') := by
  induction bound generalizing a a' with
  | nil => exact .pure h
  | cons _ bound ih =>
    refine (hstep a a' h).bind fun b b' hb => ?_
    cases hb with
    | none => exact .pure h
    | some hb => exact ih hb

theorem repeatFrom_alike {step : α → Parser (Option α)} {step' : β → Parser (Option β)} {a : α}
    {a' : β} (h : R a a')
    (hstep : ∀ a a', R a a' → Alike lines moved ids (Option.Rel R) (step a) (step' a')) :
    Alike lines moved ids R (repeatFrom a step) (repeatFrom a' step') := by
  intro s s' hs
  unfold repeatFrom
  rw [hs.rest]
  exact repeatOver_alike hstep s.rest h s s' hs

/-- Two arrays whose items are related in turn. -/
def Items (R : α → β → Prop) (as : Array α) (bs : Array β) : Prop :=
  List.Forall₂ R as.toList bs.toList

theorem Items.push {as : Array α} {bs : Array β} {a : α} {b : β} (h : Items R as bs) (hab : R a b) :
    Items R (as.push a) (bs.push b) := by
  rw [Items, Array.toList_push, Array.toList_push]
  exact List.rel_append h (.cons hab .nil)

theorem Items.append {as : Array α} {bs : Array β} {a : Option α} {b : Option β}
    (h : Items R as bs) (hab : Option.Rel R a b) : Items R (as ++ a.toList) (bs ++ b.toList) := by
  rw [Items, Array.toList_appendList, Array.toList_appendList]
  refine List.rel_append h ?_
  cases hab with
  | none => exact .nil
  | some hab => exact .cons hab .nil

theorem commaList_alike (tooMany : SyntaxProblem) {item : Parser α} {item' : Parser β}
    (hitem : Alike lines moved ids R item item') :
    Alike lines moved ids (List.Forall₂ R) (commaList tooMany item) (commaList tooMany item') := by
  refine hitem.bind fun first first' hfirst => ?_
  refine (repeatFrom_alike (show Items R #[first] #[first'] from .cons hfirst .nil)
    fun as bs h => ?_).bind fun as bs h => .pure h
  refine (take?_alike .comma).bind fun t _ ht => ?_
  obtain ⟨-, rfl⟩ := ht
  cases t with
  | none => exact .pure .none
  | some t =>
    have hsize : as.size = bs.size := h.length_eq
    have hpush : Alike lines moved ids (Option.Rel (Items R)) (do return some (as.push (← item)))
        (do return some (bs.push (← item'))) :=
      hitem.bind fun a b hab => .pure (.some (h.push hab))
    dsimp only [Option.map_some]
    rw [← hsize]
    split
    · exact (report_alike tooMany).bind fun _ _ _ => hpush
    · exact hpush

/-! ## Expressions -/

section

variable {inner inner' : Parser Expr}
  (hinner : Alike lines moved ids (Expr.Alike lines moved ids) inner inner')

include hinner

theorem primary_alike :
    Alike lines moved ids (Expr.Alike lines moved ids) (primary inner) (primary inner') := by
  refine peek_alike.bind fun token _ h => ?_
  obtain ⟨ht, rfl⟩ := h
  rw [Token.down_kind]
  cases token.kind with
  | falseKw | trueKw | nilKw | number x | string s =>
    exact advance_alike.bind fun _ _ _ => .pure (.literal _)
  | thisKw =>
    refine advance_alike.bind fun _ _ _ => ?_
    refine freshId_alike.bind fun _ _ hid => ?_
    exact .pure (.thisRef ht hid)
  | superKw =>
    refine advance_alike.bind fun _ _ _ => ?_
    refine (expect_alike _ _).bind fun _ _ _ => ?_
    refine (expect_alike _ _).bind fun method _ h => ?_
    refine freshId_alike.bind fun _ _ hid => ?_
    obtain ⟨hmethod, rfl⟩ := h
    exact .pure (.superRef ht hmethod hid)
  | identifier =>
    refine advance_alike.bind fun _ _ _ => ?_
    refine freshId_alike.bind fun _ _ hid => ?_
    exact .pure (.var ht hid)
  | leftParen =>
    refine advance_alike.bind fun _ _ _ => ?_
    refine hinner.bind fun _ _ he => ?_
    refine (expect_alike _ _).bind fun _ _ _ => ?_
    exact .pure (.grouping he)
  | _ => exact fail_alike _

theorem finishCall_alike {callee callee' : Expr} (h : callee.Alike lines moved ids callee') :
    Alike lines moved ids (Expr.Alike lines moved ids) (finishCall inner callee)
      (finishCall inner' callee') := by
  have hclose : ∀ es es', List.Forall₂ (Expr.Alike lines moved ids) es es' →
      Alike lines moved ids (Expr.Alike lines moved ids)
        (do return .call callee (← expect .rightParen .noParenAfterArguments) es)
        (do return .call callee' (← expect .rightParen .noParenAfterArguments) es') :=
    fun es es' hes => (expect_alike _ _).bind fun paren _ hp => .pure (hp.2 ▸ .call hp.1 h hes)
  refine (nextIs_alike .rightParen).bind fun b _ hb => ?_
  subst hb
  cases b with
  | true => exact hclose [] [] .nil
  | false => exact (commaList_alike _ hinner).bind hclose

theorem call_alike :
    Alike lines moved ids (Expr.Alike lines moved ids) (call inner) (call inner') := by
  refine (primary_alike hinner).bind fun e e' he => repeatFrom_alike he fun e e' he => ?_
  refine peek_alike.bind fun token _ h => ?_
  obtain ⟨-, rfl⟩ := h
  rw [Token.down_kind]
  cases token.kind with
  | leftParen =>
    refine advance_alike.bind fun _ _ _ => ?_
    refine (finishCall_alike hinner he).bind fun _ _ h => ?_
    exact .pure (.some h)
  | dot =>
    refine advance_alike.bind fun _ _ _ => ?_
    refine (expect_alike _ _).bind fun name _ h => ?_
    obtain ⟨hname, rfl⟩ := h
    exact .pure (.some (.get hname he))
  | _ => exact .pure .none

theorem unary_alike :
    Alike lines moved ids (Expr.Alike lines moved ids) (unary inner) (unary inner') := by
  refine (repeatFrom_alike
    (R := fun ts ts' => (∀ t ∈ ts, moved t) ∧ ts' = ts.map (Token.down lines))
    ⟨List.forall_mem_nil _, rfl⟩ fun ts ts' h => ?_).bind fun ts ts' h => ?_
  · refine (takeIf_alike _).bind fun t _ ht => .pure ?_
    obtain ⟨hts, rfl⟩ := h
    obtain ⟨ht, rfl⟩ := ht
    cases t with
    | none => exact .none
    | some t => exact .some ⟨List.forall_mem_cons.2 ⟨ht t rfl, hts⟩, rfl⟩
  · refine (call_alike hinner).bind fun e e' he => ?_
    obtain ⟨hts, rfl⟩ := h
    refine .pure ?_
    induction ts generalizing e e' with
    | nil => exact he
    | cons t ts ih =>
      obtain ⟨ht, hts⟩ := List.forall_mem_cons.1 hts
      exact ih _ _ (.unary ht he) hts

end

section

variable {operand operand' : Parser Expr}

/-- A level makes nodes that are alike of operands that are alike. -/
def Level.Congruent (level : Level) : Prop :=
  ∀ (lines : Nat) (moved : Token → Prop) (ids : RefId → RefId → Prop) (l l' r r' : Expr)
    (operator : Token), moved operator → l.Alike lines moved ids l' → r.Alike lines moved ids r' →
      (level.node l operator r).Alike lines moved ids (level.node l' (operator.down lines) r')

theorem Level.congruent : ∀ level ∈ levels, level.Congruent := by
  intro level hlevel
  simp only [levels, List.mem_cons, List.not_mem_nil, or_false] at hlevel
  rcases hlevel with rfl | rfl | rfl | rfl | rfl | rfl <;>
    intro _ _ _ _ _ _ _ _ ho hl hr <;>
    first | exact .binary ho hl hr | exact .logical ho hl hr

theorem Level.chain_alike {level : Level} (hlevel : level.Congruent)
    (h : Alike lines moved ids (Expr.Alike lines moved ids) operand operand') :
    Alike lines moved ids (Expr.Alike lines moved ids) (Level.chain operand level)
      (Level.chain operand' level) := by
  refine h.bind fun e e' he => repeatFrom_alike he fun l l' hl => ?_
  refine (takeIf_alike _).bind fun operator _ ho => ?_
  obtain ⟨ho, rfl⟩ := ho
  cases operator with
  | none => exact .pure .none
  | some operator =>
    exact h.bind fun r r' hr => .pure (.some (hlevel _ _ _ _ _ _ _ operator (ho _ rfl) hl hr))

theorem chains_alike (ls : List Level) (hls : ∀ level ∈ ls, level.Congruent)
    {operand operand' : Parser Expr}
    (h : Alike lines moved ids (Expr.Alike lines moved ids) operand operand') :
    Alike lines moved ids (Expr.Alike lines moved ids) (ls.foldl Level.chain operand)
      (ls.foldl Level.chain operand') := by
  induction ls generalizing operand operand' with
  | nil => exact h
  | cons level ls ih =>
    rw [List.forall_mem_cons] at hls
    have hchain := Level.chain_alike hls.1 h
    exact ih hls.2 hchain

end

theorem assignment_alike {inner inner' : Parser Expr}
    (hinner : Alike lines moved ids (Expr.Alike lines moved ids) inner inner') :
    Alike lines moved ids (Expr.Alike lines moved ids) (assignment inner) (assignment inner') := by
  refine (chains_alike levels Level.congruent (unary_alike hinner)).bind fun target target' ht => ?_
  refine (take?_alike .equal).bind fun equals _ h => ?_
  obtain ⟨hequals, rfl⟩ := h
  cases equals with
  | none => exact .pure ht
  | some equals =>
    refine hinner.bind fun value value' hv => ?_
    have hsame := ht
    cases ht with
    | var hname _ => exact freshId_alike.bind fun _ _ hid => .pure (.assign hname hid hv)
    | get hname ho => exact .pure (.set hname ho hv)
    | literal | grouping | unary | binary | logical | assign | call | set | thisRef | superRef =>
      exact (reportAt_alike (hequals equals rfl) .invalidTarget).bind fun _ _ _ => .pure hsame

theorem expressionWithin_alike (bound : List Token) :
    Alike lines moved ids (Expr.Alike lines moved ids)
      (expressionWithin bound) (expressionWithin (bound.map (Token.down lines))) := by
  induction bound with
  | nil => exact fail_alike _
  | cons _ bound ih => exact assignment_alike ih

theorem expression_alike :
    Alike lines moved ids (Expr.Alike lines moved ids) expression expression := by
  intro s s' h
  unfold expression
  rw [h.rest]
  exact expressionWithin_alike s.rest s s' h

end Lox.Parse
