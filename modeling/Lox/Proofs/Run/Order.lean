import Lox.Proofs.Run.Parts
import Mathlib.Data.List.Pairwise

set_option autoImplicit false

/-! # The order of the moments of a run

`Point.parts` lists the parts of what begins at a point as they are run one after the other. A moment
of a run comes before another (`Point.Before`) if the second lies in what begins at the first, or if
the two lie in parts of which that of the first is listed before that of the second. Of any two moments
of a run one comes before the other (`Point.Contains.before_total`). -/

namespace Lox

open Eval

namespace Point

/-! ## Parts in order -/

/-- What is run behind a step, unless this stops the run. -/
def behind {α : Type} (x : Eval α) (m : Machine) (next : α → Machine → List Point) : List Point :=
  match x m with
  | .ok a m' => next a m'
  | .error _ _ => []

/-- The body of a callee that takes as many arguments as there are. -/
def called (fuel : Nat) (callee : Value) (vs : List Value) (m : Machine) : List Point :=
  match callee with
  | .function f =>
    if vs.length = f.definition.params.length then [(.call fuel f vs, m)] else []
  | .class c => if vs.length = c.arity then [(.construct fuel c vs, m)] else []
  | _ => []

/-- The parts of an expression. -/
def partsOfExpr (fuel : Nat) (m : Machine) : Expr → List Point
  | .grouping e | .unary _ e | .assign _ _ e | .get e _ => [(.evaluate fuel e, m)]
  | .binary a _ b => (.evaluate fuel a, m) :: behind (evaluate fuel a) m fun _ m' =>
    [(.evaluate fuel b, m')]
  | .logical a t b => (.evaluate fuel a, m) :: behind (evaluate fuel a) m fun v m' =>
    if shortCircuits t v then [] else [(.evaluate fuel b, m')]
  | .set a _ b => (.evaluate fuel a, m) :: behind (evaluate fuel a) m fun v m' =>
    match v with
    | .object _ _ => [(.evaluate fuel b, m')]
    | _ => []
  | .call e _ es => (.evaluate fuel e, m) :: behind (evaluate fuel e) m fun callee m' =>
    (.evaluateAll fuel es, m') :: behind (es.mapM (evaluate fuel)) m' fun vs m'' =>
      called fuel callee vs m''
  | _ => []

/-- The parts of a statement. -/
def partsOfStmt (fuel : Nat) (m : Machine) : Stmt → List Point
  | .expression e | .var _ (some e) | .ret _ (some e) => [(.evaluate fuel e, m)]
  | .print e => (.evaluate fuel e, m) :: behind (evaluate fuel e) m fun v m' => [(.print v.text, m')]
  | .block ss => behind (openScope m.chain []) m fun chain m' => [(.runAll fuel ss, { m' with chain })]
  | .ifElse e s s' => (.evaluate fuel e, m) :: behind (evaluate fuel e) m fun v m' =>
    if v.isTruthy then [(.execute fuel s, m')] else s'.toList.map fun s' => (.execute fuel s', m')
  | .loop e s => (.evaluate fuel e, m) :: behind (evaluate fuel e) m fun v m' =>
    if v.isTruthy then
      (.execute fuel s, m') :: behind (execute fuel s) m' fun flow m'' =>
        match flow with
        | .normal => [(.execute fuel (.loop e s), m'')]
        | _ => []
    else []
  | _ => []

/-- The parts of what begins at a point, in the order in which they are run. -/
def parts : Point → List Point
  | (.evaluate (fuel + 1) e, m) => partsOfExpr fuel m e
  | (.evaluateAll fuel (e :: es), m) => (.evaluate fuel e, m) :: behind (evaluate fuel e) m
    fun _ m' => [(.evaluateAll fuel es, m')]
  | (.execute (fuel + 1) s, m) => partsOfStmt fuel m s
  | (.runAll fuel (s :: ss), m) => (.execute fuel s, m) :: behind (execute fuel s) m fun flow m' =>
    match flow with
    | .normal => [(.runAll fuel ss, m')]
    | _ => []
  | (.call fuel f vs, m) =>
    behind (openScope f.chain ((f.definition.params.map (·.lexeme)).zip vs)) m fun chain m' =>
      [(.runAll fuel f.definition.body, { m' with chain })]
  | (.construct fuel c vs, m) => behind (newObject c) m fun object m' =>
    match c.method? initializerName with
    | none => []
    | some method => behind (bindMethod method object) m' fun f m'' => [(.call fuel f vs, m'')]
  | _ => []

theorem mem_behind {α : Type} {x : Eval α} {m : Machine} {next : α → Machine → List Point}
    {q : Point} : q ∈ behind x m next ↔ ∃ a m', x m = .ok a m' ∧ q ∈ next a m' := by
  unfold behind
  cases x m with
  | error stop m' => simp
  | ok a m' =>
    constructor
    · exact fun h => ⟨a, m', rfl, h⟩
    · rintro ⟨b, m'', heq, h⟩
      cases heq
      exact h

theorem mem_called {fuel : Nat} {callee : Value} {vs : List Value} {m : Machine} {q : Point} :
    q ∈ called fuel callee vs m ↔
      (∃ f, callee = .function f ∧ vs.length = f.definition.params.length ∧
        q = (.call fuel f vs, m)) ∨
      ∃ c, callee = .class c ∧ vs.length = c.arity ∧ q = (.construct fuel c vs, m) := by
  unfold called
  cases callee <;> simp

theorem part_of_mem_partsOfExpr {fuel : Nat} {m : Machine} {e : Expr} {q : Point}
    (h : q ∈ partsOfExpr fuel m e) : Part (.evaluate (fuel + 1) e, m) q := by
  cases e with
  | literal | var | thisRef | superRef => cases h
  | grouping e =>
    cases List.mem_singleton.1 h
    exact .grouping
  | unary t e =>
    cases List.mem_singleton.1 h
    exact .operand
  | assign id t e =>
    cases List.mem_singleton.1 h
    exact .assigned
  | get e t =>
    cases List.mem_singleton.1 h
    exact .object
  | binary a t b =>
    simp only [partsOfExpr, List.mem_cons, mem_behind, List.not_mem_nil, or_false] at h
    rcases h with rfl | ⟨v, m', hv, rfl⟩
    · exact .left
    · exact .right hv
  | logical a t b =>
    simp only [partsOfExpr, List.mem_cons, mem_behind] at h
    rcases h with rfl | ⟨v, m', hv, h⟩
    · exact .first
    · cases hshort : shortCircuits t v with
      | true => simp [hshort] at h
      | false =>
        obtain rfl : q = (.evaluate fuel b, m') := by simpa [hshort] using h
        exact .second hv hshort
  | set a t b =>
    simp only [partsOfExpr, List.mem_cons, mem_behind] at h
    rcases h with rfl | ⟨v, m', hv, h⟩
    · exact .target
    · cases v with
      | object identity c =>
        cases List.mem_singleton.1 h
        exact .value hv
      | _ => cases h
  | call e t es =>
    simp only [partsOfExpr, List.mem_cons, mem_behind, mem_called] at h
    rcases h with rfl | ⟨v, m', hv, rfl | ⟨vs, m'', hvs, ⟨f, rfl, hsize, rfl⟩ | ⟨c, rfl, hsize, rfl⟩⟩⟩
    · exact .callee
    · exact .arguments hv
    · exact .call hv hvs hsize
    · exact .construct hv hvs hsize

theorem part_of_mem_partsOfStmt {fuel : Nat} {m : Machine} {s : Stmt} {q : Point}
    (h : q ∈ partsOfStmt fuel m s) : Part (.execute (fuel + 1) s, m) q := by
  cases s with
  | function | brk | classDef => cases h
  | expression e =>
    cases List.mem_singleton.1 h
    exact .expression
  | var t o =>
    cases o with
    | none => cases h
    | some e =>
      cases List.mem_singleton.1 h
      exact .bound
  | ret t o =>
    cases o with
    | none => cases h
    | some e =>
      cases List.mem_singleton.1 h
      exact .returned
  | print e =>
    simp only [partsOfStmt, List.mem_cons, mem_behind, List.not_mem_nil, or_false] at h
    rcases h with rfl | ⟨v, m', hv, rfl⟩
    · exact .printed
    · exact .print hv
  | block ss =>
    rw [partsOfStmt, mem_behind] at h
    obtain ⟨chain, m', hopen, h⟩ := h
    cases List.mem_singleton.1 h
    exact .block hopen
  | ifElse e s o =>
    simp only [partsOfStmt, List.mem_cons, mem_behind] at h
    rcases h with rfl | ⟨v, m', hv, h⟩
    · exact .condition
    · cases htrue : v.isTruthy with
      | true =>
        obtain rfl : q = (.execute fuel s, m') := by simpa [htrue] using h
        exact .thenBranch hv htrue
      | false =>
        cases o with
        | none => simp [htrue] at h
        | some s' =>
          obtain rfl : q = (.execute fuel s', m') := by simpa [htrue] using h
          exact .elseBranch hv htrue
  | loop e s =>
    simp only [partsOfStmt, List.mem_cons, mem_behind] at h
    rcases h with rfl | ⟨v, m', hv, h⟩
    · exact .loopCondition
    · cases htrue : v.isTruthy with
      | false => simp [htrue] at h
      | true =>
        rw [htrue, if_pos rfl, List.mem_cons, mem_behind] at h
        rcases h with rfl | ⟨flow, m'', hflow, h⟩
        · exact .loopBody hv htrue
        · cases flow with
          | normal =>
            cases List.mem_singleton.1 h
            exact .loopAgain hv htrue hflow
          | _ => cases h

/-- What is listed are the parts. -/
theorem mem_parts {p q : Point} : q ∈ p.parts ↔ p.Part q := by
  constructor
  · intro h
    obtain ⟨task, m⟩ := p
    cases task with
    | evaluate fuel e =>
      cases fuel with
      | zero => cases h
      | succ fuel => exact part_of_mem_partsOfExpr h
    | execute fuel s =>
      cases fuel with
      | zero => cases h
      | succ fuel => exact part_of_mem_partsOfStmt h
    | evaluateAll fuel es =>
      cases es with
      | nil => cases h
      | cons e es =>
        simp only [parts, List.mem_cons, mem_behind, List.not_mem_nil, or_false] at h
        rcases h with rfl | ⟨v, m', hv, rfl⟩
        · exact .argument
        · exact .otherArguments hv
    | runAll fuel ss =>
      cases ss with
      | nil => cases h
      | cons s ss =>
        simp only [parts, List.mem_cons, mem_behind] at h
        rcases h with rfl | ⟨flow, m', hflow, h⟩
        · exact .statement
        · cases flow with
          | normal =>
            cases List.mem_singleton.1 h
            exact .otherStatements hflow
          | _ => cases h
    | call fuel f vs =>
      rw [parts, mem_behind] at h
      obtain ⟨chain, m', hopen, h⟩ := h
      cases List.mem_singleton.1 h
      exact .body hopen
    | construct fuel c vs =>
      rw [parts, mem_behind] at h
      obtain ⟨object, m', hobject, h⟩ := h
      cases hmethod : c.method? initializerName with
      | none => simp [hmethod] at h
      | some method =>
        rw [hmethod] at h
        obtain ⟨f, m'', hbind, h⟩ := mem_behind.1 h
        cases List.mem_singleton.1 h
        exact .initializer hobject hmethod hbind
    | print text => cases h
  · intro h
    cases h <;> simp [parts, partsOfExpr, partsOfStmt, behind, called, *]

/-! ## Moments in order -/

/-- One moment of a run comes before another: the other lies in what begins at it, or the one lies in
    a part and the other in a later part of the same whole. -/
inductive Before (start : Point) : Point → Point → Prop
  | within {p q} : start.Contains p → p.Contains q → Before start p q
  | earlier {whole a b p q} : start.Contains whole → [a, b].Sublist whole.parts → a.Contains p →
      b.Contains q → Before start p q

/-- What comes before another in a part does so in the whole. -/
theorem Contains.before {start whole p q : Point} (h : start.Contains whole)
    (hbefore : whole.Before p q) : start.Before p q := by
  cases hbefore with
  | within hp hq => exact .within (Relation.ReflTransGen.trans h hp) hq
  | earlier hwhole hsub hp hq => exact .earlier (Relation.ReflTransGen.trans h hwhole) hsub hp hq

/-- Two members of a list are the same, or one of them is listed before the other. -/
theorem eq_or_sublist_of_mem {l : List Point} {a b : Point} (ha : a ∈ l) (hb : b ∈ l) :
    a = b ∨ [a, b].Sublist l ∨ [b, a].Sublist l := by
  have hpairwise : l.Pairwise fun a b => [a, b].Sublist l ∨ [b, a].Sublist l :=
    List.pairwise_iff_forall_sublist.2 .inl
  have hsymm : Std.Symm fun a b => [a, b].Sublist l ∨ [b, a].Sublist l := ⟨fun _ _ => Or.symm⟩
  by_cases heq : a = b
  · exact .inl heq
  · exact .inr (hpairwise.forall ha hb heq)

/-- Of two moments of a run, one comes before the other. -/
theorem Contains.before_total {start p q : Point} (hp : start.Contains p) (hq : start.Contains q) :
    start.Before p q ∨ start.Before q p := by
  -- along the parts in which `p` lies, up to the one in which `q` does not
  induction hp using Relation.ReflTransGen.head_induction_on with
  | refl => exact .inl (.within (.refl p) hq)
  | @head whole a hpart hp ih =>
    have hwhole : whole.Contains p := hpart.contains hp
    rcases Relation.ReflTransGen.cases_head hq with rfl | ⟨b, hpart', hq⟩
    · exact .inr (.within (.refl _) hwhole)
    · have hlisted := eq_or_sublist_of_mem (mem_parts.2 hpart) (mem_parts.2 hpart')
      rcases hlisted with rfl | hsub | hsub
      · have hinside : ∀ {p q : Point}, a.Before p q → whole.Before p q :=
          (hpart.contains (.refl a)).before
        exact (ih hq).imp hinside hinside
      · exact .inl (.earlier (.refl whole) hsub hp hq)
      · exact .inr (.earlier (.refl whole) hsub hq hp)

end Point

end Lox
