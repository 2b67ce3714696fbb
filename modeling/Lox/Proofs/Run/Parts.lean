import Lox.Evaluate
import Mathlib.Logic.Relation

set_option autoImplicit false

/-! # The parts of a run

A run consists of runs: of the operands of an expression, of the statements of a block, of the body
of a function that is called. `Point.Part` lists them, each with the machine in which it begins, and
`Point.Contains` gives the parts of parts. So it can be said of a run what happens in it, though the
interpreter only tells how it ends. -/

namespace Lox

open Eval

/-- What may have to be done in a run, with a bound on the depth of steps. -/
inductive Task where
  | evaluate (fuel : Nat) (e : Expr)
  /-- Evaluate the arguments of a call. -/
  | evaluateAll (fuel : Nat) (es : List Expr)
  | execute (fuel : Nat) (s : Stmt)
  | runAll (fuel : Nat) (ss : List Stmt)
  | call (fuel : Nat) (f : Closure) (arguments : List Value)
  | construct (fuel : Nat) (c : Class) (arguments : List Value)
  /-- Print a line. -/
  | print (text : String)

/-- The point of a run at which a task begins. -/
abbrev Point := Task × Machine

namespace Point

/-- One point begins a part of what begins at another. -/
inductive Part : Point → Point → Prop
  -- expressions
  | grouping {fuel m e} : Part (.evaluate (fuel + 1) (.grouping e), m) (.evaluate fuel e, m)
  | operand {fuel m t e} : Part (.evaluate (fuel + 1) (.unary t e), m) (.evaluate fuel e, m)
  | left {fuel m a t b} : Part (.evaluate (fuel + 1) (.binary a t b), m) (.evaluate fuel a, m)
  | right {fuel m m' a t b v} : evaluate fuel a m = .ok v m' →
      Part (.evaluate (fuel + 1) (.binary a t b), m) (.evaluate fuel b, m')
  | first {fuel m a t b} : Part (.evaluate (fuel + 1) (.logical a t b), m) (.evaluate fuel a, m)
  | second {fuel m m' a t b v} : evaluate fuel a m = .ok v m' → shortCircuits t v = false →
      Part (.evaluate (fuel + 1) (.logical a t b), m) (.evaluate fuel b, m')
  | assigned {fuel m id t e} : Part (.evaluate (fuel + 1) (.assign id t e), m) (.evaluate fuel e, m)
  | object {fuel m e t} : Part (.evaluate (fuel + 1) (.get e t), m) (.evaluate fuel e, m)
  | target {fuel m a t b} : Part (.evaluate (fuel + 1) (.set a t b), m) (.evaluate fuel a, m)
  | value {fuel m m' a t b identity c} : evaluate fuel a m = .ok (.object identity c) m' →
      Part (.evaluate (fuel + 1) (.set a t b), m) (.evaluate fuel b, m')
  -- calls
  | callee {fuel m e t es} : Part (.evaluate (fuel + 1) (.call e t es), m) (.evaluate fuel e, m)
  | arguments {fuel m m' e t es v} : evaluate fuel e m = .ok v m' →
      Part (.evaluate (fuel + 1) (.call e t es), m) (.evaluateAll fuel es, m')
  | argument {fuel m e es} : Part (.evaluateAll fuel (e :: es), m) (.evaluate fuel e, m)
  | otherArguments {fuel m m' e es v} : evaluate fuel e m = .ok v m' →
      Part (.evaluateAll fuel (e :: es), m) (.evaluateAll fuel es, m')
  | call {fuel m m' m'' e t es f vs} : evaluate fuel e m = .ok (.function f) m' →
      es.mapM (evaluate fuel) m' = .ok vs m'' → vs.length = f.definition.params.length →
      Part (.evaluate (fuel + 1) (.call e t es), m) (.call fuel f vs, m'')
  | construct {fuel m m' m'' e t es c vs} : evaluate fuel e m = .ok (.class c) m' →
      es.mapM (evaluate fuel) m' = .ok vs m'' → vs.length = c.arity →
      Part (.evaluate (fuel + 1) (.call e t es), m) (.construct fuel c vs, m'')
  | body {fuel m m' f vs chain} :
      openScope f.chain ((f.definition.params.map (·.lexeme)).zip vs) m = .ok chain m' →
      Part (.call fuel f vs, m) (.runAll fuel f.definition.body, { m' with chain })
  | initializer {fuel m m' m'' c vs v method f} : newObject c m = .ok v m' →
      c.method? initializerName = some method → bindMethod method v m' = .ok f m'' →
      Part (.construct fuel c vs, m) (.call fuel f vs, m'')
  -- statements
  | expression {fuel m e} : Part (.execute (fuel + 1) (.expression e), m) (.evaluate fuel e, m)
  | printed {fuel m e} : Part (.execute (fuel + 1) (.print e), m) (.evaluate fuel e, m)
  | print {fuel m m' e v} : evaluate fuel e m = .ok v m' →
      Part (.execute (fuel + 1) (.print e), m) (.print v.text, m')
  | bound {fuel m t e} : Part (.execute (fuel + 1) (.var t (some e)), m) (.evaluate fuel e, m)
  | block {fuel m m' ss chain} : openScope m.chain [] m = .ok chain m' →
      Part (.execute (fuel + 1) (.block ss), m) (.runAll fuel ss, { m' with chain })
  | condition {fuel m e s o} :
      Part (.execute (fuel + 1) (.ifElse e s o), m) (.evaluate fuel e, m)
  | thenBranch {fuel m m' e s o v} : evaluate fuel e m = .ok v m' → v.isTruthy = true →
      Part (.execute (fuel + 1) (.ifElse e s o), m) (.execute fuel s, m')
  | elseBranch {fuel m m' e s s' v} : evaluate fuel e m = .ok v m' → v.isTruthy = false →
      Part (.execute (fuel + 1) (.ifElse e s (some s')), m) (.execute fuel s', m')
  | loopCondition {fuel m e s} :
      Part (.execute (fuel + 1) (.loop e s), m) (.evaluate fuel e, m)
  | loopBody {fuel m m' e s v} : evaluate fuel e m = .ok v m' → v.isTruthy = true →
      Part (.execute (fuel + 1) (.loop e s), m) (.execute fuel s, m')
  | loopAgain {fuel m m' m'' e s v} : evaluate fuel e m = .ok v m' → v.isTruthy = true →
      execute fuel s m' = .ok .normal m'' →
      Part (.execute (fuel + 1) (.loop e s), m) (.execute fuel (.loop e s), m'')
  | returned {fuel m t e} : Part (.execute (fuel + 1) (.ret t (some e)), m) (.evaluate fuel e, m)
  | statement {fuel m s ss} : Part (.runAll fuel (s :: ss), m) (.execute fuel s, m)
  | otherStatements {fuel m m' s ss} : execute fuel s m = .ok .normal m' →
      Part (.runAll fuel (s :: ss), m) (.runAll fuel ss, m')

/-- What begins at one point comes to another. -/
def Contains : Point → Point → Prop := Relation.ReflTransGen Part

theorem Contains.refl (p : Point) : p.Contains p := Relation.ReflTransGen.refl

theorem Part.contains {p q r : Point} (hpart : p.Part q) (h : q.Contains r) : p.Contains r :=
  Relation.ReflTransGen.head hpart h

/-- What every part keeps is kept throughout. -/
theorem Contains.keeps {P : Point → Prop} (hP : ∀ p q : Point, p.Part q → P p → P q) {p q : Point}
    (h : p.Contains q) (hp : P p) : P q := by
  induction h with
  | refl => exact hp
  | tail _ hpart ih => exact hP _ _ hpart ih

end Point

end Lox
