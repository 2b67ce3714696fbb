import Lox.Scope

set_option autoImplicit false

/-! # Operations on environments

An environment is a frame together with the frames around it; whoever works with one holds its
chain. `Environments.perform` does one operation by the functions of the store, `History` is any
sequence of operations on environments that have been made before.

What a sequence should lead to is said without a store, by what was done so far: which environment
lies around which (`History.outer?`), which names an environment binds (`History.Binds`), which of
those around one is the nearest that binds a name (`History.Nearest`), and what was last written to
a name (`History.LastWritten`). -/

namespace Lox

variable {α : Type} {n : Nat}

/-! ## Operations -/

/-- An operation on `n` environments, which are numbered in the order in which they were made. -/
inductive Operation (α : Type) (n : Nat) where
  | new
  | child (outer : Fin n)
  | define (env : Fin n) (name : String) (value : α)
  | get (env : Fin n) (name : String)
  | assign (env : Fin n) (name : String) (value : α)
  | getAt (env : Fin n) (distance : Nat) (name : String)
  | assignAt (env : Fin n) (distance : Nat) (name : String) (value : α)

/-- The number of environments behind an operation. -/
def Operation.count : Operation α n → Nat
  | new | child _ => n + 1
  | _ => n

/-- Whether an operation binds a name in an environment that need not bind it before. -/
def Operation.Defines (env : Nat) (name : String) : Operation α n → Prop
  | define env' name' _ => env' = env ∧ name' = name
  | _ => False

/-- The environment inside which an operation makes another. -/
def Operation.outer? : Operation α n → Nat → Option Nat
  | child outer, env => if env = n then some outer else none
  | _, _ => none

/-- What an operation gives. -/
inductive Answer (α : Type) where
  | done
  | value (v : α)
  /-- The name is not bound where it was looked for. -/
  | undefined
  deriving DecidableEq

/-- All environments: their frames, and the chain of each one. -/
structure Environments (α : Type) where
  store : Store α
  chains : Array Chain

namespace Environments

def chain (E : Environments α) (env : Nat) : Chain := E.chains[env]?.getD []

/-- Make an environment inside a chain. -/
def make (E : Environments α) (outer : Chain) : Environments α :=
  let (chain, store) := E.store.openIn outer
  ⟨store, E.chains.push chain⟩

/-- The answer to a question for a value. -/
def found : Option α → Answer α
  | some v => .value v
  | none => .undefined

/-- The answer to a change, and what is there behind it. -/
def changed (E : Environments α) : Option (Store α) → Answer α × Environments α
  | some store => (.done, { E with store })
  | none => (.undefined, E)

def perform (E : Environments α) : Operation α n → Answer α × Environments α
  | .new => (.done, E.make [])
  | .child outer => (.done, E.make (E.chain outer))
  | .define env name v => (.done, { E with store := E.store.define (E.chain env) name v })
  | .get env name => (found (E.store.get? (E.chain env) name), E)
  | .assign env name v => E.changed (E.store.assign? (E.chain env) name v)
  | .getAt env distance name => (found (E.store.getAt? (E.chain env) distance name), E)
  | .assignAt env distance name v => E.changed (E.store.assignAt? (E.chain env) distance name v)

end Environments

/-- A sequence of operations, behind which there are `n` environments. -/
inductive History (α : Type) : Nat → Type where
  | start : History α 0
  | after {n : Nat} (h : History α n) (op : Operation α n) : History α op.count

namespace History

def environments {n : Nat} : History α n → Environments α
  | start => ⟨.empty, #[]⟩
  | after h op => (h.environments.perform op).2

/-- What an operation gives behind a sequence of others. -/
def answer (h : History α n) (op : Operation α n) : Answer α := (h.environments.perform op).1

/-! ## What was done -/

/-- The environment inside which another was made. -/
def outer? {n : Nat} : History α n → Nat → Option Nat
  | start, _ => none
  | after h op, env => (op.outer? env).or (h.outer? env)

/-- The environment some steps out. -/
def ancestor? (h : History α n) : Nat → Nat → Option Nat
  | env, 0 => some env
  | env, distance + 1 => (h.outer? env).bind (h.ancestor? · distance)

/-- A name was defined in an environment. -/
def Binds {n : Nat} : History α n → Nat → String → Prop
  | start, _, _ => False
  | after h op, env, name => h.Binds env name ∨ op.Defines env name

/-- Some environment from one on outwards binds a name. -/
def Sees (h : History α n) (env : Nat) (name : String) : Prop :=
  ∃ distance home, h.ancestor? env distance = some home ∧ h.Binds home name

/-- Of the environments from one on outwards, the first that binds a name lies some steps out. -/
structure Nearest (h : History α n) (env : Nat) (name : String) (distance home : Nat) : Prop where
  place : h.ancestor? env distance = some home
  binds : h.Binds home name
  first : ∀ d < distance, ∀ inner, h.ancestor? env d = some inner → ¬ h.Binds inner name

/-- An operation gives a name of an environment a value: a definition in this environment, or an
    assignment that finds the name bound in it. -/
def Writes (h : History α n) (home : Nat) (name : String) (v : α) : Operation α n → Prop
  | .define env name' v' => env = home ∧ name' = name ∧ v' = v
  | .assign env name' v' => name' = name ∧ v' = v ∧ ∃ distance, h.Nearest env name distance home
  | .assignAt env distance name' v' =>
    name' = name ∧ v' = v ∧ h.ancestor? env distance = some home ∧ h.Binds home name
  | _ => False

/-- The last operation that gave a name of an environment a value gave it this one. -/
def LastWritten {n : Nat} : History α n → Nat → String → α → Prop
  | start, _, _, _ => False
  | after h op, home, name, v =>
    h.Writes home name v op ∨ h.LastWritten home name v ∧ ∀ w, ¬ h.Writes home name w op

end History

end Lox
