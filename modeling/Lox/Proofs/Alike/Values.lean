import Lox.Proofs.Alike.Correspondence
import Lox.Proofs.Alike.Resolving
import Lox.Proofs.Alike.Steps

set_option autoImplicit false

/-! # Machines that differ in places and identities of references only

A value is what it is but for the declarations in it: a function keeps its declaration, a class
those of its methods. Two values are alike if these declarations are, each as a whole: one may lie
some lines further down, and its references may have other identities. Two machines are alike if
all that can be looked up in them is, and all else that a program can see is the same.

A `Likeness` says which identities correspond to each other and which tokens may lie how many lines
further down. The distances that are known are no part of it, since no step changes them; a program
does the same if corresponding references have the same distances. -/

namespace Lox

/-- In what machines may differ, and whether flushing fails in both. -/
structure Likeness where
  /-- The identities of references that correspond to each other. -/
  ids : RefId → RefId → Prop
  /-- The tokens that may lie a number of lines further down. -/
  moves : Nat → Token → Prop
  /-- With a token, the name `this` in its place. -/
  moves_this : ∀ lines t, moves lines t → moves lines (.ofName "this" t.line)
  flushFails : Bool

section

variable (L : Likeness)

/-- Two declarations, one of them perhaps further down. -/
def FunctionDef.Like (f f' : FunctionDef) : Prop := ∃ lines, f.Alike lines (L.moves lines) L.ids f'

structure Method.Alike (m m' : Method) : Prop where
  definition : m.definition.Like L m'.definition
  chain : m'.chain = m.chain

structure Closure.Alike (f f' : Closure) : Prop where
  identity : f'.identity = f.identity
  definition : f.definition.Like L f'.definition
  chain : f'.chain = f.chain
  isInitializer : f'.isInitializer = f.isInitializer

structure ClassBody.Alike (b b' : ClassBody) : Prop where
  identity : b'.identity = b.identity
  name : b'.name = b.name
  methods : ∀ name, Option.Rel (Method.Alike L) (b.methods.find? name) (b'.methods.find? name)

/-- Two classes with alike ancestors. -/
def Class.Alike (c c' : Class) : Prop := List.Forall₂ (ClassBody.Alike L) c.lineage c'.lineage

/-- Two values that differ only in places and identities of references in declarations. -/
inductive Value.Alike : Value → Value → Prop
  | nil : Value.Alike .nil .nil
  | bool (b : Bool) : Value.Alike (.bool b) (.bool b)
  | number (x : Float) : Value.Alike (.number x) (.number x)
  | string (s : String) : Value.Alike (.string s) (.string s)
  | native (f : Native) : Value.Alike (.native f) (.native f)
  | function {f f' : Closure} : f.Alike L f' → Value.Alike (.function f) (.function f')
  | class {c c' : Class} : c.Alike L c' → Value.Alike (.class c) (.class c')
  | object {c c' : Class} (identity : Nat) : c.Alike L c' →
      Value.Alike (.object identity c) (.object identity c')

structure Store.Alike (store store' : Store Value) : Prop where
  size : store'.frames.size = store.frames.size
  lookup : ∀ frame name,
    Option.Rel (Value.Alike L) (store.lookup? frame name) (store'.lookup? frame name)

/-- What a field of an object is bound to. -/
def fieldOf? (objects : Array (Bindings Value)) (identity : Nat) (name : String) : Option Value :=
  objects[identity]?.bind (·.find? name)

/-- Two machines in which the same program does the same, with the distances that are known in
    them. -/
structure Machine.Alike (known known' : Distances) (m m' : Machine) : Prop where
  store : m.store.Alike L m'.store
  objects : m'.objects.size = m.objects.size
  fields : ∀ identity name,
    Option.Rel (Value.Alike L) (fieldOf? m.objects identity name)
      (fieldOf? m'.objects identity name)
  nextIdentity : m'.nextIdentity = m.nextIdentity
  chain : m'.chain = m.chain
  known : m.distances = known
  known' : m'.distances = known'
  output : m'.output = m.output
  flushFails : m.output.flushFails = L.flushFails
  clock : m'.clock = m.clock

/-- Two errors of a running program or of its output. -/
inductive Error.Alike : Error → Error → Prop
  | runtime {lines : Nat} {token : Token} (problem : RuntimeProblem) : L.moves lines token →
      Error.Alike (.runtime token problem) (.runtime (token.down lines) problem)
  | output (problem : OutputProblem) : Error.Alike (.output problem) (.output problem)

/-- Two stops for the same reason. -/
inductive Stop.Alike : Stop → Stop → Prop
  | error {e e' : Error} : e.Alike L e' → Stop.Alike (.error e) (.error e')
  | impossible : Stop.Alike .impossible .impossible
  | outOfFuel : Stop.Alike .outOfFuel .outOfFuel

/-- Two steps that do the same on alike machines. -/
abbrev Runs (known known' : Distances) {α β : Type} (R : α → β → Prop) (x : Eval α) (y : Eval β) :
    Prop :=
  Matches (Stop.Alike L) (Machine.Alike L known known') R x y

end

variable {L : Likeness}

/-! ## What corresponds to each other

Alike functions and alike methods are a correspondence, and the values that it makes correspond are
the alike ones. -/

def Likeness.correspondence (L : Likeness) : Correspondence where
  functions := Closure.Alike L
  methods := Method.Alike L
  identity h := h.identity
  name h := by
    obtain ⟨lines, hf⟩ := h.definition
    rw [hf.name, Token.down_lexeme]
  size h := by
    obtain ⟨lines, hf⟩ := h.definition
    rw [hf.params, List.length_map]
  methodSize h := by
    obtain ⟨lines, hf⟩ := h.definition
    rw [hf.params, List.length_map]

theorem ClassBody.alike_iff_under {b b' : ClassBody} :
    b.Alike L b' ↔ b.Under L.correspondence b' :=
  ⟨fun h => ⟨h.identity, h.name, h.methods⟩, fun h => ⟨h.identity, h.name, h.methods⟩⟩

theorem Class.alike_iff_under {c c' : Class} : c.Alike L c' ↔ c.Under L.correspondence c' :=
  ⟨List.Forall₂.imp fun _ _ => ClassBody.alike_iff_under.1,
    List.Forall₂.imp fun _ _ => ClassBody.alike_iff_under.2⟩

theorem Value.alike_iff_under {v v' : Value} : v.Alike L v' ↔ v.Under L.correspondence v' := by
  constructor <;> intro h
  · cases h with
    | function h => exact .function h
    | «class» h => exact .class (Class.alike_iff_under.1 h)
    | object identity h => exact .object identity (Class.alike_iff_under.1 h)
    | nil | bool | number | string | native => constructor
  · cases h with
    | function h => exact .function h
    | «class» h => exact .class (Class.alike_iff_under.2 h)
    | object identity h => exact .object identity (Class.alike_iff_under.2 h)
    | nil | bool | number | string | native => constructor

theorem Class.Alike.method? {c c' : Class} (h : c.Alike L c') (name : String) :
    Option.Rel (Method.Alike L) (c.method? name) (c'.method? name) :=
  (Class.alike_iff_under.1 h).method? name

/-- Alike declarations make alike methods. -/
theorem methodsOf_alike (chain : Chain) {lines : Nat} {fs fs' : List FunctionDef}
    (h : List.Forall₂ (FunctionDef.Alike lines (L.moves lines) L.ids) fs fs') (name : String) :
    Option.Rel (Method.Alike L) ((methodsOf chain fs).find? name)
      ((methodsOf chain fs').find? name) :=
  methodsOf_under (C := L.correspondence)
    (h.imp fun _ _ hf => ⟨by rw [hf.name, Token.down_lexeme], ⟨lines, hf⟩, rfl⟩) name

namespace Value.Alike

variable {v v' w w' : Value}

theorem isTruthy (h : v.Alike L v') : v'.isTruthy = v.isTruthy :=
  (Value.alike_iff_under.1 h).isTruthy

theorem text (h : v.Alike L v') : v'.text = v.text := (Value.alike_iff_under.1 h).text

theorem arity? (h : v.Alike L v') : v'.arity? = v.arity? := (Value.alike_iff_under.1 h).arity?

end Value.Alike

/-! ## Machines may differ in more -/

/-- Machines may differ in all that they could differ in before, and perhaps in more. -/
structure Likeness.Le (L L' : Likeness) : Prop where
  ids : ∀ id id', L.ids id id' → L'.ids id id'
  moves : ∀ lines t, L.moves lines t → L'.moves lines t

section

variable {L' : Likeness} (hle : L.Le L')

include hle

theorem FunctionDef.Like.mono {f f' : FunctionDef} (h : f.Like L f') : f.Like L' f' := by
  obtain ⟨lines, h⟩ := h
  exact ⟨lines, h.mono (hle.moves lines) fun _ _ _ hid => hle.ids _ _ hid⟩

theorem Method.Alike.mono {m m' : Method} (h : m.Alike L m') : m.Alike L' m' :=
  ⟨h.definition.mono hle, h.chain⟩

theorem Closure.Alike.mono {f f' : Closure} (h : f.Alike L f') : f.Alike L' f' :=
  { h with definition := h.definition.mono hle }

theorem Likeness.Le.correspondence : L.correspondence.Le L'.correspondence :=
  ⟨fun _ _ hf => Closure.Alike.mono hle hf, fun _ _ hm => Method.Alike.mono hle hm⟩

theorem Value.Alike.mono {v v' : Value} (h : v.Alike L v') : v.Alike L' v' :=
  Value.alike_iff_under.2 ((Value.alike_iff_under.1 h).mono hle.correspondence)

/-- Machines stay alike if they may differ in more, and whatever distances are known. -/
theorem Machine.Alike.mono {m m' : Machine} {known known' : Distances}
    (h : m.Alike L known known' m') (hflush : L'.flushFails = L.flushFails)
    (distances distances' : Distances) :
    { m with distances }.Alike L' distances distances' { m' with distances := distances' } := by
  have hvalue : ∀ v v', Value.Alike L v v' → Value.Alike L' v v' := fun _ _ hv => hv.mono hle
  have hstore : m.store.Alike L' m'.store :=
    ⟨h.store.size, fun frame name => rel_mono hvalue (h.store.lookup frame name)⟩
  exact { h with
    store := hstore
    fields := fun identity name => rel_mono hvalue (h.fields identity name)
    known := rfl
    known' := rfl
    flushFails := h.flushFails.trans hflush.symm }

end

end Lox
