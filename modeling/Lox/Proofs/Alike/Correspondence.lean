import Lox.Proofs.Alike.Trees
import Lox.Machine

set_option autoImplicit false

/-! # Values that correspond to each other

If it is known which functions and which methods correspond to each other, it is known of all values:
of two classes if their methods do, of two objects if their classes do and they are the same object.
All that a program can see of a value is the same of a corresponding one (`Value.Under.text`,
`Value.Under.equals`). -/

namespace Lox

/-- Which functions and which methods correspond to each other. They take as many arguments, and
    functions are the same one under the same name. -/
structure Correspondence where
  functions : Closure → Closure → Prop
  methods : Method → Method → Prop
  identity {f f' : Closure} : functions f f' → f'.identity = f.identity
  name {f f' : Closure} : functions f f' →
    f'.definition.name.lexeme = f.definition.name.lexeme
  size {f f' : Closure} : functions f f' →
    f'.definition.params.length = f.definition.params.length
  methodSize {m m' : Method} : methods m m' →
    m'.definition.params.length = m.definition.params.length

section

variable (C : Correspondence)

structure ClassBody.Under (b b' : ClassBody) : Prop where
  identity : b'.identity = b.identity
  name : b'.name = b.name
  methods : ∀ name, Option.Rel C.methods (b.methods.find? name) (b'.methods.find? name)

/-- Two classes with corresponding ancestors. -/
def Class.Under (c c' : Class) : Prop := List.Forall₂ (ClassBody.Under C) c.lineage c'.lineage

inductive Value.Under : Value → Value → Prop
  | nil : Value.Under .nil .nil
  | bool (b : Bool) : Value.Under (.bool b) (.bool b)
  | number (x : Float) : Value.Under (.number x) (.number x)
  | string (s : String) : Value.Under (.string s) (.string s)
  | native (f : Native) : Value.Under (.native f) (.native f)
  | function {f f' : Closure} : C.functions f f' → Value.Under (.function f) (.function f')
  | class {c c' : Class} : c.Under C c' → Value.Under (.class c) (.class c')
  | object {c c' : Class} (identity : Nat) : c.Under C c' →
      Value.Under (.object identity c) (.object identity c')

end

variable {C C' : Correspondence}

/-! ## Classes -/

namespace Class.Under

variable {c c' : Class}

theorem body (h : c.Under C c') : c.body.Under C c'.body := by
  cases h with | cons hb _ => exact hb

theorem method? (h : c.Under C c') (name : String) :
    Option.Rel C.methods (c.method? name) (c'.method? name) := by
  unfold Class.Under at h
  unfold Class.method?
  generalize c.lineage = bodies at h ⊢
  generalize c'.lineage = bodies' at h ⊢
  induction h with
  | nil => exact .none
  | @cons b b' _ _ hb _ ih =>
    rw [List.findSome?_cons, List.findSome?_cons]
    have hm := hb.methods name
    generalize b.methods.find? name = m at hm ⊢
    generalize b'.methods.find? name = m' at hm ⊢
    cases hm with
    | none => exact ih
    | some hm => exact .some hm

theorem arity (h : c.Under C c') : c'.arity = c.arity := by
  have hm := h.method? initializerName
  unfold Class.arity
  generalize c.method? initializerName = m at hm ⊢
  generalize c'.method? initializerName = m' at hm ⊢
  cases hm with
  | none => rfl
  | some hm => exact C.methodSize hm

end Class.Under

/-- Declarations of the same names that make corresponding methods in two chains. -/
theorem methodsOf_under {chain chain' : Chain} {fs fs' : List FunctionDef}
    (h : List.Forall₂ (fun f f' => f'.name.lexeme = f.name.lexeme ∧
      C.methods ⟨f, chain⟩ ⟨f', chain'⟩) fs fs') (name : String) :
    Option.Rel C.methods ((methodsOf chain fs).find? name) ((methodsOf chain' fs').find? name) := by
  have hall : ∀ ms ms' : Bindings Method,
      (∀ name, Option.Rel C.methods (ms.find? name) (ms'.find? name)) →
        ∀ name, Option.Rel C.methods
          ((fs.foldl (fun ms f => ms.bind f.name.lexeme ⟨f, chain⟩) ms).find? name)
          ((fs'.foldl (fun ms f => ms.bind f.name.lexeme ⟨f, chain'⟩) ms').find? name) := by
    induction h with
    | nil => exact fun _ _ h => h
    | @cons f f' _ _ hf _ ih =>
      refine fun ms ms' hms => ih _ _ fun name => ?_
      rw [Bindings.find?_bind, Bindings.find?_bind, hf.1]
      split
      · exact .some hf.2
      · exact hms name
  exact hall [] [] (fun _ => .none) name

/-! ## Values -/

namespace Value.Under

variable {v v' w w' : Value}

theorem isTruthy (h : v.Under C v') : v'.isTruthy = v.isTruthy := by cases h <;> rfl

theorem text (h : v.Under C v') : v'.text = v.text := by
  cases h with
  | nil | bool | number | string | native => rfl
  | function h => simp only [Value.text, C.name h]
  | «class» h => simp only [Value.text, h.body.name]
  | object _ h => simp only [Value.text, h.body.name]

theorem arity? (h : v.Under C v') : v'.arity? = v.arity? := by
  cases h with
  | nil | bool | number | string | native | object => rfl
  | function h => simp only [Value.arity?, C.size h]
  | «class» h => simp only [Value.arity?, h.arity]

theorem equals (h : v.Under C v') (h' : w.Under C w') : v'.equals w' = v.equals w := by
  cases h with
  | function h =>
    cases h' with
    | function h' => simp only [Value.equals, C.identity h, C.identity h']
    | nil | bool | number | string | native | «class» | object => rfl
  | «class» h =>
    cases h' with
    | «class» h' => simp only [Value.equals, h.body.identity, h'.body.identity]
    | nil | bool | number | string | native | function | object => rfl
  | nil | bool | number | string | native | object => cases h' <;> rfl

end Value.Under

theorem toValue_under (value : Literal) : value.toValue.Under C value.toValue := by
  cases value with
  | nil => exact .nil
  | bool b => exact .bool b
  | number x => exact .number x
  | string s => exact .string s

/-! ## More functions correspond -/

/-- What corresponds to each other still does. -/
structure Correspondence.Le (C C' : Correspondence) : Prop where
  functions : ∀ f f', C.functions f f' → C'.functions f f'
  methods : ∀ m m', C.methods m m' → C'.methods m m'

section

variable (hle : C.Le C')

include hle

theorem ClassBody.Under.mono {b b' : ClassBody} (h : b.Under C b') : b.Under C' b' :=
  { h with methods := fun name => rel_mono hle.methods (h.methods name) }

theorem Class.Under.mono {c c' : Class} (h : c.Under C c') : c.Under C' c' :=
  List.Forall₂.imp (fun _ _ hb => hb.mono hle) h

theorem Value.Under.mono {v v' : Value} (h : v.Under C v') : v.Under C' v' := by
  cases h with
  | nil => exact .nil
  | bool b => exact .bool b
  | number x => exact .number x
  | string s => exact .string s
  | native f => exact .native f
  | function h => exact .function (hle.functions _ _ h)
  | «class» h => exact .class (h.mono hle)
  | object identity h => exact .object identity (h.mono hle)

end

end Lox
