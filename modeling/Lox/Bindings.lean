set_option autoImplicit false

/-! # Bindings

Names with what they are bound to: the variables of a scope, the fields of an object. -/

namespace Lox

/-- Names with what they are bound to. A name is bound at most once. -/
abbrev Bindings (α : Type) := List (String × α)

namespace Bindings

variable {α : Type}

/-- What a name is bound to. -/
def find? (name : String) : Bindings α → Option α
  | [] => none
  | (n, v) :: rest => if n = name then some v else find? name rest

/-- Bind a name, in place of what it was bound to. -/
def bind (name : String) (value : α) : Bindings α → Bindings α
  | [] => [(name, value)]
  | (n, v) :: rest => if n = name then (n, value) :: rest else (n, v) :: bind name value rest

theorem find?_bind (name other : String) (value : α) (bindings : Bindings α) :
    (bindings.bind name value).find? other =
      if other = name then some value else bindings.find? other := by
  induction bindings with
  | nil => simp [bind, find?, eq_comm]
  | cons b rest ih =>
    obtain ⟨n, v⟩ := b
    by_cases hn : n = name
    · subst hn
      by_cases h : n = other
      · simp [bind, find?, h]
      · simp [bind, find?, h, Ne.symm h]
    · by_cases h : n = other
      · subst h; simp [bind, find?, hn]
      · simp [bind, find?, hn, h, ih]

end Bindings

end Lox
