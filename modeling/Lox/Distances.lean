import Lox.Tree

set_option autoImplicit false

/-! # Distances

For a reference, how many scopes outside its own the binding lies. A reference without a distance
refers to a global variable. -/

namespace Lox

/-- The distances known for references, by identity. -/
structure Distances where
  entries : Array (Option Nat)

namespace Distances

/-- No distances. -/
def empty : Distances := ⟨#[]⟩

/-- The distance of a reference. -/
def get? (distances : Distances) (id : RefId) : Option Nat := distances.entries[id]?.join

/-- Record the distance of a reference. -/
def record (distances : Distances) (id : RefId) (distance : Nat) : Distances :=
  let grown := distances.entries ++ Array.replicate (id + 1 - distances.entries.size) none
  ⟨grown.setIfInBounds id (some distance)⟩

theorem get?_record (distances : Distances) (id other : Nat) (distance : Nat) :
    (distances.record id distance).get? other =
      if other = id then some distance else distances.get? other := by
  simp only [record, get?, Array.getElem?_setIfInBounds]
  by_cases h : other = id
  · subst h
    have : other < distances.entries.size + (other + 1 - distances.entries.size) := by omega
    simp [this]
  · rw [if_neg (Ne.symm h), if_neg h]
    by_cases hs : other < distances.entries.size
    · rw [Array.getElem?_append_left hs]
    · rw [Array.getElem?_append_right (by omega), Array.getElem?_replicate,
        Array.getElem?_eq_none (by omega)]
      split <;> rfl

end Distances

end Lox
