import Lox.Evaluate
import Lox.Proofs.Alike.Correspondence

set_option autoImplicit false

/-! # Operators on values that correspond to each other

An operator looks at the functions, classes and objects among its operands only to tell whether two
of them are the same, so it does the same with corresponding ones: it gives a value that does not
depend on them, or raises a problem that does not (`applyUnary_answers`, `applyBinary_answers`). Two
tokens of the same kind are the same operator, wherever they are; each problem is raised at its own
token. -/

namespace Lox

open Eval

/-- Two steps of operators that give corresponding values or raise the same problem. -/
inductive Answers (C : Correspondence) (operator operator' : Token) : Eval Value → Eval Value → Prop
  | value {v v' : Value} : v.Under C v' → Answers C operator operator' (pure v) (pure v')
  | problem (problem : RuntimeProblem) :
      Answers C operator operator' (raise operator problem) (raise operator' problem)

/-! ## Numbers and other operands -/

section

variable (operator : Token) (hplus : operator.kind ≠ .plus) (hequal : operator.kind ≠ .equalEqual)
  (hbang : operator.kind ≠ .bangEqual)

include hplus hequal hbang

theorem applyBinary_numbers (a b : Float) :
    applyBinary operator (.number a) (.number b) =
      (arithmetic? operator.kind a b).elim (raise operator .notBinaryOperator) pure := by
  unfold applyBinary
  generalize operator.kind = kind at hplus hequal hbang ⊢
  cases kind with
  | plus => exact absurd rfl hplus
  | equalEqual => exact absurd rfl hequal
  | bangEqual => exact absurd rfl hbang
  | _ => rfl

theorem applyBinary_others {v w : Value} (h : ∀ a b, v = .number a → w ≠ .number b) :
    applyBinary operator v w = raise operator .operandsNotNumbers := by
  unfold applyBinary
  generalize operator.kind = kind at hplus hequal hbang ⊢
  split
  · exact absurd rfl hplus
  · exact absurd rfl hplus
  · exact absurd rfl hplus
  · exact absurd rfl hequal
  · exact absurd rfl hbang
  · exact absurd rfl (h _ _ rfl)
  · rfl

end

variable {C : Correspondence}

/-- What is computed from two numbers is the same in every correspondence. -/
theorem under_of_arithmetic? {kind : Kind} {a b : Float} {v : Value}
    (h : arithmetic? kind a b = some v) : v.Under C v := by
  unfold arithmetic? at h
  split at h <;> cases h
  · exact .number _
  · exact .number _
  · exact .number _
  · exact .bool _
  · exact .bool _
  · exact .bool _
  · exact .bool _

/-! ## Corresponding operands -/

variable {operator operator' : Token} (hkind : operator'.kind = operator.kind) {v v' w w' : Value}
  (hv : v.Under C v')

include hkind hv

theorem shortCircuits_under : shortCircuits operator' v' = shortCircuits operator v := by
  rw [shortCircuits, shortCircuits, hkind, hv.isTruthy]

theorem applyUnary_answers :
    Answers C operator operator' (applyUnary operator v) (applyUnary operator' v') := by
  have htruthy := hv.isTruthy
  unfold applyUnary
  rw [hkind]
  cases operator.kind with
  | minus =>
    cases hv with
    | number x => exact .value (.number _)
    | _ => exact .problem _
  | bang =>
    rw [htruthy]
    exact .value (.bool _)
  | _ => exact .problem _

theorem applyBinary_answers (hw : w.Under C w') :
    Answers C operator operator' (applyBinary operator v w) (applyBinary operator' v' w') := by
  have hequals := hv.equals hw
  by_cases hplus : operator.kind = .plus
  · unfold applyBinary
    rw [hkind, hplus]
    cases hv with
    | number a =>
      cases hw with
      | number b => exact .value (.number _)
      | _ => exact .problem _
    | string s =>
      cases hw with
      | string t => exact .value (.string _)
      | _ => exact .problem _
    | _ => exact .problem _
  by_cases hequal : operator.kind = .equalEqual
  · simp only [applyBinary, hkind, hequal, hequals]
    exact .value (.bool _)
  by_cases hbang : operator.kind = .bangEqual
  · simp only [applyBinary, hkind, hbang, hequals]
    exact .value (.bool _)
  -- the operators that are left take numbers only
  have hplus' := hkind ▸ hplus
  have hequal' := hkind ▸ hequal
  have hbang' := hkind ▸ hbang
  by_cases hnumbers : ∃ a b, v = .number a ∧ w = .number b
  · obtain ⟨a, b, rfl, rfl⟩ := hnumbers
    cases hv
    cases hw
    rw [applyBinary_numbers operator hplus hequal hbang,
      applyBinary_numbers operator' hplus' hequal' hbang', hkind]
    cases hresult : arithmetic? operator.kind a b with
    | none => exact .problem _
    | some value => exact .value (under_of_arithmetic? hresult)
  · rw [applyBinary_others operator hplus hequal hbang fun a b ha hb => hnumbers ⟨a, b, ha, hb⟩,
      applyBinary_others operator' hplus' hequal' hbang' fun a b ha hb => ?_]
    · exact .problem _
    · subst ha hb
      cases hv
      cases hw
      exact hnumbers ⟨_, _, rfl, rfl⟩

end Lox
