import Mathlib.Data.List.Forall2

set_option autoImplicit false

/-! # Steps that run side by side

Two steps match (`Matches`) if, started in related states, they end in the same way: both with
results that are related, or both with errors that are related, and in related states again. Where
steps are put together, matching parts make matching wholes. -/

namespace Lox

/-- Two ends of the same kind: with related results or errors, in related states. -/
inductive EndAlike {ε ε' σ σ' α β : Type} (E : ε → ε' → Prop) (S : σ → σ' → Prop)
    (R : α → β → Prop) : EStateM.Result ε σ α → EStateM.Result ε' σ' β → Prop
  | ok {a b s s'} : R a b → S s s' → EndAlike E S R (.ok a s) (.ok b s')
  | error {e e' s s'} : E e e' → S s s' → EndAlike E S R (.error e s) (.error e' s')

/-- Two steps that do the same in related states. -/
def Matches {ε ε' σ σ' α β : Type} (E : ε → ε' → Prop) (S : σ → σ' → Prop) (R : α → β → Prop)
    (x : EStateM ε σ α) (y : EStateM ε' σ' β) : Prop :=
  ∀ s s', S s s' → EndAlike E S R (x s) (y s')

section

variable {ε ε' σ σ' α α' β β' : Type} {E : ε → ε' → Prop} {S : σ → σ' → Prop} {R : α → α' → Prop}
  {Q : β → β' → Prop} {x : EStateM ε σ α} {y : EStateM ε' σ' α'}

namespace Matches

theorem pure {a : α} {a' : α'} (h : R a a') : Matches E S R (Pure.pure a) (Pure.pure a') :=
  fun _ _ hs => .ok h hs

theorem throw {e : ε} {e' : ε'} (h : E e e') : Matches E S R (throw e) (throw e') :=
  fun _ _ hs => .error h hs

theorem bind {k : α → EStateM ε σ β} {k' : α' → EStateM ε' σ' β'} (h : Matches E S R x y)
    (hk : ∀ a a', R a a' → Matches E S Q (k a) (k' a')) : Matches E S Q (x >>= k) (y >>= k') := by
  intro s s' hs
  have h := h s s' hs
  simp only [Bind.bind, EStateM.bind]
  generalize x s = r at h ⊢
  generalize y s' = r' at h ⊢
  cases h with
  | ok ha hs => exact hk _ _ ha _ _ hs
  | error he hs => exact .error he hs

theorem map {f : α → β} {f' : α' → β'} (h : Matches E S R x y)
    (hf : ∀ a a', R a a' → Q (f a) (f' a')) : Matches E S Q (f <$> x) (f' <$> y) :=
  h.bind fun a a' ha => .pure (hf a a' ha)

/-- Steps that look at their states first. -/
theorem get_bind {k : σ → EStateM ε σ α} {k' : σ' → EStateM ε' σ' α'}
    (h : ∀ s s', S s s' → EndAlike E S R (k s s) (k' s' s')) :
    Matches E S R (MonadState.get >>= k) (MonadState.get >>= k') :=
  h

/-- Steps over related items give related results. -/
theorem mapM {γ γ' : Type} {P : γ → γ' → Prop} {f : γ → EStateM ε σ α} {f' : γ' → EStateM ε' σ' α'}
    (hf : ∀ c c', P c c' → Matches E S R (f c) (f' c')) {cs : List γ} {cs' : List γ'}
    (hcs : List.Forall₂ P cs cs') :
    Matches E S (List.Forall₂ R) (cs.mapM f) (cs'.mapM f') := by
  induction hcs with
  | nil => exact .pure .nil
  | cons hc _ ih =>
    rw [List.mapM_cons, List.mapM_cons]
    refine (hf _ _ hc).bind fun a a' ha => ?_
    refine ih.bind fun as as' has => ?_
    exact .pure (.cons ha has)

/-- Steps with the same results and errors match the other way round as well. -/
theorem symm {y : EStateM ε σ' α} (h : Matches Eq S Eq x y) :
    Matches Eq (fun s' s => S s s') Eq y x := by
  intro s' s hs
  have h := h s s' hs
  generalize x s = r at h ⊢
  generalize y s' = r' at h ⊢
  cases h with
  | ok ha hs => exact .ok ha.symm hs
  | error he hs => exact .error he.symm hs

end Matches

end

end Lox
