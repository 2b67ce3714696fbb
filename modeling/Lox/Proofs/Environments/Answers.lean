import Lox.Proofs.Environments.Sharing

set_option autoImplicit false

/-! # What the operations answer

Behind any sequence of operations a search answers by the nearest binding and counting by the
binding so many steps out. An assignment changes one binding and makes none. Where counting comes
to the nearest binding, the two ways cannot be told apart. -/

namespace Lox

variable {α : Type} {n : Nat}

namespace Environments

theorem found_eq_value {o : Option α} {w : α} : found o = .value w ↔ o = some w := by
  cases o <;> simp [found]

theorem found_eq_undefined {o : Option α} : found o = .undefined ↔ o = none := by
  cases o <;> simp [found]

theorem changed_done {E : Environments α} {o : Option (Store α)} :
    (E.changed o).1 = .done ↔ o.isSome := by
  cases o <;> simp [changed]

theorem changed_undefined {E : Environments α} {o : Option (Store α)} :
    (E.changed o).1 = .undefined ↔ o = none := by
  cases o <;> simp [changed]

theorem changed_of_undefined {E : Environments α} {o : Option (Store α)}
    (hfail : (E.changed o).1 = .undefined) : (E.changed o).2 = E := by
  rw [changed_undefined.1 hfail]
  rfl

/-- An operation that fails does nothing. -/
theorem perform_of_undefined {E : Environments α} {op : Operation α n}
    (hfail : (E.perform op).1 = .undefined) : (E.perform op).2 = E := by
  cases op with
  | new | child | define => cases hfail
  | get | getAt => rfl
  | assign | assignAt => exact changed_of_undefined hfail

end Environments

namespace History

open Environments

variable {h : History α n} {env home distance : Nat} {name : String} {v : α}

/-- Where some environment of a chain binds a name, one of them is the nearest. -/
theorem exists_nearest (hsees : h.Sees env name) : ∃ d home, h.Nearest env name d home := by
  obtain ⟨distance, home, hplace, hbinds⟩ := hsees
  -- an environment that binds the name is the nearest one unless there is a nearer one
  induction distance using Nat.strongRecOn generalizing home with
  | _ distance ih =>
    by_cases hinner : ∃ d < distance, ∃ inner, h.ancestor? env d = some inner ∧ h.Binds inner name
    · obtain ⟨d, hd, inner, hat, hb⟩ := hinner
      exact ih d hd inner hat hb
    · exact ⟨distance, home, hplace, hbinds,
        fun d hd inner hat hb => hinner ⟨d, hd, inner, hat, hb⟩⟩

namespace Kept

variable (hk : h.Kept)

include hk

/-- A search finds nothing where no environment of the chain binds the name. -/
theorem home?_eq_none (henv : env < n) :
    h.environments.store.home? (h.environments.chain env) name = none ↔ ¬ h.Sees env name := by
  rw [Option.eq_none_iff_forall_not_mem]
  constructor
  · intro hnone hsees
    obtain ⟨d, home, hn⟩ := exists_nearest hsees
    exact hnone home ((hk.home?_eq_some henv).2 ⟨d, hn⟩)
  · intro hnot home hhome
    obtain ⟨d, hn⟩ := (hk.home?_eq_some henv).1 hhome
    exact hnot ⟨d, home, hn.place, hn.binds⟩

/-- The value that a search finds is what was last written to the nearest binding. -/
theorem get?_eq_some (henv : env < n) :
    h.environments.store.get? (h.environments.chain env) name = some v ↔
      ∃ d home, h.Nearest env name d home ∧ h.LastWritten home name v := by
  rw [Store.get?_eq_bind_home?, Option.bind_eq_some_iff]
  simp only [hk.home?_eq_some henv, hk.written]
  constructor
  · rintro ⟨home, ⟨d, hn⟩, hw⟩
    exact ⟨d, home, hn, hw⟩
  · rintro ⟨d, home, hn, hw⟩
    exact ⟨home, ⟨d, hn⟩, hw⟩

/-- A search for a value fails where no environment of the chain binds the name. -/
theorem get?_eq_none (henv : env < n) :
    h.environments.store.get? (h.environments.chain env) name = none ↔ ¬ h.Sees env name := by
  rw [← hk.home?_eq_none henv, Store.get?_eq_bind_home?]
  cases hhome : h.environments.store.home? (h.environments.chain env) name with
  | none => simp
  | some home =>
    have hbound := List.find?_some hhome
    obtain ⟨w, hw⟩ := Option.isSome_iff_exists.1 hbound
    simp [hw]

/-- Counting steps out leads past the last environment, or to one that does not bind the name. -/
theorem homeAt?_eq_none (henv : env < n) :
    h.environments.store.homeAt? (h.environments.chain env) distance name = none ↔
      (h.environments.chain env).depth < distance ∨
        ∃ home, h.ancestor? env distance = some home ∧ ¬ h.Binds home name := by
  have hlength : (h.environments.chain env).length ≠ 0 := by
    rw [hk.chain env henv]
    exact Nat.succ_ne_zero _
  rw [Store.homeAt?, ← hk.getElem?_chain henv]
  cases hat : (h.environments.chain env)[distance]? with
  | none =>
    have hend := List.getElem?_eq_none_iff.1 hat
    rw [Chain.depth]
    exact iff_of_true rfl (.inl (by omega))
  | some home =>
    obtain ⟨hlt, -⟩ := List.getElem?_eq_some_iff.1 hat
    have hdepth : ¬ (h.environments.chain env).depth < distance := by
      rw [Chain.depth]
      omega
    simp [hdepth, ← hk.bound, Option.filter]

/-- The value so many steps out is what was last written to the binding there. -/
theorem getAt?_eq_some (henv : env < n) :
    h.environments.store.getAt? (h.environments.chain env) distance name = some v ↔
      ∃ home, h.ancestor? env distance = some home ∧ h.LastWritten home name v := by
  rw [Store.getAt?, Option.bind_eq_some_iff, hk.getElem?_chain henv]
  simp only [hk.written]

/-- Counting for a value fails where counting for its frame does. -/
theorem getAt?_eq_none (henv : env < n) :
    h.environments.store.getAt? (h.environments.chain env) distance name = none ↔
      (h.environments.chain env).depth < distance ∨
        ∃ home, h.ancestor? env distance = some home ∧ ¬ h.Binds home name := by
  rw [← hk.homeAt?_eq_none henv, Store.getAt?, Store.homeAt?]
  cases (h.environments.chain env)[distance]? <;> simp [Option.filter]

/-- From where a binding is the nearest one, both ways lead to it. -/
theorem homes_of_nearest (henv : env < n) (hn : h.Nearest env name distance home) :
    h.environments.store.home? (h.environments.chain env) name = some home ∧
      h.environments.store.homeAt? (h.environments.chain env) distance name = some home :=
  ⟨(hk.home?_eq_some henv).2 ⟨distance, hn⟩,
    (hk.homeAt?_eq_some henv).2 ⟨hn.place, hn.binds⟩⟩

end Kept

/-- An assignment that finds a binding changes it. -/
theorem perform_assign {env : Fin n} (hn : h.Nearest env name distance home) :
    h.environments.perform (.assign env name v) =
      (.done, { h.environments with store := h.environments.store.bindIn home name v }) := by
  rw [perform, Store.assign?, (h.kept.homes_of_nearest env.isLt hn).1]
  rfl

/-- What is found where after an assignment. -/
theorem lookup?_assign {env : Fin n} (hn : h.Nearest env name distance home) (frame : Nat)
    (key : String) :
    (h.after (.assign env name v)).environments.store.lookup? frame key =
      if frame = home ∧ key = name then some v else h.environments.store.lookup? frame key := by
  have hhome : home < h.environments.store.frames.size :=
    h.kept.frames.symm ▸ ancestor?_lt env.isLt hn.place
  rw [environments, perform_assign hn]
  exact Store.lookup?_bindIn _ _ _ _ _ _ hhome

/-- An assignment changes no search for a frame. -/
theorem home?_assign {env : Fin n} (hn : h.Nearest env name distance home) (chain : Chain)
    (key : String) :
    (h.after (.assign env name v)).environments.store.home? chain key =
      h.environments.store.home? chain key := by
  have hbound : (h.environments.store.lookup? home name).isSome :=
    (h.kept.bound home name).2 hn.binds
  -- a search asks which names are bound, and this one was bound before
  rw [Store.home?, Store.home?]
  congr 1
  funext frame
  rw [lookup?_assign hn]
  split
  · next heq => rw [heq.1, heq.2, hbound, Option.isSome_some]
  · rfl

/-- An assignment makes no environment. -/
theorem chain_assign {env : Fin n} (hn : h.Nearest env name distance home) :
    (h.after (.assign env name v)).environments.chain = h.environments.chain := by
  rw [environments, perform_assign hn]
  rfl

/-- What a search finds after an assignment. -/
theorem answer_get_assign {env other : Fin n} (hn : h.Nearest env name distance home)
    (key : String) :
    (h.after (.assign env name v)).answer (.get other key) =
      found ((h.environments.store.home? (h.environments.chain other) key).bind fun frame =>
        if frame = home ∧ key = name then some v else h.environments.store.lookup? frame key) := by
  refine congrArg found ?_
  rw [Store.get?_eq_bind_home?, home?_assign hn, chain_assign hn]
  exact Option.bind_congr fun frame _ => lookup?_assign hn frame key

/-- An assignment is seen from where the binding that it changed is the nearest one. -/
theorem get_assign_of_nearest {env other : Fin n} {d : Nat}
    (hn : h.Nearest env name distance home) (hother : h.Nearest other name d home) :
    (h.after (.assign env name v)).answer (.get other name) = .value v := by
  rw [answer_get_assign hn, (h.kept.homes_of_nearest other.isLt hother).1, Option.bind_some,
    if_pos ⟨rfl, rfl⟩]
  rfl

/-- It is seen from nowhere else, and under no other name. -/
theorem get_assign_of_not_nearest {env other : Fin n} {key : String}
    (hn : h.Nearest env name distance home)
    (hother : ¬ (key = name ∧ ∃ d, h.Nearest other name d home)) :
    (h.after (.assign env name v)).answer (.get other key) = h.answer (.get other key) := by
  rw [answer_get_assign hn, answer, perform, Store.get?_eq_bind_home?]
  refine congrArg _ (Option.bind_congr fun frame hframe => if_neg ?_)
  rintro ⟨rfl, rfl⟩
  exact hother ⟨rfl, (h.kept.home?_eq_some other.isLt).1 hframe⟩

/-- From where a binding is the nearest one, counting to it is searching for it. -/
theorem perform_at_of_nearest {env : Fin n} (hn : h.Nearest env name distance home) :
    h.environments.perform (.getAt env distance name) =
      h.environments.perform (.get env name) ∧
    ∀ v, h.environments.perform (.assignAt env distance name v) =
      h.environments.perform (.assign env name v) := by
  obtain ⟨hhome, hhomeAt⟩ := h.kept.homes_of_nearest env.isLt hn
  constructor
  · rw [perform, perform, Store.get?_eq_bind_home?, Store.getAt?_eq_bind_homeAt?, hhome, hhomeAt]
  · intro v
    rw [perform, perform, Store.assign?, Store.assignAt?, hhome, hhomeAt]

/-- An assignment by a search is done if there is a binding. -/
theorem answer_assign (env : Fin n) (name : String) (v : α) :
    (h.answer (.assign env name v) = .done ↔ h.Sees env name) ∧
    (h.answer (.assign env name v) = .undefined ↔ ¬ h.Sees env name) := by
  have hnone : h.answer (.assign env name v) = .undefined ↔ ¬ h.Sees env name := by
    rw [answer, perform, changed_undefined, Store.assign?, Option.map_eq_none_iff,
      h.kept.home?_eq_none env.isLt]
  refine ⟨?_, hnone⟩
  rw [← not_iff_not, ← hnone, answer, perform, changed_done, changed_undefined,
    Option.not_isSome_iff_eq_none]

/-- Behind any sequence of operations, scopes are a shared store. A search answers by the nearest
    binding. An assignment is done if there is one, changes it and nothing else, and is seen from
    wherever it is the nearest. Counting answers by the binding so many steps out, and cannot be
    told from searching where it comes to the nearest. Whatever fails leaves everything as it
    is. -/
theorem environments_share_bindings (h : History α n) (env : Fin n) (name : String) :
    (∀ v, h.answer (.get env name) = .value v ↔
      ∃ d home, h.Nearest env name d home ∧ h.LastWritten home name v) ∧
    (h.answer (.get env name) = .undefined ↔ ¬ h.Sees env name) ∧
    (∀ v, (h.answer (.assign env name v) = .done ↔ h.Sees env name) ∧
      (h.answer (.assign env name v) = .undefined ↔ ¬ h.Sees env name)) ∧
    (∀ frame key, (h.environments.store.lookup? frame key).isSome ↔ h.Binds frame key) ∧
    (h.Sees env name → ∃ d home, h.Nearest env name d home) ∧
    (∀ v d home, h.Nearest env name d home →
      (∀ frame key, (h.after (.assign env name v)).Binds frame key ↔ h.Binds frame key) ∧
      (∀ frame key, (h.after (.assign env name v)).environments.store.lookup? frame key =
        if frame = home ∧ key = name then some v
        else h.environments.store.lookup? frame key) ∧
      ∀ (other : Fin n) (key : String),
        ((key = name ∧ ∃ d, h.Nearest other name d home) →
          (h.after (.assign env name v)).answer (.get other key) = .value v) ∧
        (¬ (key = name ∧ ∃ d, h.Nearest other name d home) →
          (h.after (.assign env name v)).answer (.get other key) = h.answer (.get other key))) ∧
    (∀ d v, h.answer (.getAt env d name) = .value v ↔
      ∃ home, h.ancestor? env d = some home ∧ h.LastWritten home name v) ∧
    (∀ d, h.answer (.getAt env d name) = .undefined ↔
      (h.environments.chain env).depth < d ∨
        ∃ home, h.ancestor? env d = some home ∧ ¬ h.Binds home name) ∧
    (∀ d v, h.answer (.assignAt env d name v) = .undefined ↔
      (h.environments.chain env).depth < d ∨
        ∃ home, h.ancestor? env d = some home ∧ ¬ h.Binds home name) ∧
    (∀ d home, h.Nearest env name d home →
      h.environments.perform (.getAt env d name) = h.environments.perform (.get env name) ∧
      ∀ v, h.environments.perform (.assignAt env d name v) =
        h.environments.perform (.assign env name v)) ∧
    ∀ op : Operation α n, h.answer op = .undefined →
      (h.after op).environments = h.environments := by
  refine ⟨fun v => ?_, ?_, answer_assign env name, h.kept.bound, exists_nearest,
    fun v d home hn => ⟨fun frame key => ?_, lookup?_assign hn, fun other key =>
      ⟨?_, get_assign_of_not_nearest hn⟩⟩, fun d v => ?_, fun d => ?_, fun d v => ?_,
    fun d home => perform_at_of_nearest, fun op => perform_of_undefined⟩
  · exact found_eq_value.trans (h.kept.get?_eq_some env.isLt)
  · exact found_eq_undefined.trans (h.kept.get?_eq_none env.isLt)
  · exact or_iff_left id
  · rintro ⟨rfl, d', hother⟩
    exact get_assign_of_nearest hn hother
  · exact found_eq_value.trans (h.kept.getAt?_eq_some env.isLt)
  · exact found_eq_undefined.trans (h.kept.getAt?_eq_none env.isLt)
  · rw [answer, perform, changed_undefined, Store.assignAt?, Option.map_eq_none_iff,
      h.kept.homeAt?_eq_none env.isLt]

/-- Two environments inside one, which binds a name. -/
def siblings : History Nat 3 :=
  start.after .new |>.after (.child ⟨0, Nat.zero_lt_one⟩) |>.after (.child ⟨0, Nat.zero_lt_two⟩)
    |>.after (.define ⟨0, Nat.zero_lt_succ 2⟩ "a" 1)

theorem environments_share_bindings_siblings :
    siblings.Nearest 1 "a" 1 0 ∧ siblings.Nearest 2 "a" 1 0 ∧
      (siblings.after (.assign (1 : Fin 3) "a" 7)).answer (.get (2 : Fin 3) "a") = .value 7 := by
  have hinner : ∀ env, env ≠ 0 → ¬ siblings.Binds env "a" := by
    intro env hne hbinds
    simp only [siblings, Binds, Operation.Defines, false_or, or_self] at hbinds
    exact hne hbinds.1.symm
  have hnearest : ∀ env, env ≠ 0 → siblings.ancestor? env 1 = some 0 →
      siblings.Nearest env "a" 1 0 := by
    refine fun env hne houter => ⟨houter, .inr ⟨rfl, rfl⟩, fun d hd inner hat => ?_⟩
    obtain rfl := Nat.lt_one_iff.1 hd
    cases hat
    exact hinner env hne
  have h₁ := hnearest 1 Nat.one_ne_zero rfl
  have h₂ := hnearest 2 (Nat.succ_ne_zero 1) rfl
  obtain ⟨-, -, -, -, -, hassign, -⟩ := environments_share_bindings siblings (1 : Fin 3) "a"
  obtain ⟨-, -, hseen⟩ := hassign 7 1 0 h₁
  exact ⟨h₁, h₂, (hseen (2 : Fin 3) "a").1 ⟨rfl, 1, h₂⟩⟩

end History

end Lox
