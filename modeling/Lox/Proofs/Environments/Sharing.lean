import Lox.Proofs.Environments.History
import Lox.Proofs.Run.Steps

set_option autoImplicit false

/-! # Environments share their bindings

The store does what its history says (`History.Kept`): a chain lists the environments from one on
outwards, a frame binds what was defined in it, and it holds what was last written. Every operation
keeps this. So a search finds the nearest binding, counting finds the binding that many steps out,
and where both come to the same environment they do the same. An assignment is seen wherever the
nearest binding is the one that it changed, and nowhere else. -/

namespace Lox

variable {α : Type} {n : Nat}

namespace History

variable {h : History α n} {env home distance : Nat} {name : String} {v : α}

/-! ## The tree of environments -/

/-- An environment lies inside one that was made before it. -/
theorem outer?_lt {n : Nat} {h : History α n} {env outer : Nat}
    (hout : h.outer? env = some outer) : outer < env ∧ env < n := by
  induction h generalizing env outer with
  | start => exact nomatch hout
  | @after n h op ih =>
    cases op with
    | new => exact (ih hout).imp_right Nat.lt_succ_of_lt
    | child o =>
      rw [outer?, Operation.outer?] at hout
      split at hout
      · next heq =>
        obtain rfl := Option.some.inj hout
        exact ⟨heq ▸ o.isLt, heq ▸ Nat.lt_succ_self n⟩
      · exact (ih hout).imp_right Nat.lt_succ_of_lt
    | _ => exact ih hout

/-- All environments some steps out have been made. -/
theorem ancestor?_lt (henv : env < n) (hplace : h.ancestor? env distance = some home) :
    home < n := by
  induction distance generalizing env with
  | zero => exact Option.some.inj hplace ▸ henv
  | succ d ih =>
    obtain ⟨outer, hout, hrest⟩ := Option.bind_eq_some_iff.1 hplace
    obtain ⟨hlt, hmade⟩ := outer?_lt hout
    exact ih (Nat.lt_trans hlt hmade) hrest

/-! ## What the store holds -/

/-- The store holds what the history says. -/
structure Kept (h : History α n) : Prop where
  frames : h.environments.store.frames.size = n
  handles : h.environments.chains.size = n
  chain : ∀ env < n, h.environments.chain env =
    env :: ((h.outer? env).map h.environments.chain).getD []
  bound : ∀ home name, (h.environments.store.lookup? home name).isSome ↔ h.Binds home name
  written : ∀ home name v,
    h.environments.store.lookup? home name = some v ↔ h.LastWritten home name v

namespace Kept

variable (hk : h.Kept)

include hk

/-- A chain lists an environment and those around it. -/
theorem getElem?_chain (henv : env < n) (distance : Nat) :
    (h.environments.chain env)[distance]? = h.ancestor? env distance := by
  induction distance generalizing env with
  | zero =>
    rw [hk.chain env henv]
    rfl
  | succ d ih =>
    rw [hk.chain env henv, List.getElem?_cons_succ, ancestor?]
    cases hout : h.outer? env with
    | none => rfl
    | some outer =>
      obtain ⟨hlt, hmade⟩ := outer?_lt hout
      exact ih (Nat.lt_trans hlt hmade)

/-- The frame that a search finds is the nearest one that binds the name. -/
theorem home?_eq_some (henv : env < n) :
    h.environments.store.home? (h.environments.chain env) name = some home ↔
      ∃ distance, h.Nearest env name distance home := by
  rw [Store.home?, List.find?_eq_some_iff_getElem]
  constructor
  · rintro ⟨hbound, d, hd, hat, hfirst⟩
    refine ⟨d, ?_, (hk.bound home name).1 hbound, fun d' hd' inner hinner hbinds => ?_⟩
    · rw [← hk.getElem?_chain henv, List.getElem?_eq_getElem hd, hat]
    · rw [← hk.getElem?_chain henv, List.getElem?_eq_getElem (Nat.lt_trans hd' hd)] at hinner
      have hnot := hfirst d' hd'
      rw [Option.some.inj hinner, (hk.bound inner name).2 hbinds] at hnot
      cases hnot
  · rintro ⟨d, hnearest⟩
    have hplace := hnearest.place
    rw [← hk.getElem?_chain henv] at hplace
    obtain ⟨hd, hat⟩ := List.getElem?_eq_some_iff.1 hplace
    refine ⟨(hk.bound home name).2 hnearest.binds, d, hd, hat, fun d' hd' => ?_⟩
    have hinner := hk.getElem?_chain henv d'
    rw [List.getElem?_eq_getElem (Nat.lt_trans hd' hd)] at hinner
    rw [Bool.not_eq_true', Bool.eq_false_iff, ne_eq, hk.bound]
    exact hnearest.first d' hd' _ hinner.symm

/-- The frame that counting finds is the one so many steps out, if it binds the name. -/
theorem homeAt?_eq_some (henv : env < n) :
    h.environments.store.homeAt? (h.environments.chain env) distance name = some home ↔
      h.ancestor? env distance = some home ∧ h.Binds home name := by
  rw [Store.homeAt?, Option.filter_eq_some_iff, hk.getElem?_chain henv, hk.bound]

end Kept

/-! ## Every operation keeps it -/

/-- An environment is the nearest one for a name in one place only. -/
theorem Nearest.home_unique {d d' home home' : Nat} (hn : h.Nearest env name d home)
    (hn' : h.Nearest env name d' home') : home = home' := by
  rcases Nat.lt_trichotomy d d' with hlt | rfl | hlt
  · exact absurd hn.binds (hn'.first d hlt home hn.place)
  · exact Option.some.inj (hn.place.symm.trans hn'.place)
  · exact absurd hn'.binds (hn.first d' hlt home' hn'.place)

/-- An operation writes to one name of one environment at most. -/
theorem Writes.unique {op : Operation α n} {home' : Nat} {name' : String} {w : α}
    (hw : h.Writes home name v op) (hw' : h.Writes home' name' w op) :
    home' = home ∧ name' = name ∧ w = v := by
  cases op with
  | define env key x =>
    obtain ⟨rfl, rfl, rfl⟩ := hw
    obtain ⟨rfl, rfl, rfl⟩ := hw'
    exact ⟨rfl, rfl, rfl⟩
  | assign env key x =>
    obtain ⟨rfl, rfl, d, hn⟩ := hw
    obtain ⟨rfl, rfl, d', hn'⟩ := hw'
    exact ⟨hn'.home_unique hn, rfl, rfl⟩
  | assignAt env d key x =>
    obtain ⟨rfl, rfl, hplace, -⟩ := hw
    obtain ⟨rfl, rfl, hplace', -⟩ := hw'
    exact ⟨Option.some.inj (hplace'.symm.trans hplace), rfl, rfl⟩
  | _ => exact nomatch hw

/-- What is written is bound, then at the latest. -/
theorem Writes.binds {op : Operation α n} (hw : h.Writes home name v op) :
    (h.after op).Binds home name := by
  cases op with
  | define env key x =>
    obtain ⟨rfl, rfl, rfl⟩ := hw
    exact .inr ⟨rfl, rfl⟩
  | assign env key x =>
    obtain ⟨-, -, d, hn⟩ := hw
    exact .inl hn.binds
  | assignAt env d key x => exact .inl hw.2.2.2
  | _ => exact nomatch hw

/-- A definition writes. -/
theorem writes_of_defines {op : Operation α n} (hop : op.Defines home name) :
    ∃ v, h.Writes home name v op := by
  cases op with
  | define env key x => exact ⟨x, hop.1, hop.2, rfl⟩
  | _ => exact nomatch hop

end History

namespace Environments

/-- An operation changes a frame where the history says that it writes, and nowhere else. -/
def Follows (h : History α n) (op : Operation α n) : Prop :=
  ∀ home name w, (h.environments.perform op).2.store.lookup? home name = some w ↔
    h.Writes home name w op ∨
      h.environments.store.lookup? home name = some w ∧ ∀ x, ¬ h.Writes home name x op

end Environments

namespace History

variable {h : History α n} {env home distance : Nat} {name : String} {v : α}

/-- What is found in the store if it was changed in one place. -/
theorem follows_of_bindIn {op : Operation α n} {frame : Nat} {key : String} {x : α}
    (hframe : frame < h.environments.store.frames.size)
    (hstore : (h.environments.perform op).2.store = h.environments.store.bindIn frame key x)
    (hwrites : h.Writes frame key x op) : Environments.Follows h op := by
  intro home name w
  rw [hstore, Store.lookup?_bindIn _ _ _ _ _ _ hframe]
  constructor
  · intro hw
    split at hw
    · next heq =>
      obtain ⟨rfl, rfl⟩ := heq
      exact .inl (Option.some.inj hw ▸ hwrites)
    · next hne => exact .inr ⟨hw, fun y hy => hne ⟨(hwrites.unique hy).1, (hwrites.unique hy).2.1⟩⟩
  · rintro (hw | ⟨hw, hnot⟩)
    · obtain ⟨rfl, rfl, rfl⟩ := hwrites.unique hw
      exact if_pos ⟨rfl, rfl⟩
    · rw [if_neg]
      · exact hw
      · rintro ⟨rfl, rfl⟩
        exact hnot x hwrites

/-- What is found in the store if nothing was changed. -/
theorem follows_of_same {op : Operation α n}
    (hstore : ∀ home name, (h.environments.perform op).2.store.lookup? home name =
      h.environments.store.lookup? home name)
    (hnot : ∀ home name w, ¬ h.Writes home name w op) : Environments.Follows h op := by
  intro home name w
  rw [hstore]
  exact ⟨fun hw => .inr ⟨hw, hnot home name⟩,
    fun hw => hw.elim (fun hw => absurd hw (hnot home name w)) And.left⟩

/-- An operation follows if it looks for a frame and changes a name there. -/
theorem Kept.follows_of_found (hk : h.Kept) {op : Operation α n} {found : Option FrameId}
    {key : String} {x : α}
    (hperform : h.environments.perform op =
      h.environments.changed (found.map (h.environments.store.bindIn · key x)))
    (hmade : ∀ frame, found = some frame → frame < n)
    (hwrites : ∀ home name w,
      h.Writes home name w op ↔ key = name ∧ x = w ∧ found = some home) :
    Environments.Follows h op := by
  cases found with
  | none =>
    refine follows_of_same (fun home name => by rw [hperform]; rfl) fun home name w hw => ?_
    obtain ⟨-, -, hfound⟩ := (hwrites home name w).1 hw
    cases hfound
  | some frame =>
    exact follows_of_bindIn (hk.frames.symm ▸ hmade frame rfl) (by rw [hperform]; rfl)
      ((hwrites frame key x).2 ⟨rfl, rfl, rfl⟩)

theorem Kept.follows (hk : h.Kept) (op : Operation α n) : Environments.Follows h op := by
  cases op with
  | new => exact follows_of_same (Store.lookup?_openIn _ []) nofun
  | child outer =>
    exact follows_of_same (Store.lookup?_openIn _ (h.environments.chain outer)) nofun
  | get env name | getAt env d name => exact follows_of_same (fun _ _ => rfl) nofun
  | define env key x =>
    refine follows_of_bindIn (hk.frames.symm ▸ env.isLt) ?_ ⟨rfl, rfl, rfl⟩
    show h.environments.store.define (h.environments.chain env) key x = _
    rw [hk.chain env env.isLt]
    rfl
  | assign env key x =>
    refine hk.follows_of_found rfl (fun frame hfound => ?_) fun home name w => ⟨?_, ?_⟩
    · obtain ⟨d, hn⟩ := (hk.home?_eq_some env.isLt).1 hfound
      exact ancestor?_lt env.isLt hn.place
    · rintro ⟨rfl, rfl, hn⟩
      exact ⟨rfl, rfl, (hk.home?_eq_some env.isLt).2 hn⟩
    · rintro ⟨rfl, rfl, hfound⟩
      exact ⟨rfl, rfl, (hk.home?_eq_some env.isLt).1 hfound⟩
  | assignAt env d key x =>
    refine hk.follows_of_found rfl (fun frame hfound => ?_) fun home name w => ⟨?_, ?_⟩
    · exact ancestor?_lt env.isLt ((hk.homeAt?_eq_some env.isLt).1 hfound).1
    · rintro ⟨rfl, rfl, hat⟩
      exact ⟨rfl, rfl, (hk.homeAt?_eq_some env.isLt).2 hat⟩
    · rintro ⟨rfl, rfl, hfound⟩
      exact ⟨rfl, rfl, (hk.homeAt?_eq_some env.isLt).1 hfound⟩

end History

namespace Environments

theorem chain_make (E : Environments α) (outer : Chain) (env : Nat) :
    (E.make outer).chain env =
      if env = E.chains.size then E.store.frames.size :: outer else E.chain env := by
  show ((E.chains.push (E.store.frames.size :: outer))[env]?).getD [] = _
  rw [Array.getElem?_push]
  split <;> rfl

/-- A change makes no environment, whether or not a frame is found for it. -/
theorem changed_keeps (E : Environments α) (found : Option FrameId) (name : String) (v : α) :
    (E.changed (found.map (E.store.bindIn · name v))).2.chains = E.chains ∧
      (E.changed (found.map (E.store.bindIn · name v))).2.store.frames.size =
        E.store.frames.size := by
  cases found with
  | none => exact ⟨rfl, rfl⟩
  | some home => exact ⟨rfl, Store.size_bindIn ..⟩

/-- An operation makes no environment, or the next one inside a chain. -/
theorem perform_cases (E : Environments α) (op : Operation α n) :
    (op.count = n ∧ (∀ env, op.outer? env = none) ∧ (E.perform op).2.chains = E.chains ∧
      (E.perform op).2.store.frames.size = E.store.frames.size) ∨
    op.count = n + 1 ∧ (E.perform op).2 = E.make (((op.outer? n).map E.chain).getD []) := by
  cases op with
  | new => exact .inr ⟨rfl, rfl⟩
  | child outer =>
    refine .inr ⟨rfl, ?_⟩
    rw [Operation.outer?, if_pos rfl]
    rfl
  | get | getAt => exact .inl ⟨rfl, fun _ => rfl, rfl, rfl⟩
  | define env name v =>
    refine .inl ⟨rfl, fun _ => rfl, rfl, ?_⟩
    show (E.store.define (E.chain env) name v).frames.size = _
    cases E.chain env with
    | nil => rfl
    | cons frame _ => exact Store.size_bindIn ..
  | assign env name v =>
    exact .inl ⟨rfl, fun _ => rfl, E.changed_keeps (E.store.home? (E.chain env) name) name v⟩
  | assignAt env d name v =>
    exact .inl ⟨rfl, fun _ => rfl, E.changed_keeps (E.store.homeAt? (E.chain env) d name) name v⟩

end Environments

/-- An operation makes the next environment inside one that is there. -/
theorem Operation.outer?_lt {op : Operation α n} {env outer : Nat}
    (hout : op.outer? env = some outer) : env = n ∧ outer < n := by
  cases op with
  | child o =>
    rw [Operation.outer?] at hout
    split at hout
    · next heq => exact ⟨heq, Option.some.inj hout ▸ o.isLt⟩
    · cases hout
  | _ => cases hout

namespace History

variable {h : History α n}

/-- Chains grow with the tree of environments. -/
theorem Kept.chain_after (hk : h.Kept) (op : Operation α n) : ∀ env < op.count,
    (h.after op).environments.chain env =
      env :: (((h.after op).outer? env).map (h.after op).environments.chain).getD [] := by
  intro env henv
  show (h.environments.perform op).2.chain env =
    env :: (((op.outer? env).or (h.outer? env)).map (h.environments.perform op).2.chain).getD []
  rcases h.environments.perform_cases op with ⟨hcount, hnone, hchains, -⟩ | ⟨hcount, hmake⟩
  · have hchain : (h.environments.perform op).2.chain = h.environments.chain := by
      funext env
      rw [Environments.chain, hchains, Environments.chain]
    rw [hchain, hnone, Option.none_or]
    exact hk.chain env (hcount ▸ henv)
  · rw [hmake]
    have hold : ∀ outer, ∀ env < n, (h.environments.make outer).chain env =
        h.environments.chain env := by
      intro outer env hlt
      rw [Environments.chain_make, if_neg]
      rw [hk.handles]
      exact Nat.ne_of_lt hlt
    rcases Nat.lt_or_ge env n with hlt | hge
    -- an environment that was there already, with its chain as it was
    · have hnone : op.outer? env = none := Option.eq_none_iff_forall_not_mem.2 fun outer hout =>
        Nat.ne_of_lt hlt (Operation.outer?_lt hout).1
      rw [hold _ env hlt, hnone, Option.none_or, hk.chain env hlt]
      cases hout : h.outer? env with
      | none => rfl
      | some outer =>
        obtain ⟨hlt, hmade⟩ := outer?_lt hout
        exact congrArg (env :: ·) (hold _ outer (Nat.lt_trans hlt hmade)).symm
    -- the new one, inside an environment that was there
    · rw [hcount] at henv
      obtain rfl : env = n := Nat.le_antisymm (Nat.le_of_lt_succ henv) hge
      have hnone : h.outer? env = none := Option.eq_none_iff_forall_not_mem.2 fun outer hout =>
        absurd (outer?_lt hout).2 (Nat.lt_irrefl env)
      rw [Environments.chain_make, if_pos hk.handles.symm, hk.frames, hnone, Option.or_none]
      cases hout : op.outer? env with
      | none => rfl
      | some outer =>
        exact congrArg (env :: ·) (hold _ outer (Operation.outer?_lt hout).2).symm

/-- As many frames and chains are there as environments have been made. -/
theorem Kept.sizes_after (hk : h.Kept) (op : Operation α n) :
    (h.after op).environments.store.frames.size = op.count ∧
      (h.after op).environments.chains.size = op.count := by
  show (h.environments.perform op).2.store.frames.size = op.count ∧
    (h.environments.perform op).2.chains.size = op.count
  rcases h.environments.perform_cases op with ⟨hcount, -, hchains, hsize⟩ | ⟨hcount, hmake⟩
  · rw [hsize, hchains, hcount]
    exact ⟨hk.frames, hk.handles⟩
  · rw [hmake, hcount]
    exact ⟨(Array.size_push ..).trans (congrArg (· + 1) hk.frames),
      (Array.size_push ..).trans (congrArg (· + 1) hk.handles)⟩

/-- A name is bound once it has been defined, and only by what is written to it. -/
theorem Kept.bound_after (hk : h.Kept) (op : Operation α n) (home : Nat) (name : String) :
    ((h.after op).environments.store.lookup? home name).isSome ↔ (h.after op).Binds home name := by
  have hfollows := hk.follows op home name
  constructor
  · intro hbound
    obtain ⟨w, hw⟩ := Option.isSome_iff_exists.1 hbound
    rcases (hfollows w).1 hw with hw | ⟨hw, -⟩
    · exact hw.binds
    · exact .inl ((hk.bound home name).1 (hw ▸ rfl))
  · intro hbinds
    by_cases hwrites : ∃ w, h.Writes home name w op
    · obtain ⟨w, hw⟩ := hwrites
      exact Option.isSome_iff_exists.2 ⟨w, (hfollows w).2 (.inl hw)⟩
    -- nothing was written here, so what is bound was bound before
    · rcases hbinds with hbinds | hdefines
      · obtain ⟨w, hw⟩ := Option.isSome_iff_exists.1 ((hk.bound home name).2 hbinds)
        have hnot : ∀ x, ¬ h.Writes home name x op := fun x hx => hwrites ⟨x, hx⟩
        exact Option.isSome_iff_exists.2 ⟨w, (hfollows w).2 (.inr ⟨hw, hnot⟩)⟩
      · exact absurd (writes_of_defines hdefines) hwrites

/-- The store holds what the history says behind every sequence of operations. -/
theorem kept {n : Nat} (h : History α n) : h.Kept := by
  induction h with
  | start => exact ⟨rfl, rfl, nofun, by simp [environments, Store.lookup?, Store.empty, Binds],
      by simp [environments, Store.lookup?, Store.empty, LastWritten]⟩
  | @after n h op hk =>
    obtain ⟨hframes, hhandles⟩ := hk.sizes_after op
    refine ⟨hframes, hhandles, hk.chain_after op, hk.bound_after op, fun home name v => ?_⟩
    refine (hk.follows op home name v).trans ?_
    rw [hk.written]
    rfl

end History

end Lox
