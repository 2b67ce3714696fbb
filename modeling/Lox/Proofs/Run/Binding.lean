import Lox.Proofs.Run.Steps

set_option autoImplicit false

/-! # Names of the innermost scope

A class is bound to its name twice: to nil before its methods are made, and then to the class. In
between the name stays bound in the innermost scope (`binds_of_openScope`), so that the second time
it is found there (`assignInnermost_eq_define`). -/

namespace Lox

open Eval

/-- The innermost scope binds a name. -/
def Machine.Binds (m : Machine) (name : String) : Prop :=
  ∀ frame outer, m.chain = frame :: outer → (m.store.lookup? frame name).isSome

/-- A name is bound once it has been defined, in a scope that has been opened. -/
theorem binds_of_define {name : String} {v : Value} {m m' : Machine}
    (hopened : ∀ frame outer, m.chain = frame :: outer → frame < m.store.frames.size)
    (hdefine : define name v m = .ok () m') : m'.Binds name := by
  injection hdefine with _ hm
  subst hm
  intro frame outer (hchain : m.chain = frame :: outer)
  show ((m.store.define m.chain name v).lookup? frame name).isSome
  rw [hchain]
  show ((m.store.bindIn frame name v).lookup? frame name).isSome
  rw [Store.lookup?_bindIn _ _ _ _ _ _ (hopened frame outer hchain), if_pos ⟨rfl, rfl⟩]
  rfl

/-- A name that the innermost scope binds stays bound in it when another scope is opened. -/
theorem binds_of_openScope {name bound : String} {v : Value} {outer chain : Chain} {m m' : Machine}
    (h : m.Binds name) (hopen : openScope outer [(bound, v)] m = .ok chain m') : m'.Binds name := by
  injection hopen with _ hm
  subst hm
  intro frame outer' hchain
  obtain ⟨w, hw⟩ := Option.isSome_iff_exists.1 (h frame outer' hchain)
  rw [← Store.lookup?_openIn m.store outer] at hw
  exact ((m.store.openIn outer).2.lookup?_bindIn_of_some m.store.frames.size v hw).1

/-- A name that the innermost scope binds is changed there. -/
theorem assignInnermost_eq_define {m : Machine} {frame : FrameId} {outer : Chain} {name : Token}
    (hchain : m.chain = frame :: outer) (hbound : (m.store.lookup? frame name.lexeme).isSome)
    (v : Value) : assignInnermost name v m = define name.lexeme v m := by
  have hhome : m.store.home? m.chain name.lexeme = some frame := by
    simp [Store.home?, hchain, hbound]
  have hdefine : m.store.define m.chain name.lexeme v = m.store.bindIn frame name.lexeme v := by
    rw [hchain]
    rfl
  show (orUndefined name (m.store.home? m.chain name.lexeme) >>= fun frame =>
      bindIn frame name.lexeme v) m =
    .ok () { m with store := m.store.define m.chain name.lexeme v }
  rw [hhome, hdefine]
  rfl

end Lox
