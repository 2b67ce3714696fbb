import Lox.Proofs.Grammar.Soundness.Program

set_option autoImplicit false

/-! # What a whole parse gives

A parse of any token list, with an end token or without one, never looks for a token where there is
none. The identities of its tree are new, and the next parse starts behind them, also if there are
mistakes. Without a mistake, the tree is derived from the tokens before the first end token. -/

namespace Lox.Grammar

open Parse

variable (tokens : List Token) (firstId : RefId)

/-- There is an end token among terminated tokens. -/
theorem exists_isEnd_of_terminated : ∃ t ∈ terminated tokens, isEnd t = true := by
  unfold terminated
  split
  · next h =>
    obtain ⟨t, ht, hend⟩ := (Option.any_eq_true _ _).1 h
    exact ⟨t, List.mem_of_getLast? ht, hend⟩
  · exact ⟨_, List.mem_append_right _ List.mem_cons_self, rfl⟩

/-- A parse starts in a state with an end. -/
theorem hasEnd_start : (State.start tokens firstId).HasEnd := by
  obtain ⟨u, hu, hend⟩ := exists_isEnd_of_terminated tokens
  obtain ⟨t, ht⟩ := Option.isSome_iff_exists.1 (List.find?_isSome.2 ⟨u, hu, hend⟩)
  have hkind : isEnd t = true := List.find?_some ht
  exact ⟨t, ht, Kind.eq_of_sameAs rfl (Kind.sameAs_comm _ _ ▸ hkind)⟩

/-- The tokens that a tree can be made of are among those given. -/
theorem mem_of_mem_start {t : Token} (h : t ∈ (State.start tokens firstId).rest) : t ∈ tokens := by
  have hend : (!isEnd t) = true := List.all_eq_true.1 List.all_takeWhile t h
  have hmem : t ∈ terminated tokens := (List.takeWhile_sublist _).subset h
  unfold terminated at hmem
  split at hmem
  · exact hmem
  · rcases List.mem_append.1 hmem with hmem | hmem
    · exact hmem
    · rw [List.mem_singleton.1 hmem] at hend
      exact nomatch hend

/-- What every outcome of a parse is like: tokens were looked for only where there are some, the
    identities `ids` of its tree are new, and without a mistake a fact about the tree holds. -/
structure Outcome.Follows {α : Type} (o : Outcome α) (firstId : RefId) (ids : List RefId)
    (fact : Prop) : Prop where
  ranOut : o.ranOut = false
  drawn : Drawn ids firstId o.nextId
  fact : o.errors = [] → fact

theorem program_follows :
    Outcome.Follows (program tokens firstId) firstId
      (Symbol.declarations.ids (program tokens firstId).tree)
      (Reads true .declarations firstId (State.start tokens firstId).rest
        (program tokens firstId).tree (program tokens firstId).nextId []) := by
  have hgives := yieldsAt_declarations _ (hasEnd_start tokens firstId)
  unfold program
  cases hrun : declarations (.start tokens firstId) with
  | ok ds s =>
    rw [hrun] at hgives
    obtain ⟨-, hgives, hrest⟩ := hgives
    refine ⟨rfl, hgives.drawn, fun h => ?_⟩
    have hquiet : s.reported = #[] := by simpa [State.errors] using h
    have hreads := hgives.reads hquiet
    rw [hrest hquiet] at hreads
    exact hreads
  | error failure s =>
    rw [hrun] at hgives
    cases failure with
    | mistake m => exact ⟨rfl, .nil hgives.1.nextId, fun h => by simp at h⟩
    | outOfTokens => exact absurd rfl hgives.2

theorem singleExpression_follows :
    Outcome.Follows (singleExpression tokens firstId) firstId
      ((optionReferences (singleExpression tokens firstId).tree).map Reference.id)
      (∃ e, (singleExpression tokens firstId).tree = some e ∧
        Reads true .expression firstId (State.start tokens firstId).rest e
          (singleExpression tokens firstId).nextId []) := by
  have hgives : YieldsAt (.start tokens firstId) onlyExpression fun e s' =>
      Gives .expression (.start tokens firstId) e s' ∧ s'.rest = [] := by
    refine (isRule_expression _).bind fun e s₁ _ g => ?_
    refine yieldsAt_atEnd.bind fun b s₂ _ h => ?_
    obtain ⟨rfl, hb⟩ := h
    split
    · next hend => exact .pure ⟨g, by simpa [hb] using hend⟩
    · exact yieldsAt_fail _ _
  have hgives := hgives (hasEnd_start tokens firstId)
  unfold singleExpression
  cases hrun : onlyExpression (.start tokens firstId) with
  | ok e s =>
    rw [hrun] at hgives
    obtain ⟨-, hgives, hrest⟩ := hgives
    refine ⟨rfl, hgives.drawn, fun h => ⟨e, rfl, ?_⟩⟩
    have hquiet : s.reported = #[] := by simpa [State.errors] using h
    have hreads := hgives.reads hquiet
    rw [hrest] at hreads
    exact hreads
  | error failure s =>
    rw [hrun] at hgives
    cases failure with
    | mistake m => exact ⟨rfl, .nil hgives.1.nextId, fun h => by simp at h⟩
    | outOfTokens => exact absurd rfl hgives.2

end Lox.Grammar
