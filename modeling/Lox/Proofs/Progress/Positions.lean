import Lox.Proofs.Grammar.Soundness.Whole
import Lox.Proofs.Progress.Statements

set_option autoImplicit false

/-! # Where a parse stands

Where a parse stands is said by an index into its tokens (`State.StandsAt`), no greater than that of
the first end token (`firstEnd`). Whatever rule it runs, the index never becomes less
(`Unfolds.forward`). -/

namespace Lox.Parse

open Grammar

variable {tokens : List Token} {firstId : RefId} {s s' : State} {i j : Nat}

/-! ## Positions -/

/-- The index of the first end token. -/
def firstEnd (tokens : List Token) : Nat := (terminated tokens).findIdx isEnd

/-- In a state, the parse of some tokens stands at the one with an index: those from there on up to
    the first end token are still to be read. -/
structure State.StandsAt (tokens : List Token) (s : State) (i : Nat) : Prop where
  le : i ≤ firstEnd tokens
  rest : s.rest = ((terminated tokens).take (firstEnd tokens)).drop i
  final : s.final = (terminated tokens)[firstEnd tokens]?

/-- States in which the parse of some tokens stands one after the other: from an index on, none goes
    back behind the one before it. -/
inductive Forward (tokens : List Token) : Nat → List State → Prop
  | done {i : Nat} : Forward tokens i []
  | next {i j : Nat} {s : State} {passed : List State} : i ≤ j → s.StandsAt tokens j →
      Forward tokens j passed → Forward tokens i (s :: passed)

theorem firstEnd_eq {before behind : List Token} {t : Token}
    (heq : terminated tokens = before ++ t :: behind) (hbefore : ∀ u ∈ before, isEnd u = false)
    (hend : isEnd t = true) : firstEnd tokens = before.length := by
  unfold firstEnd
  rw [heq, List.findIdx_append, List.findIdx_eq_length_of_false hbefore, List.findIdx_cons, hend]
  simp

/-- There is a first end token, and others before it. -/
theorem exists_firstEnd (tokens : List Token) : ∃ before t behind,
    terminated tokens = before ++ t :: behind ∧ (∀ u ∈ before, isEnd u = false) ∧
      isEnd t = true ∧ firstEnd tokens = before.length := by
  obtain ⟨u, hu, hend⟩ := exists_isEnd_of_terminated tokens
  obtain ⟨t, ht⟩ := Option.isSome_iff_exists.1 (List.find?_isSome.2 ⟨u, hu, hend⟩)
  obtain ⟨hisEnd, before, behind, heq, hbefore⟩ := List.find?_eq_some_iff_append.1 ht
  have hbefore : ∀ u ∈ before, isEnd u = false := fun u hu => by simpa using hbefore u hu
  exact ⟨before, t, behind, heq, hbefore, hisEnd, firstEnd_eq heq hbefore hisEnd⟩

theorem length_take_firstEnd :
    ((terminated tokens).take (firstEnd tokens)).length = firstEnd tokens := by
  obtain ⟨before, t, behind, heq, -, -, hlength⟩ := exists_firstEnd tokens
  rw [hlength, heq, List.take_left]

namespace State.StandsAt

/-- The next token is the one with the index. -/
theorem next? (h : s.StandsAt tokens i) : s.next? = (terminated tokens)[i]? := by
  obtain ⟨before, t, behind, heq, -, -, hlength⟩ := exists_firstEnd tokens
  rw [State.next?, h.rest, h.final, List.head?_drop]
  rcases Nat.lt_or_eq_of_le h.le with hlt | rfl
  · rw [List.getElem?_take_of_lt hlt, List.getElem?_eq_getElem (by rw [heq]; simp; omega)]
    rfl
  · rw [List.getElem?_eq_none (Nat.le_of_eq length_take_firstEnd), Option.none_or]

theorem length (h : s.StandsAt tokens i) : s.rest.length = firstEnd tokens - i := by
  rw [h.rest, List.length_drop, length_take_firstEnd]

theorem hasEnd (h : s.StandsAt tokens i) : s.HasEnd := by
  obtain ⟨before, t, behind, heq, -, hend, hlength⟩ := exists_firstEnd tokens
  refine ⟨t, ?_, Kind.eq_of_sameAs rfl (Kind.sameAs_comm _ _ ▸ hend)⟩
  rw [h.final, hlength, heq, List.getElem?_append_right (Nat.le_refl _)]
  simp

/-- Where a parse is led to, it stands at a token no further to the front. -/
theorem leadsTo (h : s.StandsAt tokens i) (hleads : s.LeadsTo s') :
    ∃ j, i ≤ j ∧ s'.StandsAt tokens j := by
  have hle := hleads.length_le
  rw [h.length] at hle
  refine ⟨firstEnd tokens - s'.rest.length, ?_, Nat.sub_le _ _, ?_, hleads.final.trans h.final⟩
  · have := h.le
    omega
  · have hsuffix : s'.rest <:+ (terminated tokens).take (firstEnd tokens) :=
      hleads.rest.trans (h.rest ▸ List.drop_suffix _ _)
    have hdrop := List.suffix_iff_eq_drop.1 hsuffix
    rwa [length_take_firstEnd] at hdrop

theorem lt_of_length (h : s.StandsAt tokens i) (h' : s'.StandsAt tokens j)
    (hless : s'.rest.length < s.rest.length) : i < j := by
  rw [h.length, h'.length] at hless
  omega

theorem of_nil (h : s.StandsAt tokens i) (hnil : s.rest = []) :
    i = firstEnd tokens := by
  have hlength := h.length
  rw [hnil, List.length_nil] at hlength
  have := h.le
  omega

/-- A parse stands at one token only. -/
theorem unique (h : s.StandsAt tokens i) (h' : s.StandsAt tokens j) : i = j := by
  have hlength := h.length.symm.trans h'.length
  have := h.le
  have := h'.le
  omega

/-- There is a token where a parse stands. It is an end token if no others are left. -/
theorem exists_token (h : s.StandsAt tokens i) :
    ∃ t, (terminated tokens)[i]? = some t ∧ isEnd t = s.rest.isEmpty := by
  obtain ⟨before, t, behind, heq, hbefore, hend, hlength⟩ := exists_firstEnd tokens
  have hrest : s.rest = before.drop i := by rw [h.rest, hlength, heq, List.take_left]
  rcases Nat.lt_or_eq_of_le (hlength ▸ h.le) with hlt | rfl
  · refine ⟨before[i], ?_, ?_⟩
    · rw [heq, List.getElem?_append_left hlt, List.getElem?_eq_getElem hlt]
    · rw [hrest, List.drop_eq_getElem_cons hlt, hbefore _ (List.getElem_mem hlt)]
      rfl
  · refine ⟨t, ?_, ?_⟩
    · rw [heq, List.getElem?_append_right (Nat.le_refl _)]
      simp
    · rw [hrest, List.drop_length, hend]
      rfl

/-- Where a parse stands is told by what is left to be read. -/
theorem congr (h : s.StandsAt tokens i) (hrest : s'.rest = s.rest) (hfinal : s'.final = s.final) :
    s'.StandsAt tokens i :=
  ⟨h.le, hrest.trans h.rest, hfinal.trans h.final⟩

/-- Where one token has been read, a parse stands at the next. -/
theorem succ {t : Token} {ts : List Token} (h : s.StandsAt tokens i) (hrest : s.rest = t :: ts) :
    (terminated tokens)[i]? = some t ∧ State.StandsAt tokens { s with rest := ts } (i + 1) := by
  have hlength := h.length
  rw [hrest, List.length_cons] at hlength
  have ht : (terminated tokens)[i]? = some t := by
    rw [← h.next?, State.next?, hrest]
    rfl
  have hts : ts = ((terminated tokens).take (firstEnd tokens)).drop (i + 1) := by
    rw [← List.drop_drop, ← h.rest, hrest]
    rfl
  exact ⟨ht, by omega, hts, h.final⟩

/-- A parse can stand at any token up to the first end. -/
theorem exists_state (tokens : List Token) (h : i ≤ firstEnd tokens) (nextId : RefId)
    (reported : Array Mistake) :
    ∃ s : State, s.StandsAt tokens i ∧ s.nextId = nextId ∧ s.reported = reported :=
  ⟨⟨_, _, nextId, reported⟩, ⟨h, rfl, rfl⟩, rfl, rfl⟩

end State.StandsAt

theorem forward_of_pairwise {passed : List State} (h : s.StandsAt tokens i)
    (hpassed : (s :: passed).Pairwise State.LeadsTo) : Forward tokens i passed := by
  induction passed generalizing s i with
  | nil => exact .done
  | cons s₁ passed ih =>
    obtain ⟨hfirst, hrest⟩ := List.pairwise_cons.1 hpassed
    obtain ⟨j, hle, hj⟩ := h.leadsTo (hfirst s₁ List.mem_cons_self)
    exact .next hle hj (ih hj hrest)

theorem Unfolds.forward {α : Type} {rule : Rule α} {passed : List State}
    {r : EStateM.Result Failure State α} (hrun : Unfolds .dropping rule s passed r)
    (h : s.StandsAt tokens i) : Forward tokens i passed :=
  forward_of_pairwise h (hrun.onward h.hasEnd).pairwise

/-! ## The start -/

theorem exists_terminated_eq (tokens : List Token) :
    ∃ more, terminated tokens = tokens ++ more := by
  unfold terminated
  split
  · exact ⟨[], (List.append_nil _).symm⟩
  · exact ⟨_, rfl⟩

theorem start_eq {before behind : List Token} {t : Token}
    (heq : terminated tokens = before ++ t :: behind) (hbefore : ∀ u ∈ before, isEnd u = false)
    (hend : isEnd t = true) : State.start tokens firstId = ⟨before, some t, firstId, #[]⟩ := by
  have hfront : ∀ u ∈ before, (!isEnd u) = true := fun u hu => by rw [hbefore u hu]; rfl
  unfold State.start
  rw [heq, List.takeWhile_append_of_pos hfront, List.takeWhile_cons_of_neg (by simp [hend]),
    List.append_nil, List.find?_append, List.find?_eq_none.2 (by simpa using hbefore),
    List.find?_cons_of_pos hend]
  rfl

theorem standsAt_start : (State.start tokens firstId).StandsAt tokens 0 := by
  obtain ⟨before, t, behind, heq, hbefore, hend, hlength⟩ := exists_firstEnd tokens
  rw [start_eq heq hbefore hend]
  refine ⟨Nat.zero_le _, ?_, ?_⟩
  · rw [List.drop_zero, hlength, heq, List.take_left]
  · rw [hlength, heq, List.getElem?_append_right (Nat.le_refl _)]
    simp

/-! ## Behind the first end token -/

/-- Tokens with others behind the first end token. -/
def continuedBy (tokens behind : List Token) : List Token :=
  (terminated tokens).take (firstEnd tokens + 1) ++ behind

/-- Up to the first end token nothing is changed. -/
theorem exists_terminated_continuedBy (tokens behind : List Token) : ∃ before t rest rest',
    terminated tokens = before ++ t :: rest ∧
      terminated (continuedBy tokens behind) = before ++ t :: rest' ∧
      (∀ u ∈ before, isEnd u = false) ∧ isEnd t = true := by
  obtain ⟨before, t, rest, heq, hbefore, hend, hlength⟩ := exists_firstEnd tokens
  have htake : (terminated tokens).take (firstEnd tokens + 1) = before ++ [t] := by
    rw [hlength, heq, List.take_length_add_append]
    rfl
  obtain ⟨more, hmore⟩ := exists_terminated_eq (continuedBy tokens behind)
  refine ⟨before, t, rest, behind ++ more, heq, ?_, hbefore, hend⟩
  rw [hmore, continuedBy, htake]
  simp

theorem firstEnd_continuedBy (tokens behind : List Token) :
    firstEnd (continuedBy tokens behind) = firstEnd tokens := by
  obtain ⟨before, t, rest, rest', heq, heq', hbefore, hend⟩ :=
    exists_terminated_continuedBy tokens behind
  rw [firstEnd_eq heq hbefore hend, firstEnd_eq heq' hbefore hend]

theorem start_continuedBy (tokens behind : List Token) :
    State.start (continuedBy tokens behind) firstId = State.start tokens firstId := by
  obtain ⟨before, t, rest, rest', heq, heq', hbefore, hend⟩ :=
    exists_terminated_continuedBy tokens behind
  rw [start_eq heq hbefore hend, start_eq heq' hbefore hend]

theorem State.standsAt_iff {before rest : List Token} {t : Token}
    (heq : terminated tokens = before ++ t :: rest) (hbefore : ∀ u ∈ before, isEnd u = false)
    (hend : isEnd t = true) : s.StandsAt tokens i ↔
      i ≤ before.length ∧ s.rest = before.drop i ∧ s.final = some t := by
  have hlength := firstEnd_eq heq hbefore hend
  have htake : (terminated tokens).take (firstEnd tokens) = before := by
    rw [hlength, heq, List.take_left]
  have hget : (terminated tokens)[firstEnd tokens]? = some t := by
    rw [hlength, heq]
    simp
  constructor
  · rintro ⟨hle, hrest, hfinal⟩
    exact ⟨hlength ▸ hle, htake ▸ hrest, hfinal.trans hget⟩
  · rintro ⟨hle, hrest, hfinal⟩
    exact ⟨hlength.symm ▸ hle, htake.symm ▸ hrest, hfinal.trans hget.symm⟩

/-- A parse stands where it does whatever stands behind the first end token. -/
theorem State.standsAt_continuedBy (behind : List Token) :
    s.StandsAt (continuedBy tokens behind) i ↔ s.StandsAt tokens i := by
  obtain ⟨before, t, rest, rest', heq, heq', hbefore, hend⟩ :=
    exists_terminated_continuedBy tokens behind
  rw [standsAt_iff heq hbefore hend, standsAt_iff heq' hbefore hend]

end Lox.Parse
