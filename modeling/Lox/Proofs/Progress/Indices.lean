import Lox.Proofs.Alike.Steps
import Lox.Proofs.Progress.Positions

set_option autoImplicit false

/-! # Reading by index

The tokens of a parse can also be kept, and an index says which of them is next (`Place`). To look at
a token is then to look it up, and can fail: `advance` is what keeps the index from passing an end
token, as it moves on only where the next token is none. After a mistake the index is moved on as far
as it is likely that a statement begins (`synchronize`).

Here it is proved that the reader by index (`Reader.indexed`) and the one that drops the tokens it has
read do the same with every rule (`Reader.indexed_simulates`): what one of them unfolds to the other
does too, and the index is that of the token at which the other stands (`Place.Shows`). -/

namespace Lox.Parse

variable {α : Type} {tokens : List Token} {s : State}

/-- Where a parse stands that keeps its tokens. -/
structure Place where
  /-- The index of the next token. -/
  current : Nat
  nextId : RefId
  reported : Array Mistake

namespace Place

/-- The place before the first token. -/
def start (firstId : RefId) : Place := ⟨0, firstId, #[]⟩

/-- The mistakes reported up to a place. -/
def errors (p : Place) : List Error := p.reported.toList.map Mistake.error

/-! ## Steps -/

section

variable (tokens : List Token)

/-- Look up a token. -/
def tokenAt (index : Nat) : EStateM Failure Place Token :=
  match tokens[index]? with
  | some t => pure t
  | none => throw .outOfTokens

def peek : EStateM Failure Place Token := do tokenAt tokens (← get).current

/-- The token before the next one. -/
def previous : EStateM Failure Place Token := do tokenAt tokens ((← get).current - 1)

def atEnd : EStateM Failure Place Bool := return isEnd (← peek tokens)

/-- Move on to the next token, but not past an end token. -/
def advance : EStateM Failure Place Unit := do
  if !(← atEnd tokens) then modify fun p => { p with current := p.current + 1 }

/-- Whether the kind of the next token passes a test. That of an end token does not. -/
def check (test : Kind → Bool) : EStateM Failure Place Bool := do
  if ← atEnd tokens then return false else return test (← peek tokens).kind

def takeIf (test : Kind → Bool) : EStateM Failure Place (Option Token) := do
  if ← check tokens test then
    advance tokens
    return some (← previous tokens)
  else return none

def step : {α : Type} → Step α → EStateM Failure Place α
  | _, .pure a => pure a
  | _, .fail problem => do throw (.mistake ⟨← peek tokens, problem⟩)
  | _, .peek => peek tokens
  | _, .advance => advance tokens
  | _, .atEnd => atEnd tokens
  | _, .nextIs kind => check tokens kind.sameAs
  | _, .takeIf test => takeIf tokens test
  | _, .freshId => modifyGet fun p => (p.nextId, { p with nextId := p.nextId + 1 })
  | _, .reportAt token problem =>
    modify fun p => { p with reported := p.reported.push ⟨token, problem⟩ }

/-! ## Recovery -/

/-- The first index from one on at which a statement is likely to begin, or that of an end token. -/
def boundary? (index : Nat) : Option Nat :=
  match _ : tokens[index]?, tokens[index - 1]? with
  | some t, some dropped =>
    if isEnd t || dropped.kind.sameAs .semicolon || startsStatement t.kind then some index
    else boundary? (index + 1)
  | _, _ => none
termination_by tokens.length - index
decreasing_by
  have := (List.getElem?_eq_some_iff.1 ‹tokens[index]? = some t›).1
  omega

/-- Drop one token, and then others up to where a statement is likely to begin. -/
def synchronize : EStateM Failure Place Unit := do
  advance tokens
  match boundary? tokens (← get).current with
  | some index => modify fun p => { p with current := index }
  | none => throw .outOfTokens

end

end Place

/-- The reader that keeps the tokens and moves an index. -/
def Reader.indexed (tokens : List Token) : Reader Place where
  step := Place.step (terminated tokens)
  resume m := do
    modify fun p => { p with reported := p.reported.push m }
    Place.synchronize (terminated tokens)

/-! ## What a place shows -/

/-- The state of a parse that stands at a place. -/
structure Place.Shows (tokens : List Token) (p : Place) (s : State) : Prop where
  standsAt : s.StandsAt tokens p.current
  nextId : s.nextId = p.nextId
  reported : s.reported = p.reported

namespace Place.Shows

variable {p q : Place}

theorem start (tokens : List Token) (firstId : RefId) :
    (Place.start firstId).Shows tokens (.start tokens firstId) :=
  ⟨standsAt_start, rfl, rfl⟩

theorem exists_state (hle : p.current ≤ firstEnd tokens) : ∃ s, p.Shows tokens s := by
  obtain ⟨s, hs, hid, hreported⟩ := State.StandsAt.exists_state tokens hle p.nextId p.reported
  exact ⟨s, hs, hid, hreported⟩

theorem unique (h : p.Shows tokens s) (h' : q.Shows tokens s) : p = q := by
  obtain ⟨current, nextId, reported⟩ := p
  obtain ⟨hat, rfl, rfl⟩ := h
  obtain ⟨current', nextId', reported'⟩ := q
  obtain ⟨hat', rfl, rfl⟩ := h'
  obtain rfl := hat.unique hat'
  rfl

theorem errors (h : p.Shows tokens s) : p.errors = s.errors := by
  unfold Place.errors State.errors
  rw [h.reported]

/-! ## Steps of both readers -/

/-- Both look at the same token. -/
theorem peek (h : p.Shows tokens s) : ∃ t, Place.peek (terminated tokens) p = .ok t p ∧
    Parse.peek s = .ok t s ∧ isEnd t = s.rest.isEmpty := by
  obtain ⟨t, ht, hend⟩ := h.standsAt.exists_token
  refine ⟨t, ?_, ?_, hend⟩
  · show tokenAt (terminated tokens) p.current p = _
    rw [tokenAt, ht]
    rfl
  · rw [Parse.peek, h.standsAt.next?, ht]

theorem atEnd (h : p.Shows tokens s) :
    Place.atEnd (terminated tokens) p = .ok s.rest.isEmpty p := by
  obtain ⟨t, ht, -, hend⟩ := h.peek
  rw [Place.atEnd, bind_of_ok ht, hend]
  rfl

/-- Where no token is left to be read, the index stays. -/
theorem advance_of_nil (h : p.Shows tokens s) (hnil : s.rest = []) :
    Place.advance (terminated tokens) p = .ok () p := by
  rw [Place.advance, bind_of_ok h.atEnd, hnil]
  rfl

/-- Where one token is read, the index moves on by one, and the token is the one before. -/
theorem advance_of_cons {t : Token} {ts : List Token} (h : p.Shows tokens s)
    (hcons : s.rest = t :: ts) :
    let next : Place := { p with current := p.current + 1 }
    Place.advance (terminated tokens) p = .ok () next ∧
      Place.previous (terminated tokens) next = .ok t next ∧
      next.Shows tokens { s with rest := ts } := by
  intro next
  obtain ⟨ht, hnext⟩ := h.standsAt.succ hcons
  refine ⟨?_, ?_, hnext, h.nextId, h.reported⟩
  · rw [Place.advance, bind_of_ok h.atEnd, hcons]
    rfl
  · show tokenAt (terminated tokens) (p.current + 1 - 1) next = _
    rw [Nat.add_sub_cancel, tokenAt, ht]
    rfl

theorem check (h : p.Shows tokens s) (test : Kind → Bool) :
    Place.check (terminated tokens) test p =
      .ok ((s.rest.head?.map fun t => test t.kind).getD false) p := by
  obtain ⟨t, ht, hpeek, hend⟩ := h.peek
  rw [Place.check, bind_of_ok h.atEnd]
  cases hrest : s.rest with
  | nil => rfl
  | cons u ts =>
    rw [Parse.peek, State.next?, hrest] at hpeek
    cases hpeek
    simp only [List.isEmpty_cons, Bool.false_eq_true, if_false]
    rw [bind_of_ok ht]
    rfl

theorem report (h : p.Shows tokens s) (m : Mistake) :
    Place.Shows tokens { p with reported := p.reported.push m }
      { s with reported := s.reported.push m } :=
  ⟨h.standsAt.congr rfl rfl, h.nextId, congrArg (·.push m) h.reported⟩

theorem takeIf (h : p.Shows tokens s) (test : Kind → Bool) :
    EndAlike Eq (Place.Shows tokens) Eq (Place.takeIf (terminated tokens) test p)
      (Parse.takeIf test s) := by
  obtain ⟨t, -, hpeek, -⟩ := h.peek
  have hcheck := h.check test
  cases hrest : s.rest with
  | nil =>
    have hrun : Parse.takeIf test s = .ok none s := by
      refine (bind_of_ok hpeek).trans ?_
      rw [hrest]
    rw [hrest] at hcheck
    rw [hrun, Place.takeIf, bind_of_ok hcheck]
    exact .ok rfl h
  | cons u ts =>
    have hrun : Parse.takeIf test s =
        if test u.kind then .ok (some u) { s with rest := ts } else .ok none s := by
      refine (bind_of_ok hpeek).trans ?_
      rw [hrest]
    obtain ⟨hadvance, hprevious, hnext⟩ := h.advance_of_cons hrest
    rw [hrest, List.head?_cons, Option.map_some, Option.getD_some] at hcheck
    rw [hrun, Place.takeIf, bind_of_ok hcheck]
    cases test u.kind with
    | false => exact .ok rfl h
    | true =>
      simp only [if_true]
      rw [bind_of_ok hadvance, bind_of_ok hprevious]
      exact .ok rfl hnext

theorem advance (h : p.Shows tokens s) :
    EndAlike Eq (Place.Shows tokens) Eq (Place.advance (terminated tokens) p) (Parse.advance s) := by
  obtain ⟨t, -, hpeek, -⟩ := h.peek
  have hrun : Parse.advance s = .ok () { s with rest := s.rest.tail } := bind_of_ok hpeek
  rw [hrun]
  cases hrest : s.rest with
  | nil =>
    rw [h.advance_of_nil hrest]
    exact .ok rfl ⟨h.standsAt.congr hrest.symm rfl, h.nextId, h.reported⟩
  | cons u ts =>
    obtain ⟨hadvance, -, hnext⟩ := h.advance_of_cons hrest
    rw [hadvance]
    exact .ok rfl hnext

/-- Each single step comes to the same. -/
theorem step (h : p.Shows tokens s) (step : Step α) : EndAlike Eq (Place.Shows tokens) Eq
    (Place.step (terminated tokens) step p) (step.run s) := by
  obtain ⟨t, ht, hpeek, -⟩ := h.peek
  cases step with
  | pure a => exact .ok rfl h
  | fail problem =>
    rw [Place.step, bind_of_ok ht, Step.run, fail, bind_of_ok hpeek]
    exact .error rfl h
  | peek =>
    rw [Place.step, ht, Step.run, hpeek]
    exact .ok rfl h
  | advance => exact h.advance
  | atEnd =>
    rw [Place.step, h.atEnd, Step.run, Parse.atEnd, bind_of_ok hpeek]
    exact .ok rfl h
  | nextIs kind =>
    rw [Place.step, h.check, Step.run, Parse.nextIs, bind_of_ok hpeek]
    exact .ok rfl h
  | takeIf test => exact h.takeIf test
  | freshId =>
    have hid : s.nextId + 1 = p.nextId + 1 := congrArg (· + 1) h.nextId
    exact .ok h.nextId.symm ⟨h.standsAt.congr rfl rfl, hid, h.reported⟩
  | reportAt token problem => exact .ok rfl (h.report ⟨token, problem⟩)

/-! ## Recovery of both readers -/

/-- At an end token, the index has nowhere to go. -/
theorem boundary?_of_nil (h : p.Shows tokens s) (hnil : s.rest = []) :
    boundary? (terminated tokens) p.current = some p.current := by
  obtain ⟨t, ht, hend⟩ := h.standsAt.exists_token
  have hlt := (List.getElem?_eq_some_iff.1 ht).1
  have hdropped := List.getElem?_eq_getElem (Nat.lt_of_le_of_lt (Nat.sub_le p.current 1) hlt)
  rw [hnil, List.isEmpty_nil] at hend
  rw [boundary?, ht, hdropped]
  simp [hend]

/-- The index moves on by as many tokens as are dropped. -/
theorem boundary? {dropped : Token} (ts : List Token) (h : p.Shows tokens s) (hrest : s.rest = ts)
    (hdropped : (terminated tokens)[p.current - 1]? = some dropped) :
    ∃ index, Place.boundary? (terminated tokens) p.current = some index ∧
      Place.Shows tokens { p with current := index }
        { s with rest := resumeAfter dropped ts } := by
  induction ts generalizing p s dropped with
  | nil =>
    refine ⟨p.current, h.boundary?_of_nil hrest, ?_⟩
    rwa [resumeAfter, ← hrest]
  | cons t ts ih =>
    obtain ⟨ht, hnext⟩ := h.standsAt.succ hrest
    have hend : isEnd t = false := by
      obtain ⟨u, hu, hend⟩ := h.standsAt.exists_token
      cases ht.symm.trans hu
      rw [hend, hrest]
      rfl
    rw [Place.boundary?, ht, hdropped, resumeAfter]
    simp only [hend, Bool.false_or]
    split
    · refine ⟨p.current, rfl, ?_⟩
      rwa [← hrest]
    · have hplace : Place.Shows tokens { p with current := p.current + 1 } { s with rest := ts } :=
        ⟨hnext, h.nextId, h.reported⟩
      exact ih hplace rfl ht

/-- Both go on at the same token after a mistake. -/
theorem resume (h : p.Shows tokens s) (m : Mistake) : ∃ q,
    (Reader.indexed tokens).resume m p = .ok () q ∧ q.Shows tokens (s.resumed m) := by
  let reported : Place := { p with reported := p.reported.push m }
  have hreported : reported.Shows tokens { s with reported := s.reported.push m } := h.report m
  have hsynchronize : ∀ (q : Place) (index : Nat),
      Place.advance (terminated tokens) reported = .ok () q →
      Place.boundary? (terminated tokens) q.current = some index →
      (Reader.indexed tokens).resume m p = .ok () { q with current := index } := by
    intro q index hadvance hboundary
    show Place.synchronize (terminated tokens) reported = _
    rw [Place.synchronize, bind_of_ok hadvance]
    show (match Place.boundary? (terminated tokens) q.current with
      | some index => modify fun p => { p with current := index }
      | none => throw .outOfTokens : EStateM Failure Place Unit) q = _
    rw [hboundary]
    rfl
  cases hrest : s.rest with
  | nil =>
    refine ⟨_, hsynchronize reported _ (hreported.advance_of_nil hrest)
      (hreported.boundary?_of_nil hrest), ?_⟩
    rwa [State.resumed, hrest, Parse.resume, ← hrest]
  | cons t ts =>
    obtain ⟨hadvance, -, hnext⟩ := hreported.advance_of_cons hrest
    have ht := (hreported.standsAt.succ hrest).1
    obtain ⟨index, hboundary, hshows⟩ := hnext.boundary? ts rfl ht
    refine ⟨_, hsynchronize _ index hadvance hboundary, ?_⟩
    rwa [State.resumed, hrest, Parse.resume]

end Place.Shows

/-! ## Readers that do the same -/

/-- In states that are related, each step and each recovery of one reader comes to what it comes to
    with the other. -/
structure Reader.Simulates {σ σ' : Type} (R : Reader σ) (R' : Reader σ') (S : σ → σ' → Prop) :
    Prop where
  step : ∀ {α : Type} (step : Step α), Matches Eq S Eq (R.step step) (R'.step step)
  resume : ∀ m, Matches Eq S Eq (R.resume m) (R'.resume m)

theorem Reader.Simulates.symm {σ σ' : Type} {R : Reader σ} {R' : Reader σ'} {S : σ → σ' → Prop}
    (h : R.Simulates R' S) : R'.Simulates R fun s' s => S s s' :=
  ⟨fun step => (h.step step).symm, fun m => (h.resume m).symm⟩

/-- A rule unfolds with both readers, through related states. The induction follows the unfolding, and
    goes from each part to the next in the related states in which it ends. -/
theorem Unfolds.simulated {σ σ' : Type} {R : Reader σ} {R' : Reader σ'} {S : σ → σ' → Prop}
    (hsim : R.Simulates R' S) {rule : Rule α} {s : σ} {s' : σ'} {l : List σ}
    {r : EStateM.Result Failure σ α} (h : Unfolds R rule s l r) (hs : S s s') :
    ∃ l' r', Unfolds R' rule s' l' r' ∧ List.Forall₂ S l l' ∧ EndAlike Eq S Eq r r' := by
  induction h generalizing s' with
  | step step s =>
    have hend := hsim.step step s s' hs
    refine ⟨_, _, .step step s', .cons ?_ .nil, hend⟩
    generalize R.step step s = r, R'.step step s' = r' at hend
    cases hend with
    | ok _ hs | error _ hs => exact hs
  | bind _ _ ih ih₂ =>
    obtain ⟨l₁, _, h₁, hl₁, ⟨rfl, hs₁⟩⟩ := ih hs
    obtain ⟨l₂, r₂, h₂, hl₂, hr₂⟩ := ih₂ hs₁
    exact ⟨_, _, .bind h₁ h₂, List.rel_append hl₁ hl₂, hr₂⟩
  | bindError _ ih =>
    obtain ⟨l₁, _, h₁, hl₁, - | ⟨rfl, hs₁⟩⟩ := ih hs
    exact ⟨_, _, .bindError h₁, hl₁, .error rfl hs₁⟩
  | stop _ ih =>
    obtain ⟨l₁, _, h₁, hl₁, ⟨rfl, hs₁⟩⟩ := ih hs
    exact ⟨_, _, .stop h₁, hl₁, .ok rfl hs₁⟩
  | again _ _ ih ih₂ =>
    obtain ⟨l₁, _, h₁, hl₁, ⟨rfl, hs₁⟩⟩ := ih hs
    obtain ⟨l₂, r₂, h₂, hl₂, hr₂⟩ := ih₂ hs₁
    exact ⟨_, _, .again h₁ h₂, List.rel_append hl₁ hl₂, hr₂⟩
  | loopError _ ih =>
    obtain ⟨l₁, _, h₁, hl₁, - | ⟨rfl, hs₁⟩⟩ := ih hs
    exact ⟨_, _, .loopError h₁, hl₁, .error rfl hs₁⟩
  | read _ ih =>
    obtain ⟨l₁, _, h₁, hl₁, ⟨rfl, hs₁⟩⟩ := ih hs
    exact ⟨_, _, .read h₁, hl₁, .ok rfl hs₁⟩
  | @recovered _ _ _ _ _ _ _ _ m _ hresume ih =>
    obtain ⟨l₁, _, h₁, hl₁, - | ⟨rfl, hs₁⟩⟩ := ih hs
    have hend := hsim.resume m _ _ hs₁
    rw [hresume] at hend
    generalize hresume' : R'.resume m _ = r' at hend
    obtain ⟨-, hs₂⟩ := hend
    exact ⟨_, _, .recovered h₁ hresume', List.rel_append hl₁ (.cons hs₂ .nil), .ok rfl hs₂⟩
  | @stranded _ _ _ _ _ _ _ _ m _ _ hresume ih =>
    obtain ⟨l₁, _, h₁, hl₁, - | ⟨rfl, hs₁⟩⟩ := ih hs
    have hend := hsim.resume m _ _ hs₁
    rw [hresume] at hend
    generalize hresume' : R'.resume m _ = r' at hend
    obtain - | ⟨rfl, hs₂⟩ := hend
    exact ⟨_, _, .stranded h₁ hresume', List.rel_append hl₁ (.cons hs₂ .nil), .error rfl hs₂⟩
  | lost _ ih =>
    obtain ⟨l₁, _, h₁, hl₁, - | ⟨rfl, hs₁⟩⟩ := ih hs
    exact ⟨_, _, .lost h₁, hl₁, .error rfl hs₁⟩
  | nested _ ih =>
    obtain ⟨l₁, r₁, h₁, hl₁, hr₁⟩ := ih hs
    exact ⟨_, _, .nested h₁, hl₁, hr₁⟩

/-- **Reading by index is reading token by token.** -/
theorem Reader.indexed_simulates (tokens : List Token) :
    (Reader.indexed tokens).Simulates .dropping (Place.Shows tokens) where
  step step _ _ h := h.step step
  resume m p s h := by
    obtain ⟨q, hq, hshows⟩ := h.resume m
    rw [hq, h.standsAt.hasEnd.resume m]
    exact .ok rfl hshows

/-! ## Indices in ascending order -/

/-- Places one after the other, from an index on: none is before the one that comes before it, and
none is behind the first end token. -/
inductive Place.Ascending (tokens : List Token) : Nat → List Place → Prop
  | done {i : Nat} : Ascending tokens i []
  | next {i : Nat} {p : Place} {passed : List Place} : i ≤ p.current →
      p.current ≤ firstEnd tokens → Ascending tokens p.current passed →
      Ascending tokens i (p :: passed)

theorem Place.ascending_of_forward {i : Nat} {places : List Place} {passed : List State}
    (h : Forward tokens i passed) (hshows : List.Forall₂ (Place.Shows tokens) places passed) :
    Ascending tokens i places := by
  induction h generalizing places with
  | done =>
    cases hshows
    exact .done
  | next hle hat _ ih =>
    cases hshows with
    | cons hp hplaces =>
      obtain rfl := hat.unique hp.standsAt
      exact .next hle hat.le (ih hplaces)

/-! ## What unfolds by index -/

section

variable {rule : Rule α} {p : Place}

/-- What unfolds token by token unfolds by index. -/
theorem Unfolds.indexed {passed : List State} {r : EStateM.Result Failure State α}
    (h : Unfolds .dropping rule s passed r) (hp : p.Shows tokens s) :
    ∃ places r', Unfolds (.indexed tokens) rule p places r' ∧
      List.Forall₂ (Place.Shows tokens) places passed ∧
      EndAlike Eq (Place.Shows tokens) Eq r' r := by
  obtain ⟨places, r', hunfolds, hplaces, hend⟩ :=
    h.simulated (Reader.indexed_simulates tokens).symm hp
  refine ⟨places, r', hunfolds, hplaces.flip, ?_⟩
  cases hend with
  | ok ha hs => exact .ok ha.symm hs
  | error he hs => exact .error he.symm hs

theorem Place.shows_continuedBy (behind : List Token) :
    Place.Shows (continuedBy tokens behind) = Place.Shows tokens := by
  funext p s
  refine propext ⟨fun h => ?_, fun h => ?_⟩
  · exact ⟨(State.standsAt_continuedBy behind).1 h.standsAt, h.nextId, h.reported⟩
  · exact ⟨(State.standsAt_continuedBy behind).2 h.standsAt, h.nextId, h.reported⟩

/-- Two ends that are shown by the same end are the same. -/
theorem Place.end_unique {r r' : EStateM.Result Failure Place α}
    {shown : EStateM.Result Failure State α} (h : EndAlike Eq (Place.Shows tokens) Eq r shown)
    (h' : EndAlike Eq (Place.Shows tokens) Eq r' shown) : r = r' := by
  cases h with
  | ok ha hp =>
    obtain ⟨ha', hp'⟩ := h'
    rw [ha, ha', hp.unique hp']
  | error he hp =>
    obtain - | ⟨he', hp'⟩ := h'
    rw [he, he', hp.unique hp']

/-- In tokens where places show the same, a rule unfolds in the same way. -/
theorem Unfolds.indexed_of_shows {tokens' : List Token} {places : List Place}
    {r : EStateM.Result Failure Place α} (h : Unfolds (.indexed tokens) rule p places r)
    (hle : p.current ≤ firstEnd tokens) (hsame : Place.Shows tokens' = Place.Shows tokens) :
    Unfolds (.indexed tokens') rule p places r := by
  obtain ⟨s, hs⟩ := Place.Shows.exists_state hle
  obtain ⟨passed, shown, hdropping, hpassed, hend⟩ :=
    h.simulated (Reader.indexed_simulates tokens) hs
  obtain ⟨places', r', hindexed, hpassed', hend'⟩ := hdropping.indexed (hsame ▸ hs)
  rw [hsame] at hpassed' hend'
  obtain rfl : places = places' :=
    List.left_unique_forall₂' (fun _ _ _ hp hq => hp.unique hq) hpassed hpassed'
  obtain rfl : r = r' := Place.end_unique hend hend'
  exact hindexed

/-- What stands behind the first end token makes no difference. -/
theorem Unfolds.indexed_continuedBy (behind : List Token) {places : List Place}
    {r : EStateM.Result Failure Place α} (hle : p.current ≤ firstEnd tokens) :
    Unfolds (.indexed (continuedBy tokens behind)) rule p places r ↔
      Unfolds (.indexed tokens) rule p places r := by
  have hsame : Place.Shows (continuedBy tokens behind) = Place.Shows tokens :=
    Place.shows_continuedBy behind
  have hle' : p.current ≤ firstEnd (continuedBy tokens behind) :=
    (firstEnd_continuedBy tokens behind).symm ▸ hle
  exact ⟨fun h => h.indexed_of_shows hle' hsame.symm, fun h => h.indexed_of_shows hle hsame⟩

end

end Lox.Parse
