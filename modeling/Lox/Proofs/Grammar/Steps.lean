import Lox.Parse.Program

set_option autoImplicit false

/-! # What a parse step can do

A rule of the parser, successful or not, only reads tokens from the front, hands out identities and
reports mistakes (`State.LeadsTo`). `YieldsAt s p P` says this of a rule `p` run in a state `s` that
has an end of input, and that `P` holds of the tree and the state when the rule succeeds; the rule
does not run out of tokens. It is proved of a rule from what holds of its parts; a loop keeps what
each of its steps keeps. -/

namespace Lox

/-- Whether a kind has no value of its own. -/
def Kind.isPlain : Kind → Bool
  | string _ | number _ => false
  | _ => true

theorem Kind.eq_of_sameAs {k k' : Kind} (hk : k.isPlain = true) (h : k.sameAs k' = true) :
    k' = k := by
  cases k with
  | string _ | number _ => exact nomatch hk
  | _ => cases k' <;> first | rfl | exact nomatch h

namespace Parse

variable {α β : Type}

/-! ## States -/

/-- What any part of a parse does to the state. -/
structure State.LeadsTo (s s' : State) : Prop where
  rest : s'.rest <:+ s.rest
  final : s'.final = s.final
  nextId : s.nextId ≤ s'.nextId
  reported : ∃ more, s'.reported = s.reported ++ more

namespace State.LeadsTo

variable {s₁ s₂ s₃ : State}

theorem refl (s : State) : s.LeadsTo s := ⟨List.suffix_rfl, rfl, Nat.le_refl _, #[], by simp⟩

theorem trans (h : s₁.LeadsTo s₂) (h' : s₂.LeadsTo s₃) : s₁.LeadsTo s₃ := by
  obtain ⟨more, hmore⟩ := h.reported
  obtain ⟨more', hmore'⟩ := h'.reported
  exact ⟨h'.rest.trans h.rest, h'.final.trans h.final, Nat.le_trans h.nextId h'.nextId, more ++ more',
    by rw [hmore', hmore, Array.append_assoc]⟩

/-- If nothing was reported on the whole way, nothing was reported on either part of it. -/
theorem quiet (h : s₁.LeadsTo s₂) (h' : s₂.LeadsTo s₃) (hq : s₃.reported = s₁.reported) :
    s₂.reported = s₁.reported ∧ s₃.reported = s₂.reported := by
  obtain ⟨more, hmore⟩ := h.reported
  obtain ⟨more', hmore'⟩ := h'.reported
  have hsize : s₁.reported.size = s₁.reported.size + more.size + more'.size := by
    rw [← Array.size_append, ← hmore, ← Array.size_append, ← hmore', hq]
  have hnil : more = #[] := Array.eq_empty_of_size_eq_zero (by omega)
  have h₁₂ : s₂.reported = s₁.reported := by rw [hmore, hnil, Array.append_empty]
  exact ⟨h₁₂, hq.trans h₁₂.symm⟩

end State.LeadsTo

/-- The state before a token was read. -/
def State.unread (t : Token) (s : State) : State := { s with rest := t :: s.rest }

@[simp] theorem State.unread_rest (t : Token) (s : State) : (s.unread t).rest = t :: s.rest := rfl

@[simp] theorem State.unread_nextId (t : Token) (s : State) : (s.unread t).nextId = s.nextId := rfl

@[simp] theorem State.unread_reported (t : Token) (s : State) :
    (s.unread t).reported = s.reported := rfl

theorem State.LeadsTo.of_unread (t : Token) (s : State) : (s.unread t).LeadsTo s :=
  ⟨List.suffix_cons _ _, rfl, Nat.le_refl _, #[], by simp⟩

/-- There is a token that marks the end of input. -/
def State.HasEnd (s : State) : Prop := ∃ t, s.final = some t ∧ t.kind = .endOfInput

theorem State.LeadsTo.hasEnd {s s' : State} (h : s.LeadsTo s') (hend : s.HasEnd) : s'.HasEnd := by
  obtain ⟨t, ht, hkind⟩ := hend
  exact ⟨t, h.final.trans ht, hkind⟩

/-- Where there is an end, there is a token to look at. -/
theorem State.HasEnd.peek {s : State} (h : s.HasEnd) : ∃ t, Parse.peek s = .ok t s := by
  obtain ⟨final, hfinal, -⟩ := h
  unfold Parse.peek State.next?
  cases s.rest with
  | nil => exact ⟨final, by rw [hfinal]; rfl⟩
  | cons t ts => exact ⟨t, rfl⟩

/-! ## Rules -/

/-- Run in a state with an end, a rule leads on from there, and what it succeeds with satisfies
    `P`. -/
def YieldsAt (s : State) (p : Parser α) (P : α → State → Prop) : Prop :=
  s.HasEnd →
    match p s with
    | .ok a s' => s.LeadsTo s' ∧ P a s'
    | .error failure s' => s.LeadsTo s' ∧ failure ≠ .outOfTokens

namespace YieldsAt

variable {s s' : State} {p : Parser α} {k : α → Parser β} {P : α → State → Prop}
  {Q : β → State → Prop} {a : α}

theorem of_ok (h : YieldsAt s p P) (hend : s.HasEnd) (hs : p s = .ok a s') :
    s.LeadsTo s' ∧ P a s' := by
  simpa only [hs] using h hend

theorem pure (h : P a s) : YieldsAt s (Pure.pure a) P := fun _ => ⟨.refl s, h⟩

theorem bind (hp : YieldsAt s p P)
    (hk : ∀ a s₁, s.LeadsTo s₁ → P a s₁ → YieldsAt s₁ (k a) Q) : YieldsAt s (p >>= k) Q := by
  intro hend
  have hp := hp hend
  simp only [Bind.bind, EStateM.bind]
  cases hps : p s with
  | error _ s' => simpa only [hps] using hp
  | ok a s₁ =>
    simp only [hps] at hp ⊢
    have hk := hk a s₁ hp.1 hp.2 (hp.1.hasEnd hend)
    cases hks : k a s₁ with
    | error _ s' => rw [hks] at hk; exact ⟨hp.1.trans hk.1, hk.2⟩
    | ok b s' => rw [hks] at hk; exact ⟨hp.1.trans hk.1, hk.2⟩

theorem mono {P' : α → State → Prop} (hp : YieldsAt s p P)
    (h : ∀ a s', s.LeadsTo s' → P a s' → P' a s') : YieldsAt s p P' := by
  intro hend
  have hp := hp hend
  cases hps : p s with
  | error _ s' => simpa only [hps] using hp
  | ok a s' => rw [hps] at hp; exact ⟨hp.1, h a s' hp.1 hp.2⟩

theorem map {f : α → β} (hp : YieldsAt s p P) :
    YieldsAt s (f <$> p) fun b s' => ∃ a, b = f a ∧ P a s' := by
  intro hend
  have hp := hp hend
  simp only [Functor.map, EStateM.map]
  cases hps : p s with
  | error _ s' => simpa only [hps] using hp
  | ok a s' => rw [hps] at hp; exact ⟨hp.1, a, rfl, hp.2⟩

end YieldsAt

/-! ## Steps -/

section

variable {s : State}

theorem yieldsAt_peek : YieldsAt s peek fun t s' =>
    s' = s ∧ (t.kind ≠ .endOfInput → s.rest = t :: s.rest.tail) := by
  rintro ⟨final, hfinal, hkind⟩
  unfold peek State.next?
  cases hrest : s.rest with
  | nil =>
    rw [hfinal]
    exact ⟨.refl s, rfl, fun ht => absurd hkind ht⟩
  | cons t ts => exact ⟨.refl s, rfl, fun _ => rfl⟩

theorem yieldsAt_get : YieldsAt s get fun a s' => s' = s ∧ a = s := fun _ => ⟨.refl s, rfl, rfl⟩

theorem yieldsAt_fail (problem : SyntaxProblem) (P : α → State → Prop) :
    YieldsAt s (fail problem) P :=
  yieldsAt_peek.bind fun _ s₁ _ _ _ => ⟨.refl s₁, nofun⟩

theorem yieldsAt_atEnd : YieldsAt s atEnd fun b s' => s' = s ∧ b = s.rest.isEmpty := by
  refine yieldsAt_peek.bind fun _ s₁ _ h => ?_
  refine yieldsAt_get.bind fun a s₂ _ h' => ?_
  obtain ⟨rfl, -⟩ := h
  obtain ⟨rfl, rfl⟩ := h'
  exact .pure ⟨rfl, rfl⟩

theorem yieldsAt_nextIs (kind : Kind) : YieldsAt s (nextIs kind) fun _ s' => s' = s := by
  refine yieldsAt_peek.bind fun _ s₁ _ h => ?_
  refine yieldsAt_get.bind fun a s₂ _ h' => ?_
  exact .pure (h'.1.trans h.1)

theorem yieldsAt_freshId :
    YieldsAt s freshId fun id s' => id = s.nextId ∧ s' = { s with nextId := s.nextId + 1 } :=
  fun _ => ⟨⟨List.suffix_rfl, rfl, Nat.le_succ _, #[], by simp⟩, rfl, rfl⟩

theorem yieldsAt_advance {t : Token} (h : s.rest = t :: s.rest.tail) :
    YieldsAt s advance fun _ s' => s = s'.unread t := by
  refine yieldsAt_peek.bind fun _ s₁ _ h₁ _ => ?_
  obtain ⟨rfl, -⟩ := h₁
  refine ⟨⟨List.tail_suffix _, rfl, Nat.le_refl _, #[], by simp⟩, ?_⟩
  exact congrArg (fun ts => { s₁ with rest := ts }) h

theorem yieldsAt_reportAt (token : Token) (problem : SyntaxProblem) :
    YieldsAt s (reportAt token problem) fun _ s' =>
      s'.rest = s.rest ∧ s'.nextId = s.nextId ∧ s'.reported ≠ s.reported := by
  refine fun _ => ⟨⟨List.suffix_rfl, rfl, Nat.le_refl _, #[⟨token, problem⟩], by simp⟩, rfl, rfl,
    fun h => ?_⟩
  simpa using congrArg Array.size h

theorem yieldsAt_report (problem : SyntaxProblem) :
    YieldsAt s (report problem) fun _ s' =>
      s'.rest = s.rest ∧ s'.nextId = s.nextId ∧ s'.reported ≠ s.reported := by
  refine yieldsAt_peek.bind fun t s₁ _ h => ?_
  rw [h.1]
  exact yieldsAt_reportAt t problem

/-- A token that passes the test was read, or the next token does not pass it. -/
theorem yieldsAt_takeIf (test : Kind → Bool) : YieldsAt s (takeIf test) fun t? s' =>
    (∃ t, t? = some t ∧ test t.kind = true ∧ s = s'.unread t) ∨
      (t? = none ∧ s' = s ∧ ∀ t ∈ s.rest.head?, test t.kind = false) := by
  refine yieldsAt_peek.bind fun _ s₁ _ h₁ _ => ?_
  obtain ⟨rfl, -⟩ := h₁
  cases hrest : s₁.rest with
  | nil => exact ⟨.refl s₁, .inr ⟨rfl, rfl, by simp⟩⟩
  | cons t ts =>
    simp only
    cases htest : test t.kind with
    | true =>
      exact ⟨⟨hrest ▸ List.suffix_cons t ts, rfl, Nat.le_refl _, #[], by simp⟩,
        .inl ⟨t, rfl, htest, congrArg (fun ts => { s₁ with rest := ts }) hrest⟩⟩
    | false => exact ⟨.refl s₁, .inr ⟨rfl, rfl, by simp [htest]⟩⟩

theorem yieldsAt_take? {kind : Kind} (hk : kind.isPlain = true) : YieldsAt s (take? kind)
    fun t? s' => (∃ t, t? = some t ∧ t.kind = kind ∧ s = s'.unread t) ∨
      (t? = none ∧ s' = s ∧ ∀ t ∈ s.rest.head?, t.kind ≠ kind) := by
  refine (yieldsAt_takeIf _).mono fun t? s' _ h => ?_
  rcases h with ⟨t, ht, htest, hs⟩ | ⟨ht, hs', hhead⟩
  · exact .inl ⟨t, ht, Kind.eq_of_sameAs hk htest, hs⟩
  · refine .inr ⟨ht, hs', fun t ht' h => ?_⟩
    simpa [h] using hhead t ht'

theorem yieldsAt_expect {kind : Kind} (hk : kind.isPlain = true) (problem : SyntaxProblem) :
    YieldsAt s (expect kind problem) fun t s' => t.kind = kind ∧ s = s'.unread t := by
  refine (yieldsAt_take? hk).bind fun t? s₁ _ h => ?_
  rcases h with ⟨t, rfl, hkind, rfl⟩ | ⟨rfl, rfl, -⟩
  · exact .pure ⟨hkind, rfl⟩
  · exact yieldsAt_fail _ _

/-! ## Loops -/

/-- A loop keeps what each of its steps keeps. What is kept may depend on the number of steps that
    are left. -/
theorem yieldsAt_repeatOver {step : α → Parser (Option α)} {I : Nat → α → State → Prop}
    {P : α → State → Prop}
    (hstep : ∀ n a s₁, s.LeadsTo s₁ → I (n + 1) a s₁ → YieldsAt s₁ (step a) fun a? s' =>
      (∃ a', a? = some a' ∧ I n a' s') ∨ (a? = none ∧ P a s'))
    (hend : ∀ a s₁, s.LeadsTo s₁ → I 0 a s₁ → P a s₁) :
    ∀ bound a s₁, s.LeadsTo s₁ → I bound.length a s₁ →
      YieldsAt s₁ (repeatOver step bound a) P := by
  intro bound
  induction bound with
  | nil => exact fun a s₁ l h => .pure (hend a s₁ l h)
  | cons t bound ih =>
    intro a s₁ l h
    refine (hstep _ a s₁ l h).bind fun a? s₂ l₂ h₂ => ?_
    rcases h₂ with ⟨a', rfl, h₂⟩ | ⟨rfl, h₂⟩
    · exact ih a' s₂ (l.trans l₂) h₂
    · exact .pure h₂

theorem yieldsAt_repeatFrom {step : α → Parser (Option α)} {I : α → State → Prop} {a : α}
    {s₁ : State} (l : s.LeadsTo s₁) (ha : I a s₁)
    (hstep : ∀ a s₁, s.LeadsTo s₁ → I a s₁ → YieldsAt s₁ (step a) fun a? s' =>
      (∃ a', a? = some a' ∧ I a' s') ∨ (a? = none ∧ I a s')) :
    YieldsAt s₁ (repeatFrom a step) I :=
  yieldsAt_repeatOver (I := fun _ => I) (fun _ => hstep) (fun _ _ _ h => h) s₁.rest a s₁ l ha

/-- A list with commas keeps what each of its items keeps; if nothing is reported at an item, there
    are less than 255 items before it. -/
theorem yieldsAt_commaList {item : Parser α} {I : List α → State → Prop}
    (tooMany : SyntaxProblem) (hfirst : YieldsAt s item fun a s' => I [a] s')
    (hnext : ∀ (as : List α) (c : Token) (s₁ s₂ : State), s.LeadsTo (s₁.unread c) →
      I as (s₁.unread c) → c.kind = .comma →
      s₁.LeadsTo s₂ → s₂.rest = s₁.rest → s₂.nextId = s₁.nextId →
      (s₂.reported = s₁.reported → as.length < 255) →
      YieldsAt s₂ item fun a s' => I (as ++ [a]) s') :
    YieldsAt s (commaList tooMany item) I := by
  refine hfirst.bind fun a s₁ l₁ h₁ => ?_
  refine (yieldsAt_repeatFrom (I := fun as s => I as.toList s) l₁ h₁ ?_).bind
    fun as s₂ _ h₂ => .pure h₂
  intro as s₂ l₂ h₂
  refine (yieldsAt_take? rfl).bind fun c? s₃ _ h₃ => ?_
  rcases h₃ with ⟨c, rfl, hc, rfl⟩ | ⟨rfl, rfl, -⟩
  · have hitem : ∀ s₄, s₃.LeadsTo s₄ → s₄.rest = s₃.rest → s₄.nextId = s₃.nextId →
        (s₄.reported = s₃.reported → as.toList.length < 255) →
        YieldsAt s₄ (do return some (as.push (← item))) fun a? s' =>
          (∃ a', a? = some a' ∧ I a'.toList s') ∨ (a? = none ∧ I as.toList s') := by
      intro s₄ l₄ hr hn hq
      refine (hnext as.toList c s₃ s₄ l₂ h₂ hc l₄ hr hn hq).bind fun a s₅ _ h₅ => ?_
      exact .pure (.inl ⟨as.push a, rfl, by simpa using h₅⟩)
    dsimp only
    split
    · refine (yieldsAt_report tooMany).bind fun _ s₄ l₄ h₄ => ?_
      exact hitem s₄ l₄ h₄.1 h₄.2.1 fun hq => absurd hq h₄.2.2
    · next hsize => exact hitem _ (.refl _) rfl rfl fun _ => by simpa [maxArity] using hsize
  · exact .pure (.inr ⟨rfl, h₂⟩)

end

end Parse

end Lox
