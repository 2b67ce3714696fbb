import Lox.Proofs.Alike.Trees
import Lox.Proofs.Lexer.Spans

set_option autoImplicit false

/-! # Sources behind each other

No piece of a source goes beyond a newline that is put behind the source, unless it is a string that
is not closed, and none but a comment goes beyond another blank. So the items of a source and of
another one on the next line are the items of both, the latter as many lines further down as there
are before them (`items_append`). Looking ahead at the end of a source, the scanner decides as it
does before a newline (`lines_scan_apart`). -/

namespace Lox.Lexer

/-! ## How far a piece goes -/

theorem runLength_append_cons {test : UInt8 → Bool} {x : UInt8} (hx : test x = false)
    (bs more : List UInt8) : runLength test (bs ++ x :: more) = runLength test bs := by
  obtain ⟨run, after, rfl, hrun, hafter⟩ := exists_run test bs
  have hbehind : ∀ y ∈ (after ++ x :: more).head?, test y = false := by
    cases after with
    | nil => simpa using hx
    | cons y after => exact hafter
  rw [List.append_assoc, runLength_run hrun hbehind, runLength_run hrun hafter]

theorem numberExtent_append_cons {x : UInt8} (hdigit : isDigit x = false) (hpoint : x ≠ byte '.')
    (bs more : List UInt8) : numberExtent (bs ++ x :: more) = numberExtent bs := by
  obtain ⟨whole, after, rfl, hwhole, hafter⟩ := exists_run isDigit bs
  have hbehind : ∀ y ∈ (after ++ x :: more).head?, isDigit y = false := by
    cases after with
    | nil => simpa using hdigit
    | cons y after => exact hafter
  rw [List.append_assoc, numberExtent_run hwhole hbehind, numberExtent_run hwhole hafter]
  rcases after with _ | ⟨y, _ | ⟨z, after⟩⟩
  · simp [hpoint]
  · simp [hdigit]
  · have hrun := runLength_append_cons hdigit (z :: after) more
    rw [List.cons_append] at hrun
    simp [hrun]

/-- A string that is closed goes as far, whatever is behind it. -/
theorem stringExtent_append {bs : List UInt8} (hclosed : runLength (· != quote) bs < bs.length)
    (more : List UInt8) : stringExtent (bs ++ more) = stringExtent bs := by
  obtain ⟨run, after, rfl, hrun, hafter⟩ := exists_run (· != quote) bs
  rw [runLength_run hrun hafter, List.length_append] at hclosed
  have hbehind : ∀ x ∈ (after ++ more).head?, (x != quote) = false := by
    cases after with
    | nil => exact absurd hclosed (by simp)
    | cons x after => exact hafter
  simp only [stringExtent, List.append_assoc, runLength_run hrun hafter, runLength_run hrun hbehind,
    List.length_append]
  rw [if_pos (by omega), if_pos (by omega)]

/-- A blank is no part of a number, a word or a symbol. -/
theorem of_isBlank {x : UInt8} (h : isBlank x = true) : isDigit x = false ∧ isWordPart x = false ∧
    isContinuation x = false ∧ x ≠ byte '/' ∧ x ≠ byte '=' ∧ x ≠ byte '.' := by
  simp only [isBlank, Bool.or_eq_true, beq_iff_eq] at h
  obtain ((rfl | rfl) | rfl) | rfl := h <;> decide

/-- No piece goes beyond a blank behind it, but a string that is not closed, and a comment if the
    blank is no newline. -/
theorem extent_append_blank {b x : UInt8} {bs : List UInt8} (hx : isBlank x = true)
    (hclosed : b = quote → runLength (· != quote) bs < bs.length)
    (hcomment : b = byte '/' → bs.head? = some (byte '/') → x = newline) (more : List UInt8) :
    extent b (bs ++ x :: more) = extent b bs := by
  obtain ⟨hdigit, hword, hcontinuation, hslash, hequal, hpoint⟩ := of_isBlank hx
  have hhead : ∀ y, x ≠ y → ((bs ++ x :: more).head? == some y) = (bs.head? == some y) := by
    intro y hy
    cases bs with
    | nil => simpa using hy
    | cons _ _ => rfl
  by_cases hslashes : b = byte '/' ∧ bs.head? = some (byte '/')
  · obtain ⟨rfl, hfirst⟩ := hslashes
    obtain rfl := hcomment rfl hfirst
    have hfirst' : (bs ++ newline :: more).head? = some (byte '/') :=
      beq_iff_eq.1 ((hhead _ hslash).trans (beq_iff_eq.2 hfirst))
    rw [extent_of_slashes hfirst, extent_of_slashes hfirst', runLength_append_cons rfl]
  unfold extent
  rw [hhead _ hslash, hhead _ hequal, numberExtent_append_cons hdigit hpoint,
    runLength_append_cons hword, runLength_append_cons hcontinuation]
  by_cases hquote : (b == quote) = true
  · rw [if_pos hquote, if_pos hquote, stringExtent_append (hclosed (beq_iff_eq.1 hquote))]
  rw [if_neg hquote, if_neg hquote]
  cases hb : b == byte '/' with
  | false => rfl
  | true =>
    have hfirst : (bs.head? == some (byte '/')) = false :=
      Bool.eq_false_iff.2 fun h => hslashes ⟨beq_iff_eq.1 hb, beq_iff_eq.1 h⟩
    rw [hfirst]
    rfl

/-- A string that is not closed is reported. -/
theorem closed_of_reading {bs : List UInt8}
    (h : Reading.ofText (quote :: bs.take (extent quote bs)) ≠ .problem .unterminatedString) :
    runLength (· != quote) bs < bs.length := by
  by_contra hopen
  obtain ⟨run, after, rfl, hrun, hafter⟩ := exists_run (· != quote) bs
  rw [runLength_run hrun hafter, List.length_append] at hopen
  obtain rfl : after = [] := List.length_eq_zero_iff.1 (by omega)
  rw [List.append_nil] at h
  have hextent : extent quote run = run.length := by
    have hlength : runLength (· != quote) run = run.length := by
      simpa using runLength_run hrun hafter
    show stringExtent run = run.length
    rw [stringExtent, hlength, if_neg (Nat.lt_irrefl _)]
  have hlast : ¬ (run.getLast? == some quote) = true := fun hlast =>
    absurd (hrun quote (List.mem_of_getLast? (beq_iff_eq.1 hlast))) (by decide)
  refine h ?_
  rw [hextent, List.take_length]
  show Reading.ofString run = _
  rw [Reading.ofString, if_neg hlast]

/-! ## Pieces -/

/-- A piece, and the pieces behind it. -/
theorem pieces_append {b : UInt8} {t r : List UInt8} (h : extent b (t ++ r) = t.length) :
    pieces (b :: (t ++ r)) = ⟨b :: t, .ofText (b :: t)⟩ :: pieces r := by
  rw [pieces_cons, h, List.take_left, List.drop_left]

/-- The pieces of a source whose strings are closed and of what is behind it on the next line. -/
theorem pieces_append_newline (more : List UInt8) (source : List UInt8)
    (h : ∀ p ∈ pieces source, p.reading ≠ .problem .unterminatedString) :
    pieces (source ++ newline :: more) = pieces source ++ ⟨[newline], .blank⟩ :: pieces more := by
  induction hlength : source.length using Nat.strong_induction_on generalizing source with
  | _ length ih =>
    cases source with
    | nil =>
      rw [List.nil_append, pieces_cons, extent_of_isBlank (by decide)]
      rfl
    | cons b bs =>
      rw [pieces_cons, List.forall_mem_cons] at h
      have hclosed : b = quote → runLength (· != quote) bs < bs.length := by
        rintro rfl
        exact closed_of_reading h.1
      have hextent := extent_le b bs
      have hshorter : (bs.drop (extent b bs)).length < length := by
        rw [List.length_cons] at hlength
        rw [List.length_drop]
        omega
      rw [List.cons_append, pieces_cons, pieces_cons,
        extent_append_blank (by decide) hclosed (fun _ _ => rfl),
        List.take_append_of_le_length hextent, List.drop_append_of_le_length hextent,
        ih _ hshorter _ h.2 rfl]
      rfl

/-! ## Items -/

/-- An item some lines further down. -/
def Item.down (lines : Nat) : Item → Item
  | .ok t => .ok (t.down lines)
  | .error e => .error (e.down lines)

theorem Piece.item?_add (line lines : Nat) (p : Piece) :
    p.item? (line + lines) = (p.item? line).map (Item.down lines) := by
  unfold Piece.item?
  cases p.reading <;> rfl

theorem itemsFrom_add (lines : Nat) (ps : List Piece) (line : Nat) :
    itemsFrom (line + lines) ps = (itemsFrom line ps).map (Item.down lines) := by
  induction ps generalizing line with
  | nil => rfl
  | cons p ps ih =>
    simp only [itemsFrom, List.map_append]
    rw [Nat.add_right_comm, ih, Piece.item?_add]
    cases p.item? _ <;> rfl

theorem itemsFrom_ne_nil (ps : List Piece) (line : Nat) : itemsFrom line ps ≠ [] := by
  induction ps generalizing line with
  | nil => exact List.cons_ne_nil _ _
  | cons p ps ih => exact fun h => ih _ (List.append_eq_nil_iff.1 h).2

theorem itemsFrom_append (ps qs : List Piece) (line : Nat) :
    itemsFrom line (ps ++ qs) = (itemsFrom line ps).dropLast ++
      itemsFrom (line + (ps.flatMap Piece.text).count newline) qs := by
  induction ps generalizing line with
  | nil => rfl
  | cons p ps ih =>
    rw [List.cons_append, itemsFrom, itemsFrom, ih,
      List.dropLast_append_of_ne_nil (itemsFrom_ne_nil _ _), List.append_assoc, List.flatMap_cons,
      List.count_append, Nat.add_assoc]

/-- A piece that is no token is an error. -/
theorem error_mem_itemsFrom {ps : List Piece} {p : Piece} (hp : p ∈ ps) {problem : LexicalProblem}
    (h : p.reading = .problem problem) (line : Nat) :
    ∃ line', .error (.lexical line' problem) ∈ itemsFrom line ps := by
  induction ps generalizing line with
  | nil => cases hp
  | cons p' ps ih =>
    rw [itemsFrom]
    rcases List.mem_cons.1 hp with rfl | hp
    · refine ⟨line + p.text.count newline, List.mem_append_left _ ?_⟩
      rw [Piece.item?, h]
      exact List.mem_singleton_self _
    · obtain ⟨line', hmem⟩ := ih hp (line + p'.text.count newline)
      exact ⟨line', List.mem_append_right _ hmem⟩

/-- Each error is that of a piece. -/
theorem of_error_mem_itemsFrom {ps : List Piece} {line : Nat} {e : Error}
    (h : .error e ∈ itemsFrom line ps) :
    ∃ p ∈ ps, ∃ line' problem, p.reading = .problem problem ∧ e = .lexical line' problem := by
  rcases of_mem_itemsFrom h with ⟨p, hp, line', hitem⟩ | ⟨line', heq⟩
  · rw [Piece.item?] at hitem
    split at hitem
    · cases hitem
    · next problem hproblem =>
      cases hitem
      exact ⟨p, hp, _, problem, hproblem, rfl⟩
    · cases hitem
  · cases heq

theorem mem_errors {source : List UInt8} {e : Error} (h : .error e ∈ items source) :
    e ∈ errors source :=
  List.mem_filterMap.2 ⟨_, h, rfl⟩

/-- The items of a source whose strings are closed and of what is behind it on the next line. -/
theorem items_append {source : List UInt8}
    (h : ∀ line, .error (.lexical line .unterminatedString) ∉ items source) (more : List UInt8) :
    items (source ++ newline :: more) = (items source).dropLast ++
      (items more).map (Item.down (source.count newline + 1)) := by
  have hreading : ∀ p ∈ pieces source, p.reading ≠ .problem .unterminatedString := by
    intro p hp hproblem
    obtain ⟨line, hmem⟩ := error_mem_itemsFrom hp hproblem 1
    exact h line hmem
  have hblank : ∀ line, itemsFrom line (⟨[newline], .blank⟩ :: pieces more) =
      itemsFrom (line + 1) (pieces more) := fun _ => rfl
  rw [items, pieces_append_newline more source hreading, itemsFrom_append, flatMap_text_pieces,
    hblank, Nat.add_assoc, itemsFrom_add, items, items]

theorem error_not_mem_items {source : List UInt8} (h : errors source = []) (e : Error) :
    .error e ∉ items source := fun he => by
  have hmem := mem_errors he
  rw [h] at hmem
  cases hmem

theorem errors_eq_nil_iff {source : List UInt8} : errors source = [] ↔
    ∀ p ∈ pieces source, ∀ problem, p.reading ≠ .problem problem := by
  constructor
  · intro h p hp problem hproblem
    obtain ⟨line, hmem⟩ := error_mem_itemsFrom hp hproblem 1
    exact error_not_mem_items h _ hmem
  · intro h
    rw [List.eq_nil_iff_forall_not_mem]
    intro e he
    obtain ⟨item, hitem, he⟩ := List.mem_filterMap.1 he
    cases item with
    | ok t => cases he
    | error e' =>
      obtain ⟨p, hp, -, problem, hproblem, -⟩ := of_error_mem_itemsFrom hitem
      exact h p hp problem hproblem

/-- Without lexical errors, the items of a source are its tokens. -/
theorem items_eq_map_ok {source : List UInt8} (h : errors source = []) :
    items source = (tokens source).map Except.ok := by
  have hall : ∀ l : List Item, (∀ e, .error e ∉ l) → l = (l.filterMap Except.toOption).map .ok := by
    intro l hl
    induction l with
    | nil => rfl
    | cons item l ih =>
      have hrest := ih fun e he => hl e (List.mem_cons_of_mem _ he)
      cases item with
      | error e => exact absurd List.mem_cons_self (hl e)
      | ok t => exact congrArg (Except.ok t :: ·) hrest
  rw [tokens_eq_filterMap]
  exact hall _ (error_not_mem_items h)

/-- The tokens of a source without lexical errors and of what is behind it on the next line. -/
theorem tokens_append {source : List UInt8} (h : errors source = []) (more : List UInt8) :
    tokens (source ++ newline :: more) = (tokens source).dropLast ++
      (tokens more).map (Token.down (source.count newline + 1)) := by
  obtain ⟨-, -, hitems⟩ := spans_spec source
  have hmap : ∀ items : List Item, (items.map (Item.down (source.count newline + 1))).filterMap
      Except.toOption = (items.filterMap Except.toOption).map
        (Token.down (source.count newline + 1)) := by
    intro items
    rw [List.filterMap_map, List.map_filterMap]
    congr 1
    funext item
    cases item <;> rfl
  rw [tokens_eq_filterMap, tokens_eq_filterMap source, tokens_eq_filterMap more,
    items_append (fun _ => error_not_mem_items h _), List.filterMap_append, hmap, hitems,
    List.dropLast_concat, List.filterMap_append]
  congr 1
  exact (List.dropLast_concat).symm

theorem errors_append {source : List UInt8} (h : errors source = []) {more : List UInt8}
    (h' : errors more = []) : errors (source ++ newline :: more) = [] := by
  rw [List.eq_nil_iff_forall_not_mem]
  intro e he
  obtain ⟨item, hitem, he⟩ := List.mem_filterMap.1 he
  cases item with
  | ok t => cases he
  | error e' =>
    rw [items_append (fun _ => error_not_mem_items h _)] at hitem
    rcases List.mem_append.1 hitem with hitem | hitem
    · exact error_not_mem_items h _ ((List.dropLast_sublist _).subset hitem)
    · obtain ⟨item, hitem, heq⟩ := List.mem_map.1 hitem
      cases item with
      | ok t => cases heq
      | error e'' => exact error_not_mem_items h' _ hitem

/-- **A newline keeps sources apart.** Where no string of a source is left open, the source with
    another one on the next line has the items of the first up to its end and then those of the
    second, on lines that are further down by those of the first. The scanner that walks along both
    gives these items as well, though it looks ahead beyond the end of the first. -/
theorem lines_scan_apart {source : List UInt8}
    (h : ∀ line, .error (.lexical line .unterminatedString) ∉ items source) (more : List UInt8) :
    ∃ before, items source = before ++ [.ok ⟨.endOfInput, "", 1 + source.count newline⟩] ∧
      items (source ++ newline :: more) =
        before ++ (items more).map (Item.down (1 + source.count newline)) ∧
      ∀ n, Scanner.start.outputs? (source ++ newline :: more) n =
        some ((List.range n).map fun i =>
          (before ++ (items more).map (Item.down (1 + source.count newline)))[i]?) := by
  obtain ⟨-, -, hitems⟩ := spans_spec source
  have happend : items (source ++ newline :: more) = (spans source).filterMap Span.item? ++
      (items more).map (Item.down (1 + source.count newline)) := by
    rw [items_append h, hitems, List.dropLast_concat, Nat.add_comm]
  refine ⟨_, hitems, happend, fun n => ?_⟩
  rw [Scanner.start.outputs?_eq, ← happend]
  rfl

/-- A string over two lines, a character that breaks off, and a number with a point behind it. -/
def brokenOff : List UInt8 := [0x22, 0x0A, 0x22, 0xE2, 0x31, 0x2E]

/-- Before a digit, and before another line that begins with one. -/
theorem lines_scan_apart_brokenOff :
    (∀ line, .error (.lexical line .unterminatedString) ∉ items brokenOff) ∧
      ∃ before, items brokenOff = before ++ [.ok ⟨.endOfInput, "", 2⟩] ∧ before.length = 4 ∧
        items (brokenOff ++ newline :: [0x32]) = before ++ (items [0x32]).map (Item.down 2) := by
  have hall : ((items brokenOff).all fun item => match item with
      | .error (.lexical _ .unterminatedString) => false
      | _ => true) = true := by decide +kernel
  have hclosed : ∀ line, .error (.lexical line .unterminatedString) ∉ items brokenOff :=
    fun line hmem => Bool.false_ne_true (List.all_eq_true.1 hall _ hmem)
  obtain ⟨before, hbefore, hitems, -⟩ := lines_scan_apart hclosed [0x32]
  have hlength : (items brokenOff).length = 5 := by decide +kernel
  rw [hbefore, List.length_append] at hlength
  exact ⟨hclosed, before, hbefore, Nat.succ.inj hlength, hitems⟩

end Lox.Lexer
