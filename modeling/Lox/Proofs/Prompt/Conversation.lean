import Lox.CommandLine
import Lox.Proofs.Prompt.Output
import Lox.Proofs.Text.Utf8

set_option autoImplicit false

/-! # A conversation is a session of runs

The prompt cuts its input into lines and gives each of them as a source to one session
(`prompt_runs_lines`). What is shown is what these runs write and report, with the sign of the prompt
before each line. Errors change nothing in this; only a line that is no text is not run and ends the
conversation. -/

namespace Lox

/-- Bytes that are the text of some characters. -/
def Utf8.IsText (bs : List UInt8) : Prop := ∃ s : String, encode s = bs

theorem Utf8.isText_of_decode? {bs : List UInt8} {s : String} (h : decode? bs = some s) :
    IsText bs :=
  ⟨s, encode_of_decode? h⟩

theorem Utf8.not_isText_of_decode? {bs : List UInt8} (h : decode? bs = none) : ¬ IsText bs := by
  rintro ⟨s, rfl⟩
  rw [decode?_encode] at h
  cases h

/-! ## Sources run one after the other -/

/-- What is seen of the run of a source: the text it adds to the output, and the errors it ends
with. -/
structure Session.Turn where
  text : String
  errors : List Error

/-- Sources run one after the other in a session, and what is seen of each run. -/
inductive Session.Turns (fuel : Nat) : Session → List (List UInt8) → List Turn → Prop
  | nil (session : Session) : Turns fuel session [] []
  | cons {session : Session} {source : List UInt8} {sources : List (List UInt8)} {turn : Turn}
      {turns : List Turn} :
      (session.run fuel source).2.machine.output.text = session.machine.output.text ++ turn.text →
      (session.run fuel source).1.errors = turn.errors →
      Turns fuel (session.run fuel source).2 sources turns →
      Turns fuel session (source :: sources) (turn :: turns)

namespace Prompt

/-! ## Lines -/

/-- An input cut at its newlines: the parts that a newline ends, and what stands behind the last
newline. -/
structure Cut (input : List UInt8) (ended : List (List UInt8)) (rest : List UInt8) : Prop where
  joined : input = ended.flatMap (· ++ [Lexer.newline]) ++ rest
  ended : ∀ part ∈ ended, Lexer.newline ∉ part
  rest : Lexer.newline ∉ rest

/-- A carriage return before a newline does not belong to the line, and nothing behind the last
newline is no line. -/
def linesOf (ended : List (List UInt8)) (rest : List UInt8) : List (List UInt8) :=
  ended.map withoutReturn ++ if rest = [] then [] else [rest]

theorem linesAfter_cut (read input : List UInt8) (hread : Lexer.newline ∉ read) :
    ∃ ended rest, Cut (read.reverse ++ input) ended rest ∧
      linesAfter read input = linesOf ended rest := by
  induction input generalizing read with
  | nil =>
    refine ⟨[], read.reverse, ⟨by simp, by simp, by simpa using hread⟩, ?_⟩
    simp [linesAfter, linesOf]
  | cons b bs ih =>
    unfold linesAfter
    split
    · next hb =>
      obtain ⟨ended, rest, hcut, hlines⟩ := ih [] (by simp)
      have hjoined : bs = _ := hcut.joined
      refine ⟨read.reverse :: ended, rest, ⟨?_, ?_, hcut.rest⟩, ?_⟩
      · rw [hb, hjoined]
        simp
      · simpa [hread] using hcut.ended
      · rw [hlines]
        rfl
    · next hb =>
      obtain ⟨ended, rest, hcut, hlines⟩ := ih (b :: read) (by simp [hread, Ne.symm hb])
      exact ⟨ended, rest, by simpa using hcut, hlines⟩

/-- A newline ends a line, so the lines up to it can be told before the input behind it is read. -/
theorem lines_append (first rest : List UInt8) :
    lines (first ++ Lexer.newline :: rest) = lines (first ++ [Lexer.newline]) ++ lines rest := by
  suffices h : ∀ read, linesAfter read (first ++ Lexer.newline :: rest) =
      linesAfter read (first ++ [Lexer.newline]) ++ lines rest from h []
  induction first with
  | nil =>
    intro read
    simp [linesAfter, lines]
  | cons b first ih =>
    intro read
    simp only [List.cons_append, linesAfter]
    split <;> simp [ih]

/-! ## The conversation -/

/-- Lines up to the first that is no text, and those from it on. -/
structure Readable (lines read unread : List (List UInt8)) : Prop where
  joined : lines = read ++ unread
  read : ∀ line ∈ read, Utf8.IsText line
  unread : ∀ line ∈ unread.head?, ¬ Utf8.IsText line

/-- What is shown of some turns and of the lines that were not read. -/
def shown (turns : List Session.Turn) (unread : List (List UInt8)) : Reply :=
  let out := String.join (turns.map ("> " ++ ·.text)) ++ "> "
  let err := String.join ((turns.flatMap (·.errors)).map (·.text ++ "\n"))
  if unread.isEmpty then ⟨0, out ++ "\n", err⟩
  else
    let cause := "stream did not contain valid UTF-8\n"
    ⟨1, out, err ++ "Error: Failed to read from stdin\n\nCaused by:\n    " ++ cause⟩

theorem shown_cons (turn : Session.Turn) (turns : List Session.Turn)
    (unread : List (List UInt8)) :
    let later := shown turns unread
    shown (turn :: turns) unread =
      ⟨later.code, "> " ++ turn.text ++ later.out, Error.listing turn.errors ++ later.err⟩ := by
  unfold shown
  cases unread <;> simp [Error.listing, String.append_assoc]

/-- Beside the session of a conversation, from which the text is taken after each line, stands one in
which the lines are run and nothing else is done. -/
theorem converse_runs (fuel : Nat) (lines : List (List UInt8)) :
    ∀ (session : Session) (text : String), session.machine.output.text = "" →
      ∃ read unread turns, Readable lines read unread ∧
        (session.behind text).Turns fuel read turns ∧
        converse fuel session lines = shown turns unread := by
  induction lines with
  | nil =>
    intro session text _
    exact ⟨[], [], [], ⟨rfl, by simp, by simp⟩, .nil _, rfl⟩
  | cons line lines ih =>
    intro session text hempty
    unfold converse
    cases hdecode : Utf8.decode? line with
    | none =>
      refine ⟨[], line :: lines, [], ⟨rfl, by simp, ?_⟩, .nil _, ?_⟩
      · simpa using Utf8.not_isText_of_decode? hdecode
      · simp only [turn, answer?, hdecode]
        rfl
    | some s =>
      -- what the run has written is taken, and stands in front of all that is written later
      let ran := session.run fuel line
      let written := ran.2.machine.output.text
      have hran : ran.2 = ran.2.takeText.2.behind written := by
        simp [Session.behind, Machine.behind, Session.takeText, Output.takeText, written]
      obtain ⟨read, unread, turns, hread, hturns, hlater⟩ :=
        ih ran.2.takeText.2 (text ++ written) rfl
      have hrun := session.run_behind fuel line text
      refine ⟨line :: read, unread, ⟨written, ran.1.errors⟩ :: turns, ?_, ?_, ?_⟩
      · exact ⟨by rw [hread.joined]; rfl,
          by simpa using ⟨Utf8.isText_of_decode? hdecode, hread.read⟩, hread.unread⟩
      · refine .cons ?_ ?_ ?_
        · simp [hrun, hempty, written, ran]
        · rw [hrun]
        · rw [hrun, show session.run fuel line = ran from rfl, hran, Session.behind_behind]
          exact hturns
      · rw [shown_cons, ← hlater]
        simp only [turn, answer?, hdecode]
        rfl

/-- **A conversation is a session of runs.** The input is cut at its newlines, and its lines are run
one after the other in one session, up to the first that is no text. The reply shows what each run
writes behind a sign of the prompt, and the errors of all of them; its status is 0 unless there is
such a line. -/
theorem prompt_runs_lines (fuel : Nat) (reading : Nat → Float) (contents : String → Contents)
    (input : List UInt8) :
    let session := Session.start (.start none false) reading
    ∃ ended rest, Cut input ended rest ∧
      ∃ read unread, Readable (linesOf ended rest) read unread ∧
        ∃ turns, session.Turns fuel read turns ∧
          Command.prompt.reply fuel session contents input = shown turns unread := by
  intro session
  obtain ⟨ended, rest, hcut, hlines⟩ := linesAfter_cut [] input (by simp)
  obtain ⟨read, unread, turns, hread, hturns, hreply⟩ :=
    converse_runs fuel (linesOf ended rest) session "" rfl
  refine ⟨ended, rest, hcut, read, unread, hread, turns, hturns, ?_⟩
  rw [← hreply, ← hlines]
  rfl

/-- What the first line binds is there in the third, although the second fails. -/
example :
    let reply := Command.prompt.reply 10 (.start (.start none false) fun _ => 0)
      (fun _ => .bytes []) (Utf8.encode "var a=1;\r\nb;\nprint a;")
    reply.code = 0 ∧ reply.out = "> > > 1\n> \n" ∧
      reply.err = "Undefined variable 'b'.\n[line 1] at 'b'\n" := by decide +kernel

end Prompt

end Lox
