import Lox.Token.Lexer
import Lox.Parse.Program
import Lox.Scope
import Lox.Resolve
import Lox.Session
import Lox.Main
import Lox.Tree.Printer
import Lox.Tree.References
import Lox.Tree.Export
import Lox.Proofs.Grammar.Acceptance
import Lox.Proofs.Lexer.Spans
import Lox.Proofs.Lexer.Longest
import Lox.Proofs.Lexer.Characters
import Lox.Proofs.Scoping.Violations
import Lox.Proofs.Scoping.Joined
import Lox.Proofs.Run.Receivers
import Lox.Proofs.Run.Rejected
import Lox.Proofs.Run.Split
import Lox.Proofs.Run.Safety
import Lox.Proofs.Run.Assignments
import Lox.Proofs.Run.Printing
import Lox.Proofs.Places.Sessions
import Lox.Proofs.Renaming.Sessions
import Lox.Proofs.Run.Identities
import Lox.Proofs.Run.Limits
import Lox.Proofs.Run.Fuel
import Lox.Proofs.Run.Instances
import Lox.Proofs.Loops.Sessions
import Lox.Proofs.Environments.Answers
import Lox.Proofs.Frames.Restored
import Lox.Proofs.Recovery.Missing
import Lox.Proofs.Progress.Programs
import Lox.Proofs.Prompt.Conversation
import Lox.Proofs.Numbers.ReadBack
import Lox.Proofs.Forms.Programs
