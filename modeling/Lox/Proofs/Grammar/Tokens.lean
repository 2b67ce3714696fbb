import Lox.Proofs.Grammar.Soundness.Program
import Lox.Proofs.Grammar.Trees

set_option autoImplicit false

/-! # What of the tokens is left in a tree

The tokens that a tree keeps are among those it was read from, and a reference has a token of the
kind that its sort asks for. -/

namespace Lox

/-- The kind of the tokens of references of a sort. -/
def ReferenceSort.kind : ReferenceSort → Kind
  | .this => .thisKw
  | .super => .superKw
  | .var | .assign | .superclass => .identifier

namespace Grammar

variable {nearest : Bool} {symbol : Symbol} {n n' : RefId} {ts ts' : List Token}
  {tree : symbol.Tree}

theorem Reads.of_mem_references (h : Reads nearest symbol n ts tree n' ts') :
    ∀ r ∈ symbol.references tree, r.token ∈ ts ∧ r.token.kind = r.sort.kind := by
  induction h with
  | _ =>
    grind [Symbol.references, Expr.references, exprReferences, exprReferences_append,
      Precedence.references_node, Reads.mem_of_mem, optionReferences, Stmt.references,
      stmtReferences, FunctionDef.references, methodReferences, references_forLoop,
      ReferenceSort.kind]

end Grammar

end Lox
