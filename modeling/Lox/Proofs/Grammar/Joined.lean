import Lox.Proofs.Grammar.Acceptance

set_option autoImplicit false

/-! # Programs behind each other

The rules of the grammar look at no token behind those of a tree. So the declarations of two
programs can be read one behind the other, and a parse of both gives the trees of both: the last
statement of the first is never joined with the first one of the second. -/

namespace Lox.Grammar

open Parse

variable {nearest : Bool} {symbol : Symbol} {n n₁ n' : RefId} {ts ts' : List Token}

/-- No rule looks at the tokens behind those of a tree: with others in their place, the same is
    read. -/
theorem Reads.exchange {tree : symbol.Tree} (h : Reads nearest symbol n ts tree n' ts')
    {tail : List Token} (us : List Token) : ∀ mid, ts' = mid ++ tail →
      ∃ front, ts = front ++ tail ∧ Reads nearest symbol n (front ++ us) tree n' (mid ++ us) := by
  induction h with
  | constant ht => rintro mid rfl; exact ⟨_ :: mid, rfl, .constant ht⟩
  | this ht => rintro mid rfl; exact ⟨_ :: mid, rfl, .this ht⟩
  | name ht => rintro mid rfl; exact ⟨_ :: mid, rfl, .name ht⟩
  | super hk hd hm => rintro mid rfl; exact ⟨_ :: _ :: _ :: mid, rfl, .super hk hd hm⟩
  | grouping hl _ hr ih =>
    rintro mid rfl
    obtain ⟨front, rfl, h⟩ := ih (_ :: mid) rfl
    exact ⟨_ :: front, rfl, .grouping hl h hr⟩
  | primaryCall _ ih =>
    intro mid hmid
    obtain ⟨front, rfl, h⟩ := ih mid hmid
    exact ⟨front, rfl, .primaryCall h⟩
  | applyNone _ hl hr ih =>
    rintro mid rfl
    obtain ⟨front, rfl, h⟩ := ih (_ :: _ :: mid) rfl
    exact ⟨front, rfl, .applyNone h hl hr⟩
  | apply _ hl _ hr hsize ihf ih =>
    rintro mid rfl
    obtain ⟨front, rfl, h⟩ := ih (_ :: mid) rfl
    obtain ⟨front', rfl, hf⟩ := ihf (_ :: front) rfl
    exact ⟨front', rfl, .apply hf hl h hr hsize⟩
  | property _ hd hm ih =>
    rintro mid rfl
    obtain ⟨front, rfl, h⟩ := ih (_ :: _ :: mid) rfl
    exact ⟨front, rfl, .property h hd hm⟩
  | firstArgument _ ih =>
    intro mid hmid
    obtain ⟨front, rfl, h⟩ := ih mid hmid
    exact ⟨front, rfl, .firstArgument h⟩
  | nextArgument _ hc _ ihes ih =>
    intro mid hmid
    obtain ⟨front, rfl, h⟩ := ih mid hmid
    obtain ⟨front', rfl, hes⟩ := ihes (_ :: front) rfl
    exact ⟨front', rfl, .nextArgument hes hc h⟩
  | callUnary _ ih =>
    intro mid hmid
    obtain ⟨front, rfl, h⟩ := ih mid hmid
    exact ⟨front, rfl, .callUnary h⟩
  | negate ho _ ih =>
    intro mid hmid
    obtain ⟨front, rfl, h⟩ := ih mid hmid
    exact ⟨_ :: front, rfl, .negate ho h⟩
  | unaryOperand hp _ ih =>
    intro mid hmid
    obtain ⟨front, rfl, h⟩ := ih mid hmid
    exact ⟨front, rfl, .unaryOperand hp h⟩
  | tighterOperand hp _ ih =>
    intro mid hmid
    obtain ⟨front, rfl, h⟩ := ih mid hmid
    exact ⟨front, rfl, .tighterOperand hp h⟩
  | firstOperand _ ih =>
    intro mid hmid
    obtain ⟨front, rfl, h⟩ := ih mid hmid
    exact ⟨front, rfl, .firstOperand h⟩
  | nextOperand _ ho _ ih₁ ih₂ =>
    intro mid hmid
    obtain ⟨front, rfl, h₂⟩ := ih₂ mid hmid
    obtain ⟨front', rfl, h₁⟩ := ih₁ (_ :: front) rfl
    exact ⟨front', rfl, .nextOperand h₁ ho h₂⟩
  | operations _ ih =>
    intro mid hmid
    obtain ⟨front, rfl, h⟩ := ih mid hmid
    exact ⟨front, rfl, .operations h⟩
  | assign ht hq _ ih =>
    intro mid hmid
    obtain ⟨front, rfl, h⟩ := ih mid hmid
    exact ⟨_ :: _ :: front, rfl, .assign ht hq h⟩
  | assignProperty _ hd hm hq _ iho ih =>
    intro mid hmid
    obtain ⟨front, rfl, h⟩ := ih mid hmid
    obtain ⟨front', rfl, ho⟩ := iho (_ :: _ :: _ :: front) rfl
    exact ⟨front', rfl, .assignProperty ho hd hm hq h⟩
  | absent => rintro mid rfl; exact ⟨mid, rfl, .absent⟩
  | present _ ih =>
    intro mid hmid
    obtain ⟨front, rfl, h⟩ := ih mid hmid
    exact ⟨front, rfl, .present h⟩
  | varDeclaration hv ht hs =>
    rintro mid rfl
    exact ⟨_ :: _ :: _ :: mid, rfl, .varDeclaration hv ht hs⟩
  | varInitializer hv ht hq _ hs ih =>
    rintro mid rfl
    obtain ⟨front, rfl, h⟩ := ih (_ :: mid) rfl
    exact ⟨_ :: _ :: _ :: front, rfl, .varInitializer hv ht hq h hs⟩
  | expressionStatement _ hs ih =>
    rintro mid rfl
    obtain ⟨front, rfl, h⟩ := ih (_ :: mid) rfl
    exact ⟨front, rfl, .expressionStatement h hs⟩
  | expressionAsStatement _ ih =>
    intro mid hmid
    obtain ⟨front, rfl, h⟩ := ih mid hmid
    exact ⟨front, rfl, .expressionAsStatement h⟩
  | print hp _ hs ih =>
    rintro mid rfl
    obtain ⟨front, rfl, h⟩ := ih (_ :: mid) rfl
    exact ⟨_ :: front, rfl, .print hp h hs⟩
  | ret hk _ hs ih =>
    rintro mid rfl
    obtain ⟨front, rfl, h⟩ := ih (_ :: mid) rfl
    exact ⟨_ :: front, rfl, .ret hk h hs⟩
  | brk hk hs => rintro mid rfl; exact ⟨_ :: _ :: mid, rfl, .brk hk hs⟩
  | block hl _ hr ih =>
    rintro mid rfl
    obtain ⟨front, rfl, h⟩ := ih (_ :: mid) rfl
    exact ⟨_ :: front, rfl, .block hl h hr⟩
  | loop hw hl _ hr _ ihc ih =>
    intro mid hmid
    obtain ⟨front, rfl, h⟩ := ih mid hmid
    obtain ⟨front', rfl, hc⟩ := ihc (_ :: front) rfl
    exact ⟨_ :: _ :: front', rfl, .loop hw hl hc hr h⟩
  | ifOnly hi hl _ hr _ ihc ih =>
    intro mid hmid
    obtain ⟨front, rfl, h⟩ := ih mid hmid
    obtain ⟨front', rfl, hc⟩ := ihc (_ :: front) rfl
    exact ⟨_ :: _ :: front', rfl, .ifOnly hi hl hc hr h⟩
  | ifElse hi hl _ hr _ hnearest hk _ ihc ih₁ ih₂ =>
    intro mid hmid
    obtain ⟨front, rfl, h₂⟩ := ih₂ mid hmid
    obtain ⟨front', rfl, h₁⟩ := ih₁ (_ :: front) rfl
    obtain ⟨front'', rfl, hc⟩ := ihc (_ :: front') rfl
    exact ⟨_ :: _ :: front'', rfl, .ifElse hi hl hc hr h₁ hnearest hk h₂⟩
  | noInitializer hs => rintro mid rfl; exact ⟨_ :: mid, rfl, .noInitializer hs⟩
  | varForInitializer _ ih =>
    intro mid hmid
    obtain ⟨front, rfl, h⟩ := ih mid hmid
    exact ⟨front, rfl, .varForInitializer h⟩
  | expressionForInitializer _ ih =>
    intro mid hmid
    obtain ⟨front, rfl, h⟩ := ih mid hmid
    exact ⟨front, rfl, .expressionForInitializer h⟩
  | forLoop hf hl _ _ hs _ hr _ ihi ihc ihe ih =>
    intro mid hmid
    obtain ⟨front₃, rfl, h⟩ := ih mid hmid
    obtain ⟨front₂, rfl, he⟩ := ihe (_ :: front₃) rfl
    obtain ⟨front₁, rfl, hc⟩ := ihc (_ :: front₂) rfl
    obtain ⟨front, rfl, hi⟩ := ihi front₁ rfl
    exact ⟨_ :: _ :: front, rfl, .forLoop hf hl hi hc hs he hr h⟩
  | firstParameter ht => rintro mid rfl; exact ⟨_ :: mid, rfl, .firstParameter ht⟩
  | nextParameter _ hc ht ih =>
    rintro mid rfl
    obtain ⟨front, rfl, h⟩ := ih (_ :: _ :: mid) rfl
    exact ⟨front, rfl, .nextParameter h hc ht⟩
  | functionNone ht hl hr hb _ hq ih =>
    rintro mid rfl
    obtain ⟨front, rfl, h⟩ := ih (_ :: mid) rfl
    exact ⟨_ :: _ :: _ :: _ :: front, rfl, .functionNone ht hl hr hb h hq⟩
  | function ht hl _ hsize hr hb _ hq ihps ih =>
    rintro mid rfl
    obtain ⟨front, rfl, h⟩ := ih (_ :: mid) rfl
    obtain ⟨front', rfl, hps⟩ := ihps (_ :: _ :: front) rfl
    exact ⟨_ :: _ :: front', rfl, .function ht hl hps hsize hr hb h hq⟩
  | noFunctions => rintro mid rfl; exact ⟨mid, rfl, .noFunctions⟩
  | nextFunction _ _ ihf ih =>
    intro mid hmid
    obtain ⟨front, rfl, h⟩ := ih mid hmid
    obtain ⟨front', rfl, hf⟩ := ihf front rfl
    exact ⟨front', rfl, .nextFunction hf h⟩
  | classDeclaration hk ht hl _ hr ih =>
    rintro mid rfl
    obtain ⟨front, rfl, h⟩ := ih (_ :: mid) rfl
    exact ⟨_ :: _ :: _ :: front, rfl, .classDeclaration hk ht hl h hr⟩
  | derivedClass hk ht hq hs hl _ hr ih =>
    rintro mid rfl
    obtain ⟨front, rfl, h⟩ := ih (_ :: mid) rfl
    exact ⟨_ :: _ :: _ :: _ :: _ :: front, rfl, .derivedClass hk ht hq hs hl h hr⟩
  | functionDeclaration hk _ ih =>
    intro mid hmid
    obtain ⟨front, rfl, h⟩ := ih mid hmid
    exact ⟨_ :: front, rfl, .functionDeclaration hk h⟩
  | variableDeclaration _ ih =>
    intro mid hmid
    obtain ⟨front, rfl, h⟩ := ih mid hmid
    exact ⟨front, rfl, .variableDeclaration h⟩
  | statement _ ih =>
    intro mid hmid
    obtain ⟨front, rfl, h⟩ := ih mid hmid
    exact ⟨front, rfl, .statement h⟩
  | noDeclarations => rintro mid rfl; exact ⟨mid, rfl, .noDeclarations⟩
  | nextDeclaration _ _ ihd ih =>
    intro mid hmid
    obtain ⟨front, rfl, h⟩ := ih mid hmid
    obtain ⟨front', rfl, hd⟩ := ihd front rfl
    exact ⟨front', rfl, .nextDeclaration hd h⟩

/-- The tokens that a tree is read from, whatever stands behind them. -/
theorem Reads.exists_front {tree : symbol.Tree} (h : Reads nearest symbol n ts tree n' ts') :
    ∃ front, ts = front ++ ts' ∧ ∀ us, Reads nearest symbol n (front ++ us) tree n' us := by
  obtain ⟨front, rfl, -⟩ := h.exchange [] [] rfl
  refine ⟨front, rfl, fun us => ?_⟩
  obtain ⟨front', hfront, h'⟩ := h.exchange us [] rfl
  rwa [List.append_cancel_right hfront]

/-- What can be read from tokens can be read from them with others behind them. -/
theorem Reads.append {tree : symbol.Tree} (h : Reads nearest symbol n ts tree n' ts')
    (us : List Token) : Reads nearest symbol n (ts ++ us) tree n' (ts' ++ us) := by
  obtain ⟨front, rfl, hfront⟩ := h.exists_front
  rw [List.append_assoc]
  exact hfront (ts' ++ us)

theorem Reads.declarations_append {ss ss' : List Stmt} {ts₁ : List Token}
    (h : Reads nearest .declarations n ts ss n₁ ts₁)
    (h' : Reads nearest .declarations n₁ ts₁ ss' n' ts') :
    Reads nearest .declarations n ts (ss ++ ss') n' ts' := by
  induction ss generalizing n ts with
  | nil =>
    cases h
    exact h'
  | cons s ss ih =>
    cases h with
    | nextDeclaration hd hds => exact .nextDeclaration hd (ih hds)

/-- Two programs that are parsed without a mistake are parsed so behind each other. -/
theorem program_append {us : List Token} {final final' : Token}
    (hts : ∀ t ∈ ts, t.kind ≠ .endOfInput) (hus : ∀ t ∈ us, t.kind ≠ .endOfInput)
    (hfinal : final.kind = .endOfInput) (hfinal' : final'.kind = .endOfInput)
    (h : (program (ts ++ [final]) n).errors = [])
    (h' : (program (us ++ [final']) (program (ts ++ [final]) n).nextId).errors = []) :
    program (ts ++ us ++ [final']) n =
      ⟨(program (ts ++ [final]) n).tree ++
          (program (us ++ [final']) (program (ts ++ [final]) n).nextId).tree, [],
        (program (us ++ [final']) (program (ts ++ [final]) n).nextId).nextId, false⟩ :=
  program_of_reads (List.forall_mem_append.2 ⟨hts, hus⟩) hfinal'
    (((reads_of_program hts hfinal h).append us).declarations_append
      (reads_of_program hus hfinal' h'))

end Lox.Grammar
