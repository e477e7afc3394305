import ExprSyntax.Parser

/-!
# What is read of a token list

`Reads b task ts o`: with `b` nesting levels to spare, `task` read from the head of `ts` ends in the
outcome `o`. The rules look at the head of the list only, so positions and the nesting counter are
gone from them. They have at most one outcome (`Reads.deterministic`), and it is the one of the
parser at the head of `ts` (`reads_read`).
-/

namespace ExprSyntax

/-- A tree or an error, with the tokens that are left. -/
inductive Outcome where
  | parsed (tree : Expr) (rest : List Token)
  | failed (error : SyntaxError) (rest : List Token)

/-- The tokens that are left, also after a failure. -/
def Outcome.rest : Outcome → List Token
  | parsed _ rest => rest
  | failed _ rest => rest

@[simp] theorem Outcome.rest_parsed (e : Expr) (ts : List Token) : (parsed e ts).rest = ts := rfl

@[simp] theorem Outcome.rest_failed (e : SyntaxError) (ts : List Token) :
    (failed e ts).rest = ts := rfl

/-- What a parse with this outcome gives. -/
def Outcome.result : Outcome → Except Diagnostic Expr
  | parsed e _ => .ok e
  | failed err _ => .error err.diagnostic

inductive Task where
  | phrase (n : Nonterminal)
  /-- The operators and operands that follow `left` on a binary level. -/
  | chain (l : Precedence) (left : Expr)

inductive Reads : Nat → Task → List Token → Outcome → Prop
  | operand {b l ts left rest o} : Reads b (.phrase l.operand) ts (.parsed left rest) →
      Reads b (.chain l left) rest o → Reads b (.phrase (.binary l)) ts o
  | operandFailed {b l ts e rest} : Reads b (.phrase l.operand) ts (.failed e rest) →
      Reads b (.phrase (.binary l)) ts (.failed e rest)
  | stop {b l left t ts} : t.kind ∉ l.operators →
      Reads b (.chain l left) (t :: ts) (.parsed left (t :: ts))
  | step {b l left op ts right rest o} : op.kind ∈ l.operators →
      Reads b (.phrase l.operand) ts (.parsed right rest) →
      Reads b (.chain l (.binary left op right)) rest o → Reads b (.chain l left) (op :: ts) o
  | stepFailed {b l left op ts e rest} : op.kind ∈ l.operators →
      Reads b (.phrase l.operand) ts (.failed e rest) →
      Reads b (.chain l left) (op :: ts) (.failed e rest)
  | sign {b op ts e rest} : op.kind ∈ TokenKind.signs →
      Reads b (.phrase .unary) ts (.parsed e rest) →
      Reads (b + 1) (.phrase .unary) (op :: ts) (.parsed (.unary op e) rest)
  | signFailed {b op ts e rest} : op.kind ∈ TokenKind.signs →
      Reads b (.phrase .unary) ts (.failed e rest) →
      Reads (b + 1) (.phrase .unary) (op :: ts) (.failed e rest)
  | signDeep {op ts} : op.kind ∈ TokenKind.signs →
      Reads 0 (.phrase .unary) (op :: ts) (.failed ⟨.nestedTooDeeply, op⟩ ts)
  | unsigned {b t ts o} : t.kind ∉ TokenKind.signs → Reads b (.phrase .primary) (t :: ts) o →
      Reads b (.phrase .unary) (t :: ts) o
  | constant {b t ts v} : t.kind.constant? = some v →
      Reads b (.phrase .primary) (t :: ts) (.parsed (.literal v) ts)
  | value {b t ts v} : t.kind ∈ [.number, .string] → t.literal = some v →
      Reads b (.phrase .primary) (t :: ts) (.parsed (.literal v) ts)
  | valueMissing {b t ts} : t.kind ∈ [.number, .string] → t.literal = none →
      Reads b (.phrase .primary) (t :: ts) (.failed ⟨.missingValue, t⟩ ts)
  | group {b t ts e close rest} : t.kind = .leftParen → close.kind = .rightParen →
      Reads b (.phrase .expression) ts (.parsed e (close :: rest)) →
      Reads (b + 1) (.phrase .primary) (t :: ts) (.parsed (.grouping e) rest)
  | groupFailed {b t ts e rest} : t.kind = .leftParen →
      Reads b (.phrase .expression) ts (.failed e rest) →
      Reads (b + 1) (.phrase .primary) (t :: ts) (.failed e rest)
  | groupOpen {b t ts e u rest} : t.kind = .leftParen → u.kind ≠ .rightParen →
      Reads b (.phrase .expression) ts (.parsed e (u :: rest)) →
      Reads (b + 1) (.phrase .primary) (t :: ts) (.failed ⟨.expectedRightParen, u⟩ (u :: rest))
  | groupDeep {t ts} : t.kind = .leftParen →
      Reads 0 (.phrase .primary) (t :: ts) (.failed ⟨.nestedTooDeeply, t⟩ ts)
  | unexpected {b t ts} : t.kind.constant? = none → t.kind ∉ [.number, .string, .leftParen] →
      Reads b (.phrase .primary) (t :: ts) (.failed ⟨.expectedExpression, t⟩ (t :: ts))

theorem Reads.deterministic {b : Nat} {task : Task} {ts : List Token} {o o' : Outcome}
    (h : Reads b task ts o) (h' : Reads b task ts o') : o = o' := by
  induction h generalizing o' with
  | operand _ _ ih ihc =>
    cases h' with
    | operand h hc => cases ih h; exact ihc hc
    | operandFailed h => cases ih h
  | operandFailed _ ih =>
    cases h' with
    | operand h _ => cases ih h
    | operandFailed h => exact ih h
  | stop hk => cases h' <;> first | rfl | contradiction
  | step _ _ _ ih ihc =>
    cases h' with
    | stop => contradiction
    | step _ h hc => cases ih h; exact ihc hc
    | stepFailed _ h => cases ih h
  | stepFailed _ _ ih =>
    cases h' with
    | stop => contradiction
    | step _ h _ => cases ih h
    | stepFailed _ h => exact ih h
  | sign _ _ ih =>
    cases h' with
    | sign _ h => cases ih h; rfl
    | signFailed _ h => cases ih h
    | unsigned => contradiction
  | signFailed _ _ ih =>
    cases h' with
    | sign _ h => cases ih h
    | signFailed _ h => exact ih h
    | unsigned => contradiction
  | signDeep => cases h' <;> first | rfl | contradiction
  | unsigned _ _ ih =>
    cases h' with
    | unsigned _ h => exact ih h
    | _ => contradiction
  | group ht _ _ ih =>
    cases h' with
    | group _ _ h => cases ih h; rfl
    | groupFailed _ h => cases ih h
    | groupOpen _ hu h => cases ih h; contradiction
    | constant hv => exact absurd ht (TokenKind.not_mem_of_constant? hv).2
    | _ => simp_all
  | groupFailed ht _ ih =>
    cases h' with
    | group _ _ h | groupOpen _ _ h => cases ih h
    | groupFailed _ h => exact ih h
    | constant hv => exact absurd ht (TokenKind.not_mem_of_constant? hv).2
    | _ => simp_all
  | groupOpen ht _ _ ih =>
    cases h' with
    | group _ _ h => cases ih h; contradiction
    | groupFailed _ h => cases ih h
    | groupOpen _ _ h => cases ih h; rfl
    | constant hv => exact absurd ht (TokenKind.not_mem_of_constant? hv).2
    | _ => simp_all
  | groupDeep ht =>
    cases h' with
    | groupDeep => rfl
    | constant hv => exact absurd ht (TokenKind.not_mem_of_constant? hv).2
    | _ => simp_all
  | constant hv =>
    have := TokenKind.not_mem_of_constant? hv
    cases h' <;> simp_all
  | value hk | valueMissing hk =>
    cases h' with
    | constant hv => exact absurd hk (TokenKind.not_mem_of_constant? hv).1
    | _ => simp_all
  | unexpected => cases h' <;> simp_all

end ExprSyntax
