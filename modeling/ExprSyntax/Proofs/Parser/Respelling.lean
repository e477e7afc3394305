import ExprSyntax.Expr.Polish
import ExprSyntax.Proofs.Grammar.Derivation
import ExprSyntax.Proofs.Parser.Reading

/-!
# Spelling and layout

A reading looks at the kinds and values of tokens only. With other lexemes and lines everywhere it
ends in the same way, with the same replacement made in the tree, the error and what is left
(`Reads.map`). So a parser reads a phrase however its tokens are spelled and laid out
(`Parser.parse_of_ahead_map`).
-/

namespace ExprSyntax

/-- A replacement of tokens that keeps what a reading looks at. -/
structure Token.Respelling (f : Token → Token) : Prop where
  kind : ∀ t, (f t).kind = t.kind
  literal : ∀ t, (f t).literal = t.literal

/-- The tree with its operators replaced. -/
def Expr.mapOps (f : Token → Token) : Expr → Expr
  | literal v => literal v
  | grouping e => grouping (e.mapOps f)
  | unary op e => unary (f op) (e.mapOps f)
  | binary l op r => binary (l.mapOps f) (f op) (r.mapOps f)

namespace Expr

variable {f : Token → Token}

/-- The notations show no more of an operator than its lexeme. -/
theorem polish_mapOps (hf : ∀ t, (f t).lexeme = t.lexeme) (e : Expr) :
    (e.mapOps f).polish = e.polish := by
  have h (e : Expr) (rest : List String) : (e.mapOps f).polishOnto rest = e.polishOnto rest := by
    induction e generalizing rest with
    | literal v => rfl
    | grouping e ih | unary op e ih => simp only [mapOps, polishOnto, ih, hf]
    | binary l op r ihl ihr => simp only [mapOps, polishOnto, ihl, ihr, hf]
  rw [polish, h, polish]

theorem reversePolish_mapOps (hf : ∀ t, (f t).lexeme = t.lexeme) (e : Expr) :
    (e.mapOps f).reversePolish = e.reversePolish := by
  have h (e : Expr) (rest : List String) :
      (e.mapOps f).reversePolishOnto rest = e.reversePolishOnto rest := by
    induction e generalizing rest with
    | literal v => rfl
    | grouping e ih | unary op e ih => simp only [mapOps, reversePolishOnto, ih, hf]
    | binary l op r ihl ihr => simp only [mapOps, reversePolishOnto, ihl, ihr, hf]
  rw [reversePolish, h, reversePolish]

theorem render_mapOps (hf : ∀ t, (f t).lexeme = t.lexeme) (e : Expr) (order : Order) :
    (e.mapOps f).render order = e.render order := by
  cases order with
  | polish => exact polish_mapOps hf e
  | reversePolish => exact reversePolish_mapOps hf e

end Expr

def Task.map (f : Token → Token) : Task → Task
  | phrase n => phrase n
  | chain l left => chain l (left.mapOps f)

def SyntaxError.map (f : Token → Token) (e : SyntaxError) : SyntaxError :=
  ⟨e.fault, f e.offender⟩

def Outcome.map (f : Token → Token) : Outcome → Outcome
  | parsed e rest => parsed (e.mapOps f) (rest.map f)
  | failed err rest => failed (err.map f) (rest.map f)

/-- A reading of replaced tokens is the reading of the tokens, replaced. -/
theorem Reads.map {f : Token → Token} (hf : Token.Respelling f) {b : Nat} {task : Task}
    {ts : List Token} {o : Outcome} (h : Reads b task ts o) :
    Reads b (task.map f) (ts.map f) (o.map f) := by
  induction h with
  | operand _ _ ih ihc => exact .operand ih ihc
  | operandFailed _ ih => exact .operandFailed ih
  | stop hk => exact .stop (by rwa [hf.kind])
  | step hop _ _ ih ihc => exact .step (by rwa [hf.kind]) ih ihc
  | stepFailed hop _ ih => exact .stepFailed (by rwa [hf.kind]) ih
  | sign hop _ ih => exact .sign (by rwa [hf.kind]) ih
  | signFailed hop _ ih => exact .signFailed (by rwa [hf.kind]) ih
  | signDeep hop => exact .signDeep (by rwa [hf.kind])
  | unsigned ht _ ih => exact .unsigned (by rwa [hf.kind]) ih
  | constant hv => exact .constant (by rwa [hf.kind])
  | value hk hv => exact .value (by rwa [hf.kind]) (by rwa [hf.literal])
  | valueMissing hk hv => exact .valueMissing (by rwa [hf.kind]) (by rwa [hf.literal])
  | group ht hu _ ih => exact .group (by rwa [hf.kind]) (by rwa [hf.kind]) ih
  | groupFailed ht _ ih => exact .groupFailed (by rwa [hf.kind]) ih
  | groupOpen ht hu _ ih => exact .groupOpen (by rwa [hf.kind]) (by rwa [hf.kind]) ih
  | groupDeep ht => exact .groupDeep (by rwa [hf.kind])
  | unexpected hv hk => exact .unexpected (by rwa [hf.kind]) (by rwa [hf.kind])

namespace Parser

/-- Read with replaced tokens, the tokens ahead are an expression; so they are as they stand. -/
theorem parse_of_reads_map {f : Token → Token} (hf : Token.Respelling f) {p : Parser} {e : Expr}
    {rest : List Token}
    (h : Reads p.allowance (.phrase .expression) (p.ahead.map f) (.parsed e rest)) :
    ∃ tree q, p.parse = (.ok tree, q) ∧ tree.mapOps f = e ∧ q.ahead.map f = rest := by
  have hr := reads_read .expression p
  have ho := (hr.map hf).deterministic h
  cases hp : (p.read .expression).outcome with
  | failed err left =>
    rw [hp] at ho
    cases ho
  | parsed tree left =>
    rw [hp] at ho hr
    cases ho
    obtain ⟨q, hq, ha⟩ := parse_of_reads hr
    exact ⟨tree, q, hq, rfl, by rw [ha]⟩

/-- A phrase is read as its tree, and up to the token behind it, from a list that has the tokens of
the phrase in another spelling. -/
theorem parse_of_ahead_map {f : Token → Token} (hf : Token.Respelling f) {p : Parser}
    {ts rest : List Token} {next : Token} {e : Expr}
    (hp : p.ahead.map f = (ts ++ next :: rest).map f) (he : Derives .expression ts e)
    (hnest : e.nesting ≤ p.allowance) (hnext : next.kind ∉ TokenKind.binaryOperators) :
    ∃ tree q, p.parse = (.ok tree, q) ∧ tree.mapOps f = e.mapOps f ∧
      q.current.kind = next.kind := by
  have hr := (he.reads_expression hnest hnext rest).map hf
  rw [← hp] at hr
  obtain ⟨tree, q, hq, htree, hrest⟩ := parse_of_reads_map hf hr
  rw [ahead_eq_cons, List.map_cons, List.map_cons] at hrest
  have hfirst : f q.current = f next := (List.cons.inj hrest).1
  exact ⟨tree, q, hq, htree, by rw [← hf.kind q.current, hfirst, hf.kind]⟩

end Parser

end ExprSyntax
