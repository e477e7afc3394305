import ExprSyntax.Parser.Reading

/-!
# Reading expressions from a token list

`parse` reads one expression and stops at the first token that does not belong to it; `synchronize`
skips to where a reader can restart after an error. Neither goes past an end marker.
-/

namespace ExprSyntax

namespace Parser

/-- Reads one expression, or gives the one diagnostic that says why there is none. -/
def parse (p : Parser) : Except Diagnostic Expr × Parser :=
  let r := p.read .expression
  (r.result.mapError SyntaxError.diagnostic, r.after)

/-! ## Restarting -/

/-- Goes forward until a token begins a statement or follows a semicolon. -/
def skipToRestart (p : Parser) : Parser :=
  if _h : p.atEnd then p
  else if p.previous.kind = .semicolon then p
  else if p.current.kind.beginsStatement then p
  else p.advance.skipToRestart
termination_by p.remaining
decreasing_by exact remaining_advance_lt ‹_›

/-- Drops the current token and those after it up to the next restart point. -/
def synchronize (p : Parser) : Parser :=
  p.advance.skipToRestart

theorem forward_skipToRestart (p : Parser) : Forward p p.skipToRestart := by
  fun_induction skipToRestart p with
  | case1 | case2 | case3 => exact .refl _
  | case4 p _ _ _ ih => exact (forward_advance p).trans ih

theorem forward_synchronize (p : Parser) : Forward p p.synchronize :=
  (forward_advance p).trans (forward_skipToRestart _)

theorem forward_parse (p : Parser) : Forward p p.parse.2 :=
  (p.read .expression).forward

end Parser

end ExprSyntax
