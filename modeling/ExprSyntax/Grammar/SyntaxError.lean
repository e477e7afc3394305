import ExprSyntax.Diagnostic

/-!
# Syntax errors

What keeps a token list from being read as an expression, and the token that is to blame.
-/

namespace ExprSyntax

/-- Why no tree could be read. -/
inductive SyntaxFault where
  | expectedExpression
  | expectedRightParen
  | nestedTooDeeply
  /-- A number or string token without a value, which only a hand-made list holds. -/
  | missingValue
deriving DecidableEq, Inhabited

def SyntaxFault.message : SyntaxFault → String
  | expectedExpression => "Expected expression."
  | expectedRightParen => "Expect ')' after expression."
  | nestedTooDeeply => "Expression nested too deeply."
  | missingValue => "Literal token has no value."

/-- A fault and the token it points at. -/
structure SyntaxError where
  fault : SyntaxFault
  offender : Token
deriving DecidableEq, Inhabited

def SyntaxError.diagnostic (e : SyntaxError) : Diagnostic :=
  .atToken e.offender e.fault.message

end ExprSyntax
