import ExprSyntax.Literal
import ExprSyntax.Token.Kind

/-!
# Tokens

A token is a lexeme with its kind, the value it carries if it is a number or string, and its line.
Hand-made tokens may combine these freely; nothing below relies on a token of the scanner.
-/

namespace ExprSyntax

structure Token where
  kind : TokenKind
  lexeme : String
  literal : Option Literal
  line : Nat
deriving DecidableEq, BEq, Inhabited

namespace Token

/-- The end marker. -/
def eof (line : Nat) : Token :=
  ⟨.eof, "", none, line⟩

/-- One line of a token listing. -/
def text (t : Token) : String :=
  t.kind.name ++ " " ++ t.lexeme ++ " " ++ (t.literal.map Literal.text).getD "null"

end Token

end ExprSyntax
