import ExprSyntax.Expr.Basic

/-!
# The source of a tree

`Expr.source` writes a tree in order, one space between its tokens. What is written says which tree
it was only if the tree has the shape of a phrase (`Expr.Shaped`: no parentheses are left out) and
its operators and values can be written (`Expr.Writable`).
-/

namespace ExprSyntax

/-! ## Writing -/

/-- The token of a kind that has one spelling. -/
def Token.spelled (kind : TokenKind) : Token :=
  ⟨kind, kind.spelling?.getD "", none, 1⟩

/-- The token of a value: a number as its text, a string in quotes. -/
def Literal.token : Literal → Token
  | number x => ⟨.number, x.text, some (.number x), 1⟩
  | string s => ⟨.string, "\"" ++ s ++ "\"", some (.string s), 1⟩
  | bool true => .spelled .kwTrue
  | bool false => .spelled .kwFalse
  | nil => .spelled .kwNil

namespace Expr

/-- The tokens of a tree, with parentheses around groupings. -/
def tokens : Expr → List Token
  | literal v => [v.token]
  | grouping e => .spelled .leftParen :: (e.tokens ++ [.spelled .rightParen])
  | unary op e => op :: e.tokens
  | binary l op r => l.tokens ++ op :: r.tokens

def source (e : Expr) : String :=
  String.intercalate " " (e.tokens.map Token.lexeme)

end Expr

/-! ## Shape -/

/-- How tightly an operator binds its two operands; nothing for what is no such operator. -/
def TokenKind.tightness : TokenKind → Nat
  | bangEqual | equalEqual => 1
  | less | lessEqual | greater | greaterEqual => 2
  | minus | plus => 3
  | slash | star => 4
  | _ => 0

namespace Expr

/-- How tightly a tree holds together: a sign binds tighter than any operator between two
operands. -/
def tightness : Expr → Nat
  | binary _ op _ => op.kind.tightness
  | unary _ _ => 5
  | literal _ => 6
  | grouping _ => 6

/-- The shape of the trees that are read: operators of equal tightness take their operands from the
left, and all that binds less tightly is grouped. -/
def Shaped : Expr → Prop
  | literal _ => True
  | grouping e => e.Shaped
  | unary op e => (op.kind = .bang ∨ op.kind = .minus) ∧ 5 ≤ e.tightness ∧ e.Shaped
  | binary l op r => 0 < op.kind.tightness ∧ op.kind.tightness ≤ l.tightness ∧
      op.kind.tightness < r.tightness ∧ l.Shaped ∧ r.Shaped

instance decidableShaped : (e : Expr) → Decidable e.Shaped
  | literal _ => inferInstanceAs (Decidable True)
  | grouping e => decidableShaped e
  | unary op e =>
    have := decidableShaped e
    inferInstanceAs (Decidable ((op.kind = .bang ∨ op.kind = .minus) ∧ 5 ≤ e.tightness ∧ e.Shaped))
  | binary l op r =>
    have := decidableShaped l
    have := decidableShaped r
    inferInstanceAs (Decidable (0 < op.kind.tightness ∧ op.kind.tightness ≤ l.tightness ∧
      op.kind.tightness < r.tightness ∧ l.Shaped ∧ r.Shaped))

end Expr

/-! ## What can be written -/

/-- The token has no value and is spelled as all tokens of its kind are. -/
def Token.Plain (t : Token) : Prop :=
  t.kind.spelling? = some t.lexeme ∧ t.literal = none

/-- A number without sign, or a string in which no quote ends it. -/
def Literal.Writable : Literal → Prop
  | number x => ∃ m, x = .finite false m
  | string s => '"' ∉ s.toList
  | bool _ => True
  | nil => True

def Expr.Writable : Expr → Prop
  | literal v => v.Writable
  | grouping e => e.Writable
  | unary op e => op.Plain ∧ e.Writable
  | binary l op r => l.Writable ∧ op.Plain ∧ r.Writable

end ExprSyntax
