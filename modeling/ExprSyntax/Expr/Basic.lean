import ExprSyntax.Token.Basic

/-!
# Expression trees

Operators are kept as their tokens, so `==` on trees sees their lexemes and lines; leaves hold only
a value.
-/

namespace ExprSyntax

inductive Expr where
  | literal (value : Literal)
  | grouping (inner : Expr)
  | unary (op : Token) (operand : Expr)
  | binary (left : Expr) (op : Token) (right : Expr)
deriving DecidableEq, BEq, Inhabited

namespace Expr

/-- The number of nodes on the longest path to a leaf. -/
def depth : Expr → Nat
  | literal _ => 1
  | grouping e => 1 + e.depth
  | unary _ e => 1 + e.depth
  | binary l _ r => 1 + max l.depth r.depth

end Expr

end ExprSyntax
