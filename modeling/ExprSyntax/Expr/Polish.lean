import ExprSyntax.Expr.Basic

/-!
# Polish notation

Two written forms of a tree. Polish notation puts each node in parentheses, its operator first and
`group` for a grouping. Reverse Polish notation writes operands before their operator, one word
apart, and leaves groupings out. Both write an operator as its lexeme and a leaf as the text of its
value.
-/

namespace ExprSyntax

/-- The order of operator and operands in a written tree. -/
inductive Order where
  | polish
  | reversePolish
deriving DecidableEq, Inhabited

namespace Expr

/-- The pieces of text that make up the Polish notation of a tree, in front of `rest`. -/
def polishOnto : Expr → List String → List String
  | literal v, rest => v.text :: rest
  | grouping e, rest => "(group " :: e.polishOnto (")" :: rest)
  | unary op e, rest => "(" :: op.lexeme :: " " :: e.polishOnto (")" :: rest)
  | binary l op r, rest =>
    "(" :: op.lexeme :: " " :: l.polishOnto (" " :: r.polishOnto (")" :: rest))

def polish (e : Expr) : String :=
  String.join (e.polishOnto [])

/-- The words of the reverse Polish notation of a tree, in front of `rest`. -/
def reversePolishOnto : Expr → List String → List String
  | literal v, rest => v.text :: rest
  | grouping e, rest => e.reversePolishOnto rest
  | unary op e, rest => e.reversePolishOnto (op.lexeme :: rest)
  | binary l op r, rest => l.reversePolishOnto (r.reversePolishOnto (op.lexeme :: rest))

def reversePolish (e : Expr) : String :=
  String.intercalate " " (e.reversePolishOnto [])

def render (e : Expr) : Order → String
  | .polish => e.polish
  | .reversePolish => e.reversePolish

theorem polishOnto_append (e : Expr) (pieces rest : List String) :
    e.polishOnto (pieces ++ rest) = e.polishOnto pieces ++ rest := by
  induction e generalizing pieces with
  | literal v => rfl
  | grouping e ih | unary op e ih => simp only [polishOnto, ← List.cons_append, ih]
  | binary l op r ihl ihr => simp only [polishOnto, ← List.cons_append, ihl, ihr]

end Expr

end ExprSyntax
