import ExprSyntax.Binary64.Shortest

/-!
# Literal values

What a literal stands for: the value that a number or string token carries and that a leaf of a tree
holds. `==` compares numbers as numbers (`Binary64`), all else by identity.
-/

namespace ExprSyntax

inductive Literal where
  | number (value : Binary64)
  | string (text : String)
  | bool (value : Bool)
  | nil
deriving DecidableEq, BEq, Inhabited

/-- The text of a value; that of a string has no quotes. -/
def Literal.text : Literal → String
  | number x => x.text
  | string s => s
  | bool true => "true"
  | bool false => "false"
  | nil => "nil"

end ExprSyntax
