import ExprSyntax.Token.Basic

/-!
# The expression grammar

    expression := equality
    equality   := comparison (("!=" | "==") comparison)*
    comparison := term (("<" | "<=" | ">" | ">=") term)*
    term       := factor (("-" | "+") factor)*
    factor     := unary (("/" | "*") unary)*
    unary      := ("!" | "-") unary | primary
    primary    := number | string | "true" | "false" | "nil" | "(" expression ")"

Its four binary levels differ in their operators and their operands only, so they are one
`Nonterminal.binary` with a `Precedence`.
-/

namespace ExprSyntax

/-- The levels of binary operators, loosest first. -/
inductive Precedence where
  | equality
  | comparison
  | term
  | factor
deriving DecidableEq, Inhabited

inductive Nonterminal where
  | binary (level : Precedence)
  | unary
  | primary
deriving DecidableEq, Inhabited

namespace Precedence

def operators : Precedence → List TokenKind
  | equality => [.bangEqual, .equalEqual]
  | comparison => [.less, .lessEqual, .greater, .greaterEqual]
  | term => [.minus, .plus]
  | factor => [.slash, .star]

/-- What stands between the operators of a level. -/
def operand : Precedence → Nonterminal
  | equality => .binary .comparison
  | comparison => .binary .term
  | term => .binary .factor
  | factor => .unary

end Precedence

namespace Nonterminal

def expression : Nonterminal := .binary .equality

/-- How far a nonterminal is above `primary`; a level also has a place for its loop. -/
def rank : Nonterminal → Nat
  | primary => 0
  | unary => 1
  | binary .factor => 3
  | binary .term => 5
  | binary .comparison => 7
  | binary .equality => 9

theorem rank_operand (l : Precedence) : l.operand.rank + 2 = (binary l).rank := by
  cases l <;> rfl

theorem rank_le (n : Nonterminal) : n.rank ≤ 9 := by
  rcases n with (_ | _ | _ | _) | _ | _ <;> decide

end Nonterminal

/-- The operators that stand in front of their operand. -/
def TokenKind.signs : List TokenKind :=
  [.bang, .minus]

theorem TokenKind.mem_signs {k : TokenKind} : k ∈ signs ↔ k = bang ∨ k = minus := by
  simp [signs]

/-- The value that a keyword stands for. -/
def TokenKind.constant? : TokenKind → Option Literal
  | kwFalse => some (.bool false)
  | kwTrue => some (.bool true)
  | kwNil => some .nil
  | _ => none

theorem TokenKind.not_mem_of_constant? {k : TokenKind} {v : Literal} (h : k.constant? = some v) :
    k ∉ [number, string] ∧ k ≠ leftParen := by
  unfold constant? at h
  split at h <;> simp_all

end ExprSyntax
