import ExprSyntax.Expr.Basic
import ExprSyntax.Grammar.Nonterminal
import ExprSyntax.Parser.Basic

/-!
# Reading phrases of the grammar

`Parser.read n` reads one phrase of the nonterminal `n` from where a parser stands. Its `Reading` is
a tree or the first error, with the parser where it stopped: further on in the same list and,
however it ended, at the nesting at which it began. A token that would open one level too many is
taken before the bound is looked at, so the error points at the token in front of the parser.
-/

namespace ExprSyntax

/-- A tree or an error, and the parser where the reading stopped. -/
structure Reading (p : Parser) where
  result : Except SyntaxError Expr
  after : Parser
  forward : p.Forward after

namespace Reading

variable {p q : Parser}

/-- A tree of nothing that is still to be taken. -/
def done (p : Parser) (tree : Expr) : Reading p :=
  ⟨.ok tree, p, .refl p⟩

def fail (p : Parser) (error : SyntaxError) : Reading p :=
  ⟨.error error, p, .refl p⟩

/-- A reading from further on, seen from `p`. -/
def behind (h : p.Forward q) (r : Reading q) : Reading p :=
  ⟨r.result, r.after, h.trans r.forward⟩

def map (f : Expr → Expr) (r : Reading p) : Reading p :=
  ⟨r.result.map f, r.after, r.forward⟩

/-- Goes on from a tree; an error ends the reading. -/
def andThen (r : Reading p) (next : Expr → (q : Parser) → p.Forward q → Reading q) : Reading p :=
  match r.result with
  | .ok tree => (next tree r.after r.forward).behind r.forward
  | .error _ => r

end Reading

namespace Parser

/-- Reads what is inside of a group or behind a sign, one nesting level further in. -/
def nested (p : Parser) (inside : (q : Parser) → p.enter = .ok q → Reading q) : Reading p :=
  match h : p.enter with
  | .ok q =>
    let r := inside q h
    ⟨r.result, r.after.leave, forward_leave h r.forward⟩
  | .error error => .fail p error

/-- Takes the parenthesis that closes the group around `inner`. -/
def closeGroup (inner : Expr) (p : Parser) : Reading p :=
  match h : p.accept? [.rightParen] with
  | some q => .behind (forward_accept h) (.done q (.grouping inner))
  | none => .fail p ⟨.expectedRightParen, p.current⟩

/-- Takes a token that is a primary expression on its own. -/
def readLeaf (p : Parser) : Reading p :=
  match p.current.kind.constant? with
  | some value => .behind (forward_advance p) (.done p.advance (.literal value))
  | none =>
    match h : p.accept? [.number, .string] with
    | some q =>
      match q.previous.literal with
      | some value => .behind (forward_accept h) (.done q (.literal value))
      | none => .behind (forward_accept h) (.fail q ⟨.missingValue, q.previous⟩)
    | none => .fail p ⟨.expectedExpression, p.current⟩

mutual

/-- Reads one phrase of the nonterminal `n`. -/
def read (n : Nonterminal) (p : Parser) : Reading p :=
  match n with
  | .binary l => (read l.operand p).andThen fun left q _ => readChain l left q
  | .unary =>
    match h : p.accept? TokenKind.signs with
    | some q =>
      .behind (forward_accept h)
        ((q.nested fun inner _ => read .unary inner).map (.unary q.previous))
    | none => read .primary p
  | .primary =>
    match h : p.accept? [.leftParen] with
    | some q =>
      .behind (forward_accept h)
        ((q.nested fun inner _ => read .expression inner).andThen fun e q _ => closeGroup e q)
    | none => readLeaf p
termination_by p.remaining * 10 + n.rank
decreasing_by
  · have := Nonterminal.rank_operand l
    omega
  · have := Nonterminal.rank_operand l
    have := Forward.remaining_le ‹_›
    omega
  · have := remaining_enter_lt h ‹_›
    omega
  · simp only [Nonterminal.rank]
    omega
  · have := remaining_enter_lt h ‹_›
    have := Nonterminal.rank_le .expression
    omega

/-- Reads on behind the operand `left`, as long as an operator of the level and an operand
follow. -/
def readChain (l : Precedence) (left : Expr) (p : Parser) : Reading p :=
  match h : p.accept? l.operators with
  | some q =>
    .behind (forward_accept h)
      ((read l.operand q).andThen fun right r _ => readChain l (.binary left q.previous right) r)
  | none => .done p left
termination_by p.remaining * 10 + l.operand.rank + 1
decreasing_by
  · have := remaining_accept_lt h
    omega
  · have := remaining_accept_lt h
    have := Forward.remaining_le ‹_›
    omega

end

end Parser

end ExprSyntax
