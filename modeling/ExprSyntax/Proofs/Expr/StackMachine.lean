import ExprSyntax.Expr.Polish

/-!
# Reverse Polish notation on a stack

A word of the reverse Polish notation is an operand, a sign behind its operand or an operator behind
its two. Told which each word is, a stack machine finds the value of the tree from left to right,
whatever the words mean (`Interpretation.run_marked`); the text alone tells the words
(`Expr.words_eq_of_reversePolish_eq`), but not what each of them is.
-/

namespace ExprSyntax

/-- What a word of the reverse Polish notation is in its tree. -/
inductive WordRole where
  | operand
  | sign
  | operator
deriving DecidableEq

namespace Expr

/-- The words of the reverse Polish notation with what each is. -/
def marked : Expr → List (WordRole × String)
  | literal v => [(.operand, v.text)]
  | grouping e => e.marked
  | unary op e => e.marked ++ [(.sign, op.lexeme)]
  | binary l op r => l.marked ++ r.marked ++ [(.operator, op.lexeme)]

def words (e : Expr) : List String :=
  e.marked.map Prod.snd

def roles (e : Expr) : List WordRole :=
  e.marked.map Prod.fst

theorem reversePolishOnto_eq (e : Expr) (rest : List String) :
    e.reversePolishOnto rest = e.words ++ rest := by
  induction e generalizing rest with
  | literal v => rfl
  | grouping e ih => exact ih rest
  | unary op e ih => simp [reversePolishOnto, ih, words, marked]
  | binary l op r ihl ihr => simp [reversePolishOnto, ihl, ihr, words, marked]

theorem reversePolish_eq (e : Expr) : e.reversePolish = String.intercalate " " e.words := by
  rw [reversePolish, reversePolishOnto_eq, List.append_nil]

theorem words_ne_nil (e : Expr) : e.words ≠ [] := by
  induction e with
  | grouping e ih => exact ih
  | literal | unary | binary => simp [words, marked]

/-- A tree has one operand more than it has operators. -/
theorem length_marked (e : Expr) : e.marked.length + 1 =
    2 * e.marked.countP (·.1 = .operand) + e.marked.countP (·.1 = .sign) := by
  induction e with
  | literal v => rfl
  | grouping e ih => exact ih
  | unary op e ih =>
    simp [marked, List.countP_append]
    omega
  | binary l op r ihl ihr =>
    simp [marked, List.countP_append]
    omega

/-! ## Words of a text -/

/-- Words without a space in them are told by their text. -/
theorem words_eq_of_reversePolish_eq {e f : Expr} (he : ∀ w ∈ e.words, ' ' ∉ w.toList)
    (hf : ∀ w ∈ f.words, ' ' ∉ w.toList) (h : e.reversePolish = f.reversePolish) :
    e.words = f.words := by
  have hsplit {e : Expr} (he : ∀ w ∈ e.words, ' ' ∉ w.toList) :
      e.reversePolish.toList.splitOn ' ' = e.words.map String.toList := by
    rw [reversePolish_eq, String.toList_intercalate]
    refine List.splitOn_intercalate ' ' ?_ (by simpa using e.words_ne_nil)
    simpa using he
  have hlists : e.words.map String.toList = f.words.map String.toList := by
    rw [← hsplit he, ← hsplit hf, h]
  exact (List.map_inj_right fun _ _ => String.toList_inj.1).1 hlists

end Expr

/-! ## Evaluation -/

/-- What the words mean. -/
structure Interpretation (α : Type) where
  operand : String → α
  sign : String → α → α
  operator : String → α → α → α

namespace Interpretation

variable {α : Type} (I : Interpretation α)

/-- The value of a tree, groupings left out. -/
def value : Expr → α
  | .literal v => I.operand v.text
  | .grouping e => value e
  | .unary op e => I.sign op.lexeme (value e)
  | .binary l op r => I.operator op.lexeme (value l) (value r)

/-- One word: an operand is pushed, a sign replaces the value on top, an operator the two on top. -/
def step : List α → WordRole × String → Option (List α)
  | stack, (.operand, w) => some (I.operand w :: stack)
  | x :: stack, (.sign, w) => some (I.sign w x :: stack)
  | y :: x :: stack, (.operator, w) => some (I.operator w x y :: stack)
  | _, _ => none

/-- All words in turn; nothing if a word finds too few values. -/
def run (words : List (WordRole × String)) (stack : List α) : Option (List α) :=
  words.foldlM I.step stack

theorem run_append (ws vs : List (WordRole × String)) (stack : List α) :
    I.run (ws ++ vs) stack = (I.run ws stack).bind (I.run vs) :=
  List.foldlM_append ..

/-- The words of a tree put its value on the stack. -/
theorem run_marked (e : Expr) (stack : List α) :
    I.run e.marked stack = some (I.value e :: stack) := by
  induction e generalizing stack with
  | literal v => rfl
  | grouping e ih => exact ih stack
  | unary op e ih =>
    rw [Expr.marked, run_append, ih]
    rfl
  | binary l op r ihl ihr =>
    rw [Expr.marked, run_append, run_append, ihl, Option.bind_some, ihr]
    rfl

/-- What is known about the words is known about the value. -/
theorem value_eq_of_marked_eq {e f : Expr} (h : e.marked = f.marked) : I.value e = I.value f := by
  have hrun : some [I.value e] = some [I.value f] := by
    rw [← run_marked, ← run_marked, h]
  exact (List.cons.inj (Option.some.inj hrun)).1

end Interpretation

end ExprSyntax
