import ExprSyntax.Expr.Source
import ExprSyntax.Proofs.Grammar.Derivation

/-!
# The phrase of a tree

The nonterminals in the order in which they bind, and phrases of the tighter ones are phrases of the
looser ones (`Derives.of_tightness_le`). So the tokens of a tree that is shaped like a phrase are
one, and the tree is its own (`Expr.Shaped.derives`). No other trees are those of phrases
(`Derives.shaped`).
-/

namespace ExprSyntax

namespace Nonterminal

/-- How tightly the trees of a nonterminal hold together at least. -/
def tightness : Nonterminal → Nat
  | binary .equality => 1
  | binary .comparison => 2
  | binary .term => 3
  | binary .factor => 4
  | unary => 5
  | primary => 6

theorem tightness_operand (l : Precedence) : l.operand.tightness = (binary l).tightness + 1 := by
  cases l <;> rfl

theorem tightness_le (n : Nonterminal) : n.tightness ≤ 6 := by
  rcases n with (_ | _ | _ | _) | _ | _ <;> decide

theorem tightness_injective {m n : Nonterminal} (h : m.tightness = n.tightness) : m = n := by
  revert h
  rcases m with (_ | _ | _ | _) | _ | _ <;> rcases n with (_ | _ | _ | _) | _ | _ <;> decide

end Nonterminal

/-- The operators of a level are those of its tightness. -/
theorem exists_level_of_tightness {k : TokenKind} (h : 0 < k.tightness) :
    ∃ l : Precedence, k ∈ l.operators ∧ (Nonterminal.binary l).tightness = k.tightness := by
  cases k with
  | bangEqual | equalEqual => exact ⟨.equality, by decide, rfl⟩
  | less | lessEqual | greater | greaterEqual => exact ⟨.comparison, by decide, rfl⟩
  | minus | plus => exact ⟨.term, by decide, rfl⟩
  | slash | star => exact ⟨.factor, by decide, rfl⟩
  | _ => exact absurd h (by decide)

theorem tightness_of_mem_operators {l : Precedence} {k : TokenKind} (h : k ∈ l.operators) :
    k.tightness = (Nonterminal.binary l).tightness := by
  have hall : ∀ k ∈ l.operators, k.tightness = (Nonterminal.binary l).tightness := by
    cases l <;> decide
  exact hall k h

/-- A phrase is also one of each nonterminal that binds less tightly. -/
theorem Derives.of_tightness_le {m n : Nonterminal} {ts : List Token} {e : Expr}
    (h : Derives n ts e) (hle : m.tightness ≤ n.tightness) : Derives m ts e := by
  -- by induction on the steps down from `m` to `n`
  induction hk : n.tightness - m.tightness generalizing m with
  | zero =>
    have heq : m.tightness = n.tightness := Nat.le_antisymm hle (Nat.le_of_sub_eq_zero hk)
    rwa [Nonterminal.tightness_injective heq]
  | succ k ih =>
    cases m with
    | binary l =>
      have ho := Nonterminal.tightness_operand l
      exact .operand (ih (by omega) (by omega))
    | unary =>
      have hu : Nonterminal.primary.tightness = Nonterminal.unary.tightness + 1 := rfl
      exact .primary (ih (by omega) (by omega))
    | primary =>
      have hp : n.tightness ≤ Nonterminal.primary.tightness := n.tightness_le
      omega

/-- The tree of a phrase is shaped, and holds together as tightly as the nonterminal asks for. -/
theorem Derives.shaped {n : Nonterminal} {ts : List Token} {e : Expr} (h : Derives n ts e) :
    e.Shaped ∧ n.tightness ≤ e.tightness := by
  induction h with
  | @operand l _ _ _ ih =>
    have := Nonterminal.tightness_operand l
    exact ⟨ih.1, by omega⟩
  | @binary l _ left op _ right _ hop _ ihl ihr =>
    obtain ⟨hleft, htl⟩ := ihl
    obtain ⟨hright, htr⟩ := ihr
    have hk := tightness_of_mem_operators hop
    have hpos : 0 < (Nonterminal.binary l).tightness := by cases l <;> decide
    rw [Nonterminal.tightness_operand] at htr
    exact ⟨⟨by omega, by omega, by omega, hleft, hright⟩, Nat.le_of_eq hk.symm⟩
  | unary hop _ ih => exact ⟨⟨hop, ih.2, ih.1⟩, Nat.le_refl 5⟩
  | primary _ ih => exact ⟨ih.1, Nat.le_of_succ_le ih.2⟩
  | value | kwTrue | kwFalse | kwNil => exact ⟨trivial, Nat.le_refl 6⟩
  | group _ _ _ ih => exact ⟨ih.1, Nat.le_refl 6⟩

/-! ## The tokens of a tree -/

theorem Literal.derives_token (v : Literal) : Derives .primary [v.token] (.literal v) := by
  cases v with
  | number x => exact .value (.inl rfl) rfl
  | string s => exact .value (.inr rfl) rfl
  | bool b =>
    cases b with
    | true => exact .kwTrue rfl
    | false => exact .kwFalse rfl
  | nil => exact .kwNil rfl

namespace Expr

/-- Every shaped tree is an expression. -/
theorem Shaped.le_tightness {e : Expr} (h : e.Shaped) :
    Nonterminal.expression.tightness ≤ e.tightness := by
  cases e with
  | binary l op r => exact h.1
  | unary op e => exact (by decide : 1 ≤ 5)
  | literal | grouping => exact (by decide : 1 ≤ 6)

/-- The tokens of a shaped tree are a phrase of every nonterminal that binds no tighter than the
tree does. -/
theorem Shaped.derives_of_tightness_le {e : Expr} (h : e.Shaped) {n : Nonterminal}
    (hn : n.tightness ≤ e.tightness) : Derives n e.tokens e := by
  induction e generalizing n with
  | literal v => exact v.derives_token.of_tightness_le hn
  | grouping e ih =>
    have he : Derives .expression e.tokens e := ih h (Shaped.le_tightness h)
    exact (Derives.group rfl he rfl).of_tightness_le hn
  | unary op e ih =>
    obtain ⟨hop, htight, he⟩ := h
    exact (Derives.unary hop (ih he htight)).of_tightness_le hn
  | binary l op r ihl ihr =>
    obtain ⟨hpos, hleft, hright, hl, hr⟩ := h
    obtain ⟨p, hop, hp⟩ := exists_level_of_tightness hpos
    have ho := Nonterminal.tightness_operand p
    have hls : Derives (.binary p) l.tokens l := ihl hl (by omega)
    have hrs : Derives p.operand r.tokens r := ihr hr (by omega)
    exact (Derives.binary hls hop hrs).of_tightness_le (hp ▸ hn)

theorem Shaped.derives {e : Expr} (h : e.Shaped) : Derives .expression e.tokens e :=
  h.derives_of_tightness_le h.le_tightness

end Expr

end ExprSyntax
