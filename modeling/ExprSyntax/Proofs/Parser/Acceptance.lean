import ExprSyntax.Proofs.Grammar.Derivation
import ExprSyntax.Proofs.Parser.Reading

/-!
# What a parser accepts

A parser accepts the token lists that begin with a phrase of the grammar, if the phrase is nested no
deeper than its bound, and its tree is the tree of the derivation (`parse_eq_ok_iff`). The phrase
goes on as far as an operator follows it.
-/

namespace ExprSyntax

namespace Parser

/-- A phrase at the head of the tokens ahead is parsed, and the parser stops behind it. -/
theorem parse_of_derives {p : Parser} {ts rest : List Token} {next : Token} {e : Expr}
    (hp : p.ahead = ts ++ next :: rest) (he : Derives .expression ts e)
    (hnest : e.nesting ≤ p.allowance) (hnext : next.kind ∉ TokenKind.binaryOperators) :
    ∃ q, p.parse = (.ok e, q) ∧ q.position = p.position + ts.length := by
  have hr := he.reads_expression hnest hnext rest
  rw [← hp] at hr
  obtain ⟨q, hq, ha⟩ := parse_of_reads hr
  exact ⟨q, hq, (Forward.of_parse hq).position_eq (by rw [hp, ha])⟩

/-- What is parsed is a phrase at the head of the tokens ahead, and no operator follows it. -/
theorem derives_of_parse {p q : Parser} {e : Expr} (h : p.parse = (.ok e, q)) :
    ∃ ts, p.ahead = ts ++ q.ahead ∧ Derives .expression ts e ∧ e.nesting ≤ p.allowance ∧
      q.current.kind ∉ TokenKind.binaryOperators := by
  have hr := reads_of_parse_ok h
  obtain ⟨ts, hts, he, hnest⟩ := hr.derives
  rw [ahead_eq_cons q] at hr
  exact ⟨ts, hts, he, hnest (Nat.zero_le _),
    fun hk => hr.endsAt (Nonterminal.mem_takenOperators_expression.2 hk)⟩

/-- A new parser accepts the tokens up to `n` exactly if they are a phrase, nested within its bound,
that no operator follows; the tree is that of the phrase. -/
theorem parse_eq_ok_iff (tokens : List Token) (maxDepth : Nat) (tree : Expr) (n : Nat) :
    (∃ q, (ofTokens tokens maxDepth).parse = (.ok tree, q) ∧ q.position = n ∧
        (Token.closeList tokens)[n]? = some q.current) ↔
      Derives .expression ((Token.closeList tokens).take n) tree ∧
        (∃ next, (Token.closeList tokens)[n]? = some next ∧
          next.kind ∉ TokenKind.binaryOperators) ∧
        tree.nesting ≤ maxDepth := by
  constructor
  · rintro ⟨q, hq, rfl, hcur⟩
    obtain ⟨ts, hts, he, hnest, hnext⟩ := derives_of_parse hq
    have hpos : q.position = ts.length := by
      simpa [ofTokens] using (Forward.of_parse hq).position_eq hts
    refine ⟨?_, ⟨q.current, hcur, hnext⟩, hnest⟩
    rwa [← ahead_ofTokens tokens maxDepth, hts, hpos, List.take_left]
  · rintro ⟨he, ⟨next, hn, hnext⟩, hnest⟩
    obtain ⟨hlt, hget⟩ := List.getElem?_eq_some_iff.1 hn
    have hsplit : (ofTokens tokens maxDepth).ahead = (Token.closeList tokens).take n ++
        next :: (Token.closeList tokens).drop (n + 1) := by
      rw [ahead_ofTokens, ← hget, ← List.drop_eq_getElem_cons hlt, List.take_append_drop]
    obtain ⟨q, hq, hpos⟩ := parse_of_derives hsplit he hnest hnext
    have hqn : q.position = n := by
      rw [hpos, List.length_take_of_le (Nat.le_of_lt hlt)]
      exact Nat.zero_add n
    refine ⟨q, hq, hqn, ?_⟩
    have hcur := getElem?_position q
    rwa [(Forward.of_parse hq).tokens, ← Array.getElem?_toList, tokens_ofTokens, hqn] at hcur

end Parser

end ExprSyntax
