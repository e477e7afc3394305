import ExprSyntax.Expr.Source
import ExprSyntax.Proofs.Parser.Acceptance
import ExprSyntax.Proofs.Source.LineNumbers
import ExprSyntax.Proofs.Source.NumberText
import ExprSyntax.Proofs.Source.Run
import ExprSyntax.Proofs.Source.Spacing

/-!
# What a run is made of

The tokens of a scan are lexemes of the notation, but for the end marker
(`lexical_of_mem_tokens_scan`). So the operators in the tree of a run are spelled as their kinds
are, and its values can be written unless a number was too large (`ofLexemes_of_run`).
-/

namespace ExprSyntax

/-! ## Tokens -/

theorem Scanned.lexical {line : Nat} {pieces : List Piece} {ts : List Token}
    {ds : List Diagnostic} (h : Scanned line pieces ts ds) {cs : List Char} (hc : Cut cs pieces) :
    ∀ t ∈ ts, t.kind ≠ .eof → t.Lexical := by
  induction h generalizing cs with
  | nil =>
    intro t ht hk
    rw [List.mem_singleton.1 ht] at hk
    exact absurd rfl hk
  | @cons line p pieces ts us ds es hy _ ih =>
    obtain - | @⟨cls, text, rest, _, hlong, hc⟩ := hc
    intro t ht hk
    rcases List.mem_append.1 ht with ht | ht
    · cases hy with
      | lexeme hm =>
        rw [List.mem_singleton.1 ht, Token.Lexical, String.toList_ofList]
        have hd := hlong.isMatch.described_of_isLexeme hm.isLexeme
        exact ⟨cls, hd.of_isLexeme hm.isLexeme [], hm⟩
      | whitespace | comment | openString | other => cases ht
    · exact ih hc t ht hk

theorem lexical_of_mem_tokens_scan {source : String} {t : Token} (h : t ∈ (scan source).tokens)
    (hk : t.kind ≠ .eof) : t.Lexical :=
  (Segment.scanned_segments 1 source.toList).lexical (Segment.cut_segments 1 source.toList) t h hk

namespace Token.Lexical

variable {t : Token}

/-- A symbol is spelled as its kind is, and has no value. -/
theorem plain (h : t.Lexical) (hk : t.kind ∈ TokenKind.symbols) : t.Plain := by
  obtain ⟨k, lexeme, v, line⟩ := t
  obtain ⟨cls, -, hm⟩ := h
  dsimp only at hm hk
  generalize htext : lexeme.toList = text at hm
  cases hm with
  | symbol _ hs =>
    rw [← htext, String.ofList_toList] at hs
    exact ⟨hs, rfl⟩
  | keyword hk' =>
    have hdisjoint : ∀ k ∈ TokenKind.symbols, k ∉ TokenKind.keywords := by decide
    exact absurd hk' (hdisjoint k hk)
  | identifier | number | string => exact absurd hk (by decide)

/-- The number of a lexeme has no sign, but may be too large to be finite. -/
theorem number_cases {text : List Char} {x : Binary64} (hd : Described .number text [])
    (hx : Binary64.ofText? (String.ofList text) = some x) :
    (∃ m, x = .finite false m) ∨ x = .infinite false := by
  obtain ⟨d, rfl⟩ : ∃ d, x = Binary64.ofDecimal false d := by
    cases hd with
    | whole h =>
      rw [Binary64.ofText?_whole fun e he => Segment.isDigit_iff.2 (h e he)] at hx
      exact ⟨_, (Option.some.inj hx).symm⟩
    | fraction h h' =>
      rw [Binary64.ofText?_fraction (fun e he => Segment.isDigit_iff.2 (h e he))
        fun e he => Segment.isDigit_iff.2 (h' e he)] at hx
      exact ⟨_, (Option.some.inj hx).symm⟩
  rw [Binary64.ofDecimal]
  cases Binary64.Magnitude.ofDecimal? d with
  | some m => exact .inl ⟨m, rfl⟩
  | none => exact .inr rfl

theorem writable_or_infinite (h : t.Lexical) {v : Literal} (hv : t.literal = some v) :
    v.Writable ∨ v = .number (.infinite false) := by
  obtain ⟨k, lexeme, w, line⟩ := t
  obtain ⟨cls, hd, hm⟩ := h
  dsimp only at hd hm hv
  generalize lexeme.toList = text at hd hm
  subst hv
  cases hm with
  | number hx =>
    rcases number_cases hd hx with hfinite | rfl
    · exact .inl hfinite
    · exact .inr rfl
  | @string inside =>
    generalize htext : '"' :: inside ++ ['"'] = text at hd
    cases hd with
    | closedString hq =>
      rw [List.cons_append, List.cons_append] at htext
      rw [← List.append_cancel_right (List.cons.inj htext).2] at hq
      exact .inl (by rwa [Literal.Writable, String.toList_ofList])

end Token.Lexical

/-! ## Trees -/

/-- The operators of the tree are spelled as their kinds are, and its values can be written, or are
the number that one too large to be finite is read as. -/
def Expr.OfLexemes : Expr → Prop
  | literal v => v.Writable ∨ v = .number (.infinite false)
  | grouping e => e.OfLexemes
  | unary op e => op.Plain ∧ e.OfLexemes
  | binary l op r => l.OfLexemes ∧ op.Plain ∧ r.OfLexemes

theorem Precedence.operators_subset_symbols (l : Precedence) :
    l.operators ⊆ TokenKind.symbols := by
  cases l <;> decide

/-- A tree that is derived from lexemes is made of them. -/
theorem Derives.ofLexemes {n : Nonterminal} {ts : List Token} {e : Expr} (h : Derives n ts e)
    (hts : ∀ t ∈ ts, t.kind ≠ .eof → t.Lexical) : e.OfLexemes := by
  have heof : TokenKind.eof ∉ TokenKind.symbols := by decide
  have hplain : ∀ t ∈ ts, t.kind ∈ TokenKind.symbols → t.Plain := fun t ht hk =>
    (hts t ht fun he => heof (he ▸ hk)).plain hk
  induction h with
  | operand _ ih | primary _ ih => exact ih hts hplain
  | @binary l _ _ op _ _ _ hop _ ihl ihr =>
    simp only [List.forall_mem_append, List.forall_mem_cons] at hts hplain
    exact ⟨ihl hts.1 hplain.1, hplain.2.1 (l.operators_subset_symbols hop),
      ihr hts.2.2 hplain.2.2⟩
  | unary hop _ ih =>
    rw [List.forall_mem_cons] at hts hplain
    exact ⟨hplain.1 (by rcases hop with hop | hop <;> rw [hop] <;> decide), ih hts.2 hplain.2⟩
  | value hk hv =>
    refine (hts _ List.mem_cons_self ?_).writable_or_infinite hv
    rcases hk with hk | hk <;> rw [hk] <;> decide
  | kwTrue | kwFalse | kwNil => exact .inl trivial
  | group _ _ _ ih =>
    simp only [List.forall_mem_append, List.forall_mem_cons] at hts hplain
    exact ih hts.2.1 hplain.2.1

theorem Parser.ofLexemes_of_parse {p q : Parser} {e : Expr} (h : p.parse = (.ok e, q))
    (hp : ∀ t ∈ p.ahead, t.kind ≠ .eof → t.Lexical) : e.OfLexemes := by
  obtain ⟨ts, hts, he, -⟩ := derives_of_parse h
  exact he.ofLexemes fun t ht => hp t (hts ▸ List.mem_append_left _ ht)

/-- The tokens ahead of a new parser are those of the source. -/
theorem lexical_of_mem_ahead {source : String} {m : Nat} {t : Token}
    (h : t ∈ (Parser.ofTokens (scan source).tokens m).ahead) (hk : t.kind ≠ .eof) : t.Lexical := by
  rw [Parser.ahead_ofTokens, closeList_tokens_scan] at h
  exact lexical_of_mem_tokens_scan h hk

theorem ofLexemes_of_run {log : Log} {source : String} {e : Expr}
    (h : (run log source).1 = some e) : e.OfLexemes := by
  obtain ⟨-, -, hparse⟩ := fst_run_eq_some_iff.1 h
  exact Parser.ofLexemes_of_parse (Prod.ext hparse rfl) fun _ => lexical_of_mem_ahead

end ExprSyntax
