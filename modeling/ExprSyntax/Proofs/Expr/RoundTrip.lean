import ExprSyntax.Proofs.Expr.Phrase
import ExprSyntax.Proofs.Parser.Respelling
import ExprSyntax.Proofs.Source.NumberText
import ExprSyntax.Proofs.Source.Run
import ExprSyntax.Proofs.Source.Spacing

/-!
# Reading a written tree

The tokens of a tree that can be written are lexemes of the notation (`Expr.lexical_of_mem_tokens`),
so scanning its source gives them back, and a shaped tree is the tree of its tokens. Together: a
tree is what its source is read as, but for the lines of its operators (`Expr.run_source`).
-/

namespace ExprSyntax

/-! ## Every token is a lexeme -/

/-- Keywords are spelled with letters. -/
theorem described_keyword {k : TokenKind} {text : List Char} (hk : k ∈ TokenKind.keywords)
    (hs : k.spelling? = some (String.ofList text)) (rest : List Char) :
    Described .word text rest := by
  have hall : ∀ k ∈ TokenKind.keywords, (k.spelling?.getD "").toList.head?.any Segment.isWordStart ∧
      (k.spelling?.getD "").toList.all Segment.isWordPart := by
    decide
  obtain ⟨hhead, hparts⟩ := hall k hk
  rw [hs, Option.getD_some, String.toList_ofList] at hhead hparts
  cases text with
  | nil => exact absurd hhead (by decide)
  | cons c cs =>
    rw [List.all_cons, Bool.and_eq_true] at hparts
    exact .word (Segment.isWordStart_iff.1 hhead)
      fun d hd => Segment.isWordPart_iff.1 (List.all_eq_true.1 hparts.2 d hd)

theorem TokenKind.mem_symbols_of_tightness {k : TokenKind} (h : 0 < k.tightness) :
    k ∈ symbols := by
  revert h
  cases k <;> decide

/-- A symbol or keyword that is spelled as its kind is a lexeme. -/
theorem Token.Plain.lexical {t : Token} (h : t.Plain)
    (hk : t.kind ∈ TokenKind.symbols ∨ t.kind ∈ TokenKind.keywords) : t.Lexical := by
  obtain ⟨hs, hv⟩ := h
  rw [← String.ofList_toList (s := t.lexeme)] at hs
  rcases hk with hk | hk
  · exact ⟨.symbol, .symbol hk hs, hv ▸ .symbol hk hs⟩
  · exact ⟨.word, described_keyword hk hs [], hv ▸ .keyword hk hs⟩

theorem Token.lexical_spelled {k : TokenKind}
    (hk : k ∈ TokenKind.symbols ∨ k ∈ TokenKind.keywords) : (Token.spelled k).Lexical := by
  have hs : ∀ k, k ∈ TokenKind.symbols ∨ k ∈ TokenKind.keywords → k.spelling?.isSome := by
    intro k
    cases k <;> decide
  obtain ⟨w, hw⟩ := Option.isSome_iff_exists.1 (hs k hk)
  have hp : (Token.spelled k).Plain := ⟨by simp [spelled, hw], rfl⟩
  exact hp.lexical hk

/-- A value that can be written is written as one lexeme. -/
theorem Literal.Writable.lexical_token {v : Literal} (h : v.Writable) : v.token.Lexical := by
  cases v with
  | number x =>
    obtain ⟨m, rfl⟩ := h
    have htext : (Binary64.finite false m).text.toList = m.shortest.chars := by
      simp [Binary64.text, Binary64.signText, Decimal.text]
    refine ⟨.number, ?_, .number ?_⟩
    · rw [token, htext]
      exact m.shortest.described_chars []
    · rw [token, String.ofList_toList]
      exact Binary64.ofText?_text m
  | string s =>
    have htext : ("\"" ++ s ++ "\"").toList = '"' :: s.toList ++ ['"'] := by simp
    have hmeans : Piece.Means ⟨.closedString, '"' :: s.toList ++ ['"']⟩ .string
        (some (.string (String.ofList s.toList))) := .string
    rw [String.ofList_toList] at hmeans
    refine ⟨.closedString, ?_, ?_⟩
    · rw [token, htext]
      exact .closedString h
    · rw [token, htext]
      exact hmeans
  | bool b =>
    cases b with
    | true => exact Token.lexical_spelled (.inr (by decide))
    | false => exact Token.lexical_spelled (.inr (by decide))
  | nil => exact Token.lexical_spelled (.inr (by decide))

/-- All tokens of a tree that is shaped like a phrase and can be written are lexemes. -/
theorem Expr.lexical_of_mem_tokens {e : Expr} (hs : e.Shaped) (hw : e.Writable) :
    ∀ t ∈ e.tokens, t.Lexical := by
  induction e with
  | literal v =>
    rintro t (_ | ⟨_, ⟨⟩⟩)
    exact hw.lexical_token
  | grouping e ih =>
    intro t ht
    simp only [tokens, List.mem_cons, List.mem_append, List.not_mem_nil, or_false] at ht
    rcases ht with rfl | ht | rfl
    · exact Token.lexical_spelled (.inl (by decide))
    · exact ih hs hw t ht
    · exact Token.lexical_spelled (.inl (by decide))
  | unary op e ih =>
    obtain ⟨hop, -, he⟩ := hs
    rintro t (_ | ⟨_, ht⟩)
    · refine hw.1.lexical (.inl ?_)
      rcases hop with hop | hop <;> rw [hop] <;> decide
    · exact ih he hw.2 t ht
  | binary l op r ihl ihr =>
    obtain ⟨hpos, -, -, hl, hr⟩ := hs
    obtain ⟨hwl, hop, hwr⟩ := hw
    intro t ht
    rcases List.mem_append.1 ht with ht | ht
    · exact ihl hl hwl t ht
    · rcases List.mem_cons.1 ht with rfl | ht
      · exact hop.lexical (.inl (TokenKind.mem_symbols_of_tightness hpos))
      · exact ihr hr hwr t ht

/-! ## Reading -/

theorem Token.respelling_unplaced : Respelling unplaced :=
  ⟨fun _ => rfl, fun _ => rfl⟩

namespace Expr

/-- The tree with its operators on no line. -/
def unplaced (e : Expr) : Expr :=
  e.mapOps Token.unplaced

/-- A tree that is shaped like a phrase, can be written and is nested within the default bound is
what its source is read as, up to the end and without a diagnostic; only the lines of its operators
are those of the source. -/
theorem run_source {e : Expr} (hshape : e.Shaped) (hwrite : e.Writable)
    (hnest : e.nesting ≤ Parser.defaultMaxDepth) :
    ∃ tree, run [] e.source = (some tree, []) ∧ tree.unplaced = e.unplaced ∧
      (Parser.ofTokens (scan e.source).tokens Parser.defaultMaxDepth).parse.2.atEnd := by
  obtain ⟨us, line, hscan, hus⟩ : ∃ us line, scan e.source = ⟨us ++ [Token.eof line], []⟩ ∧
      us.map Token.unplaced = e.tokens.map Token.unplaced :=
    scan_of_spaced (spaced_intercalate (lexical_of_mem_tokens hshape hwrite))
  have hahead : (Parser.ofTokens (scan e.source).tokens Parser.defaultMaxDepth).ahead.map
      Token.unplaced = (e.tokens ++ [Token.eof line]).map Token.unplaced := by
    rw [Parser.ahead_ofTokens, closeList_tokens_scan, hscan, List.map_append, hus, List.map_append]
  have heof : TokenKind.eof ∉ TokenKind.binaryOperators := by decide
  obtain ⟨tree, q, hq, htree, hkind⟩ :=
    Parser.parse_of_ahead_map Token.respelling_unplaced hahead hshape.derives hnest heof
  have hparse : parseTokens (scan e.source).tokens = .ok tree := congrArg Prod.fst hq
  refine ⟨tree, Prod.ext ?_ ?_, htree, ?_⟩
  · exact fst_run_eq_some_iff.2 ⟨rfl, by rw [hscan], hparse⟩
  · rw [snd_run, hparse, hscan]
    rfl
  · rw [hq]
    exact decide_eq_true hkind

/-- Signs, a group and operators of three levels around a fraction and a string with a line feed. -/
theorem run_source_two_lines :
    let x : Binary64 := .finite false .threeHalves
    let op (k : TokenKind) : Token := { Token.spelled k with line := 7 }
    let e : Expr := .binary
      (.binary (.unary (op .minus) (.literal (.number x))) (op .star)
        (.grouping (.binary (.literal (.string "a\nb")) (op .plus) (.literal .nil))))
      (op .equalEqual) (.unary (op .bang) (.literal (.bool true)))
    e.source = "- 1.5 * ( \"a\nb\" + nil ) == ! true" ∧ e.Shaped ∧ e.Writable ∧
      e.nesting ≤ Parser.defaultMaxDepth ∧
      ∃ tree, run [] e.source = (some tree, []) ∧ tree.unplaced = e.unplaced ∧
        (Parser.ofTokens (scan e.source).tokens Parser.defaultMaxDepth).parse.2.atEnd := by
  intro x op e
  have hshape : e.Shaped := by decide
  have hquote : '"' ∉ "a\nb".toList := by decide
  have hwrite : e.Writable :=
    ⟨⟨⟨⟨rfl, rfl⟩, _, rfl⟩, ⟨rfl, rfl⟩, hquote, ⟨rfl, rfl⟩, trivial⟩, ⟨rfl, rfl⟩, ⟨rfl, rfl⟩,
      trivial⟩
  have hnest : e.nesting ≤ Parser.defaultMaxDepth := by decide
  exact ⟨by decide +kernel, hshape, hwrite, hnest, run_source hshape hwrite hnest⟩

end Expr

end ExprSyntax
