import ExprSyntax.Proofs.Source.Segmentation

/-!
# Line numbers

The line of a place in a source is one more than the number of line feeds in front of it
(`lineAfter`). A token stands on the line of the end of its lexeme, which is also that of its
beginning unless it is a string over several lines; what is no lexeme is reported on the line on
which it begins, and the end marker stands on the line of the end of the source (`scan_places`).
-/

namespace ExprSyntax

/-- The line that is reached behind `cs`. -/
def lineAfter (cs : List Char) : Nat :=
  1 + cs.count '\n'

theorem lineAfter_append (cs ds : List Char) :
    lineAfter (cs ++ ds) = lineAfter cs + ds.count '\n' := by
  rw [lineAfter, lineAfter, List.count_append, Nat.add_assoc]

namespace PieceClass

/-- The classes of the pieces that are a token each. -/
def isLexeme : PieceClass → Bool
  | symbol | word | number | closedString => true
  | whitespace | comment | openString | other => false

/-- The classes of the pieces that are reported. -/
def isFault : PieceClass → Bool
  | openString | other => true
  | whitespace | comment | symbol | word | number | closedString => false

end PieceClass

/-- A piece of a source and all that stands in front of it. -/
structure Place where
  before : List Char
  piece : Piece

namespace Place

def isLexeme (q : Place) : Bool :=
  q.piece.cls.isLexeme

def isFault (q : Place) : Bool :=
  q.piece.cls.isFault

/-- The token is the lexeme at a place, and stands on the line on which it ends. -/
structure HasToken (q : Place) (t : Token) : Prop where
  lexeme : t.lexeme.toList = q.piece.text
  line : t.line = lineAfter (q.before ++ q.piece.text)
  line_start : ¬ (t.kind = .string ∧ '\n' ∈ t.lexeme.toList) → t.line = lineAfter q.before

/-- The diagnostic says what is wrong at a place, and stands on the line on which it begins. -/
structure HasDiagnostic (q : Place) (d : Diagnostic) : Prop where
  message : d.message =
    if q.piece.cls = .openString then "Unterminated string." else "Unexpected character."
  line : d.line = lineAfter q.before

end Place

/-- The places of consecutive pieces behind `before`. -/
def places (before : List Char) : List Piece → List Place
  | [] => []
  | p :: ps => ⟨before, p⟩ :: places (before ++ p.text) ps

theorem IsDigit.ne_lineFeed {c : Char} (h : IsDigit c) : c ≠ '\n' := by
  rintro rfl
  simp [IsDigit] at h

theorem IsLetter.ne_lineFeed {c : Char} (h : IsLetter c) : c ≠ '\n' := by
  rintro rfl
  simp [IsLetter] at h

/-- No symbol is spelled with a line feed. -/
theorem lineFeed_not_mem_symbol {k : TokenKind} {text : List Char} (hk : k ∈ TokenKind.symbols)
    (hs : k.spelling? = some (String.ofList text)) : '\n' ∉ text := by
  have hall : ∀ k ∈ TokenKind.symbols, (k.spelling?.getD "").toList.contains '\n' = false := by
    decide
  have htext := hall k hk
  rw [hs, Option.getD_some, String.toList_ofList] at htext
  simpa using htext

/-- Of the lexemes only strings have line feeds in them. -/
theorem Described.lineFeed_not_mem {cls : PieceClass} {text rest : List Char}
    (h : Described cls text rest) (hc : cls.isLexeme) (hs : cls ≠ .closedString) :
    '\n' ∉ text := by
  cases h with
  | symbol hk hs => exact lineFeed_not_mem_symbol hk hs
  | word hl hp =>
    have hne : ∀ d, IsLetter d ∨ IsDigit d → d ≠ '\n' := fun d hd =>
      hd.elim IsLetter.ne_lineFeed IsDigit.ne_lineFeed
    intro hmem
    rcases List.mem_cons.1 hmem with he | hmem
    · exact hl.ne_lineFeed he.symm
    · exact hne _ (hp _ hmem) rfl
  | whole hd => exact fun hmem => (hd _ hmem).ne_lineFeed rfl
  | fraction hd he =>
    intro hmem
    rcases List.mem_append.1 hmem with hmem | hmem
    · exact (hd _ hmem).ne_lineFeed rfl
    · rcases List.mem_cons.1 hmem with hpoint | hmem
      · exact absurd hpoint (by decide)
      · exact (he _ hmem).ne_lineFeed rfl
  | closedString => exact absurd rfl hs
  | whitespace | comment | openString => cases hc

/-! ## One piece -/

/-- What follows a lexeme does not matter to it. -/
theorem Described.of_isLexeme {cls : PieceClass} {text rest : List Char}
    (h : Described cls text rest) (hc : cls.isLexeme) (rest' : List Char) :
    Described cls text rest' := by
  cases h with
  | symbol hk hs => exact .symbol hk hs
  | word h hp => exact .word h hp
  | whole h => exact .whole h
  | fraction h h' => exact .fraction h h'
  | closedString h => exact .closedString h
  | whitespace | comment | openString => cases hc

theorem Piece.Means.isLexeme {p : Piece} {k : TokenKind} {v : Option Literal} (h : p.Means k v) :
    p.cls.isLexeme := by
  cases h <;> rfl

theorem Piece.Means.not_isFault {p : Piece} {k : TokenKind} {v : Option Literal}
    (h : p.Means k v) : ¬ p.cls.isFault := by
  cases h <;> nofun

/-- Only the lexemes of strings are closed strings. -/
theorem Piece.Means.cls_ne_closedString {p : Piece} {k : TokenKind} {v : Option Literal}
    (h : p.Means k v) (hk : k ≠ .string) : p.cls ≠ .closedString := by
  cases h <;> first | exact absurd rfl hk | nofun

theorem Matches.described_of_isLexeme {cls : PieceClass} {text rest : List Char}
    (h : Matches cls text rest) (hc : cls.isLexeme) : Described cls text rest := by
  cases h with
  | described h => exact h
  | other => cases hc

/-- The token of a lexeme at its place. -/
theorem Piece.Means.hasToken {p : Piece} {k : TokenKind} {v : Option Literal} {rest : List Char}
    (h : p.Means k v) (hm : Matches p.cls p.text rest) (before : List Char) :
    Place.HasToken ⟨before, p⟩ ⟨k, String.ofList p.text, v, p.endLine (lineAfter before)⟩ where
  lexeme := String.toList_ofList
  line := (lineAfter_append before p.text).symm
  line_start hs := by
    have hnone : '\n' ∉ p.text := by
      by_cases hk : k = .string
      · exact fun hmem => hs ⟨hk, by rwa [String.toList_ofList]⟩
      · exact (hm.described_of_isLexeme h.isLexeme).lineFeed_not_mem h.isLexeme
          (h.cls_ne_closedString hk)
    rw [Piece.endLine, List.count_eq_zero.2 hnone, Nat.add_zero]

/-! ## All pieces -/

/-- What is scanned of the pieces of `cs`, if `before` stands in front of it. -/
theorem Scanned.exists_places {line : Nat} {pieces : List Piece} {ts : List Token}
    {ds : List Diagnostic} (h : Scanned line pieces ts ds) {cs : List Char} (hc : Cut cs pieces)
    (before : List Char) (hl : line = lineAfter before) :
    ∃ us, ts = us ++ [Token.eof (lineAfter (before ++ cs))] ∧
      List.Forall₂ Place.HasToken
        ((places before pieces).filter Place.isLexeme) us ∧
      List.Forall₂ Place.HasDiagnostic
        ((places before pieces).filter Place.isFault) ds := by
  induction h generalizing cs before with
  | nil =>
    cases hc
    exact ⟨[], by rw [hl, List.append_nil, List.nil_append], .nil, .nil⟩
  | @cons line p pieces ts us ds es hy _ ih =>
    obtain - | @⟨cls, text, rest, _, hlong, hc⟩ := hc
    have hend : Piece.endLine line ⟨cls, text⟩ = lineAfter (before ++ text) := by
      rw [lineAfter_append, hl, Piece.endLine]
    obtain ⟨vs, rfl, htokens, hdiagnostics⟩ := ih hc _ hend
    rw [List.append_assoc before, ← List.append_assoc ts]
    refine ⟨ts ++ vs, rfl, ?_⟩
    subst hl
    rw [places]
    cases hy with
    | whitespace | comment => exact ⟨htokens, hdiagnostics⟩
    | lexeme hm =>
      have hlexeme : Place.isLexeme ⟨before, ⟨cls, text⟩⟩ := hm.isLexeme
      have hfault : ¬ Place.isFault ⟨before, ⟨cls, text⟩⟩ := hm.not_isFault
      rw [List.filter_cons_of_pos hlexeme, List.filter_cons_of_neg hfault]
      exact ⟨.cons (hm.hasToken hlong.isMatch before) htokens, hdiagnostics⟩
    | openString | other => exact ⟨htokens, .cons ⟨rfl, rfl⟩ hdiagnostics⟩

/-- A string over two lines stands on the second, an open one is reported on the line of its quote,
and the end marker stands below all that is inside of it. -/
example : ((scan "a \"b\nc\"\n# \"d\n\n").tokens.map Token.line,
    (scan "a \"b\nc\"\n# \"d\n\n").diagnostics.map Diagnostic.line) = ([1, 2, 5], [3, 3]) := by
  decide +kernel

end ExprSyntax
