import ExprSyntax.Source.Scan

/-!
# Cutting a text by the longest match

The notation of the language as a set of matches: `Described cls text rest` says that `text` is a
piece of class `cls` when `rest` follows it, and `Matches` adds the single character that begins no
such piece. `Cut` takes the longest match, from left to right, until nothing is left; `Scanned` says
what a list of pieces has to give. Neither looks at how a scanner goes about it.
-/

namespace ExprSyntax

inductive PieceClass where
  | whitespace | comment | symbol | word | number | closedString | openString | other
deriving DecidableEq

structure Piece where
  cls : PieceClass
  text : List Char

/-- The kinds of punctuation and operators. -/
def TokenKind.symbols : List TokenKind :=
  [leftParen, rightParen, leftBrace, rightBrace, comma, dot, minus, plus, semicolon, slash, star,
    bang, bangEqual, equal, equalEqual, greater, greaterEqual, less, lessEqual]

/-! ## Characters -/

def IsWhitespace (c : Char) : Prop :=
  c = ' ' ∨ c = '\t' ∨ c = '\r' ∨ c = '\n'

/-- The ASCII letters and the underscore. -/
def IsLetter (c : Char) : Prop :=
  ('A' ≤ c ∧ c ≤ 'Z') ∨ ('a' ≤ c ∧ c ≤ 'z') ∨ c = '_'

/-- The ASCII digits. -/
def IsDigit (c : Char) : Prop :=
  '0' ≤ c ∧ c ≤ '9'

/-! ## Matches -/

/-- The pieces that the notation describes, with what may follow them. -/
inductive Described : PieceClass → List Char → List Char → Prop
  | whitespace {c rest} : IsWhitespace c → Described .whitespace [c] rest
  | comment {body rest} : '\n' ∉ body → (∀ c ∈ rest.head?, c = '\n') →
      Described .comment ('/' :: '/' :: body) rest
  | symbol {k text rest} : k ∈ TokenKind.symbols → k.spelling? = some (String.ofList text) →
      Described .symbol text rest
  | word {c cs rest} : IsLetter c → (∀ d ∈ cs, IsLetter d ∨ IsDigit d) →
      Described .word (c :: cs) rest
  | whole {c cs rest} : (∀ d ∈ c :: cs, IsDigit d) → Described .number (c :: cs) rest
  | fraction {c cs d ds rest} : (∀ e ∈ c :: cs, IsDigit e) → (∀ e ∈ d :: ds, IsDigit e) →
      Described .number (c :: cs ++ '.' :: d :: ds) rest
  | closedString {inside rest} : '"' ∉ inside →
      Described .closedString ('"' :: inside ++ ['"']) rest
  | openString {inside} : '"' ∉ inside → Described .openString ('"' :: inside) []

/-- A piece that can be cut off: one that is described, or a character that begins no such piece. -/
inductive Matches : PieceClass → List Char → List Char → Prop
  | described {cls text rest} : Described cls text rest → Matches cls text rest
  | other {c rest} : (∀ cls text after, text ++ after = c :: rest → ¬ Described cls text after) →
      Matches .other [c] rest

/-- A match at the head of `text ++ rest` that no other match there exceeds. -/
structure Longest (cls : PieceClass) (text rest : List Char) : Prop where
  isMatch : Matches cls text rest
  length_le {cls' text' rest'} : Matches cls' text' rest' → text' ++ rest' = text ++ rest →
    text'.length ≤ text.length

/-- A text and the pieces into which it falls. -/
inductive Cut : List Char → List Piece → Prop
  | nil : Cut [] []
  | cons {cls text rest pieces} : Longest cls text rest → Cut rest pieces →
      Cut (text ++ rest) (⟨cls, text⟩ :: pieces)

theorem Described.ne_nil {cls : PieceClass} {text rest : List Char}
    (h : Described cls text rest) : text ≠ [] := by
  cases h with
  | @symbol k text rest hk hs =>
    rintro rfl
    revert k
    decide
  | _ => simp

theorem Matches.ne_nil {cls : PieceClass} {text rest : List Char}
    (h : Matches cls text rest) : text ≠ [] := by
  cases h with
  | described h => exact h.ne_nil
  | other => simp

namespace Cut

variable {cs : List Char} {pieces : List Piece}

/-- Nothing of a text is lost. -/
theorem flatMap_text (h : Cut cs pieces) : pieces.flatMap Piece.text = cs := by
  induction h with
  | nil => rfl
  | cons _ _ ih => rw [List.flatMap_cons, ih]

theorem text_ne_nil (h : Cut cs pieces) : ∀ p ∈ pieces, p.text ≠ [] := by
  induction h with
  | nil => nofun
  | cons hl _ ih =>
    rintro p (_ | ⟨_, hp⟩)
    · exact hl.isMatch.ne_nil
    · exact ih p hp

end Cut

/-! ## What a piece gives -/

namespace Piece

/-- The line on which a piece ends, if it starts on line `line`. -/
def endLine (line : Nat) (p : Piece) : Nat :=
  line + p.text.count '\n'

/-- The kind and the value of the lexeme that a piece is. A word is a keyword if all of it spells
one. -/
inductive Means : Piece → TokenKind → Option Literal → Prop
  | symbol {k text} : k ∈ TokenKind.symbols → k.spelling? = some (String.ofList text) →
      Means ⟨.symbol, text⟩ k none
  | keyword {k text} : k ∈ TokenKind.keywords → k.spelling? = some (String.ofList text) →
      Means ⟨.word, text⟩ k none
  | identifier {text} : (∀ k ∈ TokenKind.keywords, k.spelling? ≠ some (String.ofList text)) →
      Means ⟨.word, text⟩ .identifier none
  | number {text x} : Binary64.ofText? (String.ofList text) = some x →
      Means ⟨.number, text⟩ .number (some (.number x))
  | string {inside} : Means ⟨.closedString, '"' :: inside ++ ['"']⟩ .string
      (some (.string (String.ofList inside)))

/-- The tokens and diagnostics of a piece that starts on line `line`. A token stands on the line on
which its lexeme ends. -/
inductive Yields (line : Nat) : Piece → List Token → List Diagnostic → Prop
  | whitespace {text} : Yields line ⟨.whitespace, text⟩ [] []
  | comment {text} : Yields line ⟨.comment, text⟩ [] []
  | lexeme {p kind literal} : Means p kind literal →
      Yields line p [⟨kind, String.ofList p.text, literal, p.endLine line⟩] []
  | openString {text} :
      Yields line ⟨.openString, text⟩ [] [.lexical line "Unterminated string."]
  | other {text} : Yields line ⟨.other, text⟩ [] [.lexical line "Unexpected character."]

end Piece

/-- The tokens and diagnostics of pieces that start on line `line`, with the end marker behind. -/
inductive Scanned : Nat → List Piece → List Token → List Diagnostic → Prop
  | nil {line} : Scanned line [] [Token.eof line] []
  | cons {line p pieces ts us ds es} : p.Yields line ts ds →
      Scanned (p.endLine line) pieces us es → Scanned line (p :: pieces) (ts ++ us) (ds ++ es)

/-- Strings and numbers are neither symbols nor keywords. -/
theorem TokenKind.ne_of_spelled {k : TokenKind} (h : k ∈ symbols ∨ k ∈ keywords) :
    k ≠ .string ∧ k ≠ .number := by
  have hall : ∀ k ∈ symbols ++ keywords, k ≠ .string ∧ k ≠ .number := by decide
  exact hall k (List.mem_append.2 h)

/-- No two kinds have the same spelling. -/
theorem TokenKind.eq_of_spelling? {k l : TokenKind} {w : String} (hk : k.spelling? = some w)
    (hl : l.spelling? = some w) : k = l := by
  have h : ∀ k ∈ all, ∀ l ∈ all, k.spelling? = l.spelling? → k = l ∨ k.spelling? = none := by
    decide +kernel
  rcases h k (mem_all k) l (mem_all l) (hk.trans hl.symm) with h | h
  · exact h
  · exact nomatch h.symm.trans hk

/-- A number is a piece of that class, and can be read. -/
theorem Piece.Means.exists_number {p : Piece} {v : Option Literal} (h : p.Means .number v) :
    p.cls = .number ∧
      ∃ x, Binary64.ofText? (String.ofList p.text) = some x ∧ v = some (.number x) := by
  cases h with
  | number hx => exact ⟨rfl, _, hx, rfl⟩
  | symbol hk => exact absurd rfl (TokenKind.ne_of_spelled (.inl hk)).2
  | keyword hk => exact absurd rfl (TokenKind.ne_of_spelled (.inr hk)).2

/-- The value of a string is what stands between its quotes. -/
theorem Piece.Means.exists_inside {p : Piece} {v : Option Literal} (h : p.Means .string v) :
    ∃ inside, p.text = '"' :: inside ++ ['"'] ∧ v = some (.string (String.ofList inside)) := by
  cases h with
  | string => exact ⟨_, rfl, rfl⟩
  | symbol hk => exact absurd rfl (TokenKind.ne_of_spelled (.inl hk)).1
  | keyword hk => exact absurd rfl (TokenKind.ne_of_spelled (.inr hk)).1

/-- A token is what the piece that gives it means. -/
theorem Piece.Yields.means {line : Nat} {p : Piece} {t : Token} {ds : List Diagnostic}
    (h : p.Yields line [t] ds) : p.Means t.kind t.literal := by
  generalize ht : [t] = ts at h
  cases h with
  | lexeme hm =>
    obtain rfl := (List.cons.inj ht).1
    exact hm
  | whitespace | comment | openString | other => cases ht

theorem Piece.Means.deterministic {p : Piece} {k l : TokenKind} {v w : Option Literal}
    (h : p.Means k v) (h' : p.Means l w) : k = l ∧ v = w := by
  cases h with
  | symbol _ hs =>
    cases h' with
    | symbol _ hs' => exact ⟨TokenKind.eq_of_spelling? hs hs', rfl⟩
  | keyword hk hs =>
    cases h' with
    | keyword _ hs' => exact ⟨TokenKind.eq_of_spelling? hs hs', rfl⟩
    | identifier hn => exact absurd hs (hn _ hk)
  | identifier hn =>
    cases h' with
    | keyword hk hs => exact absurd hs (hn _ hk)
    | identifier => exact ⟨rfl, rfl⟩
  | number hx =>
    cases h' with
    | number hy => exact ⟨rfl, by rw [Option.some.inj (hx.symm.trans hy)]⟩
  | @string inside =>
    generalize ht : '"' :: inside ++ ['"'] = text at h'
    cases h' with
    | @string inside' =>
      rw [List.append_cancel_right (List.cons.inj ht).2]
      exact ⟨rfl, rfl⟩

theorem Piece.Yields.deterministic {line : Nat} {p : Piece} {ts us : List Token}
    {ds es : List Diagnostic} (h : p.Yields line ts ds) (h' : p.Yields line us es) :
    ts = us ∧ ds = es := by
  cases h with
  | lexeme hm =>
    cases h' with
    | lexeme hm' =>
      obtain ⟨rfl, rfl⟩ := hm.deterministic hm'
      exact ⟨rfl, rfl⟩
    | _ => cases hm
  | _ =>
    cases h' with
    | lexeme hm => cases hm
    | _ => exact ⟨rfl, rfl⟩

theorem Scanned.deterministic {line : Nat} {pieces : List Piece} {ts us : List Token}
    {ds es : List Diagnostic} (h : Scanned line pieces ts ds) (h' : Scanned line pieces us es) :
    ts = us ∧ ds = es := by
  induction h generalizing us es with
  | nil =>
    cases h'
    exact ⟨rfl, rfl⟩
  | cons hy _ ih =>
    obtain - | ⟨hy', hs'⟩ := h'
    obtain ⟨rfl, rfl⟩ := hy.deterministic hy'
    obtain ⟨rfl, rfl⟩ := ih hs'
    exact ⟨rfl, rfl⟩

end ExprSyntax
