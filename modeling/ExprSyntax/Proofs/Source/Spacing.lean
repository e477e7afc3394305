import ExprSyntax.Proofs.Source.Segmentation

/-!
# Tokens apart from each other

A lexeme of the notation is cut off whole if nothing or whitespace follows it, whatever stands
behind (`Token.Lexical.cutsOff`), and gives its token (`Segment.segments_lexeme`). So a text of
tokens with whitespace between every two (`Spaced`) is scanned without a diagnostic and gives these
tokens back, on the lines on which they stand (`scan_of_spaced`).
-/

namespace ExprSyntax

/-- The token is a lexeme of the notation with its kind and its value. -/
def Token.Lexical (t : Token) : Prop :=
  ∃ cls, Described cls t.lexeme.toList [] ∧ Piece.Means ⟨cls, t.lexeme.toList⟩ t.kind t.literal

/-- The token as it is on no line. -/
def Token.unplaced (t : Token) : Token :=
  { t with line := 0 }

/-- Whitespace follows, or nothing. -/
def BlankNext (rest : List Char) : Prop :=
  ∀ d ∈ rest.head?, IsWhitespace d

theorem BlankNext.head?_ne {rest : List Char} (h : BlankNext rest) {d : Char}
    (hd : ¬ IsWhitespace d) : rest.head? ≠ some d :=
  fun he => hd (h d he)

/-- A text of tokens in their order, with whitespace between every two and anywhere around them. -/
inductive Spaced : List Token → List Char → Prop
  | nil : Spaced [] []
  | whitespace {c ts cs} : IsWhitespace c → Spaced ts cs → Spaced ts (c :: cs)
  | lexeme {t ts cs} : t.Lexical → BlankNext cs → Spaced ts cs →
      Spaced (t :: ts) (t.lexeme.toList ++ cs)

namespace Segment

variable {c : Char} {cs rest : List Char}

/-! ## In front of whitespace -/

/-- A run of characters that are no whitespace ends in front of whitespace. -/
theorem takeWhile_append_blank {p : Char → Bool} (hp : ∀ d, IsWhitespace d → p d = false)
    (h : ∀ d ∈ cs, p d) (hr : BlankNext rest) : (cs ++ rest).takeWhile p = cs := by
  rw [List.takeWhile_append_of_pos h]
  cases rest with
  | nil => rw [List.takeWhile_nil, List.append_nil]
  | cons d rest =>
    rw [List.takeWhile_cons_of_neg (by simp [hp d (hr d rfl)]), List.append_nil]

theorem not_isDigit_of_isWhitespace : ∀ d, IsWhitespace d → d.isDigit = false := by
  rintro d (rfl | rfl | rfl | rfl) <;> rfl

theorem not_isWordPart_of_isWhitespace : ∀ d, IsWhitespace d → isWordPart d = false := by
  rintro d (rfl | rfl | rfl | rfl) <;> rfl

theorem fractionLength_of_blankNext (hr : BlankNext rest) : fractionLength rest = 0 := by
  rcases fractionLength_cases rest with h | ⟨d, ds, more, rfl, -, -⟩
  · exact h
  · exact absurd (hr '.' rfl) (by simp [IsWhitespace])

/-! ## How far a lexeme reaches -/

/-- The segment at the head of `text ++ rest` is `text`, of the kind `k`. -/
def CutsOff (k : TokenKind) (text rest : List Char) : Prop :=
  ∃ c cs, text = c :: cs ∧ extent c (cs ++ rest) = (.lexeme k, cs.length)

theorem Spelled.cutsOff {k : TokenKind} {text : List Char} (h : Spelled k text)
    (hr : BlankNext rest) : CutsOff k text rest := by
  cases h with
  | @alone _ c h => exact ⟨c, [], rfl, extent_symbol h⟩
  | @single _ _ c h =>
    have hne : rest.head? ≠ some '=' := hr.head?_ne (by simp [IsWhitespace])
    refine ⟨c, [], rfl, ?_⟩
    rw [List.nil_append, extent_paired h, if_neg hne]
    rfl
  | @double _ _ c h =>
    refine ⟨c, ['='], rfl, ?_⟩
    rw [List.singleton_append, extent_paired h, List.head?_cons, if_pos rfl]
    rfl
  | slash =>
    have hne : rest.head? ≠ some '/' := hr.head?_ne (by simp [IsWhitespace])
    refine ⟨'/', [], rfl, ?_⟩
    rw [List.nil_append, extent_slash, if_neg hne]
    rfl

theorem cutsOff_word (h : IsLetter c) (hp : ∀ d ∈ cs, IsLetter d ∨ IsDigit d)
    (hr : BlankNext rest) :
    CutsOff ((TokenKind.keyword? (String.ofList (c :: cs))).getD .identifier) (c :: cs) rest := by
  refine ⟨c, cs, rfl, ?_⟩
  rw [extent_letter h, takeWhile_append_blank not_isWordPart_of_isWhitespace
    (fun d hd => isWordPart_iff.2 (hp d hd)) hr]

theorem cutsOff_whole (h : ∀ d ∈ c :: cs, IsDigit d) (hr : BlankNext rest) :
    CutsOff .number (c :: cs) rest := by
  have hcs : ∀ d ∈ cs, d.isDigit := fun d hd => isDigit_iff.2 (h d (List.mem_cons_of_mem _ hd))
  refine ⟨c, cs, rfl, ?_⟩
  rw [extent_digit (h c List.mem_cons_self),
    takeWhile_append_blank not_isDigit_of_isWhitespace hcs hr, List.drop_left,
    fractionLength_of_blankNext hr, Nat.add_zero]

theorem cutsOff_fraction {d : Char} {ds : List Char} (h : ∀ e ∈ c :: cs, IsDigit e)
    (h' : ∀ e ∈ d :: ds, IsDigit e) (hr : BlankNext rest) :
    CutsOff .number (c :: cs ++ '.' :: d :: ds) rest := by
  have hcs : ∀ e ∈ cs, e.isDigit := fun e he => isDigit_iff.2 (h e (List.mem_cons_of_mem _ he))
  have hds : ∀ e ∈ d :: ds, e.isDigit := fun e he => isDigit_iff.2 (h' e he)
  have hf : fractionLength ('.' :: (d :: ds ++ rest)) = (d :: ds).length + 1 := by
    rw [fractionLength, takeWhile_append_blank not_isDigit_of_isWhitespace hds hr]
    rfl
  refine ⟨c, cs ++ '.' :: d :: ds, rfl, ?_⟩
  rw [extent_digit (h c List.mem_cons_self), List.append_assoc, List.takeWhile_append_of_pos hcs,
    List.cons_append, List.takeWhile_cons_of_neg (by decide), List.append_nil, List.drop_left, hf,
    List.length_append]
  rfl

theorem cutsOff_string (h : '"' ∉ cs) : CutsOff .string ('"' :: cs ++ ['"']) rest := by
  refine ⟨'"', cs ++ ['"'], rfl, ?_⟩
  rw [List.append_assoc, List.singleton_append, extent_closed h, List.length_append]
  rfl

end Segment

open Segment

/-- A lexeme is cut off whole if whitespace or nothing follows it. -/
theorem Token.Lexical.cutsOff {t : Token} (ht : t.Lexical) {rest : List Char}
    (hr : BlankNext rest) : CutsOff t.kind t.lexeme.toList rest := by
  obtain ⟨k, lexeme, v, line⟩ := t
  obtain ⟨cls, hd, hm⟩ := ht
  dsimp only at hd hm ⊢
  generalize lexeme.toList = text at hd hm ⊢
  cases hm with
  | symbol hk hs => exact (spelled_iff.2 ⟨hk, hs⟩).cutsOff hr
  | keyword hk hs =>
    cases hd with
    | word h hp =>
      have := cutsOff_word h hp hr
      rwa [TokenKind.keyword?_eq_some_iff.2 ⟨hk, hs⟩] at this
  | identifier hn =>
    cases hd with
    | @word c cs _ h hp =>
      have hnone : TokenKind.keyword? (String.ofList (c :: cs)) = none :=
        Option.eq_none_iff_forall_ne_some.2 fun k hk =>
          hn k (TokenKind.keyword?_eq_some_iff.1 hk).1 (TokenKind.keyword?_eq_some_iff.1 hk).2
      have := cutsOff_word h hp hr
      rwa [hnone] at this
  | number hx =>
    cases hd with
    | whole h => exact cutsOff_whole h hr
    | fraction h h' => exact cutsOff_fraction h h' hr
  | @string inside =>
    generalize '"' :: inside ++ ['"'] = text at hd ⊢
    cases hd with
    | closedString h => exact cutsOff_string h

namespace Segment

variable {rest : List Char}

/-- The value that the scanner gives a lexeme is the one that it has. -/
theorem literal?_of_means {p : Piece} {k : TokenKind} {v : Option Literal} (h : p.Means k v)
    (line : Nat) : literal? k ⟨.lexeme k, p.text, line⟩ = v := by
  cases h with
  | symbol hk => exact literal?_spelled (.inl hk) _
  | keyword hk => exact literal?_spelled (.inr hk) _
  | identifier => rfl
  | number hx => simp [literal?, Segment.lexeme, hx]
  | string => simp [literal?]

/-- A lexeme in front of whitespace is the first segment, and gives its token. -/
theorem segments_lexeme {t : Token} (ht : t.Lexical) (hr : BlankNext rest) (line : Nat) :
    ∃ s : Segment, segments line (t.lexeme.toList ++ rest) = s :: segments s.endLine rest ∧
      s.token? = some { t with line := s.endLine } ∧ s.diagnostic? = none := by
  obtain ⟨c, cs, htext, hext⟩ := ht.cutsOff hr
  have hfirst : first line c (cs ++ rest) = ⟨.lexeme t.kind, t.lexeme.toList, line⟩ := by
    rw [first, hext, List.take_left, htext]
  have hafter : afterFirst c (cs ++ rest) = rest := by
    rw [afterFirst, hext, List.drop_left]
  obtain ⟨cls, -, hm⟩ := ht
  refine ⟨⟨.lexeme t.kind, t.lexeme.toList, line⟩, ?_, ?_, rfl⟩
  · rw [htext, List.cons_append, segments_cons, hafter, hfirst, ← htext]
  · have hlit := literal?_of_means hm line
    simp [token?, Segment.lexeme, hlit]

/-- Whitespace is a segment of its own, and gives nothing. -/
theorem segments_whitespace {c : Char} (hc : IsWhitespace c) (rest : List Char) (line : Nat) :
    ∃ s : Segment, segments line (c :: rest) = s :: segments s.endLine rest ∧
      s.token? = none ∧ s.diagnostic? = none := by
  have hfirst : first line c rest = ⟨.blank, [c], line⟩ := by
    rw [first, extent_whitespace hc, List.take_zero]
  have hafter : afterFirst c rest = rest := by
    rw [afterFirst, extent_whitespace hc, List.drop_zero]
  exact ⟨⟨.blank, [c], line⟩, by rw [segments_cons, hafter, hfirst], rfl, rfl⟩

/-- The segments of spaced tokens give these tokens and no diagnostic. -/
theorem filterMap_segments_of_spaced {ts : List Token} {cs : List Char} (h : Spaced ts cs)
    (line : Nat) :
    ((segments line cs).filterMap token?).map Token.unplaced = ts.map Token.unplaced ∧
      (segments line cs).filterMap diagnostic? = [] := by
  induction h generalizing line with
  | nil =>
    rw [segments_nil]
    exact ⟨rfl, rfl⟩
  | @whitespace c ts cs hc _ ih =>
    obtain ⟨s, hs, ht, hd⟩ := segments_whitespace hc cs line
    obtain ⟨iht, ihd⟩ := ih s.endLine
    rw [hs, List.filterMap_cons_none ht, List.filterMap_cons_none hd]
    exact ⟨iht, ihd⟩
  | @lexeme t ts cs hlex hr _ ih =>
    obtain ⟨s, hs, ht, hd⟩ := segments_lexeme hlex hr line
    obtain ⟨iht, ihd⟩ := ih s.endLine
    rw [hs, List.filterMap_cons_some ht, List.filterMap_cons_none hd, List.map_cons, iht]
    exact ⟨rfl, ihd⟩

end Segment

/-- Spaced tokens are what scanning their text gives, the end marker last. -/
theorem scan_of_spaced {ts : List Token} {source : String} (h : Spaced ts source.toList) :
    ∃ us line, scan source = ⟨us ++ [Token.eof line], []⟩ ∧
      us.map Token.unplaced = ts.map Token.unplaced := by
  obtain ⟨ht, hd⟩ := filterMap_segments_of_spaced h 1
  exact ⟨_, _, by rw [scan, hd], ht⟩

/-! ## One space between -/

theorem BlankNext.of_isWhitespace {c : Char} (hc : IsWhitespace c) (cs : List Char) :
    BlankNext (c :: cs) := by
  rintro d ⟨⟩
  exact hc

/-- Lexemes with one space between every two are spaced. -/
theorem spaced_intercalate {ts : List Token} (h : ∀ t ∈ ts, t.Lexical) :
    Spaced ts (String.intercalate " " (ts.map Token.lexeme)).toList := by
  induction ts with
  | nil => exact .nil
  | cons t ts ih =>
    obtain ⟨ht, hts⟩ := List.forall_mem_cons.1 h
    cases ts with
    | nil =>
      have hlast : Spaced [t] (t.lexeme.toList ++ []) := .lexeme ht nofun .nil
      rwa [List.append_nil] at hlast
    | cons u us =>
      rw [List.map_cons, List.map_cons, String.intercalate_cons_cons, String.toList_append,
        String.toList_append, List.append_assoc]
      exact .lexeme ht (.of_isWhitespace (.inl rfl) _) (.whitespace (.inl rfl) (ih hts))

end ExprSyntax
