import ExprSyntax.Proofs.Source.Lexemes

/-!
# Scanning what was scanned

A lexeme of a scan is a lexeme of the notation, however it came about: in front of a stray
character, before a point that belongs to no number, over more lines than one. So it is cut off
whole in front of whitespace, and the lexemes of a scan written out with any whitespace between
every two are scanned to the same tokens, on other lines, and without a diagnostic
(`scan_withGaps`).
-/

namespace ExprSyntax

/-- The tokens without the end marker. -/
def Scan.body (s : Scan) : List Token :=
  s.tokens.filter (·.kind ≠ .eof)

/-- The words in order, between every two of them one of the gaps. -/
def withGaps (words gaps : List String) : String :=
  String.join (List.zipWith (· ++ ·) words (gaps ++ [""]))

/-- There is something between the words, and it is whitespace. -/
def IsGap (gap : String) : Prop :=
  gap ≠ "" ∧ ∀ c ∈ gap.toList, IsWhitespace c

theorem Scan.lexical_of_mem_body {source : String} {t : Token} (h : t ∈ (scan source).body) :
    t.Lexical := by
  obtain ⟨hmem, hk⟩ := List.mem_filter.1 h
  exact lexical_of_mem_tokens_scan hmem (of_decide_eq_true hk)

theorem IsGap.blankNext {gap : String} (h : IsGap gap) (cs : List Char) :
    BlankNext (gap.toList ++ cs) := by
  obtain ⟨hne, hall⟩ := h
  obtain ⟨c, rest, hc⟩ := List.exists_cons_of_ne_nil (mt String.toList_eq_nil_iff.1 hne)
  rw [hc] at hall ⊢
  exact .of_isWhitespace (hall c List.mem_cons_self) _

/-- More whitespace in front of spaced tokens. -/
theorem Spaced.append_left {ts : List Token} {gap cs : List Char} (h : Spaced ts cs)
    (hgap : ∀ c ∈ gap, IsWhitespace c) : Spaced ts (gap ++ cs) := by
  induction gap with
  | nil => exact h
  | cons c gap ih =>
    obtain ⟨hc, hgap⟩ := List.forall_mem_cons.1 hgap
    exact .whitespace hc (ih hgap)

/-- Lexemes with a gap between every two are spaced. -/
theorem spaced_withGaps {ts : List Token} {gaps : List String} (hts : ∀ t ∈ ts, t.Lexical)
    (hlen : gaps.length = ts.length - 1) (hgaps : ∀ g ∈ gaps, IsGap g) :
    Spaced ts (withGaps (ts.map Token.lexeme) gaps).toList := by
  induction ts generalizing gaps with
  | nil => exact .nil
  | cons t ts ih =>
    obtain ⟨ht, hts⟩ := List.forall_mem_cons.1 hts
    cases gaps with
    | nil =>
      -- without a gap there is one token only, and nothing behind it
      obtain rfl : ts = [] := List.length_eq_zero_iff.1 (by simpa using hlen.symm)
      have hlast : Spaced [t] (t.lexeme.toList ++ []) := .lexeme ht nofun .nil
      simpa [withGaps] using hlast
    | cons g gaps =>
      obtain ⟨hg, hgaps⟩ := List.forall_mem_cons.1 hgaps
      have hrest : Spaced ts (withGaps (ts.map Token.lexeme) gaps).toList :=
        ih hts (by simp only [List.length_cons] at hlen; omega) hgaps
      have hall := Spaced.lexeme ht (hg.blankNext _) (hrest.append_left hg.2)
      simpa [withGaps] using hall

/-- The lexemes of a scan, written out with whitespace between every two, are scanned to the tokens
that they were, but for their lines, and nothing is reported. -/
theorem scan_withGaps (source : String) (gaps : List String)
    (hlen : gaps.length = (scan source).body.length - 1) (hgaps : ∀ g ∈ gaps, IsGap g) :
    ∃ again line,
      scan (withGaps ((scan source).body.map Token.lexeme) gaps) =
          ⟨again ++ [Token.eof line], []⟩ ∧
        again.map Token.unplaced = (scan source).body.map Token.unplaced :=
  scan_of_spaced (spaced_withGaps (fun _ => Scan.lexical_of_mem_body) hlen hgaps)

/-- Halves of an operator apart, a string over two lines, and a point between digits and a stray
character. -/
theorem scan_withGaps_point :
    let source := "a<= =\"x\ny\"3.@"
    let gaps := ["\n", " \t", "\r\n", "  ", "\t"]
    (scan source).diagnostics ≠ [] ∧
      (scan source).body.map Token.lexeme = ["a", "<=", "=", "\"x\ny\"", "3", "."] ∧
      gaps.length = (scan source).body.length - 1 ∧ (∀ g ∈ gaps, IsGap g) ∧
      ∃ again line,
        scan "a\n<= \t=\r\n\"x\ny\"  3\t." = ⟨again ++ [Token.eof line], []⟩ ∧
          again.map Token.unplaced = (scan source).body.map Token.unplaced := by
  intro source gaps
  have hstray : (scan source).diagnostics ≠ [] := by decide +kernel
  have hwords : (scan source).body.map Token.lexeme = ["a", "<=", "=", "\"x\ny\"", "3", "."] := by
    decide +kernel
  have hlen : gaps.length = (scan source).body.length - 1 := by
    rw [← List.length_map Token.lexeme, hwords]
    rfl
  have hgaps : ∀ g ∈ gaps, IsGap g := by simp [gaps, IsGap, IsWhitespace]
  have htext : withGaps ((scan source).body.map Token.lexeme) gaps =
      "a\n<= \t=\r\n\"x\ny\"  3\t." := by
    rw [hwords]
    decide
  exact ⟨hstray, hwords, hlen, hgaps, htext ▸ scan_withGaps source gaps hlen hgaps⟩

end ExprSyntax
