import ExprSyntax.Proofs.Source.Extent

/-!
# The segments of a source

The segment that is cut off a text fits the notation unless it is a stray character
(`stray_or_fits`), and it is the longest match, the only one of its length (`eq_first`). So the
segments of a text are its only cut, and the scanner gives what this cut asks for
(`exists_unique_cut_scan`).
-/

namespace ExprSyntax

namespace Segment

/-- The piece that a segment is, wherever it stands. -/
def piece (s : Segment) : Piece :=
  ⟨s.cls.pieceClass, s.text⟩

/-- A segment that is described by the notation and gives what it asks for. -/
structure Fits (s : Segment) (rest : List Char) : Prop where
  described : Described s.piece.cls s.piece.text rest
  yields : s.piece.Yields s.line s.token?.toList s.diagnostic?.toList

section
variable {c : Char} {cs ds rest : List Char} {line : Nat}

theorem literal?_eq_none {k : TokenKind} (hs : k ≠ .string) (hn : k ≠ .number) (s : Segment) :
    literal? k s = none := by
  unfold literal?
  split <;> first | rfl | contradiction

theorem literal?_spelled {k : TokenKind} (h : k ∈ TokenKind.symbols ∨ k ∈ TokenKind.keywords)
    (s : Segment) : literal? k s = none :=
  literal?_eq_none (TokenKind.ne_of_spelled h).1 (TokenKind.ne_of_spelled h).2 s

theorem Fits.of_means {k : TokenKind} {text : List Char}
    (hd : Described (SegmentClass.lexeme k).pieceClass text rest)
    (hm : Piece.Means ⟨(SegmentClass.lexeme k).pieceClass, text⟩ k
      (literal? k ⟨.lexeme k, text, line⟩)) :
    Fits ⟨.lexeme k, text, line⟩ rest :=
  ⟨hd, .lexeme hm⟩

theorem Spelled.fits {k : TokenKind} {text : List Char} (h : Spelled k text) :
    Fits ⟨.lexeme k, text, line⟩ rest := by
  obtain ⟨hk, hs⟩ := spelled_iff.mp h
  apply Fits.of_means
  · rw [SegmentClass.pieceClass_symbol k hk]
    exact .symbol hk hs
  · rw [SegmentClass.pieceClass_symbol k hk, literal?_spelled (.inl hk)]
    exact .symbol hk hs

theorem fits_word (h : IsLetter c) (hp : ∀ d ∈ ds, IsLetter d ∨ IsDigit d) :
    Fits ⟨.lexeme ((TokenKind.keyword? (String.ofList (c :: ds))).getD .identifier), c :: ds, line⟩
      rest := by
  apply Fits.of_means
  · rw [SegmentClass.pieceClass_word]
    exact .word h hp
  · rw [SegmentClass.pieceClass_word]
    cases hk : TokenKind.keyword? (String.ofList (c :: ds)) with
    | none =>
      refine .identifier fun k hk' hs => ?_
      rw [TokenKind.keyword?_eq_some_iff.mpr ⟨hk', hs⟩] at hk
      contradiction
    | some k =>
      obtain ⟨hk', hs⟩ := TokenKind.keyword?_eq_some_iff.mp hk
      rw [Option.getD_some, literal?_spelled (.inr hk')]
      exact .keyword hk' hs

theorem fits_whole (h : ∀ d ∈ c :: cs, IsDigit d) :
    Fits ⟨.lexeme .number, c :: cs, line⟩ rest := by
  have hx := Binary64.ofText?_whole fun d hd => isDigit_iff.mpr (h d hd)
  refine Fits.of_means (.whole h) ?_
  simp only [literal?, lexeme, hx]
  exact .number hx

theorem fits_fraction {d : Char} (h : ∀ e ∈ c :: cs, IsDigit e) (h' : ∀ e ∈ d :: ds, IsDigit e) :
    Fits ⟨.lexeme .number, c :: cs ++ '.' :: d :: ds, line⟩ rest := by
  have hx := Binary64.ofText?_fraction (fun e he => isDigit_iff.mpr (h e he))
    fun e he => isDigit_iff.mpr (h' e he)
  refine Fits.of_means (.fraction h h') ?_
  simp only [literal?, lexeme, hx]
  exact .number hx

theorem fits_string (h : '"' ∉ cs) : Fits ⟨.lexeme .string, '"' :: cs ++ ['"'], line⟩ rest := by
  have hl : literal? .string ⟨.lexeme .string, '"' :: cs ++ ['"'], line⟩ =
      some (.string (String.ofList cs)) := by
    simp [literal?]
  refine Fits.of_means (.closedString h) ?_
  rw [hl]
  exact .string

/-! ## What is cut off -/

theorem take_takeWhile (p : Char → Bool) (cs : List Char) :
    cs.take (cs.takeWhile p).length = cs.takeWhile p :=
  (List.prefix_iff_eq_take.mp (List.takeWhile_prefix p)).symm

theorem drop_takeWhile (p : Char → Bool) (cs : List Char) :
    cs.drop (cs.takeWhile p).length = cs.dropWhile p :=
  calc cs.drop (cs.takeWhile p).length
    _ = (cs.takeWhile p ++ cs.dropWhile p).drop (cs.takeWhile p).length := by
      rw [List.takeWhile_append_dropWhile]
    _ = cs.dropWhile p := List.drop_left

/-- The characters in front of the first `x` are none. -/
theorem not_mem_takeWhile (x : Char) (cs : List Char) : x ∉ cs.takeWhile (· ≠ x) :=
  fun h => absurd (List.mem_takeWhile_imp h) (by simp)

/-- What follows them begins with it. -/
theorem head?_dropWhile {x : Char} {cs : List Char} :
    ∀ d ∈ (cs.dropWhile (· ≠ x)).head?, d = x := by
  intro d hd
  have h := List.head?_dropWhile_not (· ≠ x) cs
  rw [Option.mem_def.mp hd] at h
  simpa using h

/-- A fraction is a point and digits, at least one; its length is nothing where there is none. -/
theorem fractionLength_cases (cs : List Char) :
    fractionLength cs = 0 ∨ ∃ d ds rest, cs = '.' :: d :: ds ++ rest ∧ (∀ e ∈ d :: ds, IsDigit e) ∧
      fractionLength cs = (d :: ds).length + 1 := by
  fun_cases fractionLength cs with
  | case1 => exact .inl rfl
  | case2 cs n h =>
    cases hd : cs.takeWhile Char.isDigit with
    | nil => simp [hd] at h
    | cons d ds =>
      refine .inr ⟨d, ds, cs.dropWhile Char.isDigit, ?_, fun e he => ?_, ?_⟩
      · rw [List.cons_append, ← hd, List.takeWhile_append_dropWhile]
      · exact isDigit_iff.mp (List.mem_takeWhile_imp (hd ▸ he))
      · rw [← hd, h]
  | case3 => exact .inl rfl

/-- A segment is a stray character or fits. -/
theorem stray_or_fits (line : Nat) (c : Char) (cs : List Char) :
    extent c cs = (.stray, 0) ∨ Fits (first line c cs) (afterFirst c cs) := by
  unfold first afterFirst
  fun_cases extent c cs with
  | case1 k hk => exact .inr (Spelled.fits (.alone hk))
  | case2 single double hp hh =>
    obtain ⟨rest, rfl⟩ : ∃ rest, cs = '=' :: rest := by
      simpa [List.head?_eq_some_iff] using hh
    exact .inr (Spelled.fits (.double hp))
  | case3 single double hp => exact .inr (Spelled.fits (.single hp))
  | case4 hc hh =>
    subst hc
    obtain ⟨rest, rfl⟩ : ∃ rest, cs = '/' :: rest := by
      simpa [List.head?_eq_some_iff] using hh
    simp only [take_takeWhile, drop_takeWhile]
    exact .inr ⟨.comment (not_mem_takeWhile '\n' rest) head?_dropWhile, .comment⟩
  | case5 hc =>
    subst hc
    exact .inr (Spelled.fits .slash)
  | case6 _ hb => exact .inr ⟨.whitespace (isBlank_iff.mp hb), .whitespace⟩
  | case7 _ _ hc n hn =>
    subst hc
    simp only [List.isEmpty_iff.mp hn, n, take_takeWhile]
    exact .inr ⟨.openString (not_mem_takeWhile '"' cs), .openString⟩
  | case8 _ _ hc n hn =>
    subst hc
    obtain ⟨d, rest, hr⟩ := List.ne_nil_iff_exists_cons.mp fun h => hn (List.isEmpty_iff.mpr h)
    obtain rfl : d = '"' := by
      apply head?_dropWhile
      rw [← drop_takeWhile, hr]
      rfl
    have ht : cs.take (n + 1) = cs.takeWhile (· ≠ '"') ++ ['"'] := by
      rw [List.take_add, hr, take_takeWhile]
      rfl
    simp only [ht]
    exact .inr (fits_string (not_mem_takeWhile '"' cs))
  | case9 _ _ _ hd n =>
    have hw : ∀ d ∈ c :: cs.takeWhile Char.isDigit, IsDigit d :=
      List.forall_mem_cons.mpr ⟨isDigit_iff.mp hd, fun d hd =>
        isDigit_iff.mp (List.mem_takeWhile_imp hd)⟩
    rcases fractionLength_cases (cs.drop n) with hf | ⟨d, ds, rest, hr, hds, hf⟩
    · simp only [hf, Nat.add_zero, n, take_takeWhile]
      exact .inr (fits_whole hw)
    · have ht : cs.take (n + fractionLength (cs.drop n)) =
          cs.takeWhile Char.isDigit ++ '.' :: d :: ds := by
        rw [List.take_add, hf, hr, take_takeWhile]
        simp
      simp only [ht]
      exact .inr (fits_fraction hw hds)
  | case10 _ _ _ _ hs ds =>
    simp only [ds, take_takeWhile]
    exact .inr (fits_word (isWordStart_iff.mp hs) fun d hd =>
      isWordPart_iff.mp (List.mem_takeWhile_imp hd))
  | case11 => exact .inl rfl

/-! ## The segment that is cut off is the longest match -/

theorem fractionLength_le (cs : List Char) : fractionLength cs ≤ cs.length := by
  rcases fractionLength_cases cs with h | ⟨d, ds, rest, rfl, -, h⟩
  · simp [h]
  · rw [h]
    simp

/-- A segment stays inside of the text. -/
theorem extent_le (c : Char) (cs : List Char) : (extent c cs).2 ≤ cs.length := by
  fun_cases extent c cs with
  | case2 _ _ _ hh =>
    obtain ⟨rest, rfl⟩ := List.head?_eq_some_iff.mp hh
    simp
  | case8 _ _ _ n hn =>
    rw [List.isEmpty_iff, List.drop_eq_nil_iff] at hn
    exact Nat.lt_of_not_le hn
  | case9 _ _ _ _ n =>
    have hn : n ≤ cs.length := (List.takeWhile_prefix Char.isDigit).length_le
    have hf := fractionLength_le (cs.drop n)
    rw [List.length_drop] at hf
    show n + fractionLength (cs.drop n) ≤ cs.length
    omega
  | _ => first
    | exact Nat.zero_le _
    | exact (List.takeWhile_prefix _).length_le

theorem length_text_first (line : Nat) (c : Char) (cs : List Char) :
    (first line c cs).text.length = (extent c cs).2 + 1 := by
  simp [first, extent_le]

theorem matches_first (line : Nat) (c : Char) (cs : List Char) :
    Matches (first line c cs).piece.cls (first line c cs).text (afterFirst c cs) ∧
      (first line c cs).piece.Yields line (first line c cs).token?.toList
        (first line c cs).diagnostic?.toList := by
  rcases stray_or_fits line c cs with h | h
  · have hf : first line c cs = ⟨.stray, [c], line⟩ := by simp [first, h]
    have ha : afterFirst c cs = cs := by simp [afterFirst, h]
    rw [hf, ha]
    exact ⟨.other fun cls text after ht hd => (hd.covered ht).ne_stray (by rw [h]), .other⟩
  · exact ⟨.described h.described, h.yields⟩

theorem longest_first (line : Nat) (c : Char) (cs : List Char) :
    Longest (first line c cs).piece.cls (first line c cs).text (afterFirst c cs) := by
  refine ⟨(matches_first line c cs).1, fun h ht => ?_⟩
  rw [text_first_append] at ht
  rw [length_text_first]
  cases h with
  | described h => exact (h.covered ht).length_le
  | other => simp

/-- No other match is as long. -/
theorem eq_first {cls : PieceClass} {text rest : List Char} (line : Nat)
    (h : Longest cls text rest) (ht : text ++ rest = c :: cs) :
    ⟨cls, text⟩ = (first line c cs).piece ∧ rest = afterFirst c cs := by
  have ht' : text ++ rest = (first line c cs).text ++ afterFirst c cs := by
    rw [ht, text_first_append]
  have hl : text.length = (first line c cs).text.length :=
    Nat.le_antisymm ((longest_first line c cs).length_le h.isMatch ht')
      (h.length_le (matches_first line c cs).1 ht'.symm)
  obtain ⟨htext, hrest⟩ := List.append_inj ht' hl
  suffices hc : cls = (first line c cs).piece.cls from ⟨by rw [hc, htext]; rfl, hrest⟩
  cases h.isMatch with
  | described hd => exact ((hd.covered ht).cls_eq (by rw [hl, length_text_first])).symm
  | other hn =>
    rcases stray_or_fits line c cs with hs | hf
    · simp [piece, first, hs, SegmentClass.pieceClass]
    · exact absurd hf.described (hn _ _ _ ht'.symm)

end

/-! ## All segments -/

/-- The segments of a text are a cut of it. -/
theorem cut_segments (line : Nat) (cs : List Char) :
    Cut cs ((segments line cs).map piece) := by
  match cs with
  | [] =>
    rw [segments_nil]
    exact .nil
  | c :: cs =>
    have h := Cut.cons (longest_first line c cs) (cut_segments (first line c cs).endLine _)
    rw [text_first_append] at h
    rw [segments_cons, List.map_cons]
    exact h
termination_by cs.length
decreasing_by exact Nat.lt_succ_of_le (length_afterFirst_le c cs)

/-- There is no other cut. -/
theorem eq_segments {cs : List Char} {pieces : List Piece} (h : Cut cs pieces) (line : Nat) :
    pieces = (segments line cs).map piece := by
  induction h generalizing line with
  | nil => rw [segments_nil, List.map_nil]
  | @cons cls text rest pieces hl _ ih =>
    obtain ⟨c, cs, rfl⟩ := List.ne_nil_iff_exists_cons.mp hl.isMatch.ne_nil
    obtain ⟨hp, hr⟩ := eq_first line hl List.cons_append
    rw [List.cons_append, segments_cons, List.map_cons, ← hp, ← hr, ← ih]

theorem filterMap_cons_toList {α : Type} (f : Segment → Option α) (s : Segment)
    (ss : List Segment) : (s :: ss).filterMap f = (f s).toList ++ ss.filterMap f := by
  cases h : f s <;> simp [h]

/-- No line feed is counted twice, and none is missed. -/
theorem endLine_first_add_count (line : Nat) (c : Char) (cs : List Char) :
    (first line c cs).endLine + (afterFirst c cs).count '\n' = line + (c :: cs).count '\n' := by
  rw [← text_first_append line c cs, List.count_append, ← Nat.add_assoc]
  rfl

/-- The scanner gives what the segments ask for. -/
theorem scanned_segments (line : Nat) (cs : List Char) :
    Scanned line ((segments line cs).map piece)
      ((segments line cs).filterMap token? ++ [Token.eof (line + cs.count '\n')])
      ((segments line cs).filterMap diagnostic?) := by
  match cs with
  | [] =>
    rw [segments_nil]
    exact .nil
  | c :: cs =>
    have h := Scanned.cons (matches_first line c cs).2
      (scanned_segments (first line c cs).endLine (afterFirst c cs))
    rw [endLine_first_add_count] at h
    rw [segments_cons, List.map_cons, filterMap_cons_toList, filterMap_cons_toList,
      List.append_assoc]
    exact h
termination_by cs.length
decreasing_by exact Nat.lt_succ_of_le (length_afterFirst_le c cs)

end Segment

/-- Every source can be cut in exactly one way, and the scanner gives what the cut asks for. -/
theorem exists_unique_cut_scan (source : String) : ∃ pieces, Cut source.toList pieces ∧
    (∀ pieces', Cut source.toList pieces' → pieces' = pieces) ∧
    pieces.flatMap Piece.text = source.toList ∧ (∀ p ∈ pieces, p.text ≠ []) ∧
    ∀ tokens diagnostics,
      scan source = ⟨tokens, diagnostics⟩ ↔ Scanned 1 pieces tokens diagnostics := by
  have hc := Segment.cut_segments 1 source.toList
  have hs := Segment.scanned_segments 1 source.toList
  refine ⟨_, hc, fun _ h => Segment.eq_segments h 1, hc.flatMap_text, hc.text_ne_nil, ?_⟩
  intro tokens diagnostics
  constructor
  · intro h
    cases h
    exact hs
  · intro h
    obtain ⟨rfl, rfl⟩ := hs.deterministic h
    rfl

/-- A keyword in front of letters is part of a word, and a point behind digits counts only with
digits behind it. -/
example : (scan "or orchid 1.5.").tokens.map (fun t => (t.kind, t.lexeme)) =
    [(.kwOr, "or"), (.identifier, "orchid"), (.number, "1.5"), (.dot, "."), (.eof, "")] := by
  decide +kernel

end ExprSyntax
