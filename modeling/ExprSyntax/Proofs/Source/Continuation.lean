import ExprSyntax.Proofs.Source.Segmentation

/-!
# Text behind a text

A segment that ends in front of two further characters, of one that is no point, or of a line feed,
stays as it is whatever else stands behind (`Segment.extent_append`); only a string that is not
closed goes on. So the segments of a text in which all strings are closed are those of every text
that goes on behind it with a line feed (`Segment.segments_append_lineFeed`), and a source can be
scanned line by line where no string is open (`scan_append_lineFeed`).
-/

namespace ExprSyntax

/-! ## Lines further down -/

/-- The same token `n` lines further down. -/
def Token.lower (n : Nat) (t : Token) : Token :=
  { t with line := t.line + n }

/-- The same diagnostic `n` lines further down. -/
def Diagnostic.lower (n : Nat) (d : Diagnostic) : Diagnostic :=
  { d with line := d.line + n }

namespace Segment

/-- The same segment `n` lines further down. -/
def lower (n : Nat) (s : Segment) : Segment :=
  { s with line := s.line + n }

theorem endLine_lower (n : Nat) (s : Segment) : (s.lower n).endLine = s.endLine + n :=
  Nat.add_right_comm ..

theorem token?_lower (n : Nat) (s : Segment) : (s.lower n).token? = s.token?.map (.lower n) := by
  obtain ⟨cls, text, line⟩ := s
  cases cls with
  | lexeme k =>
    simp only [token?, endLine_lower, Option.map_some, Token.lower]
    cases k <;> rfl
  | _ => rfl

theorem diagnostic?_lower (n : Nat) (s : Segment) :
    (s.lower n).diagnostic? = s.diagnostic?.map (.lower n) := by
  obtain ⟨cls, text, line⟩ := s
  cases cls <;> rfl

/-- The line on which a text starts is that of its first segment, and the others count from it. -/
theorem segments_lower (line n : Nat) (cs : List Char) :
    segments (line + n) cs = (segments line cs).map (lower n) := by
  match cs with
  | [] => rw [segments_nil, segments_nil, List.map_nil]
  | c :: cs =>
    have hf : first (line + n) c cs = (first line c cs).lower n := rfl
    rw [segments_cons, segments_cons, hf, endLine_lower, segments_lower _ n (afterFirst c cs),
      List.map_cons]
termination_by cs.length
decreasing_by exact Nat.lt_succ_of_le (length_afterFirst_le c cs)

/-! ## What a segment does not see -/

variable {c : Char} {cs more : List Char}

/-- A run that ends in front of a further character, or in front of one that it cannot take, ends
there with more behind. -/
theorem takeWhile_append_of_ends {p : Char → Bool}
    (h : (cs.takeWhile p).length < cs.length ∨ ∀ d ∈ more.head?, p d = false) :
    (cs ++ more).takeWhile p = cs.takeWhile p := by
  rw [List.takeWhile_append]
  split
  · rename_i hall
    have hnil : more.takeWhile p = [] := by
      cases more with
      | nil => rfl
      | cons d more =>
        exact List.takeWhile_cons_of_neg (by simp [h.resolve_left (by omega) d rfl])
    have hself : cs.takeWhile p = cs := (List.takeWhile_prefix p).eq_of_length hall
    rw [hnil, List.append_nil, hself]
  · rfl

/-- A line feed ends every run of characters that it is not one of. -/
theorem ends_of_lineFeed {p : Char → Bool} (h : more.head? = some '\n') (hp : p '\n' = false) :
    ∀ d ∈ more.head?, p d = false := by
  rw [h]
  rintro d ⟨⟩
  exact hp

/-- Where a segment in front of this text ends does not depend on what is behind it: the text is not
empty, nor a point that may yet begin a fraction. -/
def Settles (rest : List Char) : Prop :=
  rest ≠ [] ∧ rest ≠ ['.']

theorem Settles.lt_length {n : Nat} (h : Settles (cs.drop n)) : n < cs.length :=
  Nat.lt_of_not_le fun hle => h.1 (List.drop_eq_nil_of_le hle)

/-- A point at the end of a text may yet begin a fraction, and digits at the end may go on. -/
theorem fractionLength_append
    (h : Settles (cs.drop (fractionLength cs)) ∨ more.head? = some '\n') :
    fractionLength (cs ++ more) = fractionLength cs := by
  cases cs with
  | nil =>
    have hm : more.head? = some '\n' := h.resolve_left fun hs => hs.1 List.drop_nil
    obtain ⟨rest, rfl⟩ := List.head?_eq_some_iff.1 hm
    rfl
  | cons d ds =>
    by_cases hd : d = '.'
    · subst hd
      have hends : (ds.takeWhile Char.isDigit).length < ds.length ∨
          ∀ e ∈ more.head?, e.isDigit = false := by
        refine h.imp (fun hs => ?_) fun hm => ends_of_lineFeed hm rfl
        rw [fractionLength] at hs
        split at hs
        · rename_i hnone
          rw [hnone]
          exact List.length_pos_of_ne_nil fun hnil => hs.2 (hnil ▸ rfl)
        · rename_i hsome
          have hlt := hs.lt_length
          rw [List.length_cons] at hlt
          omega
      rw [List.cons_append, fractionLength, fractionLength, takeWhile_append_of_ends hends]
    · simp [fractionLength, hd]

/-- A segment stays as it is with more text behind, if what follows it settles where it ends, or a
line feed does; only a string that is not closed goes on behind a line feed. -/
theorem extent_append : Settles (cs.drop (extent c cs).2) ∨
    (extent c cs).1 ≠ .openString ∧ more.head? = some '\n' →
      extent c (cs ++ more) = extent c cs := by
  fun_cases extent c cs with
  | case1 k hk =>
    intro _
    exact extent_symbol hk
  | case2 single double hp hh =>
    intro _
    obtain ⟨rest, rfl⟩ := List.head?_eq_some_iff.1 hh
    rw [extent_paired hp]
    rfl
  | case3 single double hp hh =>
    intro h
    have hne : (cs ++ more).head? ≠ some '=' := by
      cases cs with
      | nil => simp_all [Settles]
      | cons d ds => exact hh
    rw [extent_paired hp, if_neg hne]
  | case4 hc hh =>
    intro h
    subst hc
    obtain ⟨rest, rfl⟩ := List.head?_eq_some_iff.1 hh
    have hends := h.imp Settles.lt_length
      fun hm => ends_of_lineFeed (p := (· ≠ '\n')) hm.2 rfl
    rw [extent_slash, takeWhile_append_of_ends hends]
    rfl
  | case5 hc hh =>
    intro h
    subst hc
    have hne : (cs ++ more).head? ≠ some '/' := by
      cases cs with
      | nil => simp_all [Settles]
      | cons d ds => exact hh
    rw [extent_slash, if_neg hne]
  | case6 _ hb =>
    intro _
    exact extent_whitespace (isBlank_iff.1 hb)
  | case7 _ _ _ n hn =>
    -- a string that is open reaches the end of the text and takes in what stands behind
    intro h
    exact absurd (List.isEmpty_iff.1 hn) (h.resolve_right fun ho => ho.1 rfl).1
  | case8 _ _ hc n hn =>
    intro _
    subst hc
    have hends : (cs.takeWhile (· ≠ '"')).length < cs.length := by
      rw [List.isEmpty_iff, List.drop_eq_nil_iff] at hn
      exact Nat.lt_of_not_le hn
    have hopen : ¬ ((cs ++ more).drop (cs.takeWhile (· ≠ '"')).length).isEmpty := by
      rw [List.isEmpty_iff, List.drop_eq_nil_iff, List.length_append]
      omega
    rw [extent_quote, takeWhile_append_of_ends (.inl hends), if_neg hopen]
  | case9 _ _ _ hd n =>
    intro h
    have hle : n ≤ cs.length := (List.takeWhile_prefix Char.isDigit).length_le
    have hends := h.imp (fun hs => Nat.lt_of_le_of_lt (Nat.le_add_right n _) hs.lt_length)
      fun hm => ends_of_lineFeed (p := Char.isDigit) hm.2 rfl
    have hfraction : fractionLength (cs.drop n ++ more) = fractionLength (cs.drop n) :=
      fractionLength_append (h.imp (fun hs => by rwa [List.drop_drop]) And.right)
    rw [extent_digit (isDigit_iff.1 hd), takeWhile_append_of_ends hends,
      List.drop_append_of_le_length hle, hfraction]
  | case10 _ _ _ _ hs ds =>
    intro h
    have hends := h.imp Settles.lt_length
      fun hm => ends_of_lineFeed (p := isWordPart) hm.2 rfl
    rw [extent_letter (isWordStart_iff.1 hs), takeWhile_append_of_ends hends]
  | case11 =>
    intro _
    simp_all [extent]

theorem first_append (line : Nat) (h : extent c (cs ++ more) = extent c cs) :
    first line c (cs ++ more) = first line c cs := by
  rw [first, h, List.take_append_of_le_length (extent_le c cs), first]

theorem afterFirst_append (h : extent c (cs ++ more) = extent c cs) :
    afterFirst c (cs ++ more) = afterFirst c cs ++ more := by
  rw [afterFirst, h, List.drop_append_of_le_length (extent_le c cs), afterFirst]

/-! ## Behind a line feed -/

/-- The segments of a text without open strings are followed by those of what goes on behind it on a
new line. -/
theorem segments_append_lineFeed {line : Nat} {cs : List Char} (rest : List Char)
    (h : ∀ s ∈ segments line cs, s.cls ≠ .openString) :
    segments line (cs ++ '\n' :: rest) =
      segments line cs ++ segments (line + cs.count '\n') ('\n' :: rest) := by
  match cs with
  | [] => rw [segments_nil, List.nil_append, List.nil_append, List.count_nil, Nat.add_zero]
  | c :: cs =>
    rw [segments_cons, List.forall_mem_cons] at h
    have he : extent c (cs ++ '\n' :: rest) = extent c cs := extent_append (.inr ⟨h.1, rfl⟩)
    rw [List.cons_append, segments_cons, first_append line he, afterFirst_append he,
      segments_append_lineFeed rest h.2, endLine_first_add_count, segments_cons line c cs,
      List.cons_append]
termination_by cs.length
decreasing_by exact Nat.lt_succ_of_le (length_afterFirst_le c cs)

/-- A line feed is a segment of its own. -/
theorem segments_lineFeed (line : Nat) (cs : List Char) :
    segments line ('\n' :: cs) = ⟨.blank, ['\n'], line⟩ :: segments (line + 1) cs := by
  have he : extent '\n' cs = (.blank, 0) := extent_whitespace (.inr (.inr (.inr rfl)))
  rw [segments_cons, first, afterFirst, he]
  rfl

/-- An open string is reported as one. -/
theorem cls_ne_openString {source : String}
    (h : ∀ d ∈ (scan source).diagnostics, d.message ≠ "Unterminated string.") :
    ∀ s ∈ segments 1 source.toList, s.cls ≠ .openString := by
  intro s hs hcls
  have hd : s.diagnostic? = some (.lexical s.line "Unterminated string.") := by
    rw [diagnostic?, hcls]
  exact h _ (List.mem_filterMap.2 ⟨s, hs, hd⟩) rfl

end Segment

theorem filterMap_map_lower {α : Type} {f : Segment → Option α} {g : α → α} {n : Nat}
    (h : ∀ s, f (s.lower n) = (f s).map g) (ss : List Segment) :
    (ss.map (.lower n)).filterMap f = (ss.filterMap f).map g := by
  rw [List.filterMap_map, List.map_filterMap]
  exact congrArg (List.filterMap · ss) (funext h)

/-- A source that leaves no string open and another one on the lines behind it are scanned each for
itself: in place of the first end marker stand the tokens that the second has alone, as many lines
further down as the first takes, and so for the diagnostics. -/
theorem scan_append_lineFeed (a b : String)
    (h : ∀ d ∈ (scan a).diagnostics, d.message ≠ "Unterminated string.") :
    let n := a.toList.count '\n' + 1
    ∃ ts, (scan a).tokens = ts ++ [Token.eof n] ∧
      scan (a ++ "\n" ++ b) =
        ⟨ts ++ (scan b).tokens.map (.lower n),
          (scan a).diagnostics ++ (scan b).diagnostics.map (.lower n)⟩ := by
  intro n
  refine ⟨(Segment.segments 1 a.toList).filterMap Segment.token?, ?_, ?_⟩
  · rw [scan, Nat.add_comm 1]
  have htext : (a ++ "\n" ++ b).toList = a.toList ++ '\n' :: b.toList := by simp
  have hsegments : Segment.segments 1 (a ++ "\n" ++ b).toList =
      Segment.segments 1 a.toList ++ ⟨.blank, ['\n'], 1 + a.toList.count '\n'⟩ ::
        (Segment.segments 1 b.toList).map (.lower n) := by
    rw [htext, Segment.segments_append_lineFeed _ (Segment.cls_ne_openString h),
      Segment.segments_lineFeed, Nat.add_assoc, Segment.segments_lower]
  have heof : Token.eof (1 + (a ++ "\n" ++ b).toList.count '\n') =
      (Token.eof (1 + b.toList.count '\n')).lower n := by
    have hcount : 1 + (a.toList ++ '\n' :: b.toList).count '\n' = 1 + b.toList.count '\n' + n := by
      rw [List.count_append, List.count_cons_self]
      omega
    rw [htext, hcount]
    rfl
  rw [scan, hsegments, List.filterMap_append, List.filterMap_cons_none rfl,
    filterMap_map_lower (Segment.token?_lower n), List.filterMap_append,
    List.filterMap_cons_none rfl, filterMap_map_lower (Segment.diagnostic?_lower n), heof]
  simp [scan]

/-- In front of the line feed a comment with a quote, a stray character, a string over two lines and
a point behind digits; behind it a string that is not closed. -/
theorem scan_append_lineFeed_point :
    let a := "1 // \"\n# \"x\ny\" 3."
    let b := "5 /\n\"open\n"
    (∀ d ∈ (scan a).diagnostics, d.message ≠ "Unterminated string.") ∧
      a.toList.count '\n' + 1 = 3 ∧
      ∃ ts, (scan a).tokens = ts ++ [Token.eof 3] ∧
        scan (a ++ "\n" ++ b) =
          ⟨ts ++ (scan b).tokens.map (.lower 3),
            (scan a).diagnostics ++ (scan b).diagnostics.map (.lower 3)⟩ := by
  intro a b
  have h : ∀ d ∈ (scan a).diagnostics, d.message ≠ "Unterminated string." := by decide +kernel
  have hn : a.toList.count '\n' + 1 = 3 := by decide
  exact ⟨h, hn, hn ▸ scan_append_lineFeed a b h⟩

end ExprSyntax
